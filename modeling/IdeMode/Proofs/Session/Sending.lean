import IdeMode.Proofs.Session.Directories
set_option autoImplicit false

/-!
# Every call is written at most once

The outbox and the loop that empties it come and go: a session that is closed drops both, and a
command that cannot be written ends the loop. Over the whole life of a session the frames that reach
its processes are nevertheless those of its calls in the order of their numbers, each at most once.
A call that has come to its end stays in the outbox, but it is not written any more.
-/

namespace IdeMode

open Account List

variable {ℓ notes before after : List Note} {x : Note} {call : Call} {request : SessionRequest}
  {purpose : Purpose}

/-! ## Calls that have come to their end -/

/-- A call was issued and is no longer pending: it was answered, failed, timed out or was
dropped. -/
def Finished (ℓ : List Note) (call : Call) : Prop :=
  (∃ request purpose, .issue request call purpose ∈ ℓ) ∧ ¬ Pending ℓ call

/-- A call that was issued is pending only if it was so before. -/
theorem Faithful.pending_of_snoc (h : Faithful (ℓ ++ [x]))
    (hissued : .issue request call purpose ∈ ℓ) (hpending : Pending (ℓ ++ [x]) call) :
    Pending ℓ call := by
  cases hx : x.act? with
  | none => rwa [Pending, acts_snoc_of_none hx] at hpending
  | some a =>
    have hpossible := h.possible hx
    rw [Pending, acts_snoc_of_some hx, replay_snoc] at hpending
    obtain ⟨same, hsame, hid⟩ := any_eq_true.1 hpending
    refine any_eq_true.2 ⟨same, ?_, hid⟩
    cases a with
    | issue new =>
      have hnew : new.id = (replay (acts ℓ)).calls.nextId := hpossible
      rw [pending_issue hnew] at hsame
      refine (mem_append.1 hsame).resolve_right fun hlast => ?_
      have hlt := h.initial.lawful.numbers.2 call (mem_given_of_issue hissued)
      rw [mem_singleton.1 hlast] at hid
      exact Nat.ne_of_gt (hnew ▸ hlt) (of_decide_eq_true hid)
    | refuse refused => rwa [pending_refuse] at hsame
    | _ => exact pending_after_subset rfl hsame

/-- A call that has come to its end is never pending again. -/
theorem Faithful.finished_append (h : Faithful (ℓ ++ notes)) (hfinished : Finished ℓ call) :
    Finished (ℓ ++ notes) call := by
  obtain ⟨⟨request, purpose, hissued⟩, hpending⟩ := hfinished
  refine ⟨⟨request, purpose, mem_append_left _ hissued⟩, ?_⟩
  induction notes using List.reverseRecOn with
  | nil => rwa [append_nil]
  | append_singleton notes x ih =>
    rw [← append_assoc] at h ⊢
    exact fun hlater => ih h.initial (h.pending_of_snoc (mem_append_left _ hissued) hlater)

/-! ## Writing -/

/-- What is written was issued before and has not come to its end. -/
theorem Faithful.issued_of_write {c : Nat} (h : Faithful (before ++ .write c call :: after)) :
    (∃ request purpose, .issue request call purpose ∈ before) ∧ ¬ Finished before call := by
  have hwrite : Faithful (before ++ [.write c call]) := by
    rw [append_cons] at h
    exact h.initial
  obtain ⟨request, purpose, hissued⟩ :=
    hwrite.valid.issued_of_write (mem_append_right before (mem_singleton_self _))
  have hbefore := (mem_append.1 hissued).resolve_right fun hlast => nomatch mem_singleton.1 hlast
  exact ⟨⟨request, purpose, hbefore⟩, fun hfinished => hfinished.2 hwrite.fits.1.2.1⟩

/-- A frame carries a call: its text is that of the command under the number of the call. -/
def Host.Sent.Carries (f : Host.Sent) (call : Call) : Prop :=
  ∃ text, (call.command.request call.id).encode = .ok text ∧
    f.text = String.ofList (Wire.frame text)

/-- Every call that is written goes into one frame. -/
theorem Valid.sent_carries (h : Valid ℓ) :
    List.Forall₂ Host.Sent.Carries (ℓ.filterMap Note.sent?) (ℓ.filterMap Note.written?) := by
  induction ℓ using List.reverseRecOn with
  | nil => exact .nil
  | append_singleton ℓ x ih =>
    obtain ⟨hvalid, -, hfits⟩ := throughout_snoc.1 h
    rw [filterMap_snoc, filterMap_snoc]
    refine rel_append (ih hvalid) ?_
    cases x with
    | write c written =>
      obtain ⟨-, -, text, htext⟩ := hfits.1
      have hsent : Note.sent? (.write c written) = some ⟨c, String.ofList (Wire.frame text)⟩ := by
        simp only [Note.sent?, htext]
      rw [hsent]
      exact .cons ⟨text, htext, rfl⟩ .nil
    | _ => exact .nil

/-- Over the whole life of a session, the frames that were sent are those of the calls that the log
says were written, one for each and with rising numbers. A call is written after it was issued under
its number and before it comes to its end: at no time before the frame is sent has the call been
answered, failed, timed out or been dropped. -/
theorem frames_in_issue_order {s : Nat} {m : Machine} (hm : m.Pristine s) {moves : List Move}
    (hmoves : ∀ move ∈ moves, move.On s) :
    (∃ book, Logbook s m moves book) ∧ ∀ book, Logbook s m moves book →
      List.Forall₂ Host.Sent.Carries (m.follow moves).world.host.sent
        ((logOf book).filterMap Note.written?) ∧
      ((logOf book).filterMap Note.written?).Pairwise (fun c d => c.id < d.id) ∧
      (∀ before c call after, logOf book = before ++ .write c call :: after →
        (∃ request purpose, .issue request call purpose ∈ before) ∧
          ∀ earlier, earlier <+: before → ¬ Finished earlier call) ∧
      ∀ n ≤ moves.length, ∀ request call purpose,
        .issue request call purpose ∈ logOf (book.take n) →
        ((m.follow (moves.take n)).world.session s).dispatch.isPending call.id = false →
        call ∉ (logOf (book.drop n)).filterMap Note.written? := by
  refine ⟨hm.logbook hmoves, fun book hbook => ?_⟩
  have hfaithful : Faithful (logOf book) := ⟨hbook.valid, hbook.lawful⟩
  have hunfinished : ∀ before c call after, logOf book = before ++ .write c call :: after →
      ∀ earlier, earlier <+: before → ¬ Finished earlier call := by
    rintro before c call after hlog earlier ⟨rest, rfl⟩ hfinished
    rw [hlog] at hfaithful
    exact hfaithful.issued_of_write.2 (hfaithful.initial.finished_append hfinished)
  refine ⟨?_, hfaithful.sorted_written, fun before c call after hlog => ?_, ?_⟩
  · have hsent := (hbook.shows moves.length (Nat.le_refl _)).sent_eq
    rw [take_length, ← hbook.toJournal.length_eq, take_length] at hsent
    rw [hsent]
    exact hbook.valid.sent_carries
  · exact ⟨(hlog ▸ hfaithful).issued_of_write.1, hunfinished before c call after hlog⟩
  · intro n hn request call purpose hissued hpending hwritten
    obtain ⟨x, hx, hcall⟩ := mem_filterMap.1 hwritten
    obtain ⟨c, rfl⟩ : ∃ c, x = .write c call := by
      cases x with
      | write c written => exact ⟨c, congrArg (Note.write c) (Option.some.inj hcall)⟩
      | _ => cases hcall
    obtain ⟨mid, after, hdrop⟩ := append_of_mem hx
    have hlog : logOf book = (logOf (book.take n) ++ mid) ++ .write c call :: after := by
      rw [← logOf_take_drop book n, hdrop, append_assoc]
    refine hunfinished _ c call after hlog _ (prefix_append _ _)
      ⟨⟨request, purpose, hissued⟩, fun hthere => ?_⟩
    have hcalls := congrArg (·.calls.isPending call.id) (hbook.shows n hn).account_eq
    exact Bool.noConfusion (hpending.symm.trans (hcalls.trans hthere))

/-- A machine with one session, whose compiler does not answer. -/
def muteMachine : Machine where
  world :=
    { host := { cwd := ⟨[]⟩, reactions := [("type-of", List.replicate 4 {})] }
      sessions := [{}] }

/-- A command that cannot be written ends the loop that writes, with another one waiting behind it;
the next one starts the loop again. The fourth is dropped before it is written, and then there is a
fifth. -/
def interruptedMoves : List Move :=
  .launch 0 (.session 0 .ensure) :: List.replicate 3 .turn ++
    .launch 1 (.session 0 (.post "a" ⟨"type-of", [.none]⟩)) ::
    .launch 2 (.session 0 (.post "b" ⟨"type-of", [.str "x"]⟩)) :: List.replicate 5 .turn ++
    .launch 3 (.session 0 (.post "c" ⟨"type-of", [.str "y"]⟩)) :: List.replicate 4 .turn ++
    .launch 4 (.session 0 (.post "d" ⟨"type-of", [.str "z"]⟩)) ::
    .launch 5 (.session 0 .discard) ::
    .launch 6 (.session 0 (.post "e" ⟨"type-of", [.str "w"]⟩)) :: List.replicate 8 .turn

/-- Numbers one and four are never written, and the others are in order. -/
theorem frames_in_issue_order_interrupted :
    muteMachine.Pristine 0 ∧ (∀ move ∈ interruptedMoves, move.On 0) ∧
    (muteMachine.follow interruptedMoves).world.host.sent =
      [⟨0, "000013((:type-of \"x\") 2)\n"⟩, ⟨0, "000013((:type-of \"y\") 3)\n"⟩,
        ⟨0, "000013((:type-of \"w\") 5)\n"⟩] ∧
    ∃ book, Logbook 0 muteMachine interruptedMoves book ∧
      ((logOf book).filterMap Note.written?).length = 3 ∧
      ((logOf book).filterMap Note.written?).Pairwise (fun c d => c.id < d.id) := by
  have hpristine : muteMachine.Pristine 0 := ⟨⟨Nat.one_pos, rfl, rfl, rfl⟩, rfl, rfl⟩
  have hmoves : ∀ move ∈ interruptedMoves, move.On 0 := by
    simp [interruptedMoves, Move.On, SessionRequest.Genuine]
  have hsent : (muteMachine.follow interruptedMoves).world.host.sent =
      [⟨0, "000013((:type-of \"x\") 2)\n"⟩, ⟨0, "000013((:type-of \"y\") 3)\n"⟩,
        ⟨0, "000013((:type-of \"w\") 5)\n"⟩] := by decide +kernel
  obtain ⟨⟨book, hbook⟩, hordered⟩ := frames_in_issue_order hpristine hmoves
  obtain ⟨hcarries, hsorted, -⟩ := hordered book hbook
  refine ⟨hpristine, hmoves, hsent, book, hbook, ?_, hsorted⟩
  rw [← hcarries.length_eq, hsent]
  rfl

end IdeMode
