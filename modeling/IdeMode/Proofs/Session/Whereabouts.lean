import IdeMode.Proofs.Session.Sight
set_option autoImplicit false

/-!
# Where the compiler is

A session remembers the directory of the last move that its operation was told the answer of. The
compiler moves when it takes a command, whether or not somebody still waits for the answer. So what
the session remembers is the directory of the last move that was answered by its process, but for
moves that were given up before they were answered.
-/

namespace IdeMode

open Account Session List

section Log

variable {ℓ notes before after : List Note} {x : Note} {call : Call} {request : SessionRequest}
  {purpose : Purpose} {ok : Bool} {p : Path}

/-- Whether anything is under way can be seen from the calls of a session. -/
theorem Quiescent.congr {ℓ' : List Note} (h : Quiescent ℓ) (hlawful : Lawful (acts ℓ))
    (hlawful' : Lawful (acts ℓ')) (heq : replay (acts ℓ') = replay (acts ℓ)) : Quiescent ℓ' := by
  refine ⟨fun id hawaited => h.unawaited id ?_, ?_⟩
  · rw [hlawful'.awaited_iff, heq] at hawaited
    exact hlawful.awaited_iff.2 hawaited
  · have hunloading := h.unloading
    unfold OpenLoad at hunloading ⊢
    rwa [heq]

/-! ## Answers, early and late -/

/-- The compiler answers a call that it has not answered before, whether or not somebody still waits
for the answer. -/
def Answers (call : Call) (ok : Bool) (before : List Note) (x : Note) : Prop :=
  (∃ payload, x = .act (.reply (some (Int.ofNat call.id)) ok payload)) ∧
    ∃ first request purpose mid, before = first ++ .issue request call purpose :: mid ∧
      ∀ ok payload, .act (.reply (some (Int.ofNat call.id)) ok payload) ∉ mid

/-- Whoever waited for a call was told that there would be no answer: its time had run out, or the
process was gone. -/
def GivenUp (ℓ : List Note) (call : Call) : Prop :=
  ∃ purpose outcome, .take call purpose outcome ∈ ℓ ∧
    (outcome = .expired ∨ ∃ o, outcome = .failed (.unavailable o))

/-- A call that is pending has been so since it was issued. -/
theorem Faithful.pending_initial (h : Faithful (ℓ ++ notes))
    (hissued : .issue request call purpose ∈ ℓ)
    (hpending : call ∈ (replay (acts (ℓ ++ notes))).calls.pending) :
    call ∈ (replay (acts ℓ)).calls.pending := by
  have hgiven := mem_given_of_issue hissued
  have hlawful := h.lawful
  rw [acts_append] at hlawful hpending
  by_contra hgone
  refine (hlawful.stays_gone (h.initial.lawful.numbers.2 call hgiven) fun c hc hid => hgone ?_).2
    call hpending rfl
  rwa [h.initial.lawful.given_inj (h.initial.lawful.pending_given hc) hgiven hid] at hc

theorem Faithful.answers_of_replies (h : Faithful before) (hreply : Replies call ok before x) :
    Answers call ok before x := by
  obtain ⟨payload, rfl, hpending⟩ := hreply
  refine ⟨⟨payload, rfl⟩, ?_⟩
  obtain ⟨request, purpose, hissued⟩ :=
    (mem_acts_issue h.valid).1 (h.lawful.issued_of_pending hpending)
  obtain ⟨first, mid, rfl⟩ := append_of_mem hissued
  refine ⟨first, request, purpose, mid, rfl, fun ok' payload' hmem => ?_⟩
  obtain ⟨early, late, rfl⟩ := append_of_mem hmem
  rw [← cons_append, ← append_assoc] at h hpending
  have hthen := h.pending_initial (mem_append_right _ mem_cons_self) hpending
  obtain ⟨_, hsettled⟩ := h.settled_of_replies ⟨payload', rfl, hthen⟩
  exact h.lawful.not_pending_of_settled hsettled hpending rfl

/-- A call is issued in one place. -/
theorem Faithful.issue_place {before' after' : List Note} {request' : SessionRequest}
    {purpose' : Purpose} (h : Faithful (before ++ .issue request call purpose :: after))
    (heq : before ++ .issue request call purpose :: after =
      before' ++ .issue request' call purpose' :: after') : before = before' ∧ after = after' := by
  rcases same_or_before_or_after heq with ⟨hbefore, -, hafter⟩ | ⟨mid, rfl, -⟩ | ⟨mid, rfl, -⟩
  · exact ⟨hbefore, hafter⟩
  · rw [heq] at h
    exact absurd (mem_append_right before mem_cons_self) h.not_issued_before
  · exact absurd (mem_append_right before' mem_cons_self) h.not_issued_before

/-- Whoever does not wait any more was told an outcome. -/
theorem Faithful.taken_of_not_awaited (h : Faithful ℓ) (hissued : .issue request call purpose ∈ ℓ)
    (hwaiter : call.addressee = .waiter) (hover : ¬ Awaited (acts ℓ) call.id) :
    ∃ first purpose outcome rest, ℓ = first ++ .take call purpose outcome :: rest := by
  have htaken : ∃ outcome, .take call.id outcome ∈ acts ℓ := by
    by_contra hnone
    exact hover ⟨⟨call, mem_acts.2 ⟨_, hissued, rfl⟩, rfl, hwaiter⟩,
      fun outcome hmem => hnone ⟨outcome, hmem⟩⟩
  obtain ⟨outcome, hmem⟩ := htaken
  obtain ⟨y, hy, hact⟩ := mem_acts.1 hmem
  obtain ⟨first, rest, rfl⟩ := append_of_mem hy
  obtain rfl := h.taken hact hissued
  exact ⟨first, purpose, outcome, rest, rfl⟩

/-- Whoever is told an outcome is told of a reply, or gives up. -/
theorem Faithful.replies_of_take {outcome : Outcome}
    (h : Faithful (ℓ ++ [.take call purpose outcome]))
    (hkept : outcome ≠ .expired) (havailable : ∀ o, outcome ≠ .failed (.unavailable o)) :
    ∃ first x rest ok, ℓ = first ++ x :: rest ∧ Replies call ok first x := by
  obtain ⟨⟨request, hissued⟩, -⟩ := h.fits
  have hbefore := h.initial
  obtain ⟨settled, hsettled, hid⟩ := hbefore.lawful.settled_of_take (h.possible rfl) hkept
  obtain rfl := hbefore.lawful.given_inj (hbefore.lawful.settled_given hsettled)
    (mem_given_of_issue hissued) hid
  obtain ⟨early, act, late, heq, hends⟩ := hbefore.lawful.mem_settled_iff.1 hsettled
  obtain ⟨first, x, rest, rfl, hx, rfl⟩ := split_of_acts heq
  cases hends with
  | reply ok payload hpending =>
    refine ⟨first, x, rest, ok, rfl, payload, ?_, hpending⟩
    cases x with
    | act a => exact congrArg Note.act (Option.some.inj hx)
    | _ => cases hx
  | outage o hpending => exact absurd rfl (havailable o)
  | discard hpending hcall => exact absurd rfl (havailable .closed)
  | refuse => exact absurd rfl (havailable .notRunning)

/-- An answer to a call with a waiter reaches it, or the call was given up. -/
theorem Faithful.replies_or_givenUp (h : Faithful (before ++ x :: after))
    (hanswers : Answers call ok before x) (hwaiter : call.addressee = .waiter)
    (hover : ¬ Awaited (acts (before ++ x :: after)) call.id) :
    Replies call ok before x ∨ GivenUp (before ++ x :: after) call := by
  obtain ⟨⟨payload, rfl⟩, first, request, purpose, mid, hbefore, hunanswered⟩ := hanswers
  have hissued : .issue request call purpose ∈ before := by
    rw [hbefore]
    exact mem_append_right _ mem_cons_self
  by_cases hpending : call ∈ (replay (acts before)).calls.pending
  · exact .inl ⟨payload, rfl, hpending⟩
  obtain ⟨told, purpose', outcome, rest, htold⟩ :=
    h.taken_of_not_awaited (mem_append_left _ hissued) hwaiter hover
  refine .inr ⟨purpose', outcome, by rw [htold]; simp, ?_⟩
  by_contra hgivenUp
  rw [not_or, not_exists] at hgivenUp
  have hthere : Faithful (told ++ [.take call purpose' outcome]) := by
    rw [htold, append_cons] at h
    exact h.initial
  obtain ⟨early, y, late, ok', rfl, payload', rfl, hearly⟩ :=
    hthere.replies_of_take hgivenUp.1 hgivenUp.2
  -- a reply that reached the call came before this answer, since the call is not pending now
  rw [append_assoc, cons_append] at htold
  rcases append_eq_append_iff.1 htold with ⟨more, rfl, -⟩ | ⟨more, hmore, htail⟩
  · exact hpending (hthere.initial.initial.pending_initial hissued hearly)
  · cases more with
    | nil =>
      rw [append_nil] at hmore
      exact hpending (hmore ▸ hearly)
    | cons z more =>
      obtain ⟨rfl, -⟩ := List.cons.inj htail
      have hfirst := hthere.initial.initial
      obtain ⟨request', purpose'', hissued'⟩ :=
        (mem_acts_issue hfirst.valid).1 (hfirst.lawful.issued_of_pending hearly)
      obtain ⟨first', mid', rfl⟩ := append_of_mem hissued'
      have hplace : first ++ .issue request call purpose :: mid =
          first' ++ .issue request' call purpose'' ::
            (mid' ++ .act (.reply (some (Int.ofNat call.id)) ok' payload') :: more) := by
        rw [← hbefore, hmore, append_assoc, cons_append]
      obtain ⟨-, rfl⟩ := (hbefore ▸ h.initial).issue_place hplace
      exact hunanswered ok' payload' (mem_append_right _ mem_cons_self)

/-! ## The last move -/

/-- A directory that was forgotten is known again only by arriving there. -/
theorem arrived_since (hforgotten : (recount ℓ).cwd = none)
    (hcwd : (recount (ℓ ++ notes)).cwd = some p) :
    ∃ first rest, notes = first ++ .arrive p :: rest := by
  induction notes using List.reverseRecOn with
  | nil =>
    rw [append_nil, hforgotten] at hcwd
    cases hcwd
  | append_singleton notes x ih =>
    rw [← append_assoc] at hcwd
    rcases cwd_snoc hcwd with rfl | ⟨hbefore, -⟩
    · exact ⟨notes, [], rfl⟩
    · obtain ⟨first, rest, rfl⟩ := ih hbefore
      exact ⟨first, rest ++ [x], by simp⟩

/-- A move that an operation was told the answer of counts. -/
theorem Faithful.movesAway {r : Response} (h : Faithful ℓ)
    (hissued : .issue request call (.move p) ∈ ℓ) (htaken : .take call (.move p) (.answered r) ∈ ℓ)
    (hreply : Replies call true before x) : MovesAway ℓ before x := by
  refine ⟨call, ?_, hreply, ?_, ?_⟩
  · obtain ⟨first, rest, rfl⟩ := append_of_mem hissued
    obtain ⟨hcommand, -⟩ := (h.valid first _ rest rfl).2
    rw [hcommand]
    exact Command.isMove_moveCommand p
  · rintro ⟨purpose, hexpired⟩
    have htold : ∀ {purpose outcome}, .take call purpose outcome ∈ ℓ →
        (call.id, outcome) ∈ (acts ℓ).filterMap Act.told? :=
        fun hmem => mem_told.2 (.inl (mem_acts.2 ⟨_, hmem, rfl⟩))
    cases congrArg Prod.snd (inj_on_of_nodup_map h.lawful.told_once (htold htaken)
      (htold hexpired) rfl)
  · rintro ⟨request', hplain, -⟩
    cases (h.issue_unique hissued hplain).2

/-- A process that is started has to be moved before its directory is known. -/
theorem Faithful.moved_since {c : Nat} (h : Faithful (ℓ ++ .spawn c :: notes))
    (hserial : Serial (ℓ ++ .spawn c :: notes))
    (hcwd : (recount (ℓ ++ .spawn c :: notes)).cwd = some p) :
    ∃ first x rest, notes = first ++ x :: rest ∧ MovesAway (ℓ ++ .spawn c :: notes)
      (ℓ ++ .spawn c :: first) x := by
  have hquiescent : Quiescent ℓ := hserial ℓ _ notes rfl trivial
  have hforgotten : (recount (ℓ ++ [.spawn c])).cwd = none := by
    obtain ⟨first, rfl⟩ : ∃ first, ℓ = first ++ [Note.forget] := (h.valid ℓ _ notes rfl).2
    rw [recount_snoc, recount_snoc]
    rfl
  rw [append_cons] at hcwd
  obtain ⟨telling, rest, rfl⟩ := arrived_since hforgotten hcwd
  have hplace : ℓ ++ .spawn c :: (telling ++ .arrive p :: rest) =
    ℓ ++ .spawn c :: telling ++ .arrive p :: rest := by simp
  obtain ⟨told, move, r, htelling⟩ : Returned (.move p) (ℓ ++ .spawn c :: telling) :=
    (h.valid _ _ rest hplace).2
  have htold : Faithful (told ++ [.take move (.move p) (.answered r)]) := by
    rw [hplace, htelling] at h
    exact h.initial
  obtain ⟨⟨request, hissued⟩, -⟩ := htold.fits
  have hmem : ∀ y ∈ told ++ [.take move (.move p) (.answered r)],
      y ∈ ℓ ++ .spawn c :: (telling ++ .arrive p :: rest) := by
    rw [hplace, htelling]
    exact fun y hy => mem_append_left _ hy
  obtain ⟨since, rfl, rfl⟩ : ∃ since, told = ℓ ++ .spawn c :: since ∧
      telling = since ++ [.take move (.move p) (.answered r)] := by
    rcases eq_nil_or_concat telling with rfl | ⟨since, y, rfl⟩
    · cases eq_of_snoc_eq htelling
    · rw [concat_eq_append, ← cons_append, ← append_assoc] at htelling
      obtain ⟨hsince, htake⟩ := append_inj' htelling rfl
      exact ⟨since, hsince.symm, by rw [concat_eq_append, htake]⟩
  obtain ⟨first, y, later, hsplit, hreply⟩ := htold.answered_of_take
  have hcounts := h.movesAway (hmem _ (mem_append_left _ hissued))
    (hmem _ mem_concat_self) hreply
  obtain ⟨payload, rfl, hpending⟩ := hreply
  -- the move was answered after the start, since nothing was under way then
  rcases append_eq_append_iff.1 hsplit with ⟨more, rfl, htail⟩ | ⟨more, rfl, -⟩
  · cases more with
    | nil => cases htail
    | cons z more =>
      obtain ⟨rfl, rfl⟩ := List.cons.inj htail
      exact ⟨more, _, later ++ .take move (.move p) (.answered r) :: .arrive p ::
        rest, by simp, hcounts⟩
  · have hfirst : Faithful first := h.initial.initial
    obtain ⟨request', purpose, hissued'⟩ :=
      (mem_acts_issue hfirst.valid).1 (hfirst.lawful.issued_of_pending hpending)
    have hengaged := htold.engaged_of_take.initial htold.initial (mem_append_left more hissued')
    exact absurd hquiescent hengaged.not_quiescent

/-- A call that was answered was written to the process that the session has, if none was started
since. -/
theorem Faithful.process_of_replies {c c' : Nat} (h : Faithful (before ++ x :: after))
    (hserial : Serial (before ++ x :: after)) (hissued : .issue request call purpose ∈ before)
    (hwaiter : call.addressee = .waiter) (hreply : Replies call ok before x)
    (hstarted : ∀ c, .spawn c ∉ after) (hwritten : .write c call ∈ before ++ x :: after)
    (hchild : (recount (before ++ x :: after)).transport.child = some c') : c' = c := by
  obtain ⟨payload, rfl, hpending⟩ := hreply
  have hengaged := h.initial.engaged_of_pending hissued (.inl hwaiter) hpending
  obtain ⟨first, mid, rfl⟩ := append_of_mem hissued
  have hcalm := hengaged.calm h.initial (Throughout.initial hserial)
  -- nothing was done while the call was pending
  have hlater : ∀ d, .spawn d ∉
      mid ++ .act (.reply (some (Int.ofNat call.id)) ok payload) :: after := by
    intro d hmem
    rcases mem_append.1 hmem with hmem | hmem
    · exact hcalm _ hmem trivial
    · exact hstarted d ((mem_cons.1 hmem).resolve_left nofun)
  rw [append_assoc, cons_append] at h hwritten hchild
  obtain ⟨early, late, hsplit⟩ := append_of_mem hwritten
  have hthere : Faithful (early ++ [.write c call]) := by
    rw [hsplit, append_cons] at h
    exact h.initial
  obtain ⟨request', purpose', hissued'⟩ :=
    hthere.valid.issued_of_write (mem_append_right _ mem_cons_self)
  have hearly : .issue request' call purpose' ∈ early := by
    rcases mem_append.1 hissued' with hmem | hmem
    · exact hmem
    · cases mem_singleton.1 hmem
  obtain ⟨first', mid', rfl⟩ := append_of_mem hearly
  have hplace := hsplit
  rw [append_assoc, cons_append] at hplace
  obtain ⟨-, hrest⟩ := h.issue_place hplace
  rw [hsplit] at hchild
  refine child_kept hthere.fits.2 (fun d hmem => hlater d ?_) hchild
  rw [hrest]
  exact mem_append_right _ hmem

/-- The session goes by a move to a directory: the compiler answered it, and it was written to the
process that the session has now, which was started before. Every other move that was answered since
was named by a request, or it had been given up. -/
structure WentTo (ℓ : List Note) (p : Path) (move : Call) (before : List Note) (x : Note)
    (after : List Note) : Prop where
  log_eq : ℓ = before ++ x :: after
  command_eq : move.command = moveCommand p
  answers : Answers move true before x
  process : ∀ c c', .write c move ∈ ℓ → (recount ℓ).transport.child = some c' → c' = c
  started : ∀ c, .spawn c ∉ after
  last : ∀ mid y later call, after = mid ++ y :: later → call.command.IsMove →
    Answers call true (before ++ x :: mid) y → Named ℓ call ∨ GivenUp ℓ call

theorem Faithful.wentTo (h : Faithful ℓ) (hserial : Serial ℓ) (hquiescent : Quiescent ℓ)
    (hmoved : ∀ q, ¬ Returned (.move q) ℓ) (hcwd : (recount ℓ).cwd = some p) :
    ∃ move before x after, WentTo ℓ p move before x after := by
  obtain ⟨request, move, hissued, before, x, after, rfl, hreply, hkept⟩ :=
    h.moved_of_cwd hserial hquiescent hmoved hcwd
  have hbefore := h.initial
  have hstarted : ∀ c, .spawn c ∉ after := by
    intro c hspawn
    obtain ⟨mid, rest, rfl⟩ := append_of_mem hspawn
    have hplace : before ++ x :: (mid ++ .spawn c :: rest) =
      before ++ x :: mid ++ .spawn c :: rest := by simp
    rw [hplace] at h hserial hcwd
    obtain ⟨first, y, later, rfl, hcounts⟩ := h.moved_since hserial hcwd
    rw [← hplace] at hcounts
    refine hkept (mid ++ .spawn c :: first) y later (by simp) ?_
    simpa using hcounts
  obtain ⟨hcommand, hwaiter⟩ : move.command = moveCommand p ∧ move.addressee = .waiter := by
    obtain ⟨first, rest, heq⟩ := append_of_mem hissued
    exact (h.valid first _ rest heq).2
  refine ⟨move, before, x, after, rfl, hcommand, hbefore.answers_of_replies hreply,
    ?_, hstarted, ?_⟩
  · intro c c' hwritten hchild
    obtain ⟨request', purpose, hissued'⟩ :=
      (mem_acts_issue hbefore.valid).1 (hbefore.lawful.issued_of_pending hreply.choose_spec.2)
    obtain ⟨rfl, rfl⟩ := h.issue_unique hissued (mem_append_left _ hissued')
    exact h.process_of_replies hserial hissued' hwaiter hreply hstarted hwritten hchild
  · rintro mid y later call rfl hmove hanswers
    have hplace : before ++ x :: (mid ++ y :: later) = before ++ x :: mid ++ y :: later := by simp
    have hthere : Faithful (before ++ x :: mid) := by
      rw [hplace] at h
      exact h.initial
    obtain ⟨-, first, request', purpose, rest, hfirst, -⟩ := id hanswers
    have hissued' : .issue request' call purpose ∈ before ++ x :: mid := by
      rw [hfirst]
      exact mem_append_right _ mem_cons_self
    rcases hthere.valid.purpose_of_weighty hissued' (.inr hmove) with
      ⟨d, generation, -, hload⟩ | ⟨q, -, -, hwaiter⟩ | hname
    · exact absurd hmove (Command.not_isMove_of_isLoad hload)
    · have hover := hquiescent.unawaited call.id
      rw [hplace] at h hover
      by_contra hneither
      rw [not_or, hplace] at hneither
      rcases h.replies_or_givenUp hanswers hwaiter hover with hreply' | hgivenUp
      · refine hkept mid y later rfl ⟨call, hmove, hreply', ?_, ?_⟩
        · rintro ⟨purpose, hexpired⟩
          exact hneither.2 ⟨purpose, .expired, hplace ▸ hexpired, .inl rfl⟩
        · exact hplace ▸ hneither.1
      · exact hneither.2 hgivenUp
    · left
      rw [hplace]
      exact hname.append _

end Log

/-! ## Runs -/

section Runs

variable {s n : Nat} {m : Machine} {moves : List Move} {book : List (List Note)}

/-- Where nothing is under way, the log of the run so far says so. -/
theorem Logbook.quiescent (h : Logbook s m moves book) (hm : m.Pristine s)
    (hmoves : ∀ move ∈ moves, move.On s) (hn : n ≤ moves.length)
    (hidle : (m.follow (moves.take n)).Idle s) : Quiescent (logOf (book.take n)) := by
  obtain ⟨book', -, hlogged⟩ :=
    hm.journal (fun move hmove => hmoves move (mem_of_mem_take hmove)) False.elim
  refine (hidle.quiescent hlogged.booked).congr hlogged.booked.lawful (h.faithful n).lawful ?_
  exact (h.shows n hn).account_eq.symm.trans hlogged.booked.account_eq

/-- When a move begins, every operation has said what it was told. -/
theorem Logbook.not_returned (h : Logbook s m moves book) (hn : n < moves.length) (p : Path) :
    ¬ Returned (.move p) (logOf (book.take n)) := by
  intro hreturned
  have hlog := logOf_take_drop book n
  rw [drop_eq_getElem_cons (h.length_eq ▸ hn)] at hlog
  have hfollows := (h.valid (logOf (book.take n)) (.act .pass) _ hlog.symm).1
  cases hfollows.moved hreturned

/-- Operations come one at a time, whatever happens to the process. Whenever none is under way, the
directory that the session remembers is that of the last move which its process answered, but for
moves that requests named and moves that had been given up before. -/
theorem cwd_of_last_answered_move (hm : m.Pristine s) (hmoves : ∀ move ∈ moves, move.On s)
    (hone : OneAtATime s m moves) :
    (∃ book, Logbook s m moves book) ∧ ∀ book, Logbook s m moves book → ∀ n < moves.length,
      (m.follow (moves.take n)).Idle s →
        ∀ p, ((m.follow (moves.take n)).world.session s).cwd = some p →
        ∃ move before x after, WentTo (logOf (book.take n)) p move before x after := by
  refine ⟨hm.logbook hmoves, ?_⟩
  intro book hbook n hn hidle p hcwd
  have hserial : Serial (logOf (book.take n)) := by
    have hwhole := hbook.serial hone
    rw [← logOf_take_drop book n] at hwhole
    exact Throughout.initial hwhole
  refine (hbook.faithful n).wentTo hserial (hbook.quiescent hm hmoves (Nat.le_of_lt hn) hidle)
    (hbook.not_returned hn) ?_
  rw [← (hbook.shows n (Nat.le_of_lt hn)).memory_eq]
  exact hcwd

end Runs

/-- A machine with one session, which waits for an answer no longer than five seconds. -/
def hastyMachine : Machine :=
  { deskMachine with
    world := { deskMachine.world with sessions := [{ callLimit := some (.whole 5) }] } }

/-- The compiler is moved, and moved again, but the second answer comes when its time has run
out. -/
def lateMoves : List Move :=
  .launch 0 (.session 0 (.switch "x")) :: List.replicate 5 .turn ++
    answeredBy "(:return (:ok \"\") 1)" 3 ++ .launch 1 (.session 0 (.switch "y")) ::
      List.replicate 3 .turn ++
    .change (.elapse 5000000000) :: List.replicate 3 .turn ++ answeredBy "(:return (:ok \"\") 2)" 4

/-- The second move was answered, too late, and the session still goes by the first. -/
theorem cwd_of_last_answered_move_late : hastyMachine.Pristine 0 ∧ (∀ move ∈ lateMoves, move.On 0) ∧
    OneAtATime 0 hastyMachine lateMoves ∧ (hastyMachine.follow (lateMoves.take 22)).Idle 0 ∧
    ((hastyMachine.follow (lateMoves.take 22)).world.session 0).cwd = some ⟨["x"]⟩ ∧
    ((hastyMachine.follow (lateMoves.take 22)).world.session 0).dispatch.stats.stray = 1 ∧
    ∃ book, Logbook 0 hastyMachine lateMoves book ∧
      ∃ move before x after, WentTo (logOf (book.take 22)) ⟨["x"]⟩ move before x after := by
  have hpristine : hastyMachine.Pristine 0 := ⟨⟨Nat.one_pos, rfl, rfl, rfl⟩, rfl, rfl⟩
  have hmoves : ∀ move ∈ lateMoves, move.On 0 := by
    simp [lateMoves, answeredBy, Move.On, SessionRequest.Genuine]
  have hone : OneAtATime 0 hastyMachine lateMoves := by decide +kernel
  have hidle : (hastyMachine.follow (lateMoves.take 22)).Idle 0 := by decide +kernel
  have hcwd : ((hastyMachine.follow (lateMoves.take 22)).world.session 0).cwd = some ⟨["x"]⟩ := by
    decide +kernel
  have hstray : ((hastyMachine.follow (lateMoves.take 22)).world.session 0).dispatch.stats.stray =
    1 := by decide +kernel
  obtain ⟨⟨book, hbook⟩, hwent⟩ := cwd_of_last_answered_move hpristine hmoves hone
  exact ⟨hpristine, hmoves, hone, hidle, hcwd, hstray, book, hbook,
    hwent book hbook 22 (by decide) hidle _ hcwd⟩

end IdeMode
