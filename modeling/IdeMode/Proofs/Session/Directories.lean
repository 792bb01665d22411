import IdeMode.Proofs.Calls.Balance
import IdeMode.Proofs.Session.Sight
set_option autoImplicit false

/-!
# Where a load finds its file

A load is looked for in the directory that the compiler was moved to last. Operations may overlap,
and then this is not the move that the operation of the load had made, but the last one that any
operation issued before the load.
-/

namespace IdeMode

open Account Session List

variable {ℓ notes before after : List Note} {x : Note} {call : Call} {request : SessionRequest}
  {purpose : Purpose}

/-! ## Logs in which nothing goes wrong -/

/-- Every call is pending or was answered well, and none was answered before it was taken up for
writing. -/
structure Smooth (ℓ : List Note) : Prop where
  balanced : (replay (acts ℓ)).calls.deficit = 0
  prompt : ∀ before x after call ok, ℓ = before ++ x :: after → Replies call ok before x →
    call ∉ (recount before).dispatch.outbox

theorem Smooth.initial (h : Smooth (ℓ ++ notes)) : Smooth ℓ := by
  constructor
  · have hbalanced := h.balanced
    rw [acts_append] at hbalanced
    exact deficit_eq_zero_of_append hbalanced
  · intro before x after call ok heq
    exact h.prompt before x (after ++ notes) call ok (by rw [heq, append_assoc, cons_append])

/-- A pending call stays pending until it is answered well. -/
theorem Smooth.pending_snoc {a : Act} (h : Smooth (ℓ ++ [x])) (hx : x.act? = some a)
    (hcall : call ∈ (replay (acts ℓ)).calls.pending) :
    call ∈ (replay (acts (ℓ ++ [x]))).calls.pending ∨ Replies call true ℓ x := by
  have hbefore := h.initial.balanced
  have hafter := h.balanced
  rw [acts_snoc_of_some hx, replay_snoc] at hafter ⊢
  refine (pending_of_deficit_eq (hafter.trans hbefore.symm) hcall).imp_right ?_
  rintro ⟨payload, rfl⟩
  refine ⟨payload, ?_, hcall⟩
  cases x with
  | act b => exact congrArg Note.act (Option.some.inj hx)
  | _ => cases hx

/-- What is still to be written is pending. -/
theorem Smooth.outbox_pending (h : Smooth ℓ) (hfaithful : Faithful ℓ)
    (hcall : call ∈ (recount ℓ).dispatch.outbox) : call ∈ (replay (acts ℓ)).calls.pending := by
  induction ℓ using List.reverseRecOn with
  | nil => exact absurd hcall not_mem_nil
  | append_singleton ℓ x ih =>
    rw [outbox_snoc] at hcall
    have hold : call ∈ (recount ℓ).dispatch.outbox →
        call ∈ (replay (acts (ℓ ++ [x]))).calls.pending := by
      intro hmem
      have hpending := ih h.initial hfaithful.initial hmem
      cases hx : x.act? with
      | none => rwa [acts_snoc_of_none hx]
      | some a =>
        refine (h.pending_snoc hx hpending).resolve_right fun hreply => ?_
        exact h.prompt ℓ x [] call true rfl hreply hmem
    cases x with
    | issue request issued purpose =>
      rcases mem_append.1 hcall with hmem | hmem
      · exact hold hmem
      · rw [mem_singleton.1 hmem, acts_snoc_of_some rfl, replay_snoc,
          pending_issue (hfaithful.possible rfl)]
        exact mem_concat_self
    | pick taken => exact hold (mem_of_mem_tail hcall)
    | act a =>
      cases a with
      | discard => exact absurd hcall not_mem_nil
      | _ => exact hold hcall
    | _ => exact hold hcall

/-- Nothing that was issued is dropped before it is taken up. -/
theorem Smooth.queue_eq (h : Smooth ℓ) (hfaithful : Faithful ℓ) :
    ℓ.filterMap Note.picked? ++ (recount ℓ).dispatch.outbox = ℓ.filterMap Note.issued? := by
  induction ℓ using List.reverseRecOn with
  | nil => rfl
  | append_singleton ℓ x ih =>
    have hqueue := ih h.initial hfaithful.initial
    by_cases hdiscard : x = .act .discard
    · subst hdiscard
      -- whatever is to be written is pending, and then it would be lost
      have hempty : (recount ℓ).dispatch.outbox = [] := by
        refine eq_nil_iff_forall_not_mem.2 fun call hmem => ?_
        have hpending := h.initial.outbox_pending hfaithful.initial hmem
        rcases h.pending_snoc rfl hpending with hkept | ⟨payload, hreply, -⟩
        · rw [acts_snoc_of_some rfl, replay_snoc, pending_discard] at hkept
          exact absurd hkept not_mem_nil
        · cases hreply
      rw [filterMap_snoc, filterMap_snoc, outbox_snoc, ← hqueue, hempty]
      rfl
    · rw [queue_snoc hfaithful.fits hdiscard, filterMap_snoc, hqueue]

theorem encodes_of_isMove (h : call.command.IsMove) :
    ∃ text, (call.command.request call.id).encode = .ok text := by
  obtain ⟨id, ⟨tag, args⟩, addressee⟩ := call
  unfold Command.IsMove Command.directory? at h
  dsimp only at h
  split at h
  · next args text =>
    let value : Value := .list [.list [Value.keyword tag, .str text], .int id]
    exact ⟨String.ofList value.print, rfl⟩
  · exact absurd rfl h

/-- What is taken up is written at once, if it can be. -/
theorem Smooth.written_of_pick (h : Smooth (before ++ .pick call :: x :: after))
    (hfaithful : Faithful (before ++ .pick call :: x :: after))
    (hencodes : ∃ text, (call.command.request call.id).encode = .ok text) :
    ∃ c, x = .write c call := by
  rw [append_cons, append_cons] at h hfaithful
  have hthere := h.initial
  have hfaithful' := hfaithful.initial
  have hpicked := hfaithful'.initial
  have hqueued : call ∈ (recount before).dispatch.outbox := mem_of_mem_head? hpicked.fits.1
  have hpending := hthere.initial.initial.outbox_pending hpicked.initial hqueued
  rw [← acts_snoc_of_none (x := .pick call) rfl] at hpending
  have hhand : InHand call (before ++ [.pick call]) :=
    ⟨⟨before, rfl⟩, any_eq_true.2 ⟨call, hpending, decide_eq_true rfl⟩, hencodes⟩
  rcases hfaithful'.follows.written hhand with hwritten | ⟨o, rfl⟩
  · exact hwritten
  · -- an outage would lose the call
    rcases hthere.pending_snoc rfl hpending with hkept | ⟨payload, hreply, -⟩
    · rw [acts_snoc_of_some rfl, replay_snoc, pending_outage] at hkept
      exact absurd hkept not_mem_nil
    · cases hreply

/-- When a call is written, every call that was issued before it has been, if it can be. -/
theorem Smooth.written_before {c : Nat} {earlier : Call} (h : Smooth (ℓ ++ [.write c call]))
    (hfaithful : Faithful (ℓ ++ [.write c call])) (hissued : .issue request earlier purpose ∈ ℓ)
    (hlt : earlier.id < call.id)
    (hencodes : ∃ text, (earlier.command.request earlier.id).encode = .ok text) :
    ∃ c', .write c' earlier ∈ ℓ := by
  obtain ⟨⟨first, rfl⟩, -⟩ := hfaithful.fits.1
  have hqueue := h.initial.queue_eq hfaithful.initial
  have hsorted := hfaithful.initial.sorted_issued
  have hmem : earlier ∈ (first ++ [Note.pick call]).filterMap Note.issued? :=
    mem_filterMap.2 ⟨_, hissued, rfl⟩
  rw [← hqueue] at hsorted hmem
  have htaken : call ∈ (first ++ [Note.pick call]).filterMap Note.picked? :=
    mem_filterMap.2 ⟨Note.pick call, by simp, rfl⟩
  have hpicked : Note.pick earlier ∈ first ++ [.pick call] := by
    rcases mem_append.1 hmem with hpicked | hwaiting
    · obtain ⟨y, hy, hcall⟩ := mem_filterMap.1 hpicked
      cases y with
      | pick taken =>
        obtain rfl := Option.some.inj hcall
        exact hy
      | _ => cases hcall
    · have hgt := (pairwise_append.1 hsorted).2.2 call htaken earlier hwaiting
      exact absurd hlt (Nat.lt_asymm hgt)
  have hfirst : Note.pick earlier ∈ first := by
    rcases mem_append.1 hpicked with hpicked | hlast
    · exact hpicked
    · cases mem_singleton.1 hlast
      exact absurd hlt (Nat.lt_irrefl _)
  obtain ⟨before, after, rfl⟩ := append_of_mem hfirst
  obtain ⟨next, rest, hnext⟩ : ∃ next rest, after ++ [.pick call] = next :: rest := by
    cases after with
    | nil => exact ⟨_, _, rfl⟩
    | cons next rest => exact ⟨next, rest ++ [.pick call], rfl⟩
  have hlog : before ++ .pick earlier :: after ++ [.pick call] =
      before ++ .pick earlier :: next :: rest := by
    rw [append_assoc, cons_append, hnext]
  obtain ⟨c', rfl⟩ := Smooth.written_of_pick (hlog ▸ h.initial) (hlog ▸ hfaithful.initial) hencodes
  exact ⟨c', by rw [hlog]; simp⟩

/-! ## Moves -/

/-- The move that was issued last. -/
def IssuedLast (ℓ : List Note) (move : Call) : Prop :=
  move.command.IsMove ∧ (∃ request purpose, .issue request move purpose ∈ ℓ) ∧
    ∀ request other purpose, .issue request other purpose ∈ ℓ → other.command.IsMove →
      other.id ≤ move.id

/-- The move that was written to a process last. -/
def WrittenLast (c : Nat) (ℓ : List Note) (move : Call) : Prop :=
  move.command.IsMove ∧ ∃ before after, ℓ = before ++ .write c move :: after ∧
    ∀ other, .write c other ∈ after → ¬ other.command.IsMove

open Classical in
theorem Faithful.exists_issuedLast {move : Call} (h : Faithful ℓ) (hmove : move.command.IsMove)
    (hissued : .issue request move purpose ∈ ℓ) : ∃ last, IssuedLast ℓ last := by
  have hsorted := h.sorted_issued.filter fun c : Call => decide c.command.IsMove
  have hmem : ∀ {request other purpose}, .issue request other purpose ∈ ℓ → other.command.IsMove →
      other ∈ (ℓ.filterMap Note.issued?).filter fun c : Call => decide c.command.IsMove :=
    fun hissued hmove =>
      mem_filter.2 ⟨mem_filterMap.2 ⟨_, hissued, rfl⟩, decide_eq_true hmove⟩
  rcases eq_nil_or_concat ((ℓ.filterMap Note.issued?).filter
    fun c : Call => decide c.command.IsMove) with hnil | ⟨init, last, hconcat⟩
  · have hmove' := hmem hissued hmove
    rw [hnil] at hmove'
    exact absurd hmove' not_mem_nil
  · rw [concat_eq_append] at hconcat
    have hlast : last ∈ (ℓ.filterMap Note.issued?).filter
      fun c : Call => decide c.command.IsMove := by simp [hconcat]
    obtain ⟨hissuedLast, hisMove⟩ := mem_filter.1 hlast
    refine ⟨last, of_decide_eq_true hisMove, ?_, fun request other purpose hother hmove => ?_⟩
    · obtain ⟨y, hy, hcall⟩ := mem_filterMap.1 hissuedLast
      cases y with
      | issue request' issued purpose' =>
        obtain rfl := Option.some.inj hcall
        exact ⟨request', purpose', hy⟩
      | _ => cases hcall
    · have hother := hmem hother hmove
      rw [hconcat] at hother hsorted
      rcases mem_append.1 hother with hinit | hsame
      · exact Nat.le_of_lt ((pairwise_append.1 hsorted).2.2 other hinit last (mem_singleton_self _))
      · exact Nat.le_of_eq (congrArg Call.id (mem_singleton.1 hsame))

/-- The move that is written last before a load is the one that was issued last before the load. -/
theorem Smooth.writtenLast {c : Nat} {last : Call} {mid : List Note}
    (h : Smooth (before ++ .issue request call purpose :: mid ++ [.write c call]))
    (hfaithful : Faithful (before ++ .issue request call purpose :: mid ++ [.write c call]))
    (hone : ∀ c' other, .write c' other ∈ before ++ .issue request call purpose :: mid →
      other.command.IsMove → c' = c) (hlast : IssuedLast before last) :
    WrittenLast c (before ++ .issue request call purpose :: mid) last := by
  obtain ⟨hmove, ⟨request', purpose', hissued⟩, hlargest⟩ := hlast
  have hthere := hfaithful.initial
  have hearlier : .issue request' last purpose' ∈ before ++ .issue request call purpose :: mid :=
    mem_append_left _ hissued
  obtain ⟨c', hwritten⟩ := h.written_before hfaithful hearlier (hthere.issue_lt hissued)
    (encodes_of_isMove hmove)
  obtain rfl := hone c' last hwritten hmove
  obtain ⟨first, rest, hsplit⟩ := append_of_mem hwritten
  refine ⟨hmove, first, rest, hsplit, fun other hother hisMove => ?_⟩
  -- what is written between the two was issued between them
  have hmem : .write c' other ∈ before ++ .issue request call purpose :: mid := by
    rw [hsplit]
    exact mem_append_right _ (mem_cons_of_mem _ hother)
  have hgt : last.id < other.id := Faithful.written_lt (hsplit ▸ hthere) hother
  have hlt : other.id < call.id := by
    obtain ⟨first', rest', hsplit'⟩ := append_of_mem hmem
    rw [hsplit', append_assoc] at hfaithful
    exact hfaithful.written_lt (mem_append_right rest' (mem_singleton_self _))
  obtain ⟨request'', purpose'', hissued''⟩ := hthere.valid.issued_of_write hmem
  rcases hthere.issue_cases hissued'' with ⟨hbefore, -⟩ | heq | ⟨-, hlater⟩
  · exact absurd hgt (Nat.not_lt.2 (hlargest _ _ _ hbefore hisMove))
  · cases heq
    exact absurd hlt (Nat.lt_irrefl _)
  · exact absurd hlt (Nat.lt_asymm hlater)

/-- The compiler was moved to the directory that it is known to be in. -/
theorem Faithful.own_move {p : Path} (h : Faithful ℓ) (hcwd : (recount ℓ).cwd = some p) :
    ∃ request own, .issue request own (.move p) ∈ ℓ ∧ own.command = moveCommand p ∧
      Answered ℓ own := by
  obtain ⟨arriving, after, rfl, -⟩ := arrived_of_cwd hcwd
  obtain ⟨told, own, r, rfl⟩ : Returned (.move p) arriving := (h.valid arriving _ after rfl).2
  have htold : Faithful (told ++ [.take own (.move p) (.answered r)]) := h.initial
  obtain ⟨⟨request, hissued⟩, -⟩ := htold.fits
  have hanswered := htold.answered_of_take
  obtain ⟨first, rest, hsplit⟩ := append_of_mem hissued
  refine ⟨request, own, ?_, (htold.initial.valid first _ rest hsplit).2.1, ?_⟩
  · exact mem_append_left _ (mem_append_left _ hissued)
  · rw [append_assoc]
    exact hanswered.append _

/-! ## Runs -/

theorem logOf_cons (notes : List Note) (book : List (List Note)) :
    logOf (notes :: book) = .act .pass :: notes ++ logOf book := rfl

/-- Where a move begins, the log of the moves before it ends. -/
theorem before_pass {book : List (List Note)} (hunbroken : ∀ notes ∈ book, .act .pass ∉ notes)
    (h : logOf book = before ++ .act .pass :: after) :
    ∃ n ≤ book.length, before = logOf (book.take n) := by
  induction book generalizing before with
  | nil => simp [logOf] at h
  | cons notes book ih =>
    rw [logOf_cons] at h
    rcases before with _ | ⟨y, before⟩
    · exact ⟨0, Nat.zero_le _, rfl⟩
    · obtain ⟨rfl, htail⟩ := List.cons.inj h
      have hrest : ∃ skipped, before = notes ++ skipped ∧
          logOf book = skipped ++ .act .pass :: after := by
        rcases append_eq_append_iff.1 htail with ⟨skipped, hbefore, hbook⟩ | ⟨left, hnotes, hbook⟩
        · exact ⟨skipped, hbefore, hbook⟩
        · rcases left with _ | ⟨z, left⟩
          · exact ⟨[], by rw [hnotes, append_nil, append_nil], hbook.symm⟩
          · obtain ⟨rfl, -⟩ := List.cons.inj hbook
            exact absurd (by simp [hnotes]) (hunbroken notes mem_cons_self)
      obtain ⟨skipped, rfl, hbook⟩ := hrest
      obtain ⟨n, hn, rfl⟩ := ih (fun notes' hmem => hunbroken notes' (mem_cons_of_mem _ hmem)) hbook
      exact ⟨n + 1, Nat.succ_le_succ hn, by rw [take_succ_cons, logOf_cons, cons_append]⟩

variable {s : Nat} {m : Machine} {moves : List Move} {book : List (List Note)}

/-- A run of which the counters say that nothing went wrong has a log that says so. -/
theorem Logbook.smooth (h : Logbook s m moves book)
    (hbalanced : ((m.follow moves).world.session s).dispatch.deficit = 0)
    (hprompt : ∀ n ≤ moves.length,
      ∀ call ∈ ((m.follow (moves.take n)).world.session s).dispatch.outbox,
      ((m.follow (moves.take n)).world.session s).dispatch.isPending call.id = true) :
    Smooth (logOf book) := by
  have hlength := h.toJournal.length_eq
  constructor
  · have hshows := (h.shows moves.length (Nat.le_refl _)).account_eq
    rw [take_length, ← hlength, take_length] at hshows
    rw [← hshows]
    exact hbalanced
  · intro before x after call ok hlog hreply hqueued
    -- a reply is the last thing that is noted of a move
    obtain ⟨n, hn, hend⟩ : ∃ n ≤ moves.length, before ++ [x] = logOf (book.take n) := by
      rcases after with _ | ⟨y, after⟩
      · exact ⟨moves.length, Nat.le_refl _, by rw [← hlength, take_length, hlog]⟩
      · obtain ⟨payload, rfl, -⟩ := hreply
        rw [append_cons] at hlog
        obtain rfl := (h.valid _ y after hlog).1.routed
        obtain ⟨n, hn, hend⟩ := before_pass h.unbroken hlog
        exact ⟨n, hlength ▸ hn, hend⟩
    have hshows := h.shows n hn
    have hfaithful := h.faithful n
    rw [← hend] at hshows hfaithful
    obtain ⟨payload, hsettled⟩ := hfaithful.settled_of_replies hreply
    have houtbox := congrArg (·.dispatch.outbox) hshows.memory_eq
    obtain ⟨payload', rfl, -⟩ := hreply
    rw [outbox_snoc] at houtbox
    have hpending := hprompt n hn call (by
      exact houtbox ▸ hqueued)
    obtain ⟨same, hsame, hid⟩ := any_eq_true.1 hpending
    have hcalls := congrArg (·.calls.pending) hshows.account_eq
    change ((m.follow (moves.take n)).world.session s).dispatch.pending = _ at hcalls
    rw [hcalls] at hsame
    exact hfaithful.lawful.not_pending_of_settled hsettled hsame (of_decide_eq_true hid).symm

theorem Logbook.sent_of_write {c : Nat} (h : Logbook s m moves book)
    (hmem : .write c call ∈ logOf book) : ∃ f ∈ (m.follow moves).world.host.sent, f.child = c := by
  have hsent := (h.shows moves.length (Nat.le_refl _)).sent_eq
  rw [take_length, ← h.toJournal.length_eq, take_length] at hsent
  obtain ⟨before, after, hlog⟩ := append_of_mem hmem
  obtain ⟨-, -, text, hencoded⟩ := (h.valid before _ after hlog).2.1
  refine ⟨⟨c, String.ofList (Wire.frame text)⟩, ?_, rfl⟩
  rw [hsent]
  refine mem_filterMap.2 ⟨_, hmem, ?_⟩
  simp only [Note.sent?, hencoded]

/-- Whenever a load is written, the compiler was moved last by the move that was issued last before
the load: that of the operation itself, or a later one. -/
def LoadsFollowMoves (ℓ : List Note) : Prop :=
  ∀ before request call d generation mid c after,
    ℓ = before ++ .issue request call (.load d generation) :: mid ++ .write c call :: after →
    ∃ doc own last, (recount before).documents[d]? = some doc ∧
      call.command = loadCommand doc.buffer.path ∧
        own.command = moveCommand doc.buffer.path.parent ∧ Answered before own ∧
          IssuedLast before last ∧ (last = own ∨ own.id < last.id) ∧
        WrittenLast c (before ++ .issue request call (.load d generation) :: mid) last

/-- Operations may overlap, but every call is answered well or pending, none is answered before it
was taken up for writing, and everything is written to one process. When a load is written, the
compiler was moved last by the move that was issued last before the load: that of the operation
itself, or a later one of another operation. -/
theorem load_follows_last_issued_move {s : Nat} {m : Machine} (hm : m.Pristine s)
    {moves : List Move} (hmoves : ∀ move ∈ moves, move.On s)
    (hbalanced : ((m.follow moves).world.session s).dispatch.deficit = 0)
    (hprompt : ∀ n ≤ moves.length,
      ∀ call ∈ ((m.follow (moves.take n)).world.session s).dispatch.outbox,
      ((m.follow (moves.take n)).world.session s).dispatch.isPending call.id = true)
    (hone : ∀ f ∈ (m.follow moves).world.host.sent, ∀ f' ∈ (m.follow moves).world.host.sent,
      f.child = f'.child) : (∃ book, Logbook s m moves book) ∧
      ∀ book, Logbook s m moves book → LoadsFollowMoves (logOf book) := by
  refine ⟨hm.logbook hmoves, ?_⟩
  intro book hbook before request call d generation mid c after hlog
  have hsmooth := hbook.smooth hbalanced hprompt
  have hfaithful : Faithful (logOf book) := ⟨hbook.valid, hbook.lawful⟩
  rw [hlog, append_cons] at hsmooth hfaithful
  have hthere := hfaithful.initial.initial
  obtain ⟨doc, hdoc, -, hcommand, -, hcwd, -⟩ := (hthere.valid before _ mid rfl).2
  obtain ⟨request', own, hissued, hown, hanswered⟩ := hthere.initial.own_move hcwd
  have hmove : own.command.IsMove := by
    rw [hown]
    exact Command.isMove_moveCommand _
  obtain ⟨last, hlast⟩ := hthere.initial.exists_issuedLast hmove hissued
  refine ⟨doc, own, last, hdoc, hcommand, hown, hanswered, hlast, ?_, ?_⟩
  · obtain ⟨-, ⟨request'', purpose, hissued'⟩, hlargest⟩ := hlast
    rcases Nat.eq_or_lt_of_le (hlargest _ _ _ hissued hmove) with hid | hlt
    · have hgiven := mem_given_of_issue hissued
      exact .inl (hthere.initial.lawful.given_inj (mem_given_of_issue hissued') hgiven hid.symm)
    · exact .inr hlt
  · refine hsmooth.initial.writtenLast hfaithful.initial ?_ hlast
    intro c' other hmem _
    have hboth : .write c' other ∈ logOf book ∧ .write c call ∈ logOf book := by
      rw [hlog]
      exact ⟨mem_append_left _ hmem, mem_append_right _ mem_cons_self⟩
    obtain ⟨f, hf, rfl⟩ := hbook.sent_of_write hboth.1
    obtain ⟨f', hf', rfl⟩ := hbook.sent_of_write hboth.2
    exact hone f hf f' hf'

/-- A machine with one session and two files of the same name, whose compiler does not answer by
itself. -/
def twinMachine : Machine where
  world :=
    { host :=
        { cwd := ⟨[]⟩
          disk := (({} : Disk).place ⟨["x", "A.idr"]⟩ [120, 10]).place ⟨["y", "A.idr"]⟩ [121, 10]
          reactions := [("interpret", List.replicate 4 {}), ("load-file", List.replicate 4 {})] }
      sessions := [{}] }

/-- Both files are asked for before the first move is answered. -/
def twinMoves : List Move :=
  .launch 0 (.session 0 (.document "x/A.idr" .load)) :: List.replicate 5 .turn ++
    .launch 1 (.session 0 (.document "y/A.idr" .load)) :: List.replicate 2 .turn ++
    answeredBy "(:return (:ok \"\") 1)" 5

/-- The first file is loaded in the directory of the second. -/
theorem load_follows_last_issued_move_twins :
    twinMachine.Pristine 0 ∧ (∀ move ∈ twinMoves, move.On 0) ∧
    ((twinMachine.follow twinMoves).world.session 0).dispatch.deficit = 0 ∧
    (∀ n ≤ twinMoves.length, ∀ call ∈
      ((twinMachine.follow (twinMoves.take n)).world.session 0).dispatch.outbox,
      ((twinMachine.follow (twinMoves.take n)).world.session 0).dispatch.isPending call.id = true) ∧
    (twinMachine.follow twinMoves).world.host.sent =
      [⟨0, "00001a((:interpret \":cd /x\") 1)\n"⟩, ⟨0, "00001a((:interpret \":cd /y\") 2)\n"⟩,
        ⟨0, "000019((:load-file \"A.idr\") 3)\n"⟩] ∧
    ∃ book, Logbook 0 twinMachine twinMoves book ∧ LoadsFollowMoves (logOf book) := by
  have hpristine : twinMachine.Pristine 0 := ⟨⟨Nat.one_pos, rfl, rfl, rfl⟩, rfl, rfl⟩
  have hmoves : ∀ move ∈ twinMoves, move.On 0 := by
    simp [twinMoves, answeredBy, Move.On, SessionRequest.Genuine]
  have hbalanced : ((twinMachine.follow twinMoves).world.session 0).dispatch.deficit = 0 := by
    decide +kernel
  have hprompt : ∀ n ≤ twinMoves.length,
      ∀ call ∈ ((twinMachine.follow (twinMoves.take n)).world.session 0).dispatch.outbox,
        ((twinMachine.follow (twinMoves.take n)).world.session 0).dispatch.isPending call.id =
          true := by decide +kernel
  have hsent : (twinMachine.follow twinMoves).world.host.sent =
      [⟨0, "00001a((:interpret \":cd /x\") 1)\n"⟩, ⟨0, "00001a((:interpret \":cd /y\") 2)\n"⟩,
        ⟨0, "000019((:load-file \"A.idr\") 3)\n"⟩] := by decide +kernel
  obtain ⟨⟨book, hbook⟩, hfollow⟩ :=
    load_follows_last_issued_move hpristine hmoves hbalanced hprompt (by simp [hsent])
  exact ⟨hpristine, hmoves, hbalanced, hprompt, hsent, book, hbook, hfollow book hbook⟩

end IdeMode
