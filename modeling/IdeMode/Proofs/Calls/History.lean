import Mathlib.Data.List.Nodup
import Mathlib.Data.List.Perm.Subperm
import IdeMode.Proofs.Calls.Account
set_option autoImplicit false

/-!
# Histories of calls

A history lists the acts done to the calls of a session from its start on. In a lawful one every act
was possible when it was done: a call got the next number, an outcome was taken once and by whoever
waited for it, and the continuation that ran was the first in the queue. Everything that is said of
the outcomes of calls follows from this.
-/

namespace IdeMode

open List hiding after

/-- The call that an act gives a number to. -/
def Act.given? : Act → Option Call
  | .issue call => some call
  | .refuse call => some call
  | _ => none

/-- The number of the call whose outcome an act tells, with the outcome. -/
def Act.told? : Act → Option (Nat × Outcome)
  | .take id outcome => some (id, outcome)
  | .resume call outcome => some (call.id, outcome)
  | _ => none

/-- The continuation that an act runs, with the outcome of its call. -/
def Act.ran? : Act → Option (Call × Outcome)
  | .resume call outcome => some (call, outcome)
  | _ => none

/-- An act settles a call with an outcome. -/
inductive Ends (a : Account) : Act → Call → Outcome → Prop where
  | reply {call : Call} (ok : Bool) (payload : List Value) (h : call ∈ a.calls.pending) :
    Ends a (.reply (some (Int.ofNat call.id)) ok payload) call (.ofReply ok payload)
  | outage {call : Call} (o : Outage) (h : call ∈ a.calls.pending) :
    Ends a (.outage o) call (.failed (.unavailable o))
  | discard {call : Call} (h : call ∈ a.calls.pending) (hcall : call.addressee = .waiter) :
    Ends a .discard call (.failed (.unavailable .closed))
  | refuse (call : Call) : Ends a (.refuse call) call (.failed (.unavailable .notRunning))

namespace Account

/-- The account that a history leads to. -/
def replay (h : List Act) : Account := h.foldl after {}

/-- The calls that the acts settle, in order. -/
def settledFrom (a : Account) : List Act → List (Call × Outcome)
  | [] => []
  | act :: h => a.settledBy act ++ settledFrom (a.after act) h

def settled (h : List Act) : List (Call × Outcome) := settledFrom {} h

theorem replay_snoc (h : List Act) (act : Act) : replay (h ++ [act]) = (replay h).after act := by
  unfold replay
  rw [foldl_append]
  rfl

theorem settledFrom_snoc (a : Account) (h : List Act) (act : Act) :
    settledFrom a (h ++ [act]) = settledFrom a h ++ (h.foldl after a).settledBy act := by
  induction h generalizing a with
  | nil => exact append_nil _
  | cons x h ih =>
    show a.settledBy x ++ settledFrom _ (h ++ [act]) = (a.settledBy x ++ settledFrom _ h) ++ _
    rw [ih, append_assoc]
    rfl

theorem settled_snoc (h : List Act) (act : Act) :
    settled (h ++ [act]) = settled h ++ (replay h).settledBy act :=
  settledFrom_snoc {} h act

variable {a : Account} {act : Act} {call : Call} {p : Call × Outcome}

theorem mem_settledFrom {h : List Act} :
    p ∈ settledFrom a h ↔ ∃ before act after', h = before ++ act :: after' ∧
        p ∈ (before.foldl after a).settledBy act := by
  induction h generalizing a with
  | nil =>
    refine ⟨fun hp => absurd hp (not_mem_nil), ?_⟩
    rintro ⟨before, act, after', heq, -⟩
    simp at heq
  | cons x h ih =>
    show p ∈ a.settledBy x ++ settledFrom (a.after x) h ↔ _
    rw [mem_append, ih]
    constructor
    · rintro (hp | ⟨before, act, after', rfl, hp⟩)
      · exact ⟨[], x, h, rfl, hp⟩
      · exact ⟨x :: before, act, after', rfl, hp⟩
    · rintro ⟨before, act, after', heq, hp⟩
      cases before with
      | nil =>
        obtain ⟨rfl, rfl⟩ := List.cons.inj heq
        exact .inl hp
      | cons y before =>
        obtain ⟨rfl, rfl⟩ := List.cons.inj heq
        exact .inr ⟨before, act, after', rfl, hp⟩

/-! ## Delivery -/

/-- Delivery touches neither the numbers nor the pending calls; the continuations go to the end of
the queue. -/
theorem deliverAll_keeps (a : Account) (l : List (Call × Outcome)) :
    (a.deliverAll l).calls.nextId = a.calls.nextId ∧
      (a.deliverAll l).calls.pending = a.calls.pending ∧
      (a.deliverAll l).due = a.due ++ l.filter fun p => p.1.hasContinuation := by
  induction l generalizing a with
  | nil => exact ⟨rfl, rfl, (append_nil _).symm⟩
  | cons p l ih =>
    obtain ⟨hnext, hpending, hdue⟩ := ih (a.deliver p.1 p.2)
    have hdeliver : (a.deliver p.1 p.2).calls.nextId = a.calls.nextId ∧
        (a.deliver p.1 p.2).calls.pending = a.calls.pending ∧
        (a.deliver p.1 p.2).due = a.due ++ if p.1.hasContinuation then [p] else [] := by
      unfold deliver Call.hasContinuation
      cases p.1.addressee with
      | waiter =>
        dsimp only
        split <;> exact ⟨rfl, rfl, (append_nil _).symm⟩
      | continuation label => exact ⟨rfl, rfl, rfl⟩
      | load label d generation => exact ⟨rfl, rfl, rfl⟩
    refine ⟨hnext.trans hdeliver.1, hpending.trans hdeliver.2.1, ?_⟩
    show ((a.deliver p.1 p.2).deliverAll l).due = _
    rw [hdue, hdeliver.2.2, filter_cons, append_assoc]
    split <;> rfl

/-- The first outcome that a waiter is told is the one it keeps. -/
theorem outcomes_deliverAll (a : Account) (l : List (Call × Outcome)) (id : Nat) :
    (a.deliverAll l).calls.outcomes.get? id =
      (a.calls.outcomes.get? id).or
        ((l.find? fun p => p.1.id = id ∧ p.1.hasContinuation = false).map Prod.snd) := by
  induction l generalizing a with
  | nil => exact (Option.or_none).symm
  | cons p l ih =>
    obtain ⟨call, outcome⟩ := p
    show ((a.deliver call outcome).deliverAll l).calls.outcomes.get? id = _
    rw [ih, List.find?_cons]
    unfold deliver Call.hasContinuation
    cases haddressee : call.addressee with
    | waiter =>
      dsimp only
      split
      · next hsome =>
        obtain ⟨o, ho⟩ := Option.isSome_iff_exists.1 hsome
        by_cases hid : call.id = id
        · subst hid
          simp [ho]
        · simp [hid]
      · next hnone =>
        by_cases hid : call.id = id
        · subst hid
          simp at hnone
          simp [hnone]
        · simp [hid]
    | continuation label => simp
    | load label d generation => simp

/-! ## What an act does -/

theorem nextId_after (a : Account) (act : Act) :
    (a.after act).calls.nextId = a.calls.nextId + act.given?.toList.length := by
  unfold after
  rw [(deliverAll_keeps _ _).1]
  cases act with
  | take id outcome => cases outcome <;> rfl
  | reply id ok payload =>
    show (a.calls.settleReply id ok payload).2.nextId = _
    unfold Dispatch.settleReply
    split <;> rfl
  | _ => rfl

theorem due_after (a : Account) (act : Act) :
    (a.after act).due = (match act with
      | .resume _ _ => a.due.tail
      | _ => a.due) ++ (a.settledBy act).filter fun p => p.1.hasContinuation := by
  unfold after
  rw [(deliverAll_keeps _ _).2.2]
  cases act <;> rfl

theorem find?_eq_some {d : Dispatch} {id : Option Int} (h : d.find? id = some call) :
    call ∈ d.pending ∧ id = some (Int.ofNat call.id) := by
  cases id with
  | none => cases h
  | some n =>
    refine ⟨mem_of_find?_eq_some h, ?_⟩
    have hid := List.find?_some h
    rw [of_decide_eq_true hid]

theorem subperm_cons_filter {l : List Call} (h : call ∈ l) :
    List.Subperm (call :: l.filter fun c => c.id ≠ call.id) l := by
  obtain ⟨l₁, l₂, rfl⟩ := append_of_mem h
  have hfilter : (l₁ ++ call :: l₂).filter (fun c => c.id ≠ call.id) =
      (l₁ ++ l₂).filter fun c => c.id ≠ call.id := by
    rw [filter_append, filter_append, filter_cons_of_neg (by simp)]
  rw [hfilter]
  exact ((filter_sublist).cons_cons call).subperm.trans perm_middle.symm.subperm

/-- No act makes calls: those that it settles and those that are pending afterwards were pending
before, but for the one that it gives a number to. -/
theorem settledBy_append_pending (hissue : ∀ call, act = .issue call → call.id = a.calls.nextId) :
    List.Subperm ((a.settledBy act).map Prod.fst ++ (a.after act).calls.pending)
      (a.calls.pending ++ act.given?.toList) := by
  unfold after
  rw [(deliverAll_keeps _ _).2.1]
  cases act with
  | issue call =>
    have hcall : call = ⟨a.calls.nextId, call.command, call.addressee⟩ := by rw [← hissue call rfl]
    show List.Subperm (a.calls.pending ++ [(⟨a.calls.nextId, call.command, call.addressee⟩ : Call)])
      _
    rw [← hcall]
    exact List.Subperm.refl _
  | refuse call => exact perm_append_comm.subperm
  | reply id ok payload =>
    show List.Subperm ((a.calls.settleReply id ok payload).1.toList.map Prod.fst ++
      (a.calls.settleReply id ok payload).2.pending) _
    unfold Dispatch.settleReply
    cases hfind : a.calls.find? id with
    | none => exact (append_nil a.calls.pending).symm ▸ List.Subperm.refl _
    | some call =>
      have hcall := subperm_cons_filter (find?_eq_some hfind).1
      exact (append_nil a.calls.pending).symm ▸ hcall
  | outage o =>
    show List.Subperm (((a.calls.pending.map fun c => (c, Outcome.failed (.unavailable o))).map
      Prod.fst) ++ []) (a.calls.pending ++ [])
    rw [map_map]
    exact (map_id a.calls.pending).symm ▸ List.Subperm.refl _
  | discard =>
    show List.Subperm ((((a.calls.pending.filter fun c => !c.hasContinuation).map fun c =>
      (c, Outcome.failed (.unavailable .closed))).map Prod.fst) ++ []) (a.calls.pending ++ [])
    rw [map_map, append_nil, append_nil]
    refine List.Sublist.subperm ?_
    exact (map_id (a.calls.pending.filter fun c => !c.hasContinuation)).symm ▸ filter_sublist
  | take id outcome =>
    show List.Subperm _ (a.calls.pending ++ [])
    rw [append_nil]
    cases outcome with
    | expired => exact filter_sublist.subperm
    | _ => exact List.Subperm.refl _
  | _ => exact (append_nil a.calls.pending).symm ▸ List.Subperm.refl _

theorem pending_after_subset (h : act.given? = none) :
    (a.after act).calls.pending ⊆ a.calls.pending := by
  intro c hc
  have hissue : ∀ call, act = .issue call → call.id = a.calls.nextId := by
    rintro call rfl
    cases h
  have hmem := (settledBy_append_pending hissue).subset (mem_append_right _ hc)
  rw [h] at hmem
  exact (mem_append.1 hmem).resolve_right not_mem_nil

theorem pending_issue (h : call.id = a.calls.nextId) :
    (a.after (.issue call)).calls.pending = a.calls.pending ++ [call] := by
  have hcall : call = ⟨a.calls.nextId, call.command, call.addressee⟩ := by rw [← h]
  show a.calls.pending ++ [(⟨a.calls.nextId, call.command, call.addressee⟩ : Call)] = _
  rw [← hcall]

theorem pending_refuse (a : Account) (call : Call) :
    (a.after (.refuse call)).calls.pending = a.calls.pending :=
  (deliverAll_keeps _ _).2.1

theorem mem_due_after (h : p ∈ (a.after act).due) : p ∈ a.due ∨ p ∈ a.settledBy act := by
  rw [due_after] at h
  obtain h | h := mem_append.1 h
  · cases act with
    | resume call outcome => exact .inl (mem_of_mem_tail h)
    | _ => exact .inl h
  · exact .inr (mem_filter.1 h).1

/-- A call stays pending until it is settled, discarded or taken. -/
theorem pending_or_settledBy (hunique :
    ∀ c ∈ a.calls.pending, ∀ d ∈ a.calls.pending, c.id = d.id → c = d)
    (hdiscard : act ≠ .discard) (htake : ∀ outcome, act ≠ .take call.id outcome)
    (hcall : call ∈ a.calls.pending) :
    call ∈ (a.after act).calls.pending ∨ ∃ outcome, (call, outcome) ∈ a.settledBy act := by
  unfold after
  rw [(deliverAll_keeps _ _).2.1]
  cases act with
  | reply id ok payload =>
    show call ∈ (a.calls.settleReply id ok payload).2.pending ∨
      ∃ outcome, (call, outcome) ∈ (a.calls.settleReply id ok payload).1.toList
    unfold Dispatch.settleReply
    cases hfind : a.calls.find? id with
    | none => exact .inl hcall
    | some found =>
      by_cases hid : call.id = found.id
      · obtain rfl := hunique call hcall found (find?_eq_some hfind).1 hid
        exact .inr ⟨_, mem_singleton.2 rfl⟩
      · exact .inl (mem_filter.2 ⟨hcall, decide_eq_true hid⟩)
  | outage o => exact .inr ⟨_, mem_map.2 ⟨call, hcall, rfl⟩⟩
  | discard => exact absurd rfl hdiscard
  | take id outcome =>
    have hne : call.id ≠ id := fun heq => htake outcome (heq ▸ rfl)
    left
    cases outcome with
    | expired => exact mem_filter.2 ⟨hcall, decide_eq_true hne⟩
    | _ => exact hcall
  | issue c => exact .inl (mem_append_left _ hcall)
  | _ => exact .inl hcall

theorem ends_of_mem_settledBy (h : p ∈ a.settledBy act) : Ends a act p.1 p.2 := by
  cases act with
  | refuse call =>
    obtain rfl := mem_singleton.1 h
    exact .refuse call
  | reply id ok payload =>
    replace h : p ∈ (a.calls.settleReply id ok payload).1.toList := h
    unfold Dispatch.settleReply at h
    cases hfind : a.calls.find? id with
    | none =>
      rw [hfind] at h
      exact absurd h not_mem_nil
    | some call =>
      rw [hfind] at h
      obtain rfl := mem_singleton.1 h
      obtain ⟨hpending, rfl⟩ := find?_eq_some hfind
      exact .reply ok payload hpending
  | outage o =>
    obtain ⟨call, hcall, rfl⟩ := mem_map.1 h
    exact .outage o hcall
  | discard =>
    obtain ⟨call, hcall, rfl⟩ := mem_map.1 h
    obtain ⟨hpending, hwaiter⟩ := mem_filter.1 hcall
    exact .discard hpending ((hasContinuation_eq_false_iff call).1 (by simpa using hwaiter))
  | _ => exact absurd h not_mem_nil

theorem mem_settledBy_of_ends {outcome : Outcome}
    (hunique : ∀ c ∈ a.calls.pending, ∀ d ∈ a.calls.pending, c.id = d.id → c = d)
    (h : Ends a act call outcome) : (call, outcome) ∈ a.settledBy act := by
  cases h with
  | refuse => exact mem_singleton.2 rfl
  | outage o h => exact mem_map.2 ⟨call, h, rfl⟩
  | discard h hcall =>
    refine mem_map.2 ⟨call, mem_filter.2 ⟨h, ?_⟩, rfl⟩
    rw [(hasContinuation_eq_false_iff call).2 hcall]
    rfl
  | reply ok payload h =>
    have hfind : a.calls.find? (some (Int.ofNat call.id)) = some call := by
      cases hfound : a.calls.find? (some (Int.ofNat call.id)) with
      | none =>
        have hnone := List.find?_eq_none.1 hfound call h
        exact absurd (decide_eq_true rfl) hnone
      | some d =>
        obtain ⟨hd, hid⟩ := find?_eq_some hfound
        rw [hunique d hd call h (Int.ofNat.inj (Option.some.inj hid)).symm]
    show _ ∈ (a.calls.settleReply _ ok payload).1.toList
    unfold Dispatch.settleReply
    rw [hfind]
    exact mem_singleton.2 rfl

end Account

open Account

/-! ## Lawful histories -/

/-- A call was issued for a waiter that has not yet taken its outcome. -/
def Awaited (h : List Act) (id : Nat) : Prop :=
  (∃ call, .issue call ∈ h ∧ call.id = id ∧ call.addressee = .waiter) ∧
    ∀ outcome, .take id outcome ∉ h

/-- An act can be done after a history. -/
def Act.Possible (h : List Act) : Act → Prop
  | .issue call => call.id = (replay h).calls.nextId
  | .refuse call => call.id = (replay h).calls.nextId ∧ call.hasContinuation = true
  | .expire id => Awaited h id
  | .take id outcome => Awaited h id ∧ outcome = ((replay h).calls.outcomes.get? id).getD .expired
  | .resume call outcome => h.getLast? = some .pass ∧ (replay h).due.head? = some (call, outcome)
  | _ => True

/-- Every act was possible when it was done. -/
inductive Lawful : List Act → Prop where
  | nil : Lawful []
  | snoc {h : List Act} {act : Act} (hh : Lawful h) (hact : act.Possible h) : Lawful (h ++ [act])

variable {h : List Act} {id : Nat} {outcome : Outcome} {call : Call} {act : Act}
  {p : Call × Outcome} {before : List Act}

/-- Two places in a list are the same, or one comes first. -/
theorem same_or_before_or_after {α : Type} {b₁ b₂ a₁ a₂ : List α} {x y : α}
    (h : b₁ ++ x :: a₁ = b₂ ++ y :: a₂) :
    (b₁ = b₂ ∧ x = y ∧ a₁ = a₂) ∨ (∃ mid, b₂ = b₁ ++ x :: mid ∧ a₁ = mid ++ y :: a₂) ∨
      ∃ mid, b₁ = b₂ ++ y :: mid ∧ a₂ = mid ++ x :: a₁ := by
  obtain ⟨_ | ⟨z, mid⟩, rfl, hmid⟩ | ⟨_ | ⟨z, mid⟩, rfl, hmid⟩ := append_eq_append_iff.1 h
  · exact .inl ⟨(append_nil b₁).symm, List.cons.inj hmid⟩
  · obtain ⟨rfl, rfl⟩ := List.cons.inj hmid
    exact .inr (.inl ⟨mid, rfl, rfl⟩)
  · exact .inl ⟨append_nil b₂, List.cons.inj hmid.symm⟩
  · obtain ⟨rfl, rfl⟩ := List.cons.inj hmid
    exact .inr (.inr ⟨mid, rfl, rfl⟩)

theorem Lawful.at {after : List Act} (hh : Lawful h) (heq : h = before ++ act :: after) :
    Lawful before ∧ act.Possible before := by
  induction hh generalizing after with
  | nil => simp at heq
  | snoc hh hact ih =>
    obtain rfl | ⟨after', last, rfl⟩ := eq_nil_or_concat after
    · obtain ⟨rfl, hlast⟩ := append_inj' heq rfl
      obtain rfl := head_eq_of_cons_eq hlast
      exact ⟨hh, hact⟩
    · rw [concat_eq_append, ← cons_append, ← append_assoc] at heq
      exact ih (append_inj' heq rfl).1

theorem Lawful.initial {after : List Act} (hh : Lawful (before ++ after)) : Lawful before := by
  cases after with
  | nil => exact append_nil before ▸ hh
  | cons act after => exact (hh.at rfl).1

theorem Lawful.possible_of_mem (hh : Lawful h) (hact : act ∈ h) :
    ∃ before after, h = before ++ act :: after ∧ act.Possible before := by
  obtain ⟨before, after, heq⟩ := append_of_mem hact
  exact ⟨before, after, heq, (hh.at heq).2⟩

/-- The calls that were given a number. -/
def given (h : List Act) : List Call := h.filterMap Act.given?

theorem given_snoc (h : List Act) (act : Act) :
    given (h ++ [act]) = given h ++ act.given?.toList := by
  unfold given
  rw [filterMap_append]
  cases hact : act.given? <;> simp [hact]

theorem mem_given (hact : act ∈ h) (hcall : act.given? = some call) :
    call ∈ given h := mem_filterMap.2 ⟨act, hact, hcall⟩

theorem Act.Possible.given (hact : act.Possible h) (hcall : act.given? = some call) :
    call.id = (replay h).calls.nextId := by
  cases act with
  | issue c =>
    obtain rfl := Option.some.inj hcall
    exact hact
  | refuse c =>
    obtain rfl := Option.some.inj hcall
    exact hact.1
  | _ => cases hcall

/-- Numbers grow, so that none is given out twice. -/
theorem Lawful.numbers (hh : Lawful h) : (given h).Pairwise (fun c d => c.id < d.id) ∧
      ∀ c ∈ given h, c.id < (replay h).calls.nextId := by
  induction hh with
  | nil => exact ⟨.nil, fun c hc => absurd hc not_mem_nil⟩
  | @snoc h act hh hact ih =>
    rw [given_snoc, replay_snoc, nextId_after]
    cases hcall : act.given? with
    | none => exact (append_nil (IdeMode.given h)).symm ▸ ih
    | some call =>
      have hid : call.id = (replay h).calls.nextId := hact.given hcall
      refine ⟨pairwise_append.2 ⟨ih.1, pairwise_singleton .., ?_⟩, ?_⟩
      · intro c hc d hd
        obtain rfl := mem_singleton.1 hd
        exact hid ▸ ih.2 c hc
      · intro c hc
        obtain hc | hc := mem_append.1 hc
        · exact Nat.lt_succ_of_lt (ih.2 c hc)
        · obtain rfl := mem_singleton.1 hc
          exact hid ▸ Nat.lt_succ_self _

theorem Lawful.nodup_given (hh : Lawful h) : ((given h).map Call.id).Nodup :=
  pairwise_map.2 (hh.numbers.1.imp Nat.ne_of_lt)

theorem Lawful.given_inj (hh : Lawful h) {c d : Call} (hc : c ∈ given h) (hd : d ∈ given h)
    (hid : c.id = d.id) : c = d := inj_on_of_nodup_map hh.nodup_given hc hd hid

/-- Calls are neither made up nor settled twice: the settled ones and the pending ones are among
those given out. -/
theorem Lawful.conserved (hh : Lawful h) :
    List.Subperm ((settled h).map Prod.fst ++ (replay h).calls.pending) (given h) := by
  induction hh with
  | nil => exact List.Subperm.refl _
  | @snoc h act hh hact ih =>
    rw [settled_snoc, replay_snoc, given_snoc, map_append, append_assoc]
    have hissue : ∀ call, act = .issue call → call.id = (replay h).calls.nextId := by
      rintro call rfl
      exact hact
    refine ((subperm_append_left _).2 (settledBy_append_pending hissue)).trans ?_
    rw [← append_assoc]
    exact (subperm_append_right _).2 ih

theorem Lawful.pending_given (hh : Lawful h) (hcall : call ∈ (replay h).calls.pending) :
    call ∈ given h := hh.conserved.subset (mem_append_right _ hcall)

theorem Lawful.pending_inj (hh : Lawful h) :
    ∀ c ∈ (replay h).calls.pending, ∀ d ∈ (replay h).calls.pending, c.id = d.id → c = d :=
  fun _ hc _ hd => hh.given_inj (hh.pending_given hc) (hh.pending_given hd)

theorem Lawful.settled_given (hh : Lawful h) (hp : p ∈ settled h) :
    p.1 ∈ given h := hh.conserved.subset (mem_append_left _ (mem_map_of_mem hp))

theorem Lawful.nodup_settled_pending (hh : Lawful h) :
    ((settled h).map (fun p => p.1.id) ++ (replay h).calls.pending.map Call.id).Nodup := by
  obtain ⟨l, hperm, hsub⟩ := hh.conserved
  have hl : (l.map Call.id).Nodup := hh.nodup_given.sublist (hsub.map Call.id)
  have hmap := (hperm.map Call.id).nodup_iff.1 hl
  rwa [map_append, map_map] at hmap

/-- A settled call has one outcome. -/
theorem Lawful.settled_unique (hh : Lawful h) {q : Call × Outcome} (hp : p ∈ settled h)
    (hq : q ∈ settled h) (hid : p.1.id = q.1.id) : p = q :=
  inj_on_of_nodup_map (nodup_append.1 hh.nodup_settled_pending).1 hp hq hid

theorem Lawful.not_pending_of_settled (hh : Lawful h) (hp : p ∈ settled h)
    (hcall : call ∈ (replay h).calls.pending) : p.1.id ≠ call.id :=
  (nodup_append.1 hh.nodup_settled_pending).2.2 _ (mem_map_of_mem hp) _ (mem_map_of_mem hcall)

theorem Lawful.mem_settled_iff (hh : Lawful h) :
    (call, outcome) ∈ settled h ↔
      ∃ before act after, h = before ++ act :: after ∧ Ends (replay before) act call outcome := by
  refine mem_settledFrom.trans ?_
  constructor
  · rintro ⟨before, act, after', heq, hp⟩
    exact ⟨before, act, after', heq, ends_of_mem_settledBy hp⟩
  · rintro ⟨before, act, after', heq, hends⟩
    exact ⟨before, act, after', heq, mem_settledBy_of_ends (hh.at heq).1.pending_inj hends⟩

theorem Lawful.issued_of_pending (hh : Lawful h) (hcall : call ∈ (replay h).calls.pending) :
    .issue call ∈ h := by
  induction hh with
  | nil => exact absurd hcall not_mem_nil
  | @snoc h act hh hact ih =>
    rw [replay_snoc] at hcall
    cases act with
    | issue c =>
      rw [pending_issue hact] at hcall
      obtain hcall | hcall := mem_append.1 hcall
      · exact mem_append_left _ (ih hcall)
      · exact mem_append_right _ (mem_singleton.2 (congrArg _ (mem_singleton.1 hcall)))
    | refuse c =>
      rw [pending_refuse] at hcall
      exact mem_append_left _ (ih hcall)
    | _ => exact mem_append_left _ (ih (pending_after_subset rfl hcall))

/-! ## Continuations -/

/-- Continuations run in the order in which their calls were settled. -/
theorem Lawful.queue (hh : Lawful h) :
    (settled h).filter (fun p => p.1.hasContinuation) = h.filterMap Act.ran? ++ (replay h).due := by
  induction hh with
  | nil => rfl
  | @snoc h act hh hact ih =>
    rw [settled_snoc, replay_snoc, due_after, filter_append, ih, filterMap_append, append_assoc,
      append_assoc]
    cases act with
    | resume call outcome =>
      obtain ⟨-, hhead⟩ := hact
      obtain ⟨rest, hdue⟩ := List.head?_eq_some_iff.1 hhead
      rw [hdue]
      rfl
    | _ => rfl

theorem Lawful.settled_of_resume (hh : Lawful h) (hmem : .resume call outcome ∈ h) :
    (call, outcome) ∈ settled h ∧ call.hasContinuation = true := by
  have hran : (call, outcome) ∈ h.filterMap Act.ran? := mem_filterMap.2 ⟨_, hmem, rfl⟩
  have hsettled := hh.queue ▸ mem_append_left (replay h).due hran
  exact mem_filter.1 hsettled

/-- Where none is queued, every continuation whose call was settled has run. -/
theorem Lawful.ran_of_settled (hh : Lawful h) (hdue : (replay h).due = []) (hp : p ∈ settled h)
    (hcall : p.1.hasContinuation = true) : p ∈ h.filterMap Act.ran? := by
  have hran := hh.queue ▸ mem_filter.2 ⟨hp, hcall⟩
  rwa [hdue, append_nil] at hran

/-! ## Waiters -/

/-- The call with a number was issued for a waiter. -/
def IsWaited (h : List Act) (id : Nat) : Prop :=
  ∃ call, .issue call ∈ h ∧ call.id = id ∧ call.addressee = .waiter

theorem IsWaited.append (hid : IsWaited h id) (more : List Act) : IsWaited (h ++ more) id := by
  obtain ⟨call, hmem, hcall⟩ := hid
  exact ⟨call, mem_append_left _ hmem, hcall⟩

theorem Lawful.isWaited_of_take (hh : Lawful h) (hmem : .take id outcome ∈ h) : IsWaited h id := by
  obtain ⟨before, after, rfl, hpossible⟩ := hh.possible_of_mem hmem
  exact IsWaited.append hpossible.1.1 _

theorem Lawful.isWaited_of_expire (hh : Lawful h) (hmem : .expire id ∈ h) : IsWaited h id := by
  obtain ⟨before, after, rfl, hpossible⟩ := hh.possible_of_mem hmem
  exact IsWaited.append hpossible.1 _

/-- A call with a waiter has no continuation. -/
theorem Lawful.not_hasContinuation (hh : Lawful h) (hid : IsWaited h id) (hcall : call ∈ given h)
    (heq : call.id = id) : ¬ call.hasContinuation = true := by
  obtain ⟨d, hmem, rfl, haddressee⟩ := hid
  obtain rfl := hh.given_inj hcall (mem_given hmem rfl) heq
  exact Bool.eq_false_iff.1 ((hasContinuation_eq_false_iff call).2 haddressee)

theorem Lawful.waited_lt (hh : Lawful h) (hid : IsWaited h id) : id < (replay h).calls.nextId := by
  obtain ⟨call, hmem, rfl, -⟩ := hid
  exact hh.numbers.2 call (mem_given hmem rfl)

/-- The time of a call runs out. -/
def Act.expires (id : Nat) : Act → Bool
  | .expire j => j = id
  | _ => false

theorem any_expires : h.any (Act.expires id) = true ↔ .expire id ∈ h := by
  rw [any_eq_true]
  constructor
  · rintro ⟨act, hmem, hact⟩
    cases act with
    | expire j =>
      obtain rfl := of_decide_eq_true hact
      exact hmem
    | _ => cases hact
  · intro hmem
    exact ⟨_, hmem, decide_eq_true rfl⟩

/-- What is to be told to the waiter of a call: that its time ran out if it did, and else what
settled the call. -/
def verdict (h : List Act) (id : Nat) : Option Outcome :=
  if h.any (Act.expires id) then some .expired
  else ((settled h).find? fun p => p.1.id = id).map Prod.snd

theorem verdict_of_expire (hmem : .expire id ∈ h) : verdict h id = some .expired :=
  if_pos (any_expires.2 hmem)

theorem verdict_of_not_expire (hmem : .expire id ∉ h) :
    verdict h id = ((settled h).find? fun p => p.1.id = id).map Prod.snd :=
      if_neg fun hany => hmem (any_expires.1 hany)

theorem verdict_snoc (h : List Act) (act : Act) (id : Nat) :
    verdict (h ++ [act]) id = if act.expires id then some .expired
      else (verdict h id).or
        ((((replay h).settledBy act).find? fun p => p.1.id = id).map Prod.snd) := by
  unfold verdict
  rw [any_append, any_cons, any_nil, Bool.or_false, settled_snoc, List.find?_append]
  cases act.expires id <;> cases h.any (Act.expires id) <;> simp [Option.map_or]

theorem outcomes_after {a : Account} (htake : ∀ outcome, act ≠ .take id outcome) :
    (a.after act).calls.outcomes.get? id = if act.expires id then some .expired
      else (a.calls.outcomes.get? id).or (((a.settledBy act).find? fun p =>
        p.1.id = id ∧ p.1.hasContinuation = false).map Prod.snd) := by
  unfold after
  rw [outcomes_deliverAll]
  cases act with
  | expire j =>
    show ((a.calls.outcomes.set j .expired).get? id).or _ =
      if (decide (j = id)) = true then _ else _
    rw [Table.get?_set]
    by_cases hid : j = id <;> simp [hid]
  | take j outcome =>
    have hid : j ≠ id := fun h => htake outcome (h ▸ rfl)
    have herase : (a.calls.outcomes.erase j).get? id = a.calls.outcomes.get? id := by
      rw [Table.get?_erase, if_neg hid]
    cases outcome <;> exact congrArg (Option.or · none) herase
  | reply n ok payload =>
    have hkeep : (a.calls.settleReply n ok payload).2.outcomes = a.calls.outcomes := by
      unfold Dispatch.settleReply
      split <;> rfl
    show ((a.calls.settleReply n ok payload).2.outcomes.get? id).or _ = _
    rw [hkeep]
    rfl
  | _ => rfl

theorem IsWaited.of_snoc (hid : IsWaited (h ++ [act]) id) (hact : act.Possible h) :
    IsWaited h id ∨ (replay h).calls.nextId ≤ id := by
  obtain ⟨call, hmem, rfl, hcall⟩ := hid
  obtain hmem | hmem := mem_append.1 hmem
  · exact .inl ⟨call, hmem, rfl, hcall⟩
  · obtain rfl := mem_singleton.1 hmem
    exact .inr (Nat.le_of_eq hact.symm)

/-- Until a waiter takes it, the outcome that is kept for it is the verdict on its call. -/
theorem Lawful.outcomes (hh : Lawful h) (htake : ∀ outcome, .take id outcome ∉ h)
    (hid : IsWaited h id ∨ (replay h).calls.nextId ≤ id) :
    (replay h).calls.outcomes.get? id = verdict h id := by
  induction hh with
  | nil => rfl
  | @snoc h act hh hact ih =>
    have hcalls : ∀ p ∈ (replay h).settledBy act, p.1.id = id → p.1.hasContinuation = false := by
      intro p hp heq
      have hlaw : Lawful (h ++ [act]) := hh.snoc hact
      have hgiven := hlaw.settled_given (settled_snoc h act ▸ mem_append_right _ hp)
      obtain hid | hid := hid
      · exact Bool.eq_false_iff.2 (hlaw.not_hasContinuation hid hgiven heq)
      · exact absurd (heq ▸ hlaw.numbers.2 p.1 hgiven) (Nat.not_lt.2 hid)
    have hbefore : (replay h).calls.outcomes.get? id = verdict h id := by
      refine ih (fun outcome hmem => htake outcome (mem_append_left _ hmem)) ?_
      obtain hid | hid := hid
      · exact hid.of_snoc hact
      · rw [replay_snoc, nextId_after] at hid
        exact .inr (Nat.le_trans (Nat.le_add_right _ _) hid)
    rw [replay_snoc, verdict_snoc, outcomes_after, hbefore]
    · refine if_congr Iff.rfl rfl (congrArg _ (congrArg _ ?_))
      rw [← List.head?_filter, ← List.head?_filter]
      refine congrArg _ (filter_congr fun p hp => ?_)
      by_cases heq : p.1.id = id <;> simp [heq, hcalls p hp]
    · rintro outcome rfl
      exact htake outcome mem_concat_self

theorem Lawful.verdict_of_settled (hh : Lawful h) (hp : p ∈ settled h)
    (hexpire : .expire p.1.id ∉ h) : verdict h p.1.id = some p.2 := by
  rw [verdict_of_not_expire hexpire]
  cases hfind : (settled h).find? fun q => q.1.id = p.1.id with
  | none => exact absurd (decide_eq_true rfl) (List.find?_eq_none.1 hfind p hp)
  | some q =>
    have hid := List.find?_some hfind
    rw [hh.settled_unique (mem_of_find?_eq_some hfind) hp (of_decide_eq_true hid)]
    rfl

theorem settled_of_verdict (hverdict : verdict h id = some outcome) :
    .expire id ∈ h ∧ outcome = .expired ∨ ∃ call, (call, outcome) ∈ settled h ∧ call.id = id := by
  by_cases hexpire : .expire id ∈ h
  · rw [verdict_of_expire hexpire] at hverdict
    exact .inl ⟨hexpire, (Option.some.inj hverdict).symm⟩
  · rw [verdict_of_not_expire hexpire] at hverdict
    obtain ⟨⟨call, _⟩, hfind, rfl⟩ := Option.map_eq_some_iff.1 hverdict
    have hid := List.find?_some hfind
    exact .inr ⟨call, mem_of_find?_eq_some hfind, of_decide_eq_true hid⟩

/-- Nothing is known of a call that is still to be issued. -/
theorem Lawful.outcomes_of_le (hh : Lawful h) (hid : (replay h).calls.nextId ≤ id) :
    (replay h).calls.outcomes.get? id = none := by
  have hexpire : .expire id ∉ h := fun hmem =>
    absurd (hh.waited_lt (hh.isWaited_of_expire hmem)) (Nat.not_lt.2 hid)
  have htake : ∀ outcome, .take id outcome ∉ h := fun outcome hmem =>
    absurd (hh.waited_lt (hh.isWaited_of_take hmem)) (Nat.not_lt.2 hid)
  have hfind : (settled h).find? (fun p => p.1.id = id) = none := by
    refine List.find?_eq_none.2 fun p hp heq => ?_
    have hlt := hh.numbers.2 p.1 (hh.settled_given hp)
    rw [of_decide_eq_true heq] at hlt
    exact absurd hlt (Nat.not_lt.2 hid)
  rw [hh.outcomes htake (.inr hid), verdict_of_not_expire hexpire, hfind]
  rfl

theorem Awaited.snoc (hawaited : Awaited h id) (htake : ∀ outcome, act ≠ .take id outcome) :
    Awaited (h ++ [act]) id := by
  refine ⟨IsWaited.append hawaited.1 _, fun outcome hmem => ?_⟩
  rcases mem_append.1 hmem with hmem | hmem
  · exact hawaited.2 outcome hmem
  · exact htake outcome (mem_singleton.1 hmem).symm

theorem Awaited.of_snoc (hawaited : Awaited (h ++ [act]) id) :
    Awaited h id ∨ ∃ call, act = .issue call ∧ call.id = id ∧ call.addressee = .waiter := by
  obtain ⟨⟨call, hmem, hid, hwaiter⟩, huntaken⟩ := hawaited
  rcases mem_append.1 hmem with hmem | hmem
  · exact .inl ⟨⟨call, hmem, hid, hwaiter⟩,
      fun outcome htaken => huntaken outcome (mem_append_left _ htaken)⟩
  · exact .inr ⟨call, (mem_singleton.1 hmem).symm, hid, hwaiter⟩

theorem awaited_snoc (hissue : ∀ call, act = .issue call → call.addressee ≠ .waiter)
    (htake : ∀ j outcome, act ≠ .take j outcome) : Awaited (h ++ [act]) id ↔ Awaited h id := by
  refine ⟨fun hawaited => hawaited.of_snoc.resolve_right ?_,
    fun hawaited => hawaited.snoc (htake id)⟩
  rintro ⟨call, heq, -, hwaiter⟩
  exact hissue call heq hwaiter

theorem Lawful.awaited_issue (hh : Lawful h) (hid : call.id = (replay h).calls.nextId)
    (hcall : call.addressee = .waiter) :
    Awaited (h ++ [.issue call]) id ↔ Awaited h id ∨ id = call.id := by
  constructor
  · refine fun hawaited => hawaited.of_snoc.imp_right ?_
    rintro ⟨_, ⟨⟩, rfl, -⟩
    rfl
  · rintro (hawaited | rfl)
    · exact hawaited.snoc nofun
    · refine ⟨⟨call, mem_concat_self, rfl, hcall⟩, fun outcome hm => ?_⟩
      obtain hm | hm := mem_append.1 hm
      · exact absurd (hh.waited_lt (hh.isWaited_of_take hm)) (hid ▸ Nat.lt_irrefl _)
      · cases mem_singleton.1 hm

theorem awaited_take {j : Nat} : Awaited (h ++ [.take j outcome]) id ↔ Awaited h id ∧ id ≠ j := by
  constructor
  · intro hawaited
    refine ⟨hawaited.of_snoc.resolve_right (by nofun), ?_⟩
    rintro rfl
    exact hawaited.2 outcome mem_concat_self
  · rintro ⟨hawaited, hne⟩
    exact hawaited.snoc fun _ heq => hne (Act.take.inj heq).1.symm

/-! ## What is told -/

theorem Act.told_cases (h : act.told? = some (id, outcome)) :
    act = .take id outcome ∨ ∃ call, call.id = id ∧ act = .resume call outcome := by
  cases act with
  | take j o =>
    obtain ⟨rfl, rfl⟩ := Prod.mk.inj (Option.some.inj h)
    exact .inl rfl
  | resume call o =>
    obtain ⟨rfl, rfl⟩ := Prod.mk.inj (Option.some.inj h)
    exact .inr ⟨call, rfl, rfl⟩
  | _ => cases h

theorem mem_told :
    (id, outcome) ∈ h.filterMap Act.told? ↔
      .take id outcome ∈ h ∨ ∃ call, call.id = id ∧ .resume call outcome ∈ h := by
  rw [mem_filterMap]
  constructor
  · rintro ⟨act, hmem, hact⟩
    obtain rfl | ⟨call, hid, rfl⟩ := Act.told_cases hact
    · exact .inl hmem
    · exact .inr ⟨call, hid, hmem⟩
  · rintro (hmem | ⟨call, rfl, hmem⟩)
    · exact ⟨_, hmem, rfl⟩
    · exact ⟨_, hmem, rfl⟩

/-- A waiter is told the verdict on its call, and that its time ran out if there is none. -/
theorem Lawful.take_verdict (hh : Lawful h) (hact : Act.Possible h (.take id outcome)) :
    outcome = (verdict h id).getD .expired := by
  rw [hact.2, hh.outcomes hact.1.2 (.inl hact.1.1)]

theorem Lawful.due_settled (hh : Lawful h) (hact : Act.Possible h (.resume call outcome)) :
    (call, outcome) ∈ settled h ∧ call.hasContinuation = true ∧
      (call, outcome) ∉ h.filterMap Act.ran? := by
  have hdue : (call, outcome) ∈ (replay h).due := mem_of_mem_head? hact.2
  have hmem := mem_filter.1 (hh.queue ▸ mem_append_right (h.filterMap Act.ran?) hdue)
  have hsettled : (settled h).Nodup :=
    List.Nodup.of_map (fun p : Call × Outcome => p.1.id) (nodup_append.1 hh.nodup_settled_pending).1
  have hqueue := hh.queue ▸ hsettled.filter _
  exact ⟨hmem.1, hmem.2, fun hran => (nodup_append.1 hqueue).2.2 _ hran _ hdue rfl⟩

theorem Lawful.told_once (hh : Lawful h) : ((h.filterMap Act.told?).map Prod.fst).Nodup := by
  induction hh with
  | nil => exact .nil
  | @snoc h act hh hact ih =>
    rw [filterMap_append, map_append]
    refine nodup_append.2 ⟨ih, ?_, ?_⟩
    · cases htold : act.told? <;> simp [htold]
    · intro id hid j hj heq
      obtain ⟨⟨_, o⟩, htold, rfl⟩ := mem_map.1 hid
      obtain ⟨⟨_, o'⟩, hmem', rfl⟩ := mem_map.1 hj
      obtain ⟨last, hmem'', hlast⟩ := mem_filterMap.1 hmem'
      obtain rfl := mem_singleton.1 hmem''
      subst heq
      obtain rfl | ⟨call, rfl, rfl⟩ := Act.told_cases hlast
      · obtain hmem | ⟨call, hcall, hmem⟩ := mem_told.1 htold
        · exact hact.1.2 o hmem
        · obtain ⟨hsettled, hcont⟩ := hh.settled_of_resume hmem
          exact hh.not_hasContinuation hact.1.1 (hh.settled_given hsettled) hcall hcont
      · obtain ⟨hdue, hcont, hran⟩ := hh.due_settled hact
        obtain hmem | ⟨call', hcall, hmem⟩ := mem_told.1 htold
        · exact hh.not_hasContinuation (hh.isWaited_of_take hmem) (hh.settled_given hdue) rfl hcont
        · obtain ⟨hsettled, -⟩ := hh.settled_of_resume hmem
          obtain ⟨rfl, rfl⟩ := Prod.mk.inj (hh.settled_unique hsettled hdue hcall)
          exact hran (mem_filterMap.2 ⟨_, hmem, rfl⟩)

/-- A number that has been given out and is not pending is never pending again. -/
theorem Lawful.stays_gone {more : List Act} (hlaw : Lawful (h ++ more))
    (hid : id < (replay h).calls.nextId) (hgone : ∀ c ∈ (replay h).calls.pending, c.id ≠ id) :
    id < (replay (h ++ more)).calls.nextId ∧
      ∀ c ∈ (replay (h ++ more)).calls.pending, c.id ≠ id := by
  generalize hmore : h ++ more = l at hlaw ⊢
  induction hlaw generalizing more with
  | nil =>
    obtain ⟨rfl, -⟩ := append_eq_nil_iff.1 hmore
    exact ⟨hid, hgone⟩
  | @snoc l act hl hact ih =>
    obtain rfl | ⟨more', last, rfl⟩ := eq_nil_or_concat more
    · rw [append_nil] at hmore
      exact hmore ▸ ⟨hid, hgone⟩
    · rw [concat_eq_append, ← append_assoc] at hmore
      obtain ⟨hlt, hnot⟩ := ih (append_inj' hmore rfl).1
      rw [replay_snoc, nextId_after]
      refine ⟨Nat.lt_of_lt_of_le hlt (Nat.le_add_right _ _), fun c hc => ?_⟩
      have hissue : ∀ call, act = .issue call → call.id = (replay l).calls.nextId := by
        rintro call rfl
        exact hact
      have hsub := settledBy_append_pending hissue
      obtain hc | hc := mem_append.1 (hsub.subset (mem_append_right _ hc))
      · exact hnot c hc
      · have hfresh := hact.given (Option.mem_toList.1 hc)
        exact fun heq => absurd (heq ▸ hfresh ▸ hlt) (Nat.lt_irrefl _)

theorem Lawful.settled_of_take (hh : Lawful h) (hact : Act.Possible h (.take id outcome))
    (hne : outcome ≠ .expired) : ∃ call, (call, outcome) ∈ settled h ∧ call.id = id := by
  have hverdict := hh.take_verdict hact
  cases hknown : verdict h id with
  | none =>
    rw [hknown] at hverdict
    exact absurd hverdict hne
  | some known =>
    rw [hknown] at hverdict
    obtain rfl : outcome = known := hverdict
    obtain ⟨-, hexpired⟩ | hsettled := settled_of_verdict hknown
    · exact absurd hexpired hne
    · exact hsettled

theorem Lawful.gone_after_take (hh : Lawful h) (hact : Act.Possible h (.take id outcome)) :
    ∀ c ∈ (replay (h ++ [.take id outcome])).calls.pending, c.id ≠ id := by
  intro c hc heq
  rw [replay_snoc] at hc
  cases outcome with
  | expired => exact absurd heq (of_decide_eq_true (mem_filter.1 hc).2)
  | _ =>
    obtain ⟨d, hd, hid⟩ := hh.settled_of_take hact nofun
    exact hh.not_pending_of_settled hd hc (hid.trans heq.symm)

/-- As long as a call is pending nobody has been told its outcome. -/
theorem Lawful.untold_of_pending (hh : Lawful h) (hcall : call ∈ (replay h).calls.pending) :
    (call.id, outcome) ∉ h.filterMap Act.told? := by
  intro htold
  obtain hmem | ⟨d, hd, hmem⟩ := mem_told.1 htold
  · obtain ⟨before, after, rfl, hpossible⟩ := hh.possible_of_mem hmem
    have hbefore : Lawful before := (hh.at rfl).1
    have hlt : call.id < (replay (before ++ [.take call.id outcome])).calls.nextId := by
      rw [replay_snoc, nextId_after]
      exact hbefore.waited_lt hpossible.1.1
    rw [append_cons] at hh hcall
    exact (hh.stays_gone hlt (hbefore.gone_after_take hpossible)).2 call hcall rfl
  · exact hh.not_pending_of_settled (hh.settled_of_resume hmem).1 hcall hd

theorem Ends.pending_or_refuse {a : Account} (h : Ends a act call outcome) :
    call ∈ a.calls.pending ∨ act = .refuse call := by
  cases h with
  | reply ok payload h => exact .inl h
  | outage o h => exact .inl h
  | discard h hcall => exact .inl h
  | refuse => exact .inr rfl

/-- A call that was discarded is not settled afterwards. -/
theorem Lawful.not_ends_of_discard {after : List Act} (hh : Lawful (before ++ .discard :: after))
    (hcall : call ∈ given before) (hact : act.Possible (before ++ .discard :: after)) :
    ¬ Ends (replay (before ++ .discard :: after)) act call outcome := by
  intro hends
  have hlt : call.id < (replay (before ++ [.discard])).calls.nextId := by
    rw [replay_snoc, nextId_after]
    exact (hh.at rfl).1.numbers.2 call hcall
  have hgone : ∀ c ∈ (replay (before ++ [.discard])).calls.pending, c.id ≠ call.id := by
    rw [replay_snoc]
    unfold Account.after
    rw [(deliverAll_keeps _ _).2.1]
    nofun
  rw [append_cons] at hh hact hends
  obtain ⟨hlt', hgone'⟩ := hh.stays_gone hlt hgone
  obtain hpending | rfl := hends.pending_or_refuse
  · exact hgone' call hpending rfl
  · exact absurd hlt' (hact.1 ▸ Nat.lt_irrefl _)

/-- The continuation of a call that was discarded never runs. -/
theorem Lawful.untold_of_discard {after : List Act} (hh : Lawful (before ++ .discard :: after))
    (hpending : call ∈ (replay before).calls.pending) (hcall : call.hasContinuation = true)
    (outcome : Outcome) :
    (call.id, outcome) ∉ (before ++ .discard :: after).filterMap Act.told? := by
  have hbefore : Lawful before := (hh.at rfl).1
  have hgiven : call ∈ given (before ++ .discard :: after) := by
    unfold given
    rw [filterMap_append]
    exact mem_append_left _ (hbefore.pending_given hpending)
  intro htold
  obtain hmem | ⟨d, hd, hmem⟩ := mem_told.1 htold
  · exact hh.not_hasContinuation (hh.isWaited_of_take hmem) hgiven rfl hcall
  · have hsettled := (hh.settled_of_resume hmem).1
    obtain rfl := hh.given_inj (hh.settled_given hsettled) hgiven hd
    obtain ⟨first, act, rest, heq, hends⟩ := hh.mem_settled_iff.1 hsettled
    have hnot : act ≠ .discard := by
      rintro rfl
      cases hends with
      | discard _ hwaiter => exact absurd hwaiter ((hasContinuation_iff d).1 hcall)
    -- it is settled before it is discarded, or afterwards
    obtain ⟨-, hsame, -⟩ | ⟨mid, rfl, -⟩ | ⟨mid, rfl, -⟩ := same_or_before_or_after heq
    · exact hnot hsame.symm
    · obtain ⟨hfirst, hpossible⟩ := hh.at heq
      exact hfirst.not_ends_of_discard (hbefore.pending_given hpending) hpossible hends
    · have hearly := hbefore.mem_settled_iff.2 ⟨first, act, mid, rfl, hends⟩
      exact hbefore.not_pending_of_settled hearly hpending rfl

/-- A continuation runs in a later move than the one in which its call was given a number. -/
theorem Lawful.pass_between {mid after : List Act}
    (hh : Lawful (before ++ act :: (mid ++ .resume call outcome :: after)))
    (hact : act.given? = some call) : .pass ∈ mid := by
  rw [← cons_append, ← append_assoc] at hh
  have hlast := (hh.at rfl).2.1
  obtain rfl | ⟨mid', last, rfl⟩ := eq_nil_or_concat mid
  · rw [List.getLast?_append, List.getLast?_singleton] at hlast
    obtain rfl := Option.some.inj hlast
    cases hact
  · rw [concat_eq_append, ← cons_append, ← append_assoc, List.getLast?_append,
      List.getLast?_singleton] at hlast
    obtain rfl := Option.some.inj hlast
    exact concat_eq_append ▸ mem_concat_self

/-- What settles a call settles it for good. -/
theorem Lawful.ends_once {b₁ b₂ a₁ a₂ : List Act} {x y : Act} {c d : Call} {o o' : Outcome}
    (hh : Lawful h) (hx : h = b₁ ++ x :: a₁) (hy : h = b₂ ++ y :: a₂) (hc : Ends (replay b₁) x c o)
    (hd : Ends (replay b₂) y d o') (hid : c.id = d.id) : b₁ = b₂ ∧ c = d ∧ o = o' := by
  -- once a call is settled, nothing that comes later settles one with its number
  have hlater : ∀ {b₁ b₂ a₁ a₂ : List Act} {x y : Act} {c d : Call} {o o' : Outcome},
    h = b₁ ++ x :: a₁ →
      h = b₂ ++ y :: a₂ → Ends (replay b₁) x c o → Ends (replay b₂) y d o' → c.id = d.id →
        ∀ more, b₂ ≠ b₁ ++ x :: more := by
    rintro b₁ b₂ a₁ a₂ x y c d o o' hx hy hc hd hid more rfl
    obtain ⟨hlaw, hpossible⟩ := hh.at hy
    have hsettled := hlaw.mem_settled_iff.2 ⟨b₁, x, more, rfl, hc⟩
    obtain hpending | rfl := hd.pending_or_refuse
    · exact hlaw.not_pending_of_settled hsettled hpending hid
    · have hlt := hlaw.numbers.2 c (hlaw.settled_given hsettled)
      exact absurd hlt (hid ▸ hpossible.1 ▸ Nat.lt_irrefl _)
  have hsettled := hh.settled_unique (hh.mem_settled_iff.2 ⟨b₁, x, a₁, hx, hc⟩)
    (hh.mem_settled_iff.2 ⟨b₂, y, a₂, hy, hd⟩) hid
  refine ⟨?_, Prod.mk.inj hsettled⟩
  obtain ⟨hsame, -⟩ | ⟨mid, heq, -⟩ | ⟨mid, heq, -⟩ := same_or_before_or_after (hx.symm.trans hy)
  · exact hsame
  · exact absurd heq (hlater hx hy hc hd hid mid)
  · exact absurd heq (hlater hy hx hd hc hid.symm mid)

theorem Lawful.expired_of_expire (hh : Lawful before) (hact : act.Possible before)
    (htold : act.told? = some (id, outcome)) (hexpire : .expire id ∈ before) :
    outcome = .expired := by
  obtain rfl | ⟨call, rfl, rfl⟩ := Act.told_cases htold
  · rw [hh.take_verdict hact, verdict_of_expire hexpire]
    rfl
  · obtain ⟨hsettled, hcall, -⟩ := hh.due_settled hact
    exact absurd hcall (hh.not_hasContinuation (hh.isWaited_of_expire hexpire)
      (hh.settled_given hsettled) rfl)

theorem Lawful.told_of_settled (hh : Lawful before) (hact : act.Possible before)
    (htold : act.told? = some (id, outcome)) (hexpire : .expire id ∉ before)
    (hp : p ∈ settled before) (hid : p.1.id = id) : outcome = p.2 := by
  subst hid
  obtain rfl | ⟨call, hcall, rfl⟩ := Act.told_cases htold
  · rw [hh.take_verdict hact, hh.verdict_of_settled hp hexpire]
    rfl
  · exact congrArg Prod.snd (hh.settled_unique (hh.due_settled hact).1 hp hcall)

theorem Lawful.settled_of_told (hh : Lawful before) (hact : act.Possible before)
    (htold : act.told? = some (id, outcome)) :
    (∃ call, (call, outcome) ∈ settled before ∧ call.id = id) ∨ act = .take id .expired := by
  obtain rfl | ⟨call, hid, rfl⟩ := Act.told_cases htold
  · by_cases ho : outcome = .expired
    · exact .inr (ho ▸ rfl)
    · exact .inl (hh.settled_of_take hact ho)
  · exact .inl ⟨call, (hh.due_settled hact).1, hid⟩

/-! ## One outcome for every call -/

/-- Every call has one number and is told at most one outcome, its own. -/
structure OneOutcome (h : List Act) : Prop where
  /-- numbers grow -/
  numbers : (given h).Pairwise fun c d => c.id < d.id
  /-- an outcome is told once -/
  once : ((h.filterMap Act.told?).map Prod.fst).Nodup
  /-- a pending call has been told none -/
  untold : ∀ before after call outcome, h = before ++ after → call ∈ (replay before).calls.pending →
    (call.id, outcome) ∉ before.filterMap Act.told?
  /-- only the first of what could settle a call does -/
  settledOnce : ∀ b₁ x a₁ b₂ y a₂ c d o o', h = b₁ ++ x :: a₁ → h = b₂ ++ y :: a₂ →
    Ends (replay b₁) x c o → Ends (replay b₂) y d o' → c.id = d.id → b₁ = b₂ ∧ c = d ∧ o = o'
  /-- if the time of a call ran out, that is what is told -/
  expired : ∀ before act after id outcome,
    h = before ++ act :: after → act.told? = some (id, outcome) →
    .expire id ∈ before → outcome = .expired
  /-- else it is what settled the call -/
  settled : ∀ before act after id outcome,
    h = before ++ act :: after → act.told? = some (id, outcome) →
    .expire id ∉ before → ∀ b x a call o, before = b ++ x :: a → Ends (replay b) x call o →
      call.id = id → outcome = o
  /-- and where nothing settled it, that its time ran out, and only to one who waits for it -/
  unsettled : ∀ before act after id outcome,
    h = before ++ act :: after → act.told? = some (id, outcome) →
    (∃ b x a call, before = b ++ x :: a ∧ Ends (replay b) x call outcome ∧ call.id = id) ∨
      act = .take id .expired
  /-- the continuation of a discarded call does not run -/
  discarded : ∀ before after call outcome,
    h = before ++ .discard :: after → call ∈ (replay before).calls.pending →
    call.hasContinuation = true → (call.id, outcome) ∉ h.filterMap Act.told?
  /-- a continuation runs in a later move than the one that issued the call -/
  later : ∀ before act mid call outcome after,
    h = before ++ act :: (mid ++ .resume call outcome :: after) →
    act.given? = some call → .pass ∈ mid

theorem Lawful.oneOutcome (hh : Lawful h) : OneOutcome h where
  numbers := hh.numbers.1
  once := hh.told_once
  untold before after call outcome heq hcall := by
    subst heq
    exact hh.initial.untold_of_pending hcall
  settledOnce b₁ x a₁ b₂ y a₂ c d o o' hx hy hc hd hid := hh.ends_once hx hy hc hd hid
  expired before act after id outcome heq htold hexpire := by
    obtain ⟨hbefore, hact⟩ := hh.at heq
    exact hbefore.expired_of_expire hact htold hexpire
  settled before act after id outcome heq htold hexpire b x a call o hb hends hid := by
    obtain ⟨hbefore, hact⟩ := hh.at heq
    exact hbefore.told_of_settled hact htold hexpire
      (hbefore.mem_settled_iff.2 ⟨b, x, a, hb, hends⟩) hid
  unsettled before act after id outcome heq htold := by
    obtain ⟨hbefore, hact⟩ := hh.at heq
    obtain ⟨call, hsettled, hid⟩ | hexpired := hbefore.settled_of_told hact htold
    · obtain ⟨b, x, a, hb, hends⟩ := hbefore.mem_settled_iff.1 hsettled
      exact .inl ⟨b, x, a, call, hb, hends, hid⟩
    · exact .inr hexpired
  discarded before after call outcome heq hcall hcontinuation := by
    subst heq
    exact hh.untold_of_discard hcall hcontinuation outcome
  later before act mid call outcome after heq hact := by
    subst heq
    exact hh.pass_between hact

/-- Nothing is left to tell: every call that was settled, and every one whose time ran out, has been
told so. -/
def Informed (h : List Act) : Prop :=
  (∀ before act after call outcome,
    h = before ++ act :: after → Ends (replay before) act call outcome →
    ∃ o, (call.id, o) ∈ h.filterMap Act.told?) ∧
  ∀ id, .expire id ∈ h → ∃ o, (id, o) ∈ h.filterMap Act.told?

/-- If no continuation is queued and nobody waits for a call whose outcome is known, nothing is left
to tell. -/
theorem Lawful.informed (hh : Lawful h) (hdue : (replay h).due = [])
    (hawaited : ∀ id, Awaited h id → (replay h).calls.outcomes.get? id = none) : Informed h := by
  have hwaited : ∀ id, IsWaited h id → verdict h id ≠ none →
      ∃ o, (id, o) ∈ h.filterMap Act.told? := by
    intro id hid hverdict
    by_contra huntold
    have htake : ∀ outcome, .take id outcome ∉ h :=
      fun outcome hmem => huntold ⟨outcome, mem_told.2 (.inl hmem)⟩
    exact hverdict ((hh.outcomes htake (.inl hid)).symm.trans (hawaited id ⟨hid, htake⟩))
  refine ⟨?_, ?_⟩
  · intro before act after call outcome heq hends
    have hsettled := hh.mem_settled_iff.2 ⟨before, act, after, heq, hends⟩
    cases hcall : call.hasContinuation with
    | true =>
      obtain ⟨ran, hmem, hact⟩ := mem_filterMap.1 (hh.ran_of_settled hdue hsettled hcall)
      cases ran with
      | resume c o =>
        obtain ⟨rfl, rfl⟩ := Prod.mk.inj (Option.some.inj hact)
        exact ⟨o, mem_told.2 (.inr ⟨c, rfl, hmem⟩)⟩
      | _ => cases hact
    | false =>
      have hwaiter : call.addressee = .waiter := (hasContinuation_eq_false_iff call).1 hcall
      have hid : IsWaited h call.id := by
        obtain ⟨x, hx, hgiven⟩ := mem_filterMap.1 (hh.settled_given hsettled)
        obtain ⟨b, a, -, hpossible⟩ := hh.possible_of_mem hx
        cases x with
        | issue c =>
          obtain rfl := Option.some.inj hgiven
          exact ⟨c, hx, rfl, hwaiter⟩
        | refuse c =>
          obtain rfl := Option.some.inj hgiven
          exact Bool.noConfusion (hcall.symm.trans hpossible.2)
        | _ => cases hgiven
      refine hwaited call.id hid ?_
      by_cases hexpire : .expire call.id ∈ h
      · rw [verdict_of_expire hexpire]
        nofun
      · rw [hh.verdict_of_settled hsettled hexpire]
        nofun
  · intro id hexpire
    refine hwaited id (hh.isWaited_of_expire hexpire) ?_
    rw [verdict_of_expire hexpire]
    nofun

/-! ## Who is waited for can be seen -/

theorem Lawful.awaited_of_pending (hh : Lawful h) (hpending : call ∈ (replay h).calls.pending)
    (hwaiter : call.addressee = .waiter) : Awaited h call.id :=
  ⟨⟨call, hh.issued_of_pending hpending, rfl, hwaiter⟩, fun _ htaken =>
    hh.untold_of_pending hpending (mem_told.2 (.inl htaken))⟩

theorem Lawful.awaited_of_outcome (hh : Lawful h)
    (houtcome : (replay h).calls.outcomes.get? id = some outcome) : Awaited h id := by
  induction hh generalizing outcome with
  | nil => cases houtcome
  | @snoc h act hh hact ih =>
    rw [replay_snoc] at houtcome
    have htake : ∀ outcome, act ≠ .take id outcome := by
      rintro taken rfl
      have herased : ((replay h).after (.take id taken)).calls.outcomes.get? id = none := by
        have hself : ((replay h).calls.outcomes.erase id).get? id = none := by
          rw [Table.get?_erase, if_pos rfl]
        cases taken <;> exact hself
      rw [herased] at houtcome
      cases houtcome
    refine Awaited.snoc ?_ htake
    rw [outcomes_after htake] at houtcome
    split at houtcome
    · next hexpires =>
      cases act with
      | expire j =>
        obtain rfl := of_decide_eq_true hexpires
        exact hact
      | _ => cases hexpires
    · rcases Option.or_eq_some_iff.1 houtcome with hknown | ⟨-, hsettled⟩
      · exact ih hknown
      · obtain ⟨p, hfind, -⟩ := Option.map_eq_some_iff.1 hsettled
        have hp := List.find?_some hfind
        simp only [decide_eq_true_eq] at hp
        obtain ⟨rfl, hcontinuation⟩ := hp
        rcases (ends_of_mem_settledBy (mem_of_find?_eq_some hfind)).pending_or_refuse with
          hpending | rfl
        · exact hh.awaited_of_pending hpending ((hasContinuation_eq_false_iff p.1).1 hcontinuation)
        · exact Bool.noConfusion (hcontinuation.symm.trans hact.2)

/-- One with a waiter is settled when it is discarded. -/
theorem Lawful.waited_or_settledBy (hh : Lawful h) (hpending : call ∈ (replay h).calls.pending)
    (hwaiter : call.addressee = .waiter) (htake : ∀ outcome, act ≠ .take call.id outcome) :
    call ∈ ((replay h).after act).calls.pending ∨
      ∃ outcome, (call, outcome) ∈ (replay h).settledBy act := by
  by_cases hdiscard : act = .discard
  · subst hdiscard
    exact .inr ⟨_, mem_settledBy_of_ends hh.pending_inj (.discard hpending hwaiter)⟩
  · exact pending_or_settledBy hh.pending_inj hdiscard htake hpending

/-- A call that is waited for is pending, or its outcome is known. -/
theorem Lawful.awaited_iff (hh : Lawful h) : Awaited h id ↔
    (∃ outcome, (replay h).calls.outcomes.get? id = some outcome) ∨
      ∃ call ∈ (replay h).calls.pending, call.id = id ∧ call.addressee = .waiter := by
  constructor
  · intro hawaited
    induction hh with
    | nil => cases not_mem_nil hawaited.1.choose_spec.1
    | @snoc h act hh hact ih =>
      have htake : ∀ outcome, act ≠ .take id outcome := by
        rintro outcome rfl
        exact hawaited.2 outcome mem_concat_self
      rw [replay_snoc, outcomes_after htake]
      rcases hawaited.of_snoc with hbefore | ⟨call, rfl, hid, hwaiter⟩
      · rcases ih hbefore with ⟨outcome, hknown⟩ | ⟨call, hpending, rfl, hwaiter⟩
        · left
          rw [hknown]
          split
          · exact ⟨_, rfl⟩
          · exact ⟨outcome, rfl⟩
        · rcases hh.waited_or_settledBy hpending hwaiter htake with hstill | ⟨outcome, hsettled⟩
          · exact .inr ⟨call, hstill, rfl, hwaiter⟩
          · left
            have hcontinuation := (hasContinuation_eq_false_iff call).2 hwaiter
            have hfound : (((replay h).settledBy act).find? fun p =>
                p.1.id = call.id ∧ p.1.hasContinuation = false).isSome = true :=
              List.find?_isSome.2 ⟨_, hsettled, decide_eq_true ⟨rfl, hcontinuation⟩⟩
            split
            · exact ⟨_, rfl⟩
            · exact Option.isSome_iff_exists.1
                (by rw [Option.isSome_or, Option.isSome_map, hfound, Bool.or_true])
      · right
        rw [pending_issue hact]
        exact ⟨call, mem_concat_self, hid, hwaiter⟩
  · rintro (⟨outcome, houtcome⟩ | ⟨call, hpending, rfl, hwaiter⟩)
    · exact hh.awaited_of_outcome houtcome
    · exact hh.awaited_of_pending hpending hwaiter

/-- A call with a continuation is pending until it is settled or discarded. -/
theorem Lawful.pending_or_settled_or_discarded (hh : Lawful h) (hissue : .issue call ∈ h)
    (hcontinuation : call.hasContinuation = true) :
    call ∈ (replay h).calls.pending ∨ (∃ outcome, (call, outcome) ∈ settled h) ∨
      ∃ before after, h = before ++ .discard :: after ∧ call ∈ (replay before).calls.pending := by
  induction hh with
  | nil => cases hissue
  | @snoc h act hh hact ih =>
    rw [replay_snoc, settled_snoc]
    rcases mem_append.1 hissue with hissue | hissue
    · rcases ih hissue with hpending | ⟨outcome, hsettled⟩ | ⟨before, after, rfl, hpending⟩
      · by_cases hdiscard : act = .discard
        · exact .inr (.inr ⟨h, [], hdiscard ▸ rfl, hpending⟩)
        · have htake : ∀ outcome, act ≠ .take call.id outcome := by
            rintro outcome rfl
            exact hh.not_hasContinuation hact.1.1 (hh.pending_given hpending) rfl hcontinuation
          rcases pending_or_settledBy hh.pending_inj hdiscard htake hpending with
            hstill | ⟨outcome, hsettled⟩
          · exact .inl hstill
          · exact .inr (.inl ⟨outcome, mem_append_right _ hsettled⟩)
      · exact .inr (.inl ⟨outcome, mem_append_left _ hsettled⟩)
      · exact .inr (.inr ⟨before, after ++ [act], by simp, hpending⟩)
    · obtain rfl := mem_singleton.1 hissue
      rw [pending_issue hact]
      exact .inl mem_concat_self

/-! ## Calls that have come to an end -/

/-- Every call has come to its end: whoever waited for one has been told, and every continuation has
run just once, but for those that were discarded. -/
structure Concluded (h : List Act) : Prop where
  waiters : ∀ id, ¬ Awaited h id
  continuations : ∀ call, .issue call ∈ h → call.hasContinuation = true →
    (∃ outcome, (h.filterMap Act.ran?).filter (fun p => p.1.id = call.id) = [(call, outcome)]) ∨
      ∃ before after, h = before ++ .discard :: after ∧ call ∈ (replay before).calls.pending

/-- Of pairs with different numbers just one has a given number. -/
theorem filter_eq_singleton_of_nodup {l : List (Call × Outcome)}
    (hl : (l.map fun p => p.1.id).Nodup) (hp : p ∈ l) :
    l.filter (fun q => q.1.id = p.1.id) = [p] := by
  induction l with
  | nil => cases hp
  | cons q l ih =>
    rw [map_cons, nodup_cons] at hl
    rcases mem_cons.1 hp with rfl | hp
    · rw [filter_cons_of_pos (by simp), filter_eq_nil_iff.2]
      intro q hq hid
      exact hl.1 (mem_map.2 ⟨q, hq, by simpa using hid⟩)
    · rw [filter_cons_of_neg, ih hl.2 hp]
      intro hid
      exact hl.1 (mem_map.2 ⟨p, hp, by simpa using (of_decide_eq_true hid).symm⟩)

/-- Where nothing is pending and nothing is left to tell, every call has come to its end. -/
theorem Lawful.concluded (hh : Lawful h) (hpending : (replay h).calls.pending = [])
    (hdue : (replay h).due = [])
    (hawaited : ∀ id, Awaited h id → (replay h).calls.outcomes.get? id = none) : Concluded h := by
  refine ⟨fun id hid => ?_, fun call hissue hcontinuation => ?_⟩
  · rcases hh.awaited_iff.1 hid with ⟨outcome, hknown⟩ | ⟨call, hcall, -⟩
    · rw [hawaited id hid] at hknown
      cases hknown
    · rw [hpending] at hcall
      cases hcall
  · rcases hh.pending_or_settled_or_discarded hissue hcontinuation with
      hcall | ⟨outcome, hsettled⟩ | hdiscarded
    · rw [hpending] at hcall
      cases hcall
    · have hids : ((h.filterMap Act.ran?).map fun p => p.1.id).Nodup := by
        have hnodup := (nodup_append.1 hh.nodup_settled_pending).1
        have hsublist : (h.filterMap Act.ran?).Sublist (settled h) :=
          (sublist_append_left _ (replay h).due).trans (hh.queue ▸ filter_sublist)
        exact hnodup.sublist (hsublist.map fun p => p.1.id)
      exact .inl ⟨outcome, filter_eq_singleton_of_nodup hids
        (hh.ran_of_settled hdue hsettled hcontinuation)⟩
    · exact .inr hdiscarded

end IdeMode
