import Mathlib.Algebra.GroupWithZero.Nat
import IdeMode.Proofs.Calls.Balance
import IdeMode.Proofs.Calls.Outcomes
set_option autoImplicit false

/-!
# The counters of a dispatcher

Every number that a dispatcher gives out is accounted for: the call is pending, or it was counted
when it left. One call is counted twice, the one whose time ran out after it had been settled and
before its waiter went on.
-/

namespace IdeMode

open Account
open List hiding after

theorem Table.sum_set {κ : Type} [DecidableEq κ] (t : Table κ Nat) (k : κ) (v : Nat) :
    ((t.set k v).map Prod.snd).sum + (t.get? k).getD 0 = (t.map Prod.snd).sum + v := by
  induction t with
  | nil => simp [Table.set]
  | cons e t ih =>
    obtain ⟨j, w⟩ := e
    rw [Table.set, Table.get?_cons]
    split
    · simp
      omega
    · simp
      omega

namespace Account

/-- What acts come to from an account on, if each counts as `f` says. -/
def totalFrom (f : Account → Act → Nat) (a : Account) : List Act → Nat
  | [] => 0
  | act :: h => f a act + totalFrom f (a.after act) h

def total (f : Account → Act → Nat) (h : List Act) : Nat := totalFrom f {} h

theorem total_snoc (f : Account → Act → Nat) (h : List Act) (act : Act) :
    total f (h ++ [act]) = total f h + f (replay h) act := by
  have hfrom : ∀ a, totalFrom f a (h ++ [act]) = totalFrom f a h + f (h.foldl after a) act := by
    induction h with
    | nil => exact fun a => Nat.add_comm _ _
    | cons x h ih =>
      intro a
      rw [cons_append, totalFrom, ih, totalFrom, Nat.add_assoc]
      rfl
  exact hfrom {}

/-- A call is turned down because no process runs. -/
def refused (_ : Account) : Act → Nat
  | .refuse _ => 1
  | _ => 0

/-- Whoever waits for a call is told that its time ran out. -/
def timedOut (_ : Account) : Act → Nat
  | .take _ .expired => 1
  | _ => 0

/-- The same, of a call that is no longer pending. -/
def outlived (a : Account) : Act → Nat
  | .take id .expired => if id ∈ a.calls.pending.map Call.id then 0 else 1
  | _ => 0

/-- Pending calls are dropped. -/
def dropped (a : Account) : Act → Nat
  | .discard => a.calls.pending.length
  | _ => 0

end Account

/-- A call has come to its end: it was settled, or its waiter was told, or it was dropped. -/
def Account.Ended (h : List Act) (id : Nat) : Prop :=
  (∃ p ∈ settled h, p.1.id = id) ∨ (∃ outcome, .take id outcome ∈ h) ∨
    ∃ before after call, h = before ++ .discard :: after ∧
      call ∈ (replay before).calls.pending ∧ call.id = id

/-- The counters of a dispatcher agree with its history. -/
structure Dispatch.Accounted (h : List Act) (d : Dispatch) : Prop where
  calls : d.stats.issued + total refused h + total outlived h =
    d.stats.completed + d.stats.failed + d.pending.length + total timedOut h + total dropped h
  tags : (d.stats.byTag.map Prod.snd).sum = d.stats.issued
  next : d.nextId = 1 + d.stats.issued + total refused h
  /-- a number is that of one pending call -/
  distinct : (d.pending.map Call.id).Nodup
  known : ∀ call ∈ d.pending, call.id < d.nextId
  unfinished : ∀ call ∈ d.pending, ¬ Ended h call.id

theorem Dispatch.length_remove {d : Dispatch} (hd : (d.pending.map Call.id).Nodup) (id : Nat) :
    (d.remove id).pending.length + (if id ∈ d.pending.map Call.id then 1 else 0) =
      d.pending.length := by
  have hcount : (d.pending.map Call.id).count id = if id ∈ d.pending.map Call.id then 1 else 0 :=
    hd.count
  have hsplit := d.pending.length_eq_countP_add_countP fun c => c.id == id
  rw [← hcount, List.count, countP_map, remove, ← countP_eq_length_filter, hsplit, Nat.add_comm]
  congr 1
  exact countP_congr fun c _ => by simp

/-- What one act does to the counters. -/
theorem counters_after {a : Account} (hpending : (a.calls.pending.map Call.id).Nodup) (act : Act) :
    (a.after act).calls.stats.issued + refused a act + outlived a act +
        (a.calls.stats.completed + a.calls.stats.failed + a.calls.pending.length) =
      (a.after act).calls.stats.completed + (a.after act).calls.stats.failed +
        (a.after act).calls.pending.length + timedOut a act + dropped a act + a.calls.stats.issued ∧
    ((a.after act).calls.stats.byTag.map Prod.snd).sum + a.calls.stats.issued =
      (a.calls.stats.byTag.map Prod.snd).sum + (a.after act).calls.stats.issued ∧
    (a.after act).calls.nextId + a.calls.stats.issued =
      a.calls.nextId + (a.after act).calls.stats.issued + refused a act := by
  unfold after
  rw [stats_deliverAll, (deliverAll_keeps _ _).2.1, (deliverAll_keeps _ _).1]
  cases act with
  | issue call =>
    have htags :=
      Table.sum_set a.calls.stats.byTag call.command.tag
        ((a.calls.stats.byTag.get? call.command.tag).getD 0 + 1)
    simp [change, Dispatch.issue, Dispatch.calls, refused, outlived, timedOut, dropped] at htags ⊢
    omega
  | reply id ok payload =>
    simp only [change, Dispatch.settleReply, refused, outlived, timedOut, dropped]
    cases hfind : a.calls.find? id with
    | none => exact ⟨by dsimp only; omega, rfl, rfl⟩
    | some call =>
      have hremove := Dispatch.length_remove hpending call.id
      rw [if_pos (mem_map_of_mem (find?_eq_some hfind).1)] at hremove
      cases ok with
      | false => exact ⟨by simp only [Bool.false_eq_true, if_false]; omega, rfl, rfl⟩
      | true => exact ⟨by simp only [if_true]; omega, rfl, rfl⟩
  | take id outcome =>
    cases outcome with
    | expired =>
      have hremove := Dispatch.length_remove hpending id
      refine ⟨?_, rfl, rfl⟩
      simp only [change, refused, outlived, timedOut, dropped, Dispatch.remove] at hremove ⊢
      split at hremove
      · next hmem =>
        rw [if_pos hmem]
        omega
      · next hmem =>
        rw [if_neg hmem]
        omega
    | _ => exact ⟨by simp only [change, refused, outlived, timedOut, dropped]; omega, rfl, rfl⟩
  | refuse call =>
    simp only [change, Dispatch.refuse, refused, outlived, timedOut, dropped]
    exact ⟨by omega, trivial, by omega⟩
  | _ =>
    refine ⟨?_, rfl, rfl⟩
    simp only [change, Dispatch.settlePending, Dispatch.discard, refused, outlived, timedOut,
      dropped, length_nil]
    omega

variable {h : List Act}

/-- A pending call has not come to its end. -/
theorem Lawful.not_finished (hh : Lawful h) {call : Call}
    (hcall : call ∈ (replay h).calls.pending) : ¬ Ended h call.id := by
  rintro (⟨p, hp, hid⟩ | ⟨outcome, htake⟩ | ⟨before, after, d, rfl, hd, hid⟩)
  · exact hh.not_pending_of_settled hp hcall hid
  · exact hh.untold_of_pending hcall (mem_filterMap.2 ⟨_, htake, rfl⟩)
  · have hbefore := (hh.at rfl).1
    have hlt : call.id < (replay (before ++ [.discard])).calls.nextId := by
      rw [replay_snoc, nextId_after, ← hid]
      exact hbefore.numbers.2 d (hbefore.pending_given hd)
    rw [append_cons] at hh hcall
    refine (hh.stays_gone hlt ?_).2 call hcall rfl
    rw [replay_snoc, pending_discard]
    nofun

theorem Lawful.nodup_pending (hh : Lawful h) : ((replay h).calls.pending.map Call.id).Nodup :=
  (nodup_append.1 hh.nodup_settled_pending).2.1

/-- The counters agree with every history. -/
theorem Lawful.accounted (hh : Lawful h) : (replay h).calls.Accounted h := by
  refine ⟨?_, ?_, ?_, hh.nodup_pending,
    fun call hcall => hh.numbers.2 call (hh.pending_given hcall), fun call => hh.not_finished⟩
  all_goals induction hh with
  | nil => rfl
  | @snoc h act hh hact ih =>
    obtain ⟨hcalls, htags, hnext⟩ := counters_after hh.nodup_pending act
    simp only [replay_snoc, total_snoc]
    omega

/-- **Every call is accounted for.** After every move of a run the counters of a session agree with
what was done to its calls: with `R` the calls that were turned down, `T` those that timed out, `D`
those that were dropped, and `X` those of the `T` that were no longer pending by then, `issued + R +
X = completed + failed + pending + T + D`. The counts by tag add up to `issued`, the next number is
`1 + issued + R`, and a number is pending for one unfinished call. -/
theorem every_call_accounted_for {s : Nat} {m : Machine} (hm : m.Fresh s) (moves : List Move) :
    ∃ acts, Chronicle s m moves acts ∧ Lawful (history acts) ∧
      (∀ w : World, s < w.sessions.length → Enacts s w) ∧
      ∀ n ≤ moves.length, ((m.follow (moves.take n)).world.session s).dispatch.Accounted
        (history (acts.take n)) := by
  obtain ⟨acts, hchronicle, hsound⟩ := hm.chronicle moves
  refine ⟨acts, hchronicle, hsound.lawful, fun w hs => enacts hs, fun n hn => ?_⟩
  have hlawful : Lawful (history (acts.take n) ++ history (acts.drop n)) := by
    rw [history, history, ← flatMap_append, take_append_drop]
    exact hsound.lawful
  obtain ⟨hcalls, htags, hnext, hdistinct, hknown, hunfinished⟩ := hlawful.initial.accounted
  rw [← hchronicle.account_eq n hn] at hcalls htags hnext hdistinct hknown hunfinished
  exact ⟨hcalls, htags, hnext, hdistinct, hknown, hunfinished⟩

/-- A call that is turned down counts as failed and takes a number. -/
theorem every_call_accounted_for_refused : idleMachine.Fresh 0 ∧ ∃ acts,
    Chronicle 0 idleMachine [.launch 0 (.session 0 (.post "load" ⟨"version", []⟩)),
      .turn, .turn] acts ∧ total refused (history acts) = 1 := by
  have hfresh : idleMachine.Fresh 0 := ⟨Nat.one_pos, rfl, rfl, rfl⟩
  obtain ⟨acts, hchronicle, -, -, haccounted⟩ := every_call_accounted_for hfresh
    [.launch 0 (.session 0 (.post "load" ⟨"version", []⟩)), .turn, .turn]
  have hnext := (haccounted 3 (Nat.le_refl 3)).next
  have hall : acts.take 3 = acts := take_of_length_le (Nat.le_of_eq hchronicle.length_eq)
  rw [hall] at hnext
  change 2 = 1 + 0 + _ at hnext
  exact ⟨hfresh, acts, hchronicle, by omega⟩

end IdeMode
