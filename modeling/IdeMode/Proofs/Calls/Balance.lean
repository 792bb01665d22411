import Mathlib.Data.List.Induction
import IdeMode.Proofs.Calls.History
set_option autoImplicit false

/-!
# The balance of calls

A dispatcher counts the calls that were issued and those that were answered well. Those that are
neither answered well nor pending came to another end. Their number never goes down, so that it
tells, at the end of a history, whether anything went wrong in it.
-/

namespace IdeMode

open Account

namespace Dispatch

/-- How many of the issued calls are neither pending nor were answered well. -/
def deficit (d : Dispatch) : Int := d.stats.issued - d.stats.completed - d.pending.length

variable {d : Dispatch} {call : Call}

theorem length_remove_lt (h : call ∈ d.pending) :
    (d.remove call.id).pending.length < d.pending.length :=
  List.length_filter_lt_length_iff_exists.2 ⟨call, h, by simp⟩

theorem deficit_issue (d : Dispatch) (command : Command) (addressee : Addressee) :
    (d.issue command addressee).2.deficit = d.deficit := by
  simp [deficit, issue]
  omega

/-- A reply to a pending call settles it; if it is not a good one, the deficit grows. -/
theorem deficit_settleReply (d : Dispatch) (id : Option Int) (ok : Bool) (payload : List Value) :
    d.deficit ≤ (d.settleReply id ok payload).2.deficit ∧
      (ok = false → ∀ call, d.find? id = some call →
        d.deficit < (d.settleReply id ok payload).2.deficit) := by
  unfold settleReply
  cases hfind : d.find? id with
  | none => exact ⟨Int.le_refl _, nofun⟩
  | some found =>
    have hlt := length_remove_lt (find?_eq_some hfind).1
    cases ok with
    | true =>
      refine ⟨?_, nofun⟩
      simp only [deficit, if_true]
      omega
    | false =>
      have hgrows : d.deficit <
          (d.stats.issued : Int) - d.stats.completed - (d.remove found.id).pending.length := by
        unfold deficit
        omega
      exact ⟨Int.le_of_lt hgrows, fun _ _ _ => hgrows⟩

theorem deficit_of_pending_nil {d' : Dispatch} (hstats : d'.stats.issued = d.stats.issued)
    (hcompleted : d'.stats.completed = d.stats.completed) (hpending : d'.pending = []) :
    d'.deficit = d.deficit + d.pending.length := by
  simp only [deficit, hstats, hcompleted, hpending, List.length_nil]
  omega

theorem deficit_remove (d : Dispatch) (id : Nat) :
    (d.remove id).deficit = d.deficit + (d.pending.length - (d.remove id).pending.length) := by
  simp only [deficit, remove]
  omega

end Dispatch

open Dispatch

variable (a : Account)

theorem stats_deliverAll (l : List (Call × Outcome)) :
    (a.deliverAll l).calls.stats = a.calls.stats := by
  induction l generalizing a with
  | nil => rfl
  | cons p l ih =>
    have hdeliver : (a.deliver p.1 p.2).calls.stats = a.calls.stats := by
      unfold deliver
      cases p.1.addressee with
      | waiter =>
        dsimp only
        split <;> rfl
      | continuation label => rfl
      | load label d generation => rfl
    exact (ih (a.deliver p.1 p.2)).trans hdeliver

theorem deficit_after (act : Act) : (a.after act).calls.deficit = (a.change act).calls.deficit := by
  unfold deficit after
  rw [stats_deliverAll, (deliverAll_keeps _ _).2.1]

theorem pending_discard : (a.after .discard).calls.pending = [] := (deliverAll_keeps _ _).2.1

theorem pending_outage (o : Outage) : (a.after (.outage o)).calls.pending = [] :=
  (deliverAll_keeps _ _).2.1

/-- What went wrong is not made good. -/
theorem deficit_le_after (act : Act) : a.calls.deficit ≤ (a.after act).calls.deficit := by
  rw [deficit_after]
  cases act with
  | issue call => exact Int.le_of_eq (deficit_issue a.calls call.command call.addressee).symm
  | reply id ok payload => exact (deficit_settleReply a.calls id ok payload).1
  | outage o =>
    have heq : (a.calls.settlePending o).2.deficit = _ :=
      deficit_of_pending_nil (d := a.calls) rfl rfl rfl
    show _ ≤ (a.calls.settlePending o).2.deficit
    omega
  | discard =>
    have heq : a.calls.discard.2.deficit = _ := deficit_of_pending_nil (d := a.calls) rfl rfl rfl
    show _ ≤ a.calls.discard.2.deficit
    omega
  | take id outcome =>
    cases outcome with
    | expired =>
      have hle : (a.calls.remove id).pending.length ≤ a.calls.pending.length :=
        List.length_filter_le _ _
      show _ ≤ (a.calls.remove id).deficit
      rw [deficit_remove]
      omega
    | _ => exact Int.le_refl _
  | _ => exact Int.le_refl _

/-- Where the deficit stays the same, a call is pending until it is answered well. -/
theorem pending_of_deficit_eq {a : Account} {act : Act} {call : Call}
    (h : (a.after act).calls.deficit = a.calls.deficit)
    (hcall : call ∈ a.calls.pending) : call ∈ (a.after act).calls.pending ∨
      ∃ payload, act = .reply (some (Int.ofNat call.id)) true payload := by
  have hlength : 0 < a.calls.pending.length := List.length_pos_of_mem hcall
  rw [deficit_after] at h
  unfold after
  rw [(deliverAll_keeps _ _).2.1]
  cases act with
  | issue issued => exact .inl (List.mem_append_left _ hcall)
  | reply id ok payload =>
    obtain ⟨-, hgrows⟩ := deficit_settleReply a.calls id ok payload
    cases hfind : a.calls.find? id with
    | none =>
      have hsame : (a.calls.settleReply id ok payload).2.pending = a.calls.pending := by
        unfold settleReply
        rw [hfind]
      exact .inl (hsame ▸ hcall)
    | some found =>
      cases ok with
      | false => exact absurd h (Int.ne_of_gt (hgrows rfl found hfind))
      | true =>
        by_cases hid : call.id = found.id
        · exact .inr ⟨payload, by rw [hid, ← (find?_eq_some hfind).2]⟩
        · have hkept : (a.calls.settleReply id true payload).2.pending =
              (a.calls.remove found.id).pending := by
            unfold settleReply
            rw [hfind]
          refine .inl ?_
          show call ∈ (a.calls.settleReply id true payload).2.pending
          rw [hkept]
          exact List.mem_filter.2 ⟨hcall, decide_eq_true hid⟩
  | outage o =>
    have heq : (a.calls.settlePending o).2.deficit = _ :=
      deficit_of_pending_nil (d := a.calls) rfl rfl rfl
    change (a.calls.settlePending o).2.deficit = _ at h
    omega
  | discard =>
    have heq : a.calls.discard.2.deficit = _ := deficit_of_pending_nil (d := a.calls) rfl rfl rfl
    change a.calls.discard.2.deficit = _ at h
    omega
  | take id outcome =>
    cases outcome with
    | expired =>
      have hle : (a.calls.remove id).pending.length ≤ a.calls.pending.length :=
        List.length_filter_le _ _
      change (a.calls.remove id).deficit = _ at h
      rw [deficit_remove] at h
      have hall :=
        List.length_filter_eq_length_iff.1 (show (a.calls.remove id).pending.length = _ by omega)
      exact .inl (List.mem_filter.2 ⟨hcall, hall call hcall⟩)
    | _ => exact .inl hcall
  | _ => exact .inl hcall

theorem deficit_replay_le (h more : List Act) :
    (replay h).calls.deficit ≤ (replay (h ++ more)).calls.deficit := by
  induction more using List.reverseRecOn with
  | nil => simp
  | append_singleton more act ih =>
    rw [← List.append_assoc, replay_snoc]
    exact Int.le_trans ih (deficit_le_after _ act)

/-- If nothing has gone wrong by the end, then nothing had before. -/
theorem deficit_eq_zero_of_append {h more : List Act}
    (hzero : (replay (h ++ more)).calls.deficit = 0) : (replay h).calls.deficit = 0 := by
  have hle := deficit_replay_le h more
  have hge := deficit_replay_le [] h
  rw [List.nil_append] at hge
  have hstart : (replay []).calls.deficit = 0 := rfl
  omega

end IdeMode
