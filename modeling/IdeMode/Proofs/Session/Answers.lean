import IdeMode.Proofs.Session.Log
set_option autoImplicit false

/-!
# What a log says of calls

A log that is valid and whose acts are lawful tells which call was answered, what for, and what
happened since.
-/

namespace IdeMode

open Account List

/-- A log that obeys the rules, for its notes and for its acts. -/
structure Faithful (ℓ : List Note) : Prop where
  valid : Valid ℓ
  lawful : Lawful (acts ℓ)

variable {ℓ notes : List Note} {x : Note} {call : Call} {purpose : Purpose}

theorem Faithful.initial (h : Faithful (ℓ ++ notes)) : Faithful ℓ :=
  ⟨Throughout.initial h.valid, (acts_append ℓ notes ▸ h.lawful).initial⟩

theorem Faithful.fits (h : Faithful (ℓ ++ [x])) : x.Fits ℓ := (throughout_snoc.1 h.valid).2.2

theorem Faithful.follows (h : Faithful (ℓ ++ [x])) : x.Follows ℓ := (throughout_snoc.1 h.valid).2.1

theorem Faithful.possible {a : Act} (h : Faithful (ℓ ++ [x])) (hx : x.act? = some a) :
    a.Possible (acts ℓ) := by
  have hlawful := h.lawful
  rw [acts_snoc_of_some hx] at hlawful
  exact (hlawful.at rfl).2

/-! ## Since -/

/-- Something of the kind `P` was noted, and nothing of the kind `Q` since. -/
def Since (P Q : List Note → Note → Prop) (ℓ : List Note) : Prop :=
  ∃ before x after, ℓ = before ++ x :: after ∧ P before x ∧
    ∀ mid y rest, after = mid ++ y :: rest → ¬ Q (before ++ x :: mid) y

theorem since_nil (P Q : List Note → Note → Prop) : ¬ Since P Q [] := by
  rintro ⟨before, x, after, heq, -⟩
  simp at heq

/-- A log is looked at from its end. -/
theorem since_snoc {P Q : List Note → Note → Prop} {y : Note} :
    Since P Q (ℓ ++ [y]) ↔ P ℓ y ∨ Since P Q ℓ ∧ ¬ Q ℓ y := by
  constructor
  · rintro ⟨before, x, after, heq, hP, hQ⟩
    rcases snoc_eq_append_cons.1 heq with ⟨rfl, rfl, rfl⟩ | ⟨after', rfl, rfl⟩
    · exact .inl hP
    · refine .inr ⟨⟨before, x, after', rfl, hP, fun mid z rest hmid => ?_⟩, hQ after' y [] rfl⟩
      exact hQ mid z (rest ++ [y]) (by simp [hmid])
  · rintro (hP | ⟨⟨before, x, after, rfl, hP, hQ⟩, hy⟩)
    · exact ⟨ℓ, y, [], rfl, hP, by simp⟩
    · refine ⟨before, x, after ++ [y], by simp, hP, fun mid z rest heq => ?_⟩
      rcases snoc_eq_append_cons.1 heq with ⟨rfl, rfl, rfl⟩ | ⟨rest', rfl, rfl⟩
      · exact hy
      · exact hQ mid z rest' rfl

theorem Since.snoc {P Q : List Note → Note → Prop} {y : Note} (h : Since P Q ℓ) (hy : ¬ Q ℓ y) :
    Since P Q (ℓ ++ [y]) := since_snoc.2 (.inr ⟨h, hy⟩)

/-! ## Issued calls -/

theorem mem_acts_issue (h : Valid ℓ) :
    .issue call ∈ acts ℓ ↔ ∃ request purpose, .issue request call purpose ∈ ℓ := by
  rw [mem_acts]
  constructor
  · rintro ⟨y, hy, hact⟩
    cases y with
    | issue request issued purpose =>
      cases hact
      exact ⟨request, purpose, hy⟩
    | act a =>
      cases hact
      obtain ⟨before, after, rfl⟩ := append_of_mem hy
      exact absurd rfl ((h before _ after rfl).2.1 call)
    | _ => cases hact
  · rintro ⟨request, purpose, hmem⟩
    exact ⟨_, hmem, rfl⟩

theorem mem_given_of_issue {request : SessionRequest} (h : .issue request call purpose ∈ ℓ) :
    call ∈ given (acts ℓ) :=
  mem_given (mem_acts.2 ⟨_, h, rfl⟩) rfl

/-! ## Answers -/

/-- A reply to a call that is pending. -/
def Replies (call : Call) (ok : Bool) (before : List Note) (x : Note) : Prop :=
  ∃ payload, x = .act (.reply (some (Int.ofNat call.id)) ok payload) ∧
    call ∈ (replay (acts before)).calls.pending

/-- A call was answered well. -/
def Answered (ℓ : List Note) (call : Call) : Prop :=
  ∃ before x after, ℓ = before ++ x :: after ∧ Replies call true before x

theorem Answered.append (h : Answered ℓ call) (notes : List Note) : Answered (ℓ ++ notes) call := by
  obtain ⟨before, x, after, rfl, hreply⟩ := h
  exact ⟨before, x, after ++ notes, by simp, hreply⟩

/-- Where an act stands among the acts, its note stands in the log. -/
theorem split_of_acts {before after : List Act} {a : Act} (h : acts ℓ = before ++ a :: after) :
    ∃ ℓ₁ y ℓ₂, ℓ = ℓ₁ ++ y :: ℓ₂ ∧ y.act? = some a ∧ acts ℓ₁ = before := by
  obtain ⟨first, rest, rfl, rfl, hrest⟩ := filterMap_eq_append_iff.1 h
  obtain ⟨skipped, y, rest', rfl, hskipped, hy, -⟩ := filterMap_eq_cons_iff.1 hrest
  refine ⟨first ++ skipped, y, rest', by simp, hy, ?_⟩
  unfold acts
  rw [filterMap_append, filterMap_eq_nil_iff.2 hskipped, append_nil]

variable {r : Response}

/-- A call was answered if that is what settled it. -/
theorem Faithful.answered_of_settled (h : Faithful ℓ)
    (hsettled : (call, .answered r) ∈ settled (acts ℓ)) : Answered ℓ call := by
  obtain ⟨before, act, after, heq, hends⟩ := h.lawful.mem_settled_iff.1 hsettled
  obtain ⟨ℓ₁, y, ℓ₂, rfl, hy, rfl⟩ := split_of_acts heq
  generalize houtcome : Outcome.answered r = outcome at hends
  cases hends with
  | reply ok payload hpending =>
    cases ok with
    | true =>
      refine ⟨ℓ₁, y, ℓ₂, rfl, payload, ?_, hpending⟩
      cases y with
      | act a => exact congrArg Note.act (Option.some.inj hy)
      | _ => cases hy
    | false => cases houtcome
  | outage o hpending => cases houtcome
  | discard hpending hcall => cases houtcome
  | refuse => cases houtcome

/-- An operation is told of an answer only if there was one. -/
theorem Faithful.answered_of_take (h : Faithful (ℓ ++ [.take call purpose (.answered r)])) :
    Answered ℓ call := by
  obtain ⟨⟨request, hissued⟩, -⟩ := h.fits
  have hbefore := h.initial
  obtain ⟨settled, hsettled, hid⟩ := hbefore.lawful.settled_of_take (h.possible rfl) nofun
  have hsame := hbefore.lawful.given_inj (hbefore.lawful.settled_given hsettled)
    (mem_given_of_issue hissued) hid
  obtain rfl : settled = call := hsame
  exact hbefore.answered_of_settled hsettled

theorem Faithful.answered_of_resume (h : Faithful (ℓ ++ [.act (.resume call (.answered r))])) :
    Answered ℓ call := by
  have hbefore := h.initial
  exact hbefore.answered_of_settled (hbefore.lawful.due_settled (h.possible rfl)).1

theorem Answered.issued (h : Answered ℓ call) (hfaithful : Faithful ℓ) :
    ∃ request purpose, .issue request call purpose ∈ ℓ := by
  obtain ⟨before, x, after, rfl, payload, -, hpending⟩ := h
  have hissue := hfaithful.initial.lawful.issued_of_pending hpending
  obtain ⟨request, purpose, hmem⟩ := (mem_acts_issue hfaithful.initial.valid).1 hissue
  exact ⟨request, purpose, mem_append_left _ hmem⟩

/-- A call whose outcome a continuation is told of that loads a document was issued to load it. -/
theorem purpose_of_addressee {request : SessionRequest} {label : String} {d generation : Nat}
    (hsuits : purpose.Suits ℓ request call)
    (haddressee : call.addressee = .load label d generation) : purpose = .load d generation := by
  cases purpose with
  | plain => exact absurd haddressee (hsuits.2 label d generation)
  | move p => rw [hsuits.2] at haddressee; cases haddressee
  | load d' generation' =>
    obtain ⟨-, -, -, -, -, -, -, hwaiter | ⟨label', hload⟩⟩ := hsuits
    · rw [hwaiter] at haddressee; cases haddressee
    · rw [hload] at haddressee; cases haddressee; rfl
  | ask d' => rw [hsuits.2.1] at haddressee; cases haddressee

/-- A load is recorded right after its operation is told of the answer. -/
theorem Faithful.told_of_record {d generation : Nat} (h : Faithful (ℓ ++ [.record d generation])) :
    ∃ told y request call r, ℓ = told ++ [y] ∧ .issue request call (.load d generation) ∈ told ∧
      Answered told call ∧ (y = .take call (.load d generation) (.answered r) ∨
        y = .act (.resume call (.answered r)) ∧
          ∃ label, call.addressee = .load label d generation) := by
  rcases h.fits with ⟨told, call, r, rfl⟩ | ⟨told, call, r, label, rfl, haddressee⟩
  · obtain ⟨⟨request, hissued⟩, -⟩ := h.initial.fits
    exact ⟨told, _, request, call, r, rfl, hissued, h.initial.answered_of_take, .inl rfl⟩
  · have hanswered := h.initial.answered_of_resume
    obtain ⟨request, purpose, hissued⟩ := hanswered.issued h.initial.initial
    obtain ⟨first, rest, rfl⟩ := append_of_mem hissued
    have hsuits := (h.initial.initial.valid first _ rest rfl).2
    obtain rfl := purpose_of_addressee hsuits haddressee
    exact ⟨_, _, request, call, r, rfl, hissued, hanswered, .inr ⟨rfl, label, haddressee⟩⟩

end IdeMode
