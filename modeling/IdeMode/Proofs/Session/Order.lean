import IdeMode.Proofs.Session.Answers
set_option autoImplicit false

/-!
# The order of writing

Calls are taken up for writing in the order in which they were issued, and so they are written in
that order.
-/

namespace IdeMode

open Account Session List

namespace Note

/-- The call that is issued. -/
def issued? : Note → Option Call
  | .issue _ call _ => some call
  | _ => none

/-- The call that is taken up for writing. -/
def picked? : Note → Option Call
  | .pick call => some call
  | _ => none

/-- The call that is written. -/
def written? : Note → Option Call
  | .write _ call => some call
  | _ => none

/-- What a note does to the calls that are to be written. -/
def queue : Note → List Call → List Call
  | .issue _ call _, outbox => outbox ++ [call]
  | .pick _, outbox => outbox.tail
  | .act .discard, _ => []
  | _, outbox => outbox

end Note

variable {ℓ : List Note} {x : Note} {call : Call}

/-! ## What is to be written -/

theorem outbox_snoc (ℓ : List Note) (x : Note) :
    (recount (ℓ ++ [x])).dispatch.outbox = x.queue (recount ℓ).dispatch.outbox := by
  have hlink := link_effect (recount ℓ) x
  rw [recount_snoc]
  cases x with
  | act a => cases a <;> rfl
  | record d generation => exact congrArg (·.2.1.outbox) (hlink (by simp))
  | change p => exact congrArg (·.2.1.outbox) (hlink (by simp))
  | adopt d b => exact congrArg (·.2.1.outbox) (hlink (by simp))
  | reread d b => exact congrArg (·.2.1.outbox) (hlink (by simp))
  | _ => rfl

theorem filterMap_snoc {α : Type} (f : Note → Option α) (ℓ : List Note) (x : Note) :
    (ℓ ++ [x]).filterMap f = ℓ.filterMap f ++ (f x).toList := by
  rw [filterMap_append]
  cases hx : f x <;> simp [hx]

/-- Unless a note discards what is to be written, the calls that were taken up and those that are
still to be written grow by what is issued. -/
theorem queue_snoc (hfits : x.Fits ℓ) (hkept : x ≠ .act .discard) :
    (ℓ ++ [x]).filterMap Note.picked? ++ (recount (ℓ ++ [x])).dispatch.outbox =
      ℓ.filterMap Note.picked? ++ (recount ℓ).dispatch.outbox ++ x.issued?.toList := by
  rw [filterMap_snoc, outbox_snoc]
  cases x with
  | issue request issued purpose =>
    show _ ++ [] ++ (_ ++ [issued]) = _ ++ _ ++ [issued]
    rw [append_nil, append_assoc]
  | pick taken =>
    obtain ⟨rest, hrest⟩ := List.head?_eq_some_iff.1 hfits.1
    show _ ++ [taken] ++ (recount ℓ).dispatch.outbox.tail = _ ++ _ ++ []
    rw [append_nil, hrest, tail_cons, append_assoc, singleton_append]
  | act a =>
    cases a with
    | discard => exact absurd rfl hkept
    | _ => exact congrArg (· ++ _) (append_nil _) |>.trans (append_nil _).symm
  | _ => exact congrArg (· ++ _) (append_nil _) |>.trans (append_nil _).symm

/-- The calls that were taken up and those that are still to be written were issued, in this
order. -/
theorem Valid.queued (h : Valid ℓ) :
    (ℓ.filterMap Note.picked? ++ (recount ℓ).dispatch.outbox).Sublist
      (ℓ.filterMap Note.issued?) := by
  induction ℓ using List.reverseRecOn with
  | nil => exact .slnil
  | append_singleton ℓ x ih =>
    obtain ⟨hvalid, -, hfits⟩ := throughout_snoc.1 h
    have hqueued := ih hvalid
    by_cases hdiscard : x = .act .discard
    · subst hdiscard
      rw [filterMap_snoc, filterMap_snoc, outbox_snoc]
      show List.Sublist (_ ++ [] ++ []) (_ ++ [])
      rw [append_nil, append_nil, append_nil]
      exact (sublist_append_left _ _).trans hqueued
    · rw [queue_snoc hfits hdiscard, filterMap_snoc]
      exact hqueued.append (.refl _)

/-- A call is written when it was just taken up. -/
theorem Valid.written_sublist (h : Valid ℓ) :
    (ℓ.filterMap Note.written?).Sublist (ℓ.filterMap Note.picked?) := by
  induction hlength : ℓ.length using Nat.strongRecOn generalizing ℓ with
  | _ n ih =>
    subst hlength
    rcases eq_nil_or_concat ℓ with rfl | ⟨before, x, rfl⟩
    · exact .slnil
    · rw [concat_eq_append] at h ih ⊢
      obtain ⟨hvalid, -, hfits⟩ := throughout_snoc.1 h
      have hbefore := ih before.length (by simp) hvalid rfl
      rw [filterMap_snoc, filterMap_snoc]
      cases x with
      | write c written =>
        obtain ⟨⟨first, rfl⟩, -⟩ := hfits.1
        have hfirst := ih first.length (by simp) hvalid.initial rfl
        rw [filterMap_snoc, filterMap_snoc]
        show List.Sublist (_ ++ [] ++ [written]) (_ ++ [written] ++ [])
        rw [append_nil, append_nil]
        exact hfirst.append (.refl _)
      | pick taken =>
        show List.Sublist (_ ++ []) (_ ++ [taken])
        rw [append_nil]
        exact hbefore.trans (sublist_append_left _ _)
      | _ =>
        show List.Sublist (_ ++ []) (_ ++ [])
        rw [append_nil, append_nil]
        exact hbefore

/-! ## Numbers -/

theorem Faithful.sorted_issued (h : Faithful ℓ) :
    (ℓ.filterMap Note.issued?).Pairwise fun c d => c.id < d.id := by
  have hsub : (ℓ.filterMap Note.issued?).Sublist (given (acts ℓ)) := by
    clear h
    induction ℓ with
    | nil => exact .slnil
    | cons y ℓ ih =>
      unfold given acts at ih ⊢
      rw [filterMap_filterMap] at ih ⊢
      cases y with
      | issue request issued purpose => exact ih.cons_cons issued
      | act a => cases a <;> first | exact ih | exact ih.cons _
      | _ => exact ih
  exact h.lawful.numbers.1.sublist hsub

theorem Faithful.sorted_written (h : Faithful ℓ) :
    (ℓ.filterMap Note.written?).Pairwise fun c d => c.id < d.id := by
  have hpicked := (sublist_append_left _ _).trans h.valid.queued
  exact h.sorted_issued.sublist (h.valid.written_sublist.trans hpicked)

variable {before after : List Note} {request request' : SessionRequest} {call' : Call}
  {purpose purpose' : Purpose}

/-- Calls have their numbers in the order in which they are issued. -/
theorem Faithful.issue_lt (h : Faithful (before ++ .issue request call purpose :: after))
    (hmem : .issue request' call' purpose' ∈ before) : call'.id < call.id := by
  have hsorted := h.sorted_issued
  rw [filterMap_append] at hsorted
  have hissued : call' ∈ before.filterMap Note.issued? := mem_filterMap.2 ⟨_, hmem, rfl⟩
  exact (pairwise_append.1 hsorted).2.2 call' hissued call mem_cons_self

theorem Faithful.issue_cases (h : Faithful (before ++ .issue request call purpose :: after))
    (hmem : .issue request' call' purpose' ∈ before ++ .issue request call purpose :: after) :
    .issue request' call' purpose' ∈ before ∧ call'.id < call.id ∨
      Note.issue request' call' purpose' = .issue request call purpose ∨
      .issue request' call' purpose' ∈ after ∧ call.id < call'.id := by
  rcases mem_append.1 hmem with hbefore | hmem
  · exact .inl ⟨hbefore, h.issue_lt hbefore⟩
  · rcases mem_cons.1 hmem with heq | hafter
    · exact .inr (.inl heq)
    · obtain ⟨mid, rest, rfl⟩ := append_of_mem hafter
      rw [← cons_append, ← append_assoc] at h
      exact .inr (.inr ⟨hafter, h.issue_lt (mem_append_right _ mem_cons_self)⟩)

theorem Faithful.not_issued_before (h : Faithful (before ++ .issue request call purpose :: after)) :
    .issue request' call purpose' ∉ before := fun hmem => Nat.lt_irrefl _ (h.issue_lt hmem)

theorem Faithful.issue_unique (h : Faithful ℓ) (hmem : .issue request call purpose ∈ ℓ)
    (hmem' : .issue request' call purpose' ∈ ℓ) : request' = request ∧ purpose' = purpose := by
  obtain ⟨before, after, rfl⟩ := append_of_mem hmem
  rcases h.issue_cases hmem' with ⟨-, hlt⟩ | heq | ⟨-, hlt⟩
  · exact absurd hlt (Nat.lt_irrefl _)
  · obtain ⟨hrequest, -, hpurpose⟩ := Note.issue.inj heq
    exact ⟨hrequest, hpurpose⟩
  · exact absurd hlt (Nat.lt_irrefl _)

theorem Valid.issued_of_write {c : Nat} (h : Valid ℓ) (hmem : .write c call ∈ ℓ) :
    ∃ request purpose, .issue request call purpose ∈ ℓ := by
  have hwritten : call ∈ ℓ.filterMap Note.written? := mem_filterMap.2 ⟨_, hmem, rfl⟩
  have hissued := h.queued.subset (mem_append_left _ (h.written_sublist.subset hwritten))
  obtain ⟨y, hy, hcall⟩ := mem_filterMap.1 hissued
  cases y with
  | issue request issued purpose =>
    obtain rfl := Option.some.inj hcall
    exact ⟨request, purpose, hy⟩
  | _ => cases hcall

/-- What is written later has the larger number. -/
theorem Faithful.written_lt {c c' : Nat}
    (h : Faithful (before ++ .write c call :: after)) (hmem : .write c' call' ∈ after) :
    call.id < call'.id := by
  have hsorted := h.sorted_written
  rw [filterMap_append] at hsorted
  have hcons := (pairwise_append.1 hsorted).2.1
  exact (pairwise_cons.1 hcons).1 call' (mem_filterMap.2 ⟨_, hmem, rfl⟩)

end IdeMode
