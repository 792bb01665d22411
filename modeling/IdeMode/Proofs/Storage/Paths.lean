import IdeMode.Storage.Path
set_option autoImplicit false

/-!
# Paths and their texts

A name resolved in a directory gives a path in normal form, and the text of such a path means the
path itself, whatever the directory. So a path in normal form is known by its text.
-/

namespace IdeMode.Path

open List

/-- A name that stands for itself in a path. -/
structure IsComponent (name : String) : Prop where
  ne_empty : name ≠ ""
  ne_dot : name ≠ "."
  ne_dots : name ≠ ".."
  no_slash : '/' ∉ name.toList

/-- Every component of the path stands for itself. -/
def IsNormal (p : Path) : Prop := ∀ name ∈ p.parts, IsComponent name

variable {base p : Path} {name : String}

theorem isNormal_root : root.IsNormal := nofun

theorem IsNormal.parent (h : p.IsNormal) : p.parent.IsNormal :=
  fun name hname => h name ((dropLast_sublist _).subset hname)

theorem IsNormal.descend (h : p.IsNormal) (hname : '/' ∉ name.toList) :
    (p.descend name).IsNormal := by
  unfold Path.descend
  split
  · exact h
  · next hshort =>
    split
    · exact h.parent
    · next hdots =>
      intro other hother
      rcases mem_append.1 hother with hother | hother
      · exact h other hother
      · obtain rfl := mem_singleton.1 hother
        exact ⟨fun he => hshort (.inl he), fun hd => hshort (.inr hd), hdots, hname⟩

theorem not_mem_of_mem_splitOn {cs l : List Char} (h : l ∈ cs.splitOn '/') : '/' ∉ l := by
  induction cs generalizing l with
  | nil =>
    obtain rfl := mem_singleton.1 h
    exact not_mem_nil
  | cons c cs ih =>
    rw [splitOn_cons_eq_if_modifyHead] at h
    split at h
    · rcases mem_cons.1 h with rfl | h
      · exact not_mem_nil
      · exact ih h
    · next hc =>
      cases hsplit : cs.splitOn '/' with
      | nil => exact (splitOn_ne_nil _ _ hsplit).elim
      | cons first rest =>
        rw [hsplit] at h ih
        rcases mem_cons.1 h with rfl | h
        · intro hmem
          rcases mem_cons.1 hmem with rfl | hmem
          · exact hc (beq_self_eq_true _)
          · exact ih mem_cons_self hmem
        · exact ih (mem_cons_of_mem _ h)

theorem not_mem_of_mem_components {component : String} (h : component ∈ components name) :
    '/' ∉ component.toList := by
  obtain ⟨l, hl, rfl⟩ := mem_map.1 h
  rw [String.toList_ofList]
  exact not_mem_of_mem_splitOn hl

/-- What a name means in a directory is in normal form. -/
theorem IsNormal.resolve (h : base.IsNormal) (name : String) : (base.resolve name).IsNormal := by
  have hstart : ∀ {start : Path} {names : List String},
    start.IsNormal → (∀ c ∈ names, '/' ∉ c.toList) → (names.foldl Path.descend start).IsNormal := by
    intro start names hnormal hnames
    induction names generalizing start with
    | nil => exact hnormal
    | cons c names ih =>
      exact ih (hnormal.descend (hnames c mem_cons_self))
        fun d hd => hnames d (mem_cons_of_mem _ hd)
  refine hstart ?_ fun c hc => not_mem_of_mem_components hc
  split
  · exact isNormal_root
  · exact h

theorem descend_of_isComponent (h : IsComponent name) : p.descend name = ⟨p.parts ++ [name]⟩ := by
  unfold descend
  rw [if_neg (not_or.2 ⟨h.ne_empty, h.ne_dot⟩), if_neg h.ne_dots]

theorem foldl_descend {names : List String} (h : ∀ c ∈ names, IsComponent c) :
    names.foldl descend p = ⟨p.parts ++ names⟩ := by
  induction names generalizing p with
  | nil => rw [append_nil, foldl_nil]
  | cons c names ih =>
    rw [foldl_cons, descend_of_isComponent (h c mem_cons_self),
      ih fun d hd => h d (mem_cons_of_mem _ hd), append_assoc, singleton_append]

theorem toList_text (p : Path) :
    p.text.toList = '/' :: ['/'].intercalate (p.parts.map String.toList) := by
  unfold text
  rw [String.toList_append, String.toList_intercalate]
  rfl

theorem components_text (h : p.IsNormal) (hp : p.parts ≠ []) :
    components p.text = "" :: p.parts := by
  have hslash : ∀ l ∈ p.parts.map String.toList, '/' ∉ l := by
    intro l hl
    obtain ⟨c, hc, rfl⟩ := mem_map.1 hl
    exact (h c hc).no_slash
  unfold components
  rw [toList_text, splitOn_cons_eq_if_modifyHead, if_pos (beq_self_eq_true _),
    splitOn_intercalate '/' hslash (by simpa using hp)]
  simp [Function.comp_def]

/-- The text of a path in normal form means that path, in every directory. -/
theorem resolve_text (h : p.IsNormal) : base.resolve p.text = p := by
  have hstart : p.text.toList.head? = some '/' := by rw [toList_text, List.head?_cons]
  unfold resolve
  rw [if_pos hstart]
  by_cases hp : p.parts = []
  · obtain ⟨parts⟩ := p
    obtain rfl : parts = [] := hp
    decide
  · rw [components_text h hp, foldl_cons]
    rw [foldl_descend h]
    rfl

end IdeMode.Path
