import IdeMode.Proofs.Session.Log
set_option autoImplicit false

/-!
# Work at a document

A command that works at a document does a few things: it looks at the world, loads the document,
asks the compiler about it and edits it. It asks only while it can rely on the document, which it
can after a load and until it edits. What these few things keep, every command keeps.
-/

namespace IdeMode.Client

open Prog

/-- What commands do at a document of a session. The flags say whether the program relies on the
document before and after, if it ends well. -/
inductive Handles (s d : Nat) : Bool → Bool → {α : Type} → Action α → Prop where
  | done {α : Type} {b : Bool} (r : Result α) : Handles s d b b (.done r)
  | fault {α : Type} {b b' : Bool} (f : Fault) : Handles s d b b' (.done (.error f) : Action α)
  | bind {α β : Type} {b b' b'' : Bool} {p : Action α} {f : α → Action β} (hp : Handles s d b b' p)
    (hf : ∀ a, Handles s d b' b'' (f a)) : Handles s d b b'' (p >>= f)
  | relax {α : Type} {b b' : Bool} {p : Action α} (hp : Handles s d b b' p) : Handles s d b false p
  | look {b : Bool} : Handles s d b b (get : Action World)
  | ask {command : Command} (htag : command.tag ∈ Command.scopedTags) :
    Handles s d true true (sessionCall s command none)
  | suggest {b : Bool} {command : Command} (htag : command.tag = Command.completionTag) :
    Handles s d b false (sessionCall s command none)
  | ensureLoaded {b : Bool} : Handles s d b true (ensureLoaded s d)
  | load {b : Bool} : Handles s d b true (load s d)
  | edit {b : Bool} (e : Editor) (start finish : Int) (text : String) :
    Handles s d b false (applyEdit s d e start finish text)

namespace Handles

variable {s d : Nat} {b : Bool}

theorem session : Handles s d b b (session s) := .bind .look fun _ => .done _

/-! ## Questions -/

theorem askAbout {tag : String} (htag : tag ∈ Command.scopedTags) (line column : Int)
    (extra : List Value) : Handles s d false true (askAbout s d tag line column extra) := by
  refine .bind .session fun session => .bind (.done _) fun target => ?_
  exact .bind .ensureLoaded fun _ => .bind (.ask htag) fun r => .done _

theorem typeOf (line column : Int) (name : Option String) :
    Handles s d false true (typeOf s d line column name) := by
  have htag : "type-of" ∈ Command.scopedTags := by decide
  have hask : ∀ name, Handles s d false true (do
      let _ ← Client.ensureLoaded s d
      sessionCall s ⟨"type-of", [.str name]⟩ none : Action Response) :=
    fun name => .bind .ensureLoaded fun _ => .ask htag
  cases name with
  | some name => exact .bind (.done (.ok name)) hask
  | none =>
    refine .bind .session fun session => .bind (.done _) fun target => ?_
    exact .bind (.done (.ok _)) hask

theorem complete (line column : Int) : Handles s d false false (complete s d line column) := by
  refine .bind .session fun session => .bind (.bind .look fun _ => .done _) fun running => ?_
  split
  · exact .done _
  · refine .bind (.done _) fun target => ?_
    dsimp only
    split
    · exact .done _
    · refine .bind (.suggest rfl) fun r => ?_
      split <;> exact .done _

/-! ## Edits -/

variable (e : Editor)

theorem replaceLineBy {tag : String} (htag : tag ∈ Command.scopedTags) (line column : Int)
    (messages : String → List String) :
    Handles s d false false (replaceLineBy s d e tag line column messages) := by
  refine .bind (.askAbout htag line column []) fun answer => .bind .session fun session => ?_
  refine .bind (.done _) fun start => .bind (.done _) fun finish => ?_
  exact .bind (.edit e _ _ _) fun fields => .done _

theorem addClause (line column : Int) (proof : Bool) :
    Handles s d false false (addClause s d e line column proof) := by
  have htag : (if proof then "add-proof-clause" else "add-clause") ∈ Command.scopedTags := by
    cases proof <;> decide
  refine .bind (.askAbout htag line column []) fun answer => .bind .session fun session => ?_
  exact .bind (.done _) fun finish => .bind (.edit e _ _ _) fun fields => .done _

theorem addMissing (line column : Int) :
    Handles s d false false (addMissing s d e line column) := by
  have htag : "add-missing" ∈ Command.scopedTags := by decide
  refine .bind (.askAbout htag line column []) fun answer => .bind .session fun session => ?_
  dsimp only
  split <;> exact .bind (.done _) fun place => .bind (.edit e _ _ _) fun fields => .done _

theorem proofSearch (line column : Int) (hints : List String) :
    Handles s d false false (proofSearch s d e line column hints) := by
  have htag : "proof-search" ∈ Command.scopedTags := by decide
  refine .bind (.askAbout htag line column _) fun answer => .bind .session fun session => ?_
  refine .bind (.done _) fun hole => ?_
  split
  · exact .fault _
  · exact .bind (.edit e _ _ _) fun fields => .done _

/-! ## Refinement -/

section Refinement

variable (r : Refinement)

theorem offer (stem : String) : Handles r.session r.document true true (r.ask stem) := by
  have hnames : ∀ answer, Handles r.session r.document true true
      (Refinement.ask.names r answer) := by
    intro answer
    unfold Refinement.ask.names
    split
    · exact .fault _
    · exact .done _
  have htags : "compatible-identifiers-recursive" ∈ Command.scopedTags ∧
    "compatible-identifiers" ∈ Command.scopedTags ∧
      "complete-compatible-identifiers" ∈ Command.scopedTags := by decide
  unfold Refinement.ask
  cases r.variant with
  | recursive => exact .bind (.ask htags.1) fun answer => .done _
  | plain => exact .bind (.ask htags.2.1) hnames
  | stem => exact .bind (.ask htags.2.2) hnames

theorem choose (choice : String) : Handles r.session r.document true true (r.choose choice) := by
  have htags : "choose-identifier" ∈ Command.scopedTags ∧
    "make-refined-expression" ∈ Command.scopedTags := by decide
  unfold Refinement.choose
  split
  · exact .bind (.ask htags.1) fun answer => .done _
  · exact .bind (.ask htags.2) fun answer => .done _

/-- Between two choices the document is relied on without a break. -/
theorem pursue (choices : List String) (offered : List (List String)) (offer : Editing.Offer) :
    Handles r.session r.document true true (r.pursue choices offered offer) := by
  induction choices generalizing offered offer with
  | nil =>
    unfold Refinement.pursue
    split
    · exact .done _
    · exact .fault _
  | cons choice choices ih =>
    unfold Refinement.pursue
    split
    · exact .done _
    · dsimp only
      split
      · exact .bind (.choose r choice) fun offer => ih _ offer
      · exact .fault _

/-- The hole is filled where it stands in a line. -/
theorem fillHoleIn (expression : String) (buffer : Buffer) (text : List Char) :
    Handles r.session r.document b false (match Refinement.findHole? r.hole.toList text with
      | none => throw (.vanished r.hole)
      | some column => do
        let start := (← Prog.ofResult (buffer.offset r.line)) + column
        applyEdit r.session r.document r.editor start (start + r.hole.length + 1) expression :
          Action (List Field)) := by
  split
  · exact .fault _
  · exact .bind (.done _) fun start => .edit _ _ _ _

theorem fillHole (expression : String) :
    Handles r.session r.document b false (r.fillHole expression) := by
  refine .bind .session fun session => ?_
  dsimp only
  split
  · exact .bind (.done _) (.fillHoleIn r expression _)
  · exact .bind (.done (.ok [])) (.fillHoleIn r expression _)

theorem refine (e : Editor) (line column : Int) (variant : Variant) (stem : String)
    (choices : List String) :
    Handles s d false true (refine s d e line column variant stem choices) := by
  have hfill : Handles s d false false
      (fillRefined s d e line column variant stem choices) := by
    refine .bind .session fun session => .bind (.done _) fun target => ?_
    let r : Refinement := ⟨s, d, e, variant, target.1, target.2⟩
    refine .bind (.bind .ensureLoaded fun _ => .bind (.offer r stem) (.pursue r choices [])) ?_
    exact fun sought => .bind (.fillHole r _) fun fields => .done _
  exact .bind hfill fun edit => .bind .load fun _ => .done _

end Refinement

theorem perform (line column : Int) (command : EditCommand) :
    Handles s d false false (perform s d e line column command) := by
  have htags : "case-split" ∈ Command.scopedTags ∧ "make-with" ∈ Command.scopedTags := by decide
  cases command with
  | caseSplit => exact .replaceLineBy e htags.1 line column fun name => ["Case split on " ++ name]
  | addClause proof => exact .addClause e line column proof
  | addMissing => exact .addMissing e line column
  | makeWith => exact .replaceLineBy e htags.2 line column fun _ => []
  | proofSearch hints => exact .proofSearch e line column hints
  | refine variant stem choices =>
    unfold Client.perform
    dsimp only
    split
    · exact .relax (.refine e line column _ stem choices)
    · exact .fault _

end Handles

end IdeMode.Client
