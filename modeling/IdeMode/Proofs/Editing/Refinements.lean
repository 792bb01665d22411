import IdeMode.Proofs.Editing.Commands
set_option autoImplicit false

/-!
# Refinements that fail

A refinement asks in rounds, fills its hole, and then loads the document again. Whatever goes wrong
before the hole is filled leaves everything as it was. The load that follows may fail as well; then
the refinement fails, although its edit is made.
-/

namespace IdeMode.Client

open Prog World

variable {s d : Nat} {w : World} {α ε : Type} (env : Environment World Await ε) (memory : ε)

theorem untouched_of_sparing {p : Action α} (h : Obeys sparing p) (w : World) :
    Untouched (stores env p w memory) := by
  have hsafe := safe_spared (s := 0) (d := 0) (g := .untouched) h trivial w
  obtain ⟨g, rfl, ⟨-, huntouched⟩ | ⟨x, hx, -⟩⟩ :=
    exists_progress env memory hsafe fun _ _ _ hg => hg ▸ trivial
  · exact huntouched
  · cases hx

theorem EditsOnce.append {x : Replacement} {steps later : List (World × World)}
    (h : EditsOnce s d x steps) (hlater : Untouched later) : EditsOnce s d x (steps ++ later) := by
  obtain ⟨hworks, before, after, rfl, hbefore, hafter⟩ := h
  exact ⟨hworks, before, after ++ later, by simp only [List.append_assoc], hbefore,
    hafter.append hlater⟩

/-- **A refinement fails with nothing touched, or because the reload fails.** Whatever the compiler
answers and whatever others do while the refinement waits: either it fails and none of its own steps
changed a document or a file, or it put an expression in the place of the hole at the point, once,
and after that it only loaded the document. In that case it fails exactly if the load does, with the
same fault, and the hole is gone then. -/
theorem refinement_untouched_or_reloaded (s d : Nat) (e : Editor) (line column : Int)
    (variant : Variant) (stem : String) (choices : List String) (w : World) :
    ((∃ fault, (runIn env (refine s d e line column variant stem choices) w memory).1 =
      .error fault) ∧
        Untouched (stores env (refine s d e line column variant stem choices) w memory)) ∨
      ∃ x name memory', EditsOnce s d x
        (stores env (refine s d e line column variant stem choices) w memory) ∧
        ((w.session s).buffer d).nameAt line column = .ok (name, line) ∧ x.FillsHole s d name ∧
        (runIn env (refine s d e line column variant stem choices) w memory).2 =
          (runIn env (load s d) (x.adopted s d) memory').2 ∧
        ∀ fault, (runIn env (refine s d e line column variant stem choices) w memory).1 =
          .error fault ↔ (runIn env (load s d) (x.adopted s d) memory').1 = .error fault := by
  rw [refine]
  have hedits :=
    edits_of_ends env memory (safe_fillRefined s d e line column variant stem choices w)
  rcases hfilled : runIn env (fillRefined s d e line column variant stem choices) w memory with
    ⟨fault | filled, w', memory'⟩
  · rw [hfilled] at hedits
    rw [runIn_bind_error env hfilled, stores_bind, hfilled, List.append_nil]
    exact .inl ⟨⟨fault, rfl⟩, hedits⟩
  · rw [hfilled] at hedits
    obtain ⟨x, honce, rfl, name, hname, hfills⟩ := hedits
    rw [runIn_bind_ok env hfilled, stores_bind, hfilled, runIn_bind_pure]
    refine .inr ⟨x, name, memory', honce.append ?_, hname, hfills, rfl, fun fault => ?_⟩
    · exact untouched_of_sparing env memory' (.bind (sparing_load s d) fun _ => .done _) _
    · cases (runIn env (load s d) (x.adopted s d) memory').1 with
      | ok r => exact ⟨nofun, nofun⟩
      | error fault' =>
        exact ⟨fun h => congrArg Except.error (Except.error.inj h),
          fun h => congrArg Except.error (Except.error.inj h)⟩

/-- An environment that settles the calls with the outcomes of a script, in order. -/
def scripted : Environment World Await (List Outcome) := fun on _ w script =>
  match on, script with
  | .outcome s id, outcome :: rest =>
    (.woken, w.modifyDispatch s fun d => { d with outcomes := d.outcomes.set id outcome }, rest)
  | _, script => (.woken, w, script)

/-- What the compiler says to a refinement whose result it does not accept: the names that fit, the
expression, that it moved to the directory, and that the load failed. -/
def rejection : List Outcome :=
  [.ofReply true [.list [.str "plus", .str "minus"]], .ofReply true [.str "plus ?a ?b"],
    .ofReply true [.list []], .ofReply false [.str "Type mismatch"]]

/-- The refinement of a hole fails because the result does not load. The hole is gone from the
document and from its file. -/
theorem refinement_untouched_or_reloaded_rejected :
    let run := runIn scripted (refine 0 0 .plain 1 8 .plain "" ["plus"])
      (deskWorld "f x = ?h\n") rejection
    run.1.toBool = false ∧ ((run.2.1.session 0).buffer 0).text = "f x = plus ?a ?b\n".toList ∧
      run.2.1.host.disk.file? ⟨["A.idr"]⟩ = some (Text.Utf8.encode "f x = plus ?a ?b\n".toList) ∧
      ∃ (x : Replacement) (name : String) (script : List Outcome), x.FillsHole 0 0 name ∧
        (runIn scripted (load 0 0) (x.adopted 0 0) script).1.toBool = false := by
  intro run
  have hfails : run.1.toBool = false := by decide +kernel
  have hwrites : ∃ step ∈ stores scripted (refine 0 0 .plain 1 8 .plain "" ["plus"])
    (deskWorld "f x = ?h\n") rejection,
      step.2.host.disk.file? ⟨["A.idr"]⟩ ≠ step.1.host.disk.file? ⟨["A.idr"]⟩ := by
    decide +kernel
  refine ⟨hfails, by decide +kernel, by decide +kernel, ?_⟩
  rcases refinement_untouched_or_reloaded scripted rejection 0 0 .plain 1 8 .plain "" ["plus"]
    (deskWorld "f x = ?h\n") with ⟨-, huntouched⟩ | ⟨x, name, script, -, -, hfills, -, hfault⟩
  · obtain ⟨step, hstep, hwrite⟩ := hwrites
    exact absurd (congrArg (Disk.file? · ⟨["A.idr"]⟩) (huntouched step hstep).disk_eq) hwrite
  · refine ⟨x, name, script, hfills, ?_⟩
    cases hrun : run.1 with
    | ok edit =>
      rw [hrun] at hfails
      cases hfails
    | error fault =>
      rw [(hfault fault).1 hrun]
      rfl

end IdeMode.Client
