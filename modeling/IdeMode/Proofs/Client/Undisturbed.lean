import IdeMode.Proofs.Client.Gentle
set_option autoImplicit false

/-!
# What leaves documents alone

Most of what happens in the world concerns processes and calls. None of this touches a file, a
document, or what a session knows of its documents.
-/

namespace IdeMode

/-- What a session knows of its documents. -/
def Session.papers (session : Session) : Session where
  loaded := session.loaded
  dirty := session.dirty
  generations := session.generations
  documents := session.documents

namespace World

/-- Neither files nor documents changed, nor what is known of them. -/
structure Undisturbed (w w' : World) : Prop where
  papers_eq : ∀ s, (w'.session s).papers = (w.session s).papers
  length_eq : w'.sessions.length = w.sessions.length
  disk_eq : w'.host.disk = w.host.disk
  cwd_eq : w'.host.cwd = w.host.cwd
  registry_eq : w'.registry = w.registry

variable {w w' : World}

theorem Undisturbed.refl (w : World) : Undisturbed w w := ⟨fun _ => rfl, rfl, rfl, rfl, rfl⟩

theorem Undisturbed.trans {w₁ w₂ w₃ : World} (h : Undisturbed w₁ w₂) (h' : Undisturbed w₂ w₃) :
    Undisturbed w₁ w₃ :=
  ⟨fun s => (h'.papers_eq s).trans (h.papers_eq s), h'.length_eq.trans h.length_eq,
    h'.disk_eq.trans h.disk_eq, h'.cwd_eq.trans h.cwd_eq, h'.registry_eq.trans h.registry_eq⟩

theorem undisturbed_of_parts (hsessions : w'.sessions = w.sessions)
    (hdisk : w'.host.disk = w.host.disk) (hcwd : w'.host.cwd = w.host.cwd)
    (hregistry : w'.registry = w.registry) : Undisturbed w w' := by
  refine ⟨fun s => ?_, congrArg List.length hsessions, hdisk, hcwd, hregistry⟩
  unfold session
  rw [hsessions]

theorem Stirs.undisturbed (h : Stirs w w') : Undisturbed w w' :=
  undisturbed_of_parts h.sessions_eq h.disk_eq h.cwd_eq h.registry_eq

theorem undisturbed_modifySession {s : Nat} {f : Session → Session}
    (hf : (f (w.session s)).papers = (w.session s).papers) : Undisturbed w (w.modifySession s f) :=
  ⟨session_modifySession_feature Session.papers hf, length_modifySession w s f, rfl, rfl, rfl⟩

theorem undisturbed_modifyDispatch (w : World) (s : Nat) (f : Dispatch → Dispatch) :
    Undisturbed w (w.modifyDispatch s f) := undisturbed_modifySession rfl

theorem undisturbed_modifyTransport (w : World) (s : Nat) (f : Transport → Transport) :
    Undisturbed w (w.modifyTransport s f) := undisturbed_modifySession rfl

theorem undisturbed_enqueue (w : World) (e : Wake) : Undisturbed w (w.enqueue e) :=
  undisturbed_of_parts rfl rfl rfl rfl

theorem undisturbed_report (w : World) (e : Event) : Undisturbed w (w.report e) :=
  undisturbed_of_parts rfl rfl rfl rfl

theorem undisturbed_startService (w : World) (service : Service) :
    Undisturbed w (w.startService service).2 :=
  undisturbed_of_parts rfl rfl rfl rfl

theorem undisturbed_issue (w : World) (s : Nat) (command : Command) (addressee : Addressee) :
    Undisturbed w (w.issue s command addressee).2 := by
  have hcomposes : Composes Undisturbed := ⟨.refl, .trans⟩
  refine hcomposes.issue ?_ (fun _ _ => undisturbed_modifyDispatch _ s _)
    fun w _ => undisturbed_enqueue w _
  exact hcomposes.ensureServices (fun w service _ => undisturbed_startService w service)
    (fun w _ _ => undisturbed_modifyDispatch w s _) w

theorem undisturbed_loadFault (w : World) (s : Nat) (p : Path) (f : Fault) :
    Undisturbed w (w.loadFault s p f).2 := by
  unfold loadFault
  split
  · exact undisturbed_of_parts rfl rfl rfl rfl
  · exact .refl w

theorem undisturbed_spawn (w : World) (command : List String) (directory : String)
    (environment : List (String × String)) :
    Undisturbed w { w with host := (w.host.spawn command directory environment).2 } :=
  undisturbed_of_parts rfl (Host.spawn_feature Host.disk _ (fun _ _ _ => rfl) ..)
    (Host.spawn_feature Host.cwd _ (fun _ _ _ => rfl) ..) rfl

end World

namespace Client

open Prog World

/-- What programs keep to that leave documents alone. -/
def undisturbing : Discipline World Await Unit where
  Step w _ w' _ := Undisturbed w w'
  Pause _ _ _ := True
  Wake _ _ _ _ _ _ := True

variable {s : Nat}

/-- Starts and calls leave documents alone. -/
theorem undisturbing_of_dealing {α : Type} {P : Command → Prop} {p : Action α}
    (h : Obeys (dealing s P) p) : Obeys undisturbing p := by
  have hstep : ∀ w w', Deals s P w w' → Undisturbed w w' := by
    intro w w' hdeals
    cases hdeals with
    | gentle h =>
      cases h with
      | stirs h _ => exact h.undisturbed
      | transport _ => exact undisturbed_modifyTransport w s _
    | spawn _ _ _ => exact undisturbed_spawn w _ _ _
    | attach _ => exact undisturbed_modifyTransport w s _
    | issue _ _ => exact undisturbed_issue w s _ .waiter
    | take _ => exact undisturbed_modifyDispatch w s _
    | drop _ => exact undisturbed_modifyDispatch w s _
  exact h.refine hstep (fun _ _ _ => trivial) fun _ _ _ _ _ => trivial

theorem undisturbing_call (s : Nat) (command : Command) (limit : Option Duration) :
    Obeys undisturbing (call s command limit) :=
  undisturbing_of_dealing (dealing_call (P := fun _ => True) s trivial limit)

end Client

end IdeMode
