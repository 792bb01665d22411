import IdeMode.Proofs.Prog.Stores
import IdeMode.Proofs.World.Drift
set_option autoImplicit false

/-!
# Starts that fail

A start that finds no executable leaves no process behind. One that fails later, at the banner,
undoes nothing: the session keeps the process that was started, and as long as that runs, the next
start takes it for a compiler that is ready.
-/

namespace IdeMode.Client

open Prog World

variable {s c : Nat} {w w' : World} {ε : Type}

/-! ## Reading the banner -/

/-- The rest of a start, after a process was started. -/
def welcome (s : Nat) (limit : Duration) : Action String := do
  greet s (← readBanner s limit)

theorem drawing_welcome (s : Nat) (limit : Duration) : Obeys (drawing s) (welcome s limit) :=
  .bind (drawing_readBanner s limit) fun banner => drawing_greet s banner

theorem runIn_start_of_stopped (h : w.isRunning s = false) (env : Environment World Await ε)
    (limit : Duration) (memory : ε) : runIn env (start s limit) w memory =
      runIn env (spawn s >>= fun _ => welcome s limit) w memory := by
  show runIn env (if w.isRunning s then _ else _) w memory = _
  rw [h]
  rfl

theorem run_start_of_running (h : w.isRunning s = true) (limit : Duration) :
    (start s limit).run w = (.finished (.ok "Idris already running"), w) ∧
      (ensureRunning s).run w = (.finished (.ok none), w) := by
  constructor
  · show Prog.run (if w.isRunning s then _ else _) w = _
    rw [h]
    rfl
  · show Prog.run (if w.isRunning s then _ else _) w = _
    rw [h]
    rfl

theorem Draws.child_eq (h : Draws s w w') :
    (w'.session s).transport.child = (w.session s).transport.child := by
  cases h with
  | take _ => rfl
  | version => exact session_modifySession_feature (fun session => session.transport.child) rfl s

theorem Draws.isRunning_eq (h : Draws s w w') (c : Nat) :
    w'.host.isRunning c = w.host.isRunning c := by
  cases h with
  | version => rfl
  | @take c' f hf =>
    unfold Host.isRunning Host.child? modifyChild Host.modifyChild
    rw [List.getElem?_modify]
    split
    · cases w.host.children[c]? with
      | none => rfl
      | some child => simp [Host.Child.isRunning, (hf child).1]
    · simp

/-! ## Starting -/

/-- What comes of starting a process for a session. -/
def launch (w : World) (s : Nat) : Host.Spawned × Host :=
  w.host.spawn [(w.session s).transport.executable, modeOption] (w.session s).transport.directory
    (w.session s).transport.environment

/-- The world in which a session has a process that was just started. -/
def launched (w : World) (s c : Nat) : World :=
  World.modifyTransport { w with host := (launch w s).2 } s fun t => { t with child := some c }

/-- What a session does with what came of it. -/
def takeOn (s : Nat) (executable : String) : Host.Spawned → Action Nat
  | .missing => throw (.unavailable (.notFound executable))
  | .denied => throw (.system .permission)
  | .started c => do
    modify fun w => w.modifyTransport s fun t => { t with child := some c }
    return c

theorem runIn_spawn (env : Environment World Await ε) (w : World) (s : Nat) (memory : ε) :
    runIn env (spawn s) w memory =
      runIn env (takeOn s (w.session s).transport.executable (launch w s).1)
        { w with host := (launch w s).2 } memory :=
  rfl

/-- Where no process was started, the processes are the same. -/
theorem children_launch (h : ∀ c, (launch w s).1 ≠ .started c) :
    (launch w s).2.children = w.host.children := by
  unfold launch Host.spawn at h ⊢
  dsimp only at h ⊢
  split
  · rfl
  · next hmissing =>
    split
    · rfl
    · next hdenied =>
      rw [if_neg hmissing, if_neg hdenied] at h
      exact absurd rfl (h _)

/-- While a program waits, nobody gives a session another process or takes its process away. -/
def LeavesProcess (env : Environment World Await ε) (s : Nat) : Prop :=
  ∀ on deadline w memory, ((env on deadline w memory).2.1.session s).transport.child =
    (w.session s).transport.child

theorem child_welcome {env : Environment World Await ε} (henv : LeavesProcess env s)
    (limit : Duration) (w : World) (memory : ε) :
    ((runIn env (welcome s limit) w memory).2.1.session s).transport.child =
      (w.session s).transport.child := by
  refine (drawing_welcome s limit).runIn_keeps
    (I := fun w' _ => (w'.session s).transport.child = (w.session s).transport.child)
    (fun _ _ _ _ => trivial) ?_ ?_ rfl
  · intro w₁ _ w₂ hw hdraws
    exact hdraws.child_eq.trans hw
  · intro on deadline w₁ memory₁ hw
    exact (henv on deadline w₁ memory₁).trans hw

/-- Reading the banner ends no process. -/
theorem isRunning_welcome {env : Environment World Await ε} (henv : ∀ on deadline w memory,
      w.host.isRunning c = true → (env on deadline w memory).2.1.host.isRunning c = true)
    (limit : Duration) (hrunning : w.host.isRunning c = true) (memory : ε) :
    (runIn env (welcome s limit) w memory).2.1.host.isRunning c = true := by
  refine (drawing_welcome s limit).runIn_keeps (I := fun w _ => w.host.isRunning c = true)
    (fun _ _ _ _ => trivial) ?_ henv hrunning
  intro w₁ _ w₂ hw hdraws
  exact (hdraws.isRunning_eq c).trans hw

/-- **A failed start keeps the process that it started.** No process ran before, and nobody else
starts or stops one of the session meanwhile. If the start fails, either no process could be started
and none runs, or the session has the process that was started, whatever went wrong after that; so
none runs exactly if that process has exited. It still runs if it does not exit by itself. And while
it runs, the next start takes it for a compiler that is ready. -/
theorem failed_start_keeps_process (env : Environment World Await ε) (memory : ε) (s : Nat)
    (limit : Duration) {w w' : World} {memory' : ε} {fault : Fault} (hs : s < w.sessions.length)
    (hstopped : w.isRunning s = false) (henv : LeavesProcess env s)
    (hfails : runIn env (start s limit) w memory = (.error fault, w', memory')) :
    (((launch w s).1 = .missing ∧
      fault = .unavailable (.notFound (w.session s).transport.executable) ∨
          (launch w s).1 = .denied ∧ fault = .system .permission) ∧
        w'.host.children = w.host.children ∧ w'.isRunning s = false) ∨
      ∃ c, (launch w s).1 = .started c ∧ (w'.session s).transport.child = some c ∧
        (w'.isRunning s = false ↔ w'.host.isRunning c = false) ∧
        ((launch w s).2.isRunning c = true → (∀ on deadline w memory, w.host.isRunning c = true →
            (env on deadline w memory).2.1.host.isRunning c = true) → w'.isRunning s = true) ∧
        (w'.isRunning s = true → ∀ limit,
          (start s limit).run w' = (.finished (.ok "Idris already running"), w') ∧
          (ensureRunning s).run w' = (.finished (.ok none), w')) := by
  have habsent : (∀ c, (launch w s).1 ≠ .started c) → ∀ w₁, w₁ = { w with host := (launch w s).2 } →
      w₁.host.children = w.host.children ∧ w₁.isRunning s = false := by
    rintro hnone _ rfl
    have hchildren := children_launch hnone
    refine ⟨hchildren, ?_⟩
    rw [← hstopped]
    unfold World.isRunning Host.isRunning Host.child?
    rw [hchildren]
    rfl
  have hspawn := runIn_spawn env w s memory
  rw [runIn_start_of_stopped hstopped] at hfails
  cases hresult : (launch w s).1 with
  | missing =>
    rw [hresult] at hspawn
    rw [runIn_bind_error env hspawn] at hfails
    cases hfails
    exact .inl ⟨.inl ⟨rfl, rfl⟩, habsent (by simp [hresult]) _ rfl⟩
  | denied =>
    rw [hresult] at hspawn
    rw [runIn_bind_error env hspawn] at hfails
    cases hfails
    exact .inl ⟨.inr ⟨rfl, rfl⟩, habsent (by simp [hresult]) _ rfl⟩
  | started c =>
    rw [hresult] at hspawn
    rw [runIn_bind_ok env hspawn] at hfails
    have hchild : (w'.session s).transport.child = some c := by
      have hkept := child_welcome henv limit (launched w s c) memory
      rw [show runIn env (welcome s limit) (launched w s c) memory = _ from hfails] at hkept
      exact hkept.trans (congrArg (fun session => session.transport.child)
        (session_modifySession_self (w := { w with host := (launch w s).2 }) hs _))
    have hrunning : w'.isRunning s = w'.host.isRunning c := by
      rw [World.isRunning, hchild]
    refine .inr ⟨c, rfl, hchild, by rw [hrunning], fun hfirst hlives => ?_,
      fun h limit => run_start_of_running h limit⟩
    have hkept := isRunning_welcome (s := s) (w := launched w s c) hlives limit hfirst memory
    rw [show runIn env (welcome s limit) (launched w s c) memory = _ from hfails] at hkept
    rw [hrunning]
    exact hkept

/-- A world with one session, whose compiler will send a banner that is cut off. -/
def garbledWorld : World where
  host := { cwd := ⟨[]⟩, behaviours := [{ greeting := Host.messageBytes "(:protocol-version" }] }
  sessions := [{}]

/-- The banner cannot be read and the start fails. The process runs on, and the next start is
content with it. -/
theorem failed_start_keeps_process_garbled :
    let env : Environment World Await Unit := fun _ _ w _ => (.expired, w, ())
    ∃ fault w', runIn env (start 0 startLimit) garbledWorld () = (.error fault, w', ()) ∧
      w'.isRunning 0 = true ∧ (start 0 startLimit).run w' =
        (.finished (.ok "Idris already running"), w') := by
  intro env
  have hfails : (runIn env (start 0 startLimit) garbledWorld ()).1.toBool = false := by
    decide +kernel
  rcases hrun : runIn env (start 0 startLimit) garbledWorld () with ⟨fault | message, w', ⟨⟩⟩
  · rcases failed_start_keeps_process env () 0 startLimit (by decide) (by decide)
      (fun _ _ _ _ => rfl) hrun with ⟨⟨hmissing, -⟩ | ⟨hdenied, -⟩, -⟩ | ⟨c, hstarted, -, -,
        hlives, hnext⟩
    · exact absurd hmissing (by decide)
    · exact absurd hdenied (by decide)
    · obtain rfl : 0 = c := Host.Spawned.started.inj hstarted
      have hrunning := hlives (by decide) fun _ _ _ _ h => h
      exact ⟨fault, w', rfl, hrunning, (hnext hrunning startLimit).1⟩
  · rw [hrun] at hfails
    cases hfails

end IdeMode.Client
