import IdeMode.Proofs.Calls.Conduct
import IdeMode.Proofs.Tools.Work
import IdeMode.Request.Process
set_option autoImplicit false

/-!
# Every program keeps to the conduct

The loops and the operations of the client treat calls as `conduct` has it: they are put together
from programs that do.
-/

namespace IdeMode.Client

open Prog World Tools

variable {s : Nat} {asks : Bool}

variable (t : Nat)

/-! ## Loading -/

theorem tame_ensureRunning : Tame s true (ensureRunning t) := by
  refine .bind (tame_isRunning t) fun running => ?_
  split
  · exact .pure _
  · refine .bind (.modifySession fun _ => rfl) fun _ => ?_
    exact .bind (tame_start t startLimit) fun message => .pure _

theorem tame_close : Tame s true (close t) :=
  .bind (tame_discard t) fun _ =>
    .bind (.of_gentle (gentle_stop t)) fun _ => .modifySession fun _ => rfl

theorem tame_sessionCall (command : Command) (limit : Option Duration) :
    Tame s true (sessionCall t command limit) :=
  .bind (.session t) fun _ => tame_call t command _

theorem tame_evaluate (expression : String) (limit : Option Duration) :
    Tame s true (evaluate t expression limit) :=
  .bind (tame_ensureRunning t) fun _ => .bind (.modifySession fun _ => rfl) fun _ =>
    tame_sessionCall t _ limit

/-- Work with a session. -/
protected theorem Tame.of_works {α : Type} {t : Nat} {p : Action α}
    (h : Tools.Works t p) : Tame s true p := by
  induction h with
  | done r => exact tame_done r
  | bind hp hf ihp ihf => exact .bind ihp ihf
  | attempt hp ih => exact tame_attempt ih
  | get => exact .get
  | note hf =>
    exact .modifySession fun session => congrArg (fun engine => engine.dispatch.ledger) (hf session)
  | @revise _ f _ hf hnext ih =>
    intro w hs
    have hledger : (f (w.session t)).dispatch.ledger = (w.session t).dispatch.ledger :=
      congrArg (fun engine => engine.dispatch.ledger) (hf _)
    have hquiet : Quiet s w (w.modifySession t fun _ => f (w.session t)) :=
      quiet_modifySession hledger
    exact ⟨.free, step_quiet .free hquiet, ih _ _ (Nat.lt_of_lt_of_le hs hquiet.length_le)⟩
  | write disk => exact .modify fun w _ => quiet_host w _
  | announce d f =>
    intro w hs
    have hquiet := quiet_loadFault (s := s) w t ((w.session t).buffer d).path f
    exact ⟨.free, step_quiet .free hquiet, Nat.lt_of_lt_of_le hs hquiet.length_le, rfl⟩
  | start => exact tame_ensureRunning t
  | call command hlimit => exact tame_sessionCall t command _
  | load command => exact .bind (.session t) fun _ => tame_call t command _

protected theorem Tame.of_looks {α : Type} {p : Action α} (h : Tools.Looks p) : Tame s true p :=
  .of_works (t := 0) (.of_looks h)

theorem tame_postLoad (t d : Nat) (label : String) : Tame s true (postLoad t d label) := by
  refine .bind (.session t) fun session => .bind (.of_works (.of_plain (.pathOf d))) fun p => ?_
  split
  · exact .bind (.modify fun w _ => quiet_enqueue nofun rfl) fun _ => .pure _
  · refine .bind (.of_works (.of_plain (.beginLoad d))) fun begun => ?_
    exact .bind (tame_post t _ (by nofun)) fun issued => .pure _

/-! ## Tools -/

protected theorem Tame.of_manages {α : Type} {p : Action α}
    (h : Manages (fun _ p => Tame s true p) p) : Tame s true p := by
  have hregistry : ∀ f, Tame s true (modifyRegistry f) :=
    fun _ => .modify fun _ _ => quiet_of_parts rfl (Nat.le_refl _) rfl
  induction h with
  | work hp => exact hp
  | looks hp => exact .of_looks hp
  | bind hp hf ihp ihf => exact .bind ihp ihf
  | registry hf => exact hregistry _
  | enter name directory environment =>
    refine tame_exchange (fun w hs => quiet_addSession hs _) fun w => ?_
    exact .bind (.of_looks .now) fun time => .bind (hregistry _) fun _ => .pure _
  | close t => exact tame_close t

theorem tame_desk (file name : String) : Tame s true (desk file name) := by
  refine .bind (.of_looks (.resolve file))
    fun p => .bind (.of_manages (.entryFor name _)) fun e => ?_
  exact .bind (.of_works (works_documentAt p)) fun d => .pure _

theorem Tame.of_isOnFile {file name : String} {p : Action Answer}
    (h : ToolRequest.IsOnFile file name p) : Tame s true p := by
  obtain ⟨α, action, present, b, b', rfl, haction, hpresent⟩ := h
  refine .map _ (.bind (tame_attempt (tame_desk file name)) fun opened => ?_)
  cases opened with
  | error f => exact .of_looks (.shown file none f)
  | ok k => exact .of_works (works_onDesk file (haction k) (hpresent k))

/-! ## Requests -/

theorem tame_documentRequest (t d : Nat) (request : DocumentRequest) :
    Tame s true (request.action t d) := by
  cases request with
  | postLoad label =>
    refine .bind (tame_postLoad t d label) fun id => ?_
    exact .bind (.modify fun w _ => quiet_report w _) fun _ => .pure _
  | _ => exact .of_works (.of_plain (.documentRequest d rfl))

theorem tame_sessionRequest (request : SessionRequest) : Tame s true (request.action t) := by
  cases request with
  | close => exact .bind (tame_close t) fun _ => .pure _
  | call command limit => exact .map _ (tame_sessionCall t command limit)
  | rawCall command limit => exact .map _ (tame_call t command limit)
  | post label command =>
    refine .bind (tame_post t command (by nofun)) fun issued => ?_
    exact .bind (.modify fun w _ => quiet_report w _) fun _ => .pure _
  | discard => exact .bind (tame_discard t) fun _ => .pure _
  | evaluate expression limit => exact .map _ (tame_evaluate t expression limit)
  | document name request =>
    exact .bind (.of_works (.of_plain (.openDocument name)))
      fun d => tame_documentRequest t d request
  | _ => exact .of_works (.of_plain (.sessionRequest rfl))

theorem tame_processRequest (request : ProcessRequest) : Tame s true (request.action t) := by
  cases request with
  | start limit => exact .map _ (tame_start t limit)
  | enter => exact .bind (tame_start t startLimit) fun _ => .pure _
  | leave => exact .bind (.of_gentle (gentle_stop t)) fun _ => .pure _
  | write text =>
    exact .bind (.of_serving (serving_of_writing (writing_sendMessage text))) fun _ => .pure _
  | read => exact .map _ (.of_gentle (gentle_receiveMessage t none))
  | interrupt => exact .bind (.of_gentle (gentle_interrupt t)) fun _ => .pure _
  | stop => exact .bind (.of_gentle (gentle_stop t)) fun _ => .pure _

theorem tame_toolRequest (request : ToolRequest) : Tame s true request.action :=
  .of_manages (.action request (fun name e p => .of_works (works_startIn name e p))
    (fun t expression limit => .of_works (works_evaluated t expression limit))
    (fun t => tame_attempt (.of_gentle (gentle_interrupt t))) fun _ _ => .of_isOnFile)

end IdeMode.Client
