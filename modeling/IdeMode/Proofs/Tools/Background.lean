import IdeMode.Proofs.Calls.Outcomes
import IdeMode.Proofs.Session.Programs
import IdeMode.Proofs.Tools.Waits
set_option autoImplicit false

/-!
# The background

While a tool waits, the loops of sessions read and write, tasks are told of things, and processes do
what they like short of writing files. All of this only lets processes and calls go on, and keeps
order.
-/

namespace IdeMode

open List

namespace World

/-- What goes on in the background. -/
structure Proceeds (w w' : World) : Prop where
  drifts : Drifts w w'
  order : KeepsOrder w w'

variable {w w' : World} {s : Nat}

theorem Proceeds.refl (w : World) : Proceeds w w := ⟨.refl w, .refl w⟩

theorem Proceeds.trans {w₁ w₂ w₃ : World} (h : Proceeds w₁ w₂) (h' : Proceeds w₂ w₃) :
    Proceeds w₁ w₃ :=
  ⟨h.drifts.trans h'.drifts, h.order.trans h'.order⟩

theorem Proceeds.orderly (h : Proceeds w w') (horderly : w.Orderly) : w'.Orderly :=
  h.order.orderly horderly

theorem Stirs.proceeds (h : Stirs w w') : Proceeds w w' := ⟨h.drifts, h.keepsOrder⟩

theorem proceeds_modifyDispatch {f : Dispatch → Dispatch}
    (hf : ∀ call ∈ (f (w.session s).dispatch).pending, call ∈ (w.session s).dispatch.pending) :
    Proceeds w (w.modifyDispatch s f) := ⟨drifts_modifyDispatch w s f, keepsOrder_modifyDispatch hf⟩

theorem proceeds_report (w : World) (e : Event) : Proceeds w (w.report e) :=
  ⟨drifts_of_undisturbed (undisturbed_report w e) (Int.le_refl _) rfl fun _ => rfl,
    keepsOrder_of_parts (Nat.le_refl _) rfl rfl rfl fun _ _ hcall => hcall⟩

theorem proceeds_enqueue_resume (w : World) (task : Nat) (signal : Signal) :
    Proceeds w (w.enqueue (.resume task signal)) :=
  ⟨drifts_of_undisturbed (undisturbed_enqueue w _) (Int.le_refl _) rfl fun _ => rfl,
    keepsOrder_enqueue w nofun nofun⟩

theorem proceeds_enqueue_relay (w : World) (task : Nat) (signal : Signal) :
    Proceeds w (w.enqueue (.relay task signal)) :=
  ⟨drifts_of_undisturbed (undisturbed_enqueue w _) (Int.le_refl _) rfl fun _ => rfl,
    keepsOrder_enqueue w nofun nofun⟩

/-! ## Outcomes -/

/-- Pending calls are settled; someone waits for each of them. -/
theorem proceeds_settled (horderly : w.Orderly) {d : Dispatch} {settled : List (Call × Outcome)}
    (hpending : ∀ call ∈ d.pending, call ∈ (w.session s).dispatch.pending)
    (hsettled : ∀ p ∈ settled, p.1 ∈ (w.session s).dispatch.pending) :
    Proceeds w ((w.modifyDispatch s fun _ => d).deliverAll s settled) := by
  refine (proceeds_modifyDispatch hpending).trans
    ⟨drifts_deliverAll _ s settled, keepsOrder_deliverAll ?_ _ s⟩
  exact fun p hp => horderly.waiters s p.1 (hsettled p hp)

theorem proceeds_settleReply (horderly : w.Orderly) (s : Nat) (id : Option Int) (ok : Bool)
    (payload : List Value) : Proceeds w (w.settleReply s id ok payload) := by
  unfold World.settleReply Dispatch.settleReply
  cases hfind : (w.session s).dispatch.find? id with
  | none => exact proceeds_settled horderly (fun _ hcall => hcall) nofun
  | some call =>
    refine proceeds_settled horderly (fun _ hcall => (mem_filter.1 hcall).1) fun p hp => ?_
    obtain rfl := mem_singleton.1 hp
    unfold Dispatch.find? at hfind
    split at hfind
    · exact mem_of_find?_eq_some hfind
    · cases hfind

theorem proceeds_settlePending (horderly : w.Orderly) (s : Nat) (outage : Outage) :
    Proceeds w (w.settlePending s outage) := by
  refine proceeds_settled horderly nofun fun p hp => ?_
  obtain ⟨call, hcall, rfl⟩ := mem_map.1 hp
  exact hcall

/-! ## Requests -/

theorem isTidy_defaultReaction (tag : String) : (Host.defaultReaction tag).IsTidy := by
  unfold Host.defaultReaction
  split <;> exact ⟨rfl, rfl⟩

/-- Reactions that were tidy are tidy when they come, and so are those that are left. -/
theorem tidy_takeReaction (horderly : w.Orderly) (tag : String) :
    (w.host.takeReaction tag).1.IsTidy ∧
      ∀ other rs, (w.host.takeReaction tag).2.reactions.get? other = some rs →
      ∀ r ∈ rs, r.IsTidy := by
  unfold Host.takeReaction
  split
  · next r rest hget =>
    refine ⟨horderly.tidy tag _ hget r mem_cons_self, fun other rs hrs r' hr' => ?_⟩
    rw [Table.get?_set] at hrs
    split at hrs
    · obtain rfl := Option.some.inj hrs
      exact horderly.tidy tag _ hget r' (mem_cons_of_mem r hr')
    · exact horderly.tidy other rs hrs r' hr'
  · exact ⟨isTidy_defaultReaction tag, horderly.tidy⟩

/-- A process reacts to a request without writing files. -/
theorem proceeds_transmit (horderly : w.Orderly) (s c : Nat) (payload : String) :
    Proceeds w (w.transmit s c payload) := by
  unfold transmit
  dsimp only
  obtain ⟨htidy, hleft⟩ := tidy_takeReaction horderly (Host.requestTag (payload.toList ++ ['\n']))
  obtain ⟨reactions, htake⟩ := w.host.takeReaction_eq (Host.requestTag (payload.toList ++ ['\n']))
  generalize w.host.takeReaction (Host.requestTag (payload.toList ++ ['\n'])) = taken
    at htidy hleft htake
  obtain ⟨r, host⟩ := taken
  obtain rfl : host = { w.host with reactions := reactions } := htake
  let w₁ : World := { w with host := { w.host with
    reactions := reactions, sent := w.host.sent ++ [⟨c, String.ofList (Wire.frame payload)⟩] } }
  have hsent : Proceeds w w₁ := by
    refine ⟨drifts_of_undisturbed (undisturbed_of_parts rfl rfl rfl rfl) (Int.le_refl _) rfl
      fun _ => rfl, ?_⟩
    refine ⟨grows_of_ready (Nat.le_refl _) (Nat.le_refl _) rfl, fun _ => ?_⟩
    exact ⟨horderly.waiters, horderly.queue, hleft⟩
  have hfiles : w₁.updateFiles s r = w₁ := by
    unfold updateFiles
    rw [htidy.1, htidy.2]
    rfl
  refine hsent.trans ?_
  show Proceeds w₁ (((w₁.updateFiles s r).sendReaction c r _).concludeReaction c r)
  rw [hfiles]
  exact (stirs_reaction w₁ c r _).proceeds

end World

/-! ## The loops -/

namespace Tools

open Client Prog World

variable {α : Type} {s : Nat} {w : World}

/-- What loops keep to. -/
def background : Discipline World Await Unit where
  Step w _ w' _ := w.Orderly → Proceeds w w'
  Pause _ _ _ := True
  Wake _ _ _ _ _ _ := True

theorem proceeds_note {m : Message} {noted : Session}
    (h : (w.session s).notice w.host.cwd m = .ok noted) :
    Proceeds w (w.modifySession s fun _ => noted) := by
  have hpart : ∀ {κ : Type} (g : Session → κ), g noted.memory = g (w.session s).memory := fun g =>
    congrArg g (memory_notice h)
  have hpapers : noted.papers = (w.session s).papers := hpart Session.papers
  have hchild : noted.transport.child = (w.session s).transport.child :=
    hpart fun session => session.transport.child
  exact ⟨drifts_modifySession hpapers hchild, keepsOrder_modifySession (dispatch_notice h)⟩

theorem proceeds_pick (w : World) (s : Nat) :
    Proceeds w (w.modifyDispatch s fun _ => (w.session s).dispatch.takeOutbox.2) := by
  have hpending : (w.session s).dispatch.takeOutbox.2.pending = (w.session s).dispatch.pending := by
    unfold Dispatch.takeOutbox
    split <;> rfl
  exact proceeds_modifyDispatch fun call hcall => hpending ▸ hcall

theorem proceeds_of_serves {w' : World} (h : Client.Serves s w w')
    (horderly : w.Orderly) : Proceeds w w' := by
  cases h with
  | writes h =>
    cases h with
    | gentle h => exact ⟨drifts_of_gentle h, keepsOrder_of_gentle h⟩
    | pick => exact proceeds_pick w s
    | transmit c payload => exact proceeds_transmit horderly s c payload
    | outage o => exact proceeds_settlePending horderly s o
  | note h => exact proceeds_note h
  | report m => exact proceeds_report w _
  | reply id ok payload => exact proceeds_settleReply horderly s id ok payload

theorem background_serve (service : Service) : Obeys background (Client.serve service) :=
  obeys_serve (fun _ _ h => h.refine (fun _ _ hw => proceeds_of_serves hw) (fun _ _ _ => trivial)
    fun _ _ _ _ _ => trivial) service

end Tools

/-! ## Tasks and changes -/

namespace Machine

open World

theorem proceeds_enroll (w : World) (task : Nat) (on : Await) : Proceeds w (enroll w task on) := by
  unfold enroll
  cases on with
  | outcome s call => exact proceeds_modifyDispatch fun _ hcall => hcall
  | output c count => exact Stirs.proceeds (stirs_modifyChild w c fun _ hrunning => hrunning)
  | exit c => exact Stirs.proceeds (stirs_modifyChild w c fun _ hrunning => hrunning)
  | outbox s => exact proceeds_modifyDispatch fun _ hcall => hcall

theorem proceeds_giveUp (w : World) (task : Nat) (on : Await) : Proceeds w (giveUp w task on) := by
  unfold giveUp
  cases on with
  | outcome s call => exact proceeds_modifyDispatch fun _ hcall => hcall
  | output c count => exact Stirs.proceeds (stirs_modifyChild w c running_of_leave)
  | exit c => exact Stirs.proceeds (stirs_modifyChild w c fun _ hrunning => hrunning)
  | outbox s => exact proceeds_modifyDispatch fun _ hcall => hcall

theorem proceeds_acknowledge (w : World) (t : Task) : Proceeds w (acknowledge w t) := by
  unfold acknowledge
  split
  · exact Stirs.proceeds (stirs_modifyChild w _ running_of_leave)
  · exact .refl w

theorem proceeds_retire (w : World) (service : Service) : Proceeds w (retire w service) := by
  unfold retire
  cases service with
  | reader s => exact proceeds_modifyDispatch fun _ hcall => hcall
  | writer s => exact proceeds_modifyDispatch fun _ hcall => hcall

end Machine

namespace Change

/-- Time passes forward, and the processes to come write no files when they answer. -/
def IsTidy : Change → Prop
  | .elapse time => 0 ≤ time
  | .reactions table => ∀ e ∈ table, ∀ r ∈ e.2, r.IsTidy
  | _ => True

instance : (c : Change) → Decidable c.IsTidy
  | .elapse time => inferInstanceAs (Decidable (0 ≤ time))
  | .reactions table => inferInstanceAs (Decidable (∀ e ∈ table, ∀ r ∈ e.2, r.IsTidy))
  | .behaviours _ | .send .. | .release _ | .exit _ | .close | .writeFault _ | .writeFile
    .. | .deleteFile _
  | .makeDirectory _ => .isTrue trivial

end Change

end IdeMode
