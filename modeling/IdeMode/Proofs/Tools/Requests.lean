import IdeMode.Proofs.Tools.Desks
set_option autoImplicit false

/-!
# Every tool keeps what sessions know in order

At its desk a tool loads the document, asks the compiler and edits the document. Whatever a tool
does and however it ends, what sessions know agrees with the history of waits.
-/

namespace IdeMode

/-- A text without carriage returns is read as it was written. -/
theorem Disk.readText_writeText {disk disk' : Disk} {p : Path} {cs : List Char}
    (h : disk.writeText p cs = .ok disk') (hcs : '\r' ∉ cs) : disk'.readText p = .ok cs := by
  have hdecoded : Text.Utf8.decode? (Text.Utf8.encode cs) = some cs :=
    Text.Utf8.decodeFrom?_encode cs
  unfold readText read
  rw [file?_write h, if_pos rfl]
  dsimp only
  rw [hdecoded]
  dsimp only
  rw [Text.normalizeNewlines_of_not_mem hcs]

namespace Tools

open Client Prog World

variable {α β : Type} {w w' : World} {h h' : List Pause} {s d : Nat}

/-! ## At a document -/

/-- At a document whose file holds its text, the program keeps knowledge in order and leaves it
so. -/
def Serves (s d : Nat) (p : Action α) : Prop :=
  ∀ w h, Known w h → Saved s d w →
    Safe following p (fun _ w' h' => (Known w' h' ∧ w'.host.cwd = w.host.cwd) ∧ Saved s d w') w h

variable {p : Action α}

theorem Minds.serves (hp : Minds (Saved s d) p) : Serves s d p := fun w h hknown hsaved =>
  (hp w h hknown hsaved).mono fun _ _ _ hend => ⟨⟨hend.1, hend.2.cwd_eq⟩, hsaved.of_leaves hend.2⟩

theorem serves_of_passes (hp : Passes p) : Serves s d p := (minds_of_passes hp).serves

theorem serves_done (r : Result α) : Serves s d (.done r) := serves_of_passes (.done r)

theorem serves_bind {f : α → Action β} (hp : Serves s d p) (hf : ∀ a, Serves s d (f a)) :
    Serves s d (p >>= f) := by
  intro w h hknown hsaved
  refine Safe.bind ((hp w h hknown hsaved).mono fun r w' h' hend => ?_)
  cases r with
  | ok a =>
    exact (hf a w' h' hend.1.1 hend.2).mono
      fun _ _ _ hmore => ⟨⟨hmore.1.1, hmore.1.2.trans hend.1.2⟩, hmore.2⟩
  | error e => exact hend

/-! ## Edits -/

theorem Known.modifyDisk (hknown : Known w h) (disk : Disk) :
    Known { w with host := { w.host with disk := disk } } h where
  normal := hknown.normal
  listed := hknown.listed
  absent := hknown.absent
  sound s := (hknown.sound s).of_eq rfl (hknown.sound s).owned rfl
  complete s :=
    (hknown.complete s).of_eq rfl (Nat.le_refl _) (fun _ hlost => ⟨hlost.1, hlost.2⟩) rfl

theorem keepsOrder_modifyDisk (w : World) (disk : Disk) :
    KeepsOrder w { w with host := { w.host with disk := disk } } :=
  keepsOrder_of_parts (Nat.le_refl _) rfl rfl rfl fun _ _ hcall => hcall

/-- An edit is announced, and the file holds the new text. -/
theorem serves_applyEdit (s d : Nat) (e : Editor) (start finish : Int) (text : String) :
    Serves s d (applyEdit s d e start finish text) := by
  intro w h hknown hsaved
  obtain ⟨doc, hdoc, hread⟩ := hsaved
  refine safe_session (.get (.ofResult_bind ?_ fun _ _ => ⟨⟨hknown, rfl⟩, doc, hdoc, hread⟩))
  rintro ⟨fields, b, disk⟩ hinsert
  obtain ⟨inserted, hreplaced⟩ := Editor.exists_replace hinsert
  rw [Session.buffer_eq hdoc] at hreplaced
  obtain ⟨-, hb, hwrite⟩ := Buffer.replace_eq_ok hreplaced
  have hfollows : Follows b doc.buffer := .inr (hb ▸ ⟨rfl, Nat.lt_succ_self _⟩)
  have hpath : b.path = doc.buffer.path := hb ▸ rfl
  refine ⟨h, ⟨rfl, keepsOrder_modifyDisk w disk⟩, h,
    ⟨rfl, keepsOrder_modifySession (dispatch_adopt _ d b)⟩, ⟨?_, rfl⟩, ?_⟩
  · exact (hknown.modifyDisk disk).adopt hdoc hfollows
  · have hs : s < w.sessions.length := by
      refine Nat.lt_of_not_le fun hle => ?_
      rw [World.session, List.getElem?_eq_none hle] at hdoc
      cases hdoc
    refine ⟨{ doc with buffer := b }, ?_, fun hplain => ?_⟩
    · show ((w.modifySession s fun session => session.adopt d b).session s).documents[d]? = _
      rw [session_modifySession_self hs, Session.documents_adopt, List.getElem?_modify, hdoc]
      simp
    · rw [hpath]
      exact Disk.readText_writeText hwrite hplain

/-- Commands at a document. -/
theorem serves_of_handles {b b' : Bool} (h : Handles s d b b' p) : Serves s d p := by
  have hother : "load-file" ∉ Command.scopedTags ∧ Command.completionTag ≠ "load-file" := by decide
  induction h with
  | done r => exact serves_done r
  | fault f => exact serves_done (.error f)
  | bind hp hf ihp ihf => exact serves_bind ihp ihf
  | relax hp ih => exact ih
  | look => exact serves_of_passes .get
  | ask htag =>
    exact serves_of_passes (passes_sessionCall (fun hload => hother.1 (hload ▸ htag)) s none)
  | suggest htag => exact serves_of_passes (passes_sessionCall (htag ▸ hother.2) s none)
  | ensureLoaded => exact (minds_ensureLoaded s d).serves
  | load => exact (minds_load s d).serves
  | edit e start finish text => exact serves_applyEdit s d e start finish text

/-! ## Tools -/

theorem Keeps.of_isOnFile {file name : String} {p : Action Answer}
    (hp : ToolRequest.IsOnFile file name p) : Keeps p := by
  obtain ⟨α, action, present, b, b', rfl, haction, hpresent⟩ := hp
  refine .bind ?_ fun _ => .done _
  intro w h hknown
  refine Safe.bind (Safe.attempt ((safe_desk hknown file name).mono fun r w₁ h₁ hdesk => ?_))
  obtain ⟨⟨hknown₁, hcwd₁⟩, hat⟩ := hdesk
  have hshow : ∀ {p : Action String}, Looks p → ∀ {w₂ h₂}, Known w₂ h₂ → w₂.host.cwd = w.host.cwd →
      Safe following p (fun _ w' h' => Known w' h' ∧ w'.host.cwd = w.host.cwd) w₂ h₂ :=
    fun hp _ _ hknown₂ hcwd =>
      (Keeps.of_passes (passes_of_looks hp) _ _ hknown₂).mono
        fun _ _ _ hend => ⟨hend.1, hend.2.trans hcwd⟩
  cases r with
  | error f => exact hshow (.shown file none f) hknown₁ hcwd₁
  | ok k =>
    have hserves := serves_of_handles (haction k) w₁ h₁ hknown₁ (hat k rfl).1.saved
    refine Safe.bind (Safe.attempt (hserves.mono fun r w₂ h₂ hserved => ?_))
    obtain ⟨⟨hknown₂, hcwd₂⟩, -⟩ := hserved
    cases r with
    | error f => exact hshow (.shown file _ f) hknown₂ (hcwd₂.trans hcwd₁)
    | ok a => exact hshow (hpresent k a) hknown₂ (hcwd₂.trans hcwd₁)

theorem keeps_ensureRunning (s : Nat) : Keeps (ensureRunning s) := (minds_ensureRunning s).keeps

theorem keeps_switchDirectory (s : Nat) (p : Path) : Keeps (switchDirectory s p) := by
  intro w h hknown
  exact (safe_switchDirectory hknown s p).mono fun _ _ _ hend => ⟨hend.1.1, hend.1.2.cwd_eq⟩

theorem keeps_startIn (name : String) (e : Entry) (p : Path) : Keeps (startIn name e p) := by
  refine .bind (keeps_attempt ?_) fun outcome => ?_
  · refine .bind (keeps_ensureRunning _) fun message => ?_
    exact .bind (keeps_switchDirectory _ p) fun _ => .done _
  · split
    · exact .done _
    · split <;> exact .done _

theorem keeps_evaluated (s : Nat) (expression : String) (limit : Duration) :
    Keeps (evaluated s expression limit) := by
  have htag : "interpret" ≠ "load-file" := by decide
  have houtput : ∀ t, Passes (modifySession t fun session => { session with output := [] }) :=
    fun t => passes_modifySession (fun _ => rfl) (fun _ => rfl) fun _ => rfl
  refine .bind (keeps_attempt ?_) fun outcome => ?_
  · refine .bind (keeps_ensureRunning _) fun _ => .of_passes ?_
    exact .bind (houtput _) fun _ => passes_sessionCall htag _ _
  · split
    · split
      · exact .of_passes (passes_of_looks (.faultText _ _))
      · exact .done _
    · exact .of_passes (.bind (.session _) fun session => .bind (houtput _) fun _ => .done _)

/-- Every tool keeps knowledge in order. -/
theorem keeps_action (request : ToolRequest) : Keeps request.action :=
  .of_manages (.action request keeps_startIn keeps_evaluated
    (fun t => .of_passes (passes_attempt (passes_of_gentle (gentle_interrupt t))))
    fun _ _ => .of_isOnFile)

end Tools

end IdeMode
