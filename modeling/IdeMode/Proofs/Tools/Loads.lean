import IdeMode.Proofs.Tools.Knowledge
set_option autoImplicit false

/-!
# Loads keep what sessions know in order

Starting a process, moving it and loading a document change what a session knows of its compiler.
Each of them leaves knowledge in agreement with the history of waits.
-/

namespace IdeMode

open World

namespace World

variable {w w' : World} {s : Nat}

theorem modifySession_self {f : Session → Session} (h : f (w.session s) = w.session s) :
    w.modifySession s f = w := by
  have hsessions : w.sessions.modify s f = w.sessions := by
    refine List.ext_getElem? fun i => ?_
    rw [List.getElem?_modify]
    by_cases hi : s = i
    · subst hi
      cases hget : w.sessions[s]? with
      | none => rfl
      | some session =>
        unfold World.session at h
        rw [hget, Option.getD_some] at h
        simp [h]
    · simp [hi]
  unfold modifySession
  rw [hsessions]

/-- Documents and files are left as they are. -/
structure LeavesDocuments (w w' : World) : Prop where
  documents_eq : ∀ s, (w'.session s).documents = (w.session s).documents
  disk_eq : w'.host.disk = w.host.disk
  cwd_eq : w'.host.cwd = w.host.cwd

theorem LeavesDocuments.refl (w : World) : LeavesDocuments w w := ⟨fun _ => rfl, rfl, rfl⟩

theorem LeavesDocuments.trans {w₁ w₂ w₃ : World} (h : LeavesDocuments w₁ w₂)
    (h' : LeavesDocuments w₂ w₃) : LeavesDocuments w₁ w₃ :=
  ⟨fun s => (h'.documents_eq s).trans (h.documents_eq s), h'.disk_eq.trans h.disk_eq,
    h'.cwd_eq.trans h.cwd_eq⟩

theorem Drifts.leavesDocuments (h : Drifts w w') : LeavesDocuments w w' :=
  ⟨fun s => (Session.parts_of_papers (h.papers_eq s)).1, h.disk_eq, h.cwd_eq⟩

theorem leavesDocuments_modifySession {f : Session → Session}
    (hf : (f (w.session s)).documents = (w.session s).documents) :
    LeavesDocuments w (w.modifySession s f) :=
      ⟨session_modifySession_feature Session.documents hf, rfl, rfl⟩

theorem drifts_loadFault (w : World) (s : Nat) (p : Path) (f : Fault) :
    Drifts w (w.loadFault s p f).2 := by
  refine drifts_of_undisturbed (undisturbed_loadFault w s p f) ?_ ?_ ?_
  · unfold loadFault
    split <;> exact Int.le_refl _
  · unfold loadFault
    split <;> rfl
  · unfold loadFault
    split <;> exact fun _ => rfl

end World

namespace Tools

open Client Prog

variable {α β : Type} {w w' : World} {h h' : List Pause} {s d : Nat} {doc : Document}

/-- The file of a document holds its text, unless a carriage return was inserted in it. -/
def Saved (s d : Nat) (w : World) : Prop :=
  ∃ doc, (w.session s).documents[d]? = some doc ∧
    ('\r' ∉ doc.buffer.text → w.host.disk.readText doc.buffer.path = .ok doc.buffer.text)

theorem Saved.of_leaves (hsaved : Saved s d w) (hleaves : LeavesDocuments w w') : Saved s d w' := by
  obtain ⟨doc, hdoc, hread⟩ := hsaved
  exact ⟨doc, (hleaves.documents_eq s).symm ▸ hdoc, hleaves.disk_eq.symm ▸ hread⟩

/-! ## Programs that keep knowledge in order -/

/-- Where a condition holds, the program keeps knowledge in order and leaves documents and files as
they are. -/
def Minds (P : World → Prop) (p : Action α) : Prop :=
  ∀ w h, Known w h → P w → Safe following p (fun _ w' h' => Known w' h' ∧ LeavesDocuments w w') w h

/-- The program keeps knowledge in order. -/
def Keeps (p : Action α) : Prop :=
  ∀ w h, Known w h → Safe following p (fun _ w' h' => Known w' h' ∧ w'.host.cwd = w.host.cwd) w h

/-- The condition only depends on documents and files. -/
def Stable (P : World → Prop) : Prop := ∀ w w', LeavesDocuments w w' → P w → P w'

theorem stable_saved : Stable (Saved s d) := fun _ _ hleaves hsaved => hsaved.of_leaves hleaves

variable {P : World → Prop}

variable {p : Action α}

theorem minds_of_passes (hp : Passes p) : Minds P p := fun w h hknown _ =>
  (hp w h).mono fun _ _ _ hpassed => ⟨hknown.passed hpassed, hpassed.drifts.leavesDocuments⟩

theorem minds_bind (hP : Stable P) {f : α → Action β} (hp : Minds P p) (hf : ∀ a, Minds P (f a)) :
    Minds P (p >>= f) := by
  intro w h hknown hw
  refine Safe.bind ((hp w h hknown hw).mono fun r w' h' hend => ?_)
  cases r with
  | ok a =>
    exact (hf a w' h' hend.1 (hP w w' hend.2 hw)).mono
      fun _ _ _ hmore => ⟨hmore.1, hend.2.trans hmore.2⟩
  | error e => exact hend

theorem Minds.keeps (hp : Minds (fun _ => True) p) : Keeps p := fun w h hknown =>
  (hp w h hknown trivial).mono fun _ _ _ hend => ⟨hend.1, hend.2.cwd_eq⟩

protected theorem Keeps.of_passes (hp : Passes p) : Keeps p := (minds_of_passes hp).keeps

theorem Keeps.done (r : Result α) : Keeps (.done r) := .of_passes (.done r)

theorem Keeps.bind {f : α → Action β} (hp : Keeps p) (hf : ∀ a, Keeps (f a)) : Keeps (p >>= f) := by
  intro w h hknown
  refine Safe.bind ((hp w h hknown).mono fun r w' h' hend => ?_)
  cases r with
  | ok a => exact (hf a w' h' hend.1).mono fun _ _ _ hmore => ⟨hmore.1, hmore.2.trans hend.2⟩
  | error e => exact hend

theorem keeps_attempt (hp : Keeps p) : Keeps p.attempt :=
  fun w h hknown => Safe.attempt (hp w h hknown)

/-! ## Starting and moving -/

theorem minds_ensureRunning (s : Nat) : Minds P (ensureRunning s) := by
  intro w h hknown _
  refine safe_isRunning ?_
  cases hrunning : w.isRunning s with
  | true => exact ⟨hknown, .refl w⟩
  | false =>
    have hforgot : Known (w.modifySession s
        fun session => { session with loaded := none, cwd := none }) h :=
      hknown.forget hrunning (fun _ => rfl) (fun _ => rfl) fun _ => rfl
    refine Safe.modify_bind h ⟨rfl, keepsOrder_modifySession rfl⟩ ?_
    refine (Passes.bind (passes_start s startLimit)
      (fun message => Passes.done (.ok (some message))) _ h).mono ?_
    intro _ w' h' hpassed
    refine ⟨hforgot.passed hpassed, LeavesDocuments.trans ?_ hpassed.drifts.leavesDocuments⟩
    exact leavesDocuments_modifySession rfl

/-- After a move that succeeded the session knows where its compiler is. -/
theorem safe_switchDirectory (hknown : Known w h) (s : Nat) (p : Path) :
    Safe following (switchDirectory s p) (fun r w' h' => (Known w' h' ∧ LeavesDocuments w w') ∧
      ((∃ moved, r = .ok moved) → s < w'.sessions.length → (w'.session s).cwd = some p)) w h := by
  have htag : "interpret" ≠ "load-file" := by decide
  refine safe_session (safe_isRunning ?_)
  split
  · next hthere => exact ⟨⟨hknown, .refl w⟩, fun _ _ => hthere.1⟩
  · refine Safe.bind ((minds_ensureRunning (P := fun _ => True) s w h hknown trivial).mono
      fun r w₁ h₁ hrun => ?_)
    cases r with
    | error e => exact ⟨hrun, fun hok => (nomatch hok.choose_spec)⟩
    | ok _ =>
      refine safe_session ?_
      split
      · next hthere => exact ⟨hrun, fun _ _ => hthere⟩
      · refine Safe.bind ((passes_sessionCall htag s none w₁ h₁).mono fun r w₂ h₂ hpassed => ?_)
        have hend : Known w₂ h₂ ∧ LeavesDocuments w w₂ :=
          ⟨hrun.1.passed hpassed, hrun.2.trans hpassed.drifts.leavesDocuments⟩
        cases r with
        | error e => exact ⟨hend, fun hok => (nomatch hok.choose_spec)⟩
        | ok _ =>
          refine .modify_bind h₂ ⟨rfl, keepsOrder_modifySession rfl⟩
            ⟨⟨hend.1.drifts (drifts_modifySession rfl rfl), ?_⟩, fun _ hs => ?_⟩
          · exact hend.2.trans (leavesDocuments_modifySession rfl)
          · rw [length_modifySession] at hs
            rw [session_modifySession_self hs]

/-! ## Loading -/

theorem watch_self {session : Session} (hdoc : session.documents[d]? = some doc)
    (hwatched : doc.watched = true) : session.watch d = session := by
  have hdocuments : (session.documents.modify d fun doc => { doc with watched := true }) =
      session.documents := by
    refine List.ext_getElem? fun i => ?_
    rw [List.getElem?_modify]
    by_cases hi : d = i
    · subst hi
      obtain ⟨name, buffer, watched⟩ := doc
      obtain rfl : watched = true := hwatched
      simp [hdoc]
    · simp [hi]
  unfold Session.watch
  rw [hdocuments]

/-- The world in which a session counts nothing as loaded. -/
def cleared (w : World) (s : Nat) : World :=
  w.modifySession s fun session => { session with loaded := none }

theorem session_cleared_of_ne {t : Nat} (ht : t ≠ s) : (cleared w s).session t = w.session t :=
  session_modifySession_of_ne ht.symm w _

theorem leavesDocuments_cleared (w : World) (s : Nat) : LeavesDocuments w (cleared w s) :=
  leavesDocuments_modifySession rfl

/-- Up to the call: the session has moved its compiler to the directory, and counts nothing as
loaded. -/
theorem safe_beginLoad (hknown : Known w h) (hdoc : (w.session s).documents[d]? = some doc) :
    Safe following (beginLoad s d) (fun r w' h' =>
      match r with
      | .ok (command, generation) => ∃ w₀, Known w₀ h' ∧ LeavesDocuments w w₀ ∧ w' = cleared w₀ s ∧
        command = loadCommand doc.buffer.path ∧
          generation = (w'.session s).generation doc.buffer.path ∧
        (s < w'.sessions.length → (w'.session s).cwd = some doc.buffer.path.parent)
      | .error _ => Known w' h' ∧ LeavesDocuments w w') w h := by
  have hwatch : (w.modifySession s fun session => session.watch d) = w :=
    modifySession_self (watch_self hdoc ((hknown.sound s).filed d doc hdoc).1)
  have hreset : Drifts w (w.modifySession s
      fun session => session.resetWarnings (some doc.buffer.path)) :=
    drifts_modifySession rfl rfl
  refine .modify_bind h ⟨rfl, keepsOrder_modifySession rfl⟩ ?_
  rw [hwatch]
  refine safe_pathOf ?_
  rw [Session.buffer_eq hdoc]
  refine .modify_bind h ⟨rfl, keepsOrder_modifySession rfl⟩ ?_
  refine Safe.bind ((safe_switchDirectory (hknown.drifts hreset) s doc.buffer.path.parent).mono ?_)
  rintro r w₀ h₀ ⟨⟨hknown₀, hleaves⟩, hcwd⟩
  have hleaves₀ := hreset.leavesDocuments.trans hleaves
  cases r with
  | error e => exact ⟨hknown₀, hleaves₀⟩
  | ok moved =>
    refine .modify_bind h₀ ⟨rfl, keepsOrder_modifySession rfl⟩
      ⟨w₀, hknown₀, hleaves₀, rfl, rfl, rfl, fun hs => ?_⟩
    have hkept : ((cleared w₀ s).session s).cwd = (w₀.session s).cwd :=
      session_modifySession_feature Session.cwd rfl s
    exact hkept.trans (hcwd ⟨moved, rfl⟩ ((length_modifySession w₀ s _) ▸ hs))

/-- Knowledge is in order but for one session, which may have forgotten a load. -/
structure AlmostKnown (s : Nat) (w : World) (h : List Pause) : Prop where
  normal : w.host.cwd.IsNormal
  listed : ∀ name e, w.registry.entries.get? name = some e → e.session < w.sessions.length
  absent : ∀ t, w.sessions.length ≤ t → lastLoad t h = none
  sound : ∀ t, Sound t (w.session t) w.host h
  complete : ∀ t, t ≠ s → Complete t (w.session t) w.host h

theorem AlmostKnown.known (halmost : AlmostKnown s w h)
    (hcomplete : Complete s (w.session s) w.host h) : Known w h := by
  refine ⟨halmost.normal, halmost.listed, halmost.absent, halmost.sound, fun t => ?_⟩
  by_cases ht : t = s
  · exact ht ▸ hcomplete
  · exact halmost.complete t ht

/-- A load was waited for. -/
theorem Known.asked {p : Path} {x : Pause} (hknown : Known w h) (hs : s < w.sessions.length)
    (hx : Asks s (loadCommand p) (cleared w s) x) (hend : Drifts x.left w') :
    AlmostKnown s w' (h ++ [x]) ∧ lastLoad s (h ++ [x]) = some x ∧
      (w'.session s).loaded = none := by
  have hdrifts : Drifts (cleared w s) w' := (hx.found.trans hx.left).trans hend
  have hlast : lastLoad s (h ++ [x]) = some x := by
    obtain ⟨call, hissued, hcommand⟩ := hx.issued
    refine lastLoad_append_of_isLoad ?_
    unfold Pause.isLoad
    rw [hissued, Option.any_some, hcommand]
    rfl
  have hother : ∀ t, t ≠ s → lastLoad t (h ++ [x]) = lastLoad t h := by
    intro t ht
    refine lastLoad_append_of_not fun y hy => ?_
    obtain rfl := List.mem_singleton.1 hy
    exact hx.isLoad_of_ne ht
  have hnone : (w'.session s).loaded = none := by
    refine (Session.parts_of_papers (hdrifts.papers_eq s)).2.1.trans ?_
    unfold cleared
    rw [session_modifySession_self hs]
  have hlength : w'.sessions.length = w.sessions.length :=
    hdrifts.length_eq.trans (length_modifySession ..)
  have howned : ∀ t c, (w'.session t).transport.child = some c → c < w'.host.children.length := by
    intro t c hc
    rcases hdrifts.child t c hc with hc | ⟨-, hlt⟩
    · have hkept : ((cleared w s).session t).transport.child = (w.session t).transport.child :=
        session_modifySession_feature (fun session => session.transport.child) rfl t
      exact Nat.lt_of_lt_of_le ((hknown.sound t).owned c (hkept.symm.trans hc))
        hdrifts.lasts.length_le
    · exact hlt
  refine ⟨⟨hdrifts.cwd_eq.symm ▸ hknown.normal, fun name e he => ?_, fun t ht => ?_, fun t => ?_,
    fun t ht => ?_⟩, hlast, hnone⟩
  · rw [hdrifts.registry_eq] at he
    rw [hlength]
    exact hknown.listed name e he
  · have hts : t ≠ s := by omega
    rw [hother t hts]
    exact hknown.absent t (hlength ▸ ht)
  · by_cases hts : t = s
    · subst hts
      have hdocuments :=
        ((leavesDocuments_cleared w t).trans hdrifts.leavesDocuments).documents_eq t
      refine ⟨(hknown.sound t).filed.of_eq hdocuments, howned t, fun d hd => ?_⟩
      cases hnone.symm.trans hd
    · refine (hknown.sound t).of_eq ?_ (howned t) (hother t hts)
      exact (hdrifts.papers_eq t).trans (congrArg Session.papers (session_cleared_of_ne hts))
  · refine (hknown.complete t).of_eq ?_ hdrifts.lasts.length_le (fun c hlost => ?_) (hother t ht)
    · exact (hdrifts.papers_eq t).trans (congrArg Session.papers (session_cleared_of_ne ht))
    · refine lost_of_drifts hdrifts ?_
      rw [session_cleared_of_ne ht]
      exact hlost

/-- A load that was answered well is recorded: nothing was changed while it was under way. -/
theorem AlmostKnown.record {x : Pause} {generation : Nat} (halmost : AlmostKnown s w h)
    (hs : s < w.sessions.length) (hdoc : (w.session s).documents[d]? = some doc)
    (hgeneration : (w.session s).generation doc.buffer.path = generation)
    (hbacked : Backed s h d doc x)
    (hstarted : ∀ c, (x.left.session s).transport.child = some c → c < w.host.children.length) :
    Known (w.modifySession s fun session => session.recordLoad d generation) h := by
  have hrecord : (w.session s).recordLoad d generation = (w.session s).noteLoaded d := by
    unfold Session.recordLoad
    rw [Session.buffer_eq hdoc, if_pos hgeneration]
  have hsound : Sound s ((w.session s).noteLoaded d) w.host h := by
    refine ⟨(halmost.sound s).filed.of_eq rfl, (halmost.sound s).owned, fun d' hd' => ?_⟩
    obtain rfl := Option.some.inj hd'
    refine ⟨doc, x, hdoc, ?_, hbacked⟩
    show (((w.session s).dirty.set ((w.session s).buffer d).path false).get? doc.buffer.path).getD
      true = false
    rw [Session.buffer_eq hdoc, Table.get?_set, if_pos rfl]
    rfl
  have hcomplete : Complete s ((w.session s).noteLoaded d) w.host h := by
    intro y hy _
    obtain rfl := Option.some.inj (hbacked.last.symm.trans hy)
    exact ⟨hstarted, d, doc, hdoc, hbacked.loads,
      Nat.le_of_eq (congrArg Buffer.revision hbacked.buffer_eq), .inl rfl⟩
  have hother : ∀ t, t ≠ s →
      (w.modifySession s fun session => session.recordLoad d generation).session t = w.session t :=
    fun t ht => session_modifySession_of_ne ht.symm w _
  refine AlmostKnown.known (s := s) ⟨halmost.normal, fun name e he => ?_, fun t ht => ?_,
    fun t => ?_, fun t ht => ?_⟩ ?_
  · rw [length_modifySession]
    exact halmost.listed name e he
  · rw [length_modifySession] at ht
    exact halmost.absent t ht
  · by_cases ht : t = s
    · subst ht
      rw [session_modifySession_self hs, hrecord]
      exact hsound
    · rw [hother t ht]
      exact halmost.sound t
  · rw [hother t ht]
    exact halmost.complete t ht
  · rw [session_modifySession_self hs, hrecord]
    exact hcomplete

/-- Loads keep knowledge in order. -/
theorem minds_load (s d : Nat) : Minds (Saved s d) (load s d) := by
  intro w h hknown hsaved
  obtain ⟨doc, hdoc, hread⟩ := hsaved
  refine Safe.bind ((safe_beginLoad hknown hdoc).mono fun r w₁ h₁ hbegun => ?_)
  cases r with
  | error e => exact hbegun
  | ok begun =>
    obtain ⟨command, generation⟩ := begun
    obtain ⟨w₀, hknown₀, hleaves₀, rfl, rfl, rfl, hcwd⟩ := hbegun
    have hleaves₁ := hleaves₀.trans (leavesDocuments_cleared w₀ s)
    refine safe_session (Safe.bind (Safe.attempt (safe_call ?_ ?_)))
    · -- no process runs, so that nothing was sent
      intro hidle
      have hidle₀ : w₀.isRunning s = false := by
        have hkept : ((cleared w₀ s).session s).transport.child = (w₀.session s).transport.child :=
          session_modifySession_feature (fun session => session.transport.child) rfl s
        unfold World.isRunning at hidle ⊢
        rwa [hkept] at hidle
      have hforgot : Known (cleared w₀ s) h₁ :=
        hknown₀.forget hidle₀ (fun _ => rfl) (fun _ => rfl) fun _ => rfl
      exact ⟨h₁, ⟨rfl, .refl _⟩, hforgot, hleaves₁⟩
    · intro hrunning x r w₂ hx hend hr
      have hs₁ := length_of_isRunning hrunning
      have hs₀ : s < w₀.sessions.length := (length_modifySession w₀ s _) ▸ hs₁
      obtain ⟨halmost, hlast, -⟩ := hknown₀.asked hs₀ hx hend
      have hdrifts := (hx.found.trans hx.left).trans hend
      have hleaves₂ := hleaves₁.trans hdrifts.leavesDocuments
      have hdoc₂ : (w₂.session s).documents[d]? = some doc := (hleaves₂.documents_eq s).symm ▸ hdoc
      cases r with
      | error f =>
        have hknown₂ : Known w₂ (h₁ ++ [x]) := by
          refine halmost.known fun y hy hanswered => ?_
          obtain rfl := Option.some.inj (hlast.symm.trans hy)
          cases (hr.2 hanswered).choose_spec
        have hfault := drifts_loadFault w₂ s ((w₂.session s).buffer d).path f
        exact ⟨_, ⟨rfl, keepsOrder_loadFault _ _ _ _⟩, hknown₂.drifts hfault,
          hleaves₂.trans hfault.leavesDocuments⟩
      | ok a =>
        have hleavesx := hleaves₁.trans hx.found.leavesDocuments
        have hbacked : Backed s (h₁ ++ [x]) d doc x := by
          refine ⟨hlast, ⟨hx.issued, hx.cwd_eq.trans (hcwd hs₁)⟩, hr.1 ⟨a, rfl⟩, ?_,
            fun hplain => ?_⟩
          · exact Session.buffer_eq ((hleavesx.documents_eq s).symm ▸ hdoc)
          · rw [hleavesx.disk_eq]
            exact hread hplain
        have hgeneration : (w₂.session s).generation doc.buffer.path =
            ((cleared w₀ s).session s).generation doc.buffer.path := by
          have hpart : ∀ g : Session → Table Path Nat,
              g (w₂.session s).papers = g ((cleared w₀ s).session s).papers :=
            fun g => congrArg g (hdrifts.papers_eq s)
          unfold Session.generation
          rw [show (w₂.session s).generations = ((cleared w₀ s).session s).generations
            from hpart Session.generations]
        have hstarted : ∀ c, (x.left.session s).transport.child = some c →
            c < w₂.host.children.length := by
          intro c hc
          have hsound := (hknown₀.asked hs₀ hx (.refl x.left)).1.sound s
          exact Nat.lt_of_lt_of_le (hsound.owned c hc) hend.lasts.length_le
        refine .modify_bind _ ⟨rfl, keepsOrder_modifySession (World.dispatch_recordLoad _ d _)⟩
          ⟨?_, ?_⟩
        · exact halmost.record (hdrifts.length_eq ▸ hs₁) hdoc₂ hgeneration hbacked hstarted
        · exact hleaves₂.trans (leavesDocuments_modifySession (Session.documents_recordLoad _ d _))

theorem minds_ensureLoaded (s d : Nat) : Minds (Saved s d) (ensureLoaded s d) := by
  refine minds_bind stable_saved (minds_of_passes (.session s)) fun session => ?_
  refine minds_bind stable_saved (minds_of_passes (.bind (.session s) fun _ => .done _)) fun p => ?_
  split
  · exact minds_of_passes (.done _)
  · exact minds_bind stable_saved (minds_load s d) fun _ => minds_of_passes (.done _)

end Tools

end IdeMode
