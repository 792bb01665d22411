import IdeMode.Proofs.Session.Unedited
import IdeMode.Proofs.Storage.Paths
import IdeMode.Proofs.Text.Utf8
import IdeMode.Proofs.Tools.Waits
set_option autoImplicit false

/-!
# What a session knows, and what happened

A session counts a document as loaded only if the last load that it sent was of this document and
was answered well, and the document is as it was when the load was sent. The other way round, after
such a load the document counts as loaded until the session notices a change of it or loses the
process that answered.
-/

namespace IdeMode

open World List

/-! ## Paths and documents -/

/-- A path is known by its directory and its name in it. -/
theorem Path.eq_of_parent_name {p q : Path} (hp : p.IsNormal) (hq : q.IsNormal)
    (hparent : p.parent = q.parent) (hname : p.name = q.name) : p = q := by
  obtain ⟨ps⟩ := p
  obtain ⟨qs⟩ := q
  obtain rfl | ⟨ps, a, rfl⟩ := eq_nil_or_concat ps
  · obtain rfl | ⟨qs, b, rfl⟩ := eq_nil_or_concat qs
    · rfl
    · have hb : "" = b := by simpa [Path.name] using hname
      exact absurd hb.symm (hq b (by simp)).ne_empty
  · obtain rfl | ⟨qs, b, rfl⟩ := eq_nil_or_concat qs
    · have ha : a = "" := by simpa [Path.name] using hname
      exact absurd ha (hp a (by simp)).ne_empty
    · obtain rfl : ps = qs := by simpa [Path.parent] using hparent
      obtain rfl : a = b := by simpa [Path.name] using hname
      rfl

/-- Every document is watched, has a path in normal form, and is found under the text of its
path. -/
def Session.Filed (session : Session) : Prop :=
  ∀ d doc, session.documents[d]? = some doc → doc.watched = true ∧ doc.buffer.path.IsNormal ∧
    session.findDocument? doc.buffer.path.text = some d

theorem Session.Filed.unique {session : Session} (h : session.Filed) {d d' : Nat}
    {doc doc' : Document} (hd : session.documents[d]? = some doc)
    (hd' : session.documents[d']? = some doc') (hpath : doc.buffer.path = doc'.buffer.path) :
    d = d' :=
  Option.some.inj ((h d doc hd).2.2.symm.trans (hpath ▸ (h d' doc' hd').2.2))

theorem Session.parts_of_papers {session session' : Session}
    (h : session'.papers = session.papers) :
    session'.documents = session.documents ∧ session'.loaded = session.loaded ∧
      session'.dirty = session.dirty := by
  have hpart : ∀ {κ : Type} (g : Session → κ), g session'.papers = g session.papers :=
    fun g => congrArg g h
  exact ⟨hpart Session.documents, hpart Session.loaded, hpart Session.dirty⟩

theorem Session.Filed.of_eq {session session' : Session} (h : session.Filed)
    (hdocuments : session'.documents = session.documents) : session'.Filed := by
  unfold Session.Filed Session.findDocument? at h ⊢
  rwa [hdocuments]

namespace Tools

/-! ## Knowledge -/

/-- A process is lost to a session: it has exited, or is not the process of the session any more. -/
def Lost (session : Session) (host : Host) (c : Nat) : Prop :=
  c < host.children.length ∧ (host.isRunning c = true → session.transport.child ≠ some c)

/-- What counts as loaded was loaded last, and is as it was then. A carriage return in a text does
not survive on disk. -/
structure Backed (s : Nat) (h : List Pause) (d : Nat) (doc : Document) (x : Pause) : Prop where
  last : lastLoad s h = some x
  loads : x.Loads s doc.buffer.path
  answered : x.Answered s
  buffer_eq : (x.found.session s).buffer d = doc.buffer
  saved : '\r' ∉ doc.buffer.text → x.found.host.disk.readText doc.buffer.path = .ok doc.buffer.text

/-- A session counts nothing as loaded without reason. -/
structure Sound (s : Nat) (session : Session) (host : Host) (h : List Pause) : Prop where
  filed : session.Filed
  owned : ∀ c, session.transport.child = some c → c < host.children.length
  loaded : ∀ d, session.loaded = some d → ∃ doc x, session.documents[d]? = some doc ∧
    session.isDirty doc.buffer.path = false ∧ Backed s h d doc x

/-- A session forgets no load without reason. -/
def Complete (s : Nat) (session : Session) (host : Host) (h : List Pause) : Prop :=
  ∀ x, lastLoad s h = some x → x.Answered s →
    (∀ c, (x.left.session s).transport.child = some c → c < host.children.length) ∧
    ∃ d doc, session.documents[d]? = some doc ∧ x.Loads s doc.buffer.path ∧
      ((x.found.session s).buffer d).revision ≤ doc.buffer.revision ∧
      (session.loaded = some d ∨ ((x.found.session s).buffer d).revision < doc.buffer.revision ∨
        ∀ c, (x.left.session s).transport.child = some c → Lost session host c)

/-- What sessions know agrees with the history. -/
structure Known (w : World) (h : List Pause) : Prop where
  normal : w.host.cwd.IsNormal
  listed : ∀ name e, w.registry.entries.get? name = some e → e.session < w.sessions.length
  absent : ∀ s, w.sessions.length ≤ s → lastLoad s h = none
  sound : ∀ s, Sound s (w.session s) w.host h
  complete : ∀ s, Complete s (w.session s) w.host h

variable {w w' : World} {h h' : List Pause} {s d : Nat} {session session' : Session}
  {host host' : Host} {doc : Document}

theorem Sound.of_eq (hsound : Sound s session host h) (hpapers : session'.papers = session.papers)
    (howned : ∀ c, session'.transport.child = some c → c < host'.children.length)
    (hlast : lastLoad s h' = lastLoad s h) : Sound s session' host' h' := by
  obtain ⟨hdocuments, hloaded, hdirty⟩ := Session.parts_of_papers hpapers
  refine ⟨hsound.filed.of_eq hdocuments, howned, fun d hd => ?_⟩
  obtain ⟨doc, x, hdoc, hclean, hbacked⟩ := hsound.loaded d (hloaded ▸ hd)
  refine ⟨doc, x, hdocuments ▸ hdoc, ?_, hlast ▸ hbacked.last, hbacked.loads, hbacked.answered,
    hbacked.buffer_eq, hbacked.saved⟩
  unfold Session.isDirty at hclean ⊢
  rwa [hdirty]

theorem Complete.of_eq (hcomplete : Complete s session host h)
    (hpapers : session'.papers = session.papers)
    (hlength : host.children.length ≤ host'.children.length)
    (hlost : ∀ c, Lost session host c → Lost session' host' c)
    (hlast : lastLoad s h' = lastLoad s h) : Complete s session' host' h' := by
  obtain ⟨hdocuments, hloaded, -⟩ := Session.parts_of_papers hpapers
  intro x hx hanswered
  obtain ⟨hstarted, d, doc, hdoc, hloads, hrevision, hheld⟩ := hcomplete x (hlast ▸ hx) hanswered
  refine ⟨fun c hc => Nat.lt_of_lt_of_le (hstarted c hc) hlength, d, doc, hdocuments ▸ hdoc, hloads,
    hrevision, ?_⟩
  rw [hloaded]
  exact hheld.imp_right (Or.imp_right fun hall c hc => hlost c (hall c hc))

theorem lost_of_drifts (hdrifts : Drifts w w') {c : Nat} (hlost : Lost (w.session s) w.host c) :
    Lost (w'.session s) w'.host c := by
  refine ⟨Nat.lt_of_lt_of_le hlost.1 hdrifts.lasts.length_le, fun hrunning hchild => ?_⟩
  rcases hdrifts.child s c hchild with hchild | ⟨hle, -⟩
  · exact hlost.2 (hdrifts.lasts.running c hlost.1 hrunning) hchild
  · exact absurd hlost.1 (Nat.not_lt.2 hle)

theorem Sound.passed (hsound : Sound s (w.session s) w.host h) (hpassed : Passed w h w' h') :
    Sound s (w'.session s) w'.host h' := by
  refine hsound.of_eq (hpassed.drifts.papers_eq s) (fun c hc => ?_) (hpassed.lastLoad_eq s)
  rcases hpassed.drifts.child s c hc with hc | ⟨-, hlt⟩
  · exact Nat.lt_of_lt_of_le (hsound.owned c hc) hpassed.drifts.lasts.length_le
  · exact hlt

theorem Complete.passed (hcomplete : Complete s (w.session s) w.host h)
    (hpassed : Passed w h w' h') : Complete s (w'.session s) w'.host h' :=
  hcomplete.of_eq (hpassed.drifts.papers_eq s) hpassed.drifts.lasts.length_le
    (fun _ => lost_of_drifts hpassed.drifts) (hpassed.lastLoad_eq s)

/-- What only concerns processes and calls leaves knowledge as it is. -/
theorem Known.passed (hknown : Known w h) (hpassed : Passed w h w' h') : Known w' h' where
  normal := hpassed.drifts.cwd_eq.symm ▸ hknown.normal
  listed name e he := by
    rw [hpassed.drifts.registry_eq] at he
    rw [hpassed.drifts.length_eq]
    exact hknown.listed name e he
  absent s hs := (hpassed.lastLoad_eq s).trans (hknown.absent s (hpassed.drifts.length_eq ▸ hs))
  sound s := (hknown.sound s).passed hpassed
  complete s := (hknown.complete s).passed hpassed

theorem Known.drifts (hknown : Known w h) (hdrifts : Drifts w w') : Known w' h :=
  hknown.passed (.of_drifts hdrifts)

/-- One session changes. -/
theorem Known.modifySession (hknown : Known w h) {f : Session → Session}
    (hf : s < w.sessions.length → Sound s (f (w.session s)) w.host h ∧
      Complete s (f (w.session s)) w.host h) : Known (w.modifySession s f) h := by
  have hnew : ∀ t, Sound t ((w.modifySession s f).session t) w.host h ∧
      Complete t ((w.modifySession s f).session t) w.host h := by
    intro t
    rcases session_modifySession_cases (s := s) w f t with heq | ⟨⟨rfl, hs⟩, heq⟩
    · exact heq ▸ ⟨hknown.sound t, hknown.complete t⟩
    · exact heq ▸ hf hs
  refine ⟨hknown.normal, fun name e he => ?_, fun t ht => ?_, fun t => (hnew t).1,
    fun t => (hnew t).2⟩
  · rw [length_modifySession]
    exact hknown.listed name e he
  · rw [length_modifySession] at ht
    exact hknown.absent t ht

/-! ## Forgetting -/

theorem lost_of_not_running {c : Nat} (hc : c < w.host.children.length)
    (hidle : w.isRunning s = false) : Lost (w.session s) w.host c := by
  refine ⟨hc, fun hrunning hchild => ?_⟩
  unfold World.isRunning at hidle
  rw [hchild] at hidle
  exact Bool.noConfusion (hidle.symm.trans hrunning)

/-- A session without a running process may forget what was loaded. -/
theorem Known.forget (hknown : Known w h) (hidle : w.isRunning s = false) {f : Session → Session}
    (hloaded : ∀ session, (f session).loaded = none)
    (hdocuments : ∀ session, (f session).documents = session.documents)
    (hchild : ∀ session, (f session).transport.child = session.transport.child) :
    Known (w.modifySession s f) h := by
  refine hknown.modifySession fun _ => ⟨⟨(hknown.sound s).filed.of_eq (hdocuments _), ?_, ?_⟩, ?_⟩
  · intro c hc
    exact (hknown.sound s).owned c ((hchild _).symm.trans hc)
  · intro d hd
    cases (hloaded (w.session s)).symm.trans hd
  · intro x hx hanswered
    obtain ⟨hstarted, d, doc, hdoc, hloads, hrevision, -⟩ := hknown.complete s x hx hanswered
    refine ⟨hstarted, d, doc, (hdocuments _).symm ▸ hdoc, hloads, hrevision,
      .inr (.inr fun c hc => ?_)⟩
    have hlost := lost_of_not_running (s := s) (hstarted c hc) hidle
    exact ⟨hlost.1, fun hrunning hgiven => hlost.2 hrunning ((hchild _).symm.trans hgiven)⟩

/-! ## Changes of documents -/

theorem documents_setBuffer {b : Buffer} (hdoc : session.documents[d]? = some doc) (i : Nat) :
    (session.setBuffer d b).documents[i]? = if d = i then some { doc with buffer := b }
      else session.documents[i]? := by
  show (session.documents.modify d _)[i]? = _
  rw [List.getElem?_modify]
  by_cases hi : d = i
  · subst hi
    simp [hdoc]
  · simp [hi]

/-- A document that is taken over as it was. -/
theorem adopt_self (hdoc : session.documents[d]? = some doc) :
    session.adopt d doc.buffer = session := by
  have hdocuments : (session.setBuffer d doc.buffer).documents = session.documents := by
    refine ext_getElem? fun i => ?_
    rw [documents_setBuffer hdoc]
    split
    · next hi => exact hi ▸ hdoc.symm
    · rfl
  have hsame : session.setBuffer d doc.buffer = session := by
    show { session with documents := (session.setBuffer d doc.buffer).documents } = session
    rw [hdocuments]
  have hquiet : session.announces? d doc.buffer = none := by
    unfold Session.announces? Session.document?
    rw [hdoc, Option.bind_some, if_neg fun hchanged => hchanged.2 rfl]
  rw [Session.adopt_of_not_announces hquiet, hsame]

section Changed

variable {b : Buffer}

/-- A session takes over a changed buffer of a document that it watches. -/
theorem adopt_changed (hdoc : session.documents[d]? = some doc) (hwatched : doc.watched = true)
    (hrevision : doc.buffer.revision < b.revision) :
    session.adopt d b = (session.setBuffer d b).noteChange b.path := by
  refine Session.adopt_of_announces ?_
  unfold Session.announces? Session.document?
  rw [hdoc, Option.bind_some, if_pos ⟨hwatched, Nat.ne_of_lt hrevision⟩]

/-- Documents keep their names. -/
theorem findDocument?_setBuffer (session : Session) (d : Nat) (b : Buffer) (name : String) :
    (session.setBuffer d b).findDocument? name = session.findDocument? name := by
  have hnames : (session.setBuffer d b).documents.map Document.name =
      session.documents.map Document.name := by
    refine ext_getElem? fun i => ?_
    show ((session.documents.modify d _).map _)[i]? = _
    rw [List.getElem?_map, List.getElem?_map, List.getElem?_modify]
    cases session.documents[i]? with
    | none => rfl
    | some doc => by_cases hi : d = i <;> simp [hi]
  have hfind : ∀ docs : List Document, docs.findIdx? (fun doc => doc.name = name) =
      (docs.map Document.name).findIdx? fun n => n = name := by
    intro docs
    rw [List.findIdx?_map]
    rfl
  unfold Session.findDocument?
  rw [hfind, hfind, hnames]

theorem filed_setBuffer (hfiled : session.Filed) (hdoc : session.documents[d]? = some doc)
    (hpath : b.path = doc.buffer.path) : (session.setBuffer d b).Filed := by
  intro i found hi
  rw [findDocument?_setBuffer]
  rw [documents_setBuffer hdoc] at hi
  split at hi
  · next heq =>
    subst heq
    obtain rfl := Option.some.inj hi
    rw [show ({ doc with buffer := b } : Document).buffer.path = doc.buffer.path from hpath]
    exact hfiled d doc hdoc
  · exact hfiled i found hi

/-- What counts as loaded after a change is another document. -/
theorem Sound.adopt (hsound : Sound s session host h) (hdoc : session.documents[d]? = some doc)
    (hpath : b.path = doc.buffer.path) (hrevision : doc.buffer.revision < b.revision) :
    Sound s (session.adopt d b) host h := by
  have hwatched := (hsound.filed d doc hdoc).1
  rw [adopt_changed hdoc hwatched hrevision]
  have hdocuments := Session.documents_noteChange (session.setBuffer d b) b.path
  refine ⟨?_, fun c hc => hsound.owned c ?_, fun d' hd' => ?_⟩
  · exact (filed_setBuffer hsound.filed hdoc hpath).of_eq hdocuments
  · exact (congrArg (·.1.child) (link_noteChange (session.setBuffer d b) b.path)).symm.trans hc
  · obtain ⟨hloaded, hother⟩ := Session.loaded_noteChange hd'
    obtain ⟨doc', x, hdoc', hclean, hbacked⟩ := hsound.loaded d' hloaded
    have hne : d ≠ d' := by
      rintro rfl
      refine hother ?_
      rw [Session.buffer_eq ((documents_setBuffer hdoc d).trans (if_pos rfl))]
    have hkept : (session.setBuffer d b).documents[d']? = some doc' := by
      rw [documents_setBuffer hdoc, if_neg hne]
      exact hdoc'
    refine ⟨doc', x, (congrArg (·[d']?) hdocuments).trans hkept, ?_, hbacked⟩
    rw [Session.buffer_eq hkept] at hother
    rw [Session.isDirty_noteChange hother]
    exact hclean

/-- A change is noticed for good. -/
theorem Complete.adopt (hcomplete : Complete s session host h) (hfiled : session.Filed)
    (hdoc : session.documents[d]? = some doc) (hpath : b.path = doc.buffer.path)
    (hrevision : doc.buffer.revision < b.revision) : Complete s (session.adopt d b) host h := by
  rw [adopt_changed hdoc (hfiled d doc hdoc).1 hrevision]
  have hdocuments := Session.documents_noteChange (session.setBuffer d b) b.path
  intro x hx hanswered
  obtain ⟨hstarted, d', doc', hdoc', hloads, hle, hheld⟩ := hcomplete x hx hanswered
  refine ⟨hstarted, d', ?_⟩
  by_cases hne : d = d'
  · subst hne
    obtain rfl := Option.some.inj (hdoc.symm.trans hdoc')
    have hlt := Nat.lt_of_le_of_lt hle hrevision
    refine ⟨{ doc with buffer := b }, ?_, ?_, Nat.le_of_lt hlt, .inr (.inl hlt)⟩
    · rw [hdocuments, documents_setBuffer hdoc, if_pos rfl]
    · rw [hpath]
      exact hloads
  · have hkept : (session.setBuffer d b).documents[d']? = some doc' := by
      rw [documents_setBuffer hdoc, if_neg hne]
      exact hdoc'
    refine ⟨doc', (congrArg (·[d']?) hdocuments).trans hkept, hloads, hle, ?_⟩
    rcases hheld with hloaded | hchanged | hlost
    · -- the document that is loaded is another one, so it stays loaded
      refine .inl ?_
      have hother : (session.setBuffer d b).isLoaded b.path = false := by
        refine decide_eq_false fun hpaths => hne ?_
        have hsome : (session.setBuffer d b).loadedPath? = some doc'.buffer.path := by
          unfold Session.loadedPath?
          rw [show (session.setBuffer d b).loaded = some d' from hloaded, Option.map_some,
            Session.buffer_eq hkept]
        refine hfiled.unique hdoc hdoc' (hpath.symm.trans ?_)
        exact (Option.some.inj (hsome.symm.trans hpaths)).symm
      unfold Session.noteChange
      rw [hother]
      exact hloaded
    · exact .inr (.inl hchanged)
    · refine .inr (.inr fun c hc => ?_)
      have hlink := congrArg (·.1.child) (link_noteChange (session.setBuffer d b) b.path)
      exact ⟨(hlost c hc).1, fun hrunning hchild =>
        (hlost c hc).2 hrunning (hlink.symm.trans hchild)⟩

end Changed

/-- What comes of an operation on a buffer: it is the same, or a change of it is announced. -/
def Follows (b old : Buffer) : Prop := b = old ∨ b.path = old.path ∧ old.revision < b.revision

/-- Documents are read again and edited. -/
theorem Known.adopt (hknown : Known w h) {b : Buffer}
    (hdoc : (w.session s).documents[d]? = some doc)
    (hb : Follows b doc.buffer) : Known (w.modifySession s fun session => session.adopt d b) h := by
  refine hknown.modifySession fun _ => ?_
  obtain rfl | ⟨hpath, hrevision⟩ := hb
  · rw [adopt_self hdoc]
    exact ⟨hknown.sound s, hknown.complete s⟩
  · exact ⟨(hknown.sound s).adopt hdoc hpath hrevision,
      (hknown.complete s).adopt (hknown.sound s).filed hdoc hpath hrevision⟩

end Tools

end IdeMode
