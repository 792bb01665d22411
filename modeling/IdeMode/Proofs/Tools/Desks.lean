import IdeMode.Proofs.Tools.Loads
set_option autoImplicit false

/-!
# Sessions and documents at hand

Sessions are made, looked up and stopped; files are opened and read again. All of this keeps what
sessions know in agreement with the history of waits, and a tool that has a desk has the text of its
file at hand.
-/

namespace IdeMode

open List

namespace Tools

open Client Prog World

variable {α β : Type} {w w' : World} {h h' : List Pause} {s d : Nat} {doc : Document}

/-! ## Sessions -/

theorem keepsOrder_registry (w : World) (r : Registry) : KeepsOrder w { w with registry := r } :=
  keepsOrder_of_parts (Nat.le_refl _) rfl rfl rfl fun _ _ hcall => hcall

theorem Known.modifyRegistry (hknown : Known w h) {r : Registry}
    (hr : ∀ name e, r.entries.get? name = some e → e.session < w.sessions.length) :
    Known { w with registry := r } h :=
  ⟨hknown.normal, hr, hknown.absent, hknown.sound, hknown.complete⟩

/-- A change of the registry that gives no session a name. -/
theorem keeps_modifyRegistry {f : Registry → Registry}
    (hf : ∀ r name e, (f r).entries.get? name = some e →
      ∃ e', r.entries.get? name = some e' ∧ e.session = e'.session) : Keeps (modifyRegistry f) := by
  intro w h hknown
  refine ⟨h, ⟨rfl, keepsOrder_registry _ _⟩, hknown.modifyRegistry fun name e he => ?_, rfl⟩
  obtain ⟨e', he', hsession⟩ := hf w.registry name e he
  exact hsession ▸ hknown.listed name e' he'

/-- A session whose process was stopped forgets what was loaded. -/
theorem keeps_close (s : Nat) : Keeps (close s) := by
  refine .bind (.of_passes (passes_discard s)) fun _ => ?_
  intro w h hknown
  refine Safe.bind ((safe_stop s w h).mono fun r w₁ h₁ hstopped => ?_)
  obtain ⟨hpassed, hidle⟩ := hstopped
  have hknown₁ := hknown.passed hpassed
  cases r with
  | error e => exact ⟨hknown₁, hpassed.drifts.cwd_eq⟩
  | ok a =>
    refine ⟨h₁, ⟨rfl, keepsOrder_modifySession rfl⟩, ?_, hpassed.drifts.cwd_eq⟩
    exact hknown₁.forget (hidle ⟨a, rfl⟩) (fun _ => rfl) (fun _ => rfl) fun _ => rfl

theorem session_addSession (w : World) (new : Session) (t : Nat) :
    (w.addSession new).2.session t = if t = w.sessions.length then new else w.session t := by
  unfold World.addSession World.session
  rw [List.getElem?_append]
  split
  · next hlt => rw [if_neg (Nat.ne_of_lt hlt)]
  · next hge =>
    by_cases heq : t = w.sessions.length
    · rw [if_pos heq, heq, Nat.sub_self]
      rfl
    · have hbeyond : w.sessions.length < t := by omega
      rw [if_neg heq, List.getElem?_eq_none (Nat.le_of_lt hbeyond), List.getElem?_eq_none]
      simp only [length_singleton]
      omega

theorem keepsOrder_addSession (w : World) {new : Session} (hpending : new.dispatch.pending = []) :
    KeepsOrder w (w.addSession new).2 := by
  have hlength : (w.addSession new).2.sessions.length = w.sessions.length + 1 := length_append
  refine keepsOrder_of_parts (hlength ▸ Nat.le_succ _) rfl rfl rfl fun t call hcall => ?_
  rw [session_addSession] at hcall
  split at hcall
  · rw [hpending] at hcall
    cases hcall
  · exact hcall

/-- A new session knows nothing. -/
theorem Known.addSession (hknown : Known w h) {new : Session} (hdocuments : new.documents = [])
    (hloaded : new.loaded = none) (hchild : new.transport.child = none) :
    Known (w.addSession new).2 h := by
  have hlength : (w.addSession new).2.sessions.length = w.sessions.length + 1 := length_append
  refine ⟨hknown.normal, fun name e he => ?_, fun t ht => ?_, fun t => ?_, fun t => ?_⟩
  · exact hlength ▸ Nat.lt_succ_of_lt (hknown.listed name e he)
  · rw [hlength] at ht
    exact hknown.absent t (Nat.le_of_succ_le ht)
  · rw [session_addSession]
    split
    · refine ⟨?_, ?_, ?_⟩
      · intro d doc hdoc
        rw [hdocuments] at hdoc
        cases hdoc
      · intro c hc
        cases hchild.symm.trans hc
      · intro d hd
        cases hloaded.symm.trans hd
    · exact hknown.sound t
  · rw [session_addSession]
    split
    · next heq =>
      intro x hx
      cases (hknown.absent t (Nat.le_of_eq heq.symm)).symm.trans hx
    · exact hknown.complete t

/-- The session that a name stands for, and that exists. -/
def Names (w : World) (name : String) (s : Nat) : Prop :=
  s < w.sessions.length ∧ (w.registry.entries.get? name).map Entry.session = some s

/-- The session of a name was looked up or made. -/
def Gives (w : World) (name : String) (r : Result Entry) (w' : World) (h' : List Pause) : Prop :=
  (Known w' h' ∧ w'.host.cwd = w.host.cwd) ∧ ∀ e, r = .ok e → Names w' name e.session

theorem safe_openSession (hknown : Known w h) (name : String) (directory : Path)
    (environment : Option (List (String × String))) :
    Safe following (openSession name directory environment)
      (fun r w' h' => Gives w name r w' h') w h := by
  refine .get ⟨h, ⟨rfl, keepsOrder_addSession w rfl⟩, h, ⟨rfl, keepsOrder_registry _ _⟩,
    ⟨?_, rfl⟩, ?_⟩
  · refine (hknown.addSession rfl rfl rfl).modifyRegistry fun other e he => ?_
    rw [Table.get?_set] at he
    split at he
    · cases he
      simp [World.addSession]
    · have hlisted := hknown.listed other e he
      simp only [World.addSession, length_append, length_singleton]
      omega
  · rintro e ⟨⟩
    refine ⟨by simp, ?_⟩
    rw [Table.get?_set, if_pos rfl]
    rfl

theorem passes_of_looks {p : Action α} (hp : Looks p) : Passes p :=
  passes_of_gentle (t := 0) hp.obeys

protected theorem Keeps.of_manages {p : Action α}
    (hp : Manages (fun _ p => Keeps p) p) : Keeps p := by
  induction hp with
  | work hp => exact hp
  | looks hp => exact .of_passes (passes_of_looks hp)
  | bind hp hf ihp ihf => exact .bind ihp ihf
  | registry hf => exact keeps_modifyRegistry hf
  | enter name directory environment =>
    exact fun _ _ hknown =>
      (safe_openSession hknown name directory environment).mono fun _ _ _ hgives => hgives.1
  | close t => exact keeps_close t

theorem safe_entryFor (hknown : Known w h) (name : String) (directory : Option Path) :
    Safe following (entryFor name directory) (fun r w' h' => Gives w name r w' h') w h := by
  have hused : ∀ (e : Entry) (w₁ : World) h₁, Known w₁ h₁ → w₁.host.cwd = w.host.cwd →
    Names w₁ name e.session →
      Safe following (touch name e) (fun r w' h' => Gives w name r w' h') w₁ h₁ := by
    intro e w₁ h₁ hknown₁ hcwd he
    refine ⟨h₁, ⟨rfl, keepsOrder_registry _ _⟩,
      ⟨hknown₁.modifyRegistry fun other found hfound => ?_, hcwd⟩, ?_⟩
    · rw [Table.get?_update] at hfound
      split at hfound
      · obtain ⟨old, hold, rfl⟩ := Option.map_eq_some_iff.1 hfound
        exact hknown₁.listed other old hold
      · exact hknown₁.listed other found hfound
    · rintro _ ⟨⟩
      refine ⟨he.1, ?_⟩
      rw [Table.get?_update, if_pos rfl, Option.map_map]
      exact he.2
  refine Safe.bind ((Keeps.of_manages .prune w h hknown).mono fun r w₁ h₁ hpruned => ?_)
  cases r with
  | error e => exact ⟨hpruned, nofun⟩
  | ok _ =>
    refine .get ?_
    dsimp only [pure_bind]
    split
    · next e hfound =>
      exact hused e w₁ h₁ hpruned.1 hpruned.2
        ⟨hpruned.1.listed name e hfound, congrArg (Option.map Entry.session) hfound⟩
    · refine .get (Safe.bind ((safe_openSession hpruned.1 name _ none).mono
        fun r w₂ h₂ hgives => ?_))
      cases r with
      | error e => exact ⟨⟨hgives.1.1, hgives.1.2.trans hpruned.2⟩, nofun⟩
      | ok e => exact hused e w₂ h₂ hgives.1.1 (hgives.1.2.trans hpruned.2) (hgives.2 e rfl)

/-! ## Documents -/

/-- A document is at hand: its text is what its file holds. -/
def AtHand (s d : Nat) (p : Path) (w : World) : Prop :=
  s < w.sessions.length ∧ ∃ doc, (w.session s).documents[d]? = some doc ∧ doc.buffer.path = p ∧
    w.host.disk.readText p = .ok doc.buffer.text

variable {p : Path} {b : Buffer}

theorem AtHand.saved (hat : AtHand s d p w) : Saved s d w := by
  obtain ⟨-, doc, hdoc, rfl, hread⟩ := hat
  exact ⟨doc, hdoc, fun _ => hread⟩

theorem reread_eq_ok {b' : Buffer} {disk : Disk} {changed : Bool}
    (h : b.reread disk = .ok (changed, b')) :
    Follows b' b ∧ b'.path = b.path ∧ disk.readText b.path = .ok b'.text := by
  unfold Buffer.reread at h
  split at h
  · cases h
  · next text hread =>
    split at h
    · next hsame =>
      cases h
      exact ⟨.inl rfl, rfl, hsame ▸ hread⟩
    · cases h
      exact ⟨.inr ⟨rfl, Nat.lt_succ_self _⟩, rfl, hread⟩

theorem safe_reread (hknown : Known w h) (hs : s < w.sessions.length)
    (hdoc : (w.session s).documents[d]? = some doc) :
    Safe following (reread s d) (fun r w' h' => (Known w' h' ∧ w'.host.cwd = w.host.cwd) ∧
      ∀ changed, r = .ok changed → AtHand s d doc.buffer.path w' ∧ w'.registry = w.registry) w
      h := by
  refine safe_session (.get (.ofResult_bind ?_ fun _ _ => ⟨⟨hknown, rfl⟩, nofun⟩))
  rintro ⟨changed, b⟩ hread
  rw [Session.buffer_eq hdoc] at hread
  obtain ⟨hfollows, hpath, htext⟩ := reread_eq_ok hread
  refine ⟨h, ⟨rfl, keepsOrder_modifySession (dispatch_adopt _ d b)⟩,
    ⟨hknown.adopt hdoc hfollows, rfl⟩,
    fun _ _ => ⟨⟨?_, { doc with buffer := b }, ?_, hpath, htext⟩, rfl⟩⟩
  · exact (length_modifySession w s _).symm ▸ hs
  · rw [session_modifySession_self hs, Session.documents_adopt, List.getElem?_modify, hdoc]
    simp

/-- A session with one more document, which it watches. -/
def opened (session : Session) (name : String) (b : Buffer) : Session :=
  { session with documents := session.documents ++ [⟨name, b, true⟩] }

theorem watch_addDocument (session : Session) (name : String) (b : Buffer) :
    (session.addDocument name b).2.watch session.documents.length = opened session name b := by
  have hdocuments : ((session.documents ++ [({ name := name, buffer := b } : Document)]).modify
    session.documents.length
      fun doc => { doc with watched := true }) = session.documents ++ [⟨name, b, true⟩] := by
    refine ext_getElem? fun i => ?_
    rw [List.getElem?_modify, List.getElem?_append, List.getElem?_append]
    by_cases hi : i < session.documents.length
    · simp [hi, Nat.ne_of_gt hi]
    · by_cases heq : session.documents.length = i
      · subst heq
        simp
      · obtain ⟨k, rfl⟩ : ∃ k, i = session.documents.length + k + 1 :=
          ⟨i - session.documents.length - 1, by omega⟩
        simp [Nat.add_assoc]
  unfold Session.watch Session.addDocument opened
  rw [hdocuments]

theorem findDocument?_opened {session : Session} (hnone : session.findDocument? p.text = none) :
    (opened session p.text b).findDocument? p.text = some session.documents.length := by
  unfold Session.findDocument? opened at *
  rw [List.findIdx?_append, hnone]
  simp

theorem filed_opened {session : Session} (hfiled : session.Filed) (hp : p.IsNormal)
    (hpath : b.path = p) (hnone : session.findDocument? p.text = none) :
    (opened session p.text b).Filed := by
  intro i found hi
  rcases Nat.lt_or_ge i session.documents.length with hlt | hge
  · have hold : session.documents[i]? = some found := (List.getElem?_append_left hlt).symm.trans hi
    obtain ⟨hwatched, hnormal, hfind⟩ := hfiled i found hold
    refine ⟨hwatched, hnormal, ?_⟩
    unfold Session.findDocument? opened at *
    rw [List.findIdx?_append, hfind]
    rfl
  · obtain rfl : i = session.documents.length := by
      have hlt := (List.getElem?_eq_some_iff.1 hi).1
      simp only [opened, length_append, length_singleton] at hlt
      omega
    obtain rfl : ⟨p.text, b, true⟩ = found := by simpa [opened] using hi
    exact ⟨rfl, hpath.symm ▸ hp, hpath.symm ▸ findDocument?_opened hnone⟩

/-- A document that is opened is not loaded. -/
theorem Known.opened (hknown : Known w h) (hp : p.IsNormal) (hpath : b.path = p)
    (hnone : (w.session s).findDocument? p.text = none) :
    Known (w.modifySession s fun _ => opened (w.session s) p.text b) h := by
  have hkept : ∀ i doc, (w.session s).documents[i]? = some doc →
      (Tools.opened (w.session s) p.text b).documents[i]? = some doc := fun i doc hi =>
    (List.getElem?_append_left (List.getElem?_eq_some_iff.1 hi).1).trans hi
  have hsound := hknown.sound s
  refine hknown.modifySession
    fun _ => ⟨⟨filed_opened hsound.filed hp hpath hnone, hsound.owned, fun d hd => ?_⟩, ?_⟩
  · obtain ⟨doc, x, hdoc, hclean, hbacked⟩ := hsound.loaded d hd
    exact ⟨doc, x, hkept d doc hdoc, hclean, hbacked⟩
  · intro x hx hanswered
    obtain ⟨hstarted, d, doc, hdoc, hheld⟩ := hknown.complete s x hx hanswered
    exact ⟨hstarted, d, doc, hkept d doc hdoc, hheld⟩

theorem safe_documentAt (hknown : Known w h) (hs : s < w.sessions.length) (hp : p.IsNormal) :
    Safe following (documentAt s p) (fun r w' h' => (Known w' h' ∧ w'.host.cwd = w.host.cwd) ∧
      ∀ d, r = .ok d → AtHand s d p w' ∧ w'.registry = w.registry) w h := by
  refine safe_session ?_
  split
  · next d hfind =>
    obtain ⟨doc, hdoc, hname⟩ := Session.document_of_find hfind
    obtain ⟨-, hnormal, hself⟩ := (hknown.sound s).filed d doc hdoc
    -- the name of a document is the text of its path, so the document found is on the path itself
    obtain rfl : doc.buffer.path = p := by
      obtain ⟨doc', hdoc', hname'⟩ := Session.document_of_find hself
      obtain rfl := Option.some.inj (hdoc.symm.trans hdoc')
      have htext : doc.buffer.path.text = p.text := hname'.symm.trans hname
      have hresolved : p.resolve doc.buffer.path.text = doc.buffer.path := Path.resolve_text hnormal
      rw [← hresolved, htext, Path.resolve_text hp]
    refine Safe.bind ((safe_reread hknown hs hdoc).mono fun r w' h' hread => ?_)
    cases r with
    | error e => exact ⟨hread.1, nofun⟩
    | ok changed =>
      refine ⟨hread.1, ?_⟩
      rintro _ ⟨⟩
      exact hread.2 changed rfl
  · next hnone =>
    refine Safe.bind (safe_session ?_)
    rw [hnone]
    refine .get ?_
    split
    · dsimp only
      rw [Path.resolve_text hp]
      refine .ofResult_bind (fun b hb => ?_) fun _ _ => ⟨⟨hknown, rfl⟩, nofun⟩
      obtain ⟨hpath, hread⟩ : b.path = p ∧ w.host.disk.readText p = .ok b.text := by
        unfold Buffer.ofDisk at hb
        split at hb
        · next text hread =>
          cases hb
          exact ⟨rfl, hread⟩
        · cases hb
      have hfinal :
        ((w.modifySession s fun _ => ((w.session s).addDocument p.text b).2).modifySession s
            fun session =>
          session.watch (w.session s).documents.length) =
          w.modifySession s fun _ => opened (w.session s) p.text b := by
        unfold World.modifySession
        rw [modify_modify_eq]
        congr 2
        funext session
        exact watch_addDocument (w.session s) p.text b
      have hopened := hknown.opened hp hpath hnone
      have hat : AtHand s (w.session s).documents.length p
          (w.modifySession s fun _ => opened (w.session s) p.text b) := by
        refine ⟨(length_modifySession w s _).symm ▸ hs, ⟨p.text, b, true⟩, ?_, hpath, hread⟩
        rw [session_modifySession_self hs]
        simp [opened]
      rw [← hfinal] at hopened hat
      refine ⟨h, ⟨rfl, keepsOrder_modifySession rfl⟩, h, ⟨rfl, keepsOrder_modifySession rfl⟩,
        ⟨hopened, rfl⟩, ?_⟩
      rintro _ ⟨⟩
      exact ⟨hat, rfl⟩
    · exact ⟨⟨hknown, rfl⟩, nofun⟩

/-- A desk has the document of the file at hand, in the session of the name. -/
theorem safe_desk (hknown : Known w h) (file name : String) :
    Safe following (desk file name) (fun r w' h' => (Known w' h' ∧ w'.host.cwd = w.host.cwd) ∧
      ∀ k, r = .ok k → AtHand k.session k.document (w.host.cwd.resolve file) w' ∧
        Names w' name k.session) w h := by
  have hp := hknown.normal.resolve file
  unfold desk resolve
  refine Safe.bind ?_
  split
  · refine .get (Safe.bind ((safe_entryFor hknown name _).mono fun r w₁ h₁ hgives => ?_))
    cases r with
    | error e => exact ⟨hgives.1, nofun⟩
    | ok e =>
      obtain ⟨hs, hnamed⟩ := hgives.2 e rfl
      refine Safe.bind ((safe_documentAt hgives.1.1 hs hp).mono fun r w₂ h₂ hat => ?_)
      have hend : Known w₂ h₂ ∧ w₂.host.cwd = w.host.cwd := ⟨hat.1.1, hat.1.2.trans hgives.1.2⟩
      cases r with
      | error e => exact ⟨hend, nofun⟩
      | ok d =>
        refine ⟨hend, ?_⟩
        rintro _ ⟨⟩
        obtain ⟨hathand, hregistry⟩ := hat.2 d rfl
        exact ⟨hathand, hathand.1, hregistry ▸ hnamed⟩
  · exact ⟨⟨hknown, rfl⟩, nofun⟩

end Tools

end IdeMode
