import IdeMode.Proofs.Session.Answers
import IdeMode.Proofs.Session.Runs
set_option autoImplicit false

/-!
# The loaded document is as it was loaded

A document that counts as loaded was loaded by a call that was answered well, and no change of its
file was announced since that call was issued. Nothing is assumed of the order in which operations,
replies, edits and exits come.
-/

namespace IdeMode

open Account Session List

/-! ## Announced changes -/

/-- The path whose documents are marked dirty when a buffer is taken over. -/
def Session.announces? (session : Session) (d : Nat) (b : Buffer) : Option Path :=
  (session.document? d).bind
    fun doc => if doc.watched ∧ doc.buffer.revision ≠ b.revision then some b.path else none

/-- The path of which a note announces a change. -/
def Note.change? (session : Session) : Note → Option Path
  | .change p => some p
  | .adopt d b | .reread d b => session.announces? d b
  | _ => none

namespace Session

variable {session : Session} {p q : Path} {d d' generation : Nat} {b : Buffer}

theorem adopt_of_announces (h : session.announces? d b = some p) :
    session.adopt d b = (session.setBuffer d b).noteChange p := by
  unfold announces? at h
  unfold adopt
  cases hdoc : session.document? d with
  | none => simp [hdoc] at h
  | some doc =>
    rw [hdoc, Option.bind_some, Option.ite_none_right_eq_some] at h
    obtain ⟨hchanged, hpath⟩ := h
    simp only [if_pos hchanged, Option.some.inj hpath]

theorem adopt_of_not_announces (h : session.announces? d b = none) :
    session.adopt d b = session.setBuffer d b := by
  unfold announces? at h
  unfold adopt
  cases hdoc : session.document? d with
  | none => rfl
  | some doc =>
    rw [hdoc, Option.bind_some] at h
    by_cases hchanged : doc.watched ∧ doc.buffer.revision ≠ b.revision
    · simp [hchanged] at h
    · simp only [if_neg hchanged]

theorem generation_noteChange :
    (session.noteChange p).generation q = session.generation q + if p = q then 1 else 0 := by
  have hset : ((session.generations.set p (session.generation p + 1)).get? q).getD 0 =
      session.generation q + if p = q then 1 else 0 := by
    rw [Table.get?_set]
    split
    · next h => rw [h, Option.getD_some]
    · rfl
  unfold noteChange generation
  split <;> exact hset

theorem isDirty_noteChange (h : p ≠ q) : (session.noteChange p).isDirty q = session.isDirty q := by
  have hset : ((session.dirty.set p true).get? q).getD true = session.isDirty q := by
    rw [Table.get?_set, if_neg h]
    rfl
  unfold noteChange isDirty
  split <;> exact hset

theorem loaded_noteChange (h : (session.noteChange p).loaded = some d) :
    session.loaded = some d ∧ p ≠ (session.buffer d).path := by
  unfold noteChange at h
  split at h
  · cases h
  · next hnot =>
    refine ⟨h, ?_⟩
    rintro rfl
    refine hnot (decide_eq_true ?_)
    unfold loadedPath?
    rw [show session.loaded = some d from h]
    rfl

theorem path_setBuffer (hb : b.Succeeds (session.buffer d)) (d' : Nat) :
    ((session.setBuffer d b).buffer d').path = (session.buffer d').path := by
  unfold setBuffer buffer document?
  rw [List.getElem?_modify]
  by_cases h : d = d'
  · subst h
    cases hdoc : session.documents[d]? with
    | none => simp
    | some doc => simpa [buffer_eq hdoc] using hb.path_eq
  · simp [h]

theorem generation_recordLoad :
    (session.recordLoad d generation).generation q = session.generation q := by
  unfold recordLoad
  split <;> rfl

theorem isDirty_recordLoad (h : session.isDirty q = false) :
    (session.recordLoad d generation).isDirty q = false := by
  unfold recordLoad
  split
  · show ((session.dirty.set (session.buffer d).path false).get? q).getD true = false
    rw [Table.get?_set]
    split
    · rfl
    · exact h
  · exact h

theorem loaded_recordLoad (h : (session.recordLoad d generation).loaded = some d') :
    session.loaded = some d' ∨
      d = d' ∧ session.generation (session.buffer d).path = generation := by
  unfold recordLoad at h
  split at h
  · next heq => exact .inr ⟨Option.some.inj h, heq⟩
  · exact .inl h

end Session

/-! ## What a note does to what is known of a path -/

variable {ℓ notes : List Note} {x : Note} {p : Path} {d generation : Nat}

theorem generation_snoc (ℓ : List Note) (x : Note) (p : Path) :
    (recount (ℓ ++ [x])).generation p =
      (recount ℓ).generation p + if x.change? (recount ℓ) = some p then 1 else 0 := by
  have hadopt : ∀ (session : Session) d b, (session.adopt d b).generation p =
      session.generation p + if session.announces? d b = some p then 1 else 0 := by
    intro session d b
    cases hannounced : session.announces? d b with
    | none =>
      rw [adopt_of_not_announces hannounced]
      rfl
    | some q =>
      rw [adopt_of_announces hannounced, generation_noteChange]
      simp only [Option.some.injEq]
      rfl
  rw [recount_snoc]
  cases x with
  | act a => cases a <;> rfl
  | record d generation => exact generation_recordLoad
  | change q =>
    refine generation_noteChange.trans ?_
    simp only [Note.change?, Option.some.injEq]
  | adopt d b => exact hadopt _ d b
  | reread d b => exact hadopt _ d b
  | _ => rfl

theorem isDirty_snoc (h : x.change? (recount ℓ) ≠ some p) (hclean : (recount ℓ).isDirty p = false) :
    (recount (ℓ ++ [x])).isDirty p = false := by
  have hadopt : ∀ d b, (recount ℓ).announces? d b ≠ some p →
      ((recount ℓ).adopt d b).isDirty p = false := by
    intro d b hne
    cases hannounced : (recount ℓ).announces? d b with
    | none =>
      rw [adopt_of_not_announces hannounced]
      exact hclean
    | some q =>
      have hother : q ≠ p := fun heq => hne (heq ▸ hannounced)
      rw [adopt_of_announces hannounced, isDirty_noteChange hother]
      exact hclean
  rw [recount_snoc]
  cases x with
  | act a => cases a <;> exact hclean
  | record d generation => exact isDirty_recordLoad hclean
  | change q => exact (isDirty_noteChange fun heq => h (congrArg some heq)).trans hclean
  | adopt d b => exact hadopt d b h
  | reread d b => exact hadopt d b h
  | _ => exact hclean

/-- A document counts as loaded from now on. -/
def Records (d : Nat) (before : List Note) (x : Note) : Prop :=
  ∃ generation, x = .record d generation ∧
    (recount before).generation ((recount before).buffer d).path = generation

/-- A document does not count as loaded any more. -/
def Unloads (d : Nat) (before : List Note) (x : Note) : Prop :=
  x = .forget ∨ x = .clear ∨ x.change? (recount before) = some ((recount before).buffer d).path

theorem loaded_snoc (hfits : x.Fits ℓ) (h : (recount (ℓ ++ [x])).loaded = some d) :
    Records d ℓ x ∨ (recount ℓ).loaded = some d ∧ ¬ Unloads d ℓ x := by
  have hkept : (recount ℓ).loaded = some d → x ≠ .forget → x ≠ .clear →
      x.change? (recount ℓ) ≠ some ((recount ℓ).buffer d).path →
        Records d ℓ x ∨ (recount ℓ).loaded = some d ∧ ¬ Unloads d ℓ x :=
    fun hloaded hforget hclear hchange =>
      .inr ⟨hloaded, not_or.2 ⟨hforget, not_or.2 ⟨hclear, hchange⟩⟩⟩
  have hadopt : ∀ d' b, b.Succeeds ((recount ℓ).buffer d') →
    ((recount ℓ).adopt d' b).loaded = some d → (recount ℓ).loaded = some d ∧
        (recount ℓ).announces? d' b ≠ some ((recount ℓ).buffer d).path := by
    intro d' b hb hloaded
    cases hannounced : (recount ℓ).announces? d' b with
    | none =>
      rw [adopt_of_not_announces hannounced] at hloaded
      exact ⟨hloaded, nofun⟩
    | some q =>
      rw [adopt_of_announces hannounced] at hloaded
      obtain ⟨hloaded, hne⟩ := loaded_noteChange hloaded
      rw [path_setBuffer hb] at hne
      exact ⟨hloaded, fun heq => hne (Option.some.inj heq)⟩
  rw [recount_snoc] at h
  cases x with
  | act a => cases a <;> exact hkept h nofun nofun nofun
  | forget => cases h
  | clear => cases h
  | record d' generation =>
    rcases loaded_recordLoad h with hloaded | ⟨rfl, hgeneration⟩
    · exact hkept hloaded nofun nofun nofun
    · exact .inl ⟨generation, rfl, hgeneration⟩
  | change q =>
    obtain ⟨hloaded, hne⟩ := loaded_noteChange h
    exact hkept hloaded nofun nofun fun heq => hne (Option.some.inj heq)
  | adopt d' b =>
    obtain ⟨hloaded, hne⟩ := hadopt d' b hfits h
    exact hkept hloaded nofun nofun hne
  | reread d' b =>
    obtain ⟨hloaded, hne⟩ := hadopt d' b hfits.1 h
    exact hkept hloaded nofun nofun hne
  | _ => exact hkept h nofun nofun nofun

/-- A document counts as loaded since a load of it was recorded. -/
theorem since_records (hvalid : Valid ℓ) (h : (recount ℓ).loaded = some d) :
    Since (Records d) (Unloads d) ℓ := by
  induction ℓ using List.reverseRecOn with
  | nil => cases h
  | append_singleton ℓ x ih =>
    obtain ⟨hvalid, -, hfits⟩ := throughout_snoc.1 hvalid
    rcases loaded_snoc hfits h with hrecords | ⟨hloaded, hkept⟩
    · exact since_snoc.2 (.inl hrecords)
    · exact (ih hvalid hloaded).snoc hkept

/-! ## What follows from there being no change -/

/-- No change of a path is announced by notes that follow a log. -/
def Unchanged (p : Path) (ℓ notes : List Note) : Prop :=
  ∀ mid y rest, notes = mid ++ y :: rest → y.change? (recount (ℓ ++ mid)) ≠ some p

theorem unchanged_snoc {y : Note} : Unchanged p ℓ (notes ++ [y]) ↔
      Unchanged p ℓ notes ∧ y.change? (recount (ℓ ++ notes)) ≠ some p := by
  constructor
  · intro h
    exact ⟨fun mid z rest heq => h mid z (rest ++ [y]) (by simp [heq]), h notes y [] rfl⟩
  · rintro ⟨h, hy⟩ mid z rest heq
    rcases snoc_eq_append_cons.1 heq with ⟨rfl, rfl, rfl⟩ | ⟨rest', rfl, rfl⟩
    · exact hy
    · exact h mid z rest' rfl

/-- How often a path was changed tells whether it was changed. -/
theorem unchanged_iff : Unchanged p ℓ notes ↔ (recount (ℓ ++ notes)).generation p ≤
    (recount ℓ).generation p := by
  induction notes using List.reverseRecOn with
  | nil => simp [Unchanged]
  | append_singleton notes y ih =>
    have hgrown : (recount ℓ).generation p ≤ (recount (ℓ ++ notes)).generation p := by
      clear ih
      induction notes using List.reverseRecOn with
      | nil => simp
      | append_singleton notes z ih =>
        rw [← append_assoc, generation_snoc]
        omega
    rw [unchanged_snoc, ih, ← append_assoc, generation_snoc]
    split
    · next hchange => exact ⟨fun h => absurd hchange h.2, fun h => by omega⟩
    · next hchange => exact ⟨fun h => by omega, fun h => ⟨by omega, hchange⟩⟩

theorem unchanged_cons : Unchanged p ℓ (x :: notes) ↔
    x.change? (recount ℓ) ≠ some p ∧ Unchanged p (ℓ ++ [x]) notes := by
  constructor
  · intro h
    refine ⟨append_nil ℓ ▸ h [] x notes rfl, fun mid y rest heq => ?_⟩
    rw [← append_cons]
    exact h (x :: mid) y rest (by rw [heq, cons_append])
  · rintro ⟨hx, h⟩ mid y rest heq
    rcases cons_eq_append_iff.1 heq with ⟨rfl, hcons⟩ | ⟨mid', rfl, rfl⟩
    · cases hcons
      rw [append_nil]
      exact hx
    · rw [append_cons]
      exact h mid' y rest rfl

theorem Unchanged.append {more : List Note} (h : Unchanged p ℓ notes)
    (h' : Unchanged p (ℓ ++ notes) more) : Unchanged p ℓ (notes ++ more) := by
  rw [unchanged_iff] at h h' ⊢
  rw [← append_assoc]
  exact Nat.le_trans h' h

theorem Unchanged.isDirty (h : Unchanged p ℓ notes) (hclean : (recount ℓ).isDirty p = false) :
    (recount (ℓ ++ notes)).isDirty p = false := by
  induction notes using List.reverseRecOn with
  | nil => rw [append_nil]; exact hclean
  | append_singleton notes y ih =>
    obtain ⟨h, hy⟩ := unchanged_snoc.1 h
    rw [← append_assoc]
    exact isDirty_snoc hy (ih h)

variable {doc : Document}

/-- A document that is watched keeps its text where no change is announced. -/
theorem text_snoc (hfits : x.Fits ℓ) (hdoc : (recount ℓ).documents[d]? = some doc)
    (hwatched : doc.watched = true) (h : x.change? (recount ℓ) ≠ some doc.buffer.path) :
    ((recount (ℓ ++ [x])).buffer d).text = doc.buffer.text := by
  have hsame : ∀ session : Session, session.documents = (recount ℓ).documents →
      (session.buffer d).text = doc.buffer.text := by
    intro session hdocuments
    rw [buffer_eq (hdocuments ▸ hdoc)]
  have hadopt : ∀ d' b, b.Succeeds ((recount ℓ).buffer d') →
    (recount ℓ).announces? d' b ≠ some doc.buffer.path →
      (((recount ℓ).adopt d' b).buffer d).text = doc.buffer.text := by
    intro d' b hb hne
    by_cases hd : d' = d
    · subst hd
      rw [buffer_eq hdoc] at hb
      have hadopted : ((recount ℓ).adopt d' b).documents[d']? = some { doc with buffer := b } := by
        rw [documents_adopt, List.getElem?_modify_eq, hdoc]
        rfl
      rw [buffer_eq hadopted]
      refine hb.text_eq (Classical.by_contradiction fun hrevision => hne ?_)
      unfold announces? document?
      rw [hdoc, Option.bind_some, if_pos ⟨hwatched, fun heq => hrevision heq.symm⟩, hb.path_eq]
    · have hkept : ((recount ℓ).adopt d' b).documents[d]? = some doc := by
        simp [documents_adopt, hd, hdoc]
      rw [buffer_eq hkept]
  rw [recount_snoc]
  cases x with
  | act a => cases a <;> exact hsame _ rfl
  | record d' generation => exact hsame _ (documents_recordLoad _ d' generation)
  | change q => exact hsame _ (documents_noteChange _ q)
  | opened name b =>
    have hkept : ((recount ℓ).addDocument name b).2.documents[d]? = some doc :=
      (List.getElem?_append_left (List.getElem?_eq_some_iff.1 hdoc).1).trans hdoc
    show (((recount ℓ).addDocument name b).2.buffer d).text = _
    rw [buffer_eq hkept]
  | watch d' =>
    show (((recount ℓ).watch d').buffer d).text = _
    unfold Session.watch Session.buffer document?
    rw [List.getElem?_modify, hdoc]
    by_cases hd : d' = d <;> simp [hd]
  | adopt d' b => exact hadopt d' b hfits h
  | reread d' b => exact hadopt d' b hfits.1 h
  | _ => exact hsame _ rfl

theorem Unchanged.text_eq (hvalid : Valid (ℓ ++ notes))
    (hdoc : (recount ℓ).documents[d]? = some doc) (hwatched : doc.watched = true)
    (h : Unchanged doc.buffer.path ℓ notes) :
    ((recount (ℓ ++ notes)).buffer d).text = doc.buffer.text := by
  induction notes using List.reverseRecOn with
  | nil => rw [append_nil, buffer_eq hdoc]
  | append_singleton notes y ih =>
    obtain ⟨h, hy⟩ := unchanged_snoc.1 h
    rw [← append_assoc] at hvalid ⊢
    obtain ⟨hvalid, -, hfits⟩ := throughout_snoc.1 hvalid
    obtain ⟨doc', hdoc', -, hpath, hwatched'⟩ :=
      Keeps.recount (prefix_append ℓ notes) hvalid d doc hdoc
    rw [text_snoc hfits hdoc' (hwatched' hwatched) (hpath ▸ hy), ← buffer_eq hdoc']
    exact ih hvalid h

/-! ## The load behind a loaded document -/

/-- A call to load a document was issued when the document had a text, and no change of its file was
announced since. -/
def IssuedUnedited (ℓ : List Note) (call : Call) (d : Nat) (p : Path) (text : List Char) : Prop :=
  ∃ before request generation after,
    ℓ = before ++ .issue request call (.load d generation) :: after ∧
    ((recount before).buffer d).path = p ∧ ((recount before).buffer d).text = text ∧
    Unchanged p before (.issue request call (.load d generation) :: after)

/-- A document is neither dirty nor stale, and the load that made it so found the text that it
has. -/
structure LoadedUnedited (ℓ : List Note) (session : Session) (d : Nat) : Prop where
  isDirty_eq : session.isDirty (session.buffer d).path = false
  isStale_eq : session.isStale (session.buffer d).path = false
  load : ∃ call : Call, call.command = loadCommand (session.buffer d).path ∧ Answered ℓ call ∧
    IssuedUnedited ℓ call d (session.buffer d).path (session.buffer d).text

theorem path_later {ℓ' : List Note} (hdoc : (recount ℓ).documents[d]? = some doc)
    (hgrown : ℓ <+: ℓ') (hvalid : Valid ℓ') : ((recount ℓ').buffer d).path = doc.buffer.path := by
  obtain ⟨doc', hdoc', -, hpath, -⟩ := Keeps.recount hgrown hvalid d doc hdoc
  rw [buffer_eq hdoc', hpath]

theorem isDirty_of_records (h : Records d ℓ x) :
    (recount (ℓ ++ [x])).isDirty ((recount ℓ).buffer d).path = false := by
  obtain ⟨generation, rfl, hgeneration⟩ := h
  rw [recount_snoc]
  show ((recount ℓ).recordLoad d generation).isDirty _ = false
  unfold recordLoad
  rw [if_pos hgeneration]
  show (((recount ℓ).dirty.set _ false).get? _).getD true = false
  rw [Table.get?_set, if_pos rfl]
  rfl

/-- A document that counts as loaded has not been changed since the load was issued that was
recorded last. -/
theorem Faithful.load_of_loaded (h : Faithful ℓ) (hloaded : (recount ℓ).loaded = some d) :
    ∃ before request call generation after doc,
      ℓ = before ++ .issue request call (.load d generation) :: after ∧
      (recount before).documents[d]? = some doc ∧ doc.watched = true ∧
        call.command = loadCommand doc.buffer.path ∧
      Answered ℓ call ∧ Unchanged doc.buffer.path before
        (.issue request call (.load d generation) :: after) ∧
      (recount ℓ).isDirty doc.buffer.path = false := by
  obtain ⟨recorded, x, after, rfl, hrecords, hkept⟩ := since_records h.valid hloaded
  obtain ⟨generation, rfl, hgeneration⟩ := id hrecords
  rw [append_cons] at h ⊢
  obtain ⟨told, y, request, call, r, hlog, hissued, hanswered, -⟩ := h.initial.told_of_record
  obtain ⟨before, mid, rfl⟩ := append_of_mem (hlog ▸ mem_append_left [y] hissued)
  have hrecorded := h.initial.initial.valid
  obtain ⟨doc, hdoc, hwatched, hcommand, -, -, hissue, -⟩ := (hrecorded before _ mid rfl).2
  have hpath := path_later hdoc (prefix_append before _) hrecorded
  have hclean := isDirty_of_records hrecords
  rw [hpath] at hgeneration hclean
  -- up to the record the generation is the same, and after it nothing takes the document away
  have hbefore : Unchanged doc.buffer.path before
      (.issue request call (.load d generation) :: mid) := by
    rw [unchanged_iff, hissue]
    exact Nat.le_of_eq hgeneration
  have hafter : Unchanged doc.buffer.path
      (before ++ .issue request call (.load d generation) :: mid ++ [.record d generation])
      after := by
    intro notes y rest heq hchange
    subst heq
    have hlater : Valid (before ++ .issue request call (.load d generation) :: mid ++
        [.record d generation] ++ notes) := by
      have hvalid := h.valid
      rw [← append_assoc] at hvalid
      exact hvalid.initial
    rw [← path_later hdoc (by simp) hlater, ← append_cons] at hchange
    exact hkept notes y rest rfl (.inr (.inr hchange))
  have hrest : Unchanged doc.buffer.path (before ++ .issue request call (.load d generation) :: mid)
      (.record d generation :: after) := unchanged_cons.2 ⟨nofun, hafter⟩
  refine ⟨before, request, call, generation, mid ++ .record d generation :: after, doc, by simp,
    hdoc, hwatched, hcommand, ((hlog ▸ hanswered.append _).append _).append _, hbefore.append hrest,
    hafter.isDirty hclean⟩

theorem Faithful.loadedUnedited (h : Faithful ℓ) (hloaded : (recount ℓ).loaded = some d) :
    LoadedUnedited ℓ (recount ℓ) d := by
  obtain ⟨before, request, call, generation, after, doc, heq, hdoc, hwatched, hcommand, hanswered,
      hunchanged, hclean⟩ :=
    h.load_of_loaded hloaded
  have hpath : ((recount ℓ).buffer d).path = doc.buffer.path :=
    path_later hdoc ⟨_, heq.symm⟩ h.valid
  have htext : ((recount ℓ).buffer d).text = doc.buffer.text := by
    subst heq
    exact hunchanged.text_eq h.valid hdoc hwatched
  have hstale : (recount ℓ).isStale doc.buffer.path = false := by
    unfold isStale isLoaded loadedPath?
    rw [hclean, hloaded, Option.map_some, hpath]
    simp
  rw [← hpath] at hclean hstale hcommand hunchanged
  refine ⟨hclean, hstale, call, hcommand, hanswered, before, request, generation, after, heq, ?_,
    ?_, hunchanged⟩
  · rw [hpath, buffer_eq hdoc]
  · rw [htext, buffer_eq hdoc]

/-! ## Runs -/

theorem Logbook.faithful {s : Nat} {m : Machine} {moves : List Move} {book : List (List Note)}
    (h : Logbook s m moves book) (n : Nat) : Faithful (logOf (book.take n)) := by
  obtain ⟨rest, hrest⟩ := logOf_take_initial book n
  have hwhole : Faithful (logOf (book.take n) ++ rest) := by
    rw [hrest]
    exact ⟨h.valid, h.lawful⟩
  exact hwhole.initial

theorem LoadedUnedited.of_memory {session : Session} (h : LoadedUnedited ℓ session.memory d) :
    LoadedUnedited ℓ session d := ⟨h.isDirty_eq, h.isStale_eq, h.load⟩

/-- Whatever is asked of a session and whatever happens to it, in any order: the document that
counts as loaded is neither dirty nor stale, and its text is the one that the load found which was
answered. -/
theorem loaded_document_unedited {s : Nat} {m : Machine} (hm : m.Pristine s) {moves : List Move}
    (hmoves : ∀ move ∈ moves, move.On s) :
    (∃ book, Logbook s m moves book) ∧ ∀ book, Logbook s m moves book → ∀ n ≤ moves.length, ∀ d,
      ((m.follow (moves.take n)).world.session s).loaded = some d →
        LoadedUnedited (logOf (book.take n)) ((m.follow (moves.take n)).world.session s) d := by
  refine ⟨hm.logbook hmoves, fun book hbook n hn d hloaded => .of_memory ?_⟩
  rw [(hbook.shows n hn).memory_eq]
  refine (hbook.faithful n).loadedUnedited ?_
  rw [← (hbook.shows n hn).memory_eq]
  exact hloaded

/-- A machine with one session and one file, whose compiler does not answer by itself. -/
def deskMachine : Machine where
  world :=
    { host :=
        { cwd := ⟨[]⟩
          disk := ({} : Disk).place ⟨["A.idr"]⟩ [120, 10]
          reactions := [("interpret", List.replicate 4 {}), ("load-file", List.replicate 4 {})] }
      sessions := [{}] }

/-- The compiler sends a message, and then there are turns. -/
def answeredBy (text : String) (turns : Nat) : List Move :=
  .change (.send [text] []) :: List.replicate turns .turn

/-- A file is loaded: the compiler is moved to its directory, and then told to load it. -/
def loadMoves : List Move :=
  .launch 0 (.session 0 (.document "A.idr" .load)) :: List.replicate 5 .turn ++
    answeredBy "(:return (:ok \"\") 1)" 5 ++ answeredBy "(:return (:ok \"\") 2)" 4

theorem deskMachine_pristine : deskMachine.Pristine 0 := ⟨⟨Nat.one_pos, rfl, rfl, rfl⟩, rfl, rfl⟩

theorem loadMoves_on : ∀ move ∈ loadMoves, move.On 0 := by
  simp [loadMoves, answeredBy, Move.On, SessionRequest.Genuine]

/-- At the end of a load the document counts as loaded. -/
theorem loaded_document_unedited_load : deskMachine.Pristine 0 ∧ (∀ move ∈ loadMoves, move.On 0) ∧
    ((deskMachine.follow loadMoves).world.session 0).loaded = some 0 ∧
    ∃ book, Logbook 0 deskMachine loadMoves book ∧
      LoadedUnedited (logOf book) ((deskMachine.follow loadMoves).world.session 0) 0 := by
  have hloaded : ((deskMachine.follow loadMoves).world.session 0).loaded = some 0 := by
    decide +kernel
  obtain ⟨⟨book, hbook⟩, hunedited⟩ := loaded_document_unedited deskMachine_pristine loadMoves_on
  refine ⟨deskMachine_pristine, loadMoves_on, hloaded, book, hbook, ?_⟩
  have hlength : book.length = loadMoves.length := by
    simpa using congrArg List.length hbook.launched
  have hend := hunedited book hbook loadMoves.length (Nat.le_refl _) 0
  rw [take_length, ← hlength, take_length] at hend
  exact hend hloaded

end IdeMode
