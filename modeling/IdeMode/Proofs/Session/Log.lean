import Mathlib.Data.List.Induction
import IdeMode.Proofs.Calls.History
import IdeMode.Request.Session
set_option autoImplicit false

/-!
# The log of a session

A log notes, in order, everything that has a bearing on what a session knows of its compiler: what
happened to its calls and what they were for, what was written to which process, and every change of
what the session remembers. What the session remembers can be computed from the log, and a valid log
obeys rules that say when something may be noted. The rules only look at the log, so that everything
they imply holds however the operations of a session overlap.
-/

namespace IdeMode

open Account List

/-! ## Commands -/

/-- Moves the compiler to a directory. -/
def moveCommand (p : Path) : Command := ⟨"interpret", [.str (":cd " ++ p.text)]⟩

/-- Loads the file at a path, which is looked for in the directory of the compiler. -/
def loadCommand (p : Path) : Command := ⟨"load-file", [.str p.name]⟩

namespace Command

def IsLoad (c : Command) : Prop := c.tag = "load-file"

/-- The directory that the compiler is moved to. -/
def directory? (c : Command) : Option String :=
  match c.args with
  | [.str text] =>
    if c.tag = "interpret" ∧ text.toList.take 4 = ":cd ".toList then some
      (String.ofList (text.toList.drop 4)) else none
  | _ => none

def IsMove (c : Command) : Prop := c.directory? ≠ none

/-- The command changes what the compiler holds or where it is. -/
def Weighty (c : Command) : Prop := c.IsLoad ∨ c.IsMove

/-- The keywords of the commands that rely on a document being loaded. -/
def scopedTags : List String :=
  ["type-of", "case-split", "add-clause", "add-proof-clause", "add-missing", "make-with",
    "proof-search", "compatible-identifiers", "complete-compatible-identifiers",
    "compatible-identifiers-recursive", "choose-identifier", "make-refined-expression"]

/-- The keyword of the command that asks for names without a document being loaded. -/
def completionTag : String := "repl-completions"

theorem isLoad_loadCommand (p : Path) : (loadCommand p).IsLoad := rfl

@[simp] theorem directory?_moveCommand (p : Path) : (moveCommand p).directory? = some p.text := by
  have hdrop : (":cd ".toList ++ p.text.toList).drop 4 = p.text.toList := drop_left' rfl
  have htake : (":cd ".toList ++ p.text.toList).take 4 = ":cd ".toList := take_left' rfl
  unfold directory? moveCommand
  dsimp only
  rw [String.toList_append, htake, hdrop, if_pos ⟨rfl, rfl⟩, String.ofList_toList]

theorem isMove_moveCommand (p : Path) : (moveCommand p).IsMove := by simp [IsMove]

variable {c : Command}

theorem tag_of_isMove (h : c.IsMove) : c.tag = "interpret" := by
  unfold IsMove directory? at h
  split at h
  · split at h
    · next hmove => exact hmove.1
    · exact absurd rfl h
  · exact absurd rfl h

theorem not_isMove_of_isLoad (h : c.IsLoad) : ¬ c.IsMove := by
  intro hmove
  have hne : "load-file" ≠ "interpret" := by decide
  exact hne (h.symm.trans (tag_of_isMove hmove))

theorem not_weighty_of_tag (hload : c.tag ≠ "load-file")
    (hmove : c.tag ≠ "interpret") : ¬ c.Weighty := by
  rintro (h | h)
  · exact hload h
  · exact hmove (tag_of_isMove h)

theorem not_weighty_of_scoped (h : c.tag ∈ scopedTags) : ¬ c.Weighty := by
  have hload : "load-file" ∉ scopedTags := by decide
  have hmove : "interpret" ∉ scopedTags := by decide
  exact not_weighty_of_tag (fun heq => hload (heq ▸ h)) (fun heq => hmove (heq ▸ h))

end Command

namespace SessionRequest

/-- The command that a request names itself. -/
def sends? : SessionRequest → Option Command
  | .call command _ | .rawCall command _ | .post _ command => some command
  | .evaluate expression _ => some ⟨"interpret", [.str expression]⟩
  | _ => none

/-- The document whose text a request relies on. -/
def scope? : SessionRequest → Option String
  | .document name (.typeOf _ _ _) => some name
  | .document name (.edit _ _ _ _) => some name
  | _ => none

/-- The request does not declare a document loaded that may not be. -/
def Genuine (request : SessionRequest) : Prop := ∀ name, request ≠ .document name .noteLoaded

end SessionRequest

/-! ## Notes -/

/-- What a call is for. -/
inductive Purpose where
  /-- it is made as it was asked for -/
  | plain
  /-- to move the compiler to a directory -/
  | move (p : Path)
  /-- to load a document, which had a generation when the call was issued -/
  | load (document generation : Nat)
  /-- to ask about a document -/
  | ask (document : Nat)

/-- Something that is noted of a session. -/
inductive Note where
  /-- something happened to its calls; issuing and taking have notes of their own -/
  | act (a : Act)
  /-- an operation was asked for, under a number -/
  | launch (index : Nat) (request : SessionRequest)
  /-- an operation came to its end -/
  | done (index : Nat) (request : SessionRequest) (r : Result Answer)
  /-- an operation issued a call -/
  | issue (request : SessionRequest) (call : Call) (purpose : Purpose)
  /-- an operation was told the outcome of its call -/
  | take (call : Call) (purpose : Purpose) (outcome : Outcome)
  /-- a call was taken up for writing -/
  | pick (call : Call)
  /-- a call was written to a process -/
  | write (child : Nat) (call : Call)
  /-- a process was started -/
  | spawn (child : Nat)
  /-- the process was given up -/
  | lose
  /-- neither a directory nor a document is known of the compiler any more -/
  | forget
  /-- no document counts as loaded -/
  | clear
  /-- the compiler is in a directory -/
  | arrive (p : Path)
  /-- a document was loaded that had a generation when this was asked for -/
  | record (document generation : Nat)
  | opened (name : String) (b : Buffer)
  | watch (document : Nat)
  /-- an operation changed a buffer, or read it again -/
  | adopt (document : Nat) (b : Buffer)
  /-- the owner of a buffer read it again while a request was answered -/
  | reread (document : Nat) (b : Buffer)
  /-- documents at a path were marked dirty by hand -/
  | change (p : Path)

/-- What a session remembers of its compiler, its documents and the calls to be written. -/
def Session.memory (session : Session) : Session where
  transport := { child := session.transport.child }
  dispatch := { outbox := session.dispatch.outbox }
  cwd := session.cwd
  loaded := session.loaded
  dirty := session.dirty
  generations := session.generations
  documents := session.documents

namespace Note

/-- What a note does to a session. -/
def effect : Note → Session → Session
  | .act .discard, session => { session with dispatch := { session.dispatch with outbox := [] } }
  | .issue _ call _, session =>
    { session with
      dispatch := { session.dispatch with outbox := session.dispatch.outbox ++ [call] } }
  | .pick _, session =>
    { session with dispatch := { session.dispatch with outbox := session.dispatch.outbox.tail } }
  | .spawn child, session =>
    { session with transport := { session.transport with child := some child } }
  | .lose, session => { session with transport := { session.transport with child := none } }
  | .forget, session => { session with loaded := none, cwd := none }
  | .clear, session => { session with loaded := none }
  | .arrive p, session => { session with cwd := some p }
  | .record d generation, session => session.recordLoad d generation
  | .opened name b, session => (session.addDocument name b).2
  | .watch d, session => session.watch d
  | .adopt d b, session => session.adopt d b
  | .reread d b, session => session.adopt d b
  | .change p, session => session.noteChange p
  | _, session => session

def act? : Note → Option Act
  | .act a => some a
  | .issue _ call _ => some (.issue call)
  | .take call _ outcome => some (.take call.id outcome)
  | _ => none

/-- The text that a note says was written, with its process. -/
def sent? : Note → Option Host.Sent
  | .write child call =>
    match (call.command.request call.id).encode with
    | .ok text => some ⟨child, String.ofList (Wire.frame text)⟩
    | .error _ => none
  | _ => none

end Note

/-- An operation is asked for, or does by itself what the note says. -/
def Note.IsDeed : Note → Prop
  | .launch _ _ | .issue _ _ _ | .act (.refuse _) | .act .discard | .spawn
    _ | .forget | .clear | .opened _ _ | .watch _
  | .adopt _ _ | .change _ => True
  | _ => False

/-- The acts of a log. -/
def acts (ℓ : List Note) : List Act := ℓ.filterMap Note.act?

/-- What the notes do to a session, one after the other. -/
def Session.noting (session : Session) (notes : List Note) : Session :=
  notes.foldl (fun session x => x.effect session) session

/-- What a session remembers that was new when the log began. -/
def recount (ℓ : List Note) : Session := Session.noting {} ℓ

/-- A call was issued and neither settled nor dropped. -/
def Pending (ℓ : List Note) (call : Call) : Prop := (replay (acts ℓ)).calls.isPending call.id = true

/-! ## Rules -/

/-- The last note says that a call for a purpose was answered well. -/
def Returned (purpose : Purpose) (ℓ : List Note) : Prop :=
  ∃ before call r, ℓ = before ++ [.take call purpose (.answered r)]

/-- A move has just begun. -/
def Begun (ℓ : List Note) : Prop := ∃ before, ℓ = before ++ [.act .pass]

/-- The last note says that a load was answered well. -/
def Delivered (d generation : Nat) (ℓ : List Note) : Prop :=
  Returned (.load d generation) ℓ ∨
    ∃ before call r label, ℓ = before ++ [.act (.resume call (.answered r))] ∧
    call.addressee = .load label d generation

/-- The last note says that something was written, or read again while it was. -/
def Writing (ℓ : List Note) : Prop :=
  (∃ before c call, ℓ = before ++ [.write c call]) ∨ ∃ before d b, ℓ = before ++ [.reread d b]

/-- The last note says that a load was asked for whose outcome a continuation will be told. -/
def Posted (ℓ : List Note) : Prop :=
  ∃ before x call label d generation,
    ℓ = before ++ [x] ∧ call.addressee = .load label d generation ∧
    ((∃ request purpose, x = .issue request call purpose) ∨ x = .act (.refuse call))

/-- The last note says that a call was taken up that is to be written. -/
def InHand (call : Call) (ℓ : List Note) : Prop :=
  (∃ before, ℓ = before ++ [.pick call]) ∧ Pending ℓ call ∧
    ∃ text, (call.command.request call.id).encode = .ok text

namespace Note

/-- What the last note of a log demands of the next. An operation that has asked for a load with a
continuation is at its end; one that has moved the compiler or loaded a document says so at once; a
call that was taken up is written, unless the process is gone; and nothing is done in a move after a
reply was routed. -/
def Demands (ℓ : List Note) : Note → Note → Prop
  | .issue _ call _, x | .act (.refuse call), x =>
    (∃ label d generation, call.addressee = .load label d generation) →
      ∃ index request r, x = .done index request r
  | .act (.reply _ _ _), x => x = .act .pass
  | .act (.resume call (.answered _)), x =>
    ∀ label d generation, call.addressee = .load label d generation → x = .record d generation
  | .take _ (.move p) (.answered _), x => x = .arrive p
  | .take _ (.load d generation) (.answered _), x => x = .record d generation
  | .pick call, x =>
    InHand call (ℓ ++ [.pick call]) → (∃ c, x = .write c call) ∨ ∃ outage, x = .act (.outage outage)
  | _, _ => True

/-- The last note of a log leaves room for another. -/
def Follows (ℓ : List Note) (x : Note) : Prop := ∀ before y, ℓ = before ++ [y] → y.Demands before x

end Note

/-- A command may rely on a document: it is not stale, was just loaded, or was relied on up to
now. -/
def Ready (d : Nat) (ℓ : List Note) : Prop :=
  ∃ doc, (recount ℓ).documents[d]? = some doc ∧ ((recount ℓ).isStale doc.buffer.path = false ∨
      (∃ before generation, ℓ = before ++ [.record d generation]) ∨ Returned (.ask d) ℓ)

namespace Purpose

/-- A request may issue a call for a purpose. -/
def Suits (ℓ : List Note) (request : SessionRequest) (call : Call) : Purpose → Prop
  | .plain => (request.sends? = some call.command ∨ call.command.tag = Command.completionTag) ∧
    ∀ label d generation, call.addressee ≠ .load label d generation
  | .move p => call.command = moveCommand p ∧ call.addressee = .waiter
  | .load d generation => ∃ doc, (recount ℓ).documents[d]? = some doc ∧ doc.watched = true ∧
    call.command = loadCommand doc.buffer.path ∧ (recount ℓ).loaded = none ∧
    (recount ℓ).cwd = some doc.buffer.path.parent ∧
      (recount ℓ).generation doc.buffer.path = generation ∧
    (call.addressee = .waiter ∨ ∃ label, call.addressee = .load label d generation)
  | .ask d => call.command.tag ∈ Command.scopedTags ∧ call.addressee = .waiter ∧
    (∃ name, request.scope? = some name ∧ (recount ℓ).findDocument? name = some d) ∧ Ready d ℓ

end Purpose

/-- A buffer is what comes of an operation on another: it is on the same file, and a change is
announced. -/
structure Buffer.Succeeds (b old : Buffer) : Prop where
  path_eq : b.path = old.path
  revision_le : old.revision ≤ b.revision
  text_eq : b.revision = old.revision → b.text = old.text

/-- A document need not be loaded, or has just been. -/
def UpToDate (d : Nat) (loaded : Bool) (ℓ : List Note) : Prop :=
  ∃ doc, (recount ℓ).documents[d]? = some doc ∧
    if loaded then ∃ before generation, ℓ = before ++ [.record d generation]
    else (recount ℓ).isStale doc.buffer.path = false

/-- What the answer to a request says of the log. A load is skipped only where the document is not
stale. -/
def Warrants (ℓ : List Note) : SessionRequest → Result Answer → Prop
  | .document name .ensureLoaded, .ok (.flag loaded) =>
    ∃ d, (recount ℓ).findDocument? name = some d ∧ UpToDate d loaded ℓ
  | .document name (.postLoad _), .ok _ =>
    ∃ d, (recount ℓ).findDocument? name = some d ∧ (UpToDate d false ℓ ∨ Posted ℓ)
  | _, _ => True

namespace Note

/-- A note may be added to a log. -/
def Fits (ℓ : List Note) : Note → Prop
  | .act a => (∀ call, a ≠ .issue call) ∧ ∀ id outcome, a ≠ .take id outcome
  | .issue request call purpose => purpose.Suits ℓ request call
  | .take call purpose _ => (∃ request, .issue request call purpose ∈ ℓ) ∧ Begun ℓ
  | .pick call => (recount ℓ).dispatch.outbox.head? = some call ∧ Begun ℓ
  | .write child call => InHand call ℓ ∧ (recount ℓ).transport.child = some child
  | .spawn _ => ∃ before, ℓ = before ++ [.forget]
  | .arrive p => Returned (.move p) ℓ
  | .record d generation => Delivered d generation ℓ
  | .adopt d b => b.Succeeds ((recount ℓ).buffer d)
  | .reread d b => b.Succeeds ((recount ℓ).buffer d) ∧ Writing ℓ
  | .done index request r => .launch index request ∈ ℓ ∧ Warrants ℓ request r
  | _ => True

end Note

/-- Whatever is noted stands in a relation to the notes before it. -/
def Throughout (R : List Note → Note → Prop) (ℓ : List Note) : Prop :=
  ∀ before x after, ℓ = before ++ x :: after → R before x

/-- Every note of the log could be added where it stands. -/
def Valid (ℓ : List Note) : Prop := Throughout (fun before x => x.Follows before ∧ x.Fits before) ℓ

/-! ## Logs that grow -/

/-- A place in a log that has grown by one note: the new one, or one among the others. -/
theorem snoc_eq_append_cons {ℓ before after : List Note} {x y : Note} :
    ℓ ++ [y] = before ++ x :: after ↔ before = ℓ ∧ x = y ∧ after = [] ∨
        ∃ after', after = after' ++ [y] ∧ ℓ = before ++ x :: after' := by
  constructor
  · intro heq
    obtain rfl | ⟨after', last, rfl⟩ := eq_nil_or_concat after
    · obtain ⟨rfl, hlast⟩ := append_inj' heq rfl
      exact .inl ⟨rfl, (head_eq_of_cons_eq hlast).symm, rfl⟩
    · rw [concat_eq_append, ← cons_append, ← append_assoc] at heq
      obtain ⟨rfl, hlast⟩ := append_inj' heq rfl
      obtain rfl := head_eq_of_cons_eq hlast
      exact .inr ⟨after', concat_eq_append, rfl⟩
  · rintro (⟨rfl, rfl, rfl⟩ | ⟨after', rfl, rfl⟩)
    · rfl
    · rw [append_assoc, cons_append]

theorem eq_of_snoc_eq {ℓ before : List Note} {x y : Note} (h : ℓ ++ [x] = before ++ [y]) : x = y :=
  head_eq_of_cons_eq (append_inj' h rfl).2

theorem follows_snoc {ℓ : List Note} {x y : Note} (h : y.Demands ℓ x) : x.Follows (ℓ ++ [y]) := by
  intro before z heq
  obtain ⟨rfl, hlast⟩ := append_inj' heq rfl
  obtain rfl := head_eq_of_cons_eq hlast
  exact h

namespace Note.Follows

variable {ℓ : List Note} {x : Note}

theorem posted (h : x.Follows ℓ) (hposted : Posted ℓ) :
    ∃ index request r, x = .done index request r := by
  obtain ⟨before, y, call, label, d, generation, rfl, haddressee, ⟨request, purpose, rfl⟩ | rfl⟩ :=
    hposted
  · exact h before _ rfl ⟨label, d, generation, haddressee⟩
  · exact h before _ rfl ⟨label, d, generation, haddressee⟩

theorem moved {p : Path} (h : x.Follows ℓ) (hmoved : Returned (.move p) ℓ) : x = .arrive p := by
  obtain ⟨before, call, r, rfl⟩ := hmoved
  exact h before _ rfl

theorem written {call : Call} (h : x.Follows ℓ) (hhand : InHand call ℓ) :
    (∃ c, x = .write c call) ∨ ∃ outage, x = .act (.outage outage) := by
  obtain ⟨before, rfl⟩ := hhand.1
  exact h before _ rfl hhand

theorem routed {id : Option Int} {ok : Bool} {payload : List Value}
    (h : x.Follows (ℓ ++ [.act (.reply id ok payload)])) : x = .act .pass := h ℓ _ rfl

end Note.Follows

theorem throughout_nil (R : List Note → Note → Prop) : Throughout R [] := by
  intro before x after heq
  simp at heq

theorem throughout_snoc {R : List Note → Note → Prop} {ℓ : List Note} {y : Note} :
    Throughout R (ℓ ++ [y]) ↔ Throughout R ℓ ∧ R ℓ y := by
  constructor
  · intro h
    refine ⟨fun before x after heq => h before x (after ++ [y]) ?_, h ℓ y [] rfl⟩
    rw [heq, append_assoc, cons_append]
  · rintro ⟨h, hy⟩ before x after heq
    obtain ⟨rfl, rfl, -⟩ | ⟨after', -, heq⟩ := snoc_eq_append_cons.1 heq
    · exact hy
    · exact h before x after' heq

theorem Throughout.initial {R : List Note → Note → Prop} {ℓ notes : List Note}
    (h : Throughout R (ℓ ++ notes)) : Throughout R ℓ := by
  intro before x after heq
  refine h before x (after ++ notes) ?_
  rw [heq, append_assoc, cons_append]

theorem Valid.initial {ℓ notes : List Note} (h : Valid (ℓ ++ notes)) : Valid ℓ :=
  Throughout.initial h

theorem acts_append (ℓ notes : List Note) : acts (ℓ ++ notes) = acts ℓ ++ acts notes :=
  filterMap_append

theorem mem_acts {ℓ : List Note} {a : Act} : a ∈ acts ℓ ↔ ∃ x ∈ ℓ, x.act? = some a := mem_filterMap

theorem acts_snoc_of_none {ℓ : List Note} {x : Note} (hx : x.act? = none) :
    acts (ℓ ++ [x]) = acts ℓ := by
  rw [acts_append]
  show acts ℓ ++ List.filterMap Note.act? [x] = acts ℓ
  rw [filterMap_cons_none hx, filterMap_nil, append_nil]

theorem acts_snoc_of_some {ℓ : List Note} {x : Note} {a : Act} (hx : x.act? = some a) :
    acts (ℓ ++ [x]) = acts ℓ ++ [a] := by
  rw [acts_append]
  show acts ℓ ++ List.filterMap Note.act? [x] = acts ℓ ++ [a]
  rw [filterMap_cons_some hx, filterMap_nil]

variable (session : Session)

theorem noting_append (notes more : List Note) :
    session.noting (notes ++ more) = (session.noting notes).noting more := foldl_append

theorem recount_append (ℓ notes : List Note) : recount (ℓ ++ notes) = (recount ℓ).noting notes :=
  noting_append ..

theorem recount_snoc (ℓ : List Note) (x : Note) : recount (ℓ ++ [x]) = x.effect (recount ℓ) :=
  recount_append ℓ [x]

/-! ## Documents -/

namespace Session

/-- Documents stay where they are, with their names and paths, and those that are watched are
watched. -/
def Keeps (session session' : Session) : Prop :=
  ∀ (d : Nat) (doc : Document), session.documents[d]? = some doc →
    ∃ doc' : Document, session'.documents[d]? = some doc' ∧ doc'.name = doc.name ∧
      doc'.buffer.path = doc.buffer.path ∧ (doc.watched = true → doc'.watched = true)

variable {session session' session'' : Session}

theorem Keeps.refl (session : Session) : Keeps session session :=
  fun _ doc hd => ⟨doc, hd, rfl, rfl, id⟩

theorem Keeps.trans (h : Keeps session session') (h' : Keeps session' session'') :
    Keeps session session'' := by
  intro d doc hd
  obtain ⟨doc', hd', hname, hpath, hwatched⟩ := h d doc hd
  obtain ⟨doc'', hd'', hname', hpath', hwatched'⟩ := h' d doc' hd'
  exact ⟨doc'', hd'', hname'.trans hname, hpath'.trans hpath, fun hw => hwatched' (hwatched hw)⟩

theorem keeps_of_documents (h : session'.documents = session.documents) :
    Keeps session session' := by
  intro d doc hd
  exact ⟨doc, h ▸ hd, rfl, rfl, id⟩

theorem keeps_modify {f : Document → Document} (d : Nat)
    (hdocuments : session'.documents = session.documents.modify d f)
    (hf : ∀ doc, session.documents[d]? = some doc → (f doc).name = doc.name ∧
      (f doc).buffer.path = doc.buffer.path ∧ (doc.watched = true → (f doc).watched = true)) :
    Keeps session session' := by
  intro d' doc hd
  rw [hdocuments, List.getElem?_modify, hd]
  by_cases h : d = d'
  · subst h
    exact ⟨f doc, by simp, hf doc hd⟩
  · exact ⟨doc, by simp [h], rfl, rfl, id⟩

theorem buffer_eq {d : Nat} {doc : Document} (h : session.documents[d]? = some doc) :
    session.buffer d = doc.buffer := by
  unfold buffer document?
  rw [h]
  rfl

theorem documents_noteChange (session : Session) (p : Path) :
    (session.noteChange p).documents = session.documents := by
  unfold noteChange
  split <;> rfl

theorem documents_recordLoad (session : Session) (d generation : Nat) :
    (session.recordLoad d generation).documents = session.documents := by
  unfold recordLoad
  split <;> rfl

theorem documents_adopt (session : Session) (d : Nat) (b : Buffer) : (session.adopt d b).documents =
      session.documents.modify d fun doc => { doc with buffer := b } := by
  unfold adopt
  split
  · split
    · exact documents_noteChange _ _
    · rfl
  · rfl

theorem document_of_find {name : String} {d : Nat} (h : session.findDocument? name = some d) :
    ∃ doc, session.documents[d]? = some doc ∧ doc.name = name := by
  obtain ⟨hlt, hname, -⟩ := List.findIdx?_eq_some_iff_getElem.1 h
  exact ⟨_, List.getElem?_eq_getElem hlt, of_decide_eq_true hname⟩

theorem Keeps.findDocument? (h : Keeps session session') {name : String} {d : Nat}
    (hd : session.findDocument? name = some d) : session'.findDocument? name = some d := by
  obtain ⟨hlt, hname, hfirst⟩ := List.findIdx?_eq_some_iff_getElem.1 hd
  have hkept : ∀ i (hi : i < session.documents.length), ∃ hi' : i < session'.documents.length,
      session'.documents[i].name = session.documents[i].name := by
    intro i hi
    obtain ⟨doc', hdoc', hname', -⟩ := h i _ (List.getElem?_eq_getElem hi)
    obtain ⟨hi', rfl⟩ := List.getElem?_eq_some_iff.1 hdoc'
    exact ⟨hi', hname'⟩
  refine List.findIdx?_eq_some_iff_getElem.2 ⟨(hkept d hlt).1, ?_, fun i hi => ?_⟩
  · rw [(hkept d hlt).2]
    exact hname
  · rw [(hkept i (Nat.lt_trans hi hlt)).2]
    exact hfirst i hi

end Session

open Session

theorem keeps_adopt {session : Session} {d : Nat} {b : Buffer}
    (hb : b.Succeeds (session.buffer d)) : Keeps session (session.adopt d b) := by
  refine keeps_modify d (documents_adopt session d b) fun doc hdoc => ⟨rfl, ?_, id⟩
  rw [← buffer_eq hdoc]
  exact hb.path_eq

/-- Notes that fit leave documents where they are. -/
theorem keeps_effect {ℓ : List Note} {x : Note} (hx : x.Fits ℓ) :
    Keeps (recount ℓ) (x.effect (recount ℓ)) := by
  cases x with
  | act a => cases a <;> exact keeps_of_documents rfl
  | record d generation => exact keeps_of_documents (documents_recordLoad _ d generation)
  | change p => exact keeps_of_documents (documents_noteChange _ p)
  | opened name b =>
    intro d doc hd
    refine ⟨doc, ?_, rfl, rfl, id⟩
    exact (List.getElem?_append_left (List.getElem?_eq_some_iff.1 hd).1).trans hd
  | watch d => exact keeps_modify d rfl fun doc _ => ⟨rfl, rfl, fun _ => rfl⟩
  | adopt d b => exact keeps_adopt hx
  | reread d b => exact keeps_adopt hx.1
  | _ => exact keeps_of_documents rfl

protected theorem Keeps.recount {ℓ ℓ' : List Note} (hinitial : ℓ <+: ℓ') (hvalid : Valid ℓ') :
    Keeps (recount ℓ) (recount ℓ') := by
  obtain ⟨notes, rfl⟩ := hinitial
  induction notes using List.reverseRecOn with
  | nil =>
    rw [append_nil]
    exact .refl _
  | append_singleton notes x ih =>
    rw [← append_assoc] at hvalid ⊢
    obtain ⟨hvalid, -, hfits⟩ := throughout_snoc.1 hvalid
    rw [recount_snoc]
    exact (ih hvalid).trans (keeps_effect hfits)

/-! ## Memory -/

theorem memory_noteChange (p : Path) :
    (session.noteChange p).memory = session.memory.noteChange p := by
  have hloaded : session.memory.isLoaded p = session.isLoaded p := rfl
  unfold noteChange
  rw [hloaded]
  split <;> rfl

theorem memory_recordLoad (d generation : Nat) :
    (session.recordLoad d generation).memory = session.memory.recordLoad d generation := by
  have hgeneration : session.memory.generation (session.memory.buffer d).path =
      session.generation (session.buffer d).path := rfl
  unfold recordLoad
  rw [hgeneration]
  split <;> rfl

theorem memory_adopt (d : Nat) (b : Buffer) :
    (session.adopt d b).memory = session.memory.adopt d b := by
  have hdocument : session.memory.document? d = session.document? d := rfl
  unfold adopt
  rw [hdocument]
  split
  · split
    · exact memory_noteChange _ _
    · rfl
  · rfl

/-- Notes only look at what is remembered. -/
theorem memory_effect (x : Note) : (x.effect session).memory = x.effect session.memory := by
  cases x with
  | act a => cases a <;> rfl
  | record d generation => exact memory_recordLoad session d generation
  | change p => exact memory_noteChange session p
  | adopt d b => exact memory_adopt session d b
  | reread d b => exact memory_adopt session d b
  | _ => rfl

/-! ## Processes -/

/-- What a session remembers of its compiler but for the document that it holds. -/
def Session.link (session : Session) : Transport × Dispatch × Option Path :=
  (session.transport, session.dispatch, session.cwd)

theorem link_noteChange (p : Path) : (session.noteChange p).link = session.link := by
  unfold noteChange
  split <;> rfl

theorem link_adopt (d : Nat) (b : Buffer) : (session.adopt d b).link = session.link := by
  unfold adopt
  split
  · split
    · exact link_noteChange _ _
    · rfl
  · rfl

theorem link_recordLoad (d generation : Nat) :
    (session.recordLoad d generation).link = session.link := by
  unfold recordLoad
  split <;> rfl

/-- Changes of documents leave the link as it is. -/
theorem link_effect (x : Note)
    (hx : (∃ p, x = .change p) ∨ (∃ d b, x = .adopt d b ∨ x = .reread d b) ∨
      ∃ d generation, x = .record d generation) : (x.effect session).link = session.link := by
  obtain ⟨p, rfl⟩ | ⟨d, b, rfl | rfl⟩ | ⟨d, generation, rfl⟩ := hx
  · exact link_noteChange session p
  · exact link_adopt session d b
  · exact link_adopt session d b
  · exact link_recordLoad session d generation

theorem child_snoc {ℓ : List Note} {x : Note} {c : Nat}
    (h : (recount (ℓ ++ [x])).transport.child = some c) :
    x = .spawn c ∨ (recount ℓ).transport.child = some c := by
  have hlink := link_effect (recount ℓ) x
  rw [recount_snoc] at h
  cases x with
  | act a => cases a <;> exact .inr h
  | spawn c' => exact .inl (congrArg Note.spawn (Option.some.inj h))
  | lose => cases h
  | record d generation => exact .inr ((congrArg (·.1.child) (hlink (by simp))).symm.trans h)
  | change p => exact .inr ((congrArg (·.1.child) (hlink (by simp))).symm.trans h)
  | adopt d b => exact .inr ((congrArg (·.1.child) (hlink (by simp))).symm.trans h)
  | reread d b => exact .inr ((congrArg (·.1.child) (hlink (by simp))).symm.trans h)
  | _ => exact .inr h

/-- The process of a session is the one that was started last. -/
theorem child_append {ℓ notes : List Note} {c : Nat}
    (h : (recount (ℓ ++ notes)).transport.child = some c) :
    .spawn c ∈ notes ∨ (recount ℓ).transport.child = some c := by
  induction notes using List.reverseRecOn with
  | nil => exact .inr (append_nil ℓ ▸ h)
  | append_singleton notes x ih =>
    rw [← append_assoc] at h
    obtain rfl | h := child_snoc h
    · exact .inl mem_concat_self
    · exact (ih h).imp_left (mem_append_left _)

theorem spawn_mem_of_child {ℓ : List Note} {c : Nat}
    (h : (recount ℓ).transport.child = some c) : .spawn c ∈ ℓ := by
  have hstart : (recount ([] ++ ℓ)).transport.child = some c := h
  exact (child_append hstart).resolve_right nofun

/-! ## One at a time -/

/-- A load is under way whose outcome a continuation will be told. -/
def OpenLoad (ℓ : List Note) : Prop :=
  ∃ call label d generation, call.addressee = .load label d generation ∧
    (call ∈ (replay (acts ℓ)).calls.pending ∨ ∃ outcome, (call, outcome) ∈ (replay (acts ℓ)).due)

/-- No operation is under way: nobody waits for a call, and no continuation waits for a load. -/
structure Quiescent (ℓ : List Note) : Prop where
  unawaited : ∀ id, ¬ Awaited (acts ℓ) id
  unloading : ¬ OpenLoad ℓ

/-- Operations do what they do one after the other. -/
def Serial (ℓ : List Note) : Prop := Throughout (fun before x => x.IsDeed → Quiescent before) ℓ

theorem serial_append {ℓ notes : List Note} (h : Serial ℓ) (hnotes : ∀ x ∈ notes, ¬ x.IsDeed) :
    Serial (ℓ ++ notes) := by
  induction notes using List.reverseRecOn with
  | nil => exact (append_nil ℓ).symm ▸ h
  | append_singleton notes x ih =>
    rw [← append_assoc]
    refine throughout_snoc.2 ⟨ih fun y hy => hnotes y (mem_append_left _ hy), fun hdeed => ?_⟩
    exact absurd hdeed (hnotes x mem_concat_self)

/-- A call is pending, or its continuation is to be told its outcome. -/
def Open (ℓ : List Note) (call : Call) : Prop :=
  call ∈ (replay (acts ℓ)).calls.pending ∨ ∃ outcome, (call, outcome) ∈ (replay (acts ℓ)).due

/-- A call is made by being issued, when it gets the next number, or turned down. -/
theorem open_snoc {ℓ : List Note} {x : Note} {call : Call} (hfits : x.Fits ℓ)
    (h : Open (ℓ ++ [x]) call) :
    Open ℓ call ∨ (∃ request issued purpose, x = .issue request issued purpose ∧
      call = { issued with id := (replay (acts ℓ)).calls.nextId }) ∨ x = .act (.refuse call) := by
  unfold Open at h
  have hdue : ∀ {a outcome}, (call, outcome) ∈ ((replay (acts ℓ)).after a).due →
      Open ℓ call ∨ a = .refuse call := by
    intro a outcome hmem
    obtain hmem | hmem := mem_due_after hmem
    · exact .inl (.inr ⟨outcome, hmem⟩)
    · exact (ends_of_mem_settledBy hmem).pending_or_refuse.imp_left .inl
  cases hact : x.act? with
  | none =>
    rw [acts_snoc_of_none hact] at h
    exact .inl h
  | some a =>
    rw [acts_snoc_of_some hact, replay_snoc] at h
    cases x with
    | issue request issued purpose =>
      obtain rfl := Option.some.inj hact
      obtain hmem | ⟨outcome, hmem⟩ := h
      · obtain hmem | hmem := mem_append.1 hmem
        · exact .inl (.inl hmem)
        · exact .inr (.inl ⟨request, issued, purpose, rfl, mem_singleton.1 hmem⟩)
      · exact (hdue hmem).imp_right nofun
    | take taken purpose outcome =>
      obtain rfl := Option.some.inj hact
      obtain hmem | ⟨outcome, hmem⟩ := h
      · exact .inl (.inl (pending_after_subset rfl hmem))
      · exact (hdue hmem).imp_right nofun
    | act b =>
      obtain rfl := Option.some.inj hact
      cases b with
      | issue issued => exact absurd rfl (hfits.1 issued)
      | refuse refused =>
        obtain hmem | ⟨outcome, hmem⟩ := h
        · rw [pending_refuse] at hmem
          exact .inl (.inl hmem)
        · exact (hdue hmem).imp_right fun heq => .inr (congrArg Note.act heq)
      | _ =>
        obtain hmem | ⟨outcome, hmem⟩ := h
        · exact .inl (.inl (pending_after_subset rfl hmem))
        · exact (hdue hmem).imp_right nofun
    | _ => cases hact

/-- A load comes under way only by being asked for. -/
theorem openLoad_snoc {ℓ : List Note} {x : Note} (hfits : x.Fits ℓ) (h : OpenLoad (ℓ ++ [x])) :
    OpenLoad ℓ ∨ Posted (ℓ ++ [x]) := by
  obtain ⟨call, label, d, generation, haddressee, hopen⟩ := h
  obtain hopen | ⟨request, issued, purpose, rfl, rfl⟩ | rfl := open_snoc hfits hopen
  · exact .inl ⟨call, label, d, generation, haddressee, hopen⟩
  · exact .inr ⟨ℓ, _, issued, label, d, generation, rfl, haddressee, .inl ⟨request, purpose, rfl⟩⟩
  · exact .inr ⟨ℓ, _, call, label, d, generation, rfl, haddressee, .inr rfl⟩

theorem openLoad_append {ℓ notes : List Note} (hvalid : Valid (ℓ ++ notes))
    (hnotes : ∀ x ∈ notes, ¬ x.IsDeed) (h : OpenLoad (ℓ ++ notes)) : OpenLoad ℓ := by
  induction notes using List.reverseRecOn with
  | nil => exact append_nil ℓ ▸ h
  | append_singleton notes x ih =>
    rw [← append_assoc] at h hvalid
    obtain ⟨hvalid, -, hfits⟩ := throughout_snoc.1 hvalid
    refine ih hvalid (fun y hy => hnotes y (mem_append_left _ hy))
      ((openLoad_snoc hfits h).resolve_right ?_)
    rintro ⟨before, y, call, label, d, generation, heq, -, hy⟩
    have hdeed : x.IsDeed := by
      obtain ⟨request, purpose, rfl⟩ | rfl := hy
      · cases eq_of_snoc_eq heq
        trivial
      · cases eq_of_snoc_eq heq
        trivial
    exact hnotes x mem_concat_self hdeed

end IdeMode
