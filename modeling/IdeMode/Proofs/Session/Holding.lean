import IdeMode.Proofs.Session.Order
import IdeMode.Proofs.Session.Unedited
set_option autoImplicit false

/-!
# What the compiler holds

If the operations of a session do what they do one after the other, nothing is done while a call is
under way. So the load behind a document that counts as loaded, or that a command relies on, is the
last one that was issued, and no process was started since.
-/

namespace IdeMode

open Account Session List

variable {ℓ notes before after : List Note} {x : Note} {call call' : Call}
  {request : SessionRequest} {purpose : Purpose}

/-! ## Calls that are under way -/

/-- Somebody is to be told the outcome of a call: an operation waits for it, or the continuation of
a load. -/
def Engaged (ℓ : List Note) (call : Call) : Prop :=
  Awaited (acts ℓ) call.id ∨
    (∃ label d generation, call.addressee = .load label d generation) ∧ Open ℓ call

theorem Engaged.not_quiescent (h : Engaged ℓ call) : ¬ Quiescent ℓ := by
  intro hquiescent
  rcases h with hawaited | ⟨⟨label, d, generation, haddressee⟩, hopen⟩
  · exact hquiescent.unawaited call.id hawaited
  · exact hquiescent.unloading ⟨call, label, d, generation, haddressee, hopen⟩

theorem given_of_open (hfaithful : Faithful (ℓ ++ notes)) (h : Open (ℓ ++ notes) call) :
    Open ℓ call ∨ call ∈ given (acts notes) := by
  induction notes using List.reverseRecOn with
  | nil => exact .inl (append_nil ℓ ▸ h)
  | append_singleton notes x ih =>
    rw [← append_assoc] at hfaithful h
    have hlast : ∀ a, x.act? = some a → a.given? = some call →
        call ∈ given (acts (notes ++ [x])) := by
      intro a hact hgiven
      rw [acts_snoc_of_some hact]
      exact mem_given mem_concat_self hgiven
    rcases open_snoc hfaithful.fits h with hopen | ⟨request, issued, purpose, rfl, hcall⟩ | rfl
    · refine (ih hfaithful.initial hopen).imp_right fun hmem => ?_
      rw [acts_append]
      unfold given at hmem ⊢
      rw [filterMap_append]
      exact mem_append_left _ hmem
    · have hid : issued.id = (replay (acts (ℓ ++ notes))).calls.nextId := hfaithful.possible rfl
      obtain rfl : call = issued := by rw [hcall, ← hid]
      exact .inr (hlast _ rfl rfl)
    · exact .inr (hlast _ rfl rfl)

/-- A call that is under way has been so since it was issued. -/
theorem Engaged.initial (hfaithful : Faithful (ℓ ++ notes))
    (hissued : .issue request call purpose ∈ ℓ) (h : Engaged (ℓ ++ notes) call) :
    Engaged ℓ call := by
  rcases h with ⟨⟨waited, hmem, hid, hwaiter⟩, huntaken⟩ | ⟨haddressee, hopen⟩
  · have hgiven := mem_given_of_issue (mem_append_left notes hissued)
    obtain rfl := hfaithful.lawful.given_inj (mem_given hmem rfl) hgiven hid
    refine .inl ⟨⟨waited, mem_acts.2 ⟨_, hissued, rfl⟩, rfl, hwaiter⟩,
      fun outcome htaken => huntaken outcome ?_⟩
    rw [acts_append]
    exact mem_append_left _ htaken
  · refine .inr ⟨haddressee, (given_of_open hfaithful hopen).resolve_right fun hagain => ?_⟩
    have hnumbers := hfaithful.lawful.numbers.1
    rw [acts_append] at hnumbers
    unfold given at hnumbers
    rw [filterMap_append] at hnumbers
    exact absurd ((pairwise_append.1 hnumbers).2.2 call (mem_given_of_issue hissued) call hagain)
      (Nat.lt_irrefl _)

/-- Nothing is done while a call is under way. -/
theorem Engaged.calm (hfaithful : Faithful (before ++ .issue request call purpose :: after))
    (hserial : Serial (before ++ .issue request call purpose :: after))
    (h : Engaged (before ++ .issue request call purpose :: after) call) :
    ∀ y ∈ after, ¬ y.IsDeed := by
  intro y hy hdeed
  obtain ⟨mid, rest, rfl⟩ := append_of_mem hy
  have hsplit : before ++ .issue request call purpose :: (mid ++ y :: rest) =
      (before ++ .issue request call purpose :: mid) ++ y :: rest := by simp
  rw [hsplit] at hfaithful hserial h
  have hthen := h.initial hfaithful (mem_append_right _ mem_cons_self)
  exact hthen.not_quiescent (hserial _ y rest rfl hdeed)

theorem Faithful.engaged_of_take {outcome : Outcome}
    (h : Faithful (ℓ ++ [.take call purpose outcome])) : Engaged ℓ call := .inl (h.possible rfl).1

variable {d generation : Nat}

/-- The call of a load is under way until its outcome is told. -/
theorem Faithful.engaged_of_told {outcome : Outcome} (h : Faithful (ℓ ++ [x]))
    (hx : x = .take call purpose outcome ∨
      x = .act (.resume call outcome) ∧ ∃ label, call.addressee = .load label d generation) :
    Engaged ℓ call ∧ ¬ x.IsDeed := by
  rcases hx with rfl | ⟨rfl, label, haddressee⟩
  · exact ⟨h.engaged_of_take, id⟩
  · exact ⟨.inr ⟨⟨label, d, generation, haddressee⟩,
      .inr ⟨outcome, mem_of_mem_head? (h.possible rfl).2⟩⟩, id⟩

theorem Faithful.engaged_of_pending (h : Faithful ℓ) (hissued : .issue request call purpose ∈ ℓ)
    (hcall : call.addressee = .waiter ∨
      ∃ label d generation, call.addressee = .load label d generation)
    (hpending : call ∈ (replay (acts ℓ)).calls.pending) : Engaged ℓ call := by
  rcases hcall with hwaiter | hload
  · refine .inl ⟨⟨call, mem_acts.2 ⟨_, hissued, rfl⟩, rfl, hwaiter⟩, fun outcome htaken => ?_⟩
    exact h.lawful.untold_of_pending hpending (mem_told.2 (.inl htaken))
  · exact .inr ⟨hload, .inl hpending⟩

theorem Faithful.mem_pending (h : Faithful ℓ) (hissued : .issue request call purpose ∈ ℓ)
    (hpending : Pending ℓ call) : call ∈ (replay (acts ℓ)).calls.pending := by
  obtain ⟨same, hmem, hid⟩ := any_eq_true.1 hpending
  have hgiven := mem_given_of_issue hissued
  obtain rfl := h.lawful.given_inj (h.lawful.pending_given hmem) hgiven (of_decide_eq_true hid)
  exact hmem

/-- At most one call is under way. -/
theorem Engaged.unique {request' : SessionRequest} {purpose' : Purpose} (hfaithful : Faithful ℓ)
    (hserial : Serial ℓ) (hissued : .issue request call purpose ∈ ℓ)
    (hissued' : .issue request' call' purpose' ∈ ℓ)
    (h : Engaged ℓ call) (h' : Engaged ℓ call') : call' = call := by
  obtain ⟨before, after, rfl⟩ := append_of_mem hissued
  rcases hfaithful.issue_cases hissued' with ⟨-, hlt⟩ | heq | ⟨hlater, -⟩
  · obtain ⟨before', after', hsplit⟩ := append_of_mem hissued'
    rw [hsplit] at hfaithful hserial h' hissued
    rcases hfaithful.issue_cases hissued with ⟨-, hgt⟩ | heq | ⟨hlater, -⟩
    · exact absurd hlt (Nat.lt_asymm hgt)
    · exact (Note.issue.inj heq).2.1.symm
    · exact absurd trivial (h'.calm hfaithful hserial _ hlater)
  · exact (Note.issue.inj heq).2.1
  · exact absurd trivial (h.calm hfaithful hserial _ hlater)

/-! ## The last load -/

/-- A load is issued or a process started: what the compiler held before does not count any more. -/
def Note.Supersedes : Note → Prop
  | .issue _ _ (.load _ _) | .spawn _ => True
  | _ => False

/-- A note after which the compiler holds what it held, and nobody but its owner has changed a
buffer. -/
def Note.Spares : Note → Prop
  | .issue _ _ (.load _ _) | .spawn _ | .change _ | .adopt _ _ => False
  | _ => True

theorem Note.Spares.not_supersedes (h : x.Spares) : ¬ x.Supersedes := by
  intro hx
  cases x with
  | issue request call purpose => cases purpose <;> first | exact h | exact hx
  | spawn c => exact h
  | _ => exact hx

theorem Note.spares_of_not_deed (h : ¬ x.IsDeed) : x.Spares := by
  cases x with
  | issue request call purpose => exact absurd trivial h
  | spawn c => exact h trivial
  | change p => exact h trivial
  | adopt d b => exact h trivial
  | _ => trivial

/-- The note of a load that was issued, with what was noted before it and after it. -/
structure LoadIssue where
  before : List Note
  request : SessionRequest
  call : Call
  document : Nat
  generation : Nat
  after : List Note

variable {p : Path}

namespace LoadIssue

def note (L : LoadIssue) : Note := .issue L.request L.call (.load L.document L.generation)

def log (L : LoadIssue) : List Note := L.before ++ L.note :: L.after

/-- The same load, when more has been noted. -/
def grow (L : LoadIssue) (notes : List Note) : LoadIssue := { L with after := L.after ++ notes }

theorem log_grow (L : LoadIssue) (notes : List Note) : (L.grow notes).log = L.log ++ notes := by
  simp [log, note, grow]

/-- No change of a file was announced since the load was issued. -/
def Fresh (L : LoadIssue) (p : Path) : Prop := Unchanged p L.before (L.note :: L.after)

/-- The owner of a buffer read it again since the load was issued, while a request was answered. -/
def Reread (L : LoadIssue) : Prop := ∃ d b, .reread d b ∈ L.after

/-- The load was answered well and nothing took its place. -/
structure Held (L : LoadIssue) (doc : Document) : Prop where
  found : (recount L.before).documents[L.document]? = some doc
  watched : doc.watched = true
  command_eq : L.call.command = loadCommand doc.buffer.path
  cwd_eq : (recount L.before).cwd = some doc.buffer.path.parent
  generation_eq : (recount L.before).generation doc.buffer.path = L.generation
  answered : Answered L.log L.call
  last : ∀ y ∈ L.after, ¬ y.Supersedes

variable {L : LoadIssue} {doc : Document}

theorem Held.grow (h : L.Held doc) (hnotes : ∀ y ∈ notes, ¬ y.Supersedes) :
    (L.grow notes).Held doc := by
  refine ⟨h.found, h.watched, h.command_eq, h.cwd_eq, h.generation_eq, ?_, fun y hy => ?_⟩
  · rw [log_grow]
    exact h.answered.append notes
  · rcases mem_append.1 hy with hy | hy
    · exact h.last y hy
    · exact hnotes y hy

theorem Fresh.grow (h : L.Fresh p) (hnotes : Unchanged p L.log notes) : (L.grow notes).Fresh p :=
  Unchanged.append h hnotes

theorem unchanged_of_spares (hnotes : ∀ y ∈ notes, y.Spares)
    (hreread : ∀ d b, .reread d b ∉ notes) : Unchanged p ℓ notes := by
  rintro mid y rest rfl hchange
  have hy : y ∈ mid ++ y :: rest := mem_append_right _ mem_cons_self
  cases y with
  | change q => exact hnotes _ hy
  | adopt d b => exact hnotes _ hy
  | reread d b => exact hreread d b hy
  | _ => cases hchange

theorem fresh_or_reread_grow (h : L.Fresh p ∨ L.Reread) (hnotes : ∀ y ∈ notes, y.Spares) :
    (L.grow notes).Fresh p ∨ (L.grow notes).Reread := by
  rcases h with hfresh | ⟨d, b, hmem⟩
  · by_cases hreread : ∃ d b, .reread d b ∈ notes
    · obtain ⟨d, b, hmem⟩ := hreread
      exact .inr ⟨d, b, mem_append_right _ hmem⟩
    · exact .inl (hfresh.grow (unchanged_of_spares hnotes fun d b hmem => hreread ⟨d, b, hmem⟩))
  · exact .inr ⟨d, b, mem_append_left _ hmem⟩

theorem fresh_or_reread (p : Path) (h : ∀ y ∈ L.after, y.Spares) : L.Fresh p ∨ L.Reread := by
  by_cases hreread : L.Reread
  · exact .inr hreread
  · refine .inl (unchanged_cons.2
      ⟨nofun, unchanged_of_spares h fun d b hmem => hreread ⟨d, b, hmem⟩⟩)

end LoadIssue

open LoadIssue

/-- A load that is about to be recorded is the last one, and nothing was done since it was
issued. -/
theorem Faithful.held_of_record (h : Faithful (ℓ ++ [.record d generation])) (hserial : Serial ℓ) :
    ∃ (L : LoadIssue) (doc : Document),
      L.log = ℓ ∧ L.document = d ∧ L.generation = generation ∧ L.Held doc ∧
      ∀ y ∈ L.after, ¬ y.IsDeed := by
  obtain ⟨first, x, request, call, r, rfl, hissued, hanswered, htold⟩ := h.told_of_record
  obtain ⟨hengaged, hx⟩ := h.initial.engaged_of_told htold
  obtain ⟨before, after, rfl⟩ := append_of_mem hissued
  have hfirst := h.initial.initial
  have hcalm := hengaged.calm hfirst (Throughout.initial hserial)
  obtain ⟨doc, hdoc, hwatched, hcommand, -, hcwd, hgeneration, -⟩ :=
    (hfirst.valid before _ after rfl).2
  have hafter : ∀ y ∈ after ++ [x], ¬ y.IsDeed := by
    intro y hy
    rcases mem_append.1 hy with hy | hy
    · exact hcalm y hy
    · rw [mem_singleton.1 hy]
      exact hx
  have hlog : before ++ .issue request call (.load d generation) :: (after ++ [x]) =
      before ++ .issue request call (.load d generation) :: after ++ [x] := by simp
  refine ⟨⟨before, request, call, d, generation, after ++ [x]⟩, doc, hlog, rfl, rfl, ?_, hafter⟩
  refine ⟨hdoc, hwatched, hcommand, hcwd, hgeneration, ?_, fun y hy => ?_⟩
  · show Answered (before ++ .issue request call (.load d generation) :: (after ++ [x])) call
    rw [hlog]
    exact hanswered.append _
  · exact (Note.spares_of_not_deed (hafter y hy)).not_supersedes

theorem LoadIssue.Held.path_eq {L : LoadIssue} {doc : Document} (h : L.Held doc)
    (hvalid : Valid L.log) : ((recount L.log).buffer L.document).path = doc.buffer.path :=
  path_later h.found (prefix_append L.before _) hvalid

/-- The load behind a document that counts as loaded is the last one, and the document has not been
changed since. -/
theorem Faithful.held_of_loaded (h : Faithful ℓ) (hserial : Serial ℓ)
    (hloaded : (recount ℓ).loaded = some d) :
    ∃ (L : LoadIssue) (doc : Document), L.log = ℓ ∧ L.document = d ∧ L.Held doc ∧
      L.Fresh doc.buffer.path := by
  induction ℓ using List.reverseRecOn with
  | nil => cases hloaded
  | append_singleton ℓ x ih =>
    have hbefore := h.initial
    rcases loaded_snoc h.fits hloaded with ⟨generation, rfl, hgeneration⟩ | ⟨hstill, hkept⟩
    · obtain ⟨L, doc, rfl, rfl, rfl, hheld, -⟩ := h.held_of_record (Throughout.initial hserial)
      rw [hheld.path_eq hbefore.valid] at hgeneration
      have hfresh : L.Fresh doc.buffer.path := by
        unfold Fresh
        rw [unchanged_iff, hheld.generation_eq]
        exact Nat.le_of_eq hgeneration
      refine ⟨L.grow _, doc, L.log_grow _, rfl, hheld.grow (by simp [Note.Supersedes]),
        hfresh.grow ?_⟩
      exact unchanged_of_spares (by simp [Note.Spares]) (by simp)
    · obtain ⟨L, doc, rfl, rfl, hheld, hfresh⟩ := ih hbefore (Throughout.initial hserial) hstill
      have hsupersedes : ¬ x.Supersedes := by
        intro hx
        cases x with
        | issue request call purpose =>
          cases purpose with
          | load d generation =>
            obtain ⟨-, -, -, -, hunloaded, -⟩ := h.fits
            rw [hunloaded] at hstill
            cases hstill
          | _ => exact hx
        | spawn c =>
          obtain ⟨first, hforget⟩ := h.fits
          rw [hforget, recount_snoc] at hstill
          cases hstill
        | _ => exact hx
      have hunchanged : Unchanged doc.buffer.path L.log ([] ++ [x]) := by
        refine unchanged_snoc.2 ⟨by simp [Unchanged], ?_⟩
        rw [append_nil, ← hheld.path_eq hbefore.valid]
        exact fun hchange => hkept (.inr (.inr hchange))
      refine ⟨L.grow [x], doc, L.log_grow [x], rfl, hheld.grow fun y hy => ?_,
        hfresh.grow hunchanged⟩
      rw [mem_singleton.1 hy]
      exact hsupersedes

/-- What is not stale is at the path of the document that counts as loaded. -/
theorem loaded_of_not_stale {session : Session} (h : session.isStale p = false) :
    ∃ d, session.loaded = some d ∧ (session.buffer d).path = p := by
  unfold isStale isLoaded loadedPath? at h
  simp only [Bool.or_eq_false_iff, Bool.not_eq_false', decide_eq_true_eq] at h
  exact Option.map_eq_some_iff.1 h.2

/-- The compiler holds the file of a document: the last load was of it, and no change of it was
announced since, unless a buffer was read again by its owner. -/
structure Holds (ℓ : List Note) (d : Nat) (L : LoadIssue) (doc : Document) : Prop where
  log_eq : L.log = ℓ
  held : L.Held doc
  path_eq : ((recount ℓ).buffer d).path = doc.buffer.path
  fresh : L.Fresh doc.buffer.path ∨ L.Reread

theorem Holds.grow {L : LoadIssue} {doc current : Document} (h : Holds ℓ d L doc)
    (hcurrent : (recount ℓ).documents[d]? = some current) (hvalid : Valid (ℓ ++ notes))
    (hnotes : ∀ y ∈ notes, y.Spares) : Holds (ℓ ++ notes) d (L.grow notes) doc := by
  obtain ⟨rfl, hheld, hpath, hfresh⟩ := h
  refine ⟨L.log_grow notes, hheld.grow fun y hy => (hnotes y hy).not_supersedes, ?_,
    fresh_or_reread_grow hfresh hnotes⟩
  rw [path_later hcurrent (prefix_append L.log notes) hvalid, ← buffer_eq hcurrent, hpath]

/-- What a question relies on the compiler holds until it is answered, if it did when the question
was issued. -/
theorem Faithful.holds_of_asked (h : Faithful (before ++ .issue request call (.ask d) :: after))
    (hserial : Serial (before ++ .issue request call (.ask d) :: after))
    (hengaged : Engaged (before ++ .issue request call (.ask d) :: after) call)
    (hbefore : ∃ L doc, Holds before d L doc) :
    ∃ L doc, Holds (before ++ .issue request call (.ask d) :: after) d L doc := by
  obtain ⟨L, doc, hholds⟩ := hbefore
  obtain ⟨-, -, -, current, hcurrent, -⟩ := (h.valid before _ after rfl).2
  have hcalm := hengaged.calm h hserial
  refine ⟨_, doc, hholds.grow hcurrent h.valid fun y hy => ?_⟩
  rcases mem_cons.1 hy with rfl | hy
  · trivial
  · exact Note.spares_of_not_deed (hcalm y hy)

/-- What is not stale the compiler holds. -/
theorem Faithful.holds_of_not_stale {current : Document} (h : Faithful ℓ) (hserial : Serial ℓ)
    (hcurrent : (recount ℓ).documents[d]? = some current)
    (hstale : (recount ℓ).isStale current.buffer.path = false) :
    ∃ L doc, Holds ℓ d L doc ∧ L.Fresh doc.buffer.path := by
  obtain ⟨loaded, hloaded, hpath⟩ := loaded_of_not_stale hstale
  obtain ⟨L, doc, rfl, rfl, hheld, hfresh⟩ := h.held_of_loaded hserial hloaded
  rw [hheld.path_eq h.valid] at hpath
  exact ⟨L, doc, ⟨rfl, hheld, by rw [buffer_eq hcurrent, hpath], .inl hfresh⟩, hfresh⟩

/-- What was just loaded the compiler holds. -/
theorem Faithful.holds_of_recorded (h : Faithful (ℓ ++ [.record d generation]))
    (hserial : Serial ℓ) : ∃ L doc, Holds (ℓ ++ [.record d generation]) d L doc ∧ L.document = d ∧
      ∀ y ∈ L.after, ¬ y.IsDeed := by
  obtain ⟨L, doc, rfl, rfl, rfl, hheld, hafter⟩ := h.held_of_record hserial
  have hbefore := h.initial.valid
  obtain ⟨known, hknown, -⟩ := Keeps.recount (prefix_append L.before _) hbefore L.document
    doc hheld.found
  have hfresh := fresh_or_reread doc.buffer.path fun y hy => Note.spares_of_not_deed (hafter y hy)
  have hholds : Holds L.log L.document L doc := ⟨rfl, hheld, hheld.path_eq hbefore, hfresh⟩
  refine ⟨_, doc, hholds.grow hknown h.valid (by simp [Note.Spares]), rfl, fun y hy => ?_⟩
  rcases mem_append.1 hy with hy | hy
  · exact hafter y hy
  · rw [mem_singleton.1 hy]
    exact id

/-- What a command may rely on the compiler holds. -/
theorem Faithful.holds_of_ready (h : Faithful ℓ) (hserial : Serial ℓ) (hready : Ready d ℓ) :
    ∃ L doc, Holds ℓ d L doc := by
  induction hlength : ℓ.length using Nat.strongRecOn generalizing ℓ with
  | _ n ih =>
    subst hlength
    obtain ⟨current, hcurrent, hstale | ⟨before, generation, rfl⟩ | ⟨before, call, r, rfl⟩⟩ :=
      hready
    · obtain ⟨L, doc, hholds, -⟩ := h.holds_of_not_stale hserial hcurrent hstale
      exact ⟨L, doc, hholds⟩
    · obtain ⟨L, doc, hholds, -⟩ := h.holds_of_recorded (Throughout.initial hserial)
      exact ⟨L, doc, hholds⟩
    · -- what was relied on when the question was issued has not been touched while it was answered
      have hengaged := h.engaged_of_take
      obtain ⟨⟨request, hissued⟩, -⟩ := h.fits
      obtain ⟨first, rest, rfl⟩ := append_of_mem hissued
      have hready := (h.initial.valid first _ rest rfl).2.2.2.2
      have hserial' := Throughout.initial hserial
      have hfirst :=
        ih first.length (by simp) h.initial.initial (Throughout.initial hserial') hready rfl
      obtain ⟨L, doc, hholds⟩ := h.initial.holds_of_asked hserial' hengaged hfirst
      obtain ⟨known, hknown, -⟩ := hready
      obtain ⟨later, hlater, -⟩ :=
        Keeps.recount (prefix_append first _) h.initial.valid d known hknown
      exact ⟨_, doc, hholds.grow hlater h.valid (by simp [Note.Spares])⟩

/-- What a question relies on the compiler holds when it is written. -/
theorem Faithful.holds_of_write {c : Nat} (h : Faithful (ℓ ++ [.write c call])) (hserial : Serial ℓ)
    (hissued : .issue request call (.ask d) ∈ ℓ) : ∃ L doc, Holds ℓ d L doc := by
  obtain ⟨before, after, rfl⟩ := append_of_mem hissued
  obtain ⟨-, hwaiter, -, hready⟩ := (h.initial.valid before _ after rfl).2
  have hengaged :=
    h.initial.engaged_of_pending hissued (.inl hwaiter) (h.initial.mem_pending hissued h.fits.1.2.1)
  exact h.initial.holds_of_asked hserial hengaged
    (h.initial.initial.holds_of_ready (Throughout.initial hserial) hready)

end IdeMode
