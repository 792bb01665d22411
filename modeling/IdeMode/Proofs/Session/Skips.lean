import IdeMode.Proofs.Session.Sight
set_option autoImplicit false

/-!
# Loads that are skipped

A load is skipped exactly where the document is not stale, whether or not a process runs. When the
operations of a session come one at a time, there is then an answered load of the file behind it,
which nothing took the place of. Where a load is not skipped and no process runs, one is started and
the file is loaded there, or the operation fails.
-/

namespace IdeMode

open Account Session LoadIssue List

variable {ℓ notes before after : List Note} {call : Call} {s : Nat} {m : Machine}
  {moves : List Move} {book : List (List Note)}

/-- Whatever is not stale is skipped at once, whether or not a process runs. -/
theorem run_of_not_stale {w : World} {d : Nat}
    (h : (w.session s).isStale ((w.session s).buffer d).path = false) :
    (Client.ensureLoaded s d).run w = (.finished (.ok false), w) ∧
      ∀ label, (Client.postLoad s d label).run w =
        (.finished (.ok none), w.enqueue (.skip label)) := by
  constructor
  · show Prog.run (if !(w.session s).isStale ((w.session s).buffer d).path then _ else _) w = _
    rw [h]
    rfl
  · intro label
    show Prog.run (if !(w.session s).isStale ((w.session s).buffer d).path then _ else _) w = _
    rw [h]
    rfl

/-- What was answered says that a document was not loaded, nor a load of it asked for. -/
def Skips (ℓ : List Note) : DocumentRequest → Result Answer → Prop
  | .ensureLoaded, r => r = .ok (.flag false)
  | .postLoad _, r => (∃ a, r = .ok a) ∧ ¬ Posted ℓ
  | _, _ => False

theorem upToDate_of_skips {name : String} {request : DocumentRequest} {r : Result Answer}
    (h : Warrants ℓ (.document name request) r) (hskips : Skips ℓ request r) :
    ∃ d, (recount ℓ).findDocument? name = some d ∧ UpToDate d false ℓ := by
  cases request with
  | ensureLoaded =>
    obtain rfl := hskips
    exact h
  | postLoad label =>
    obtain ⟨⟨a, rfl⟩, hposted⟩ := hskips
    obtain ⟨d, hfind, hup⟩ := h
    exact ⟨d, hfind, hup.resolve_right hposted⟩
  | _ => exact hskips.elim

/-- A process of a session that is not running does not come back. -/
theorem Logbook.gone_of_child {n c : Nat} (h : Logbook s m moves book) (hn : n ≤ moves.length)
    (hidle : (m.follow (moves.take n)).world.isRunning s = false)
    (hchild : (recount (logOf (book.take n))).transport.child = some c) :
    (m.follow (moves.take n)).world.host.Gone c := by
  have hshows := h.shows n hn
  obtain ⟨first, rest, hspawn⟩ := append_of_mem (spawn_mem_of_child hchild)
  rw [← hshows.memory_eq] at hchild
  change ((m.follow (moves.take n)).world.session s).transport.child = some c at hchild
  unfold World.isRunning at hidle
  rw [hchild] at hidle
  exact ⟨(hshows.spawns first c rest hspawn).1, hidle⟩

/-- A load that was issued since an operation began when no process ran was written to a process
started since. -/
theorem Logbook.spawned {n c index : Nat} {request : SessionRequest} {L : LoadIssue}
    (h : Logbook s m moves book) (hn : n ≤ moves.length)
    (hlog : L.log = logOf (book.take n) ++ notes) (hwhole : L.log <+: logOf book)
    (hlaunch : .launch index request ∈ notes) (hcalm : ∀ y ∈ L.after, ¬ y.IsDeed)
    (hidle : (m.follow (moves.take n)).world.isRunning s = false) {mid rest : List Note}
    (hreached : L.Reached c mid rest) : .spawn c ∈ notes := by
  -- the load was issued after the operation began
  obtain ⟨more, hbefore, rfl⟩ :
      ∃ more, L.before = logOf (book.take n) ++ more ∧ notes = more ++ L.note :: L.after := by
    rcases append_eq_append_iff.1 hlog with ⟨more, -, htail⟩ | ⟨more, hbefore, hnotes⟩
    · have hmem : .launch index request ∈ L.note :: L.after := by
        rw [htail]
        exact mem_append_right _ hlaunch
      rcases mem_cons.1 hmem with heq | hmem
      · cases heq
      · exact absurd trivial (hcalm _ hmem)
    · exact ⟨more, hbefore, hnotes⟩
  have hwritten : L.log = (L.before ++ L.note :: mid) ++ .write c L.call :: rest := by
    unfold log
    rw [hreached.split, append_assoc, cons_append]
  obtain ⟨tail, htail⟩ := hwhole
  have hchild : (recount (L.before ++ L.note :: mid)).transport.child = some c := by
    have hvalid := h.valid
    rw [← htail, hwritten, append_assoc] at hvalid
    exact (hvalid _ _ _ rfl).2.2
  rw [hbefore, append_assoc] at hchild
  rcases child_append hchild with hspawn | hold
  · rw [hreached.split, ← cons_append, ← append_assoc]
    exact mem_append_left _ hspawn
  · -- nothing is written to a process that is gone
    refine absurd (h.gone_of_child hn hidle hold) ((h.tells n hn).writes c L.call ?_)
    have hdrop : logOf (book.drop n) = more ++ L.note :: L.after ++ tail := by
      rw [← logOf_take_drop book n, hlog, append_assoc] at htail
      exact (append_cancel_left htail).symm
    rw [hdrop, hreached.split]
    simp

/-- What is loaded because it was stale is held, and if no process ran when an operation began, by a
process started since. -/
theorem Logbook.backed_of_loaded {d : Nat} (h : Logbook s m moves book)
    (hfaithful : Faithful before) (hserial : Serial before) (hbefore : before <+: logOf book)
    (hup : UpToDate d true before) : ∃ L doc, Backed before d L doc ∧ L.document = d ∧
      ∀ n ≤ moves.length, ∀ notes, before = logOf (book.take n) ++ notes →
      (∃ index request, .launch index request ∈ notes) →
        (m.follow (moves.take n)).world.isRunning s = false →
      ∀ c, .write c L.call ∈ before → .spawn c ∈ notes := by
  obtain ⟨current, -, first, generation, rfl⟩ := hup
  obtain ⟨L, doc, hholds, hdocument, hcalm⟩ :=
    hfaithful.holds_of_recorded (Throughout.initial hserial)
  have hbacked := hholds.backed hfaithful hserial
  refine ⟨L, doc, hbacked, hdocument, ?_⟩
  intro n hn notes hnotes hlaunch hidle c hwritten
  obtain ⟨index, request, hlaunch⟩ := hlaunch
  obtain ⟨mid, rest, hreached, -⟩ := hbacked.reached c hwritten
  rw [← hbacked.log_eq] at hnotes hbefore
  exact h.spawned hn hnotes hbefore hlaunch hcalm hidle hreached

/-- What the ends of operations say of loads. -/
structure SkipsBacked (s : Nat) (m : Machine) (moves : List Move)
    (book : List (List Note)) : Prop where
  /-- where a load is skipped, the last load was of the same file and was answered, no process was
  started since, and the document that was loaded has the text that it had when the load was
  issued -/
  skipped : ∀ before index name request r after,
    logOf book = before ++ .done index (.document name request) r :: after →
    Skips before request r → ∃ d L doc, (recount before).findDocument? name = some d ∧
      Backed before d L doc ∧ L.Fresh doc.buffer.path
  /-- where a document was loaded since no process ran, this was done by a process that was started
  since -/
  loaded : ∀ before index name after,
    logOf book = before ++ .done index (.document name .ensureLoaded) (.ok (.flag true)) :: after →
    ∃ d L doc, (recount before).findDocument? name = some d ∧ Backed before d L doc ∧
      L.document = d ∧ ∀ n ≤ moves.length, ∀ notes, before = logOf (book.take n) ++ notes →
          (∃ index request, .launch index request ∈ notes) →
        (m.follow (moves.take n)).world.isRunning s = false →
          ∀ c, .write c L.call ∈ before → .spawn c ∈ notes

/-- Operations come one at a time, whatever happens to the process. Where a load is skipped, the
last load was of the same file and was answered, and nothing took its place; but that the process is
still there is not asked: whatever is not stale is skipped, running or not. Where a document is
loaded and no process ran when the operation began, the load was written to a process that was
started since. -/
theorem skipped_load_was_answered {s : Nat} {m : Machine} (hm : m.Pristine s) {moves : List Move}
    (hmoves : ∀ move ∈ moves, move.On s) (hone : OneAtATime s m moves) :
    ((∃ book, Logbook s m moves book) ∧
      ∀ book, Logbook s m moves book → SkipsBacked s m moves book) ∧
    ∀ w d, (w.session s).isStale ((w.session s).buffer d).path = false →
      (Client.ensureLoaded s d).run w = (.finished (.ok false), w) ∧
      ∀ label, (Client.postLoad s d label).run w =
        (.finished (.ok none), w.enqueue (.skip label)) := by
  refine ⟨⟨hm.logbook hmoves, ?_⟩, fun w d => run_of_not_stale⟩
  intro book hbook
  constructor
  · intro before index name request r after hlog hskips
    obtain ⟨hfaithful, hserial⟩ := hbook.parts hone hlog
    obtain ⟨d, hfind, current, hcurrent, hstale⟩ := upToDate_of_skips hfaithful.fits.2 hskips
    obtain ⟨L, doc, hholds, hfresh⟩ := hfaithful.initial.holds_of_not_stale hserial hcurrent hstale
    exact ⟨d, L, doc, hfind, hholds.backed hfaithful.initial hserial, hfresh⟩
  · intro before index name after hlog
    obtain ⟨hfaithful, hserial⟩ := hbook.parts hone hlog
    obtain ⟨-, d, hfind, hup⟩ := hfaithful.fits
    have hbefore : before <+: logOf book := ⟨_, hlog.symm⟩
    obtain ⟨L, doc, hbacked⟩ := hbook.backed_of_loaded hfaithful.initial hserial hbefore hup
    exact ⟨d, L, doc, hfind, hbacked⟩

/-- An operation that has come to an end was begun by a move, and its end is noted. -/
theorem Logbook.done_of_finished {index : Nat} {r : Result Answer} (h : Logbook s m moves book)
    (hm : m.finished = []) (hmem : (index, r) ∈ (m.follow moves).finished) :
    ∃ before request after, logOf book = before ++ .done index request r :: after ∧
      (index, request) ∈ moves.filterMap Move.launch? := by
  have hlength := h.toJournal.length_eq
  have hfinished := h.finished moves.length (Nat.le_refl _)
  rw [take_length, ← hlength, take_length, hm, nil_append] at hfinished
  rw [hfinished] at hmem
  obtain ⟨y, hy, hdone⟩ := mem_filterMap.1 hmem
  cases y with
  | done index' request r' =>
    cases hdone
    obtain ⟨before, after, hlog⟩ := append_of_mem hy
    refine ⟨before, request, after, hlog, ?_⟩
    have hlaunch : .launch index request ∈ logOf book := by
      rw [hlog]
      exact mem_append_left _ (h.valid before _ after hlog).2.1
    obtain ⟨notes, hnotes, hlaunch⟩ := mem_flatMap.1 hlaunch
    have hbegun : (index, request) ∈ notes.filterMap Note.launch? :=
      mem_filterMap.2 ⟨_, (mem_cons.1 hlaunch).resolve_left nofun, rfl⟩
    have hmoves : notes.filterMap Note.launch? ∈ moves.map fun move => move.launch?.toList := by
      rw [← h.launched]
      exact mem_map_of_mem hnotes
    obtain ⟨move, hmove, heq⟩ := mem_map.1 hmoves
    rw [← heq] at hbegun
    exact mem_filterMap.2 ⟨move, hmove, Option.mem_toList.1 hbegun⟩
  | _ => cases hdone

/-- A file is loaded, the compiler exits, and the file is asked for again. -/
def exitMoves : List Move :=
  loadMoves ++ .change (.exit 0) :: .launch 1 (.session 0 (.document "A.idr" .ensureLoaded)) ::
    List.replicate 3 .turn

/-- An operation with a number has found that there is nothing to load. -/
def skippedAs (index : Nat) : Nat × Result Answer → Bool
  | (i, .ok (.flag loaded)) => decide (i = index) && !loaded
  | _ => false

/-- After the exit the load is skipped, since it was answered before, although no process runs. -/
theorem skipped_load_was_answered_exit : deskMachine.Pristine 0 ∧ (∀ move ∈ exitMoves, move.On 0) ∧
    OneAtATime 0 deskMachine exitMoves ∧ (deskMachine.follow exitMoves).world.isRunning 0 = false ∧
    ∃ book before request after, Logbook 0 deskMachine exitMoves book ∧
      logOf book = before ++ .done 1 request (.ok (.flag false)) :: after ∧
      ∃ d L doc, (recount before).findDocument? "A.idr" = some d ∧ Backed before d L doc ∧
        L.Fresh doc.buffer.path := by
  have hmoves : ∀ move ∈ exitMoves, move.On 0 := by
    simp [exitMoves, loadMoves, answeredBy, Move.On, SessionRequest.Genuine]
  have hone : OneAtATime 0 deskMachine exitMoves := by decide +kernel
  have hidle : (deskMachine.follow exitMoves).world.isRunning 0 = false := by decide +kernel
  have hskipped : (deskMachine.follow exitMoves).finished.any (skippedAs 1) = true := by
    decide +kernel
  obtain ⟨⟨⟨book, hbook⟩, hbacked⟩, -⟩ := skipped_load_was_answered deskMachine_pristine hmoves hone
  obtain ⟨⟨index, r⟩, hmem, hr⟩ := any_eq_true.1 hskipped
  obtain ⟨rfl, rfl⟩ : index = 1 ∧ r = .ok (.flag false) := by
    unfold skippedAs at hr
    split at hr
    · next heq =>
      cases heq
      simpa using hr
    · cases hr
  obtain ⟨before, request, after, hlog, hlaunched⟩ := hbook.done_of_finished rfl hmem
  obtain rfl : .document "A.idr" .ensureLoaded = request := by
    simpa [exitMoves, loadMoves, answeredBy, Move.launch?] using hlaunched
  exact ⟨deskMachine_pristine, hmoves, hone, hidle, book, before, _, after, hbook, hlog,
    (hbacked book hbook).skipped before 1 "A.idr" .ensureLoaded _ after hlog rfl⟩

end IdeMode
