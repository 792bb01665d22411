import IdeMode.Proofs.Session.Sight
set_option autoImplicit false

/-!
# Loads that overlap

When a load is issued no document counts as loaded. As long as that load has brought no answer,
because it is pending or because it failed, a document counts as loaded exactly if the answer to
another load arrived in the meantime. So where loads do not overlap, nothing counts as loaded while
a load is pending, nor after the last one failed.
-/

namespace IdeMode

open Account Session List

variable {ℓ notes before after : List Note} {x : Note} {call : Call} {d generation : Nat}

/-! ## The document that counts as loaded -/

/-- A document does not count as loaded any more, or another one does. -/
def Displaces (d : Nat) (before : List Note) (x : Note) : Prop :=
  Unloads d before x ∨ ∃ d', d' ≠ d ∧ Records d' before x

theorem loaded_of_records (h : Records d ℓ x) : (recount (ℓ ++ [x])).loaded = some d := by
  obtain ⟨generation, rfl, hgeneration⟩ := h
  rw [recount_snoc]
  show ((recount ℓ).recordLoad d generation).loaded = some d
  unfold recordLoad
  rw [if_pos hgeneration]
  rfl

theorem Session.loaded_noteChange_of_ne {session : Session} {p : Path} (h : session.loaded = some d)
    (hp : p ≠ (session.buffer d).path) : (session.noteChange p).loaded = some d := by
  have hother : session.isLoaded p = false := by
    unfold isLoaded loadedPath?
    rw [h, Option.map_some]
    exact decide_eq_false fun heq => hp (Option.some.inj heq).symm
  unfold noteChange
  rw [hother]
  exact h

/-- Whatever does not displace a document leaves it loaded. -/
theorem loaded_snoc_of_not_displaces (hfits : x.Fits ℓ) (h : (recount ℓ).loaded = some d)
    (hx : ¬ Displaces d ℓ x) : (recount (ℓ ++ [x])).loaded = some d := by
  have hadopt : ∀ d' b, b.Succeeds ((recount ℓ).buffer d') →
      (recount ℓ).announces? d' b ≠ some ((recount ℓ).buffer d).path →
        ((recount ℓ).adopt d' b).loaded = some d := by
    intro d' b hb hne
    cases hannounced : (recount ℓ).announces? d' b with
    | none =>
      rw [adopt_of_not_announces hannounced]
      exact h
    | some p =>
      rw [adopt_of_announces hannounced]
      refine loaded_noteChange_of_ne h ?_
      rw [path_setBuffer hb]
      exact fun heq => hne (heq ▸ hannounced)
  rw [recount_snoc]
  cases x with
  | act a => cases a <;> exact h
  | forget => exact absurd (.inl (.inl rfl)) hx
  | clear => exact absurd (.inl (.inr (.inl rfl))) hx
  | record d' generation =>
    show ((recount ℓ).recordLoad d' generation).loaded = some d
    by_cases hgeneration : (recount ℓ).generation ((recount ℓ).buffer d').path = generation
    · obtain rfl : d' = d :=
        Classical.by_contradiction fun hne => hx (.inr ⟨d', hne, generation, rfl, hgeneration⟩)
      unfold recordLoad
      rw [if_pos hgeneration]
      rfl
    · unfold recordLoad
      rw [if_neg hgeneration]
      exact h
  | change p =>
    exact loaded_noteChange_of_ne h fun heq => hx (.inl (.inr (.inr (congrArg some heq))))
  | adopt d' b => exact hadopt d' b hfits fun heq => hx (.inl (.inr (.inr heq)))
  | reread d' b => exact hadopt d' b hfits.1 fun heq => hx (.inl (.inr (.inr heq)))
  | _ => exact h

/-- A document counts as loaded exactly from when a load of it was recorded until something
displaces it. -/
theorem loaded_iff_since (hvalid : Valid ℓ) :
    (recount ℓ).loaded = some d ↔ Since (Records d) (Displaces d) ℓ := by
  induction ℓ using List.reverseRecOn with
  | nil => exact iff_of_false nofun (since_nil _ _)
  | append_singleton ℓ x ih =>
    obtain ⟨hvalid, -, hfits⟩ := throughout_snoc.1 hvalid
    rw [since_snoc, ← ih hvalid]
    constructor
    · intro h
      rcases loaded_snoc hfits h with hrecords | ⟨hloaded, hkept⟩
      · exact .inl hrecords
      · refine .inr ⟨hloaded, ?_⟩
        rintro (hunloads | ⟨d', hne, hrecords⟩)
        · exact hkept hunloads
        · exact hne (Option.some.inj ((loaded_of_records hrecords).symm.trans h))
    · rintro (hrecords | ⟨hloaded, hkept⟩)
      · exact loaded_of_records hrecords
      · exact loaded_snoc_of_not_displaces hfits hloaded hkept

/-! ## Loads without an answer -/

/-- Whoever issued a call was told of no answer to it. -/
def Fruitless (ℓ : List Note) (call : Call) : Prop :=
  ∀ r, (call.id, .answered r) ∉ (acts ℓ).filterMap Act.told?

/-- A call was answered by an error, or its time ran out. -/
def Failed (ℓ : List Note) (call : Call) : Prop :=
  (∃ before x after, ℓ = before ++ x :: after ∧ Replies call false before x) ∨ TimedOut ℓ call

theorem Faithful.fruitless_of_pending (h : Faithful ℓ)
    (hpending : call ∈ (replay (acts ℓ)).calls.pending) :
    Fruitless ℓ call := fun _ => h.lawful.untold_of_pending hpending

theorem Faithful.fruitless_of_failed (h : Faithful ℓ) (hfailed : Failed ℓ call) :
    Fruitless ℓ call := by
  intro r htold
  rcases hfailed with ⟨first, x, rest, rfl, hreply⟩ | ⟨purpose, htaken⟩
  · -- an answer that is told is what settled the call
    obtain ⟨payload, hsettled⟩ := h.settled_of_replies hreply
    obtain ⟨a, hmem, htold⟩ := mem_filterMap.1 htold
    obtain ⟨first', rest', heq⟩ := append_of_mem hmem
    rcases h.lawful.oneOutcome.unsettled _ a _ _ _ heq htold with
      ⟨b, y, a', other, hb, hends, hid⟩ | rfl
    · have hother :=
        h.lawful.mem_settled_iff.2 ⟨b, y, a' ++ a :: rest', by rw [heq, hb]; simp, hends⟩
      cases congrArg Prod.snd (h.lawful.settled_unique hother hsettled hid)
    · cases htold
  · have hexpired : (call.id, .expired) ∈ (acts ℓ).filterMap Act.told? :=
      mem_told.2 (.inl (mem_acts.2 ⟨_, htaken, rfl⟩))
    cases congrArg Prod.snd (inj_on_of_nodup_map h.lawful.told_once htold hexpired rfl)

namespace LoadIssue

variable {L K : LoadIssue} {mid rest : List Note}

/-- What was noted up to a place after a load was issued. -/
def upTo (L : LoadIssue) (mid : List Note) : List Note := L.before ++ L.note :: mid

theorem log_eq_upTo (h : L.after = mid ++ notes) : L.log = L.upTo mid ++ notes := by
  unfold log upTo
  rw [h, append_assoc, cons_append]

/-- Another load was under way after a load had been issued. It had been answered; its operation was
told so and recorded it, and its document counts as loaded since. -/
structure OvertakenBy (L K : LoadIssue) (mid : List Note) (told : Note)
    (rest : List Note) : Prop where
  after_eq : L.after = mid ++ told :: .record K.document K.generation :: rest
  log_eq : K.log = L.upTo mid
  other : K.call.id ≠ L.call.id
  answered : Answered K.log K.call
  engaged : Engaged K.log K.call
  records : Records K.document (K.log ++ [told]) (.record K.document K.generation)
  kept : ∀ first z later, rest = first ++ z :: later →
    ¬ Displaces K.document (K.log ++ [told] ++ .record K.document K.generation :: first) z

/-- The document of another load that was under way at the same time counts as loaded. -/
def Overtaken (L : LoadIssue) (d : Nat) : Prop :=
  ∃ K mid told rest, L.OvertakenBy K mid told rest ∧ K.document = d

/-- No document counts as loaded when a load is issued, so that one which does later was recorded
since. -/
theorem exists_record (hvalid : Valid L.log) (hloaded : (recount L.log).loaded = some d) :
    ∃ generation mid rest, L.after = mid ++ .record d generation :: rest ∧
      Records d (L.upTo mid) (.record d generation) ∧
      ∀ first y later, rest = first ++ y :: later →
        ¬ Displaces d (L.upTo mid ++ .record d generation :: first) y := by
  obtain ⟨-, -, -, -, hnone, -⟩ := (hvalid L.before L.note L.after rfl).2
  obtain ⟨pre, x, post, heq, hrecords, hkept⟩ := (loaded_iff_since hvalid).1 hloaded
  obtain ⟨generation, rfl, -⟩ := id hrecords
  rcases same_or_before_or_after heq with ⟨-, hsame, -⟩ | ⟨mid, rfl, hafter⟩ | ⟨more, hbefore, rfl⟩
  · cases hsame
  · exact ⟨generation, mid, post, hafter, hrecords, hkept⟩
  · have hearly : (recount L.before).loaded = some d := by
      refine (loaded_iff_since (Valid.initial hvalid)).2 ⟨pre, _, more, hbefore, hrecords, ?_⟩
      intro mid z rest hmore
      exact hkept mid z (rest ++ L.note :: L.after) (by rw [hmore]; simp)
    rw [hnone] at hearly
    cases hearly

/-- A load that has brought no answer is not what a loaded document was recorded for. -/
theorem loaded_iff_overtaken (h : Faithful L.log) (hfruitless : Fruitless L.log L.call) :
    (recount L.log).loaded = some d ↔ L.Overtaken d := by
  constructor
  · intro hloaded
    obtain ⟨generation, mid, rest, hafter, hrecords, hkept⟩ := exists_record h.valid hloaded
    have hlog := log_eq_upTo hafter
    have hthere : Faithful (L.upTo mid ++ [.record d generation]) := by
      rw [hlog, append_cons] at h
      exact h.initial
    obtain ⟨before, told, request, other, r, hupTo, hissued, hanswered, htells⟩ :=
      hthere.told_of_record
    have hengaged : Engaged before other :=
      (Faithful.engaged_of_told (hupTo ▸ hthere.initial) htells).1
    have htold : told.act?.bind Act.told? = some (other.id, .answered r) := by
      rcases htells with rfl | ⟨rfl, -⟩ <;> rfl
    -- the telling comes after the issue of the load, which tells nobody anything
    obtain ⟨mid, rfl, rfl⟩ : ∃ mid', mid = mid' ++ [told] ∧ before = L.upTo mid' := by
      rcases eq_nil_or_concat mid with rfl | ⟨mid', y, rfl⟩
      · obtain ⟨-, hnote⟩ := append_inj' hupTo rfl
        cases hnote
        cases htold
      · rw [concat_eq_append, upTo, ← cons_append, ← append_assoc] at hupTo
        obtain ⟨hbefore, hnote⟩ := append_inj' hupTo rfl
        cases hnote
        exact ⟨mid', concat_eq_append, hbefore.symm⟩
    obtain ⟨K, hK, rfl, rfl, rfl⟩ :
      ∃ K : LoadIssue, K.log = L.upTo mid ∧ K.call = other ∧ K.document = d ∧
        K.generation = generation := by
      obtain ⟨first, later, hsplit⟩ := append_of_mem hissued
      exact ⟨⟨first, request, other, d, generation, later⟩, hsplit.symm, rfl, rfl, rfl⟩
    have hother : K.call.id ≠ L.call.id := by
      obtain ⟨a, hact, htells⟩ := Option.bind_eq_some_iff.1 htold
      refine fun hid =>
        hfruitless r (hid ▸ mem_filterMap.2 ⟨a, mem_acts.2 ⟨told, ?_, hact⟩, htells⟩)
      rw [hlog, hupTo]
      simp
    rw [hupTo, ← hK] at hrecords hkept
    rw [← hK] at hanswered hengaged
    refine ⟨K, mid, told, rest, ⟨?_, hK, hother, hanswered, hengaged, hrecords, hkept⟩, rfl⟩
    rw [hafter, append_assoc, singleton_append]
  · rintro ⟨K, mid, told, rest, hovertaken, rfl⟩
    refine (loaded_iff_since h.valid).2 ⟨_, _, rest, ?_, hovertaken.records, hovertaken.kept⟩
    rw [log_eq_upTo hovertaken.after_eq, hovertaken.log_eq]
    simp

end LoadIssue

/-! ## Loads in turn -/

/-- No load is issued while another one is under way. -/
def LoadsInTurn (ℓ : List Note) : Prop :=
  ∀ L : LoadIssue, L.log = ℓ → ∀ K : LoadIssue, K.log = L.before → ¬ Engaged L.before K.call

namespace LoadIssue

variable {L : LoadIssue}

/-- No load was issued later. -/
def Last (L : LoadIssue) : Prop :=
  ∀ request call d generation, .issue request call (.load d generation) ∉ L.after

theorem last_of_engaged (h : Faithful L.log) (hturn : LoadsInTurn L.log)
    (hengaged : Engaged L.log L.call) : L.Last := by
  intro request call d generation hmem
  obtain ⟨mid, rest, hafter⟩ := append_of_mem hmem
  have hlog := log_eq_upTo hafter
  refine hturn ⟨L.upTo mid, request, call, d, generation, rest⟩ hlog.symm
    { L with after := mid } rfl ?_
  rw [hlog] at h hengaged
  exact hengaged.initial h (mem_append_right _ mem_cons_self)

/-- Where loads come in turn, the last one is not overtaken. -/
theorem Last.not_overtaken (hlast : L.Last) (h : Faithful L.log) (hturn : LoadsInTurn L.log) :
    ¬ L.Overtaken d := by
  rintro ⟨K, mid, told, rest, hovertaken, -⟩
  have hlog := log_eq_upTo hovertaken.after_eq
  have hmem : K.note ∈ L.upTo mid := by
    rw [← hovertaken.log_eq]
    exact mem_append_right _ mem_cons_self
  rcases mem_append.1 hmem with hbefore | hmem
  · -- it was under way when the last one was issued
    obtain ⟨first, later, hsplit⟩ := append_of_mem hbefore
    refine hturn L rfl { K with before := first, after := later } hsplit.symm ?_
    have hengaged := hovertaken.engaged
    rw [hovertaken.log_eq] at hengaged
    rw [hlog] at h
    exact hengaged.initial h.initial hbefore
  · rcases mem_cons.1 hmem with hsame | hmem
    · exact hovertaken.other (congrArg Call.id (Note.issue.inj hsame).2.1)
    · refine hlast K.request K.call K.document K.generation ?_
      rw [hovertaken.after_eq]
      exact mem_append_left _ hmem

end LoadIssue

/-- While a load is pending, and after one has failed, a document counts as loaded exactly if
another load overtook that one. Where loads come in turn, nothing does while one is pending, nor
when the last one failed. -/
structure UnansweredLoads (ℓ : List Note) (session : Session) : Prop where
  noted : ∀ call ∈ session.dispatch.pending,
    call.command.IsLoad → Named ℓ call ∨ ∃ L : LoadIssue, L.log = ℓ ∧ L.call = call
  overtaken : ∀ L : LoadIssue, L.log = ℓ → L.call ∈ session.dispatch.pending ∨ Failed ℓ L.call →
    ∀ d, session.loaded = some d ↔ L.Overtaken d
  inTurn : LoadsInTurn ℓ → ∀ L : LoadIssue,
      L.log = ℓ → L.call ∈ session.dispatch.pending ∨ Failed ℓ L.call ∧ L.Last →
    session.loaded = none

theorem Faithful.unansweredLoads {session : Session} (h : Faithful ℓ)
    (hloaded : session.loaded = (recount ℓ).loaded)
    (hpending : session.dispatch.pending = (replay (acts ℓ)).calls.pending) :
    UnansweredLoads ℓ session := by
  have hovertaken : ∀ L : LoadIssue,
    L.log = ℓ → L.call ∈ session.dispatch.pending ∨ Failed ℓ L.call →
      ∀ d, session.loaded = some d ↔ L.Overtaken d := by
    rintro L rfl hopen d
    rw [hloaded]
    refine L.loaded_iff_overtaken h ?_
    rcases hopen with hmem | hfailed
    · exact h.fruitless_of_pending (hpending ▸ hmem)
    · exact h.fruitless_of_failed hfailed
  refine ⟨fun call hmem hload => ?_, hovertaken, ?_⟩
  · obtain ⟨request, purpose, hissued⟩ :=
      (mem_acts_issue h.valid).1 (h.lawful.issued_of_pending (hpending ▸ hmem))
    rcases h.valid.purpose_of_weighty hissued (.inl hload) with ⟨d, generation, rfl, -⟩ | ⟨p, -,
      hmove, -⟩ | hnamed
    · obtain ⟨before, after, rfl⟩ := append_of_mem hissued
      exact .inr ⟨⟨before, request, call, d, generation, after⟩, rfl, rfl⟩
    · exact absurd hmove (Command.not_isMove_of_isLoad hload)
    · exact .inl hnamed
  · rintro hturn L rfl hopen
    have hlast : L.Last := by
      rcases hopen with hmem | ⟨-, hlast⟩
      · have hissued : L.note ∈ L.log := mem_append_right _ mem_cons_self
        obtain ⟨-, -, -, -, -, -, -, haddressee⟩ := (h.valid L.before L.note L.after rfl).2
        refine L.last_of_engaged h hturn (h.engaged_of_pending hissued ?_ (hpending ▸ hmem))
        exact haddressee.imp_right fun ⟨label, hload⟩ => ⟨label, _, _, hload⟩
      · exact hlast
    refine Option.eq_none_iff_forall_ne_some.2 fun d hsome => ?_
    exact hlast.not_overtaken h hturn ((hovertaken L rfl (hopen.imp_right And.left) d).1 hsome)

/-- Whatever is asked of a session and whatever happens to it, in any order: while a load is
pending, and after one has failed, a document counts as loaded exactly if another load, which was
under way at the same time, was answered since; where loads come in turn that is never so. -/
theorem unanswered_load_overtaken {s : Nat} {m : Machine} (hm : m.Pristine s) {moves : List Move}
    (hmoves : ∀ move ∈ moves, move.On s) :
    (∃ book, Logbook s m moves book) ∧ ∀ book, Logbook s m moves book → ∀ n ≤ moves.length,
      UnansweredLoads (logOf (book.take n)) ((m.follow (moves.take n)).world.session s) := by
  refine ⟨hm.logbook hmoves, fun book hbook n hn => ?_⟩
  have hshows := hbook.shows n hn
  exact (hbook.faithful n).unansweredLoads (congrArg (·.loaded) hshows.memory_eq)
    (congrArg (·.calls.pending) hshows.account_eq)

/-- A file is loaded twice without waiting, and only the first load is answered. -/
def overlapMoves : List Move :=
  .launch 0 (.session 0 (.document "A.idr" (.postLoad "a"))) :: List.replicate 5 .turn ++
    answeredBy "(:return (:ok \"\") 1)" 5 ++
    .launch 1 (.session 0 (.document "A.idr" (.postLoad "b"))) :: List.replicate 2 .turn ++
    answeredBy "(:return (:ok \"\") 2)" 4

/-- The second load is pending, and the document counts as loaded because the first one overtook
it. -/
theorem unanswered_load_overtaken_twice :
    deskMachine.Pristine 0 ∧ (∀ move ∈ overlapMoves, move.On 0) ∧
    ((deskMachine.follow overlapMoves).world.session 0).loaded = some 0 ∧
    ((deskMachine.follow overlapMoves).world.session 0).dispatch.pending.map (·.command.tag) =
      ["load-file"] ∧ ∃ book, Logbook 0 deskMachine overlapMoves book ∧
      UnansweredLoads (logOf book) ((deskMachine.follow overlapMoves).world.session 0) ∧
      ∀ L : LoadIssue, L.log = logOf book →
        L.call ∈ ((deskMachine.follow overlapMoves).world.session 0).dispatch.pending →
          L.Overtaken 0 := by
  have hmoves : ∀ move ∈ overlapMoves, move.On 0 := by
    simp [overlapMoves, answeredBy, Move.On, SessionRequest.Genuine]
  have hloaded : ((deskMachine.follow overlapMoves).world.session 0).loaded = some 0 := by
    decide +kernel
  have hpending : ((deskMachine.follow overlapMoves).world.session 0).dispatch.pending.map
    (·.command.tag) = ["load-file"] := by decide +kernel
  obtain ⟨⟨book, hbook⟩, hunanswered⟩ := unanswered_load_overtaken deskMachine_pristine hmoves
  have hend := hunanswered book hbook overlapMoves.length (Nat.le_refl _)
  rw [take_length, ← hbook.length_eq, take_length] at hend
  refine ⟨deskMachine_pristine, hmoves, hloaded, hpending, book, hbook, hend, fun L hlog hmem => ?_⟩
  exact (hend.overtaken L hlog (.inl hmem) 0).1 hloaded

end IdeMode
