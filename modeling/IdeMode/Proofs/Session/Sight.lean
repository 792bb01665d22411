import IdeMode.Proofs.Session.Holding
set_option autoImplicit false

/-!
# What a command finds

When the operations of a session come one at a time, a command that relies on a document is written
to a process that has answered a load of the file of that document, in the directory of the file,
and to which no other load was written since. The text that was loaded is that of the document, if
the session watched the document when the load was issued.
-/

namespace IdeMode

open Account Session LoadIssue List

variable {ℓ notes before after : List Note} {x : Note} {call call' : Call}
  {request : SessionRequest} {purpose : Purpose}

/-! ## Commands that requests name -/

/-- A request named the command of a call itself. -/
def Named (ℓ : List Note) (call : Call) : Prop :=
  ∃ request, .issue request call .plain ∈ ℓ ∧ request.sends? = some call.command

theorem Named.append (h : Named ℓ call) (notes : List Note) : Named (ℓ ++ notes) call := by
  obtain ⟨request, hmem, hsends⟩ := h
  exact ⟨request, mem_append_left notes hmem, hsends⟩

/-- A weighty command is that of a load or a move, or it was named. -/
theorem Valid.purpose_of_weighty (h : Valid ℓ) (hissued : .issue request call purpose ∈ ℓ)
    (hweighty : call.command.Weighty) :
    (∃ d generation, purpose = .load d generation ∧ call.command.IsLoad) ∨
      (∃ p, purpose = .move p ∧ call.command.IsMove ∧ call.addressee = .waiter) ∨ Named ℓ call := by
  obtain ⟨before, after, rfl⟩ := append_of_mem hissued
  have hsuits := (h before _ after rfl).2
  cases purpose with
  | plain =>
    rcases hsuits.1 with hsends | htag
    · exact .inr (.inr ⟨request, hissued, hsends⟩)
    · have hload : Command.completionTag ≠ "load-file" := by decide
      have hmove : Command.completionTag ≠ "interpret" := by decide
      exact absurd hweighty (Command.not_weighty_of_tag (htag ▸ hload) (htag ▸ hmove))
  | move p =>
    have hmove : call.command.IsMove := by
      rw [hsuits.1]
      exact Command.isMove_moveCommand p
    exact .inr (.inl ⟨p, rfl, hmove, hsuits.2⟩)
  | load d generation =>
    obtain ⟨doc, -, -, hcommand, -⟩ := hsuits
    refine .inl ⟨d, generation, rfl, ?_⟩
    rw [hcommand]
    exact Command.isLoad_loadCommand _
  | ask d => exact absurd hweighty (Command.not_weighty_of_scoped hsuits.1)

/-! ## Processes -/

theorem child_kept {c c' : Nat} (h : (recount ℓ).transport.child = some c)
    (hspawn : ∀ c, .spawn c ∉ notes) (h' : (recount (ℓ ++ notes)).transport.child = some c') :
    c' = c := by
  rcases child_append h' with hmem | hchild
  · exact absurd hmem (hspawn c')
  · exact Option.some.inj (hchild.symm.trans h)

/-- The call of a load was written to a process, and the session has had no other process since;
every load that was written later was named by a request. -/
structure LoadIssue.Reached (L : LoadIssue) (c : Nat) (mid rest : List Note) : Prop where
  split : L.after = mid ++ .write c L.call :: rest
  process : ∀ c', (recount L.log).transport.child = some c' → c' = c
  last : ∀ c' call', .write c' call' ∈ rest → call'.command.IsLoad → Named L.log call'

variable {p : Path} {doc : Document} {L : LoadIssue}

theorem LoadIssue.Held.reached {c : Nat} (h : L.Held doc) (hfaithful : Faithful L.log)
    (hmem : .write c L.call ∈ L.log) : ∃ mid rest, L.Reached c mid rest := by
  have hafter : .write c L.call ∈ L.after := by
    rcases mem_append.1 hmem with hbefore | hmem
    · obtain ⟨request, purpose, hissued⟩ := hfaithful.initial.valid.issued_of_write hbefore
      exact absurd hissued hfaithful.not_issued_before
    · exact (mem_cons.1 hmem).resolve_left nofun
  obtain ⟨mid, rest, hsplit⟩ := append_of_mem hafter
  have hlog : L.log = (L.before ++ L.note :: mid) ++ .write c L.call :: rest := by
    unfold log
    rw [hsplit, append_assoc, cons_append]
  have hlater : ∀ y ∈ rest, y ∈ L.after :=
    fun y hy => hsplit ▸ mem_append_right _ (mem_cons_of_mem _ hy)
  refine ⟨mid, rest, hsplit, fun c' hchild => ?_, fun c' call' hwritten hload => ?_⟩
  · have hfits := (hfaithful.valid _ _ _ hlog).2
    refine child_kept hfits.2 (fun d hspawn => ?_) (hlog ▸ hchild)
    rcases mem_cons.1 hspawn with heq | hspawn
    · cases heq
    · exact h.last _ (hlater _ hspawn) trivial
  · -- what is written later was issued later, and no other load was
    have hmem' : .write c' call' ∈ L.log :=
      mem_append_right _ (mem_cons_of_mem _ (hlater _ hwritten))
    obtain ⟨request, purpose, hissued⟩ := hfaithful.valid.issued_of_write hmem'
    have hlt : L.call.id < call'.id := Faithful.written_lt (hlog ▸ hfaithful) hwritten
    rcases hfaithful.valid.purpose_of_weighty hissued (.inl hload) with
      ⟨d, generation, rfl, -⟩ | ⟨p, rfl, hmove, -⟩ | hnamed
    · rcases hfaithful.issue_cases hissued with ⟨-, hgt⟩ | heq | ⟨hissued, -⟩
      · exact absurd hlt (Nat.lt_asymm hgt)
      · cases heq
        exact absurd hlt (Nat.lt_irrefl _)
      · exact absurd trivial (h.last _ hissued)
    · exact absurd hmove (Command.not_isMove_of_isLoad hload)
    · exact hnamed

/-! ## Directories -/

/-- The time of a call ran out before its operation was told anything else. -/
def TimedOut (ℓ : List Note) (call : Call) : Prop := ∃ purpose, .take call purpose .expired ∈ ℓ

theorem TimedOut.append (h : TimedOut ℓ call) (notes : List Note) : TimedOut (ℓ ++ notes) call := by
  obtain ⟨purpose, hmem⟩ := h
  exact ⟨purpose, mem_append_left notes hmem⟩

/-- A move that counts is answered: neither did its time run out, nor was its command named. -/
def MovesAway (ℓ before : List Note) (x : Note) : Prop :=
  ∃ call, call.command.IsMove ∧ Replies call true before x ∧ ¬ TimedOut ℓ call ∧ ¬ Named ℓ call

/-- The last move that was answered, of those that count, was to a directory. -/
def MovedTo (ℓ : List Note) (p : Path) : Prop :=
  ∃ call, call.command = moveCommand p ∧ Since (Replies call true) (MovesAway ℓ) ℓ

theorem cwd_snoc (h : (recount (ℓ ++ [x])).cwd = some p) :
    x = .arrive p ∨ (recount ℓ).cwd = some p ∧ ∀ q, x ≠ .arrive q := by
  have hlink := link_effect (recount ℓ) x
  rw [recount_snoc] at h
  cases x with
  | act a => cases a <;> exact .inr ⟨h, nofun⟩
  | arrive q => exact .inl (congrArg Note.arrive (Option.some.inj h))
  | forget => cases h
  | record d generation => exact .inr ⟨(congrArg (·.2.2) (hlink (by simp))).symm.trans h, nofun⟩
  | change q => exact .inr ⟨(congrArg (·.2.2) (hlink (by simp))).symm.trans h, nofun⟩
  | adopt d b => exact .inr ⟨(congrArg (·.2.2) (hlink (by simp))).symm.trans h, nofun⟩
  | reread d b => exact .inr ⟨(congrArg (·.2.2) (hlink (by simp))).symm.trans h, nofun⟩
  | _ => exact .inr ⟨h, nofun⟩

/-- The directory of the compiler is the one where it arrived last. -/
theorem arrived_of_cwd (h : (recount ℓ).cwd = some p) :
    ∃ before after, ℓ = before ++ .arrive p :: after ∧ ∀ q, .arrive q ∉ after := by
  induction ℓ using List.reverseRecOn with
  | nil => cases h
  | append_singleton ℓ x ih =>
    rcases cwd_snoc h with rfl | ⟨hcwd, hx⟩
    · exact ⟨ℓ, [], rfl, fun q => not_mem_nil⟩
    · obtain ⟨before, after, rfl, hafter⟩ := ih hcwd
      refine ⟨before, after ++ [x], by simp, fun q hmem => ?_⟩
      rcases mem_append.1 hmem with hmem | hmem
      · exact hafter q hmem
      · exact hx q (mem_singleton.1 hmem).symm

theorem Faithful.settled_of_replies {ok : Bool} (h : Faithful (before ++ x :: after))
    (hreply : Replies call ok before x) :
    ∃ payload, (call, .ofReply ok payload) ∈ settled (acts (before ++ x :: after)) := by
  obtain ⟨payload, rfl, hpending⟩ := hreply
  have hacts : acts (before ++ .act (.reply (some (Int.ofNat call.id)) ok payload) :: after) =
      acts before ++ .reply (some (Int.ofNat call.id)) ok payload :: acts after := acts_append _ _
  exact ⟨payload, h.lawful.mem_settled_iff.2 ⟨_, _, _, hacts, .reply ok payload hpending⟩⟩

/-- An outcome of a call that was issued is taken for the purpose of the call. -/
theorem Faithful.taken (h : Faithful (before ++ x :: after)) {outcome : Outcome}
    (hact : x.act? = some (.take call.id outcome))
    (hissued : .issue request call purpose ∈ before ++ x :: after) :
    x = .take call purpose outcome := by
  have hfits := (h.valid before x after rfl).2
  cases x with
  | take taken purpose' outcome' =>
    obtain ⟨hid, rfl⟩ := Act.take.inj (Option.some.inj hact)
    obtain ⟨⟨request', hissued'⟩, -⟩ := hfits
    have hissued' := mem_append_left (.take taken purpose' outcome' :: after) hissued'
    obtain rfl := h.lawful.given_inj (mem_given_of_issue hissued') (mem_given_of_issue hissued) hid
    obtain ⟨-, rfl⟩ := h.issue_unique hissued hissued'
    rfl
  | act a =>
    obtain rfl := Option.some.inj hact
    exact absurd rfl (hfits.2 call.id outcome)
  | _ => cases hact

/-- An operation whose call was answered well, and that does not wait any more, was told the answer,
or its time was up. -/
theorem Faithful.told_of_replies (h : Faithful (before ++ x :: after))
    (hreply : Replies call true before x) (hissued : .issue request call purpose ∈ before)
    (hwaiter : call.addressee = .waiter) (hover : ¬ Awaited (acts (before ++ x :: after)) call.id) :
    ∃ mid outcome rest, after = mid ++ .take call purpose outcome :: rest ∧
      (outcome = .expired ∨ ∃ r, outcome = .answered r) := by
  have hgiven := mem_acts.2 ⟨_, hissued, rfl⟩
  have hpending := hreply.choose_spec.2
  -- the outcome was taken after the answer, since the call was pending before
  have htaken : ∃ outcome, .take call.id outcome ∈ acts after := by
    by_contra hnone
    refine hover ⟨⟨call, by rw [acts_append]; exact mem_append_left _ hgiven, rfl, hwaiter⟩,
      fun outcome hmem => ?_⟩
    rw [append_cons, acts_append, acts_append] at hmem
    rcases mem_append.1 hmem with hmem | hmem
    · rcases mem_append.1 hmem with hmem | hmem
      · exact h.initial.lawful.untold_of_pending hpending (mem_told.2 (.inl hmem))
      · rw [hreply.choose_spec.1] at hmem
        cases mem_singleton.1 hmem
    · exact hnone ⟨outcome, hmem⟩
  obtain ⟨outcome, hmem⟩ := htaken
  obtain ⟨y, hy, hact⟩ := mem_acts.1 hmem
  obtain ⟨mid, rest, rfl⟩ := append_of_mem hy
  rw [← cons_append, ← append_assoc] at h
  obtain rfl := h.taken hact (mem_append_left _ (mem_append_left _ hissued))
  have hthere := (append_cons .. ▸ h).initial
  refine ⟨mid, outcome, rest, rfl, ?_⟩
  by_cases hexpired : outcome = .expired
  · exact .inl hexpired
  · obtain ⟨payload, hsettled⟩ := hthere.initial.settled_of_replies hreply
    obtain ⟨told, htold, hid⟩ :=
      hthere.initial.lawful.settled_of_take (hthere.possible rfl) hexpired
    have hsame := hthere.initial.lawful.settled_unique htold hsettled hid
    exact .inr ⟨_, congrArg Prod.snd hsame⟩

/-- When a move is answered whose command was not named, an operation waits for it. -/
theorem Faithful.move_of_replies (h : Faithful before) (hreply : Replies call true before x)
    (hmove : call.command.IsMove) (hnamed : ¬ Named before call) :
    ∃ request p, .issue request call (.move p) ∈ before ∧ call.addressee = .waiter ∧
      Engaged before call := by
  obtain ⟨payload, -, hpending⟩ := hreply
  obtain ⟨request, purpose, hissued⟩ :=
    (mem_acts_issue h.valid).1 (h.lawful.issued_of_pending hpending)
  rcases h.valid.purpose_of_weighty hissued (.inr hmove) with ⟨d, generation, -, hload⟩ | ⟨p,
    rfl, -, hwaiter⟩ | hname
  · exact absurd hmove (Command.not_isMove_of_isLoad hload)
  · exact ⟨request, p, hissued, hwaiter, h.engaged_of_pending hissued (.inl hwaiter) hpending⟩
  · exact absurd hname hnamed

/-- Whoever is told that a move was answered says so at once. -/
theorem Valid.arrives {r : Response}
    (h : Valid (before ++ .take call (.move p) (.answered r) :: after)) :
    after = [] ∨ ∃ rest, after = .arrive p :: rest := by
  rcases after with _ | ⟨next, rest⟩
  · exact .inl rfl
  · rw [append_cons] at h
    have hnext : next = .arrive p := (h _ next rest rfl).1.moved ⟨before, call, r, rfl⟩
    exact .inr ⟨rest, by rw [hnext]⟩

/-- Where nothing is under way, the compiler was moved to its directory by an operation, and has not
been moved since. -/
theorem Faithful.moved_of_cwd (h : Faithful ℓ) (hserial : Serial ℓ) (hquiescent : Quiescent ℓ)
    (hmoved : ∀ q, ¬ Returned (.move q) ℓ) (hcwd : (recount ℓ).cwd = some p) :
    ∃ request move, .issue request move (.move p) ∈ ℓ ∧
      Since (Replies move true) (MovesAway ℓ) ℓ := by
  obtain ⟨arriving, after, rfl, hafter⟩ := arrived_of_cwd hcwd
  obtain ⟨told, move, r, rfl⟩ : Returned (.move p) arriving := (h.valid arriving _ after rfl).2
  have htold : Faithful (told ++ [.take move (.move p) (.answered r)]) := h.initial
  have hengaged := htold.engaged_of_take
  obtain ⟨⟨request, hissued⟩, -⟩ := htold.fits
  have hmem :=
    mem_append_left (.arrive p :: after)
      (mem_append_left [.take move (.move p) (.answered r)] hissued)
  obtain ⟨first, y, rest, rfl, hreply⟩ := htold.answered_of_take
  refine ⟨request, move, hmem, first, y,
    rest ++ .take move (.move p) (.answered r) :: .arrive p :: after, by simp, hreply, ?_⟩
  rintro mid z later hsplit ⟨call, hmove, hreply', htimely, hnamed⟩
  have hlog : first ++ y :: rest ++ [.take move (.move p) (.answered r)] ++ .arrive p :: after =
      (first ++ y :: mid) ++ z :: later := by
    rw [append_assoc, append_assoc, append_assoc]
    simp [hsplit]
  have hthere : Faithful (first ++ y :: mid) := by
    rw [hlog] at h
    exact h.initial
  obtain ⟨request', q, hissued', hwaiter, hengaged'⟩ :=
      hthere.move_of_replies hreply' hmove fun hname => hnamed (by
    rw [hlog]
    exact hname.append _)
  obtain ⟨payload, hz, hpending⟩ := id hreply'
  rcases append_eq_append_iff.1 hsplit with ⟨skipped, rfl, htail⟩ | ⟨left, rfl, htail⟩
  · -- it was answered after the arrival, so that there would have been another
    obtain ⟨more, rfl⟩ : ∃ more, after = more ++ z :: later := by
      subst hz
      match skipped, htail with
      | [], htail => cases htail
      | [_], htail => cases htail
      | _ :: _ :: more, htail => exact ⟨more, (List.cons.inj (List.cons.inj htail).2).2⟩
    rw [hlog] at h hquiescent hmoved htimely
    obtain ⟨before, outcome, tail, rfl, rfl | ⟨r', rfl⟩⟩ :=
      h.told_of_replies hreply' hissued' hwaiter (hquiescent.unawaited call.id)
    · exact htimely ⟨.move q, by simp⟩
    · rw [show ∀ P : List Note, P ++ z :: (before ++ .take call (.move q) (.answered r') :: tail) =
          (P ++ z :: before) ++ .take call (.move q) (.answered r') :: tail by simp] at h hmoved
      rcases h.valid.arrives with rfl | ⟨tail', rfl⟩
      · exact hmoved q ⟨_, call, r', rfl⟩
      · exact hafter q (by simp)
  · -- it was answered while the other one was under way
    obtain ⟨more, rfl⟩ : ∃ more, left = z :: more := by
      subst hz
      match left, htail with
      | [], htail => cases htail
      | _ :: more, htail => exact ⟨more, by rw [(List.cons.inj htail).1]⟩
    rw [← cons_append, ← append_assoc] at hengaged htold
    have hfirst : Faithful first := hthere.initial
    obtain ⟨request'', purpose, hissued''⟩ :=
      (mem_acts_issue hfirst.valid).1 (hfirst.lawful.issued_of_pending hreply.choose_spec.2)
    have hearlier := mem_append_left (y :: mid) hissued''
    have hboth := hengaged.initial htold.initial hearlier
    have hserial' : Serial (first ++ y :: mid) := by
      rw [hlog] at hserial
      exact Throughout.initial hserial
    obtain rfl := hboth.unique hthere hserial' hearlier hissued' hengaged'
    obtain ⟨payload', hsettled⟩ := hthere.settled_of_replies hreply
    exact hthere.lawful.not_pending_of_settled hsettled hpending rfl

theorem Faithful.movedTo (h : Faithful ℓ) (hserial : Serial ℓ) (hquiescent : Quiescent ℓ)
    (hmoved : ∀ q, ¬ Returned (.move q) ℓ) (hcwd : (recount ℓ).cwd = some p) : MovedTo ℓ p := by
  obtain ⟨request, move, hissued, hsince⟩ := h.moved_of_cwd hserial hquiescent hmoved hcwd
  obtain ⟨first, rest, rfl⟩ := append_of_mem hissued
  exact ⟨move, (h.valid first _ rest rfl).2.1, hsince⟩

theorem Since.mono {P Q Q' : List Note → Note → Prop} (h : Since P Q ℓ)
    (hQ : ∀ before y, Q' before y → Q before y) : Since P Q' ℓ := by
  obtain ⟨before, y, after, rfl, hP, hnone⟩ := h
  exact ⟨before, y, after, rfl, hP, fun mid z rest heq hz => hnone mid z rest heq (hQ _ _ hz)⟩

theorem Since.append {P Q : List Note → Note → Prop} (h : Since P Q ℓ)
    (hnotes : ∀ mid z rest, notes = mid ++ z :: rest → ¬ Q (ℓ ++ mid) z) :
    Since P Q (ℓ ++ notes) := by
  induction notes using List.reverseRecOn with
  | nil => exact (append_nil ℓ).symm ▸ h
  | append_singleton notes y ih =>
    rw [← append_assoc]
    refine (ih fun mid z rest heq => hnotes mid z (rest ++ [y]) (by simp [heq])).snoc
      (hnotes notes y [] rfl)

/-- When a load is written the compiler is still where it was when the load was issued. -/
theorem LoadIssue.Held.movedTo (h : L.Held doc) (hfaithful : Faithful L.log)
    (hserial : Serial L.log) {c : Nat} {mid rest : List Note} (hreached : L.Reached c mid rest) :
    MovedTo (L.before ++ L.note :: mid) doc.buffer.path.parent := by
  have hlog : L.log = (L.before ++ L.note :: mid) ++ .write c L.call :: rest := by
    unfold log
    rw [hreached.split, append_assoc, cons_append]
  have hfits := (hfaithful.valid _ _ _ hlog).2
  have hthere : Faithful (L.before ++ L.note :: mid) := by
    rw [hlog] at hfaithful
    exact hfaithful.initial
  have hserial' : Serial (L.before ++ L.note :: mid) := by
    rw [hlog] at hserial
    exact Throughout.initial hserial
  have hquiescent : Quiescent L.before := hserial L.before L.note L.after rfl trivial
  obtain ⟨move, hcommand, hsince⟩ := hthere.initial.movedTo (Throughout.initial hserial') hquiescent
    (fun q hreturned => by
      have hfollows := (hfaithful.valid L.before L.note L.after rfl).1.moved hreturned
      cases hfollows) h.cwd_eq
  refine ⟨move, hcommand, Since.append (hsince.mono fun before y hy => ?_)
    fun first z later heq hz => ?_⟩
  · obtain ⟨call, hmove, hreply, htimely, hnamed⟩ := hy
    exact ⟨call, hmove, hreply, fun htimed => htimely (htimed.append _),
      fun hname => hnamed (hname.append _)⟩
  · -- the load is under way, and so nothing else can be
    obtain ⟨call, hmove, hreply, -, hnamed⟩ := hz
    obtain ⟨first', rfl, hmid⟩ :
        ∃ first', first = L.note :: first' ∧ mid = first' ++ z :: later := by
      obtain ⟨payload, rfl, -⟩ := hreply
      rcases first with _ | ⟨note, first'⟩
      · cases heq
      · obtain ⟨rfl, hmid⟩ := List.cons.inj heq
        exact ⟨first', rfl, hmid⟩
    have hplace : L.before ++ L.note :: mid = (L.before ++ L.note :: first') ++ z :: later := by
      rw [hmid, append_assoc, cons_append]
    have hissued : L.note ∈ L.before ++ L.note :: mid := mem_append_right _ mem_cons_self
    have hload := (hthere.valid L.before L.note mid rfl).2
    obtain ⟨doc', -, -, hcommand', -, -, -, haddressee⟩ := hload
    have hengaged : Engaged (L.before ++ L.note :: mid) L.call := by
      refine hthere.engaged_of_pending hissued
        (haddressee.imp_right fun ⟨label, h⟩ => ⟨label, _, _, h⟩) ?_
      exact hthere.mem_pending hissued hfits.1.2.1
    rw [hplace] at hthere hserial' hengaged hnamed
    have hissued' : L.note ∈ L.before ++ L.note :: first' := mem_append_right _ mem_cons_self
    obtain ⟨request, q, hmoving, -, hengaged'⟩ :=
      hthere.initial.move_of_replies hreply hmove fun hname => hnamed (hname.append _)
    have hsame :=
      (hengaged.initial hthere hissued').unique hthere.initial (Throughout.initial hserial')
        hissued' hmoving hengaged'
    rw [hsame, hcommand'] at hmove
    exact Command.not_isMove_of_isLoad (Command.isLoad_loadCommand _) hmove

/-! ## What a session goes by -/

/-- The compiler holds the file of a document. If the call of the load was written at all, it was
written when the compiler was in the directory of the file; and the document has the text that it
had when the load was issued, if the session watched it by then. -/
structure Backed (ℓ : List Note) (d : Nat) (L : LoadIssue) (doc : Document) :
    Prop extends Holds ℓ d L doc where
  reached : ∀ c, .write c L.call ∈ ℓ → ∃ mid rest, L.Reached c mid rest ∧
    MovedTo (L.before ++ L.note :: mid) doc.buffer.path.parent
  text_eq : L.Fresh doc.buffer.path →
    ∀ d' old, (recount L.before).documents[d']? = some old → old.watched = true →
    old.buffer.path = doc.buffer.path → ((recount ℓ).buffer d').text = old.buffer.text

theorem Holds.backed {d : Nat} (h : Holds ℓ d L doc) (hfaithful : Faithful ℓ) (hserial : Serial ℓ) :
    Backed ℓ d L doc := by
  obtain ⟨rfl, hheld, hpath, hfresh⟩ := h
  refine ⟨⟨rfl, hheld, hpath, hfresh⟩, fun c hmem => ?_,
    fun hunchanged d' old hold hwatched hsame => ?_⟩
  · obtain ⟨mid, rest, hreached⟩ := hheld.reached hfaithful hmem
    exact ⟨mid, rest, hreached, hheld.movedTo hfaithful hserial hreached⟩
  · rw [← hsame] at hunchanged
    exact Unchanged.text_eq hfaithful.valid hold hwatched hunchanged

/-- A command that was not named by a request and that needs a document is asked about the document
of the request. -/
theorem Valid.ask_of_scoped (h : Valid ℓ) (hissued : .issue request call purpose ∈ ℓ)
    (htag : call.command.tag ∈ Command.scopedTags) (hsends : request.sends? = none) :
    ∃ d, purpose = .ask d := by
  obtain ⟨before, after, rfl⟩ := append_of_mem hissued
  have hsuits := (h before _ after rfl).2
  cases purpose with
  | plain =>
    rcases hsuits.1 with hnamed | hcompletion
    · rw [hsends] at hnamed
      cases hnamed
    · have hother : Command.completionTag ∉ Command.scopedTags := by decide
      exact absurd (hcompletion ▸ htag) hother
  | move p =>
    have hother : "interpret" ∉ Command.scopedTags := by decide
    rw [hsuits.1] at htag
    exact absurd htag hother
  | load d generation =>
    have hother : "load-file" ∉ Command.scopedTags := by decide
    obtain ⟨doc, -, -, hcommand, -⟩ := hsuits
    rw [hcommand] at htag
    exact absurd htag hother
  | ask d => exact ⟨d, rfl⟩

/-- What a question finds when it is written. -/
theorem Faithful.backed_of_write {c d : Nat} (h : Faithful (ℓ ++ [.write c call]))
    (hserial : Serial ℓ) (hissued : .issue request call (.ask d) ∈ ℓ) :
    ∃ L doc, Backed ℓ d L doc ∧ ∀ c', .write c' L.call ∈ ℓ → c' = c := by
  obtain ⟨L, doc, hholds⟩ := h.holds_of_write hserial hissued
  have hbacked := hholds.backed h.initial hserial
  refine ⟨L, doc, hbacked, fun c' hmem => ?_⟩
  obtain ⟨mid, rest, hreached, -⟩ := hbacked.reached c' hmem
  obtain rfl := hbacked.log_eq
  exact (hreached.process c h.fits.2).symm

theorem Logbook.parts {s : Nat} {m : Machine} {moves : List Move} {book : List (List Note)}
    (h : Logbook s m moves book) (hone : OneAtATime s m moves)
    (hlog : logOf book = before ++ x :: after) : Faithful (before ++ [x]) ∧ Serial before := by
  have hwhole : Faithful (before ++ [x] ++ after) := by
    rw [← append_cons, ← hlog]
    exact ⟨h.valid, h.lawful⟩
  have hserial := h.serial hone
  rw [hlog] at hserial
  exact ⟨hwhole.initial, Throughout.initial hserial⟩

/-- Whenever a command about a document is written that no request named, the last load was of the
file of the document and was answered; if it was written at all, then to the same process. -/
def CommandsBacked (ℓ : List Note) : Prop :=
  ∀ before c call after request purpose, ℓ = before ++ .write c call :: after →
    .issue request call purpose ∈ before → call.command.tag ∈ Command.scopedTags →
      request.sends? = none →
    ∃ name d L doc, request.scope? = some name ∧ (recount before).findDocument? name = some d ∧
      Backed before d L doc ∧ ∀ c', .write c' L.call ∈ before → c' = c

/-- Operations come one at a time, whatever happens to the process. Whenever a command about a
document is written, the last load was of the file of the document and was answered; if it was
written at all, it was written to the same process, in the directory of the file, and no other load
has been written since but what requests named; and if the session watched the document when the
load was issued and no buffer was read again meanwhile, the document has the text that it had
then. -/
theorem command_finds_loaded_file {s : Nat} {m : Machine} (hm : m.Pristine s) {moves : List Move}
    (hmoves : ∀ move ∈ moves, move.On s) (hone : OneAtATime s m moves) :
    (∃ book, Logbook s m moves book) ∧
      ∀ book, Logbook s m moves book → CommandsBacked (logOf book) := by
  refine ⟨hm.logbook hmoves, ?_⟩
  intro book hbook before c call after request purpose hlog hissued htag hsends
  obtain ⟨hfaithful, hserial⟩ := hbook.parts hone hlog
  obtain ⟨d, rfl⟩ := hfaithful.initial.valid.ask_of_scoped hissued htag hsends
  obtain ⟨L, doc, hbacked, hprocess⟩ := hfaithful.backed_of_write hserial hissued
  obtain ⟨first, rest, rfl⟩ := append_of_mem hissued
  obtain ⟨-, -, ⟨name, hscope, hfind⟩, -⟩ := (hfaithful.initial.valid first _ rest rfl).2
  have hkept := Keeps.recount (prefix_append first _) hfaithful.initial.valid
  exact ⟨name, d, L, doc, hscope, hkept.findDocument? hfind, hbacked, hprocess⟩

/-- The type of a name is asked for: the compiler is moved, loads the file and is asked. -/
def askMoves : List Move :=
  .change (.reactions [("type-of", [{}])]) ::
    .launch 0 (.session 0 (.document "A.idr" (.typeOf 1 1 (some "x")))) :: List.replicate 5 .turn ++
    answeredBy "(:return (:ok \"\") 1)" 5 ++ answeredBy "(:return (:ok \"\") 2)" 4

/-- When the question is written, the load of the file has been answered. -/
theorem command_finds_loaded_file_typeOf : deskMachine.Pristine 0 ∧ (∀ move ∈ askMoves, move.On 0) ∧
    OneAtATime 0 deskMachine askMoves ∧
    (deskMachine.follow askMoves).world.host.sent =
      [⟨0, "000019((:interpret \":cd /\") 1)\n"⟩, ⟨0, "000019((:load-file \"A.idr\") 2)\n"⟩,
        ⟨0, "000013((:type-of \"x\") 3)\n"⟩] ∧
    ∃ book, Logbook 0 deskMachine askMoves book ∧ CommandsBacked (logOf book) := by
  have hmoves : ∀ move ∈ askMoves, move.On 0 := by
    simp [askMoves, answeredBy, Move.On, SessionRequest.Genuine]
  have hone : OneAtATime 0 deskMachine askMoves := by decide +kernel
  have hsent : (deskMachine.follow askMoves).world.host.sent =
      [⟨0, "000019((:interpret \":cd /\") 1)\n"⟩, ⟨0, "000019((:load-file \"A.idr\") 2)\n"⟩,
        ⟨0, "000013((:type-of \"x\") 3)\n"⟩] := by decide +kernel
  obtain ⟨⟨book, hbook⟩, hbacked⟩ := command_finds_loaded_file deskMachine_pristine hmoves hone
  exact ⟨deskMachine_pristine, hmoves, hone, hsent, book, hbook, hbacked book hbook⟩

end IdeMode
