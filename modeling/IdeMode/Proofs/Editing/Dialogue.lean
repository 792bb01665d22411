import IdeMode.Proofs.Editing.HoleEdits
import IdeMode.Proofs.World.Drift
import Mathlib.Data.Nat.Find
set_option autoImplicit false

/-!
# The dialogue of a refinement

A refinement asks one question and then tells the compiler one choice for each round of names that
it is offered. What a program asks is read off its own steps. The dialogue is as long as there are
choices at most, and if the replies offer the names among which the choices were made in advance,
the refinement makes exactly these choices, in order.
-/

namespace IdeMode

open List

/-! ## What a reply offers -/

namespace Editing

/-- The name that a value gives: a text or an atom itself, and anything else as it is quoted. -/
inductive Named : Value → String → Prop where
  | str (name : String) : Named (.str name) name
  | sym (name : String) : Named (.sym name) name
  | other {v : Value} (h : v.bare? = none) : Named v v.quoted

/-- The words of a text: what stands between white space. -/
inductive Words : List Char → List (List Char) → Prop where
  | none {blanks : List Char} (hblanks : ∀ c ∈ blanks, Text.isBlank c = true) : Words blanks []
  | word {blanks word rest : List Char} {words : List (List Char)}
    (hblanks : ∀ c ∈ blanks, Text.isBlank c = true) (hne : word ≠ [])
    (hword : ∀ c ∈ word, Text.isBlank c = false) (hrest : ∀ c ∈ rest.head?, Text.isBlank c = true)
    (h : Words rest words) : Words (blanks ++ (word ++ rest)) (word :: words)

/-- The names that a value lists: its items, or the words of a text or an atom. -/
inductive Lists : Value → List String → Prop where
  | items {items : List Value} {names : List String} (h : List.Forall₂ Named items names) :
    Lists (.list items) names
  | words {v : Value} {s : String} {words : List (List Char)} (hv : v.bare? = some s)
    (h : Words s.toList words) : Lists v (words.map String.ofList)

/-- The text of a value; the items of a list are joined by spaces. -/
inductive Worded : Value → String → Prop where
  | items {items : List Value} {names : List String} (h : List.Forall₂ Named items names) :
    Worded (.list items) (" ".intercalate names)
  | missing : Worded .none ""
  | other {v : Value} {name : String} (hlist : ∀ items, v ≠ .list items) (hnone : v ≠ .none)
    (h : Named v name) : Worded v name

/-- What is offered in a reply that says itself whether there is more to choose. -/
inductive Offers : Value → Offer → Prop where
  | choices {items : List Value} {names : List String} (h : List.Forall₂ Named items names) :
    Offers (.list [.sym ":more-choices", .list items]) (.choices names)
  | final {v : Value} {expression : String} (h : Named v expression) :
    Offers (.list [.sym ":final", v]) (.final expression)

variable {v : Value} {name : String} {items : List Value} {names : List String} {cs : List Char}

theorem Named.text_eq (h : Named v name) : v.text = name := by
  cases h with
  | str name => rfl
  | sym name => rfl
  | other h => cases v <;> first | rfl | cases h

theorem map_text_of_named (h : List.Forall₂ Named items names) : items.map Value.text = names := by
  induction h with
  | nil => rfl
  | cons hv _ ih => rw [map_cons, hv.text_eq, ih]

theorem wordsBy_blank {c : Char} (hc : Text.isBlank c = true) (cs : List Char) :
    Text.wordsBy Text.isBlank (c :: cs) = Text.wordsBy Text.isBlank cs := by
  simp [Text.wordsBy, hc]

theorem wordsBy_blanks {blanks : List Char} (h : ∀ c ∈ blanks, Text.isBlank c = true)
    (cs : List Char) : Text.wordsBy Text.isBlank (blanks ++ cs) = Text.wordsBy Text.isBlank cs := by
  induction blanks with
  | nil => rfl
  | cons c blanks ih =>
    obtain ⟨hc, hblanks⟩ := forall_mem_cons.1 h
    rw [cons_append, wordsBy_blank hc, ih hblanks]

/-- A word before white space, or before the end, is the first one. -/
theorem wordsBy_word {word rest : List Char} (hne : word ≠ [])
    (hword : ∀ c ∈ word, Text.isBlank c = false) (hrest : ∀ c ∈ rest.head?, Text.isBlank c = true) :
    Text.wordsBy Text.isBlank (word ++ rest) = word :: Text.wordsBy Text.isBlank rest := by
  have hgrow : ∀ (c : Char) (cs first : List Char) (others : List (List Char)),
    Text.isBlank c = false → Text.wordsBy Text.isBlank (c :: cs) = first :: others →
      ∀ d, Text.isBlank d = false → Text.wordsBy Text.isBlank (d :: c :: cs) =
        (d :: first) :: others := by
    intro c cs first others hc h d hd
    simp only [Text.wordsBy, foldr_cons, hc, hd, Bool.false_eq_true, if_false] at h ⊢
    simp only [List.isEmpty_cons, Bool.false_eq_true, if_false, List.cons.injEq] at h ⊢
    exact ⟨⟨trivial, h.1⟩, h.2⟩
  induction word with
  | nil => exact absurd rfl hne
  | cons c word ih =>
    obtain ⟨hc, hword⟩ := forall_mem_cons.1 hword
    cases word with
    | nil =>
      cases rest with
      | nil => simp [Text.wordsBy, hc]
      | cons b rest => simp [Text.wordsBy, hc, hrest b rfl]
    | cons d word => exact hgrow d _ _ _ (hword d mem_cons_self) (ih (cons_ne_nil _ _) hword) c hc

theorem wordsBy_of_words {words : List (List Char)} (h : Words cs words) :
    Text.wordsBy Text.isBlank cs = words := by
  induction h with
  | @none blanks hblanks =>
    rw [← append_nil blanks, wordsBy_blanks hblanks]
    rfl
  | word hblanks hne hword hrest _ ih =>
    rw [wordsBy_blanks hblanks, wordsBy_word hne hword hrest, ih]

theorem Lists.offeredNames_eq (h : Lists v names) : offeredNames v = names := by
  cases h with
  | items h => exact map_text_of_named h
  | words hv h =>
    cases v <;> cases hv <;> exact congrArg (List.map String.ofList) (wordsBy_of_words h)

theorem Worded.text_eq (h : Worded v name) (spans : List Span) :
    Response.text ⟨v, spans⟩ = name := by
  cases h with
  | items h => exact congrArg " ".intercalate (map_text_of_named h)
  | missing => rfl
  | other hlist hnone h =>
    rw [← h.text_eq]
    cases v with
    | list items => exact absurd rfl (hlist items)
    | none => exact absurd rfl hnone
    | _ => rfl

theorem Offers.ofValue_eq {offer : Offer} (h : Offers v offer) : Offer.ofValue v = .ok offer := by
  cases h with
  | choices h =>
    rw [← map_text_of_named h]
    rfl
  | final h =>
    rw [← h.text_eq]
    rfl

end Editing

/-- The command is one of those that a load is made of. -/
def Command.loads (c : Command) : Bool := c.tag == "interpret" || c.tag == "load-file"

namespace Client

open Prog World

variable {s d : Nat} {w w' : World} {α β ε : Type} {c : Command}

/-! ## What a program asks -/

/-- The command that a step issues in a session, if it issues one. -/
def requestIn (s : Nat) (step : World × World) : Option Command :=
  if (step.1.session s).dispatch.stats.issued < (step.2.session s).dispatch.stats.issued then
    (step.2.session s).dispatch.pending.getLast?.map Call.command
  else none

/-- The commands that steps issue in a session, in order, without those of loads. -/
def questions (s : Nat) (steps : List (World × World)) : List Command :=
  (steps.filterMap (requestIn s)).filter fun c => !c.loads

theorem questions_append (s : Nat) (steps later : List (World × World)) :
    questions s (steps ++ later) = questions s steps ++ questions s later := by
  simp [questions]

theorem requestIn_of_issued_eq
    (h : (w'.session s).dispatch.stats.issued = (w.session s).dispatch.stats.issued) :
    requestIn s (w, w') = none := by
  simp [requestIn, h]

theorem requestIn_issue (hs : s < w.sessions.length) (c : Command) :
    requestIn s (w, (w.issue s c .waiter).2) = some c := by
  obtain ⟨hlast, hcommand⟩ := pending_issue hs c .waiter
  have hissued : ((w.issue s c .waiter).2.session s).dispatch.stats.issued =
      (w.session s).dispatch.stats.issued + 1 := by
    obtain ⟨hcall, haccount, -⟩ := account_issue hs c .waiter
    have hcalls := congrArg (fun a => a.calls.stats.issued) haccount
    rw [hcall] at hcalls
    exact hcalls
  rw [requestIn, if_pos (by dsimp only; omega), hlast, Option.map_some, hcommand]

/-- What programs keep to that issue no commands in a session but those of loads. -/
def loading (s : Nat) : Discipline World Await Unit where
  Step w _ w' _ := ∀ c ∈ requestIn s (w, w'), c.loads = true
  Pause _ _ _ := True
  Wake _ _ _ _ _ _ := True

theorem loading_step (h : (w'.session s).dispatch.stats.issued =
    (w.session s).dispatch.stats.issued) : (loading s).Step w () w' () := by
  intro c hc
  rw [requestIn_of_issued_eq h] at hc
  cases hc

theorem loading_modifySession {f : Session → Session}
    (hf : ∀ session, (f session).dispatch.stats.issued = session.dispatch.stats.issued) :
    Obeys (loading s) (modifySession s f) :=
  .modify fun _ =>
    loading_step (session_modifySession_feature
      (fun session => session.dispatch.stats.issued) (hf _) s)

/-- Starts keep to it, and calls of these commands. -/
theorem loading_of_dealing {p : Action α} (h : Obeys (dealing s fun c => c.loads = true) p) :
    Obeys (loading s) p := by
  have hfeature : ∀ {w : World} {f : Session → Session},
      (f (w.session s)).dispatch.stats.issued = (w.session s).dispatch.stats.issued →
        (loading s).Step w () (w.modifySession s f) () := fun hf =>
    loading_step (session_modifySession_feature (fun session => session.dispatch.stats.issued) hf s)
  have hstep : ∀ w w', Deals s (fun c => c.loads = true) w w' → (loading s).Step w () w' () := by
    intro w w' hdeals
    cases hdeals with
    | gentle h =>
      cases h with
      | stirs h _ =>
        refine loading_step ?_
        unfold World.session
        rw [h.sessions_eq]
      | transport _ => exact hfeature rfl
    | spawn _ _ _ => exact loading_step rfl
    | attach _ => exact hfeature rfl
    | issue hrunning hc =>
      intro c' hc'
      rw [requestIn_issue (length_of_isRunning hrunning)] at hc'
      cases hc'
      exact hc
    | take _ => exact hfeature rfl
    | drop _ => exact hfeature rfl
  exact h.refine hstep (fun _ _ _ => trivial) fun _ _ _ _ _ => trivial

theorem loading_allowsLoads (s : Nat) : AllowsLoads (loading s) s where
  note hf := loading_modifySession fun session => by rw [(hf session).2.1]
  announce w p f := loading_step (by
    unfold loadFault
    split <;> rfl)
  start limit := loading_of_dealing (dealing_start s limit)
  move _ limit := loading_of_dealing (dealing_call s (by rfl) limit)
  load _ limit := loading_of_dealing (dealing_call s (by rfl) limit)

theorem loading_load (s d : Nat) : Obeys (loading s) (load s d) :=
  (loading_allowsLoads s).obeys_load (fun _ => loading_modifySession fun _ => rfl) d

theorem loading_ensureLoaded (s d : Nat) : Obeys (loading s) (ensureLoaded s d) :=
  (loading_allowsLoads s).obeys_ensureLoaded (fun _ => loading_modifySession fun _ => rfl) d

section Runs

variable (env : Environment World Await ε) (memory : ε)

theorem questions_of_loading {p : Action α} (h : Obeys (loading s) p) (w : World) :
    questions s (stores env p w memory) = [] := by
  have hsteps : ∀ {g steps g'}, Leads (loading s) g steps g' → questions s steps = [] := by
    intro g steps g' hleads
    induction hleads with
    | nil _ => rfl
    | @cons w w' _ _ _ rest hstep _ ih =>
      show questions s ([(w, w')] ++ rest) = []
      rw [questions_append, ih, append_nil, questions, filter_eq_nil_iff]
      intro c hc
      obtain ⟨_, hmem, hrequest⟩ := mem_filterMap.1 hc
      obtain rfl := mem_singleton.1 hmem
      simp [hstep c hrequest]
  obtain ⟨_, hleads, -⟩ := (h w).leads (fun _ _ _ _ _ _ => trivial) env memory
  exact hsteps hleads

theorem runIn_call_of_running (h : w.isRunning s = true) (c : Command) (limit : Option Duration) :
    runIn env (call s c limit) w memory =
      runIn env (awaitReply s (w.issue s c .waiter).1.id limit c.tag)
        (w.issue s c .waiter).2 memory := by
  show runIn env (if w.isRunning s then _ else _) w memory = _
  rw [if_pos h]
  rfl

theorem stores_call_of_running (h : w.isRunning s = true) (c : Command) (limit : Option Duration) :
    stores env (call s c limit) w memory = (w, (w.issue s c .waiter).2) ::
      stores env (awaitReply s (w.issue s c .waiter).1.id limit c.tag)
        (w.issue s c .waiter).2 memory := by
  show stores env (if w.isRunning s then _ else _) w memory = _
  rw [if_pos h]
  rfl

theorem questions_call_of_running (h : w.isRunning s = true) (hc : c.loads = false)
    (limit : Option Duration) : questions s (stores env (call s c limit) w memory) = [c] := by
  rw [stores_call_of_running env memory h, ← singleton_append, questions_append,
    questions_of_loading env memory (loading_of_dealing (dealing_awaitReply s _ limit c.tag))]
  simp [questions, requestIn_issue (length_of_isRunning h), hc]

theorem questions_bind_ok {p : Action α} {f : α → Action β} {a : α} {memory memory' : ε}
    (h : runIn env p w memory = (.ok a, w', memory')) :
    questions s (stores env (p >>= f) w memory) =
      questions s (stores env p w memory) ++ questions s (stores env (f a) w' memory') := by
  rw [stores_bind_ok h, questions_append]

/-- In every run a program asks these commands, from the first on and in order, but it need not come
to the last. -/
def Says (s : Nat) (said : List Command) (p : Action α) : Prop :=
  ∀ w memory, questions s (stores env p w memory) <+: said

variable {env} {said : List Command} {p : Action α} {f : α → Action β}

theorem says_of_loading (h : Obeys (loading s) p) : Says env s said p := by
  intro w memory
  rw [questions_of_loading env memory h]
  exact nil_prefix

theorem says_loading_bind (hp : Obeys (loading s) p) (hf : ∀ a, Says env s said (f a)) :
    Says env s said (p >>= f) := by
  intro w memory
  rw [stores_bind, questions_append, questions_of_loading env memory hp, nil_append]
  rcases runIn env p w memory with ⟨fault | a, w', memory'⟩
  · exact nil_prefix
  · exact hf a w' memory'

theorem says_bind_loading (hp : Says env s said p) (hf : ∀ a, Obeys (loading s) (f a)) :
    Says env s said (p >>= f) := by
  intro w memory
  rw [stores_bind, questions_append]
  rcases runIn env p w memory with ⟨fault | a, w', memory'⟩
  · rw [show questions s [] = [] from rfl, append_nil]
    exact hp w memory
  · rw [questions_of_loading env memory' (hf a), append_nil]
    exact hp w memory

/-- A call asks its own command, unless the compiler does not run; then the call fails. -/
theorem says_sessionCall_bind {f : Response → Action β} (hc : c.loads = false)
    (hf : ∀ a, Says env s said (f a)) : Says env s (c :: said) (sessionCall s c none >>= f) := by
  intro w memory
  rw [stores_bind, questions_append]
  cases hrunning : w.isRunning s with
  | false =>
    have hcall : ∃ fault, runIn env (sessionCall s c none) w memory = (.error fault, w, memory) ∧
        stores env (sessionCall s c none) w memory = [] := by
      refine ⟨.unavailable .notRunning, ?_⟩
      show runIn env (if w.isRunning s then _ else _) w memory = _ ∧
        stores env (if w.isRunning s then _ else _) w memory = _
      rw [hrunning]
      exact ⟨rfl, rfl⟩
    obtain ⟨fault, hrun, hsteps⟩ := hcall
    rw [hrun, hsteps]
    exact nil_prefix
  | true =>
    have hcall : questions s (stores env (sessionCall s c none) w memory) = [c] :=
      questions_call_of_running env memory hrunning hc _
    rw [hcall]
    rcases runIn env (sessionCall s c none) w memory with ⟨fault | a, w', memory'⟩
    · exact prefix_append [c] said
    · exact (prefix_append_right_inj [c]).2 (hf a w' memory')

end Runs

/-! ## What a refinement asks -/

namespace Refinement

variable (r : Refinement)

theorem loads_question (stem : String) : (r.question stem).loads = false := by
  unfold question
  cases r.variant <;> rfl

theorem loads_choice (name : String) : (r.choice name).loads = false := by
  unfold choice
  cases r.variant <;> rfl

/-- The question, and then choices. -/
def said (stem : String) (chosen : List String) : List Command :=
  r.question stem :: chosen.map r.choice

variable {r} {env : Environment World Await ε}

theorem says_pursue (choices : List String) (offered : List (List String)) (offer : Editing.Offer) :
    Says env r.session (choices.map r.choice) (r.pursue choices offered offer) := by
  induction choices generalizing offered offer with
  | nil =>
    cases offer <;> exact says_of_loading (.done _)
  | cons name rest ih =>
    unfold pursue
    cases offer with
    | final expression => exact says_of_loading (.done _)
    | choices names =>
      dsimp only
      split
      · rw [choose_eq, bind_assoc]
        refine says_sessionCall_bind (r.loads_choice name)
          fun reply => says_loading_bind (.done _) fun offer => ?_
        exact ih _ offer
      · exact says_of_loading (.done _)

theorem says_converse (stem : String) (choices : List String) :
    Says env r.session (r.said stem choices) (r.converse stem choices) := by
  refine says_loading_bind (loading_ensureLoaded _ _) fun _ => ?_
  rw [ask_eq, bind_assoc]
  refine says_sessionCall_bind (r.loads_question stem)
    fun reply => says_loading_bind (.done _) fun offer => ?_
  exact says_pursue choices [] offer

/-- Nothing is asked when the hole is filled. -/
theorem loading_fillHole (r : Refinement) (expression : String) :
    Obeys (loading r.session) (r.fillHole expression) := by
  have hedit : ∀ start finish, Obeys (loading r.session)
      (applyEdit r.session r.document r.editor start finish expression) := by
    intro start finish
    refine .bind (obeys_session _) fun _ => .bind .get fun _ => .bind (.done _) fun inserted => ?_
    refine .bind (.bind (.modify fun _ => loading_step rfl) fun _ => ?_) fun _ => .done _
    exact loading_modifySession fun session => by rw [dispatch_adopt]
  refine .bind (obeys_session _) fun session => ?_
  dsimp only
  split
  · refine .bind (.done _) fun text => ?_
    split
    · exact .done _
    · exact .bind (.done _) fun _ => hedit _ _
  · exact .done (.error (.vanished r.hole))

theorem loading_finish (r : Refinement) (sought : String × List (List String)) :
    Obeys (loading r.session) (r.finish sought) :=
  .bind (loading_fillHole r _) fun _ =>
    .bind (loading_load _ _) fun _ => .done _

end Refinement

/-! ## Replies by a script -/

section Script

variable {env : Environment World Await ε} {memory : ε} {script : ε → List Response}
  {text : List Char} {reply : Response} {replies rest : List Response}

/-- A session talks about a document: its compiler runs, it is to get these replies, and the
document has this text. -/
structure InTalk (s d : Nat) (script : ε → List Response) (text : List Char)
    (replies : List Response) (w : World) (memory : ε) : Prop where
  running : w.isRunning s = true
  script_eq : script memory = replies
  text_eq : ((w.session s).buffer d).text = text

/-- Whoever waits for a call of the session gets the next reply of a script. Meanwhile the compiler
does not exit, and nobody changes the document. -/
def KeepsToScript (env : Environment World Await ε) (s d : Nat)
    (script : ε → List Response) : Prop :=
  ∀ w memory text reply replies id deadline, InTalk s d script text (reply :: replies) w memory →
    ((env (.outcome s id) deadline w memory).2.1.session s).dispatch.outcomes.get? id =
      some (.answered reply) ∧ InTalk s d script text replies
        (env (.outcome s id) deadline w memory).2.1 (env (.outcome s id) deadline w memory).2.2

theorem InTalk.modifyDispatch (h : InTalk s d script text replies w memory)
    (f : Dispatch → Dispatch) : InTalk s d script text replies (w.modifyDispatch s f) memory := by
  refine ⟨?_, h.script_eq, ?_⟩
  · rw [← h.running, World.isRunning, World.isRunning, transport_modifyDispatch,
      host_modifyDispatch]
  · rw [← h.text_eq]
    exact session_modifySession_feature (fun session => (session.buffer d).text) rfl s

theorem InTalk.issue (h : InTalk s d script text replies w memory) (c : Command) :
    InTalk s d script text replies (w.issue s c .waiter).2 memory := by
  refine ⟨?_, h.script_eq, ?_⟩
  · rw [← h.running]
    refine issue_feature (g := fun w => w.isRunning s) (fun w f => ?_) (fun _ _ => rfl)
      (fun _ _ => rfl) w c .waiter
    rw [World.isRunning, World.isRunning, transport_modifyDispatch, host_modifyDispatch]
  · rw [← h.text_eq]
    exact session_issue_feature (g := fun session => (session.buffer d).text) (fun _ _ => rfl)
      w s s c .waiter

/-- A call in a talk gets the next reply. -/
theorem KeepsToScript.sessionCall (henv : KeepsToScript env s d script)
    (h : InTalk s d script text (reply :: rest) w memory) (c : Command) :
    ∃ w' memory', runIn env (sessionCall s c none) w memory = (.ok reply, w', memory') ∧
      InTalk s d script text rest w' memory' := by
  have hwait : ∀ (limit : Option Duration) (w : World) (id : Nat),
    InTalk s d script text (reply :: rest) w memory →
      ∃ w' memory', runIn env (awaitReply s id limit c.tag) w memory = (.ok reply, w', memory') ∧
        InTalk s d script text rest w' memory' := by
    intro limit w id htalk
    obtain ⟨deadline, hdeadline⟩ :
      ∃ deadline, runIn env (limit.mapM deadlineIn : Action (Option Int)) w memory =
        (.ok deadline, w, memory) := by
      cases limit with
      | none => exact ⟨none, rfl⟩
      | some limit => exact ⟨some (w.host.clock + limit.nanos), rfl⟩
    obtain ⟨houtcome, hafter⟩ := henv w memory text reply rest id deadline htalk
    refine ⟨_, _, ?_, hafter.modifyDispatch fun d => { d with outcomes := d.outcomes.erase id }⟩
    rw [awaitReply, awaitOutcome, bind_assoc, runIn_bind_ok env hdeadline, bind_assoc,
      runIn_bind_ok env (runIn_await env _ _ _ _), takeOutcome, bind_assoc,
      runIn_session_bind, houtcome]
    rfl
  obtain ⟨w', memory', hrun, hafter⟩ :=
    hwait (Duration.orElse none (w.session s).callLimit) _ (w.issue s c .waiter).1.id (h.issue c)
  refine ⟨w', memory', ?_, hafter⟩
  rw [← hrun]
  exact runIn_call_of_running env memory h.running c _

variable {expression : String}

namespace Refinement

variable {r : Refinement} {offer last : Editing.Offer} {chosen more : List String}
  {candidates : List (List String)}

/-- What the reply to the question offers: names, unless the refinement is recursive and the reply
says what it is. -/
def Opens (r : Refinement) (v : Value) (offer : Editing.Offer) : Prop :=
  if r.variant = .recursive then Editing.Offers v offer
  else ∃ names, names ≠ [] ∧ Editing.Lists v names ∧ offer = .choices names

/-- What the reply to a choice offers: the expression, without a newline at its end, unless the
refinement is recursive and the reply says what it is. -/
def Continues (r : Refinement) (v : Value) (offer : Editing.Offer) : Prop :=
  if r.variant = .recursive then Editing.Offers v offer
  else ∃ text expression, Editing.Worded v text ∧ offer = .final expression ∧
    (text.toList = expression.toList ++ ['\n'] ∨
      text = expression ∧ expression.toList.getLast? ≠ some '\n')

theorem Opens.opening_eq (h : r.Opens reply.value offer) : r.opening reply = .ok offer := by
  unfold Opens at h
  unfold opening
  cases hvariant : r.variant with
  | recursive =>
    rw [if_pos hvariant] at h
    exact h.ofValue_eq
  | _ =>
    rw [if_neg (by rw [hvariant]; nofun)] at h
    obtain ⟨names, hne, hlists, rfl⟩ := h
    rw [hlists.offeredNames_eq]
    cases names with
    | nil => exact absurd rfl hne
    | cons name names => rfl

theorem Continues.continuation_eq (h : r.Continues reply.value offer) :
    r.continuation reply = .ok offer := by
  unfold Continues at h
  unfold continuation
  have hstrip : ∀ text expression : String, (text.toList = expression.toList ++ ['\n'] ∨
      text = expression ∧ expression.toList.getLast? ≠ some '\n') →
      Editing.withoutTerminator text = expression := by
    rintro text expression (htext | ⟨rfl, hlast⟩)
    · rw [Editing.withoutTerminator, htext, getLast?_concat, if_pos rfl, dropLast_concat,
        String.ofList_toList]
    · rw [Editing.withoutTerminator, if_neg hlast]
  cases hvariant : r.variant with
  | recursive =>
    rw [if_pos hvariant] at h
    exact h.ofValue_eq
  | _ =>
    rw [if_neg (by rw [hvariant]; nofun)] at h
    obtain ⟨text, expression, hworded, rfl, hends⟩ := h
    exact congrArg (fun e => Except.ok (Editing.Offer.final e))
      ((congrArg Editing.withoutTerminator (hworded.text_eq reply.spans)).trans
        (hstrip text expression hends))

/-- From an offer on, choices are made among the names that are offered, and the replies lead on to
the last offer. -/
inductive Rounds (r : Refinement) :
    Editing.Offer → List String → List Response → List (List String) → Editing.Offer → Prop
  where
  | none (offer : Editing.Offer) : Rounds r offer [] [] [] offer
  | next {names : List String} {name : String} {reply : Response} {offer last : Editing.Offer}
    {chosen : List String} {replies : List Response} {candidates : List (List String)}
    (hname : name ∈ names) (hreply : r.Continues reply.value offer)
    (hrest : Rounds r offer chosen replies candidates last) :
    Rounds r (.choices names) (name :: chosen) (reply :: replies) (names :: candidates) last

theorem questions_sessionCall_bind {f : Response → Action α} (henv : KeepsToScript env s d script)
    (h : InTalk s d script text (reply :: rest) w memory) (hc : c.loads = false) :
    ∃ w' memory', runIn env (sessionCall s c none >>= f) w memory = runIn env (f reply) w' memory' ∧
      InTalk s d script text rest w' memory' ∧
      questions s (stores env (sessionCall s c none >>= f) w memory) =
        c :: questions s (stores env (f reply) w' memory') := by
  obtain ⟨w', memory', hrun, hafter⟩ := henv.sessionCall h c
  refine ⟨w', memory', runIn_bind_ok env hrun, hafter, ?_⟩
  rw [questions_bind_ok env hrun,
    show questions s (stores env (sessionCall s c none) w memory) = [c] from
    questions_call_of_running env memory h.running hc _]
  rfl

/-- The choices are made one after the other, up to the last offer. -/
theorem pursue_rounds (henv : KeepsToScript env r.session d script)
    (hrounds : r.Rounds offer chosen replies candidates last)
    (h : InTalk r.session d script text (replies ++ rest) w memory) (more : List String)
    (offered : List (List String)) :
    ∃ w' memory', runIn env (r.pursue (chosen ++ more) offered offer) w memory =
        runIn env (r.pursue more (offered ++ candidates) last) w' memory' ∧
      InTalk r.session d script text rest w' memory' ∧
      questions r.session (stores env (r.pursue (chosen ++ more) offered offer) w memory) =
        chosen.map r.choice ++ questions r.session
          (stores env (r.pursue more (offered ++ candidates) last) w' memory') := by
  -- by induction on the rounds, for whatever was offered before
  induction hrounds generalizing w memory offered with
  | none offer =>
    rw [append_nil]
    exact ⟨w, memory, rfl, h, rfl⟩
  | @next names name reply offer last chosen replies candidates hname hreply _ ih =>
    have hstep : r.pursue (name :: chosen ++ more) offered (.choices names) = (do
        let reply ← sessionCall r.session (r.choice name) Option.none
        let offer ← Prog.ofResult (r.continuation reply)
        r.pursue (chosen ++ more) (offered ++ [names]) offer) := by
      rw [cons_append, pursue]
      rw [if_pos (contains_iff_mem.2 hname), choose_eq, bind_assoc]
    obtain ⟨w₁, memory₁, hrun, htalk, hasked⟩ :=
      questions_sessionCall_bind henv h (r.loads_choice name) (f := fun reply => do
        let offer ← Prog.ofResult (r.continuation reply)
        r.pursue (chosen ++ more) (offered ++ [names]) offer)
    obtain ⟨w', memory', hrun', htalk', hasked'⟩ := ih htalk (offered ++ [names])
    rw [hreply.continuation_eq] at hrun hasked
    rw [append_assoc] at hrun' hasked'
    refine ⟨w', memory', ?_, htalk', ?_⟩
    · rw [hstep, hrun]
      exact hrun'
    · rw [hstep, hasked, map_cons, cons_append]
      exact congrArg (r.choice name :: ·) hasked'

theorem pursue_final (offered : List (List String)) (expression : String) :
    r.pursue more offered (.final expression) = pure (expression, offered) := by
  cases more <;> rfl

theorem pursue_unmatched {names : List String} (h : ∀ name ∈ more.head?, name ∉ names)
    (offered : List (List String)) : r.pursue more offered (.choices names) =
      throw (.choiceRequired names (offered.length + 1)) := by
  cases more with
  | nil =>
    unfold pursue
    dsimp only
    rw [length_append]
    rfl
  | cons name more =>
    unfold pursue
    dsimp only
    rw [if_neg, length_append]
    · rfl
    · simpa using h name rfl

theorem Rounds.length_eq (h : r.Rounds offer chosen replies candidates last) :
    candidates.length = chosen.length := by
  induction h with
  | none _ => rfl
  | next _ _ _ ih => exact congrArg (· + 1) ih

/-- A refinement gets replies after the document is loaded: one to its question, and one to each of
these choices. -/
structure Replied (env : Environment World Await ε) (script : ε → List Response) (r : Refinement)
    (chosen : List String) (candidates : List (List String)) (last : Editing.Offer) (w : World)
    (memory : ε) : Prop where
  keeps : KeepsToScript env r.session r.document script
  talk : ∃ loaded w₁ memory₁ reply replies rest offer,
    runIn env (ensureLoaded r.session r.document) w memory = (.ok loaded, w₁, memory₁) ∧
    InTalk r.session r.document script ((w.session r.session).buffer r.document).text
      (reply :: (replies ++ rest)) w₁ memory₁ ∧
    r.Opens reply.value offer ∧ r.Rounds offer chosen replies candidates last

variable {stem : String}

/-- The question and the choices are asked, up to the last offer. -/
theorem Replied.converse (h : r.Replied env script chosen candidates last w memory) :
    ∃ w' memory' rest, runIn env (r.converse stem (chosen ++ more)) w memory =
        runIn env (r.pursue more candidates last) w' memory' ∧
      InTalk r.session r.document script ((w.session r.session).buffer r.document).text
        rest w' memory' ∧
      questions r.session (stores env (r.converse stem (chosen ++ more)) w memory) =
        r.said stem chosen ++ questions r.session
          (stores env (r.pursue more candidates last) w' memory') := by
  obtain ⟨loaded, w₁, memory₁, reply, replies, rest, offer, hloaded, htalk, hopening, hrounds⟩ :=
    h.talk
  obtain ⟨w₂, memory₂, hrun₂, htalk₂, hasked₂⟩ :=
    questions_sessionCall_bind h.keeps htalk (r.loads_question stem) (f := fun reply =>
        Prog.ofResult (r.opening reply) >>= fun offer => r.pursue (chosen ++ more) [] offer)
  obtain ⟨w', memory', hrun', htalk', hasked'⟩ := pursue_rounds h.keeps hrounds htalk₂ more []
  rw [hopening.opening_eq] at hrun₂ hasked₂
  refine ⟨w', memory', rest, ?_, htalk', ?_⟩
  · rw [Refinement.converse, runIn_bind_ok env hloaded, ask_eq, bind_assoc, hrun₂]
    exact hrun'
  · rw [Refinement.converse, questions_bind_ok env hloaded, ask_eq, bind_assoc, hasked₂,
      questions_of_loading env memory (loading_ensureLoaded _ _), nil_append, said, cons_append]
    exact congrArg (r.question stem :: ·) hasked'

theorem Replied.converse_final (h : r.Replied env script chosen candidates
    (.final expression) w memory) :
    ∃ w' memory', runIn env (r.converse stem (chosen ++ more)) w memory =
      (.ok (expression, candidates), w', memory') ∧
      ((w'.session r.session).buffer r.document).text =
        ((w.session r.session).buffer r.document).text ∧
      questions r.session (stores env (r.converse stem (chosen ++ more)) w memory) =
        r.said stem chosen := by
  obtain ⟨w', memory', _, hrun, htalk, hasked⟩ := h.converse
  rw [pursue_final] at hrun hasked
  exact ⟨w', memory', hrun, htalk.text_eq, hasked.trans (append_nil _)⟩

theorem Replied.converse_refused {names : List String}
    (h : r.Replied env script chosen candidates (.choices names) w memory)
    (hnext : ∀ name ∈ more.head?, name ∉ names) :
    ∃ w' memory', runIn env (r.converse stem (chosen ++ more)) w memory =
        (.error (.choiceRequired names (chosen.length + 1)), w', memory') ∧
      questions r.session (stores env (r.converse stem (chosen ++ more)) w memory) =
        r.said stem chosen := by
  obtain ⟨w', memory', _, hrun, -, hasked⟩ := h.converse
  obtain ⟨_, _, _, _, _, _, _, -, -, -, hrounds⟩ := h.talk
  rw [pursue_unmatched hnext, hrounds.length_eq] at hrun hasked
  exact ⟨w', memory', hrun, hasked.trans (append_nil _)⟩

end Refinement

/-! ## The edit -/

variable {line column : Int} {before after : List Char}

/-- A hole of a line goes by a name. -/
def HasHole (text : List Char) (line : Int) (name : String) : Prop :=
  ∃ before content after, IsLine text line.toNat before content after ∧
    ∃ place, GoesBy name.toList content place

theorem hasHole_of_holeAt {b : Buffer} {left right : List Char} {name : String}
    (h : b.HoleAt line column before left name right after) : HasHole b.text line name :=
  ⟨before, _, after, h.isLine, left.length, goesBy_of_holeAt h⟩

/-- A replacement, made in a world, puts an expression in the place of the first hole that goes by
the name. -/
structure FillsWith (r : Refinement) (expression : String) (w : World)
    (x : Replacement) : Prop where
  world_eq : x.world = w
  first : FillsFirst r.session r.document r.line r.hole x
  text_eq : x.buffer.text = (x.old r.session r.document).text.take x.start.toNat ++
    r.editor.inserted expression.toList ++ (x.old r.session r.document).text.drop x.finish.toNat

variable (env memory) in
/-- The hole is filled where it is found in its line. -/
theorem rewrites_fillHole {r : Refinement} {content : List Char} {place : Nat}
    (hline : ((w.session r.session).buffer r.document).HasLine r.line before content after)
    (hfound : Refinement.findHole? r.hole.toList content = some place)
    (hreads : r.editor.Reads expression.toList) :
    ∃ start finish, start = Int.ofNat before.length + place ∧
      finish = Int.ofNat before.length + place + r.hole.length + 1 ∧ Rewrites r.session r.document
        (((w.session r.session).buffer r.document).text.take start.toNat ++
          r.editor.inserted expression.toList ++
          ((w.session r.session).buffer r.document).text.drop finish.toNat)
        (fun _ => True) w memory (runIn env (r.fillHole expression) w memory) := by
  obtain ⟨left, right, hcontent, rfl⟩ := Refinement.exists_of_findHole? hfound
  refine ⟨_, _, rfl, rfl, ?_⟩
  have htext : ((w.session r.session).buffer r.document).text =
      (before ++ left) ++ '?' :: r.hole.toList ++ (right ++ after) := by
    rw [hline.isLine.text_eq, hcontent]
    simp
  rw [Refinement.fillHole, runIn_session_bind]
  rw [if_pos hline.range.2, runIn_ofResult_bind hline.lineContent_eq]
  simp only [hfound]
  rw [runIn_ofResult_bind hline.offset_eq]
  refine rewrites_hole hreads htext ?_ ?_
  · simp
  · simp only [length_append, Int.ofNat_eq_natCast]
    omega

variable (env memory) in
/-- The hole at a point is filled, or the file cannot be written and nothing is touched. -/
theorem fillHole_fills {r : Refinement}
    (hhole : HasHole ((w.session r.session).buffer r.document).text r.line r.hole)
    (hreads : r.editor.Reads expression.toList) :
    (∃ content fault, w.host.disk.writeText ((w.session r.session).buffer r.document).path content =
      .error fault ∧
        runIn env (r.fillHole expression) w memory = (.error (.file fault), w, memory) ∧
        Untouched (stores env (r.fillHole expression) w memory)) ∨
      ∃ x fields, runIn env (r.fillHole expression) w memory =
        (.ok fields, x.adopted r.session r.document, memory) ∧
        EditsOnce r.session r.document x (stores env (r.fillHole expression) w memory) ∧
          FillsWith r expression w x := by
  obtain ⟨before, content, after, hline, hexists⟩ := hhole
  obtain ⟨place, hfound⟩ : ∃ place, Refinement.findHole? r.hole.toList content = some place := by
    classical
    refine ⟨Nat.find hexists, Refinement.findHole?_eq_some_iff.2
      ⟨Nat.find_spec hexists, fun k hk => ?_⟩⟩
    exact Nat.find_min hexists hk
  have hedits := edits_of_ends env memory (safe_fillHole_first r expression w)
  obtain ⟨start, finish, hstart, hfinish, hrewrites⟩ :=
    rewrites_fillHole env memory hline.hasLine hfound hreads
  unfold Rewrites at hrewrites
  split at hrewrites
  · next disk hwrite =>
    obtain ⟨fields, w', hrun, -, hbuffer, -⟩ := hrewrites
    rw [hrun] at hedits
    obtain ⟨x, honce, rfl, rfl, hfills⟩ := hedits
    obtain ⟨before', content', after', place', hline', hfound', hstart', hfinish'⟩ := hfills.found
    obtain ⟨rfl, rfl, rfl⟩ := hline.unique hline'.isLine
    obtain rfl := Option.some.inj (hfound.symm.trans hfound')
    have hne : (x.old r.session r.document).text ≠ [] := by
      obtain ⟨left, right, hcontent, -⟩ := Refinement.exists_of_findHole? hfound
      rw [hline'.isLine.text_eq, hcontent]
      simp
    obtain rfl := hstart'.trans hstart.symm
    obtain rfl := hfinish'.trans hfinish.symm
    rw [x.buffer_adopted hne] at hbuffer
    exact .inr ⟨x, fields, hrun, honce, rfl, hfills, congrArg Buffer.text hbuffer⟩
  · next fault hwrite =>
    rw [hrewrites] at hedits
    exact .inl ⟨_, fault, hwrite, hrewrites, hedits⟩

variable (env memory) in
/-- After the edit the document is loaded, and the refinement ends as the load does. -/
theorem finish_fills (r : Refinement) (sought : String × List (List String))
    (hhole : HasHole ((w.session r.session).buffer r.document).text r.line r.hole)
    (hreads : r.editor.Reads sought.1.toList) :
    (∃ content fault, w.host.disk.writeText ((w.session r.session).buffer r.document).path content =
      .error fault ∧ (runIn env (r.finish sought) w memory).1 = .error (.file fault) ∧
          Untouched (stores env (r.finish sought) w memory)) ∨
      ∃ x fields, EditsOnce r.session r.document x (stores env (r.finish sought) w memory) ∧
        FillsWith r sought.1 w x ∧ (runIn env (r.finish sought) w memory).1 =
          (runIn env (load r.session r.document) (x.adopted r.session r.document) memory).1.map
            fun _ => {
            command := "refine-" ++ r.variant.text, text := sought.1, line := r.line,
              fields := fields,
            rounds := sought.2.length + 1, offered := sought.2 } := by
  rcases fillHole_fills env memory hhole hreads with
    ⟨content, fault, hwrite, hrun, huntouched⟩ | ⟨x, fields, hrun, honce, hfills⟩
  · refine .inl ⟨content, fault, hwrite, ?_, ?_⟩
    · rw [Refinement.finish, runIn_bind_error env hrun]
    · rw [Refinement.finish, stores_bind_error hrun]
      exact huntouched
  · refine .inr ⟨x, fields, ?_, hfills, ?_⟩
    · rw [Refinement.finish, stores_bind_ok hrun]
      exact honce.append (untouched_of_sparing env memory
        (.bind (sparing_load _ _) fun _ => .done _) _)
    · rw [Refinement.finish, runIn_bind_ok env hrun, runIn_bind_pure]

/-- **A refinement replays its choices.** The name at the point is that of a hole in its line. In
every run the refinement asks its question and then tells choices in the order given, but it need
not come to the last of them. Suppose that the document loads, the compiler replies and nobody
changes the document meanwhile. Then the choices that are among the names offered are told, one for
each reply. If an expression is offered after them, the refinement puts it in the place of the hole,
once, loads the document and returns with the number of rounds, unless the file cannot be written.
If names are offered once more and the next choice is not among them, or there is none, the
refinement asks for a choice among these names, with nothing touched. -/
theorem refinement_replays_choices (env : Environment World Await ε) (memory : ε)
    (s d : Nat) (e : Editor) (line column : Int) (variant : Variant) (stem : String)
    (chosen more : List String) {w : World} {name : String}
    (hname : ((w.session s).buffer d).nameAt line column = .ok (name, line))
    (hhole : HasHole ((w.session s).buffer d).text line name) :
    let r : Refinement := ⟨s, d, e, variant, name, line⟩
    let result := (runIn env (refine s d e line column variant stem (chosen ++ more)) w memory).1
    let steps := stores env (refine s d e line column variant stem (chosen ++ more)) w memory
    questions s steps <+: r.said stem (chosen ++ more) ∧
      ∀ script candidates last, r.Replied env script chosen candidates last w memory →
        (∀ expression, last = .final expression →
          (e = .templated → expression.length < 10 ^ Text.digitLimit) →
          questions s steps = r.said stem chosen ∧
            ∃ w' memory', runIn env (r.converse stem (chosen ++ more)) w memory =
              (.ok (expression, candidates), w', memory') ∧
              ((∃ content fault, w'.host.disk.writeText ((w'.session s).buffer d).path content =
                .error fault ∧ result = .error (.file fault) ∧ Untouched steps) ∨
                ∃ x fields, EditsOnce s d x steps ∧ FillsWith r expression w' x ∧
                  result = (runIn env (load s d) (x.adopted s d) memory').1.map fun _ => {
                    command := "refine-" ++ variant.text, text := expression, line := line,
                      fields := fields,
                    rounds := chosen.length + 1, offered := candidates })) ∧
        ∀ names, last = .choices names → (∀ next ∈ more.head?, next ∉ names) →
          questions s steps = r.said stem chosen ∧
            result = .error (.choiceRequired names (chosen.length + 1)) ∧ Untouched steps := by
  intro r result steps
  obtain ⟨hrefine, hsteps⟩ := refine_eq_converse env memory e variant stem (chosen ++ more) hname
  have hresult : result = (runIn env (r.converse stem (chosen ++ more) >>= r.finish) w memory).1 :=
    congrArg Prod.fst hrefine
  have hspared := untouched_of_sparing env memory (sparing_converse r stem (chosen ++ more)) w
  rw [hresult, show steps = stores env (r.converse stem (chosen ++ more) >>= r.finish) w
    memory from hsteps]
  refine ⟨says_bind_loading (r.says_converse stem _) (Refinement.loading_finish r) w memory, ?_⟩
  refine fun script candidates last hreplied => ⟨?_, ?_⟩
  · rintro expression rfl hfew
    obtain ⟨w', memory', hrun, htext, hasked⟩ := hreplied.converse_final
    obtain ⟨_, _, _, _, _, _, _, -, -, -, hrounds⟩ := hreplied.talk
    refine ⟨?_, w', memory', hrun, ?_⟩
    · rw [questions_bind_ok env hrun,
        questions_of_loading env memory' (Refinement.loading_finish r _), append_nil]
      exact hasked
    rw [runIn_bind_ok env hrun, stores_bind_ok hrun, ← hrounds.length_eq]
    rcases finish_fills env memory' r (expression, candidates) (htext ▸ hhole)
      (Editor.reads_of_length hfew) with ⟨content, fault, hwrite, hfault, huntouched⟩ | ⟨x, fields,
        honce, hfills, hload⟩
    · exact .inl ⟨content, fault, hwrite, hfault, hspared.append huntouched⟩
    · exact .inr ⟨x, fields, hspared.append_editsOnce honce, hfills, hload⟩
  · rintro names rfl hnext
    obtain ⟨w', memory', hrun, hasked⟩ := hreplied.converse_refused hnext
    rw [runIn_bind_error env hrun, stores_bind_error hrun]
    exact ⟨hasked, rfl, hspared⟩

/-- The replies in a script, up to the first outcome that is none. -/
def repliesIn : List Outcome → List Response
  | .answered r :: rest => r :: repliesIn rest
  | _ => []

theorem scripted_keepsToScript (s d : Nat) : KeepsToScript scripted s d repliesIn := by
  intro w outcomes text reply replies id deadline h
  have hscript := h.script_eq
  cases outcomes with
  | nil => cases hscript
  | cons outcome rest =>
    cases outcome with
    | failed f => cases hscript
    | expired => cases hscript
    | answered r =>
      obtain ⟨rfl, hrest⟩ := List.cons.inj hscript
      refine ⟨?_, { (h.modifyDispatch _) with script_eq := hrest }⟩
      show ((w.modifyDispatch s _).session s).dispatch.outcomes.get? id = _
      rw [modifyDispatch, session_modifySession_self (length_of_isRunning h.running)]
      simp

/-- What the compiler says to a refinement in two rounds: names, names again, the expression, that
it moved to the directory, and that it loaded the file. -/
def twoRounds : List Outcome :=
  [.ofReply true [.list [.sym ":more-choices", .list [.str "plus", .str "minus"]]],
    .ofReply true [.list [.sym ":more-choices", .list [.str "S", .str "Z"]]],
    .ofReply true [.list [.sym ":final", .str "plus (S ?a)"]], .ofReply true [.list []],
    .ofReply true [.list []]]

/-- What the compiler says to a refinement in one round: names in one text, the expression with a
newline after it, that it moved to the directory, and that it loaded the file. -/
def oneRound : List Outcome :=
  [.ofReply true [.str "plus  minus"], .ofReply true [.str "plus ?a ?b\n"],
    .ofReply true [.list []], .ofReply true [.list []]]

theorem words_plusMinus : Editing.Lists (.str "plus  minus") ["plus", "minus"] := by
  have hsolid : ∀ {cs : List Char}, cs.all (!Text.isBlank ·) →
      ∀ c ∈ cs, Text.isBlank c = false := by
    intro cs hcs c hc
    simpa using all_eq_true.1 hcs c hc
  have hminus : Editing.Words ([' ', ' '] ++ (['m', 'i', 'n', 'u', 's'] ++ []))
      [['m', 'i', 'n', 'u', 's']] :=
    .word (all_eq_true.1 rfl) (by decide) (hsolid rfl) nofun (.none nofun)
  have hwords : Editing.Words ([] ++ (['p', 'l', 'u', 's'] ++ [' ', ' ', 'm', 'i', 'n', 'u', 's']))
      [['p', 'l', 'u', 's'], ['m', 'i', 'n', 'u', 's']] :=
    .word nofun (by decide) (hsolid rfl) (fun _ hc => Option.some.inj hc ▸ rfl) hminus
  exact @Editing.Lists.words (.str "plus  minus") "plus  minus" _ rfl hwords

/-- Two choices are told and the expression is filled in. With the first choice alone, the second
offer is handed on. A refinement that is not recursive is offered names in one text, tells one
choice, and fills in the expression. -/
theorem refinement_replays_choices_two :
    let w := deskWorld "f x = ?h\n"
    let r : Refinement := ⟨0, 0, .plain, .recursive, "h", 1⟩
    let run := fun variant choices replies =>
      runIn scripted (refine 0 0 .plain 1 8 variant "" choices) w replies
    let steps := fun variant choices replies =>
      stores scripted (refine 0 0 .plain 1 8 variant "" choices) w replies
    (r.Replied scripted repliesIn ["plus", "S"] [["plus", "minus"], ["S", "Z"]]
      (.final "plus (S ?a)") w twoRounds ∧
        questions 0 (steps .recursive ["plus", "S"] twoRounds) = r.said "" ["plus", "S"] ∧
        (run .recursive ["plus", "S"] twoRounds).1.toOption.map
          (fun edit => (edit.rounds, edit.text)) = some (3, "plus (S ?a)") ∧
        (((run .recursive ["plus", "S"] twoRounds).2.1.session 0).buffer 0).text =
          "f x = plus (S ?a)\n".toList ∧
        ∃ x, EditsOnce 0 0 x (steps .recursive ["plus", "S"] twoRounds) ∧ FillsFirst 0 0 1 "h" x) ∧
      (r.Replied scripted repliesIn ["plus"] [["plus", "minus"]] (.choices ["S", "Z"]) w twoRounds ∧
        questions 0 (steps .recursive ["plus"] twoRounds) = r.said "" ["plus"] ∧
        (run .recursive ["plus"] twoRounds).1 = .error (.choiceRequired ["S", "Z"] 2) ∧
        Untouched (steps .recursive ["plus"] twoRounds)) ∧
      ({ r with variant := .plain } : Refinement).Replied scripted repliesIn ["plus"]
        [["plus", "minus"]] (.final "plus ?a ?b") w oneRound ∧
        questions 0 (steps .plain ["plus"] oneRound) =
          ({ r with variant := .plain } : Refinement).said "" ["plus"] ∧
        (run .plain ["plus"] oneRound).1.toOption.map (fun edit => (edit.rounds, edit.text)) =
          some (2, "plus ?a ?b") ∧
        ∃ x, EditsOnce 0 0 x (steps .plain ["plus"] oneRound) ∧ FillsFirst 0 0 1 "h" x := by
  intro w r run steps
  have hhole : ((w.session 0).buffer 0).HoleAt 1 8 [] "f x = ".toList "h" [] ['\n'] :=
    ⟨⟨by decide, by decide, .inl rfl, .inr ⟨[], rfl⟩,
      rfl⟩, by decide, by simp [isNameChar, isWordChar],
      by simp, by decide, by decide, by decide, by decide⟩
  have hopens : r.Opens (.list [.sym ":more-choices", .list [.str "plus", .str "minus"]])
      (.choices ["plus", "minus"]) :=
    .choices (.cons (.str _) (.cons (.str _) .nil))
  have hagain : r.Continues (.list [.sym ":more-choices", .list [.str "S", .str "Z"]])
      (.choices ["S", "Z"]) :=
    .choices (.cons (.str _) (.cons (.str _) .nil))
  have hends : r.Continues (.list [.sym ":final", .str "plus (S ?a)"]) (.final "plus (S ?a)") :=
    .final (.str _)
  have hfinal : r.Replied scripted repliesIn ["plus", "S"] [["plus", "minus"], ["S", "Z"]]
    (.final "plus (S ?a)") w twoRounds :=
    ⟨scripted_keepsToScript 0 0, false, w, twoRounds, _, [_, _], _, .choices ["plus", "minus"], rfl,
      ⟨rfl, rfl, rfl⟩, hopens, .next (by decide) hagain (.next (by decide) hends (.none _))⟩
  have hrefused : r.Replied scripted repliesIn ["plus"] [["plus", "minus"]]
      (.choices ["S", "Z"]) w twoRounds :=
    ⟨scripted_keepsToScript 0 0, false, w, twoRounds, _, [_], _, .choices ["plus", "minus"], rfl,
      ⟨rfl, rfl, rfl⟩, hopens, .next (by decide) hagain (.none _)⟩
  have hplain : ({ r with variant := .plain } : Refinement).Replied scripted repliesIn ["plus"]
    [["plus", "minus"]] (.final "plus ?a ?b") w oneRound :=
    ⟨scripted_keepsToScript 0 0, false, w, oneRound, _, [_], _, .choices ["plus", "minus"], rfl,
      ⟨rfl, rfl, rfl⟩, ⟨_, by decide, words_plusMinus, rfl⟩, .next (by decide)
        ⟨"plus ?a ?b\n", _, .other (by rintro _ ⟨⟩) (by rintro ⟨⟩) (.str _), rfl,
          .inl (by decide)⟩ (.none _)⟩
  have hrounds : (run .recursive ["plus", "S"] twoRounds).1.toOption.map
    (fun edit => (edit.rounds, edit.text)) = some (3, "plus (S ?a)") := by decide +kernel
  have hround : (run .plain ["plus"] oneRound).1.toOption.map
    (fun edit => (edit.rounds, edit.text)) = some (2, "plus ?a ?b") := by decide +kernel
  have hreplays := fun variant chosen replies =>
    refinement_replays_choices scripted replies 0 0 .plain 1 8 variant "" chosen []
      hhole.nameAt_eq (hasHole_of_holeAt hhole)
  refine ⟨⟨hfinal, ?_⟩, ⟨hrefused, ((hreplays .recursive ["plus"] twoRounds).2 _ _ _ hrefused).2 _
    rfl (by simp)⟩, hplain, ?_⟩
  · obtain ⟨hasked, _, _, -, ⟨_, fault, -, hfault, -⟩ | ⟨x, _, honce, hfills, -⟩⟩ :=
      ((hreplays .recursive ["plus", "S"] twoRounds).2 _ _ _ hfinal).1 _ rfl (by simp)
    · rw [show (run .recursive ["plus", "S"] twoRounds).1 = .error (.file fault) from hfault]
        at hrounds
      cases hrounds
    · exact ⟨hasked, hrounds, by decide +kernel, x, honce, hfills.first⟩
  · obtain ⟨hasked, _, _, -, ⟨_, fault, -, hfault, -⟩ | ⟨x, _, honce, hfills, -⟩⟩ :=
      ((hreplays .plain ["plus"] oneRound).2 _ _ _ hplain).1 _ rfl (by simp)
    · rw [show (run .plain ["plus"] oneRound).1 = .error (.file fault) from hfault] at hround
      cases hround
    · exact ⟨hasked, hround, x, honce, hfills.first⟩

end Script

end Client

end IdeMode
