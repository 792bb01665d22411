import IdeMode.Client.Calls
import IdeMode.Proofs.Client.Stream
import IdeMode.Proofs.Sexp.RoundTrip
set_option autoImplicit false

/-!
# The reader

One round of the loop that reads takes one frame off the stream. A text that is no message is
skipped, a message is taken in, and neither shifts the frames that come after it. So the loop sees
the frames of a stream one by one, up to the end of the output, which fails every pending call.

There is one kind of message that the loop does not survive: a warning whose file name is no name of
the system.
-/

namespace IdeMode

open List

/-! ## Notices -/

/-- The message can be taken note of: a warning is about a file that can have its name. -/
def Message.Notable (m : Message) : Prop :=
  ∀ id payload warning, m = .notice "warning" id payload → Warning.ofValue payload = .ok warning →
    Path.isName warning.file = true

/-- A notice is kept in the session, whose process stays the same. -/
theorem Session.notice_of_notable {m : Message} (hm : m.Notable) (session : Session) (cwd : Path) :
    ∃ noted, session.notice cwd m = .ok noted ∧ noted.transport = session.transport := by
  unfold Session.notice
  split
  · next id payload =>
    split
    · next warning hwarning =>
      rw [Session.addWarning, if_pos (hm id payload warning rfl hwarning)]
      exact ⟨_, rfl, rfl⟩
    · exact ⟨session, rfl, rfl⟩
  · next id payload =>
      exact ⟨session.addOutput payload.text, rfl, by dsimp only [Session.addOutput]⟩
  · next id payload => exact ⟨{ session with prompt := some payload.text }, rfl, rfl⟩
  · exact ⟨session, rfl, rfl⟩

/-- A warning about a file that cannot have its name is refused. -/
theorem Session.notice_of_not_notable {m : Message} (hm : ¬ m.Notable) (session : Session)
    (cwd : Path) : session.notice cwd m = .error .badValue := by
  simp only [Message.Notable, Classical.not_forall] at hm
  obtain ⟨id, payload, warning, rfl, hwarning, hname⟩ := hm
  rw [Session.notice, hwarning]
  dsimp only
  rw [Session.addWarning, if_neg hname]

theorem Message.notable_reply (id : Option Int) (ok : Bool) (payload : List Value) :
    (Message.reply id ok payload).Notable := by
  intro id' payload' warning h
  cases h

namespace Client

open Prog

variable {ε : Type} {env : Environment World Await ε} {s c : Nat} {coming : ε → List UInt8}

/-! ## Taking messages in -/

variable {m : Message} {w : World} {e : ε} {rest : List UInt8}

/-- Whatever is taken in is a reply or is taken note of. -/
theorem takeIn_eq_takeNote (hm : ∀ id ok payload, m ≠ .reply id ok payload) :
    takeIn s m = takeNote s m := by
  cases m with
  | reply id ok payload => exact absurd rfl (hm id ok payload)
  | banner version => rfl
  | output id ok payload => rfl
  | notice kind id payload => rfl

theorem runIn_takeNote (hm : m.Notable) (w : World) (e : ε) :
    ∃ w', runIn env (takeNote s m) w e = (.ok (), w', e) ∧ w'.host = w.host ∧
      ∀ t, (w'.session t).transport = (w.session t).transport := by
  obtain ⟨noted, hnoted, htransport⟩ := Session.notice_of_notable hm (w.session s) w.host.cwd
  have hkept := World.session_modifySession_feature Session.transport (s := s) (w := w)
    (f := fun _ => noted) htransport
  have hrun : runIn env (takeNote s m) w e =
      runIn env (if (w.session s).observed then modify fun w => w.report (.observed m) else pure ())
        (w.modifySession s fun _ => noted) e := by
    rw [takeNote, session, runIn_bind, runIn_bind]
    dsimp only [runIn_get, runIn_pure]
    rw [runIn_bind_ok env (runIn_get env w e), hnoted]
    rfl
  cases hobserved : (w.session s).observed with
  | false =>
    refine ⟨w.modifySession s fun _ => noted, ?_, rfl, hkept⟩
    rw [hrun, hobserved]
    rfl
  | true =>
    refine ⟨(w.modifySession s fun _ => noted).report (.observed m), ?_, rfl, hkept⟩
    rw [hrun, hobserved]
    rfl

/-- Taking a message in leaves the host and the processes of the sessions alone. -/
theorem runIn_takeIn (hm : m.Notable) (w : World) (e : ε) :
    ∃ w', runIn env (takeIn s m) w e = (.ok (), w', e) ∧ w'.host = w.host ∧
      ∀ t, (w'.session t).transport = (w.session t).transport := by
  cases m with
  | reply id ok payload =>
    refine ⟨w.settleReply s id ok payload, rfl, ?_, fun t => ?_⟩
    · exact (World.deliverAll_keeps _ s _).1
    · exact ((World.deliverAll_keeps _ s _).2 t).trans (World.transport_modifyDispatch ..)
  | banner version => exact runIn_takeNote hm w e
  | output id ok payload => exact runIn_takeNote hm w e
  | notice kind id payload => exact runIn_takeNote hm w e

/-- A message that cannot be taken note of changes nothing and is an error. -/
theorem runIn_takeIn_of_not_notable (hm : ¬ m.Notable) (w : World) (e : ε) :
    runIn env (takeIn s m) w e = (.error .badValue, w, e) := by
  rw [takeIn_eq_takeNote (by
    rintro id ok payload rfl
    exact hm (Message.notable_reply id ok payload))]
  rw [takeNote, session, runIn_bind, runIn_bind]
  dsimp only [runIn_get, runIn_pure]
  rw [runIn_bind_ok env (runIn_get env w e), Session.notice_of_not_notable hm]
  rfl

/-! ## Rounds -/

/-- What a round comes to once a message was read or not. -/
def concludeRound (s : Nat) : Result Message → Action Round
  | .ok m => do
    takeIn s m
    return .again
  | .error (.unavailable outage) => do
    modify fun w => w.settlePending s outage
    return .over
  | .error fault => do
    if fault.isReported then return .again
    modify fun w => w.settlePending s .lostSync
    stop s
    return .over

theorem readRound_eq (s : Nat) :
    readRound s = (receiveMessage s none).attempt >>= concludeRound s := by
  rw [readRound]
  congr 1

/-- A round goes on from the text that it reads. -/
theorem runIn_readRound {w₁ : World} {e₁ : ε} {r : Result (List Char)}
    (h : runIn env (receiveText s none) w e = (r, w₁, e₁)) :
    runIn env (readRound s) w e = runIn env (concludeRound s (r.bind understand)) w₁ e₁ := by
  have hmessage : runIn env (receiveMessage s none) w e = (r.bind understand, w₁, e₁) := by
    rw [receiveMessage, runIn_bind, h]
    cases r <;> rfl
  rw [readRound_eq, runIn_bind_ok env (runIn_attempt env _ w e), hmessage]

/-- A round reads a text and the loop goes on: the message of the text is taken in, and a text that
is no message changes nothing. -/
structure RoundReads (env : Environment World Await ε) (s : Nat) (text : List Char) (w : World)
    (e : ε) (w' : World) (e' : ε) : Prop where
  goesOn : runIn env (readRound s) w e = (.ok .again, w', e')
  reads : ∃ w₁ e₁, runIn env (receiveText s none) w e = (.ok text, w₁, e₁) ∧
    match Message.ofText text with
    | .ok m => runIn env (takeIn s m) w₁ e₁ = (.ok (), w', e')
    | .error _ => w' = w₁ ∧ e' = e₁

/-- Round after round reads these texts. -/
inductive RoundsRead (env : Environment World Await ε) (s : Nat) :
    List (List Char) → World → ε → World → ε → Prop
  | nil (w : World) (e : ε) : RoundsRead env s [] w e w e
  | cons {text : List Char} {texts : List (List Char)} {w w₁ w' : World} {e e₁ e' : ε}
    (first : RoundReads env s text w e w₁ e₁) (later : RoundsRead env s texts w₁ e₁ w' e') :
    RoundsRead env s (text :: texts) w e w' e'

/-- The message that a text writes, if it writes one, can be taken note of. -/
def Digestible (text : List Char) : Prop := ∀ m, Message.ofText text = .ok m → m.Notable

/-- A value that is no message is not a fault of the notation. -/
theorem ofValue_ne_sexp (v : Value) (fault : Sexp.Fault) :
    Message.ofValue v ≠ .error (.sexp fault) := by
  unfold Message.ofValue
  split
  · dsimp only
    split
    · nofun
    · split
      · split
        · split <;> nofun
        · split
          · split <;> nofun
          · nofun
      · nofun
  · nofun

/-- The lists of a text nest no deeper than reading has room for, and what is read no deeper than
writing has. -/
def Shallow (text : List Char) : Prop :=
  Sexp.decode text ≠ .error .tooDeep ∧
    ∀ v, Sexp.decode text = .ok v → Sexp.depth v ≤ Value.writeRoom

theorem shallow_of_decode {text : List Char} {v : Value} (h : Sexp.decode text = .ok v)
    (hdepth : Sexp.depth v ≤ Value.writeRoom) : Shallow text := by
  rw [Shallow, h]
  refine ⟨nofun, fun w hw => ?_⟩
  cases hw
  exact hdepth

/-- Everything that is no message is skipped, but for integers that are too long and lists that nest
too deeply. -/
theorem isReported_of_ofText {text : List Char} {fault : Malformed}
    (hsmall : Sexp.decode text ≠ .error .hugeInteger)
    (hshallow : Shallow text) (h : Message.ofText text = .error fault) :
    (Fault.malformed fault).isReported = true := by
  unfold Message.ofText at h
  cases hdecode : Sexp.decode text with
  | ok v =>
    rw [hdecode] at h
    cases fault with
    | sexp e => exact absurd h (ofValue_ne_sexp v e)
    | _ => rfl
  | error e =>
    rw [hdecode] at h
    cases h
    cases e with
    | hugeInteger => exact absurd hdecode hsmall
    | tooDeep => exact absurd hdecode hshallow.1
    | _ => rfl

/-- A frame at the front of the stream is seen as exactly its own text, in one round. -/
theorem roundReads_frame (hsupplies : Supplies env s c coming) {payload : String}
    (hlength : payload.length + 1 ≤ frameLimit)
    (hsmall : Sexp.decode (frameText payload) ≠ .error .hugeInteger)
    (hshallow : Shallow (frameText payload)) (hdigestible : Digestible (frameText payload))
    (h : Attached s c w (coming e) (Wire.frameBytes payload ++ rest)) :
    ∃ w' e', RoundReads env s (frameText payload) w e w' e' ∧ Attached s c w' (coming e') rest := by
  obtain ⟨w₁, e₁, hread, hattached⟩ := runIn_receiveText_frame hsupplies hlength h
  have hround := runIn_readRound hread
  cases hm : Message.ofText (frameText payload) with
  | ok m =>
    obtain ⟨w', htaken, hhost, htransport⟩ := runIn_takeIn (hdigestible m hm) w₁ e₁
    refine ⟨w', e₁, ⟨?_, w₁, e₁, hread, ?_⟩, ?_⟩
    · rw [hround, Except.bind, understand, hm]
      exact runIn_bind_ok env htaken
    · rw [hm]
      exact htaken
    · exact ⟨(congrArg Transport.child (htransport s)).trans hattached.child_eq,
        hhost ▸ hattached.process⟩
  | error fault =>
    refine ⟨w₁, e₁, ⟨?_, w₁, e₁, hread, ?_⟩, hattached⟩
    · rw [hround, Except.bind, understand, hm]
      show runIn env (if (Fault.malformed fault).isReported then pure Round.again else _) w₁ e₁ = _
      rw [if_pos (isReported_of_ofText hsmall hshallow hm)]
      rfl
    · rw [hm]
      exact ⟨rfl, rfl⟩

/-- Frames at the front of the stream are seen one by one. -/
theorem roundsRead_frames (hsupplies : Supplies env s c coming) {payloads : List String}
    (hlength : ∀ p ∈ payloads, p.length + 1 ≤ frameLimit)
    (hsmall : ∀ p ∈ payloads, Sexp.decode (frameText p) ≠ .error .hugeInteger)
    (hshallow : ∀ p ∈ payloads, Shallow (frameText p))
    (hdigestible : ∀ p ∈ payloads, Digestible (frameText p))
    (h : Attached s c w (coming e) (payloads.flatMap Wire.frameBytes ++ rest)) :
    ∃ w' e', RoundsRead env s (payloads.map frameText) w e w' e' ∧
      Attached s c w' (coming e') rest := by
  induction payloads generalizing w e with
  | nil => exact ⟨w, e, .nil w e, h⟩
  | cons p payloads ih =>
    rw [flatMap_cons, append_assoc] at h
    obtain ⟨w₁, e₁, hfirst, hattached⟩ := roundReads_frame hsupplies (hlength p mem_cons_self)
      (hsmall p mem_cons_self) (hshallow p mem_cons_self) (hdigestible p mem_cons_self) h
    obtain ⟨w', e', hlater, hattached'⟩ := ih (fun q hq => hlength q (mem_cons_of_mem p hq))
      (fun q hq => hsmall q (mem_cons_of_mem p hq)) (fun q hq => hshallow q (mem_cons_of_mem p hq))
      (fun q hq => hdigestible q (mem_cons_of_mem p hq)) hattached
    exact ⟨w', e', .cons hfirst hlater, hattached'⟩

/-- At the end of the output the loop is over, and every pending call has failed. -/
theorem runIn_readRound_end (hsupplies : Supplies env s c coming)
    (h : Attached s c w (coming e) []) :
    ∃ w' e', runIn env (receiveText s none) w e = (.error (.unavailable .died), w', e') ∧
      runIn env (readRound s) w e = (.ok .over, w'.settlePending s .died, e') := by
  obtain ⟨w', e', hread, -⟩ := runIn_receiveText_end hsupplies h
  exact ⟨w', e', hread, runIn_readRound hread⟩

/-- A message that cannot be taken note of ends the loop at once: no call is told, and what comes
after it is never read. -/
theorem runIn_readRound_indigestible (hsupplies : Supplies env s c coming) {payload : String}
    (hlength : payload.length + 1 ≤ frameLimit) (hbad : ¬ Digestible (frameText payload))
    (h : Attached s c w (coming e) (Wire.frameBytes payload ++ rest)) :
    ∃ w' e', runIn env (receiveText s none) w e = (.ok (frameText payload), w', e') ∧
      runIn env (readRound s) w e = (.error .badValue, w', e') ∧
        Attached s c w' (coming e') rest := by
  obtain ⟨w', e', hread, hattached⟩ := runIn_receiveText_frame hsupplies hlength h
  simp only [Digestible, Classical.not_forall] at hbad
  obtain ⟨m, hm, hnotable⟩ := hbad
  refine ⟨w', e', hread, ?_, hattached⟩
  rw [runIn_readRound hread, Except.bind, understand, hm]
  exact runIn_bind_error env (runIn_takeIn_of_not_notable hnotable w' e')

/-- The frames of a stream that ends are seen as exactly their texts, one by one and in order, if no
integer is too long and no lists nest too deeply. Each text that is a message is taken in as that
message and each other one is skipped, every byte is used, and the end of the output then ends the
loop and fails the pending calls.

This breaks off at the first message that cannot be taken note of: the loop ends there with an
error, without telling any call, and the frames that come after it stay unread. -/
theorem reader_follows_frames (hsupplies : Supplies env s c coming) {w : World} {e : ε}
    {payloads : List String} (hlength : ∀ p ∈ payloads, p.length + 1 ≤ frameLimit)
    (hsmall : ∀ p ∈ payloads, Sexp.decode (frameText p) ≠ .error .hugeInteger)
    (hshallow : ∀ p ∈ payloads, Shallow (frameText p))
    (h : Attached s c w (coming e) (payloads.flatMap Wire.frameBytes)) :
    ((∀ p ∈ payloads, Digestible (frameText p)) →
      ∃ w₁ e₁, RoundsRead env s (payloads.map frameText) w e w₁ e₁ ∧
        Attached s c w₁ (coming e₁) [] ∧
          ∃ w₂ e₂, runIn env (receiveText s none) w₁ e₁ = (.error (.unavailable .died), w₂, e₂) ∧
          runIn env (readRound s) w₁ e₁ = (.ok .over, w₂.settlePending s .died, e₂)) ∧
    ∀ seen p unseen, payloads = seen ++ p :: unseen → (∀ q ∈ seen, Digestible (frameText q)) →
      ¬ Digestible (frameText p) →
      ∃ w₁ e₁, RoundsRead env s (seen.map frameText) w e w₁ e₁ ∧
        ∃ w₂ e₂, runIn env (receiveText s none) w₁ e₁ = (.ok (frameText p), w₂, e₂) ∧
          runIn env (readRound s) w₁ e₁ = (.error .badValue, w₂, e₂) ∧
          Attached s c w₂ (coming e₂) (unseen.flatMap Wire.frameBytes) := by
  refine ⟨?_, ?_⟩
  · intro hdigestible
    obtain ⟨w₁, e₁, hrounds, hattached⟩ :=
      roundsRead_frames hsupplies hlength hsmall hshallow hdigestible (by rw [append_nil]; exact h)
    exact ⟨w₁, e₁, hrounds, hattached, runIn_readRound_end hsupplies hattached⟩
  · rintro seen p unseen rfl hdigestible hbad
    rw [flatMap_append, flatMap_cons] at h
    obtain ⟨w₁, e₁, hrounds, hattached⟩ := roundsRead_frames hsupplies
      (fun q hq => hlength q (mem_append_left _ hq)) (fun q hq => hsmall q (mem_append_left _ hq))
      (fun q hq => hshallow q (mem_append_left _ hq)) hdigestible h
    exact ⟨w₁, e₁, hrounds, runIn_readRound_indigestible hsupplies
      (hlength p (mem_append_right _ mem_cons_self)) hbad hattached⟩

/-! ## A stream with a message that cannot be noted -/

/-- All that is still to come arrives as soon as a reader waits, and the output ends with it. -/
def allAtOnce (c : Nat) : Environment World Await (List UInt8) := fun _ _ w rest =>
  (.woken, w.modifyChild c fun child =>
    { child with output := child.output ++ rest, ended := true }, [])

theorem supplies_allAtOnce (s c : Nat) : Supplies (allAtOnce c) s c id := by
  intro n w rest stream h hearly
  obtain ⟨hserves, child, hchild, hlistener, hstream, -⟩ := h
  have hafter : (w.modifyChild c fun child =>
      { child with output := child.output ++ rest, ended := true }).host.child? c =
        some { child with output := child.output ++ rest, ended := true } := by
    rw [World.child?_modifyChild, hchild, Option.map_some]
  refine ⟨_, [], rfl, ⟨hserves, _, hafter, hlistener, ?_, fun _ => rfl⟩, _, hafter, Bool.or_true _⟩
  rw [id, append_nil]
  exact hstream

/-- A warning about a file whose name is a single null character. -/
def unnamedWarning : Value :=
  .list [.sym ":warning", .list [.str "\x00", .list [.int 1, .int 1], .list [.int 1, .int 2],
    .str "é"], .int 7]

theorem wellFormed_unnamedWarning : Sexp.WellFormed unnamedWarning := by
  have hhead : ":warning".toList = [':', 'w', 'a', 'r', 'n', 'i', 'n', 'g'] := by decide
  refine .list _ ?_
  simp only [forall_mem_cons]
  refine ⟨.sym _ ?_ ?_, .list _ ?_, .int _ (by decide), by nofun⟩
  · rw [hhead]
    decide
  · rw [hhead, ← Sexp.integerDigits?_eq_none_iff]
    decide
  · simp only [forall_mem_cons]
    refine ⟨.str _, .list _ ?_, .list _ ?_, .str _, by nofun⟩
    all_goals
      simp only [forall_mem_cons]
      exact ⟨.int _ (by decide), .int _ (by decide), by nofun⟩

theorem decode_unnamedWarning :
    Sexp.decode (frameText (String.ofList unnamedWarning.print)) = .ok unnamedWarning := by
  rw [frameText, String.toList_ofList]
  exact Sexp.decode_print wellFormed_unnamedWarning (by decide) (forall_mem_singleton.2 (by decide))

theorem not_digestible_unnamedWarning :
    ¬ Digestible (frameText (String.ofList unnamedWarning.print)) := by
  intro h
  have hname := h (.notice "warning" (some 7)
    (.list [.str "\x00", .list [.int 1, .int 1], .list [.int 1, .int 2], .str "é"]))
    (by rw [Message.ofText, decode_unnamedWarning]; rfl) (some 7) _
    ⟨"\x00", (.int 1, .int 1), (.int 1, .int 2), .str "é"⟩ rfl rfl
  exact absurd hname (by decide)

/-- A world with one session, whose process has sent nothing yet. -/
def silentWorld : World :=
  { host := { cwd := ⟨[]⟩, children := [{ pid := 1, behaviour := {} }] }
    sessions := [{ transport := { child := some 0 } }] }

/-- A text that is no message is skipped, the warning is read and ends the loop, and the frame
behind it is left. -/
theorem reader_follows_frames_unnamedWarning :
    let frames := ["(é", String.ofList unnamedWarning.print, "(é"].flatMap Wire.frameBytes
    ∃ w₁ e₁, RoundsRead (allAtOnce 0) 0 (["(é"].map frameText) silentWorld frames w₁ e₁ ∧
      ∃ w₂ e₂, runIn (allAtOnce 0) (receiveText 0 none) w₁ e₁ =
          (.ok (frameText (String.ofList unnamedWarning.print)), w₂, e₂) ∧
        runIn (allAtOnce 0) (readRound 0) w₁ e₁ = (.error .badValue, w₂, e₂) ∧
        Attached 0 0 w₂ (id e₂) (["(é"].flatMap Wire.frameBytes) := by
  have hskipped : Sexp.decode (frameText "(é") = .error .unbalanced := rfl
  have hattached : Attached 0 0 silentWorld
      (id (["(é", String.ofList unnamedWarning.print, "(é"].flatMap Wire.frameBytes))
      (["(é", String.ofList unnamedWarning.print, "(é"].flatMap Wire.frameBytes) :=
    ⟨rfl, { pid := 1, behaviour := {} }, rfl, rfl, rfl, by nofun⟩
  refine (reader_follows_frames (supplies_allAtOnce 0 0) (by decide) ?_ ?_ hattached).2 ["(é"]
    _ ["(é"] rfl ?_ not_digestible_unnamedWarning
  · simp only [forall_mem_cons, hskipped, decode_unnamedWarning]
    exact ⟨by nofun, by nofun, by nofun, by nofun⟩
  · have hshallow : Shallow (frameText "(é") := by
      constructor
      · rw [hskipped]
        nofun
      · intro v hv
        rw [hskipped] at hv
        cases hv
    simp only [forall_mem_cons]
    exact ⟨hshallow, shallow_of_decode decode_unnamedWarning (by decide), hshallow, by nofun⟩
  · simp only [forall_mem_cons, Digestible, Message.ofText, hskipped]
    exact ⟨by nofun, by nofun⟩

end Client

end IdeMode
