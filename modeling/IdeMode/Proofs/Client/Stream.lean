import IdeMode.Client.Process
import IdeMode.Proofs.Prog.Environment
import IdeMode.Proofs.Wire.Header
import IdeMode.Proofs.World.Parts
set_option autoImplicit false

/-!
# Reading from a process

The output of a process is a stream of bytes of which some have arrived and some are still to come.
How they are cut into pieces, when a piece arrives, and what else happens in the world meanwhile is
left open; the environment only has to go on until a reader that waits has what it waits for, or the
output has ended.

Reading takes exactly the bytes that were asked for off the front of the stream. A frame on a stream
is therefore read as exactly its own characters, and the stream goes on right after it.
-/

namespace IdeMode.Client

open Prog List

/-- Process `c` serves session `s`; `stream` is all of its output that was not yet read, and
`coming` the part of it that has not yet arrived. -/
structure Attached (s c : Nat) (w : World) (coming stream : List UInt8) : Prop where
  child_eq : (w.session s).transport.child = some c
  /-- nobody else listens to the process, and nothing comes after the end of its output -/
  process : ∃ child, w.host.child? c = some child ∧ child.listener = none ∧
    child.output ++ coming = stream ∧ (child.ended = true → coming = [])

/-- An environment lets the output of a process arrive: a reader that waits for bytes goes on once
they are there or the output has ended. The stream as a whole stays what it is. -/
def Supplies {ε : Type} (env : Environment World Await ε) (s c : Nat)
    (coming : ε → List UInt8) : Prop :=
  ∀ (n : Nat) (w : World) (e : ε) (stream : List UInt8), Attached s c w (coming e) stream →
    (∀ child, w.host.child? c = some child → child.satisfies n = false) →
    ∃ w' e', env (.output c n) none w e = (.woken, w', e') ∧ Attached s c w' (coming e') stream ∧
      ∃ child, w'.host.child? c = some child ∧ child.satisfies n = true

variable {ε : Type} {env : Environment World Await ε} {s c : Nat} {coming : ε → List UInt8}

/-! ## Bytes -/

/-- What taking `n` bytes off a stream comes to: the bytes, or that there are too few of them. -/
def taken (stream : List UInt8) (n : Nat) : Result (List UInt8) :=
  if n ≤ stream.length then .ok (stream.take n) else .error (.unavailable .died)

variable (env) in
/-- Bytes that have arrived are taken off the front of the stream; where the output has ended before
enough of them came, what is left of it is lost. -/
theorem runIn_takeOutput {w : World} {e : ε} {stream : List UInt8} {n : Nat} {child : Host.Child}
    (h : Attached s c w (coming e) stream) (hchild : w.host.child? c = some child)
    (hready : child.satisfies n = true) :
    ∃ w', runIn env (takeOutput c n) w e = ((taken stream n).map some, w', e) ∧
      Attached s c w' (coming e) (stream.drop n) := by
  obtain ⟨hserves, child', hchild', hlistener, hstream, hended⟩ := h
  obtain rfl : child = child' := Option.some.inj (hchild.symm.trans hchild')
  simp only [Host.Child.satisfies, Bool.or_eq_true, decide_eq_true_eq] at hready
  by_cases hn : n ≤ child.output.length
  · have hlen : n ≤ stream.length := by
      rw [← hstream, length_append]
      omega
    refine ⟨w.modifyChild c fun child => { child with output := child.output.drop n }, ?_, ?_⟩
    · rw [takeOutput, runIn_bind_ok env (runIn_get env w e)]
      simp only [hchild, available, if_pos hn]
      rw [runIn_bind_ok env (runIn_modify env _ w e), runIn_pure, taken, if_pos hlen, ← hstream,
        take_append_of_le_length hn]
      rfl
    · refine ⟨hserves, { child with output := child.output.drop n }, ?_, hlistener, ?_, hended⟩
      · rw [World.child?_modifyChild, hchild, Option.map_some]
      · rw [← hstream, drop_append_of_le_length hn]
  · have hend : child.ended = true := hready.resolve_left hn
    have hlen : ¬ n ≤ stream.length := by
      rw [← hstream, hended hend, append_nil]
      exact hn
    refine ⟨w.modifyChild c fun child => { child with output := [] }, ?_, ?_⟩
    · rw [takeOutput, runIn_bind_ok env (runIn_get env w e)]
      simp only [hchild, available, if_neg hn, if_pos hend]
      rw [runIn_bind_ok env (runIn_modify env _ w e), runIn_throw, taken, if_neg hlen]
      rfl
    · refine ⟨hserves, { child with output := [] }, ?_, hlistener, ?_, hended⟩
      · rw [World.child?_modifyChild, hchild, Option.map_some]
      · rw [hended hend, drop_eq_nil_of_le (Nat.le_of_not_le hlen)]
        rfl

/-- Without enough bytes, and before the end of the output, nothing is taken. -/
theorem runIn_takeOutput_early {w : World} {e : ε} {n : Nat} {child : Host.Child}
    (hchild : w.host.child? c = some child) (hn : child.satisfies n = false) :
    runIn env (takeOutput c n) w e = (.ok none, w, e) := by
  simp only [Host.Child.satisfies, Bool.or_eq_false_iff, decide_eq_false_iff_not] at hn
  rw [takeOutput, runIn_bind_ok env (runIn_get env w e)]
  simp only [hchild, available, if_neg hn.1, hn.2, Bool.false_eq_true, if_false]
  rfl

/-- Reading takes exactly the bytes that were asked for off the front of the stream, whether they
have arrived or are waited for. -/
theorem runIn_readExactly (hsupplies : Supplies env s c coming) {w : World} {e : ε}
    {stream : List UInt8} (h : Attached s c w (coming e) stream) (n : Nat) :
    ∃ w' e', runIn env (readExactly c n none) w e = (taken stream n, w', e') ∧
      Attached s c w' (coming e') (stream.drop n) := by
  obtain ⟨child, hchild, hlistener, -, -⟩ := h.process
  by_cases hready : child.satisfies n = true
  · obtain ⟨w', hrun, hattached⟩ := runIn_takeOutput env h hchild hready
    refine ⟨w', e, ?_, hattached⟩
    rw [readExactly, runIn_bind, hrun]
    cases taken stream n with
    | ok bytes => rfl
    | error fault => rfl
  · have hearly : child.satisfies n = false := Bool.eq_false_iff.mpr hready
    obtain ⟨w₁, e₁, henv, hattached₁, child₁, hchild₁, hready₁⟩ := hsupplies n w e stream h (by
      intro child' hchild'
      rw [Option.some.inj (hchild'.symm.trans hchild)]
      exact hearly)
    obtain ⟨w', hrun, hattached⟩ := runIn_takeOutput env hattached₁ hchild₁ hready₁
    refine ⟨w', e₁, ?_, hattached⟩
    have hfree : ((w.host.child? c).bind Host.Child.listener).isSome = false := by
      rw [hchild, Option.bind_some, hlistener]
      rfl
    rw [readExactly, runIn_bind_ok env (runIn_takeOutput_early hchild hearly)]
    rw [runIn_bind_ok env (runIn_get env w e)]
    simp only [hfree, Bool.false_eq_true, if_false]
    rw [runIn_bind_ok env (runIn_await env _ _ w e), henv]
    rw [runIn_bind, hrun]
    cases taken stream n with
    | ok bytes => rfl
    | error fault => rfl

/-! ## Characters -/

theorem runIn_process {w : World} {e : ε} {stream : List UInt8}
    (h : Attached s c w (coming e) stream) : runIn env (process s) w e = (.ok c, w, e) := by
  have hsession : runIn env (session s) w e = (.ok (w.session s), w, e) := rfl
  rw [process, runIn_bind_ok env hsession, h.child_eq]
  rfl

section Rounds

variable {w w₁ : World} {e e₁ : ε} {stream : List UInt8} {bound : Nat} {missing : Int}
  {pending : Option Text.Utf8.Sequence} {read : List Char}

/-- A round that reads the bytes that it asks for hands on what they complete. -/
theorem runIn_readText_ok (h : Attached s c w (coming e) stream) (hmissing : 0 < missing)
    {bytes : List UInt8} (hread : runIn env (readExactly c missing.toNat none) w e =
      (.ok bytes, w₁, e₁)) : runIn env (readText s none (bound + 1) missing pending read) w e =
      runIn env (readText s none bound (missing - (Text.Utf8.feed pending bytes).1.length)
        (Text.Utf8.feed pending bytes).2 (read ++ (Text.Utf8.feed pending bytes).1)) w₁ e₁ := by
  rw [readText, if_neg (Int.not_le.2 hmissing), runIn_bind_ok env (runIn_process h),
    runIn_bind_ok env hread]

theorem runIn_readText_error (h : Attached s c w (coming e) stream) (hmissing : 0 < missing)
    {fault : Fault} (hread : runIn env (readExactly c missing.toNat none) w e =
      (.error fault, w₁, e₁)) :
    runIn env (readText s none (bound + 1) missing pending read) w e = (.error fault, w₁, e₁) := by
  rw [readText, if_neg (Int.not_le.2 hmissing), runIn_bind_ok env (runIn_process h),
    runIn_bind_error env hread]

end Rounds

/-- Text is read to its last character and no further. `bytes` are those that the missing characters
are still owed, from the sequence that is open; every round asks for at most as many bytes as there
are, and takes one at least, so their number bounds the rounds. -/
theorem runIn_readText (hsupplies : Supplies env s c coming) {w : World} {e : ε}
    {bytes rest : List UInt8} {cs read : List Char}
    {pending : Option Text.Utf8.Sequence} {bound : Nat}
    (h : Attached s c w (coming e) (bytes ++ rest))
    (hdecode : Text.Utf8.decodeFrom? pending bytes = some cs) (hbound : bytes.length < bound) :
    ∃ w' e', runIn env (readText s none bound (Int.ofNat cs.length) pending read) w e =
      (.ok (read ++ cs), w', e') ∧ Attached s c w' (coming e') rest := by
  induction bound generalizing w e bytes cs read pending with
  | zero => exact absurd hbound (Nat.not_lt_zero _)
  | succ bound ih =>
    by_cases hcs : cs.length = 0
    · obtain rfl : cs = [] := length_eq_zero_iff.mp hcs
      obtain rfl := Text.Utf8.eq_nil_of_decodeFrom?_nil hdecode
      refine ⟨w, e, ?_, h⟩
      rw [readText]
      simp
    · have hle := Text.Utf8.length_le_of_decodeFrom? hdecode
      obtain ⟨w₁, e₁, hread, hattached⟩ := runIn_readExactly hsupplies h cs.length
      rw [taken, if_pos (by rw [length_append]; omega), take_append_of_le_length hle] at hread
      rw [drop_append_of_le_length hle] at hattached
      obtain ⟨ds, hds, hdecode', hmissing⟩ := Text.Utf8.exists_missing hdecode cs.length
      have hpositive : 0 < Int.ofNat cs.length := Int.natCast_pos.2 (Nat.pos_of_ne_zero hcs)
      rw [runIn_readText_ok h hpositive hread]
      generalize Text.Utf8.feed pending (bytes.take cs.length) = fed at hds hdecode' hmissing ⊢
      rw [hmissing, hds, ← append_assoc]
      exact ih hattached hdecode' (by rw [length_drop]; omega)

/-! ## Frames -/

/-- The greatest number of characters that a header can announce. -/
def frameLimit : Nat := 0xffffff

/-- The text of a frame: its payload and the newline that ends it. -/
def frameText (payload : String) : List Char := payload.toList ++ ['\n']

theorem frameBytes_eq (payload : String) :
    Wire.frameBytes payload =
      Text.Utf8.encode (Text.hexPadded Wire.headerSize (payload.length + 1)) ++
        Text.Utf8.encode (frameText payload) := by
  rw [Wire.frameBytes, Wire.frame, append_assoc, Text.Utf8.encode_append, frameText]

/-- Reading the text of a frame begins with its header. -/
theorem runIn_receiveText {w : World} {e : ε} {coming' stream : List UInt8}
    (h : Attached s c w coming' stream) : runIn env (receiveText s none) w e =
      runIn env (readExactly c Wire.headerSize none >>= fun header =>
        match Wire.parseHeader header with
        | .error fault => throw (.malformed (.header fault))
        | .ok count => readText s none (4 * count.toNat + 1) count none []) w e := by
  have hsession : runIn env (session s) w e = (.ok (w.session s), w, e) := rfl
  rewrite [receiveText, runIn_bind_ok env hsession, h.child_eq]
  rfl

/-- A frame at the front of the stream is read as exactly its own text, and the stream goes on right
after it. -/
theorem runIn_receiveText_frame (hsupplies : Supplies env s c coming) {w : World} {e : ε}
    {rest : List UInt8} {payload : String} (hlength : payload.length + 1 ≤ frameLimit)
    (h : Attached s c w (coming e) (Wire.frameBytes payload ++ rest)) :
    ∃ w' e', runIn env (receiveText s none) w e = (.ok (frameText payload), w', e') ∧
      Attached s c w' (coming e') rest := by
  have hheader := Wire.parseHeader_hexPadded (n := payload.length + 1) (Nat.lt_succ_of_le hlength)
  rw [frameBytes_eq, append_assoc] at h
  generalize Text.Utf8.encode (Text.hexPadded Wire.headerSize (payload.length + 1)) =
    header at h hheader
  obtain ⟨hsize, hparse⟩ := hheader
  obtain ⟨w₁, e₁, hread, hattached₁⟩ := runIn_readExactly hsupplies h Wire.headerSize
  have htaken : taken (header ++ (Text.Utf8.encode (frameText payload) ++ rest))
      Wire.headerSize = .ok header := by
    rw [taken, if_pos (by rw [length_append, hsize]; omega), take_left' hsize]
  rw [drop_left' hsize] at hattached₁
  have hchars : (frameText payload).length = payload.length + 1 := by
    rw [frameText, length_append, length_singleton, String.length_toList]
  obtain ⟨w', e', htext, hattached⟩ : ∃ w' e',
      runIn env (readText s none (4 * (Int.ofNat (payload.length + 1)).toNat + 1)
        (Int.ofNat (frameText payload).length) none []) w₁ e₁ =
          (.ok ([] ++ frameText payload), w', e') ∧ Attached s c w' (coming e') rest :=
    runIn_readText hsupplies hattached₁ (Text.Utf8.decodeFrom?_encode _) (by
      have hbytes := Text.Utf8.length_encode_le (frameText payload)
      simp only [Int.ofNat_eq_natCast, Int.toNat_natCast]
      omega)
  refine ⟨w', e', ?_, hattached⟩
  rw [hchars, nil_append] at htext
  rw [runIn_receiveText h, runIn_bind_ok env (hread.trans (by rw [htaken])), hparse]
  exact htext

/-- At the end of the stream there is no text any more. -/
theorem runIn_receiveText_end (hsupplies : Supplies env s c coming) {w : World} {e : ε}
    (h : Attached s c w (coming e) []) :
    ∃ w' e', runIn env (receiveText s none) w e = (.error (.unavailable .died), w', e') ∧
      Attached s c w' (coming e') [] := by
  obtain ⟨w', e', hread, hattached⟩ := runIn_readExactly hsupplies h Wire.headerSize
  refine ⟨w', e', ?_, hattached⟩
  rw [runIn_receiveText h, runIn_bind_error env hread]

end IdeMode.Client
