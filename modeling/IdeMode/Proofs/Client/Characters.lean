import IdeMode.Proofs.Client.Reader
import IdeMode.Proofs.Text.Replacing
import Mathlib.Logic.Relation
set_option autoImplicit false

/-!
# Reading a number of characters

The characters of a text are read in chunks, each of as many bytes as characters are missing. On
bytes that are not UTF-8 this can be one byte too many. If a chunk leaves a sequence open, the next
chunk asks for a byte for the character of that sequence; where the sequence turns out broken, that
character has no further byte, and if then every byte of the chunk begins a character, the last one
begins the character after the text.
-/

namespace IdeMode.Client

open Prog Text.Utf8 List

/-! ## Chunks -/

/-- The next chunk of a stream for a text of `count` characters, from the bytes read before it to
those read after it: as many bytes as characters are missing. -/
structure Asks (count : Nat) (stream before after : List UInt8) : Prop where
  missing : (feed none before).1.length < count
  inStream : after <+: stream
  chunk : ∃ chunk, after = before ++ chunk ∧ (feed none before).1.length + chunk.length = count

/-- The bytes are what chunk after chunk takes off a stream. -/
abbrev AsksFor (count : Nat) (stream bytes : List UInt8) : Prop :=
  Relation.ReflTransGen (Asks count stream) [] bytes

/-- A chunk reaches past the text: a sequence is open before it, and every one of its bytes begins a
character. -/
def Overshoots (count : Nat) (stream : List UInt8) : Prop :=
  ∃ before chunk, AsksFor count stream before ∧ Asks count stream before (before ++ chunk) ∧
    (feed none before).2.isSome = true ∧ begun (feed none before).2 chunk = chunk.length

variable {count : Nat} {stream before after : List UInt8}

/-- Only one chunk can come next. -/
theorem rightUnique_asks (count : Nat) (stream : List UInt8) :
    Relator.RightUnique (Asks count stream) := by
  intro before first second hfirst hsecond
  obtain ⟨chunk, rfl, hlength⟩ := hfirst.chunk
  obtain ⟨chunk', rfl, hlength'⟩ := hsecond.chunk
  refine (prefix_of_prefix_length_le hfirst.inStream hsecond.inStream ?_).eq_of_length ?_
  · rw [length_append, length_append]
    omega
  · rw [length_append, length_append]
    omega

/-- The chunks of a stream come to one end. -/
theorem AsksFor.eq_of_full {first second : List UInt8} (hfirst : AsksFor count stream first)
    (hsecond : AsksFor count stream second) (hfull : count ≤ (feed none first).1.length)
    (hfull' : count ≤ (feed none second).1.length) : first = second := by
  have hstuck : ∀ {bytes : List UInt8}, count ≤ (feed none bytes).1.length →
      ∀ next, ¬ Asks count stream bytes next :=
    fun hfull _ hnext => absurd hnext.missing (Nat.not_lt.2 hfull)
  rcases Relation.ReflTransGen.total_of_right_unique (rightUnique_asks count stream) hfirst
    hsecond with h | h
  · exact ((Relation.reflTransGen_iff_eq (hstuck hfull)).1 h).symm
  · exact (Relation.reflTransGen_iff_eq (hstuck hfull')).1 h

/-- In the bytes up to the end of a chunk no more characters begin than are asked for, and one if a
sequence was open before the chunk and all of its bytes begin characters. -/
theorem begun_le_of_chunk {chunk : List UInt8}
    (hlength : (feed none before).1.length + chunk.length = count) :
    begun none (before ++ chunk) ≤ count + 1 ∧
      (begun none (before ++ chunk) = count + 1 ↔
        (feed none before).2.isSome = true ∧ begun (feed none before).2 chunk = chunk.length) := by
  have hbefore := length_feed_none before
  have hchunk := begun_le_length (feed none before).2 chunk
  have hopen := length_unfinished_le (feed none before).2
  have hsome : (feed none before).2.isSome = true ↔
      (unfinished (feed none before).2).length = 1 := by
    unfold unfinished
    split <;> simp_all
  rw [begun_append, hsome]
  omega

variable {rest : List UInt8}

/-- A chunk that does not reach past the text and completes it ends with its last character. -/
theorem read_exactly (hfull : count ≤ (feed none before).1.length)
    (hbegun : begun none before = count) : (feed none before).1.length = count ∧
      (feed none before).1 = (decodeReplacing (before ++ rest)).take count ∧
      before = firstBytes count (before ++ rest) := by
  have hfeed := length_feed_none before
  have hclosed : unfinished (feed none before).2 = [] := length_eq_zero_iff.1 (by omega)
  have hbegins : ∀ b, rest.head? = some b → begins (feed none before).2 b = true := by
    intro b _
    cases hpending : (feed none before).2 with
    | none => rfl
    | some s =>
      rw [hpending] at hclosed
      cases hclosed
  have hlength : (feed none before).1.length = count := by
    rw [hclosed, length_nil] at hfeed
    omega
  refine ⟨hlength, ?_, (firstBytes_append hbegun hbegins).symm⟩
  rw [take_decodeReplacing hbegun hbegins, decodeReplacing, hclosed, append_nil]

/-- A chunk that reaches past the text ends with the first byte of the character after it. -/
theorem read_past {chunk : List UInt8} (hchunk : chunk ≠ [])
    (hfresh : begun (feed none before).2 chunk = chunk.length)
    (hbegun : begun none (before ++ chunk) = count + 1) :
    ∃ b, before ++ chunk = firstBytes count (before ++ chunk ++ rest) ++ [b] ∧
      (feed none (before ++ chunk)).1 = (decodeReplacing (before ++ chunk ++ rest)).take count ++
        (pushLead b).1 := by
  obtain ⟨inner, b, rfl⟩ : ∃ inner b, chunk = inner ++ [b] :=
    ⟨_, _, (dropLast_concat_getLast hchunk).symm⟩
  have hinner := begun_le_length (feed none before).2 inner
  have hlast : begun (feed (feed none before).2 inner).2 [b] =
      if begins (feed (feed none before).2 inner).2 b then 1 else 0 := Nat.add_zero _
  rw [begun_append, hlast, length_append, length_singleton] at hfresh
  rw [← append_assoc, begun_append] at hbegun
  have hopen : (feed (feed none before).2 inner).2 = (feed none (before ++ inner)).2 := by
    rw [feed_append]
  rw [hopen] at hfresh hlast
  have hbegins : begins (feed none (before ++ inner)).2 b = true := by
    by_contra h
    rw [if_neg h] at hfresh
    omega
  have hcount : begun none (before ++ inner) = count := by
    rw [hlast, if_pos hbegins] at hbegun
    omega
  have hhead : ∀ b', (b :: rest).head? = some b' →
      begins (feed none (before ++ inner)).2 b' = true := by
    rintro _ ⟨⟩
    exact hbegins
  have hstream : before ++ (inner ++ [b]) ++ rest = (before ++ inner) ++ b :: rest := by simp
  refine ⟨b, ?_, ?_⟩
  · rw [hstream, firstBytes_append hcount hhead, append_assoc]
  · rw [hstream, take_decodeReplacing hcount hhead, ← append_assoc,
      feed_append none (before ++ inner)]
    simp only [feed, push_of_begins hbegins, append_nil]
    rw [← append_assoc, decodeReplacing]

/-- Bytes that complete a text, as chunk after chunk took them off the stream: they are those of the
text, or one more where a chunk reaches past it. -/
theorem AsksFor.full (h : AsksFor count (before ++ rest) before)
    (hfull : count ≤ (feed none before).1.length) :
    (¬ Overshoots count (before ++ rest) ∧ (feed none before).1.length = count ∧
        (feed none before).1 = (decodeReplacing (before ++ rest)).take count ∧
        before = firstBytes count (before ++ rest)) ∨
      (Overshoots count (before ++ rest) ∧ ∃ b, before = firstBytes count (before ++ rest) ++ [b] ∧
        (feed none before).1 = (decodeReplacing (before ++ rest)).take count ++
          (pushLead b).1) := by
  by_cases hbegun : begun none before = count + 1
  · -- The last chunk is the one that reaches past the text.
    rcases Relation.ReflTransGen.cases_tail h with hnil | ⟨earlier, hearlier, hlast⟩
    · rw [hnil] at hbegun
      cases hbegun
    · obtain ⟨chunk, rfl, hlength⟩ := hlast.chunk
      obtain ⟨hopen, hfresh⟩ := (begun_le_of_chunk hlength).2.1 hbegun
      have hchunk : chunk ≠ [] := by
        rintro rfl
        have hmissing := hlast.missing
        rw [length_nil] at hlength
        omega
      exact .inr ⟨⟨earlier, chunk, hearlier, hlast, hopen, hfresh⟩, read_past hchunk hfresh hbegun⟩
  · have hle : begun none before ≤ count + 1 := by
      rcases Relation.ReflTransGen.cases_tail h with hnil | ⟨earlier, -, hlast⟩
      · rw [hnil]
        exact Nat.zero_le _
      · obtain ⟨chunk, rfl, hlength⟩ := hlast.chunk
        exact (begun_le_of_chunk hlength).1
    have hcount : begun none before = count := by
      have hfeed := length_feed_none before
      omega
    refine .inl ⟨?_, read_exactly hfull hcount⟩
    rintro ⟨earlier, chunk, hearlier, hlast, hopen, hfresh⟩
    obtain ⟨chunk', heq, hlength⟩ := hlast.chunk
    obtain rfl := append_cancel_left heq
    have hpast := (begun_le_of_chunk hlength).2.2 ⟨hopen, hfresh⟩
    have hfull' : count ≤ (feed none (earlier ++ chunk)).1.length := by
      have hfeed := length_feed_none (earlier ++ chunk)
      have hunfinished := length_unfinished_le (feed none (earlier ++ chunk)).2
      omega
    rw [AsksFor.eq_of_full h (hearlier.tail hlast) hfull hfull'] at hbegun
    exact hbegun hpast

/-! ## Runs -/

variable {ε : Type} {env : Environment World Await ε} {s c : Nat} {coming : ε → List UInt8}

theorem readText_of_full (s : Nat) (deadline : Option Int) (bound : Nat) {missing : Int}
    (h : missing ≤ 0) (pending : Option Sequence) (read : List Char) :
    readText s deadline bound missing pending read = pure read := by
  cases bound with
  | zero => rfl
  | succ bound => rw [readText, if_pos h]

/-- Round after round takes the chunks off the stream, up to the end of the text or of the stream. A
round takes at least one byte, and while characters are missing there are fewer than four bytes for
each of them, so that the bound is not met. -/
theorem runIn_readText_chunks (hsupplies : Supplies env s c coming) {w : World}
    {e : ε} {bound : Nat} (h : Attached s c w (coming e) rest)
    (hasked : AsksFor count (before ++ rest) before)
    (hbound : (feed none before).1.length < count → 4 * count < bound + before.length) : (∃ w' e',
      runIn env (readText s none bound (count - (feed none before).1.length) (feed none before).2
        (feed none before).1) w e = (.error (.unavailable .died), w', e') ∧
        (decodeReplacing (before ++ rest)).length ≤ count) ∨ ∃ used rest' w' e',
        runIn env (readText s none bound (count - (feed none before).1.length) (feed none before).2
        (feed none before).1) w e = (.ok (feed none used).1, w', e') ∧
        Attached s c w' (coming e') rest' ∧ before ++ rest = used ++ rest' ∧
          AsksFor count (before ++ rest) used ∧ count ≤ (feed none used).1.length := by
  induction bound generalizing w e before rest with
  | zero =>
    have hfull : count ≤ (feed none before).1.length := by
      by_contra hmissing
      have hsize := length_le_feed before
      have hbefore := hbound (by omega)
      omega
    refine .inr ⟨before, rest, w, e, ?_, h, rfl, hasked, hfull⟩
    rw [readText_of_full s none 0 (by omega), runIn_pure]
  | succ bound ih =>
    by_cases hfull : count ≤ (feed none before).1.length
    · refine .inr ⟨before, rest, w, e, ?_, h, rfl, hasked, hfull⟩
      rw [readText_of_full s none (bound + 1) (by omega), runIn_pure]
    · have hmissing : (feed none before).1.length < count := Nat.lt_of_not_le hfull
      have hpositive : 0 < (count : Int) - (feed none before).1.length := by omega
      obtain ⟨w₁, e₁, hread, hattached⟩ :=
        runIn_readExactly hsupplies h ((count : Int) - (feed none before).1.length).toNat
      by_cases henough : ((count : Int) - (feed none before).1.length).toNat ≤ rest.length
      · rw [taken, if_pos henough] at hread
        rw [runIn_readText_ok h hpositive hread]
        -- The chunk moves from the rest of the stream to what was read.
        obtain ⟨chunk, later, rfl, hchunk⟩ : ∃ chunk later, rest = chunk ++ later ∧
            chunk.length = ((count : Int) - (feed none before).1.length).toNat :=
          ⟨rest.take _, rest.drop _, (take_append_drop _ rest).symm, length_take_of_le henough⟩
        rw [take_left' hchunk]
        rw [drop_left' hchunk] at hattached
        have hstream : before ++ (chunk ++ later) = (before ++ chunk) ++ later :=
          (append_assoc ..).symm
        have hnext : Asks count (before ++ (chunk ++ later)) before (before ++ chunk) :=
          ⟨hmissing, hstream ▸ prefix_append _ _, chunk, rfl, by omega⟩
        have hasked' := hasked.tail hnext
        rw [hstream] at hasked' ⊢
        have hrun := ih hattached hasked' (by
          intro _
          have hbefore := hbound hmissing
          rw [length_append]
          omega)
        rw [feed_append none before chunk] at hrun
        simp only [length_append] at hrun
        rw [show (count : Int) - ((feed none before).1.length :
          Int) - ((feed (feed none before).2 chunk).1.length : Int) =
          (count : Int) - (((feed none before).1.length +
            (feed (feed none before).2 chunk).1.length : Nat) : Int) by omega]
        exact hrun
      · rw [taken, if_neg henough] at hread
        refine .inl ⟨w₁, e₁, runIn_readText_error h hpositive hread, ?_⟩
        have hfeed := length_feed_none before
        have hrest := begun_le_length (feed none before).2 rest
        have hopen := length_unfinished_le (feed none before).2
        rw [length_decodeReplacing, begun_append]
        omega

/-- **Characters are read exactly, unless a chunk reaches past them.** Whatever the bytes of a
stream are and however they arrive, reading a number of characters fails only where the stream does
not go on after them. Otherwise the text that is read is that of the first so many characters of the
stream and their bytes are those that are taken off it, unless a chunk reaches past the text. Then
one byte more is taken, and the text has the character of that byte in addition if the byte is one
by itself. -/
theorem characters_read_exactly (hsupplies : Supplies env s c coming) {w : World}
    {e : ε} (count : Nat) (h : Attached s c w (coming e) stream) :
    ∃ r w' e', runIn env (readText s none (4 * count + 1) count none []) w e = (r, w', e') ∧
      match r with
      | .error fault => fault = .unavailable .died ∧ (decodeReplacing stream).length ≤ count
      | .ok text => ∃ used rest, stream = used ++ rest ∧ Attached s c w' (coming e') rest ∧
        ((¬ Overshoots count stream ∧ text.length = count ∧
          text = (decodeReplacing stream).take count ∧ used = firstBytes count stream) ∨
          (Overshoots count stream ∧ ∃ b, used = firstBytes count stream ++ [b] ∧
            text = (decodeReplacing stream).take count ++ (pushLead b).1)) := by
  have hnothing : AsksFor count ([] ++ stream) [] := .refl
  have hbound : (feed none []).1.length < count →
      4 * count < 4 * count + 1 + ([] : List UInt8).length :=
    fun _ => Nat.lt_succ_self _
  have hrun := runIn_readText_chunks hsupplies h hnothing hbound
  rw [show (count : Int) - ((feed none []).1.length : Int) = count from Int.sub_zero _] at hrun
  rcases hrun with ⟨w', e', hrun, hshort⟩ | ⟨used, rest, w', e', hrun, hattached, hstream,
    hasked, hfull⟩
  · exact ⟨_, w', e', hrun, rfl, hshort⟩
  · rw [nil_append] at hstream hasked
    subst hstream
    exact ⟨_, w', e', hrun, used, rest, rfl, hattached, hasked.full hfull⟩

/-- The lead byte of a sequence of three, and then a letter: where one character is asked for, two
are read, and the byte of the second is lost to what comes after. -/
theorem characters_read_exactly_broken :
    Supplies (allAtOnce 0) 0 0 id ∧ Attached 0 0 silentWorld (id [0xE2, 0x61, 0x62])
      [0xE2, 0x61, 0x62] ∧ firstBytes 1 [0xE2, 0x61, 0x62] = [0xE2] ∧
      ∃ w' e', runIn (allAtOnce 0) (readText 0 none 5 1 none []) silentWorld [0xE2, 0x61, 0x62] =
          (.ok [replacement, 'a'], w', e') ∧ Attached 0 0 w' (id e') [0x62] ∧
        Overshoots 1 [0xE2, 0x61, 0x62] := by
  have hattached : Attached 0 0 silentWorld (id [0xE2, 0x61, 0x62]) [0xE2, 0x61, 0x62] :=
    ⟨rfl, { pid := 1, behaviour := {} }, rfl, rfl, rfl, by nofun⟩
  have hfirst : firstBytes 1 [0xE2, 0x61, 0x62] = [0xE2] := by decide
  refine ⟨supplies_allAtOnce 0 0, hattached, hfirst, ?_⟩
  obtain ⟨r, w', e', hrun, hread⟩ := characters_read_exactly (supplies_allAtOnce 0 0) 1 hattached
  have hr : r = .ok [replacement, 'a'] := by
    exact (congrArg Prod.fst hrun).symm
  subst hr
  obtain ⟨used, rest, hstream, hrest, ⟨-, hlength, -⟩ | ⟨hpast, b, hused, -⟩⟩ := hread
  · cases hlength
  · rw [hused, hfirst] at hstream
    obtain rfl : rest = [0x62] := by
      cases hstream
      rfl
    exact ⟨w', e', hrun, hrest, hpast⟩

end IdeMode.Client
