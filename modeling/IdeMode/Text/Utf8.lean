set_option autoImplicit false

/-!
# UTF-8

Encoding, strict decoding, and decoding with replacement. One machine reads bytes for both decoders:
a lead byte opens a sequence, which knows how many bytes it is owed and the bounds of the next one.
The bounds of the second byte rule out overlong forms, surrogates and values beyond the last code
point, so a sequence is found broken at the first byte that cannot continue it.

Decoding with replacement writes one replacement character for each maximal ill-formed stretch and
then looks at the breaking byte again as a lead byte. A sequence that is merely unfinished yields
nothing yet.
-/

namespace IdeMode.Text.Utf8

/-- The bytes of a text. -/
def encode (cs : List Char) : List UInt8 := cs.flatMap String.utf8EncodeChar

/-- A sequence that was opened and not yet finished: the bits read so far, the number of bytes it is
owed, and the bounds of the next byte. -/
structure Sequence where
  bits : Nat
  owed : Nat
  low : Nat
  high : Nat
  deriving DecidableEq, Repr

/-- What one byte does to a sequence. -/
inductive Step where
  /-- it finishes a character -/
  | char (c : Char)
  /-- it leaves a sequence that is owed more -/
  | more (s : Sequence)
  /-- it cannot stand here -/
  | broken
  deriving DecidableEq, Repr

/-- A byte between characters. -/
def lead (b : UInt8) : Step :=
  let n := b.toNat
  if n < 0x80 then .char (Char.ofNat n)
  else if n < 0xC2 then .broken
  else if n < 0xE0 then .more ⟨n % 0x20, 1, 0x80, 0xBF⟩
  else if n < 0xF0 then
    .more ⟨n % 0x10, 2, if n = 0xE0 then 0xA0 else 0x80, if n = 0xED then 0x9F else 0xBF⟩
  else if n < 0xF5 then
    .more ⟨n % 0x08, 3, if n = 0xF0 then 0x90 else 0x80, if n = 0xF4 then 0x8F else 0xBF⟩
  else .broken

/-- A byte inside a sequence. -/
def Sequence.next (s : Sequence) (b : UInt8) : Step :=
  let n := b.toNat
  if s.low ≤ n ∧ n ≤ s.high then
    let bits := 64 * s.bits + n % 0x40
    if s.owed ≤ 1 then .char (Char.ofNat bits) else .more ⟨bits, s.owed - 1, 0x80, 0xBF⟩
  else .broken

/-- A byte where `pending` is the sequence it falls into, if one is open. -/
def step (pending : Option Sequence) (b : UInt8) : Step :=
  match pending with
  | none => lead b
  | some s => s.next b

/-! ## Strict decoding -/

/-- The text of the bytes, of which `pending` was already read; none if they are not UTF-8. -/
def decodeFrom? (pending : Option Sequence) : List UInt8 → Option (List Char)
  | [] => if pending.isNone then some [] else none
  | b :: bs =>
    match step pending b with
    | .char c => (decodeFrom? none bs).map (c :: ·)
    | .more s => decodeFrom? (some s) bs
    | .broken => none

/-- The text that the bytes encode; none if they are not UTF-8. -/
def decode? (bytes : List UInt8) : Option (List Char) := decodeFrom? none bytes

/-! ## Decoding with replacement -/

/-- Stands for a stretch of bytes that encodes nothing. -/
def replacement : Char := '�'

/-- What a byte between characters yields. -/
def pushLead (b : UInt8) : List Char × Option Sequence :=
  match lead b with
  | .char c => ([c], none)
  | .more s => ([], some s)
  | .broken => ([replacement], none)

/-- What one more byte yields, and the sequence that is open after it. -/
def push (pending : Option Sequence) (b : UInt8) : List Char × Option Sequence :=
  match pending with
  | none => pushLead b
  | some s =>
    match s.next b with
    | .char c => ([c], none)
    | .more s' => ([], some s')
    | .broken => let (cs, opened) := pushLead b; (replacement :: cs, opened)

/-- What a chunk of bytes yields, and the sequence that is open after it. -/
def feed (pending : Option Sequence) : List UInt8 → List Char × Option Sequence
  | [] => ([], pending)
  | b :: bs =>
    let (cs, pending') := push pending b
    let (rest, final) := feed pending' bs
    (cs ++ rest, final)

/-- A chunk may be cut anywhere: feeding the parts one after the other yields the same. -/
theorem feed_append (pending : Option Sequence) (xs ys : List UInt8) :
    feed pending (xs ++ ys) = ((feed pending xs).1 ++ (feed (feed pending xs).2 ys).1,
        (feed (feed pending xs).2 ys).2) := by
  induction xs generalizing pending with
  | nil => rfl
  | cons x xs ih => simp [feed, ih, List.append_assoc]

end IdeMode.Text.Utf8
