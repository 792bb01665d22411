import IdeMode.Text.Utf8
set_option autoImplicit false

/-!
# Characters of arbitrary bytes

Decoding with replacement cuts every stream of bytes into characters: the bytes of a well-formed
one, or a stretch that encodes nothing and counts as one replacement character. A byte begins a
character if nothing is open before it or if it cannot continue what is.

A character that encodes nothing is known only by the byte after it. So a chunk of bytes yields the
characters that begin in it, less the one that it leaves open, and besides them the one that was
open before it.
-/

namespace IdeMode.Text.Utf8

open List

/-! ## Where characters begin -/

/-- The byte begins a character: nothing is open before it, or it cannot continue what is. -/
def begins (pending : Option Sequence) (b : UInt8) : Bool :=
  match pending with
  | none => true
  | some s => s.next b = .broken

/-- The number of characters that begin in the bytes. -/
def begun (pending : Option Sequence) : List UInt8 → Nat
  | [] => 0
  | b :: bs => (if begins pending b then 1 else 0) + begun (push pending b).2 bs

/-- What an open sequence comes to that is never finished. -/
def unfinished (pending : Option Sequence) : List Char :=
  if pending.isSome then [replacement] else []

/-- The text of the bytes, with one replacement character for each stretch that encodes nothing. A
sequence that is open at their end is such a stretch. -/
def decodeReplacing (bytes : List UInt8) : List Char :=
  (feed none bytes).1 ++ unfinished (feed none bytes).2

/-- The bytes that belong to the sequence that is open and to the `n` characters after it. -/
def bytesFrom (pending : Option Sequence) (n : Nat) : List UInt8 → List UInt8
  | [] => []
  | b :: bs =>
    if begins pending b then
      if n = 0 then [] else b :: bytesFrom (push pending b).2 (n - 1) bs
    else b :: bytesFrom (push pending b).2 n bs

/-- The bytes of the first `n` characters of a stream. -/
def firstBytes (n : Nat) (stream : List UInt8) : List UInt8 := bytesFrom none n stream

/-! ## Counting -/

variable {pending : Option Sequence}

/-- A byte that begins a character ends the one that is open, and is a byte between characters. -/
theorem push_of_begins {b : UInt8} (h : begins pending b = true) :
    push pending b = (unfinished pending ++ (pushLead b).1, (pushLead b).2) := by
  cases pending with
  | none => rfl
  | some s =>
    rw [begins, decide_eq_true_eq] at h
    rw [push]
    simp only [h]
    rfl

/-- A byte between characters yields one, or leaves one open. -/
theorem length_pushLead (b : UInt8) :
    (pushLead b).1.length + (unfinished (pushLead b).2).length = 1 := by
  unfold pushLead
  cases lead b <;> rfl

/-- With each byte, what is yielded or left open grows by the character that the byte begins. -/
theorem length_push (pending : Option Sequence) (b : UInt8) :
    (push pending b).1.length + (unfinished (push pending b).2).length =
      (unfinished pending).length + if begins pending b then 1 else 0 := by
  by_cases h : begins pending b = true
  · rw [push_of_begins h, if_pos h, length_append, Nat.add_assoc, length_pushLead]
  · cases pending with
    | none => exact absurd rfl h
    | some s =>
      rw [if_neg h]
      rw [begins, decide_eq_true_eq] at h
      rw [push]
      cases hnext : s.next b with
      | char c => rfl
      | more s' => rfl
      | broken => exact absurd hnext h

/-- A chunk yields the characters that begin in it and the one that is open before it, but for the
one that is open after it. -/
theorem length_feed (pending : Option Sequence) (bytes : List UInt8) :
    (feed pending bytes).1.length + (unfinished (feed pending bytes).2).length =
      (unfinished pending).length + begun pending bytes := by
  induction bytes generalizing pending with
  | nil => exact Nat.add_comm 0 _
  | cons b bytes ih =>
    have hpush := length_push pending b
    have hrest := ih (push pending b).2
    rw [feed, begun]
    dsimp only
    rw [length_append]
    omega

/-- From the start, the characters that have begun are those that were yielded and the one that is
open. -/
theorem length_feed_none (bytes : List UInt8) :
    (feed none bytes).1.length + (unfinished (feed none bytes).2).length = begun none bytes :=
  (length_feed none bytes).trans (Nat.zero_add _)

theorem length_unfinished_le (pending : Option Sequence) : (unfinished pending).length ≤ 1 := by
  unfold unfinished
  split
  · exact Nat.le_refl 1
  · exact Nat.zero_le 1

theorem begun_le_length (pending : Option Sequence) (bytes : List UInt8) :
    begun pending bytes ≤ bytes.length := by
  induction bytes generalizing pending with
  | nil => exact Nat.le_refl 0
  | cons b bytes ih =>
    have hrest := ih (push pending b).2
    rw [begun, length_cons]
    split <;> omega

theorem begun_append (pending : Option Sequence) (xs ys : List UInt8) :
    begun pending (xs ++ ys) = begun pending xs + begun (feed pending xs).2 ys := by
  induction xs generalizing pending with
  | nil => exact (Nat.zero_add _).symm
  | cons b xs ih =>
    rw [cons_append, begun, begun, ih, feed, Nat.add_assoc]

/-- As many characters begin in a stream as its text has. -/
theorem length_decodeReplacing (bytes : List UInt8) :
    (decodeReplacing bytes).length = begun none bytes := by
  rw [decodeReplacing, length_append, length_feed_none]

/-! ## Sizes -/

/-- The most bytes that an open sequence can have: it is owed some, and no character has more than
four. -/
def room : Option Sequence → Int
  | none => 0
  | some s => 4 - max s.owed 1

theorem room_le (pending : Option Sequence) : room pending ≤ 3 := by
  cases pending with
  | none => decide
  | some s =>
    rw [room]
    omega

theorem room_pushLead (b : UInt8) :
    1 ≤ 4 * ((pushLead b).1.length : Int) + room (pushLead b).2 := by
  unfold pushLead
  cases hlead : lead b with
  | char c => simp [room]
  | broken => simp [room]
  | more s =>
    have howed : s.owed ≤ 3 := by
      unfold lead at hlead
      dsimp only at hlead
      split at hlead
      · cases hlead
      split at hlead
      · cases hlead
      split at hlead
      · cases hlead
        exact Nat.le_of_ble_eq_true rfl
      split at hlead
      · cases hlead
        exact Nat.le_of_ble_eq_true rfl
      split at hlead
      · cases hlead
        exact Nat.le_refl 3
      · cases hlead
    simp only [length_nil, room]
    omega

theorem room_push (pending : Option Sequence) (b : UInt8) :
    1 + room pending ≤ 4 * ((push pending b).1.length : Int) + room (push pending b).2 := by
  cases pending with
  | none => exact room_pushLead b
  | some s =>
    rw [push]
    cases hnext : s.next b with
    | broken =>
      have hlead := room_pushLead b
      have hroom := room_le (some s)
      simp only [length_cons]
      omega
    | char c =>
      have hroom := room_le (some s)
      simp only [length_singleton, room] at hroom ⊢
      omega
    | more s' =>
      unfold Sequence.next at hnext
      dsimp only at hnext
      split at hnext
      · split at hnext
        · cases hnext
        · cases hnext
          simp only [length_nil, room]
          omega
      · cases hnext

theorem length_le_room (pending : Option Sequence) (bytes : List UInt8) :
    bytes.length + room pending ≤ 4 * ((feed pending bytes).1.length : Int) +
      room (feed pending bytes).2 := by
  induction bytes generalizing pending with
  | nil => simp [feed]
  | cons b bytes ih =>
    have hpush := room_push pending b
    have hrest := ih (push pending b).2
    rw [feed]
    rw [length_append, length_cons]
    push_cast
    omega

/-- No more than four bytes go into a character, and no more than three into one that is left
open. -/
theorem length_le_feed (bytes : List UInt8) :
    bytes.length ≤ 4 * (feed none bytes).1.length + 3 := by
  have hsize := length_le_room none bytes
  have hopen := room_le (feed none bytes).2
  have hnone : room none = 0 := rfl
  omega

/-! ## The bytes of the first characters -/

/-- The bytes in which no more than `n` characters begin are among those of the first `n`. -/
theorem bytesFrom_append {n : Nat} {xs : List UInt8} (h : begun pending xs ≤ n) (ys : List UInt8) :
    bytesFrom pending n (xs ++ ys) =
      xs ++ bytesFrom (feed pending xs).2 (n - begun pending xs) ys := by
  induction xs generalizing pending n with
  | nil => rfl
  | cons b xs ih =>
    rw [begun] at h
    rw [cons_append, bytesFrom, begun, feed]
    by_cases hb : begins pending b = true
    · rw [if_pos hb] at h ⊢
      rw [if_pos hb, if_neg (by omega), ih (by omega), Nat.sub_sub]
      rfl
    · rw [if_neg hb, Nat.zero_add] at h
      rw [if_neg hb, if_neg hb, Nat.zero_add, ih h]
      rfl

/-- No further byte belongs to nothing if the next one begins a character. -/
theorem bytesFrom_zero {bytes : List UInt8}
    (h : ∀ b, bytes.head? = some b → begins pending b = true) : bytesFrom pending 0 bytes = [] := by
  cases bytes with
  | nil => rfl
  | cons b bytes =>
    rw [bytesFrom, if_pos (h b rfl), if_pos rfl]

/-- The first characters of a stream are those of a part of it after which a character begins or the
stream ends. -/
theorem firstBytes_append {n : Nat} {xs ys : List UInt8} (hn : begun none xs = n)
    (hys : ∀ b, ys.head? = some b → begins (feed none xs).2 b = true) :
    firstBytes n (xs ++ ys) = xs := by
  rw [firstBytes, bytesFrom_append (Nat.le_of_eq hn), hn, Nat.sub_self,
    bytesFrom_zero hys, append_nil]

theorem take_decodeReplacing {n : Nat} {xs ys : List UInt8} (hn : begun none xs = n)
    (hys : ∀ b, ys.head? = some b → begins (feed none xs).2 b = true) :
    (decodeReplacing (xs ++ ys)).take n = decodeReplacing xs := by
  have hlength := (length_decodeReplacing xs).trans hn
  cases ys with
  | nil => rw [append_nil, ← hlength, take_length]
  | cons b ys =>
    have hpush := push_of_begins (hys b rfl)
    have hsplit : decodeReplacing (xs ++ b :: ys) = decodeReplacing xs ++
        ((pushLead b).1 ++ (feed (pushLead b).2 ys).1 ++
          unfinished (feed (pushLead b).2 ys).2) := by
      rw [decodeReplacing, feed_append, feed, hpush, decodeReplacing]
      simp only [append_assoc]
    rw [hsplit, take_left' hlength]

end IdeMode.Text.Utf8
