import IdeMode.Text.Utf8
set_option autoImplicit false

/-!
# Reading UTF-8 in chunks

Strict decoding inverts encoding. Where strict decoding succeeds, the bytes may be fed in chunks cut
anywhere, inside a character too: the chunk yields a part of the text, and what is left decodes to
the rest of it from the sequence that is open. No chunk yields more characters than it has bytes,
and characters that are still to come need at least one byte each, so asking for as many bytes as
characters are missing never asks for too many.
-/

namespace IdeMode.Text.Utf8

open List

/-! ## One character -/

variable {b : UInt8} {pending : Option Sequence} {s : Sequence}

theorem lead_one (h : b.toNat < 0x80) : lead b = .char (Char.ofNat b.toNat) := by
  simp only [lead, h, if_true]

theorem lead_two (hlow : 0xC2 ≤ b.toNat) (hhigh : b.toNat < 0xE0) :
    lead b = .more ⟨b.toNat % 0x20, 1, 0x80, 0xBF⟩ := by
  unfold lead
  rw [if_neg (by omega), if_neg (by omega), if_pos hhigh]

theorem lead_three (hlow : 0xE0 ≤ b.toNat) (hhigh : b.toNat < 0xF0) :
    lead b = .more ⟨b.toNat % 0x10, 2, if b.toNat = 0xE0 then 0xA0 else 0x80,
      if b.toNat = 0xED then 0x9F else 0xBF⟩ := by
  unfold lead
  rw [if_neg (by omega), if_neg (by omega), if_neg (by omega), if_pos hhigh]

theorem lead_four (hlow : 0xF0 ≤ b.toNat) (hhigh : b.toNat < 0xF5) :
    lead b = .more ⟨b.toNat % 0x08, 3, if b.toNat = 0xF0 then 0x90 else 0x80,
      if b.toNat = 0xF4 then 0x8F else 0xBF⟩ := by
  unfold lead
  rw [if_neg (by omega), if_neg (by omega), if_neg (by omega), if_neg (by omega), if_pos hhigh]

/-- The last byte of a sequence finishes a character. -/
theorem next_last (hlow : s.low ≤ b.toNat) (hhigh : b.toNat ≤ s.high) (howed : s.owed = 1) :
    s.next b = .char (Char.ofNat (64 * s.bits + b.toNat % 0x40)) := by
  unfold Sequence.next
  rw [if_pos ⟨hlow, hhigh⟩, if_pos (by omega)]

/-- Any other byte of a sequence leaves it owed one byte less. -/
theorem next_inner (hlow : s.low ≤ b.toNat) (hhigh : b.toNat ≤ s.high) (howed : 1 < s.owed) :
    s.next b = .more ⟨64 * s.bits + b.toNat % 0x40, s.owed - 1, 0x80, 0xBF⟩ := by
  unfold Sequence.next
  rw [if_pos ⟨hlow, hhigh⟩, if_neg (by omega)]

theorem decodeFrom?_char (pending : Option Sequence) {c : Char} (h : step pending b = .char c)
    (bs : List UInt8) : decodeFrom? pending (b :: bs) = (decodeFrom? none bs).map (c :: ·) := by
  rw [decodeFrom?, h]

theorem decodeFrom?_more (pending : Option Sequence) (h : step pending b = .more s)
    (bs : List UInt8) : decodeFrom? pending (b :: bs) = decodeFrom? (some s) bs := by
  rw [decodeFrom?, h]

theorem decodeFrom?_one (h : b.toNat < 0x80) (bs : List UInt8) :
    decodeFrom? none (b :: bs) = (decodeFrom? none bs).map (Char.ofNat b.toNat :: ·) :=
  decodeFrom?_char none (lead_one h) bs

variable {b₁ b₂ : UInt8} {v : Nat}

/-- A sequence of two bytes. -/
theorem decodeFrom?_two (h₁ : 0xC2 ≤ b₁.toNat ∧ b₁.toNat < 0xE0)
    (h₂ : 0x80 ≤ b₂.toNat ∧ b₂.toNat ≤ 0xBF) (hv : 64 * (b₁.toNat % 0x20) + b₂.toNat % 0x40 = v)
    (bs : List UInt8) :
    decodeFrom? none (b₁ :: b₂ :: bs) = (decodeFrom? none bs).map (Char.ofNat v :: ·) := by
  subst hv
  rw [decodeFrom?_more none (lead_two h₁.1 h₁.2)]
  exact decodeFrom?_char (some _) (next_last h₂.1 h₂.2 rfl) bs

/-- A sequence of three bytes; the lead byte bounds the second. -/
theorem decodeFrom?_three {b₃ : UInt8} (h₁ : 0xE0 ≤ b₁.toNat ∧ b₁.toNat < 0xF0)
    (h₂ : (if b₁.toNat = 0xE0 then 0xA0 else 0x80) ≤ b₂.toNat ∧
      b₂.toNat ≤ (if b₁.toNat = 0xED then 0x9F else 0xBF)) (h₃ : 0x80 ≤ b₃.toNat ∧ b₃.toNat ≤ 0xBF)
    (hv : 64 * (64 * (b₁.toNat % 0x10) + b₂.toNat % 0x40) + b₃.toNat % 0x40 = v) (bs : List UInt8) :
    decodeFrom? none (b₁ :: b₂ :: b₃ :: bs) = (decodeFrom? none bs).map (Char.ofNat v :: ·) := by
  subst hv
  rw [decodeFrom?_more none (lead_three h₁.1 h₁.2),
    decodeFrom?_more (some _) (next_inner h₂.1 h₂.2 Nat.one_lt_two)]
  exact decodeFrom?_char (some _) (next_last h₃.1 h₃.2 rfl) bs

/-- A sequence of four bytes; the lead byte bounds the second. -/
theorem decodeFrom?_four {b₃ b₄ : UInt8} (h₁ : 0xF0 ≤ b₁.toNat ∧ b₁.toNat < 0xF5)
    (h₂ : (if b₁.toNat = 0xF0 then 0x90 else 0x80) ≤ b₂.toNat ∧
      b₂.toNat ≤ (if b₁.toNat = 0xF4 then 0x8F else 0xBF))
    (h₃ : 0x80 ≤ b₃.toNat ∧ b₃.toNat ≤ 0xBF) (h₄ : 0x80 ≤ b₄.toNat ∧ b₄.toNat ≤ 0xBF)
    (hv : 64 * (64 * (64 * (b₁.toNat % 0x08) + b₂.toNat % 0x40) + b₃.toNat % 0x40) +
      b₄.toNat % 0x40 = v) (bs : List UInt8) :
    decodeFrom? none (b₁ :: b₂ :: b₃ :: b₄ :: bs) =
      (decodeFrom? none bs).map (Char.ofNat v :: ·) := by
  subst hv
  rw [decodeFrom?_more none (lead_four h₁.1 h₁.2),
    decodeFrom?_more (some _) (next_inner h₂.1 h₂.2 (by exact (by decide : 1 < 3))),
    decodeFrom?_more (some _) (next_inner h₃.1 h₃.2 Nat.one_lt_two)]
  exact decodeFrom?_char (some _) (next_last h₄.1 h₄.2 rfl) bs

/-- The bytes of a character decode to it, whatever follows. The cases are the four lengths; the
bounds of the second byte hold because the code point is neither too small for the length nor a
surrogate nor too large. -/
theorem decodeFrom?_utf8EncodeChar (c : Char) (bs : List UInt8) :
    decodeFrom? none (String.utf8EncodeChar c ++ bs) = (decodeFrom? none bs).map (c :: ·) := by
  have hvalid : c.val.toNat < 0xD800 ∨ 0xDFFF < c.val.toNat ∧ c.val.toNat < 0x110000 := c.valid
  have hchar : Char.ofNat c.val.toNat = c := Char.ofNat_toNat c
  have hbyte : ∀ n, n < 256 → (UInt8.ofNat n).toNat = n := fun n hn => by
    rw [UInt8.toNat_ofNat']
    exact Nat.mod_eq_of_lt hn
  unfold String.utf8EncodeChar
  generalize c.val.toNat = v at hvalid hchar ⊢
  subst hchar
  dsimp only
  split
  · have e₁ := hbyte v (by omega)
    rw [cons_append, nil_append, decodeFrom?_one (by omega), e₁]
  split
  · have e₁ := hbyte (v / 64 % 0x20 + 0xc0) (by omega)
    have e₂ := hbyte (v % 0x40 + 0x80) (by omega)
    simp only [cons_append, nil_append]
    exact decodeFrom?_two (by omega) (by omega) (by omega) bs
  split
  · have e₁ := hbyte (v / 4096 % 0x10 + 0xe0) (by omega)
    have e₂ := hbyte (v / 64 % 0x40 + 0x80) (by omega)
    have e₃ := hbyte (v % 0x40 + 0x80) (by omega)
    simp only [cons_append, nil_append]
    exact decodeFrom?_three (by omega) (by constructor <;> split <;> omega) (by omega) (by omega) bs
  · have e₁ := hbyte (v / 262144 % 0x08 + 0xf0) (by omega)
    have e₂ := hbyte (v / 4096 % 0x40 + 0x80) (by omega)
    have e₃ := hbyte (v / 64 % 0x40 + 0x80) (by omega)
    have e₄ := hbyte (v % 0x40 + 0x80) (by omega)
    simp only [cons_append, nil_append]
    exact decodeFrom?_four (by omega) (by constructor <;> split <;> omega) (by omega) (by omega)
      (by omega) bs

/-- Decoding inverts encoding. -/
theorem decodeFrom?_encode (cs : List Char) : decodeFrom? none (encode cs) = some cs := by
  induction cs with
  | nil => rfl
  | cons c cs ih =>
    rw [encode, flatMap_cons, decodeFrom?_utf8EncodeChar]
    rw [encode] at ih
    rw [ih, Option.map_some]

variable {cs : List Char}

theorem encode_inj {ds : List Char} (h : encode cs = encode ds) : cs = ds := by
  have hdecoded := decodeFrom?_encode cs
  rw [h, decodeFrom?_encode ds] at hdecoded
  exact (Option.some.inj hdecoded).symm

theorem encode_append (cs ds : List Char) : encode (cs ++ ds) = encode cs ++ encode ds := by
  rw [encode, flatMap_append]
  rfl

/-- A character has at most four bytes. -/
theorem length_encode_le (cs : List Char) : (encode cs).length ≤ 4 * cs.length := by
  induction cs with
  | nil => simp [encode]
  | cons c cs ih =>
    have hc : (String.utf8EncodeChar c).length ≤ 4 := by
      rw [String.length_utf8EncodeChar]
      exact c.utf8Size_le_four
    rw [encode] at ih
    rw [encode, flatMap_cons, length_append, length_cons]
    omega

/-! ## Chunks -/

/-- What a byte that strict decoding accepts yields when it is fed. -/
theorem push_of_step :
    (∀ c, step pending b = .char c → push pending b = ([c], none)) ∧
      ∀ s, step pending b = .more s → push pending b = ([], some s) := by
  cases pending with
  | none =>
    constructor
    · intro c h
      simp only [step] at h
      simp only [push, pushLead, h]
    · intro s h
      simp only [step] at h
      simp only [push, pushLead, h]
  | some s =>
    constructor
    · intro c h
      simp only [step] at h
      simp only [push, h]
    · intro s h
      simp only [step] at h
      simp only [push, h]

/-- A text without characters has no bytes, and no sequence is open in it. -/
theorem eq_nil_of_decodeFrom?_nil {bytes : List UInt8}
    (h : decodeFrom? pending bytes = some []) : bytes = [] := by
  induction bytes generalizing pending with
  | nil => rfl
  | cons b bytes ih =>
    rw [decodeFrom?] at h
    split at h
    · obtain ⟨cs, _, hcs⟩ := Option.map_eq_some_iff.mp h
      cases hcs
    · have hbytes := ih h
      rw [hbytes, decodeFrom?] at h
      simp at h
    · cases h

/-- Characters that are still to come need at least one byte each. -/
theorem length_le_of_decodeFrom? {bytes : List UInt8} (h : decodeFrom? pending bytes = some cs) :
    cs.length ≤ bytes.length := by
  induction bytes generalizing pending cs with
  | nil =>
    rw [decodeFrom?] at h
    split at h
    · cases h
      exact Nat.le_refl 0
    · cases h
  | cons b bytes ih =>
    rw [decodeFrom?] at h
    split at h
    · obtain ⟨ds, hds, rfl⟩ := Option.map_eq_some_iff.mp h
      exact Nat.succ_le_succ (ih hds)
    · exact Nat.le_succ_of_le (ih h)
    · cases h

/-- A chunk of well-formed bytes, cut anywhere, yields a part of the text, and the bytes after it
decode to the rest of the text from the sequence that is then open. -/
theorem feed_of_decodeFrom? {xs ys : List UInt8} (h : decodeFrom? pending (xs ++ ys) = some cs) :
    ∃ ds, cs = (feed pending xs).1 ++ ds ∧ decodeFrom? (feed pending xs).2 ys = some ds := by
  induction xs generalizing pending cs with
  | nil => exact ⟨cs, rfl, h⟩
  | cons b xs ih =>
    rw [cons_append, decodeFrom?] at h
    split at h
    · rename_i c hstep
      obtain ⟨es, hes, rfl⟩ := Option.map_eq_some_iff.mp h
      obtain ⟨ds, rfl, hds⟩ := ih hes
      have hpush := push_of_step.1 c hstep
      exact ⟨ds, by simp [feed, hpush], by simpa [feed, hpush] using hds⟩
    · rename_i s hstep
      obtain ⟨ds, rfl, hds⟩ := ih h
      have hpush := push_of_step.2 s hstep
      exact ⟨ds, by simp [feed, hpush], by simpa [feed, hpush] using hds⟩
    · cases h

/-- After some of the bytes, the others are owed just the characters that are missing. -/
theorem exists_missing {bytes : List UInt8} (h : decodeFrom? pending bytes = some cs) (n : Nat) :
    ∃ ds, cs = (feed pending (bytes.take n)).1 ++ ds ∧
      decodeFrom? (feed pending (bytes.take n)).2 (bytes.drop n) = some ds ∧
      Int.ofNat cs.length - ((feed pending (bytes.take n)).1.length : Int) =
        Int.ofNat ds.length := by
  rw [← take_append_drop n bytes] at h
  obtain ⟨ds, hds, hrest⟩ := feed_of_decodeFrom? h
  refine ⟨ds, hds, hrest, ?_⟩
  have hlength := congrArg List.length hds
  rw [length_append] at hlength
  simp only [Int.ofNat_eq_natCast]
  omega

end IdeMode.Text.Utf8
