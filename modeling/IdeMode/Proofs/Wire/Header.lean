import Mathlib.Algebra.Group.Nat.Defs
import IdeMode.Proofs.Text.Literals
import IdeMode.Proofs.Text.Utf8
import IdeMode.Wire.Frame
set_option autoImplicit false

/-!
# Headers

A header is six hexadecimal digits, one byte each, and reading it back gives the number that was
written, for every number that six digits can write. Some other headers are read as well: those that
write a number in fewer digits, with blanks, a sign, a base mark or underscores.
-/

namespace IdeMode

open List

namespace Text

/-! ## Hexadecimal digits -/

variable {cs : List Char}

theorem hexValue?_digitChar : ∀ d < 16, hexValue? (Nat.digitChar d) = some d := by decide

theorem hexNumber_append_singleton (cs : List Char) {c : Char} {d : Nat}
    (hc : hexValue? c = some d) : hexNumber (cs ++ [c]) = 16 * hexNumber cs + d := by
  simp [hexNumber, hc]

theorem hexNumber_replicate_zero (k : Nat) (cs : List Char) :
    hexNumber (List.replicate k '0' ++ cs) = hexNumber cs := by
  induction k with
  | zero => rfl
  | succ k ih => exact ih

/-- A number is written by digits that have it as their value. -/
theorem hexNumber_toDigits (n : Nat) :
    hexNumber (Nat.toDigits 16 n) = n ∧ ∀ c ∈ Nat.toDigits 16 n, (hexValue? c).isSome = true := by
  induction n using Nat.strongRecOn with
  | ind n ih =>
    rw [Nat.toDigits_eq_if (by decide)]
    split
    · next hn =>
      have hdigit := hexValue?_digitChar n hn
      exact ⟨by simp [hexNumber, hdigit], forall_mem_singleton.2 (hdigit ▸ rfl)⟩
    · obtain ⟨hvalue, hdigits⟩ := ih (n / 16) (by omega)
      have hdigit := hexValue?_digitChar (n % 16) (Nat.mod_lt n (by decide))
      rw [hexNumber_append_singleton _ hdigit, hvalue]
      exact ⟨Nat.div_add_mod n 16,
        forall_mem_append.2 ⟨hdigits, forall_mem_singleton.2 (hdigit ▸ rfl)⟩⟩

/-- A padded number is written by exactly `width` digits if it is small enough. -/
theorem hexPadded_spec {width n : Nat} (hwidth : 0 < width) (hn : n < 16 ^ width) :
    (hexPadded width n).length = width ∧ hexNumber (hexPadded width n) = n ∧
      ∀ c ∈ hexPadded width n, (hexValue? c).isSome = true := by
  obtain ⟨hvalue, hdigits⟩ := hexNumber_toDigits n
  have hlength := (Nat.length_toDigits_le_iff (by decide : 1 < 16) hwidth).mpr hn
  refine ⟨?_, (hexNumber_replicate_zero _ _).trans hvalue,
    forall_mem_append.2 ⟨fun c hc => ?_, hdigits⟩⟩
  · rw [hexPadded, length_append, length_replicate]
    omega
  · rw [eq_of_mem_replicate hc]
    rfl

theorem hexDigits_of_forall (hne : cs ≠ []) (h : ∀ c ∈ cs, (hexValue? c).isSome = true) :
    HexDigits cs := by
  induction cs with
  | nil => exact absurd rfl hne
  | cons c cs ih =>
    obtain ⟨hc, hcs⟩ := forall_mem_cons.1 h
    cases cs with
    | nil => exact .single hc
    | cons d cs => exact .cons hc (ih (cons_ne_nil d cs) hcs)

theorem hexLiteral_of_digits (hne : cs ≠ []) (h : ∀ c ∈ cs, (hexValue? c).isSome = true) :
    HexLiteral cs (Int.ofNat (hexNumber cs)) := by
  have hliteral : HexLiteral ([] ++ ([] ++ ([] ++ cs)) ++ []) (1 * Int.ofNat (hexNumber cs)) :=
    .mk (by simp) (by simp [literalSigns]) (by decide) (hexDigits_of_forall hne h)
  simpa using hliteral

end Text

namespace Wire

/-! ## Headers -/

/-- The text of ASCII bytes. -/
def asciiText (header : List UInt8) : List Char := header.map fun b => Char.ofNat b.toNat

variable {header : List UInt8} {n : Int}

theorem parseHeader_eq_ok_iff :
    parseHeader header = .ok n ↔ header.length = headerSize ∧ (∀ b ∈ header, b.toNat < 0x80) ∧
      Text.HexLiteral (asciiText header) n := by
  by_cases hlength : header.length = headerSize
  · by_cases hbytes : ∀ b ∈ header, b.toNat < 0x80
    · have hascii : ∀ c ∈ asciiText header, c.toNat < 0x80 := by
        have hchar : ∀ k < 0x80, (Char.ofNat k).toNat < 0x80 := by decide
        intro c hc
        obtain ⟨b, hb, rfl⟩ := mem_map.1 hc
        exact hchar _ (hbytes b hb)
      have hall : header.all (fun b => b.toNat < 0x80) = true := by simpa using hbytes
      rw [← Text.integerLiteral?_eq_some_iff hascii, parseHeader,
        if_neg (not_not.2 hlength), if_pos hall]
      unfold asciiText
      cases Text.integerLiteral? 16 (header.map fun b => Char.ofNat b.toNat) with
      | none => simp
      | some k => simpa [hlength] using fun _ => hbytes
    · rw [parseHeader, if_neg (not_not.2 hlength), if_neg (by simpa using hbytes)]
      exact ⟨fun h => (by cases h), fun h => absurd h.2.1 hbytes⟩
  · rw [parseHeader, if_pos hlength]
    exact ⟨fun h => (by cases h), fun h => absurd h.1 hlength⟩

theorem parseHeader_refused (h : ∀ k, parseHeader header ≠ .ok k) : parseHeader header = .error
      (if header.length = headerSize then .malformed header else .short header) := by
  unfold parseHeader at h ⊢
  by_cases hlength : header.length = headerSize
  · rw [if_neg (not_not.2 hlength)] at h ⊢
    rw [if_pos hlength]
    split
    · next hascii =>
      rw [if_pos hascii] at h
      split
      · next k heq => exact absurd (by rw [heq]) (h k)
      · rfl
    · rfl
  · rw [if_pos hlength, if_neg hlength]

theorem encode_ascii {cs : List Char} (hascii : ∀ c ∈ cs, c.toNat < 0x80) :
    Text.Utf8.encode cs = cs.map fun c => UInt8.ofNat c.toNat := by
  induction cs with
  | nil => rfl
  | cons c cs ih =>
    obtain ⟨hc, hcs⟩ := forall_mem_cons.1 hascii
    have hchar : String.utf8EncodeChar c = [UInt8.ofNat c.toNat] := if_pos (Nat.le_of_lt_succ hc)
    have htail := ih hcs
    rw [Text.Utf8.encode] at htail ⊢
    rw [flatMap_cons, hchar, htail]
    rfl

/-- The header of a number is six bytes and is read as that number. -/
theorem parseHeader_hexPadded {n : Nat} (hn : n < 16 ^ headerSize) :
    (Text.Utf8.encode (Text.hexPadded headerSize n)).length = headerSize ∧
      parseHeader (Text.Utf8.encode (Text.hexPadded headerSize n)) = .ok (Int.ofNat n) := by
  obtain ⟨hlength, hvalue, hdigits⟩ := Text.hexPadded_spec (by decide) hn
  have hascii : ∀ c ∈ Text.hexPadded headerSize n, c.toNat < 0x80 :=
    fun c hc => Text.ascii_of_hexValue? (hdigits c hc)
  have hbyte : ∀ c ∈ Text.hexPadded headerSize n, (UInt8.ofNat c.toNat).toNat = c.toNat := by
    intro c hc
    have hlt := hascii c hc
    rw [UInt8.toNat_ofNat']
    omega
  have htext : asciiText ((Text.hexPadded headerSize n).map fun c => UInt8.ofNat c.toNat) =
      Text.hexPadded headerSize n := by
    rw [asciiText, map_map]
    refine (map_congr_left fun c hc => ?_).trans (map_id _)
    rw [Function.comp_apply, hbyte c hc, Char.ofNat_toNat]
    rfl
  have hne : Text.hexPadded headerSize n ≠ [] := ne_nil_of_length_eq_add_one hlength
  rw [encode_ascii hascii, length_map, hlength, parseHeader_eq_ok_iff, htext, length_map, hlength]
  refine ⟨rfl, rfl, fun b hb => ?_, ?_⟩
  · obtain ⟨c, hc, rfl⟩ := mem_map.1 hb
    rw [hbyte c hc]
    exact hascii c hc
  · have hliteral := Text.hexLiteral_of_digits hne hdigits
    rwa [hvalue] at hliteral

/-- **What is read as a header.** Six ASCII bytes are read if they are a hexadecimal literal, and
nothing else is. Six digits are one, and are read as the number that they write; so are fewer with
blanks, a sign, a base mark or underscores. -/
theorem header_read_iff_literal (header : List UInt8) (n : Int) :
    (parseHeader header = .ok n ↔ header.length = headerSize ∧ (∀ b ∈ header, b.toNat < 0x80) ∧
      Text.HexLiteral (asciiText header) n) ∧
    ((∀ k, parseHeader header ≠ .ok k) → parseHeader header = .error
        (if header.length = headerSize then .malformed header else .short header)) ∧
    (header.length = headerSize → (∀ c ∈ asciiText header, (Text.hexValue? c).isSome = true) →
      Text.HexLiteral (asciiText header) (Int.ofNat (Text.hexNumber (asciiText header)))) := by
  refine ⟨parseHeader_eq_ok_iff, parseHeader_refused, fun hlength hdigits => ?_⟩
  exact Text.hexLiteral_of_digits
    (ne_nil_of_length_eq_add_one (length_map _ |>.trans hlength)) hdigits

/-- Six digits are read as their number, but five after a sign are read, too. -/
theorem header_read_iff_literal_sign : parseHeader [48, 48, 48, 48, 70, 102] = .ok 255 ∧
      parseHeader [43, 48, 48, 48, 48, 49] = .ok 1 := by
  have hdigits := (header_read_iff_literal [48, 48, 48, 48, 70, 102] 255).2.2 rfl
    (all_eq_true.1 rfl)
  have hascii : ∀ b ∈ [48, 48, 48, 48, 70, 102], UInt8.toNat b < 0x80 := by simp
  exact ⟨(header_read_iff_literal _ 255).1.2 ⟨rfl, hascii, hdigits⟩, rfl⟩

end Wire

end IdeMode
