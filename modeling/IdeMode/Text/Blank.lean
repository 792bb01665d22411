set_option autoImplicit false

/-!
# White space

The characters that separate tokens, and the words that they separate.
-/

namespace IdeMode.Text

/-- The character's code point lies in one of the inclusive ranges. -/
def inRanges (ranges : List (Nat × Nat)) (c : Char) : Bool :=
  ranges.any fun r => r.1 ≤ c.toNat && c.toNat ≤ r.2

/-- The white-space code points, as inclusive ranges. -/
def blankRanges : List (Nat × Nat) :=
  [(0x9, 0xD), (0x1C, 0x20), (0x85, 0x85), (0xA0, 0xA0), (0x1680, 0x1680), (0x2000, 0x200A),
   (0x2028, 0x2029), (0x202F, 0x202F), (0x205F, 0x205F), (0x3000, 0x3000)]

/-- White space. -/
def isBlank (c : Char) : Bool := inRanges blankRanges c

/-- The text without the white space it starts with. -/
def skipBlanks (cs : List Char) : List Char := cs.dropWhile isBlank

/-- The non-empty stretches of a text between separators. -/
def wordsBy (separates : Char → Bool) (cs : List Char) : List (List Char) :=
  let close (word : List Char) (words : List (List Char)) :=
    if word.isEmpty then words else word :: words
  let (word, words) := cs.foldr
    (fun c (word, words) => if separates c then ([], close word words) else (c :: word, words))
    ([], [])
  close word words

/-- The words of a text: its stretches between white space. -/
def words (s : String) : List String := (wordsBy isBlank s.toList).map String.ofList

/-- The text without the characters of a class at either end. -/
def trimBy (drops : Char → Bool) (cs : List Char) : List Char :=
  ((cs.dropWhile drops).reverse.dropWhile drops).reverse

end IdeMode.Text
