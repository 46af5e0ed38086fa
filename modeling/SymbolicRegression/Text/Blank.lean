/-!
# Blanks

The characters that separate words: those with the Unicode property `White_Space`.

## Main definitions

* `SymbolicRegression.Text.isBlank` — the characters.
* `SymbolicRegression.Text.split` — the pieces of a text between separators.
* `SymbolicRegression.Text.words` — the pieces between blanks that are not empty.
-/

set_option autoImplicit false

namespace SymbolicRegression.Text

/-- The ranges of characters with the property `White_Space`, ends included. -/
def blankRanges : List (Nat × Nat) :=
  [(0x9, 0xd), (0x20, 0x20), (0x85, 0x85), (0xa0, 0xa0), (0x1680, 0x1680), (0x2000, 0x200a),
   (0x2028, 0x2029), (0x202f, 0x202f), (0x205f, 0x205f), (0x3000, 0x3000)]

/-- Whether a character separates words. -/
def isBlank (c : Char) : Bool :=
  blankRanges.any fun (first, last) => first ≤ c.toNat ∧ c.toNat ≤ last

/-- Put a character before the first piece, or start a new piece at a separator. -/
def splitStep (sep : Char → Bool) (c : Char) (pieces : List (List Char)) : List (List Char) :=
  if sep c then [] :: pieces
  else match pieces with
    | [] => [[c]]
    | piece :: rest => (c :: piece) :: rest

/-- The pieces of a text between separators, one more than there are separators. -/
def split (sep : Char → Bool) (text : List Char) : List (List Char) :=
  text.foldr (splitStep sep) [[]]

/-- The lines of a text. -/
def lines (text : List Char) : List (List Char) := split (· == '\n') text

/-- The words of a text: what stands between blanks. -/
def words (text : List Char) : List (List Char) := (split isBlank text).filter (· ≠ [])

end SymbolicRegression.Text
