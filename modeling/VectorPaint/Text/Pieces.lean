/-!
Blanks and pieces of a text: trimming, the sizes of characters in an encoded text, and cutting a
text at separators.
-/
namespace VectorPaint.Text

/-- The characters with the property `White_Space`. -/
def isBlank (c : Char) : Bool :=
  let n := c.toNat
  (9 ≤ n && n ≤ 13) || n == 0x20 || n == 0x85 || n == 0xA0 || n == 0x1680 ||
    (0x2000 ≤ n && n ≤ 0x200A) || n == 0x2028 || n == 0x2029 || n == 0x202F || n == 0x205F ||
    n == 0x3000

/-- Removes the blanks at both ends. -/
def trim (text : List Char) : List Char :=
  ((text.dropWhile isBlank).reverse.dropWhile isBlank).reverse

/-- How many bytes a text takes in UTF-8. -/
def byteCount (text : List Char) : Nat :=
  text.foldl (fun count c => count + c.utf8Size) 0

/-- The longest parts of a text without separators; there are no empty ones. -/
def pieces (isSeparator : Char → Bool) (text : List Char) : List (List Char) :=
  match _rest : text.dropWhile isSeparator with
  | [] => []
  | c :: rest =>
    (c :: rest.takeWhile (!isSeparator ·)) :: pieces isSeparator (rest.dropWhile (!isSeparator ·))
termination_by text.length
decreasing_by
  have kept := (List.dropWhile_suffix (l := text) isSeparator).length_le
  have left := (List.dropWhile_suffix (l := rest) (!isSeparator ·)).length_le
  simp only [_rest, List.length_cons] at kept
  omega

/-- The text before a last character, if the text ends with it. -/
def beforeLast? (last : Char) (text : List Char) : Option (List Char) :=
  if text.getLast? = some last then some text.dropLast else none

end VectorPaint.Text
