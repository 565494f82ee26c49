/-!
# Blanks and tokens

Attribute values and element texts are read without the blanks around them, and lists are
written as tokens with blanks between them. A blank is a space, a tab, a line feed or a
carriage return; no other white space is one.
-/

namespace SeismicTree.Text

def isBlank (c : Char) : Bool := c == ' ' || c == '\t' || c == '\n' || c == '\r'

/-- The characters without the blanks at both ends. -/
def trimChars (cs : List Char) : List Char :=
  ((cs.dropWhile isBlank).reverse.dropWhile isBlank).reverse

/-- The maximal runs of characters that are not blank, in order. -/
def tokenChars (cs : List Char) : List (List Char) :=
  match _ : cs.dropWhile isBlank with
  | [] => []
  | c :: rest =>
    (c :: rest.takeWhile (!isBlank ·)) :: tokenChars (rest.dropWhile (!isBlank ·))
termination_by cs.length
decreasing_by
  have hrest : (rest.dropWhile (!isBlank ·)).length ≤ rest.length :=
    (List.dropWhile_suffix _).length_le
  have hcs : (cs.dropWhile isBlank).length ≤ cs.length := (List.dropWhile_suffix _).length_le
  rw [‹cs.dropWhile isBlank = c :: rest›, List.length_cons] at hcs
  omega

def trim (text : String) : String := String.ofList (trimChars text.toList)

def tokens (text : String) : List String := (tokenChars text.toList).map String.ofList

end SeismicTree.Text
