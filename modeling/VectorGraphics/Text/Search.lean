/-!
# Looking into a text

Blank characters, and tests and cuts of a text, all through its list of characters.

* `isBlank` is the Unicode property White_Space, which `trim` strips from both ends of a text.
* `isAsciiBlank` holds of the five ASCII blanks, which separate the numbers of path data and of
  other lists.
-/

namespace VectorGraphics.Text

/-! ## Blanks -/

/-- The characters with the Unicode property White_Space. -/
def isBlank (c : Char) : Bool :=
  let n := c.toNat
  (0x9 ≤ n && n ≤ 0xd) || n = 0x20 || n = 0x85 || n = 0xa0 || n = 0x1680
    || (0x2000 ≤ n && n ≤ 0x200a) || n = 0x2028 || n = 0x2029 || n = 0x202f || n = 0x205f
    || n = 0x3000

/-- Space, tab, line feed, form feed and carriage return. -/
def isAsciiBlank (c : Char) : Bool :=
  c = ' ' || c = '\t' || c = '\n' || c = '\x0c' || c = '\r'

/-- A list without the members at its end that satisfy `p`. -/
def dropRightWhile {α : Type} (p : α → Bool) (l : List α) : List α :=
  (l.reverse.dropWhile p).reverse

/-- The characters of a text without the blanks at its ends. -/
def trimList (cs : List Char) : List Char := dropRightWhile isBlank (cs.dropWhile isBlank)

/-- A text without the blanks at its ends. -/
def trim (s : String) : String := .ofList (trimList s.toList)

/-- The pieces of a list between the members that satisfy `p`; there is one more of them than of
those members. -/
def splitOn {α : Type} (p : α → Bool) : List α → List (List α)
  | [] => [[]]
  | a :: l =>
    if p a then [] :: splitOn p l
    else
      match splitOn p l with
      | [] => [[a]]
      | piece :: pieces => (a :: piece) :: pieces

/-! ## Patterns -/

/-- Whether a pattern occurs in a list. -/
def hasInfix (pattern : List Char) : List Char → Bool
  | [] => pattern.isEmpty
  | c :: cs => pattern.isPrefixOf (c :: cs) || hasInfix pattern cs

/-- Whether a pattern occurs in a text. -/
def contains (pattern s : String) : Bool := hasInfix pattern.toList s.toList

/-- Whether a text begins with a pattern. -/
def startsWith (pattern s : String) : Bool := pattern.toList.isPrefixOf s.toList

/-- What follows a pattern at the front of a list. -/
def stripFront? (pattern cs : List Char) : Option (List Char) :=
  if pattern.isPrefixOf cs then some (cs.drop pattern.length) else none

/-- What comes before a pattern at the end of a list. -/
def stripBack? (pattern cs : List Char) : Option (List Char) :=
  if pattern.isSuffixOf cs then some (cs.take (cs.length - pattern.length)) else none

/-- What comes before and after the first `c` of a list. -/
def cutAt? (c : Char) : List Char → Option (List Char × List Char)
  | [] => none
  | d :: cs => if d = c then some ([], cs) else (cutAt? c cs).map fun (a, b) => (d :: a, b)

/-- What comes after the last `c` of a list, or the whole list. -/
def afterLast (c : Char) (cs : List Char) : List Char :=
  (cs.reverse.takeWhile (· != c)).reverse

/-- The nonempty pieces of a list between commas and ASCII blanks. -/
def listItems (cs : List Char) : List (List Char) :=
  (splitOn (fun c => c = ',' || isAsciiBlank c) cs).filter (!·.isEmpty)

end VectorGraphics.Text
