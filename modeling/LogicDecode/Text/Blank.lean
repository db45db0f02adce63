/-!
# Blanks

The characters with the property of white space, and the cutting of texts at them.
-/

namespace LogicDecode

/-- Whether a character is white space: the blank and its kin, tabulators and line ends. -/
def isBlank (c : Char) : Bool :=
  let n := c.toNat
  (9 ≤ n && n ≤ 13) || n == 0x20 || n == 0x85 || n == 0xA0 || n == 0x1680 ||
    (0x2000 ≤ n && n ≤ 0x200A) || n == 0x2028 || n == 0x2029 || n == 0x202F || n == 0x205F ||
    n == 0x3000

def trimBlanks (cs : List Char) : List Char :=
  ((cs.dropWhile isBlank).reverse.dropWhile isBlank).reverse

/-- The parts of a text between characters that satisfy a test; `part` holds the beginning of the
first one, last character first. -/
def splitAux (p : Char → Bool) : List Char → List Char → List (List Char)
  | [], part => [part.reverse]
  | c :: rest, part =>
    if p c then part.reverse :: splitAux p rest [] else splitAux p rest (c :: part)

/-- The parts of a text between characters that satisfy a test, empty ones included. -/
def splitAt (p : Char → Bool) (cs : List Char) : List (List Char) := splitAux p cs []

def words (cs : List Char) : List (List Char) := (splitAt isBlank cs).filter (· ≠ [])

/-- The text behind a given beginning, if it begins so. -/
def afterStart? : (start : List Char) → List Char → Option (List Char)
  | [], cs => some cs
  | _ :: _, [] => none
  | s :: start, c :: cs => if s = c then afterStart? start cs else none

/-- The texts in front of and behind the first occurrence of a mark; `part` holds what has been
passed, last character first. -/
def cutAux (mark : List Char) : List Char → List Char → Option (List Char × List Char)
  | [], part => (afterStart? mark []).map fun rest => (part.reverse, rest)
  | c :: cs, part =>
    match afterStart? mark (c :: cs) with
    | some rest => some (part.reverse, rest)
    | none => cutAux mark cs (c :: part)

/-- The texts in front of and behind the first occurrence of a mark. -/
def cut? (mark cs : List Char) : Option (List Char × List Char) := cutAux mark cs []

end LogicDecode
