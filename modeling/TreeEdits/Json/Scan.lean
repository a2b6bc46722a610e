import TreeEdits.Json.Fault

/-!
# TreeEdits.Json.Scan

The smallest pieces of reading. A `Step` takes the characters that are left and gives a value and
the characters after it, or a fault.

* `skipBlank`: blanks between tokens.
* `readWord`: the rest of `null`, `true` or `false`.
-/

namespace TreeEdits

/-- Reads a value off the front of a text. -/
abbrev Step (α : Type) := List Char → Except Fault (α × List Char)

/-- Blanks are space, tab, line feed and carriage return. -/
def isBlank (c : Char) : Bool :=
  c == ' ' || c == '\t' || c == '\n' || c == '\r'

/-- The text from its first character that is not blank. -/
def skipBlank : List Char → List Char
  | [] => []
  | c :: s => if isBlank c then skipBlank s else c :: s

/-- Reads the letters of `word`. A letter that differs counts as read. -/
def readWord : List Char → List Char → Except Fault (List Char)
  | [], s => .ok s
  | _ :: _, [] => .error (.here .endInValue [])
  | w :: word, c :: s =>
    if c = w then readWord word s else .error (.next .expectedWord (c :: s))

end TreeEdits
