import TreeEdits.Json.Literal

/-!
# TreeEdits.Json.Write

Writing JSON values. Two layouts are in use: the compact one has no blanks at all, the pretty one
puts every item and member on a line of its own, two spaces deeper than its bracket. Brackets around
nothing stay together in both.

* `Json.write`: the text of a value in a layout.
* `Json.compact`, `Json.pretty`: the two layouts.
-/

namespace TreeEdits

/-- Where blanks stand: the break before each item and closing bracket, by depth, and the gap after
a colon. -/
structure Spacing where
  line : Nat → List Char
  gap : List Char

namespace Spacing

def compact : Spacing := ⟨fun _ => [], []⟩

def pretty : Spacing := ⟨fun depth => '\n' :: List.replicate (2 * depth) ' ', [' ']⟩

end Spacing

namespace Json

mutual

/-- The text of a value that stands at the given depth. -/
def write (sp : Spacing) (depth : Nat) : Json → List Char
  | null => ['n', 'u', 'l', 'l']
  | bool true => ['t', 'r', 'u', 'e']
  | bool false => ['f', 'a', 'l', 's', 'e']
  | number n => n.text
  | str s => Literal.write s
  | arr [] => ['[', ']']
  | arr (v :: vs) =>
    '[' :: (sp.line (depth + 1) ++ write sp (depth + 1) v ++ writeItems sp (depth + 1) vs
      ++ sp.line depth ++ [']'])
  | obj [] => ['\x7b', '\x7d']
  | obj ((k, v) :: ms) =>
    '\x7b' :: (sp.line (depth + 1) ++ Literal.write k ++ ':' :: sp.gap ++ write sp (depth + 1) v
      ++ writeMembers sp (depth + 1) ms ++ sp.line depth ++ ['\x7d'])

/-- The items after the first. -/
def writeItems (sp : Spacing) (depth : Nat) : List Json → List Char
  | [] => []
  | v :: vs => ',' :: (sp.line depth ++ write sp depth v ++ writeItems sp depth vs)

def writeMembers (sp : Spacing) (depth : Nat) : List (String × Json) → List Char
  | [] => []
  | (k, v) :: ms =>
    ',' :: (sp.line depth ++ Literal.write k ++ ':' :: sp.gap ++ write sp depth v
      ++ writeMembers sp depth ms)

end

def compact (v : Json) : String := String.ofList (v.write .compact 0)

def pretty (v : Json) : String := String.ofList (v.write .pretty 0)

end Json
end TreeEdits
