import TreeEdits.Json.Record

/-!
# TreeEdits.Json.Read

Whole texts, and values of no particular kind. Lists and objects may nest up to a limit; reading
keeps a budget of the brackets that may still be opened.

* `Json.read`: any value.
* `parse`: a whole text, by a reader for its value.
* `JsonForm`: the types that have a JSON form, with their readers.
-/

namespace TreeEdits

namespace Json

/-- Takes a member of any name and value, keeping all of them, latest first. -/
def takeAny (value : Step Json) : Members (List (String × Json)) := fun members key =>
  .ok fun s =>
    match value s with
    | .error f => .error f
    | .ok (v, s) => .ok ((key, v) :: members, s)

/-- Reads any value, given what reads the values behind one more bracket. -/
def readBehind (value : Option (Step Json)) : Step Json := fun s =>
  match skipBlank s, value with
  | '[' :: s, some value =>
    match readItems value s with
    | .error f => .error f
    | .ok (items, s) => .ok (.arr items, s)
  | '\x7b' :: s, some value =>
    match readMembers (takeAny value) [] s with
    | .error f => .error f
    | .ok (members, s) => .ok (.obj members.reverse, s)
  | '[' :: s, none => .error (.next .tooDeep ('[' :: s))
  | '\x7b' :: s, none => .error (.next .tooDeep ('\x7b' :: s))
  | s, _ => readScalar s

/-- Reads any value that opens brackets at most `budget` deep. -/
def read : Nat → Step Json
  | 0 => readBehind none
  | budget + 1 => readBehind (some (read budget))

/-- How many brackets may be open at one time. -/
def depthLimit : Nat := 127

end Json

/-- Reads a whole text: one value with blanks around it. -/
def parse {α : Type} (value : Step α) (text : String) : Except ParseError α :=
  let s := text.toList
  match value s with
  | .error f => .error (f.locate s)
  | .ok (a, rest) =>
    match skipBlank rest with
    | [] => .ok a
    | rest => .error ((Fault.next .trailingCharacters rest).locate s)

/-- A type with a JSON form. It is read from a text, or from a value that was read before it was
known what it is. -/
class JsonForm (α : Type) where
  toJson : α → Json
  read : (budget : Nat) → Step α
  ofJson : Json → Except Mismatch α

export JsonForm (toJson)

def ofText (α : Type) [JsonForm α] (text : String) : Except ParseError α :=
  parse (JsonForm.read Json.depthLimit) text

instance : JsonForm String where
  toJson := .str
  read _ := readString
  ofJson
    | .str s => .ok s
    | v => .error (.wrongType v.found "a string")

instance : JsonForm UInt32 where
  toJson n := .nat n.toNat
  read _ s :=
    match readNatural UInt32.size "u32" s with
    | .error f => .error f
    | .ok (n, s) => .ok (n.toUInt32, s)
  ofJson
    | .number n =>
      match n.toNatural UInt32.size "u32" with
      | .error m => .error m
      | .ok n => .ok n.toUInt32
    | v => .error (.wrongType v.found "u32")

end TreeEdits
