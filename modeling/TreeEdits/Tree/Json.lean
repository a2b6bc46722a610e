import TreeEdits.Json.Read
import TreeEdits.Tree

/-!
# TreeEdits.Tree.Json

The JSON form of trees: an object with `label` and `children`, where a leaf has no `children`. Read,
the list may be empty or missing.

* `Tree.toJson`: the form written.
* `Tree.read`: a tree off a text.
* `Tree.ofJson`: a tree of a value.
-/

namespace TreeEdits
namespace Tree

mutual

def toJson : Tree → Json
  | node label [] => .obj [("label", .str label)]
  | node label (t :: ts) =>
    .obj [("label", .str label), ("children", .arr (t.toJson :: toJsonAll ts))]

def toJsonAll : List Tree → List Json
  | [] => []
  | t :: ts => t.toJson :: toJsonAll ts

end

def typeName : String := "struct TreeNode"

structure Draft where
  label : Option String
  children : Option (List Tree)

namespace Draft

def empty : Draft := ⟨none, none⟩

/-- The tree, whose label has to be there. -/
def finish (d : Draft) : Except Mismatch Tree :=
  match d.label with
  | none => .error (.missingField "label")
  | some label => .ok (node label (d.children.getD []))

end Draft

/-- The fields of a tree, by a reader for its children. -/
def record (children : Step (List Tree)) : Record Draft Tree where
  fields := [
    .of "label" Draft.label (fun label d => { d with label := some label }) readString false,
    .of "children" Draft.children (fun ts d => { d with children := some ts }) children true]
  start := .empty
  finish := Draft.finish

mutual

def read : Nat → Step Tree
  | 0 => Record.read typeName (none : Option (Record Draft Tree))
  | budget + 1 => Record.read typeName (some (record (readAll budget)))

def readAll : Nat → Step (List Tree)
  | 0 => readSequence none
  | budget + 1 => readSequence (some (read budget))

end

/-- The report for children that are no list. -/
def noList (v : Json) : Mismatch := .wrongType v.found "a sequence"

mutual

/-- The tree that a value is the form of. A list may give the fields in order. -/
def ofJson : Json → Except Mismatch Tree
  | .obj members => ofMembers .empty members
  | .arr [] => .error (.wrongLength 0 (typeName ++ " with 2 elements"))
  | .arr [label] =>
    match JsonForm.ofJson label with
    | .error m => .error m
    | .ok label => .ok (node label [])
  | .arr (label :: children :: rest) =>
    match JsonForm.ofJson label with
    | .error m => .error m
    | .ok label =>
      match ofJsonAll children with
      | .error m => .error m
      | .ok ts =>
        if rest.isEmpty then .ok (node label ts)
        else .error (.wrongLength (2 + rest.length) "2 elements in sequence")
  | v => .error (.wrongType v.found typeName)

def ofJsonAll : Json → Except Mismatch (List Tree)
  | .arr items => ofItems items
  | v => .error (noList v)

def ofItems : List Json → Except Mismatch (List Tree)
  | [] => .ok []
  | v :: vs =>
    match ofJson v with
    | .error m => .error m
    | .ok t =>
      match ofItems vs with
      | .error m => .error m
      | .ok ts => .ok (t :: ts)

/-- The tree of the members of an object, after what has been read. -/
def ofMembers (d : Draft) : List (String × Json) → Except Mismatch Tree
  | [] => d.finish
  | (key, v) :: members =>
    if key = "label" then
      if d.label.isSome then .error (.duplicateField "label")
      else
        match JsonForm.ofJson v with
        | .error m => .error m
        | .ok label => ofMembers { d with label := some label } members
    else if key = "children" then
      if d.children.isSome then .error (.duplicateField "children")
      else
        match ofJsonAll v with
        | .error m => .error m
        | .ok ts => ofMembers { d with children := some ts } members
    else ofMembers d members

end

instance : JsonForm Tree where
  toJson := toJson
  read := read
  ofJson := ofJson

def ofText (text : String) : Except ParseError Tree := TreeEdits.ofText Tree text

end Tree
end TreeEdits
