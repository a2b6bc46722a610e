import TreeEdits.Edit
import TreeEdits.Json.Read

/-!
# TreeEdits.Edit.Json

The JSON form of edits and records: an object with `kind`, which names the action, and `node`, which
a deletion does not have; a record has its `anchor` in front of them. Read, the members may stand in
any order. An edit is read as it comes, and its node only waits if it stands before the kind; of a
record all members but the anchor wait until the end.

* `Edit.toJson`, `EditRecord.toJson`: the forms written.
* `Edit.read`, `EditRecord.read`: an edit and a record off a text.
-/

namespace TreeEdits

instance : JsonForm NodeId where
  toJson id := .nat id.index.toNat
  read budget s :=
    match JsonForm.read budget s with
    | .error f => .error f
    | .ok (n, s) => .ok (⟨n⟩, s)
  ofJson v :=
    match JsonForm.ofJson v with
    | .error m => .error m
    | .ok n => .ok ⟨n⟩

instance : JsonForm Action where
  toJson a := .str a.name
  read budget := readChoice budget Action.choices
  ofJson := choiceOf Action.choices

namespace Edit

variable {α : Type} [JsonForm α]

def members (e : Edit α) : List (String × Json) :=
  match e.node? with
  | none => [("kind", toJson e.action)]
  | some node => [("kind", toJson e.action), ("node", toJson node)]

def toJson (e : Edit α) : Json := .obj e.members

def typeName : String := "adjacently tagged enum EditKind"

/-- How reports call the node of a deletion, which can only be `null`. -/
def noNode : String := "unit variant EditKind::Delete"

/-- Reads the node of a deletion. A list or an object is refused once it is entered. -/
def readNoNode (budget : Nat) : Step Unit := fun s =>
  match skipBlank s, budget with
  | '[' :: s, 0 => .error (.next .tooDeep ('[' :: s))
  | '\x7b' :: s, 0 => .error (.next .tooDeep ('\x7b' :: s))
  | '[' :: s, _ => .error (.misfit (.wrongType .list noNode) (Bracket.list.pastEnd s))
  | '\x7b' :: s, _ => .error (.misfit (.wrongType .object noNode) (Bracket.object.pastEnd s))
  | s, _ => readNull noNode s

def readNode (budget : Nat) (a : Action) : Step (Edit α) := fun s =>
  let carrying (edit : α → Edit α) : Except Fault (Edit α × List Char) :=
    match JsonForm.read budget s with
    | .error f => .error f
    | .ok (node, s) => .ok (edit node, s)
  match a with
  | .replace => carrying replace
  | .insertBefore => carrying insertBefore
  | .insertAfter => carrying insertAfter
  | .delete =>
    match readNoNode budget s with
    | .error f => .error f
    | .ok (_, s) => .ok (delete, s)

/-- The edit of a known kind with the node that a value is the form of. -/
def ofNode (a : Action) (v : Json) : Except Mismatch (Edit α) :=
  let carrying (edit : α → Edit α) : Except Mismatch (Edit α) :=
    match JsonForm.ofJson v with
    | .error m => .error m
    | .ok node => .ok (edit node)
  match a with
  | .replace => carrying replace
  | .insertBefore => carrying insertBefore
  | .insertAfter => carrying insertAfter
  | .delete =>
    match v with
    | .null => .ok delete
    | v => .error (.wrongType v.found noNode)

/-- What has been read of an edit. A node in front of the kind is kept as it is. -/
inductive Draft (α : Type) where
  | nothing
  | kind (a : Action)
  | node (v : Json)
  | complete (e : Edit α)

/-- The edit of all that has been read. Only a deletion does without a node. -/
def Draft.finish : Draft α → Except Mismatch (Edit α)
  | nothing => .error (.missingField "kind")
  | kind .delete => .ok delete
  | kind _ => .error (.missingField "node")
  | node _ => .error (.missingField "kind")
  | complete e => .ok e

def take (budget : Nat) : Members (Draft α) := fun d key =>
  if key = "kind" then
    match d with
    | .nothing => .ok fun s =>
      match JsonForm.read budget s with
      | .error f => .error f
      | .ok (a, s) => .ok (.kind a, s)
    | .node v => .ok fun s =>
      match JsonForm.read budget s with
      | .error f => .error f
      | .ok (a, s) =>
        match ofNode a v with
        | .error m => .error (.misfit m (Bracket.object.pastEnd s))
        | .ok e => .ok (.complete e, s)
    | .kind _ => .error (.duplicateField "kind")
    | .complete _ => .error (.duplicateField "kind")
  else if key = "node" then
    match d with
    | .nothing => .ok fun s =>
      match Json.read budget s with
      | .error f => .error f
      | .ok (v, s) => .ok (.node v, s)
    | .kind a => .ok fun s =>
      match readNode budget a s with
      | .error f => .error f
      | .ok (e, s) => .ok (.complete e, s)
    | .node _ => .error (.duplicateField "node")
    | .complete _ => .error (.duplicateField "node")
  else .ok fun s =>
    match skipValue s with
    | .error f => .error f
    | .ok s => .ok (d, s)

/-- Reads an edit as the list of its kind, a plain name, and its node, after the opening bracket. -/
def readList (budget : Nat) : Step (Edit α) := fun s =>
  match nextItem true s with
  | .error f => .error f
  | .ok (.done s) => .error (.misfit (.wrongLength 0 typeName) s)
  | .ok (.item s) =>
    match readPlainChoice Action.choices s with
    | .error f => .error f
    | .ok (a, s) =>
      match nextItem false s with
      | .error f => .error f
      | .ok (.done s) => .error (.misfit (.wrongLength 1 typeName) s)
      | .ok (.item s) =>
        match readNode budget a s with
        | .error f => .error f
        | .ok (e, s) =>
          match Bracket.list.readEnd s with
          | .error f => .error f
          | .ok s => .ok (e, s)

def read (budget : Nat) : Step (Edit α) := fun s =>
  match skipBlank s, budget with
  | '[' :: s, 0 => .error (.next .tooDeep ('[' :: s))
  | '\x7b' :: s, 0 => .error (.next .tooDeep ('\x7b' :: s))
  | '[' :: s, budget + 1 => readList budget s
  | '\x7b' :: s, budget + 1 =>
    match readMembers (take budget) .nothing s with
    | .error f => .error f
    | .ok (d, s) =>
      match d.finish with
      | .error m => .error (.misfit m s)
      | .ok e => .ok (e, s)
  | s, _ => .error (misfitAt typeName s)

/-- The edit of the members of an object, after what has been read. -/
def ofMembers (d : Draft α) : List (String × Json) → Except Mismatch (Edit α)
  | [] => d.finish
  | (key, v) :: members =>
    if key = "kind" then
      match d with
      | .nothing =>
        match JsonForm.ofJson v with
        | .error m => .error m
        | .ok a => ofMembers (.kind a) members
      | .node node =>
        match JsonForm.ofJson v with
        | .error m => .error m
        | .ok a =>
          match ofNode a node with
          | .error m => .error m
          | .ok e => ofMembers (.complete e) members
      | .kind _ => .error (.duplicateField "kind")
      | .complete _ => .error (.duplicateField "kind")
    else if key = "node" then
      match d with
      | .nothing => ofMembers (.node v) members
      | .kind a =>
        match ofNode a v with
        | .error m => .error m
        | .ok e => ofMembers (.complete e) members
      | .node _ => .error (.duplicateField "node")
      | .complete _ => .error (.duplicateField "node")
    else ofMembers d members

def ofText (α : Type) [JsonForm α] (text : String) : Except ParseError (Edit α) :=
  parse (read Json.depthLimit) text

end Edit

namespace EditRecord

variable {α : Type} [JsonForm α]

def toJson (r : EditRecord α) : Json :=
  .obj (("anchor", TreeEdits.toJson r.anchor) :: r.edit.members)

def typeName : String := "struct EditRecord"

/-- What has been read of a record: the anchor, and the other members, latest first. -/
structure Draft where
  anchor : Option NodeId
  others : List (String × Json)

/-- Takes a member of a record. Only the anchor is looked into. -/
def take (budget : Nat) : Members Draft := fun d key =>
  if key = "anchor" then
    if d.anchor.isSome then .error (.duplicateField "anchor")
    else .ok fun s =>
      match JsonForm.read budget s with
      | .error f => .error f
      | .ok (a, s) => .ok ({ d with anchor := some a }, s)
  else .ok fun s =>
    match Json.read budget s with
    | .error f => .error f
    | .ok (v, s) => .ok ({ d with others := (key, v) :: d.others }, s)

/-- The record of all that has been read: the anchor is looked for first. -/
def Draft.finish (d : Draft) : Except Mismatch (EditRecord α) :=
  match d.anchor with
  | none => .error (.missingField "anchor")
  | some anchor =>
    match Edit.ofMembers .nothing d.others.reverse with
    | .error m => .error m
    | .ok e => .ok ⟨anchor, e⟩

def read (budget : Nat) : Step (EditRecord α) := fun s =>
  match skipBlank s, budget with
  | '\x7b' :: s, 0 => .error (.next .tooDeep ('\x7b' :: s))
  | '\x7b' :: s, budget + 1 =>
    match readMembers (take budget) ⟨none, []⟩ s with
    | .error f => .error f
    | .ok (d, s) =>
      match (d.finish : Except Mismatch (EditRecord α)) with
      | .error m => .error (.misfit m s)
      | .ok r => .ok (r, s)
  | s, _ => .error (misfitAt typeName s)

def ofText (α : Type) [JsonForm α] (text : String) : Except ParseError (EditRecord α) :=
  parse (read Json.depthLimit) text

end EditRecord
end TreeEdits
