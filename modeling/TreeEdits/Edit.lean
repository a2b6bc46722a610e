import TreeEdits.NodeId

/-!
# TreeEdits.Edit

Edits and edit records. An edit says what becomes of a node: another node takes its place, it goes
away, or a sibling is put before or after it. A record attaches an edit to a node. Records are
values; a pending edit changes only by another record that is derived for the same node.

* `Action`: the four kinds of edit, with their names.
* `Edit`, `EditRecord`: an edit with the node it carries, and an edit with its anchor.
* `EditView`: a node as it stands during a visit, from which records are derived.
-/

namespace TreeEdits

inductive Action where
  | replace
  | delete
  | insertBefore
  | insertAfter
deriving DecidableEq

namespace Action

def name : Action → String
  | replace => "replace"
  | delete => "delete"
  | insertBefore => "insert_before"
  | insertAfter => "insert_after"

def takesNode : Action → Bool
  | delete => false
  | _ => true

def choices : List (String × Action) :=
  [replace, delete, insertBefore, insertAfter].map fun a => (a.name, a)

end Action

inductive Edit (α : Type) where
  | replace (node : α)
  | delete
  | insertBefore (sibling : α)
  | insertAfter (sibling : α)
deriving DecidableEq

namespace Edit

variable {α : Type}

def action : Edit α → Action
  | replace _ => .replace
  | delete => .delete
  | insertBefore _ => .insertBefore
  | insertAfter _ => .insertAfter

def node? : Edit α → Option α
  | replace node => some node
  | delete => none
  | insertBefore sibling => some sibling
  | insertAfter sibling => some sibling

def isInsertion : Edit α → Bool
  | insertBefore _ => true
  | insertAfter _ => true
  | _ => false

def isReplace : Edit α → Bool
  | replace _ => true
  | _ => false

/-- The edit of a kind with a node, if the kind takes one exactly when there is one. -/
def of? : Action → Option α → Option (Edit α)
  | .replace, some node => some (.replace node)
  | .delete, none => some .delete
  | .insertBefore, some node => some (.insertBefore node)
  | .insertAfter, some node => some (.insertAfter node)
  | _, _ => none

end Edit

/-- An edit attached to a node. -/
structure EditRecord (α : Type) where
  anchor : NodeId
  edit : Edit α
deriving DecidableEq

namespace EditRecord

variable {α : Type}

def isReplace (r : EditRecord α) : Bool := r.edit.isReplace

/-- The record that puts `node` in the place of the same anchor. -/
def withNode (r : EditRecord α) (node : α) : EditRecord α := ⟨r.anchor, .replace node⟩

end EditRecord

/-- A node during its visit. The anchor is fixed, the node is what it has become so far. -/
structure EditView (α : Type) where
  anchor : NodeId
  node : α
deriving DecidableEq

namespace EditView

variable {α : Type}

def record (v : EditView α) (e : Edit α) : EditRecord α := ⟨v.anchor, e⟩

def withNode (v : EditView α) (node : α) : EditRecord α := v.record (.replace node)

def asDelete (v : EditView α) : EditRecord α := v.record .delete

def asInsertBefore (v : EditView α) (sibling : α) : EditRecord α := v.record (.insertBefore sibling)

def asInsertAfter (v : EditView α) (sibling : α) : EditRecord α := v.record (.insertAfter sibling)

end EditView
end TreeEdits
