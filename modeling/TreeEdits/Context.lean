import TreeEdits.Buffer

/-!
# TreeEdits.Context

The state of one visit and the recording of edits through it. An edit of the visited node queues one
record; only a repeated change differs: one visit after the other, it takes the place of the record
that the first change queued, and side by side it is rejected. A rejected edit changes nothing.

* `Context.recordSequential`, `Context.recordParallel`: an edit recorded in either buffer.
* `Context.record`: the same for the buffer of any pass.
-/

namespace TreeEdits

/-- One visit: the node as it stands, and whether it was changed or marked for deletion. -/
structure Context (α : Type) where
  view : EditView α
  edited : Bool
  deleted : Bool
deriving DecidableEq

/-- What recording an edit gives: what the visit may do next or why the edit was refused, and the
visit and the buffer after it. -/
structure Outcome (α β : Type) where
  result : Except EditError Control
  context : Context α
  buffer : β

namespace Context

variable {α : Type}

def enter (anchor : NodeId) (node : α) : Context α := ⟨⟨anchor, node⟩, false, false⟩

def anchor (c : Context α) : NodeId := c.view.anchor

def node (c : Context α) : α := c.view.node

/-- The visit after an edit was recorded: a change shows in the node, a deletion in its flag. -/
def advance (c : Context α) : Edit α → Context α
  | .replace node => { c with view := { c.view with node := node }, edited := true }
  | .delete => { c with deleted := true }
  | .insertBefore _ => c
  | .insertAfter _ => c

/-- Records an edit one visit after the other. -/
def recordSequential (c : Context α) (b : SequentialBuffer α) (e : Edit α) :
    Outcome α (SequentialBuffer α) :=
  if e.isReplace ∧ c.edited then
    match b.overwrite (c.view.record e) with
    | .ok b => ⟨.ok .proceed, c.advance e, b⟩
    | .error err => ⟨.error err, c, b⟩
  else ⟨.ok .proceed, c.advance e, b.push (c.view.record e)⟩

/-- Records an edit side by side with other visits. -/
def recordParallel (c : Context α) (b : ParallelBuffer α) (e : Edit α) :
    Outcome α (ParallelBuffer α) :=
  if e.isReplace ∧ c.edited then ⟨.error (.conflict c.anchor), c, b⟩
  else ⟨.ok .proceed, c.advance e, b.push (c.view.record e)⟩

def record (c : Context α) (b : EditBuffer α) (e : Edit α) : Outcome α (EditBuffer α) :=
  match b with
  | .sequential b =>
    let o := c.recordSequential b e
    ⟨o.result, o.context, .sequential o.buffer⟩
  | .parallel b =>
    let o := c.recordParallel b e
    ⟨o.result, o.context, .parallel o.buffer⟩

@[simp] theorem anchor_advance (c : Context α) (e : Edit α) :
    (c.advance e).anchor = c.anchor := by
  cases e <;> rfl

/-- Recording never changes the kind of buffer. -/
theorem mode_record (c : Context α) (b : EditBuffer α) (e : Edit α) :
    (c.record b e).buffer.mode = b.mode := by
  cases b <;> rfl

/-- Any edit but a repeated change is queued, in a pass of either mode. -/
theorem record_of_first {c : Context α} {e : Edit α} (h : ¬(e.isReplace = true ∧ c.edited = true))
    (b : EditBuffer α) : c.record b e = ⟨.ok .proceed, c.advance e, b.push ⟨c.anchor, e⟩⟩ := by
  cases b with
  | sequential b =>
    rw [record, recordSequential, if_neg h]
    rfl
  | parallel b =>
    rw [record, recordParallel, if_neg h]
    rfl

theorem record_of_repeated {c : Context α} {e : Edit α} (h : e.isReplace = true ∧ c.edited = true)
    {b : EditBuffer α} (hb : b.mode = .parallel) :
    c.record b e = ⟨.error (.conflict c.anchor), c, b⟩ := by
  cases b with
  | sequential b => cases hb
  | parallel b => rw [record, recordParallel, if_pos h]

end Context
end TreeEdits
