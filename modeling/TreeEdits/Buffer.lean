import TreeEdits.Edit
import TreeEdits.Failure
import TreeEdits.Mode
import Std.Data.HashMap

/-!
# TreeEdits.Buffer

Where the records of a pass are queued. A pass that visits one node after the other keeps, beside
the records, the place of the latest replace record of each anchor, and can write over that record.
A pass that visits nodes side by side can only add records.

* `SequentialBuffer.push`, `SequentialBuffer.overwrite`, `SequentialBuffer.replaceRecord?`.
* `ParallelBuffer.push`.
* `EditBuffer`: either of them, chosen by the mode of the pass.
-/

namespace TreeEdits

/-- Records in the order in which they were queued, and where the replace record of each anchor is.
-/
structure SequentialBuffer (α : Type) where
  records : Array (EditRecord α)
  place : Std.HashMap NodeId Nat

namespace SequentialBuffer

variable {α : Type}

def empty : SequentialBuffer α := ⟨#[], ∅⟩

def size (b : SequentialBuffer α) : Nat := b.records.size

/-- Adds a record at the end. A replace record becomes the one that its anchor is known by. -/
def push (b : SequentialBuffer α) (r : EditRecord α) : SequentialBuffer α where
  records := b.records.push r
  place := if r.isReplace then b.place.insert r.anchor b.records.size else b.place

/-- The replace record that an anchor is known by. -/
def replaceRecord? (b : SequentialBuffer α) (a : NodeId) : Option (EditRecord α) :=
  match b.place[a]? with
  | some i => b.records[i]?
  | none => none

/-- Puts a record in the place of the replace record of its anchor. -/
def overwrite (b : SequentialBuffer α) (r : EditRecord α) :
    Except EditError (SequentialBuffer α) :=
  match b.place[r.anchor]? with
  | some i =>
    if h : i < b.records.size then .ok { b with records := b.records.set i r h }
    else .error (.missingReplace r.anchor)
  | none => .error (.missingReplace r.anchor)

end SequentialBuffer

/-- Records in the order in which they arrived. Their number is counted apart from them. -/
structure ParallelBuffer (α : Type) where
  records : Array (EditRecord α)
  count : Nat
  count_eq : count = records.size

namespace ParallelBuffer

variable {α : Type}

def empty : ParallelBuffer α := ⟨#[], 0, rfl⟩

def size (b : ParallelBuffer α) : Nat := b.count

def push (b : ParallelBuffer α) (r : EditRecord α) : ParallelBuffer α where
  records := b.records.push r
  count := b.count + 1
  count_eq := by rw [b.count_eq, Array.size_push]

theorem size_eq_length (b : ParallelBuffer α) : b.size = b.records.toList.length :=
  b.count_eq.trans Array.length_toList.symm

end ParallelBuffer

inductive EditBuffer (α : Type) where
  | sequential (b : SequentialBuffer α)
  | parallel (b : ParallelBuffer α)

namespace EditBuffer

variable {α : Type}

def ofMode : Mode → EditBuffer α
  | .sequential => .sequential .empty
  | .parallel => .parallel .empty

def mode : EditBuffer α → Mode
  | sequential _ => .sequential
  | parallel _ => .parallel

/-- The buffer that visits side by side may share. -/
def shared? : EditBuffer α → Option (ParallelBuffer α)
  | sequential _ => none
  | parallel b => some b

def records : EditBuffer α → List (EditRecord α)
  | sequential b => b.records.toList
  | parallel b => b.records.toList

def size : EditBuffer α → Nat
  | sequential b => b.size
  | parallel b => b.size

def isEmpty (b : EditBuffer α) : Bool := b.size == 0

def push : EditBuffer α → EditRecord α → EditBuffer α
  | sequential b, r => .sequential (b.push r)
  | parallel b, r => .parallel (b.push r)

@[simp] theorem records_ofMode (m : Mode) : (ofMode m : EditBuffer α).records = [] := by
  cases m <;> rfl

@[simp] theorem mode_ofMode (m : Mode) : (ofMode m : EditBuffer α).mode = m := by
  cases m <;> rfl

@[simp] theorem length_records (b : EditBuffer α) : b.records.length = b.size := by
  cases b with
  | sequential b => exact Array.length_toList
  | parallel b => exact b.size_eq_length.symm

@[simp] theorem records_push (b : EditBuffer α) (r : EditRecord α) :
    (b.push r).records = b.records ++ [r] := by
  cases b <;> simp [push, records, SequentialBuffer.push, ParallelBuffer.push]

@[simp] theorem mode_push (b : EditBuffer α) (r : EditRecord α) : (b.push r).mode = b.mode := by
  cases b <;> rfl

end EditBuffer
end TreeEdits
