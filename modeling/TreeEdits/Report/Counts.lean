import TreeEdits.Edit
import TreeEdits.Json.Read

/-!
# TreeEdits.Report.Counts

Records counted by kind, with their JSON form.

* `EditCounts.ofRecords`: the counts.
* `EditCounts.toJson`, `EditCounts.ofText`: their form.
-/

namespace TreeEdits

structure EditCounts where
  total : Nat
  replace : Nat
  delete : Nat
  insertBefore : Nat
  insertAfter : Nat
deriving DecidableEq

namespace EditCounts

def count {α : Type} (rs : List (EditRecord α)) (a : Action) : Nat :=
  rs.countP fun r => r.edit.action = a

def ofRecords {α : Type} (rs : List (EditRecord α)) : EditCounts where
  total := rs.length
  replace := count rs .replace
  delete := count rs .delete
  insertBefore := count rs .insertBefore
  insertAfter := count rs .insertAfter

def toJson (c : EditCounts) : Json :=
  .obj [("total", .nat c.total), ("replace", .nat c.replace), ("delete", .nat c.delete),
    ("insert_before", .nat c.insertBefore), ("insert_after", .nat c.insertAfter)]

def typeName : String := "struct RecordSummary"

structure Draft where
  total : Option Nat
  replace : Option Nat
  delete : Option Nat
  insertBefore : Option Nat
  insertAfter : Option Nat

/-- The counts, all of which have to be there. -/
def Draft.finish : Draft → Except Mismatch EditCounts
  | ⟨none, _, _, _, _⟩ => .error (.missingField "total")
  | ⟨_, none, _, _, _⟩ => .error (.missingField "replace")
  | ⟨_, _, none, _, _⟩ => .error (.missingField "delete")
  | ⟨_, _, _, none, _⟩ => .error (.missingField "insert_before")
  | ⟨_, _, _, _, none⟩ => .error (.missingField "insert_after")
  | ⟨some t, some r, some d, some b, some a⟩ => .ok ⟨t, r, d, b, a⟩

def record : Record Draft EditCounts where
  fields :=
    let count := readNatural wordLimit "usize"
    [.of "total" Draft.total (fun n d => { d with total := some n }) count false,
      .of "replace" Draft.replace (fun n d => { d with replace := some n }) count false,
      .of "delete" Draft.delete (fun n d => { d with delete := some n }) count false,
      .of "insert_before" Draft.insertBefore (fun n d => { d with insertBefore := some n }) count
        false,
      .of "insert_after" Draft.insertAfter (fun n d => { d with insertAfter := some n }) count
        false]
  start := ⟨none, none, none, none, none⟩
  finish := Draft.finish

def ofText (text : String) : Except ParseError EditCounts :=
  parse (Record.read typeName (some record)) text

end EditCounts

end TreeEdits
