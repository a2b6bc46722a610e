import TreeEdits.Edit.Json
import TreeEdits.Failure

/-!
# TreeEdits.Report.Failure

The report of a run that failed: status, version, and the code, the message and the anchor of the
failure. The anchor is left out if there is none. Reports can be read back.

* `ErrorInfo.ofFailure`, `FailureReport.ofFailure`: the report of a failure.
* `FailureReport.toJson`, `FailureReport.ofText`: its form.
-/

namespace TreeEdits

def schemaVersion : String := "1"

structure ErrorInfo where
  code : UInt8
  message : String
  anchor : Option NodeId
deriving DecidableEq

namespace ErrorInfo

def ofFailure (f : Failure) : ErrorInfo := ⟨f.code.number, f.message, f.anchor⟩

def toJson (e : ErrorInfo) : Json :=
  .obj ([("code", .nat e.code.toNat), ("message", .str e.message)]
    ++ match e.anchor with
      | none => []
      | some a => [("anchor", TreeEdits.toJson a)])

def typeName : String := "struct ErrorInfo"

structure Draft where
  code : Option UInt8
  message : Option String
  anchor : Option (Option NodeId)

/-- The description, of which only the anchor may be missing. -/
def Draft.finish : Draft → Except Mismatch ErrorInfo
  | ⟨none, _, _⟩ => .error (.missingField "code")
  | ⟨_, none, _⟩ => .error (.missingField "message")
  | ⟨some code, some message, anchor⟩ => .ok ⟨code, message, anchor.getD none⟩

def readCode : Step UInt8 := fun s =>
  match readNatural UInt8.size "u8" s with
  | .error f => .error f
  | .ok (n, s) => .ok (n.toUInt8, s)

/-- The fields of the description of an error. A list has to give all of them. -/
def record (budget : Nat) : Record Draft ErrorInfo where
  fields := [
    .of "code" Draft.code (fun n d => { d with code := some n }) readCode false,
    .of "message" Draft.message (fun t d => { d with message := some t }) readString false,
    .of "anchor" Draft.anchor (fun a d => { d with anchor := some a })
      (readOption (JsonForm.read budget)) false]
  start := ⟨none, none, none⟩
  finish := Draft.finish

def read : Nat → Step ErrorInfo
  | 0 => Record.read typeName (none : Option (Record Draft ErrorInfo))
  | budget + 1 => Record.read typeName (some (record budget))

def ofText (text : String) : Except ParseError ErrorInfo := parse (read Json.depthLimit) text

end ErrorInfo

structure FailureReport where
  status : String
  schemaVersion : String
  error : ErrorInfo
deriving DecidableEq

namespace FailureReport

def ofFailure (f : Failure) : FailureReport :=
  ⟨"error", TreeEdits.schemaVersion, .ofFailure f⟩

def toJson (r : FailureReport) : Json :=
  .obj [("status", .str r.status), ("schema_version", .str r.schemaVersion),
    ("error", r.error.toJson)]

def typeName : String := "struct ErrorResponse"

structure Draft where
  status : Option String
  schemaVersion : Option String
  error : Option ErrorInfo

def Draft.finish : Draft → Except Mismatch FailureReport
  | ⟨none, _, _⟩ => .error (.missingField "status")
  | ⟨_, none, _⟩ => .error (.missingField "schema_version")
  | ⟨_, _, none⟩ => .error (.missingField "error")
  | ⟨some status, some version, some error⟩ => .ok ⟨status, version, error⟩

def record (budget : Nat) : Record Draft FailureReport where
  fields := [
    .of "status" Draft.status (fun t d => { d with status := some t }) readString false,
    .of "schema_version" Draft.schemaVersion (fun t d => { d with schemaVersion := some t })
      readString false,
    .of "error" Draft.error (fun e d => { d with error := some e }) (ErrorInfo.read budget) false]
  start := ⟨none, none, none⟩
  finish := Draft.finish

def read : Nat → Step FailureReport
  | 0 => Record.read typeName (none : Option (Record Draft FailureReport))
  | budget + 1 => Record.read typeName (some (record budget))

def ofText (text : String) : Except ParseError FailureReport := parse (read Json.depthLimit) text

end FailureReport

end TreeEdits
