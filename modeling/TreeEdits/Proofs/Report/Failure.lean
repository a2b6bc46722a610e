import TreeEdits.Proofs.Edit.Form
import TreeEdits.Proofs.Report.Printed
import TreeEdits.Recording

/-!
# TreeEdits.Proofs.Report.Failure

Reports of failures off their texts. A report is read back in every layout, whatever stands in its
message, and what is in it is what the program fails with. The anchor is a member of the text
exactly if the failure has one.

* `ErrorInfo.reads`, `FailureReport.reads`: a report by its members.
* `FailureReport.plain_toJson`: read without its fields in mind, the text is its form.
* `Tells`: a text says a code, a message and an anchor.
* `Failure.Reported`: the texts of a failure, and the end of the program, say them.
* `Failure.reported`: what is said of each kind of failure.
-/

namespace TreeEdits

/-- What an object holds under a key. -/
def Json.member? (key : String) : Json → Option Json
  | obj ms => ms.lookup key
  | _ => none

variable {budget : Nat}

/-- A number is no `null`, so it is read as an anchor that is there. -/
theorem reads_anchor (a : NodeId) :
    Reads (readOption (JsonForm.read budget)) (toJson a).tokens (some a) := by
  have hreads := reads_nodeId budget a
  obtain ⟨c, ds, htokens, hc⟩ : ∃ c ds, (toJson a).tokens = [c :: ds] ∧ c.isDigit = true :=
    Json.tokens_nat (nodeId_lt_wordLimit a)
  rw [htokens] at hreads ⊢
  exact hreads.option (isBlank_eq_false_of_isDigit hc) (by rintro rfl; cases hc)

namespace ErrorInfo

theorem reads_code (code : UInt8) : Reads readCode (Json.nat code.toNat).tokens code :=
  (reads_natural "u8" (by decide) code.toNat_lt).imp fun hread => by simp [readCode, hread]

theorem reads (e : ErrorInfo) : Reads (read (budget + 1)) e.toJson.tokens e := by
  obtain ⟨code, message, anchor⟩ := e
  cases anchor with
  | none =>
    exact Record.reads typeName (Record.taken_field rfl rfl (reads_code code)
      (Record.taken_field rfl rfl (reads_string message) (.nil _))) rfl
  | some a =>
    exact Record.reads typeName (Record.taken_field rfl rfl (reads_code code)
      (Record.taken_field rfl rfl (reads_string message)
        (Record.taken_field rfl rfl (reads_anchor a) (.nil _)))) rfl

theorem plain_toJson (e : ErrorInfo) : e.toJson.Plain := by
  have hcode : (Json.nat e.code.toNat).Plain := .nat (Nat.lt_trans e.code.toNat_lt (by decide))
  refine .obj (List.forall_mem_cons.2 ⟨hcode, List.forall_mem_cons.2 ⟨.str _, ?_⟩⟩)
  cases e.anchor with
  | none => exact fun _ hm => nomatch hm
  | some a => exact List.forall_mem_singleton.2 (plain_nodeId a)

theorem depth_toJson (e : ErrorInfo) : e.toJson.depth = 1 := by
  obtain ⟨code, message, anchor⟩ := e
  cases anchor <;> rfl

theorem member?_anchor (e : ErrorInfo) :
    e.toJson.member? "anchor" = e.anchor.map fun a => .nat a.index.toNat := by
  obtain ⟨code, message, anchor⟩ := e
  cases anchor <;> rfl

end ErrorInfo

namespace FailureReport

theorem reads (r : FailureReport) : Reads (read (budget + 2)) r.toJson.tokens r :=
  Record.reads typeName (Record.taken_field rfl rfl (reads_string r.status)
    (Record.taken_field rfl rfl (reads_string r.schemaVersion)
      (Record.taken_field rfl rfl r.error.reads (.nil _)))) rfl

theorem plain_toJson (r : FailureReport) : r.toJson.Plain :=
  .obj (List.forall_mem_cons.2 ⟨.str _, List.forall_mem_cons.2 ⟨.str _,
    List.forall_mem_singleton.2 r.error.plain_toJson⟩⟩)

theorem depth_toJson (r : FailureReport) : r.toJson.depth = 2 := by
  simp only [toJson, Json.depth, Json.depthMembers, ErrorInfo.depth_toJson]
  rfl

end FailureReport

/-- A text says a code, a message and an anchor: it is read back as the report of them, and has them
as members. Without an anchor there is no such member. -/
structure Tells (text : String) (code : UInt8) (message : String) (anchor : Option NodeId) :
    Prop where
  read : FailureReport.ofText text = .ok ⟨"error", "1", ⟨code, message, anchor⟩⟩
  members : ∃ v e, parse (Json.read Json.depthLimit) text = .ok v ∧
    v.member? "status" = some (.str "error") ∧ v.member? "schema_version" = some (.str "1") ∧
    v.member? "error" = some e ∧ e.member? "code" = some (.nat code.toNat) ∧
    e.member? "message" = some (.str message) ∧
    e.member? "anchor" = anchor.map fun a => .nat a.index.toNat

variable {text message : String} {code : UInt8} {anchor : Option NodeId}

theorem tells_of_laidOut
    (h : (FailureReport.mk "error" "1" ⟨code, message, anchor⟩).toJson.LaidOut text) :
    Tells text code message anchor where
  read := (FailureReport.reads _).parse h
  members := by
    refine ⟨_, (ErrorInfo.mk code message anchor).toJson,
      ((FailureReport.plain_toJson _).reads ?_).parse h, rfl, rfl, rfl, rfl, rfl,
      ErrorInfo.member?_anchor _⟩
    rw [FailureReport.depth_toJson]
    decide

namespace Failure

/-- A failure is reported by a code, a message and an anchor. The compact text and the pretty text
of its report say them, what the program prints says them, and the program exits with the code. -/
structure Reported (f : Failure) (code : UInt8) (message : String) (anchor : Option NodeId) :
    Prop where
  report : FailureReport.ofFailure f = ⟨"error", "1", ⟨code, message, anchor⟩⟩
  compact : Tells (FailureReport.ofFailure f).toJson.compact code message anchor
  pretty : Tells (FailureReport.ofFailure f).toJson.pretty code message anchor
  printed : ∀ compact, Tells (Exit.ofRun compact (.error f)).output code message anchor
  exits : ∀ compact, (Exit.ofRun compact (.error f)).status = code

theorem reported_of_report {f : Failure}
    (h : FailureReport.ofFailure f = ⟨"error", "1", ⟨code, message, anchor⟩⟩) :
    f.Reported code message anchor where
  report := h
  compact := tells_of_laidOut (h ▸ Json.laidOut_compact _)
  pretty := tells_of_laidOut (h ▸ Json.laidOut_pretty _)
  printed compact := tells_of_laidOut (h ▸ laidOut_emit compact _)
  exits _ := congrArg (fun r : FailureReport => r.error.code) h

/-- Every failure is reported by the code of its kind and by its message. A conflict is reported
with the node it is at, an internal failure with the node that it has, if any, and no other failure
with a node. -/
theorem reported :
    (∀ reason, (invalidArguments reason).Reported 2 ("invalid arguments: " ++ reason) none) ∧
    (∀ path, (fileNotFound path).Reported 3 ("file not found: " ++ path) none) ∧
    (∀ a reason, (editConflict a reason).Reported 4
      ("edit conflict at node_" ++ toString a.index.toNat ++ ": " ++ reason) (some a)) ∧
    (∀ reason, (internal reason none).Reported 10 ("internal error: " ++ reason) none) ∧
    ∀ reason a,
      (internal reason (some a)).Reported 10 ("internal error: " ++ reason) (some a) := by
  refine ⟨?invalidArguments, ?fileNotFound, ?editConflict, ?internal, ?internalAt⟩
  case invalidArguments => exact fun reason => reported_of_report rfl
  case fileNotFound => exact fun path => reported_of_report rfl
  case editConflict =>
    intro a reason
    have hname : "edit conflict at node_" ++ toString a.index.toNat =
        "edit conflict at " ++ a.name := by
      rw [NodeId.name, ← String.append_assoc]
      rfl
    rw [hname]
    exact reported_of_report rfl
  case internal => exact fun reason => reported_of_report rfl
  case internalAt => exact fun reason a => reported_of_report rfl

/-- A conflict at a node, which both layouts say, and a missing file, for which they say none. -/
theorem reported_conflict :
    let conflict := editConflict ⟨7⟩ "changed"
    let missing := fileNotFound "t.json"
    conflict.Reported 4 "edit conflict at node_7: changed" (some ⟨7⟩) ∧
      (FailureReport.ofFailure conflict).toJson.compact =
        "\x7b\"status\":\"error\",\"schema_version\":\"1\",\"error\":\x7b\"code\":4,"
          ++ "\"message\":\"edit conflict at node_7: changed\",\"anchor\":7\x7d\x7d" ∧
      (FailureReport.ofFailure conflict).toJson.pretty =
        "\x7b\n  \"status\": \"error\",\n  \"schema_version\": \"1\",\n  \"error\": \x7b\n"
          ++ "    \"code\": 4,\n    \"message\": \"edit conflict at node_7: changed\",\n"
          ++ "    \"anchor\": 7\n  \x7d\n\x7d" ∧
    missing.Reported 3 "file not found: t.json" none ∧
      (FailureReport.ofFailure missing).toJson.compact =
        "\x7b\"status\":\"error\",\"schema_version\":\"1\",\"error\":\x7b\"code\":3,"
          ++ "\"message\":\"file not found: t.json\"\x7d\x7d" ∧
      (FailureReport.ofFailure missing).toJson.pretty =
        "\x7b\n  \"status\": \"error\",\n  \"schema_version\": \"1\",\n  \"error\": \x7b\n"
          ++ "    \"code\": 3,\n    \"message\": \"file not found: t.json\"\n  \x7d\n\x7d" := by
  intro conflict missing
  obtain ⟨-, hmissing, hconflict, -⟩ := reported
  refine ⟨hconflict ⟨7⟩ "changed", ?_, ?_, hmissing "t.json", ?_, ?_⟩
  all_goals decide +kernel

end Failure

end TreeEdits
