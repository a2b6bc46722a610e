import TreeEdits.Json.Write
import TreeEdits.Report.Counts
import TreeEdits.Report.Failure
import TreeEdits.Session.Json
import TreeEdits.Tree.Json
import TreeEdits.Walk

/-!
# TreeEdits.Report

The report of a run that gave records: the mode, how the walk ended, the records and their counts.
Every report begins with a status and the version of its form.

* `RecordReport.toJson`: its form.
* `emit`: a report as it is printed.
-/

namespace TreeEdits

structure RecordReport where
  mode : Mode
  walk : WalkSummary
  records : List (EditRecord Tree)

namespace RecordReport

def counts (r : RecordReport) : EditCounts := .ofRecords r.records

def toJson (r : RecordReport) : Json :=
  .obj [("status", .str "ok"), ("schema_version", .str schemaVersion),
    ("mode", TreeEdits.toJson r.mode), ("visited", .nat r.walk.visited),
    ("stopped", .bool r.walk.stopped), ("records", .arr (r.records.map EditRecord.toJson)),
    ("summary", r.counts.toJson)]

end RecordReport

/-- A report as it is printed: on one line or on indented lines, and a line feed. -/
def emit (compact : Bool) (report : Json) : String :=
  (if compact then report.compact else report.pretty) ++ "\n"

end TreeEdits
