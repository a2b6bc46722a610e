import TreeEdits.Report
import TreeEdits.Script.Json

/-!
# TreeEdits.Recording

A whole run: a tree is walked with the editor of a script, and what was queued is reported.
Records of visits side by side arrive in any order, so they are sorted by anchor; records of one
anchor stay in order.

* `record`, `recordTexts`: a run over a tree and a script, and over their texts.
* `Exit`: what the program prints and its status.
-/

namespace TreeEdits

/-- Records in the order of a report. -/
def reportOrder (m : Mode) (rs : List (EditRecord Tree)) : List (EditRecord Tree) :=
  match m with
  | .sequential => rs
  | .parallel => rs.mergeSort fun a b => decide (a.anchor ≤ b.anchor)

/-- Walks a tree with a script in a new session. -/
def record (t : Tree) (script : Script) (o : Options) : Except Failure RecordReport :=
  let hint := if o.capacityHint = 0 then t.size else o.capacityHint
  let w := (Session.start ⟨o.mode, hint⟩).walk t script.editor
  match w.result with
  | .error f => .error f
  | .ok summary => .ok ⟨o.mode, summary, reportOrder o.mode w.session.records⟩

/-- A run over texts. The tree is read first, then the script, then the options if there are any. -/
def recordTexts (tree script : String) (options : Option String) : Except Failure RecordReport :=
  match Tree.ofText tree with
  | .error e => .error (.ofParseError e)
  | .ok t =>
    match Script.ofText script with
    | .error f => .error f
    | .ok script =>
      match options with
      | none => record t script default
      | some text =>
        match Options.ofText text with
        | .error e => .error (.ofParseError e)
        | .ok o => record t script o

/-- A status and what is printed. -/
structure Exit where
  status : UInt8
  output : String

/-- The end of a run: its report, and zero or the code of its failure. -/
def Exit.ofRun (compact : Bool) : Except Failure RecordReport → Exit
  | .ok r => ⟨0, emit compact r.toJson⟩
  | .error f => ⟨f.code.number, emit compact (FailureReport.ofFailure f).toJson⟩

end TreeEdits
