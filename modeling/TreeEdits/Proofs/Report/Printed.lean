import TreeEdits.Proofs.Json.Stripped
import TreeEdits.Report

/-!
# TreeEdits.Proofs.Report.Printed

Reports as they are printed. A line feed ends them in either layout. The compact one has no other,
and no other control character, whatever stands in its literals: it is a single line. The pretty one
is that line with whitespace between the tokens.

* `laidOut_emit`: what is printed is the value in some layout.
* `OnOneLine`: the two layouts of a value as a line and a spaced line. Those of all values are
  (`onOneLine`).
* `reports_on_one_line`: reports of runs and of failures.
-/

namespace TreeEdits

theorem laidOut_emit (compact : Bool) (v : Json) : v.LaidOut (emit compact v) := by
  have hend : Blank ['\n'] := by
    intro c hc
    rw [List.mem_singleton.1 hc]
    rfl
  have htext : v.LaidOut (if compact then v.compact else v.pretty) := by
    cases compact with
    | true => exact Json.laidOut_compact v
    | false => exact Json.laidOut_pretty v
  rw [Json.LaidOut, emit, String.toList_append]
  exact Spaced.append_blank htext hend

theorem toList_emit_compact (v : Json) : (emit true v).toList = v.write .compact 0 ++ ['\n'] := by
  rw [emit, if_pos rfl, Json.compact, String.toList_append, String.toList_ofList]
  rfl

/-- Compact, the value is printed as a line without control characters and the line feed at its end;
pretty, it is that line once the whitespace outside of the literals is taken away. -/
def OnOneLine (white : Char → Bool) (v : Json) : Prop :=
  ∃ line, (emit true v).toList = line ++ ['\n'] ∧ (∀ c ∈ line, 0x20 ≤ c.toNat) ∧
    strip white .outside (emit false v).toList = line

variable {white : Char → Bool}

/-- The line is made of the tokens, which hold all that is in the literals. -/
theorem onOneLine (hwhite : Whitespace white) (v : Json) : OnOneLine white v := by
  have hfirm := v.firm_of_mem_tokens
  -- Line feeds in a literal are written as escapes, so no token has one.
  refine ⟨v.tokens.flatten, ?_, ?_, ?_⟩
  · rw [toList_emit_compact, v.write_compact]
  · intro c hc
    obtain ⟨t, ht, hc⟩ := List.mem_flatten.1 hc
    exact (hfirm t ht).low_le c hc
  · exact (laidOut_emit false v).strip hwhite hfirm

/-- The form of a report under any status and version, with any counts. -/
def RecordReport.formWith (status version : String) (counts : EditCounts) (r : RecordReport) :
    Json :=
  .obj [("status", .str status), ("schema_version", .str version),
    ("mode", TreeEdits.toJson r.mode), ("visited", .nat r.walk.visited),
    ("stopped", .bool r.walk.stopped), ("records", .arr (r.records.map EditRecord.toJson)),
    ("summary", counts.toJson)]

/-- Every report of a run, whatever its records, and every report of a failure is printed on one
line that ends with the only line feed, or on several that differ from it in whitespace outside of
the literals. -/
theorem reports_on_one_line (hwhite : Whitespace white) :
    (∀ r : RecordReport, OnOneLine white r.toJson ∧
      r.toJson = r.formWith "ok" schemaVersion r.counts ∧
      ∀ status version counts, OnOneLine white (r.formWith status version counts)) ∧
    ∀ r : FailureReport, OnOneLine white r.toJson :=
  ⟨fun r => ⟨onOneLine hwhite r.toJson, rfl, fun _ _ _ => onOneLine hwhite _⟩,
    fun r => onOneLine hwhite r.toJson⟩

/-- A message with whitespace, quotes and a backslash of its own, of which nothing is lost. -/
theorem reports_on_one_line_quoted :
    let r := FailureReport.ofFailure (.invalidArguments "a \"b\\\" c\n\u2028")
    Whitespace isBlank ∧ Whitespace isWhite ∧ OnOneLine isBlank r.toJson ∧
      strip isWhite .outside (emit false r.toJson).toList =
        ("\x7b\"status\":\"error\",\"schema_version\":\"1\",\"error\":\x7b\"code\":2,"
          ++ "\"message\":\"invalid arguments: a \\\"b\\\\\\\" c\\n\u2028\"\x7d\x7d").toList := by
  intro r
  refine ⟨whitespace_isBlank, whitespace_isWhite,
    (reports_on_one_line whitespace_isBlank).2 r, ?_⟩
  obtain ⟨line, hline, -, hstrip⟩ := (reports_on_one_line whitespace_isWhite).2 r
  have hwrite : r.toJson.write .compact 0 =
      ("\x7b\"status\":\"error\",\"schema_version\":\"1\",\"error\":\x7b\"code\":2,"
        ++ "\"message\":\"invalid arguments: a \\\"b\\\\\\\" c\\n\u2028\"\x7d\x7d").toList := by
    decide
  rw [toList_emit_compact, hwrite] at hline
  rw [hstrip]
  exact (List.append_cancel_right hline).symm

end TreeEdits
