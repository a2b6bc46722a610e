import TreeEdits.Proofs.Recording.Carried
import TreeEdits.Proofs.Report.Printed

/-!
# TreeEdits.Proofs.Report.Nesting

How deep the report of a run nests. The report, its list and a record each open a bracket around a
node, where a script opens only two. So a report nests one deeper than the script it comes from, and
the highest nodes that a script can hold do not fit into a report that is to be read again.

* `EditRecord.depth_toJson_le_iff`, `RecordReport.depth_toJson_le_iff`: records and reports by the
  nodes they carry.
* `RecordReport.reads_back`, `RecordReport.refused`: a report within the limit on brackets, and one
  beyond it.
* `report_nesting`: the reports of runs, and exactly which of them are within the limit.
* `record_towerScript_too_deep`: one that is not.
-/

namespace TreeEdits

namespace EditRecord

theorem depth_toJson_le_iff {q : EditRecord Tree} {n : Nat} :
    q.toJson.depth ≤ n + 1 ↔ ∀ x ∈ q.edit.node?, x.toJson.depth ≤ n := by
  obtain ⟨anchor, e⟩ := q
  simp only [toJson, Json.depth, Nat.add_le_add_iff_right, Json.depthMembers_le_iff]
  cases hx : e.node? with
  | none => simp [Edit.members, hx, JsonForm.toJson, Json.nat, Json.depth]
  | some x => simp [Edit.members_of_node hx, JsonForm.toJson, Json.nat, Json.depth]

theorem plain_toJson (q : EditRecord Tree) : q.toJson.Plain := by
  refine .obj (List.forall_mem_cons.2 ⟨plain_nodeId q.anchor, ?_⟩)
  rw [Edit.members]
  cases q.edit.node? with
  | none => exact List.forall_mem_singleton.2 (.str _)
  | some x =>
    have hx : (JsonForm.toJson x).Plain := (Tree.form_toJson x).plain
    exact List.forall_mem_cons.2 ⟨.str _, List.forall_mem_singleton.2 hx⟩

end EditRecord

namespace RecordReport

variable {r : RecordReport}

theorem depth_toJson_le_iff {n : Nat} :
    r.toJson.depth ≤ n + 3 ↔ ∀ q ∈ r.records, ∀ x ∈ q.edit.node?, x.toJson.depth ≤ n := by
  simp only [toJson, Json.depth, Nat.add_le_add_iff_right, Json.depthMembers_le_iff,
    Json.depthItems_le_iff, List.forall_mem_cons, List.forall_mem_map,
    ← EditRecord.depth_toJson_le_iff]
  simp [EditCounts.toJson, Json.nat, Json.depth, Json.depthMembers, JsonForm.toJson]

/-- The counts of a report are machine words. -/
def Counted (r : RecordReport) : Prop := r.walk.visited < wordLimit ∧ r.records.length < wordLimit

theorem plain_toJson (h : r.Counted) : r.toJson.Plain := by
  obtain ⟨hvisited, hlength⟩ := h
  have hrecords : (Json.arr (r.records.map EditRecord.toJson)).Plain :=
    .arr (List.forall_mem_map.2 fun q _ => q.plain_toJson)
  have hcount : ∀ a, (Json.nat (EditCounts.count r.records a)).Plain :=
    fun a => .nat (Nat.lt_of_le_of_lt List.countP_le_length hlength)
  have hcounts : r.counts.toJson.Plain := by
    refine .obj ?_
    simp only [List.forall_mem_cons]
    exact ⟨.nat hlength, hcount _, hcount _, hcount _, hcount _, fun m hm => nomatch hm⟩
  refine .obj ?_
  simp only [List.forall_mem_cons]
  exact ⟨.str _, .str _, .str _, .nat hvisited, .bool _, hrecords, hcounts, fun m hm => nomatch hm⟩

theorem reads_back (h : r.Counted) (hdepth : r.toJson.depth ≤ Json.depthLimit) (compact : Bool) :
    parse (Json.read Json.depthLimit) (emit compact r.toJson) = .ok r.toJson :=
  ((plain_toJson h).reads hdepth).parse (laidOut_emit compact r.toJson)

theorem refused (h : r.Counted) (hdepth : Json.depthLimit < r.toJson.depth) (compact : Bool) :
    ∃ e, parse (Json.read Json.depthLimit) (emit compact r.toJson) = .error e ∧
      e.cause = .tooDeep :=
  ((plain_toJson h).refuses hdepth).parse (laidOut_emit compact r.toJson)

/-- A node in a report may have 62 levels if the report is to be read again. -/
theorem depth_toJson_le_limit_iff : r.toJson.depth ≤ Json.depthLimit ↔
    ∀ q ∈ r.records, ∀ x ∈ q.edit.node?, x.height ≤ 62 := by
  have hheight : ∀ x : Tree, x.toJson.depth ≤ 124 ↔ x.height ≤ 62 := by
    intro x
    rw [Tree.depth_toJson]
    omega
  have hdepth := depth_toJson_le_iff (r := r) (n := 124)
  simp only [hheight] at hdepth
  exact hdepth

end RecordReport

/-- Whatever the tree is and in either mode, the report of a run whose script was read off a text
nests at most 128 deep. It is within the limit of 127 exactly if every node in the records of the
live nodes has at most 62 levels, and that is when it is read back, in either layout; otherwise its
reader refuses it as too deep. -/
theorem report_nesting {text : String} {t : Tree} {s : Script} {o : Options} {r : RecordReport}
    (hs : Script.ofText text = .ok s) (hr : record t s o = .ok r) :
    r.toJson.depth ≤ 128 ∧
    (r.toJson.depth ≤ 127 ↔
      ∀ p ∈ s.live t, ∀ q ∈ s.recordsAt p, ∀ x ∈ q.edit.node?, x.height ≤ 62) ∧
    (r.Counted → ∀ compact,
      (r.toJson.depth ≤ 127 →
        parse (Json.read Json.depthLimit) (emit compact r.toJson) = .ok r.toJson) ∧
      (127 < r.toJson.depth → ∃ e,
        parse (Json.read Json.depthLimit) (emit compact r.toJson) = .error e ∧
          e.cause = .tooDeep)) := by
  refine ⟨?_, ?_, fun hcounted compact => ⟨fun h => ?_, fun h => ?_⟩⟩
  · refine RecordReport.depth_toJson_le_iff.2 fun q hq x hx => ?_
    have hheight := height_le_of_mem_records hs hr q hq x hx
    exact Tree.depth_toJson_le (by omega)
  · have hmem : ∀ q, q ∈ r.records ↔ ∃ p ∈ s.live t, q ∈ s.recordsAt p := by
      intro q
      rw [(records_perm hr).mem_iff, List.mem_flatMap]
    refine RecordReport.depth_toJson_le_limit_iff.trans ⟨?_, ?_⟩
    · intro h p hp q hq
      exact h q ((hmem q).2 ⟨p, hp, hq⟩)
    · intro h q hq
      obtain ⟨p, hp, hq⟩ := (hmem q).1 hq
      exact h p hp q hq
  · exact RecordReport.reads_back hcounted h compact
  · exact RecordReport.refused hcounted h compact

theorem counted_towerReport (n : Nat) (mode : Mode) : (towerReport n mode).Counted :=
  ⟨(by decide : 1 < wordLimit), (by decide : 1 < wordLimit)⟩

/-- The report of a script whose node has 62 levels is read back, in either mode and layout. -/
theorem report_nesting_tower :
    let s := towerScript 61
    Script.ofText s.toJson.compact = .ok s ∧
      ∀ mode, ∃ r, record (.leaf "a") s ⟨mode, 0⟩ = .ok r ∧ r.Counted ∧ r.toJson.depth ≤ 127 ∧
        ∀ compact, parse (Json.read Json.depthLimit) (emit compact r.toJson) = .ok r.toJson := by
  intro s
  have hs : Script.ofText s.toJson.compact = .ok s := ofText_towerScript (by decide)
  refine ⟨hs, fun mode => ?_⟩
  have hr := record_towerScript 61 0 mode
  have hcounted := counted_towerReport 61 mode
  obtain ⟨-, hlimit, hread⟩ := report_nesting hs hr
  have hdepth := hlimit.2 fun p hp q hq x hx => by
    cases List.mem_singleton.1 hp
    cases List.mem_singleton.1 hq
    cases hx
    exact Nat.le_of_eq (Tree.height_tower "a" 61)
  exact ⟨_, hr, hcounted, hdepth, fun compact => (hread hcounted compact).1 hdepth⟩

/-- With one level more the text of the script is still read, but not that of the report. -/
theorem record_towerScript_too_deep :
    let t := Tree.leaf "a"
    let s := towerScript 62
    Tree.ofText t.toJson.compact = .ok t ∧ Script.ofText s.toJson.compact = .ok s ∧
      ∀ mode, ∃ r, record t s ⟨mode, 0⟩ = .ok r ∧ ¬r.toJson.depth ≤ 127 ∧
        ∀ compact, ∃ e, parse (Json.read Json.depthLimit) (emit compact r.toJson) = .error e ∧
          e.cause = .tooDeep := by
  intro t s
  have ht : Reads (Tree.read Json.depthLimit) t.toJson.tokens t := Tree.reads_toJson (by decide)
  refine ⟨ht.parse (Json.laidOut_compact _), ofText_towerScript (Nat.le_refl 62), fun mode => ?_⟩
  have hdeep : ¬(towerReport 62 mode).toJson.depth ≤ 127 := by
    intro hdepth
    have hheight := RecordReport.depth_toJson_le_limit_iff.1 hdepth _ List.mem_cons_self _ rfl
    rw [Tree.height_tower] at hheight
    omega
  exact ⟨_, record_towerScript 62 0 mode, hdeep,
    RecordReport.refused (counted_towerReport 62 mode) (Nat.lt_of_not_le hdeep)⟩

end TreeEdits
