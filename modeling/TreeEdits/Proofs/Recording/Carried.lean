import TreeEdits.Proofs.Recording.Parallel
import TreeEdits.Proofs.Script.Reread

/-!
# TreeEdits.Proofs.Recording.Carried

Where the nodes in the records of a run come from: each of them is the node of a rule. A rule that
was read off a text carries at most 63 levels, so every record of a run can be read back.

* `Edit.exists_of_mem_merged`: merging edits brings in no new node.
* `records_perm`: the records of a run are those of the live nodes, in either mode.
* `exists_rule_of_mem_records`: what a record of a run carries, a rule carries.
* `record_reads_back`: records off a script that was read.
-/

namespace TreeEdits

namespace Edit

variable {α : Type}

theorem exists_of_lastNode (node : α) (es : List (Edit α)) :
    lastNode node es = node ∨ ∃ e ∈ es, e.node? = some (lastNode node es) := by
  induction es generalizing node with
  | nil => exact .inl rfl
  | cons e es ih =>
    have hrest : ∀ m, (∃ q ∈ es, q.node? = some m) → ∃ q ∈ e :: es, q.node? = some m := by
      rintro m ⟨q, hq, hm⟩
      exact ⟨q, List.mem_cons_of_mem e hq, hm⟩
    cases hr : e.isReplace with
    | false =>
      rw [lastNode_of_not_replace hr]
      exact (ih node).imp_right (hrest _)
    | true =>
      cases e with
      | replace m =>
        rw [lastNode_replace]
        rcases ih m with hm | hm
        · rw [hm]
          exact .inr ⟨.replace m, List.mem_cons_self, rfl⟩
        · exact .inr (hrest _ hm)
      | delete => cases hr
      | insertBefore m => cases hr
      | insertAfter m => cases hr

/-- The node of a merged edit is that of one of the edits. -/
theorem exists_of_mem_merged {es : List (Edit α)} {e : Edit α} {x : α} (h : e ∈ merged es)
    (hx : e.node? = some x) : ∃ q ∈ es, q.node? = some x := by
  induction es with
  | nil => cases h
  | cons q es ih =>
    have hrest : (∃ q' ∈ es, q'.node? = some x) → ∃ q' ∈ q :: es, q'.node? = some x := by
      rintro ⟨q', hq', hx'⟩
      exact ⟨q', List.mem_cons_of_mem q hq', hx'⟩
    cases hr : q.isReplace with
    | false =>
      rw [merged_of_not_replace hr] at h
      rcases List.mem_cons.1 h with rfl | h
      · exact ⟨e, List.mem_cons_self, hx⟩
      · exact hrest (ih h)
    | true =>
      cases q with
      | replace m =>
        rcases List.mem_cons.1 h with rfl | h
        · cases hx
          rcases exists_of_lastNode m es with hm | hm
          · rw [hm]
            exact ⟨.replace m, List.mem_cons_self, rfl⟩
          · exact hrest hm
        · exact ⟨e, List.mem_cons_of_mem _ (List.mem_filter.1 h).1, hx⟩
      | delete => cases hr
      | insertBefore m => cases hr
      | insertAfter m => cases hr

end Edit

namespace Script

variable {s : Script} {x : Tree}

theorem exists_rule_of_mem_edits {label : String} {e : Edit Tree} (h : e ∈ s.edits label) :
    ∃ rule ∈ s.rules, rule.label = label ∧ rule.action = e.action ∧ rule.node = e.node? := by
  have hmem : (e.action, e.node?) ∈ (s.edits label).map fun e => (e.action, e.node?) :=
    List.mem_map_of_mem h
  rw [map_edits] at hmem
  obtain ⟨rule, hrule, hsame⟩ := List.mem_map.1 hmem
  obtain ⟨hin, hlabel⟩ := List.mem_filter.1 hrule
  obtain ⟨haction, hnode⟩ := Prod.mk.inj hsame
  exact ⟨rule, hin, eq_of_beq hlabel, haction, hnode⟩

theorem exists_rule_of_mem_recordsAt {p : Tree.Site × Nat} {q : EditRecord Tree}
    (h : q ∈ s.recordsAt p) (hx : q.edit.node? = some x) :
    ∃ rule ∈ s.rules, rule.node = some x := by
  obtain ⟨e, he, rfl⟩ := List.mem_map.1 h
  obtain ⟨e', he', hx'⟩ := Edit.exists_of_mem_merged he hx
  obtain ⟨rule, hrule, -, -, hnode⟩ := exists_rule_of_mem_edits he'
  exact ⟨rule, hrule, hnode.trans hx'⟩

/-- The list and the rule take two of the 127 brackets that may be open. That leaves 125 to a node,
which are two for each level and one for the last. -/
theorem height_le_of_ofText {text : String} (h : ofText text = .ok s) :
    ∀ rule ∈ s.rules, ∀ t ∈ rule.node, t.height ≤ 63 := by
  rw [ofText] at h
  split at h
  · cases h
  · rename_i rules hrules
    cases rules_of_ofRules h
    intro rule hrule t ht
    have hheight := (Rule.yields_readAll 126).parse hrules rule hrule t ht
    omega

theorem ofText_toJson (h : ∀ rule ∈ s.rules, ∀ t ∈ rule.node, t.height ≤ 63) :
    ofText s.toJson.compact = .ok s := by
  obtain ⟨s', hok, hrules⟩ := ofRules_eq_ok (List.all_eq_true.1 s.fits)
  have hsame : s' = s := by
    cases s
    cases s'
    cases hrules
    rfl
  rw [toJson, ofText_eq_ofRules h (Json.laidOut_compact _), hok, hsame]

end Script

section

variable {t : Tree} {s : Script} {o : Options} {r : RecordReport}

/-- In either mode, and whatever the size of the tree, a run that succeeds has the records of the
live nodes. -/
theorem records_perm (h : record t s o = .ok r) :
    r.records.Perm ((s.live t).flatMap s.recordsAt) := by
  obtain ⟨mode, hint⟩ := o
  cases mode with
  | sequential =>
    rw [record_eq_live] at h
    cases h
    exact .refl _
  | parallel =>
    rw [record_parallel_eq t s hint (not_clashes_of_record h)] at h
    cases h
    exact List.mergeSort_perm _ _

theorem exists_rule_of_mem_records (h : record t s o = .ok r) {q : EditRecord Tree}
    (hq : q ∈ r.records) {x : Tree} (hx : q.edit.node? = some x) :
    ∃ rule ∈ s.rules, rule.node = some x := by
  obtain ⟨p, -, hp⟩ := List.mem_flatMap.1 ((records_perm h).mem_iff.1 hq)
  exact Script.exists_rule_of_mem_recordsAt hp hx

theorem height_le_of_mem_records {text : String} (hs : Script.ofText text = .ok s)
    (h : record t s o = .ok r) : ∀ q ∈ r.records, ∀ x ∈ q.edit.node?, x.height ≤ 63 := by
  intro q hq x hx
  obtain ⟨rule, hrule, hnode⟩ := exists_rule_of_mem_records h hq hx
  exact Script.height_le_of_ofText hs rule hrule x hnode

end

/-- Every record of a run whose script was read off a text is read back off the text that is written
for it alone, in either mode and whatever the tree is. -/
theorem record_reads_back {text : String} {t : Tree} {s : Script} {o : Options} {r : RecordReport}
    (hs : Script.ofText text = .ok s) (hr : record t s o = .ok r) :
    ∀ q ∈ r.records, EditRecord.ofText Tree q.toJson.compact = .ok q := by
  intro q hq
  refine (EditRecord.readBack_of_faithful fun x hx => Tree.faithful ?_).compact.1
  have hheight := height_le_of_mem_records hs hr q hq x hx
  omega

/-- Puts `n + 1` levels in the place of a node `a`. -/
def towerScript (n : Nat) : Script := ⟨[⟨"a", .replace, some (.tower "a" n)⟩], rfl⟩

def towerReport (n : Nat) (mode : Mode) : RecordReport :=
  ⟨mode, ⟨1, false⟩, [⟨⟨0⟩, .replace (.tower "a" n)⟩]⟩

theorem record_towerScript (n hint : Nat) (mode : Mode) :
    record (.leaf "a") (towerScript n) ⟨mode, hint⟩ = .ok (towerReport n mode) := by
  have hlive : (towerScript n).live (.leaf "a") = [(⟨[], .leaf "a"⟩, 0)] := rfl
  cases mode with
  | sequential =>
    rw [record_eq_live, hlive]
    rfl
  | parallel =>
    have hnone : ∀ p ∈ (towerScript n).live (.leaf "a"), ¬(towerScript n).Clashes p := by
      intro p hp
      rw [hlive, List.mem_singleton] at hp
      subst hp
      exact (by decide : ¬2 ≤ 1)
    rw [record_parallel_of_no_clash _ _ _ (by decide) hnone, hlive]
    rfl

theorem ofText_towerScript {n : Nat} (h : n ≤ 62) :
    Script.ofText (towerScript n).toJson.compact = .ok (towerScript n) := by
  apply Script.ofText_toJson
  intro rule hrule t ht
  cases List.mem_singleton.1 hrule
  cases ht
  rw [Tree.height_tower]
  omega

/-- A node of 63 levels, which is as high as a script can hold, in the record of either mode. -/
theorem record_reads_back_tower :
    (Tree.tower "a" 62).height = 63 ∧
      Script.ofText (towerScript 62).toJson.compact = .ok (towerScript 62) ∧
      ∀ mode, ∃ r, record (.leaf "a") (towerScript 62) ⟨mode, 0⟩ = .ok r ∧
        r.records = [⟨⟨0⟩, .replace (.tower "a" 62)⟩] ∧
        ∀ q ∈ r.records, EditRecord.ofText Tree q.toJson.compact = .ok q := by
  have hs := ofText_towerScript (Nat.le_refl 62)
  refine ⟨Tree.height_tower "a" 62, hs, fun mode => ?_⟩
  have hr := record_towerScript 62 0 mode
  exact ⟨_, hr, rfl, record_reads_back hs hr⟩

end TreeEdits
