import TreeEdits.Proofs.Script.Reach
import TreeEdits.Recording

/-!
# TreeEdits.Proofs.Recording.Sequential

A run that visits one node after the other, told from the tree and the rules alone.

* `record_sequential`: such a run succeeds, and its records are those of the live nodes in
  pre-order, each with one record for all its changes.
-/

namespace TreeEdits

namespace EditCounts

theorem count_eq {α : Type} (rs : List (EditRecord α)) (a : Action) (kind : Edit α → Bool)
    (h : ∀ e, decide (e.action = a) = kind e) : count rs a = rs.countP fun q => kind q.edit := by
  simp only [count, h]

theorem count_cons {α : Type} (r : EditRecord α) (rs : List (EditRecord α)) (a : Action) :
    count (r :: rs) a = count rs a + if r.edit.action = a then 1 else 0 := by
  rw [count, List.countP_cons, count]
  simp only [decide_eq_true_eq]

theorem length_eq_sum {α : Type} (rs : List (EditRecord α)) :
    rs.length = count rs .replace + count rs .delete + count rs .insertBefore +
      count rs .insertAfter := by
  induction rs with
  | nil => rfl
  | cons r rs ih =>
    rw [List.length_cons, ih]
    simp only [count_cons]
    generalize r.edit.action = a
    cases a <;> simp <;> omega

end EditCounts

namespace Script

theorem lt_size_of_mem_live {s : Script} {t : Tree} {p : Tree.Site × Nat} (h : p ∈ s.live t) :
    p.2 < t.size := by
  have hlt := List.snd_lt_of_mem_zipIdx (List.mem_filter.1 h).1
  rwa [Nat.add_zero, Tree.sites, Tree.length_sitesUnder] at hlt

theorem toNat_number_of_mem_live {s : Script} {t : Tree} (hsize : t.size < UInt32.size)
    {p : Tree.Site × Nat} (h : p ∈ s.live t) : p.2.toUInt32.toNat = p.2 :=
  UInt32.toNat_ofNat_of_lt' (Nat.lt_trans (lt_size_of_mem_live h) hsize)

end Script

theorem sequential_start (t : Tree) (script : Script) :
    ∃ b log, Walk.sequential script.editor 0 (.start (.sequential .empty)) t =
        (.ok .proceed, ⟨.sequential b, log, (script.live t).length⟩) ∧
      b.records.toList = (script.live t).flatMap script.recordsAt := by
  obtain ⟨b, log, hwalk, hrs⟩ := script.visitEach_sequential (script.live t)
    SequentialBuffer.indexed_empty #[] 0
  rw [Nat.zero_add] at hwalk
  refine ⟨b, log, ?_, ?_⟩
  · rw [script.sequential_eq_visitEach_live]
    exact hwalk
  · rw [hrs]
    rfl

theorem record_eq_live (t : Tree) (script : Script) (hint : Nat) :
    record t script ⟨.sequential, hint⟩ =
      .ok ⟨.sequential, ⟨(script.live t).length, false⟩,
        (script.live t).flatMap script.recordsAt⟩ := by
  obtain ⟨b, log, hwalk, hrs⟩ := sequential_start t script
  simp only [record, Session.walk, Session.start, EditBuffer.ofMode, EditBuffer.mode,
    Session.walkSequential, hwalk, Session.records, EditBuffer.records, reportOrder, hrs]
  rfl

/-- A run that visits one node after the other never fails nor stops. It visits the live nodes, and
records at each of them what the rules for its label ask for, one edit for each rule and in their
order, but one for all changes. -/
theorem record_sequential (t : Tree) (script : Script) (hint : Nat) (hsize : t.size < UInt32.size) :
    ∃ r, record t script ⟨.sequential, hint⟩ = .ok r ∧
      r.records = (script.live t).flatMap script.recordsAt ∧
      (∀ p ∈ script.live t, p.2.toUInt32.toNat = p.2) ∧
      (∀ p ∈ script.live t, ∃ es,
        List.Forall₂ Rule.Asks (script.rules.filter fun q => q.label == p.1.tree.label) es ∧
        script.recordsAt p = (Edit.merged es).map (EditRecord.mk ⟨p.2.toUInt32⟩)) ∧
      r.walk = ⟨(script.live t).length, false⟩ ∧
      r.counts.replace = r.records.countP (fun q => q.edit matches .replace _) ∧
      r.counts.delete = r.records.countP (fun q => q.edit matches .delete) ∧
      r.counts.insertBefore = r.records.countP (fun q => q.edit matches .insertBefore _) ∧
      r.counts.insertAfter = r.records.countP (fun q => q.edit matches .insertAfter _) ∧
      r.counts.total = r.counts.replace + r.counts.delete + r.counts.insertBefore +
        r.counts.insertAfter := by
  have hcount := EditCounts.count_eq ((script.live t).flatMap script.recordsAt)
  refine ⟨_, record_eq_live t script hint, rfl, ?_, ?_, rfl, ?_, ?_, ?_, ?_, ?_⟩
  · intro p hp
    exact Script.toNat_number_of_mem_live hsize hp
  · intro p _
    exact ⟨_, script.asks_edits p.1.tree.label, rfl⟩
  · exact hcount .replace (· matches .replace _) fun e => by cases e <;> rfl
  · exact hcount .delete (· matches .delete) fun e => by cases e <;> rfl
  · exact hcount .insertBefore (· matches .insertBefore _) fun e => by cases e <;> rfl
  · exact hcount .insertAfter (· matches .insertAfter _) fun e => by cases e <;> rfl
  · exact EditCounts.length_eq_sum _

def nestedTree : Tree := .node "r" [.node "a" [.leaf "b"], .leaf "b"]

/-- Rules that change `a` twice and delete it, and add siblings to `b` and one to the root. -/
def nestedScript : Script :=
  ⟨[⟨"a", .replace, some (.leaf "x")⟩, ⟨"a", .delete, none⟩,
    ⟨"b", .insertAfter, some (.leaf "v")⟩, ⟨"b", .insertBefore, some (.leaf "w")⟩,
    ⟨"a", .replace, some (.leaf "z")⟩, ⟨"r", .insertAfter, some (.leaf "y")⟩], by decide⟩

theorem record_sequential_nested :
    nestedTree.size < UInt32.size ∧ ∃ r, record nestedTree nestedScript ⟨.sequential, 0⟩ = .ok r ∧
      r.walk = ⟨3, false⟩ ∧
      r.records = [⟨⟨0⟩, .insertAfter (.leaf "y")⟩, ⟨⟨1⟩, .replace (.leaf "z")⟩, ⟨⟨1⟩, .delete⟩,
        ⟨⟨3⟩, .insertAfter (.leaf "v")⟩, ⟨⟨3⟩, .insertBefore (.leaf "w")⟩] ∧
      r.counts.replace = 1 ∧ r.counts.delete = 1 ∧ r.counts.insertBefore = 1 ∧
      r.counts.insertAfter = 2 ∧ r.counts.total = 5 := by
  have hsize : nestedTree.size < UInt32.size := by decide
  obtain ⟨r, hr, hrs, -, -, hwalk, hreplace, hdelete, hbefore, hafter, htotal⟩ :=
    record_sequential nestedTree nestedScript 0 hsize
  rw [hreplace, hdelete, hbefore, hafter] at htotal
  rw [hrs] at hreplace hdelete hbefore hafter htotal
  exact ⟨hsize, r, hr, hwalk, hrs, hreplace, hdelete, hbefore, hafter, htotal⟩

end TreeEdits
