import TreeEdits.Proofs.Recording.Sequential

/-!
# TreeEdits.Proofs.Recording.Parallel

A run whose visits share a buffer, against the run that visits one node after the other. Only a
node that is changed more than once tells them apart.

* `record_parallel`: when such a run fails, at which node, and what it reports otherwise.
* `pairwise_anchor_live`: the records of the live nodes are in the order of their anchors, so
  sorting a report by anchor leaves them as they are.
-/

namespace TreeEdits

theorem EditRecord.pairwise_of_anchor_eq {α : Type} {rs : List (EditRecord α)} {a : NodeId}
    (h : ∀ r ∈ rs, r.anchor = a) : rs.Pairwise fun r q => r.anchor ≤ q.anchor := by
  rw [List.pairwise_iff_forall_sublist]
  intro r q hrq
  rw [h r (hrq.subset List.mem_cons_self), h q (hrq.subset (List.mem_cons_of_mem r List.mem_cons_self))]
  exact UInt32.le_refl a.index

namespace Script

theorem pairwise_live (s : Script) (t : Tree) : (s.live t).Pairwise fun p q => p.2 < q.2 := by
  apply List.Pairwise.filter
  have h := List.pairwise_lt_range' (s := 0) (n := t.sites.length)
  rw [← List.zipIdx_map_snd 0 t.sites, List.pairwise_map] at h
  exact h

theorem anchor_of_mem_recordsAt {s : Script} {p : Tree.Site × Nat} {r : EditRecord Tree}
    (h : r ∈ s.recordsAt p) : r.anchor = ⟨p.2.toUInt32⟩ := by
  obtain ⟨e, -, rfl⟩ := List.mem_map.1 h
  rfl

theorem pairwise_anchor_live (s : Script) {t : Tree} (hsize : t.size < UInt32.size) :
    ((s.live t).flatMap s.recordsAt).Pairwise fun a b => a.anchor ≤ b.anchor := by
  rw [List.pairwise_flatMap]
  constructor
  · intro p _
    exact EditRecord.pairwise_of_anchor_eq fun r hr => anchor_of_mem_recordsAt hr
  · refine (s.pairwise_live t).imp_of_mem ?_
    intro p q hp hq hlt a ha b hb
    rw [anchor_of_mem_recordsAt ha, anchor_of_mem_recordsAt hb]
    show p.2.toUInt32 ≤ q.2.toUInt32
    rw [UInt32.le_iff_toNat_le, toNat_number_of_mem_live hsize hp, toNat_number_of_mem_live hsize hq]
    exact Nat.le_of_lt hlt

/-- Whether a node is changed by more than one rule. -/
def Clashes (s : Script) (p : Tree.Site × Nat) : Prop := 2 ≤ s.changes p.1.tree.label

instance (s : Script) : DecidablePred s.Clashes :=
  fun p => inferInstanceAs (Decidable (2 ≤ s.changes p.1.tree.label))

theorem changes_le_one_of_not_clashes {s : Script} {p : Tree.Site × Nat} (h : ¬s.Clashes p) :
    s.changes p.1.tree.label ≤ 1 := by
  rw [Clashes] at h
  omega

theorem exists_first_clash {s : Script} {t : Tree} (h : ∃ p ∈ s.live t, s.Clashes p) :
    ∃ ps p qs, s.live t = ps ++ p :: qs ∧ s.Clashes p ∧ ∀ q ∈ ps, ¬s.Clashes q := by
  obtain ⟨p, hp, hc⟩ := h
  have hsome : ((s.live t).find? fun p => decide (s.Clashes p)).isSome = true := by
    rw [List.find?_isSome]
    exact ⟨p, hp, decide_eq_true hc⟩
  obtain ⟨q, hq⟩ := Option.isSome_iff_exists.1 hsome
  obtain ⟨hclash, ps, qs, hlive, hnot⟩ := List.find?_eq_some_iff_append.1 hq
  exact ⟨ps, q, qs, hlive, of_decide_eq_true hclash, fun q hq => by simpa using hnot q hq⟩

end Script

theorem parallel_start (t : Tree) (script : Script) :
    Walk.parallel script.editor 0 false (.start (.parallel .empty)) t =
      (Walk.ending (Walk.visitEach script.editor (.start (.parallel .empty)) (script.live t)).1,
        (Walk.visitEach script.editor (.start (.parallel .empty)) (script.live t)).2) := by
  rw [Walk.parallel_eq_sequential, script.sequential_eq_visitEach_live]

theorem record_parallel_of_clash (t : Tree) (script : Script) (hint : Nat)
    {ps qs : List (Tree.Site × Nat)} {p : Tree.Site × Nat} (hlive : script.live t = ps ++ p :: qs)
    (hp : script.Clashes p) (hps : ∀ q ∈ ps, ¬script.Clashes q) :
    record t script ⟨.parallel, hint⟩ =
      .error (.editConflict ⟨p.2.toUInt32⟩ (EditError.conflict ⟨p.2.toUInt32⟩).message) := by
  have hwalk := parallel_start t script
  have herr : (Walk.visitEach script.editor (.start (.parallel .empty)) (ps ++ p :: qs)).1 =
      .error (.conflict ⟨p.2.toUInt32⟩) :=
    script.visitEach_parallel_conflict .empty #[] 0 qs
      (fun q hq => Script.changes_le_one_of_not_clashes (hps q hq)) hp
  rw [hlive, herr] at hwalk
  simp only [record, Session.walk, Session.start, EditBuffer.ofMode, EditBuffer.mode,
    Session.walkParallel, EditBuffer.shared?, hwalk, Walk.ending]
  rfl

theorem parallel_start_of_no_clash (t : Tree) (script : Script)
    (h : ∀ p ∈ script.live t, ¬script.Clashes p) :
    ∃ b log, Walk.parallel script.editor 0 false (.start (.parallel .empty)) t =
        (.ok false, ⟨.parallel b, log, (script.live t).length⟩) ∧
      b.records.toList = (script.live t).flatMap script.recordsAt := by
  obtain ⟨b, log, heach, hrs⟩ := script.visitEach_parallel (script.live t) .empty #[] 0
    fun p hp => Script.changes_le_one_of_not_clashes (h p hp)
  rw [Nat.zero_add] at heach
  refine ⟨b, log, ?_, ?_⟩
  · rw [parallel_start, Walk.start, heach]
    rfl
  · rw [hrs]
    rfl

/-- Without a clash such a run succeeds, whatever the size of the tree. -/
theorem record_parallel_eq (t : Tree) (script : Script) (hint : Nat)
    (h : ∀ p ∈ script.live t, ¬script.Clashes p) :
    record t script ⟨.parallel, hint⟩ =
      .ok ⟨.parallel, ⟨(script.live t).length, false⟩,
        reportOrder .parallel ((script.live t).flatMap script.recordsAt)⟩ := by
  obtain ⟨b, log, hwalk, hrs⟩ := parallel_start_of_no_clash t script h
  simp only [record, Session.walk, Session.start, EditBuffer.ofMode, EditBuffer.mode,
    Session.walkParallel, EditBuffer.shared?, hwalk, Session.records, EditBuffer.records, hrs]

theorem record_parallel_of_no_clash (t : Tree) (script : Script) (hint : Nat)
    (hsize : t.size < UInt32.size) (h : ∀ p ∈ script.live t, ¬script.Clashes p) :
    record t script ⟨.parallel, hint⟩ =
      .ok ⟨.parallel, ⟨(script.live t).length, false⟩, (script.live t).flatMap script.recordsAt⟩ := by
  have hsorted : reportOrder .parallel ((script.live t).flatMap script.recordsAt) =
      (script.live t).flatMap script.recordsAt := by
    rw [reportOrder, List.mergeSort_of_pairwise]
    simpa only [decide_eq_true_eq] using script.pairwise_anchor_live hsize
  rw [record_parallel_eq t script hint h, hsorted]

theorem not_clashes_of_record {t : Tree} {script : Script} {hint : Nat} {r : RecordReport}
    (h : record t script ⟨.parallel, hint⟩ = .ok r) : ∀ p ∈ script.live t, ¬script.Clashes p := by
  intro p hp hclash
  obtain ⟨ps, q, qs, hlive, hq, hps⟩ := Script.exists_first_clash ⟨p, hp, hclash⟩
  rw [record_parallel_of_clash t script hint hlive hq hps] at h
  cases h

/-- A run whose visits share a buffer fails exactly if a live node is changed by more than one
rule, and then at the first such node. Otherwise it reports what the other kind of run does. -/
theorem record_parallel (t : Tree) (script : Script) (hint hint' : Nat) (hsize : t.size < UInt32.size) :
    ((∃ f, record t script ⟨.parallel, hint⟩ = .error f) ↔ ∃ p ∈ script.live t, script.Clashes p) ∧
    (∀ p ∈ script.live t, script.Clashes p →
      (∀ q ∈ script.live t, script.Clashes q → p.2 ≤ q.2) →
      ∃ f, record t script ⟨.parallel, hint⟩ = .error f ∧
        f = .editConflict ⟨p.2.toUInt32⟩ (EditError.conflict ⟨p.2.toUInt32⟩).message ∧
        f.code.number = 4 ∧ p.2.toUInt32.toNat = p.2) ∧
    ((∀ p ∈ script.live t, ¬script.Clashes p) →
      ∃ r r', record t script ⟨.parallel, hint⟩ = .ok r ∧
        record t script ⟨.sequential, hint'⟩ = .ok r' ∧
        r.records = r'.records ∧ r.counts = r'.counts ∧ r.walk = r'.walk) := by
  refine ⟨⟨?_, ?_⟩, ?_, ?_⟩
  · rintro ⟨f, hf⟩
    by_cases hclash : ∃ p ∈ script.live t, script.Clashes p
    · exact hclash
    · have hnone : ∀ p ∈ script.live t, ¬script.Clashes p := fun p hp hc => hclash ⟨p, hp, hc⟩
      rw [record_parallel_of_no_clash t script hint hsize hnone] at hf
      cases hf
  · intro hclash
    obtain ⟨ps, p, qs, hlive, hp, hps⟩ := Script.exists_first_clash hclash
    exact ⟨_, record_parallel_of_clash t script hint hlive hp hps⟩
  · intro p hmem hp hmin
    obtain ⟨ps, q, qs, hlive, hq, hps⟩ := Script.exists_first_clash ⟨p, hmem, hp⟩
    -- The first in the list has the least number, and so has `p`.
    have hpw := script.pairwise_live t
    rw [hlive, List.pairwise_append, List.pairwise_cons] at hpw
    have hqmem : q ∈ script.live t := by simp [hlive]
    have hqp : q.2 ≤ p.2 := by
      rw [hlive, List.mem_append, List.mem_cons] at hmem
      rcases hmem with hmem | rfl | hmem
      · exact absurd hp (hps p hmem)
      · exact Nat.le_refl _
      · exact Nat.le_of_lt (hpw.2.1.1 p hmem)
    have heq : q.2 = p.2 := Nat.le_antisymm hqp (hmin q hqmem hq)
    have herr := record_parallel_of_clash t script hint hlive hq hps
    rw [heq] at herr
    exact ⟨_, herr, rfl, rfl, Script.toNat_number_of_mem_live hsize hmem⟩
  · intro hnone
    exact ⟨_, _, record_parallel_of_no_clash t script hint hsize hnone,
      record_eq_live t script hint', rfl, rfl, rfl⟩

/-- Rules that change `a` once, delete it, and add a sibling to `b`. -/
def onceScript : Script :=
  ⟨[⟨"b", .insertBefore, some (.leaf "w")⟩, ⟨"a", .delete, none⟩,
    ⟨"a", .replace, some (.leaf "z")⟩], by decide⟩

theorem record_parallel_nested :
    nestedTree.size < UInt32.size ∧
    (∃ f, record nestedTree nestedScript ⟨.parallel, 0⟩ = .error f ∧
      f = .editConflict ⟨1⟩ (EditError.conflict ⟨1⟩).message) ∧
    ∃ r r', record nestedTree onceScript ⟨.parallel, 0⟩ = .ok r ∧
      record nestedTree onceScript ⟨.sequential, 0⟩ = .ok r' ∧ r.records = r'.records ∧
      r.walk = r'.walk := by
  have hsize : nestedTree.size < UInt32.size := by decide
  have hclash := (record_parallel nestedTree nestedScript 0 0 hsize).2.1
    (⟨["r"], .node "a" [.leaf "b"]⟩, 1) (.tail _ (.head _)) (by decide) (by decide)
  have honce := (record_parallel nestedTree onceScript 0 0 hsize).2.2 (by decide)
  obtain ⟨f, hf, hconflict, -⟩ := hclash
  obtain ⟨r, r', hr, hr', hrs, -, hwalk⟩ := honce
  exact ⟨hsize, ⟨f, hf, hconflict⟩, r, r', hr, hr', hrs, hwalk⟩

end TreeEdits
