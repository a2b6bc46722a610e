import TreeEdits.Proofs.Recording.Parallel

/-!
# TreeEdits.Proofs.Recording.Order

The order of a report does not depend on when visits side by side end. Whatever order their records
arrive in, as long as the records of each node arrive in the order of its own requests, sorting by
anchor gives the records of visits that are made one after the other.

* `filter_mergeSort`: the sort keeps the order of records with one anchor.
* `eq_of_pairwise_of_filter`: a list that is sorted by anchor is known from its records at each
  anchor.
* `reportOrder_rearranged`: the report of a rearranged queue.
-/

namespace TreeEdits

theorem NodeId.le_antisymm {a b : NodeId} (hab : a ≤ b) (hba : b ≤ a) : a = b := by
  obtain ⟨i⟩ := a
  obtain ⟨j⟩ := b
  rw [UInt32.le_antisymm (a := i) (b := j) hab hba]

namespace EditRecord

variable {α : Type}

/-- Whether a record comes before another in the order of anchors. -/
def precedes (r q : EditRecord α) : Bool := decide (r.anchor ≤ q.anchor)

theorem precedes_trans (r q p : EditRecord α) (h : r.precedes q = true) (h' : q.precedes p = true) :
    r.precedes p = true := by
  rw [precedes, decide_eq_true_eq] at h h' ⊢
  exact UInt32.le_trans h h'

theorem precedes_total (r q : EditRecord α) : (r.precedes q || q.precedes r) = true := by
  rw [Bool.or_eq_true, precedes, precedes, decide_eq_true_eq, decide_eq_true_eq]
  exact UInt32.le_total r.anchor.index q.anchor.index

/-- Sorting by anchor keeps the order of records with one anchor. -/
theorem filter_mergeSort (rs : List (EditRecord α)) (a : NodeId) :
    (rs.mergeSort precedes).filter (·.anchor = a) = rs.filter (·.anchor = a) := by
  have hequal : (rs.filter (·.anchor = a)).Pairwise fun r q => r.precedes q = true := by
    have hanchor : ∀ r ∈ rs.filter (·.anchor = a), r.anchor = a := by
      intro r hr
      exact of_decide_eq_true (List.mem_filter.1 hr).2
    simpa only [precedes, decide_eq_true_eq] using pairwise_of_anchor_eq hanchor
  -- Records with one anchor are in order already, so they are a sublist of what the sort gives.
  have hsub : (rs.filter (·.anchor = a)).Sublist (rs.mergeSort precedes) :=
    List.sublist_mergeSort precedes_trans precedes_total hequal List.filter_sublist
  have hsub' := hsub.filter (·.anchor = a)
  rw [List.filter_filter] at hsub'
  simp only [Bool.and_self] at hsub'
  have hlength := ((List.mergeSort_perm rs precedes).filter (·.anchor = a)).length_eq
  exact (hsub'.eq_of_length hlength.symm).symm

theorem eq_of_pairwise_of_filter {rs : List (EditRecord α)} :
    ∀ {qs : List (EditRecord α)}, rs.Pairwise (fun r q => r.anchor ≤ q.anchor) →
      qs.Pairwise (fun r q => r.anchor ≤ q.anchor) →
      (∀ a, rs.filter (·.anchor = a) = qs.filter (·.anchor = a)) → rs = qs := by
  induction rs with
  | nil =>
    intro qs _ _ h
    cases qs with
    | nil => rfl
    | cons q qs =>
      have hq := h q.anchor
      simp at hq
  | cons r rs ih =>
    intro qs hrs hqs h
    have hmem : ∀ p : EditRecord α, p ∈ r :: rs ↔ p ∈ qs := by
      intro p
      have hp := congrArg (p ∈ ·) (h p.anchor)
      simpa using hp
    cases qs with
    | nil =>
      have hr := (hmem r).1 List.mem_cons_self
      cases hr
    | cons q qs =>
      rw [List.pairwise_cons] at hrs hqs
      have hrq : r.anchor ≤ q.anchor := by
        rcases List.mem_cons.1 ((hmem q).2 List.mem_cons_self) with rfl | hq
        · exact UInt32.le_refl _
        · exact hrs.1 q hq
      have hqr : q.anchor ≤ r.anchor := by
        rcases List.mem_cons.1 ((hmem r).1 List.mem_cons_self) with rfl | hr
        · exact UInt32.le_refl _
        · exact hqs.1 r hr
      have hanchor : q.anchor = r.anchor := NodeId.le_antisymm hqr hrq
      -- Both heads are the first record at the same anchor.
      have hhead := h r.anchor
      simp only [List.filter_cons, hanchor, decide_true, if_true, List.cons.injEq] at hhead
      obtain ⟨rfl, -⟩ := hhead
      rw [ih hrs.2 hqs.2]
      intro a
      have ha := h a
      simp only [List.filter_cons] at ha
      split at ha
      · exact (List.cons.inj ha).2
      · exact ha

end EditRecord

/-- Where a run side by side succeeds, let its records arrive in any order that keeps, at each anchor,
the order in which they were queued. Then they are a rearrangement of what was queued, and sorted by
anchor they are the records of visits that are made one after the other. -/
theorem reportOrder_rearranged (t : Tree) (script : Script) (hint hint' : Nat)
    (hsize : t.size < UInt32.size) {r : RecordReport}
    (hok : record t script ⟨.parallel, hint⟩ = .ok r) {rs queued : List (EditRecord Tree)}
    (hqueued : ((Session.start ⟨.parallel, hint⟩).walk t script.editor).session.records = queued)
    (horder : ∀ a, rs.filter (·.anchor = a) = queued.filter (·.anchor = a)) :
    rs.Perm queued ∧ ∃ r', record t script ⟨.sequential, hint'⟩ = .ok r' ∧
      reportOrder .parallel rs = r'.records := by
  have hnone : ∀ p ∈ script.live t, ¬script.Clashes p := by
    intro p hp hclash
    obtain ⟨ps, q, qs, hlive, hq, hps⟩ := Script.exists_first_clash ⟨p, hp, hclash⟩
    rw [record_parallel_of_clash t script hint hlive hq hps] at hok
    cases hok
  obtain ⟨b, log, hwalk, hrecords⟩ := parallel_start_of_no_clash t script hnone
  have hlive : queued = (script.live t).flatMap script.recordsAt := by
    rw [← hqueued, ← hrecords]
    simp only [Session.walk, Session.start, EditBuffer.ofMode, EditBuffer.mode, Session.walkParallel,
      EditBuffer.shared?, hwalk, Session.records, EditBuffer.records]
  have hsorted : rs.mergeSort EditRecord.precedes = queued := by
    apply EditRecord.eq_of_pairwise_of_filter
    · have hpw := List.pairwise_mergeSort EditRecord.precedes_trans EditRecord.precedes_total rs
      simpa only [EditRecord.precedes, decide_eq_true_eq] using hpw
    · rw [hlive]
      exact script.pairwise_anchor_live hsize
    · intro a
      rw [EditRecord.filter_mergeSort, horder]
  refine ⟨?_, _, record_eq_live t script hint', ?_⟩
  · rw [← hsorted]
    exact (List.mergeSort_perm rs EditRecord.precedes).symm
  · rw [← hlive, ← hsorted]
    rfl

/-- The record of the last node arrives between the two of the node before it. -/
theorem reportOrder_rearranged_nested :
    let w : EditRecord Tree := ⟨⟨3⟩, .insertBefore (.leaf "w")⟩
    let d : EditRecord Tree := ⟨⟨1⟩, .delete⟩
    let z : EditRecord Tree := ⟨⟨1⟩, .replace (.leaf "z")⟩
    nestedTree.size < UInt32.size ∧ (∃ r, record nestedTree onceScript ⟨.parallel, 0⟩ = .ok r) ∧
      ((Session.start ⟨.parallel, 0⟩).walk nestedTree onceScript.editor).session.records = [d, z, w] ∧
      (∀ a, [d, w, z].filter (·.anchor = a) = [d, z, w].filter (·.anchor = a)) ∧
      ∃ r', record nestedTree onceScript ⟨.sequential, 0⟩ = .ok r' ∧
        reportOrder .parallel [d, w, z] = r'.records := by
  intro w d z
  have hsize : nestedTree.size < UInt32.size := by decide
  have hok := record_parallel_of_no_clash nestedTree onceScript 0 hsize (by decide)
  have horder : ∀ a, [d, w, z].filter (·.anchor = a) = [d, z, w].filter (·.anchor = a) := by
    intro a
    by_cases h1 : a = ⟨1⟩
    · subst h1; rfl
    · by_cases h3 : a = ⟨3⟩
      · subst h3; rfl
      · simp [d, w, z, Ne.symm h1, Ne.symm h3]
  obtain ⟨-, hreport⟩ := reportOrder_rearranged nestedTree onceScript 0 0 hsize hok rfl horder
  exact ⟨hsize, ⟨_, hok⟩, rfl, horder, hreport⟩

end TreeEdits
