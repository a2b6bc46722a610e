import TreeEdits.Buffer
import Std.Data.HashMap.Lemmas

/-!
# TreeEdits.Proofs.Buffer.LastReplace

A buffer that can be written over keeps a place for each anchor. That place is always the place of
the last replace record of the anchor, so the buffer is known from its list of records alone.

* `EditRecord.lastPlace`, `EditRecord.rewriteLast`: the place, and what is written over there.
* `SequentialBuffer.Indexed`: the places kept are those of the list. It holds of the empty buffer
  and after every push and overwrite (`indexed_push`, `overwrite_eq_ok`).
* `exists_replaceRecord?`: an anchor with a replace record is known by one.
* `overwrite_eq_ok`, `overwrite_eq_error`: when an overwrite succeeds, and what it leaves.
* `SequentialBuffer.Built`: buffers that pushes and overwrites lead to, all of which keep their
  places (`Built.indexed`).
-/

namespace TreeEdits
namespace EditRecord

variable {α : Type}

/-- Whether a record replaces the node with an identity. -/
def replaces (r : EditRecord α) (a : NodeId) : Bool := r.isReplace && decide (r.anchor = a)

theorem replaces_anchor {r : EditRecord α} (h : r.isReplace = true) (a : NodeId) :
    r.replaces a = decide (r.anchor = a) := by
  rw [replaces, h, Bool.true_and]

theorem replaces_replace (a : NodeId) (node : α) :
    (⟨a, .replace node⟩ : EditRecord α).replaces a = true := by
  simp [replaces, isReplace, Edit.isReplace]

def lastPlace (a : NodeId) : List (EditRecord α) → Option Nat
  | [] => none
  | q :: qs =>
    match lastPlace a qs with
    | some i => some (i + 1)
    | none => if q.replaces a then some 0 else none

/-- Puts a record in the place of the last one that replaces its node. -/
def rewriteLast (r : EditRecord α) : List (EditRecord α) → List (EditRecord α)
  | [] => []
  | q :: qs =>
    if q.replaces r.anchor && !qs.any (·.replaces r.anchor) then r :: qs
    else q :: rewriteLast r qs

theorem lastPlace_eq_none {a : NodeId} {rs : List (EditRecord α)} :
    lastPlace a rs = none ↔ rs.any (·.replaces a) = false := by
  induction rs with
  | nil => simp [lastPlace]
  | cons q qs ih =>
    rw [lastPlace, List.any_cons, Bool.or_eq_false_iff]
    cases h : lastPlace a qs with
    | none =>
      rw [h] at ih
      simp [ih.1 rfl]
    | some i =>
      rw [h] at ih
      simp at ih
      simp [ih]

theorem exists_lastPlace_iff {a : NodeId} {rs : List (EditRecord α)} :
    (∃ i, lastPlace a rs = some i) ↔ rs.any (·.replaces a) = true := by
  rw [← Option.ne_none_iff_exists', Ne, lastPlace_eq_none, Bool.not_eq_false]

theorem lastPlace_append (a : NodeId) (rs : List (EditRecord α)) (r : EditRecord α) :
    lastPlace a (rs ++ [r]) = if r.replaces a then some rs.length else lastPlace a rs := by
  induction rs with
  | nil => simp [lastPlace]
  | cons q qs ih =>
    rw [List.cons_append, lastPlace, ih]
    by_cases h : r.replaces a = true
    · simp [h]
    · simp [h, lastPlace]

theorem lt_of_lastPlace {a : NodeId} {rs : List (EditRecord α)} {i : Nat}
    (h : lastPlace a rs = some i) : i < rs.length := by
  induction rs generalizing i with
  | nil => cases h
  | cons q qs ih =>
    rw [lastPlace] at h
    split at h
    · rename_i j hj
      cases h
      have := ih hj
      rw [List.length_cons]
      omega
    · split at h
      · cases h
        exact Nat.succ_pos _
      · cases h

theorem exists_replace_of_replaces {r : EditRecord α} {a : NodeId} (h : r.replaces a = true) :
    ∃ node, r = ⟨a, .replace node⟩ := by
  obtain ⟨anchor, edit⟩ := r
  simp only [replaces, isReplace, Bool.and_eq_true, decide_eq_true_eq] at h
  obtain ⟨hedit, rfl⟩ := h
  cases edit with
  | replace node => exact ⟨node, rfl⟩
  | delete => cases hedit
  | insertBefore node => cases hedit
  | insertAfter node => cases hedit

theorem getElem?_lastPlace {a : NodeId} {rs : List (EditRecord α)} {i : Nat}
    (h : lastPlace a rs = some i) : ∃ node, rs[i]? = some ⟨a, .replace node⟩ := by
  induction rs generalizing i with
  | nil => cases h
  | cons q qs ih =>
    rw [lastPlace] at h
    split at h
    · rename_i j hj
      cases h
      exact ih hj
    · split at h
      · rename_i hq
        cases h
        obtain ⟨node, rfl⟩ := exists_replace_of_replaces hq
        exact ⟨node, rfl⟩
      · cases h

/-- To write at the last place is to write over the last record. -/
theorem set_lastPlace {r : EditRecord α} {rs : List (EditRecord α)} {i : Nat}
    (h : lastPlace r.anchor rs = some i) : rs.set i r = rewriteLast r rs := by
  induction rs generalizing i with
  | nil => cases h
  | cons q qs ih =>
    rw [lastPlace] at h
    split at h
    · rename_i j hj
      cases h
      have hany := exists_lastPlace_iff.1 ⟨j, hj⟩
      simp [rewriteLast, hany, ih hj]
    · rename_i hnone
      split at h
      · rename_i hq
        cases h
        simp [rewriteLast, hq, lastPlace_eq_none.1 hnone]
      · cases h

theorem any_replaces_rewriteLast {r : EditRecord α} (hr : r.isReplace = true)
    (rs : List (EditRecord α)) (a : NodeId) :
    (rewriteLast r rs).any (·.replaces a) = rs.any (·.replaces a) := by
  induction rs with
  | nil => rfl
  | cons q qs ih =>
    rw [rewriteLast]
    split
    · rename_i hq
      simp only [Bool.and_eq_true, replaces, decide_eq_true_eq] at hq
      simp [replaces, hr, hq.1.1, hq.1.2]
    · rw [List.any_cons, List.any_cons, ih]

theorem lastPlace_rewriteLast {r : EditRecord α} (hr : r.isReplace = true)
    (rs : List (EditRecord α)) (a : NodeId) :
    lastPlace a (rewriteLast r rs) = lastPlace a rs := by
  induction rs with
  | nil => rfl
  | cons q qs ih =>
    rw [rewriteLast]
    split
    · rename_i hq
      simp only [Bool.and_eq_true, replaces, decide_eq_true_eq] at hq
      have h : r.replaces a = q.replaces a := by
        simp [replaces, hr, hq.1.1, hq.1.2]
      rw [lastPlace, lastPlace, h]
    · rw [lastPlace, lastPlace, ih]

theorem any_replaces_eq_false {a : NodeId} {rs : List (EditRecord α)} :
    rs.any (·.replaces a) = false ↔ ∀ node, ⟨a, .replace node⟩ ∉ rs := by
  rw [List.any_eq_false]
  constructor
  · intro h node hmem
    exact h _ hmem (replaces_replace a node)
  · intro h r hr hreplaces
    obtain ⟨node, rfl⟩ := exists_replace_of_replaces hreplaces
    exact h node hr

/-- The last record that replaces a node, with what stands before and after it. -/
theorem exists_last_replace {a : NodeId} {rs : List (EditRecord α)}
    (h : rs.any (·.replaces a) = true) :
    ∃ before old after, rs = before ++ ⟨a, .replace old⟩ :: after ∧
      after.any (·.replaces a) = false := by
  induction rs with
  | nil => cases h
  | cons q qs ih =>
    cases hqs : qs.any (·.replaces a) with
    | true =>
      obtain ⟨before, old, after, rfl, hafter⟩ := ih hqs
      exact ⟨q :: before, old, after, rfl, hafter⟩
    | false =>
      rw [List.any_cons, hqs, Bool.or_false] at h
      obtain ⟨old, rfl⟩ := exists_replace_of_replaces h
      exact ⟨[], old, qs, rfl, hqs⟩

theorem rewriteLast_eq_self {r : EditRecord α} {rs : List (EditRecord α)}
    (h : rs.any (·.replaces r.anchor) = false) : rewriteLast r rs = rs := by
  induction rs with
  | nil => rfl
  | cons q qs ih =>
    rw [List.any_cons, Bool.or_eq_false_iff] at h
    rw [rewriteLast, h.1, Bool.false_and, if_neg Bool.false_ne_true, ih h.2]

theorem rewriteLast_append {r q : EditRecord α} {pre post : List (EditRecord α)}
    (hq : q.replaces r.anchor = true) (hpost : post.any (·.replaces r.anchor) = false) :
    rewriteLast r (pre ++ q :: post) = pre ++ r :: post := by
  induction pre with
  | nil => simp [rewriteLast, hq, hpost]
  | cons p pre ih =>
    have hany : (pre ++ q :: post).any (·.replaces r.anchor) = true := by simp [hq]
    rw [List.cons_append, rewriteLast, hany, ih]
    simp

end EditRecord

namespace SequentialBuffer

open EditRecord

variable {α : Type}

/-- The place that is kept for each anchor is that of its last replace record. -/
def Indexed (b : SequentialBuffer α) : Prop := ∀ a, b.place[a]? = lastPlace a b.records.toList

theorem indexed_empty : (empty : SequentialBuffer α).Indexed := by
  intro a
  simp [empty, lastPlace]

theorem indexed_push {b : SequentialBuffer α} (h : b.Indexed) (r : EditRecord α) :
    (b.push r).Indexed := by
  intro a
  rw [push, Array.toList_push, lastPlace_append]
  by_cases hr : r.isReplace = true
  · simp only [hr, if_true, Std.HashMap.getElem?_insert, replaces_anchor hr]
    by_cases ha : r.anchor = a
    · simp [ha]
    · simp [ha, h a]
  · simp [hr, replaces, h a]

theorem exists_replaceRecord? {b : SequentialBuffer α} (h : b.Indexed) {a : NodeId}
    (hany : b.records.toList.any (·.replaces a) = true) :
    ∃ node, b.replaceRecord? a = some ⟨a, .replace node⟩ := by
  obtain ⟨i, hp⟩ := exists_lastPlace_iff.2 hany
  obtain ⟨node, hi⟩ := getElem?_lastPlace hp
  rw [Array.getElem?_toList] at hi
  exact ⟨node, by simp only [replaceRecord?, h a, hp, hi]⟩

/-- An overwrite changes the last replace record of its anchor and no place. -/
theorem overwrite_eq_ok {b : SequentialBuffer α} (h : b.Indexed) {r : EditRecord α}
    (hr : r.isReplace = true) (hany : b.records.toList.any (·.replaces r.anchor) = true) :
    ∃ b', b.overwrite r = .ok b' ∧ b'.Indexed ∧
      b'.records.toList = rewriteLast r b.records.toList := by
  obtain ⟨i, hp⟩ := exists_lastPlace_iff.2 hany
  have hi : i < b.records.size := by simpa using lt_of_lastPlace hp
  have hset : (b.records.set i r hi).toList = rewriteLast r b.records.toList := by
    rw [Array.toList_set, set_lastPlace hp]
  refine ⟨{ b with records := b.records.set i r hi }, ?_, ?_, hset⟩
  · simp only [overwrite, h r.anchor, hp, dif_pos hi]
  · intro a
    rw [hset, lastPlace_rewriteLast hr]
    exact h a

theorem overwrite_eq_error {b : SequentialBuffer α} (h : b.Indexed) {r : EditRecord α}
    (hany : b.records.toList.any (·.replaces r.anchor) = false) :
    b.overwrite r = .error (.missingReplace r.anchor) := by
  rw [← lastPlace_eq_none] at hany
  simp only [overwrite, h r.anchor, hany]

/-- Buffers that come of the empty one by pushes, and by overwrites with replace records. An
overwrite that fails leaves the buffer as it was. -/
inductive Built : SequentialBuffer α → Prop
  | empty : Built empty
  | push {b : SequentialBuffer α} : Built b → ∀ r, Built (b.push r)
  | overwrite {b b' : SequentialBuffer α} {r : EditRecord α} : Built b → r.isReplace = true →
    b.overwrite r = .ok b' → Built b'

theorem Built.indexed {b : SequentialBuffer α} (h : b.Built) : b.Indexed := by
  induction h with
  | empty => exact indexed_empty
  | push _ r ih => exact indexed_push ih r
  | @overwrite b b' r _ hr hb' ih =>
    cases hany : b.records.toList.any (·.replaces r.anchor) with
    | false =>
      rw [overwrite_eq_error ih hany] at hb'
      cases hb'
    | true =>
      obtain ⟨b₁, hb₁, hindexed, -⟩ := overwrite_eq_ok ih hr hany
      rw [hb₁] at hb'
      cases hb'
      exact hindexed

end SequentialBuffer
end TreeEdits
