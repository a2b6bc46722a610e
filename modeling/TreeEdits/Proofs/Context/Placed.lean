import TreeEdits.Proofs.Context.Requests

/-!
# TreeEdits.Proofs.Context.Placed

Where the record of a changed visit is. A visit that was opened when `n` records were queued has its
record behind them, also if other visits of its node move the place that is kept for the node. So its
requests leave the first `n` records alone, and where records can be written over, none is refused.
Nothing is assumed of the places that a buffer kept before.

* `Context.Placed`: the invariant of one visit.
* `Placed.push`, `Placed.overwrite`: what other visits do keeps it.
* `Context.record_keeps`: one request of such a visit.
-/

namespace TreeEdits
namespace Context

variable {α : Type} {n : Nat} {c : Context α}

/-- If a visit changed its node, then a place is kept for the node, and it is not among the first `n`.
-/
def Placed (n : Nat) (c : Context α) : EditBuffer α → Prop
  | .sequential b => c.edited = true → ∃ i, b.place[c.anchor]? = some i ∧ n ≤ i ∧ i < b.records.size
  | .parallel _ => True

theorem placed_enter (n : Nat) (a : NodeId) (node : α) (b : EditBuffer α) :
    (enter a node).Placed n b := by
  cases b with
  | sequential b =>
    intro h
    cases h
  | parallel b => trivial

namespace Placed

/-- A replace record that is added at the end is a later place for its node. -/
theorem push {b : SequentialBuffer α} (h : c.Placed n (.sequential b)) (hn : n ≤ b.records.size)
    (r : EditRecord α) : c.Placed n (.sequential (b.push r)) := by
  intro hedited
  obtain ⟨i, hplace, hi, hlt⟩ := h hedited
  have hsize : (b.push r).records.size = b.records.size + 1 := by
    rw [SequentialBuffer.push, Array.size_push]
  rw [hsize]
  cases hr : r.isReplace with
  | false => exact ⟨i, by simp only [SequentialBuffer.push, hr]; exact hplace, hi, by omega⟩
  | true =>
    by_cases ha : r.anchor = c.anchor
    · exact ⟨b.records.size, by simp [SequentialBuffer.push, hr, ha], hn, by omega⟩
    · refine ⟨i, ?_, hi, by omega⟩
      simp only [SequentialBuffer.push, hr, if_true, Std.HashMap.getElem?_insert]
      rw [if_neg (by simpa using ha), hplace]

theorem overwrite {b b' : SequentialBuffer α} {r : EditRecord α} (h : c.Placed n (.sequential b))
    (hb : b.overwrite r = .ok b') : c.Placed n (.sequential b') := by
  intro hedited
  obtain ⟨i, hplace, hi, hlt⟩ := h hedited
  rw [SequentialBuffer.overwrite] at hb
  split at hb
  · split at hb
    · cases hb
      exact ⟨i, hplace, hi, by rwa [Array.size_set]⟩
    · cases hb
  · cases hb

end Placed

/-- A visit that changed its node can write over a record that is not among the first. -/
theorem overwrite_of_placed {rs : List (EditRecord α)} {b : SequentialBuffer α}
    (hrs : rs <+: b.records.toList) (h : c.Placed rs.length (.sequential b)) (hedited : c.edited = true)
    (e : Edit α) :
    ∃ b', b.overwrite (c.view.record e) = .ok b' ∧ rs <+: b'.records.toList := by
  obtain ⟨i, hplace, hi, hlt⟩ := h hedited
  have hplace' : b.place[(c.view.record e).anchor]? = some i := hplace
  refine ⟨{ b with records := b.records.set i (c.view.record e) hlt }, ?_, ?_⟩
  · simp only [SequentialBuffer.overwrite, hplace', dif_pos hlt]
  · obtain ⟨later, heq⟩ := hrs
    rw [Array.toList_set, ← heq, List.set_append_right _ _ hi]
    exact List.prefix_append _ _

theorem placed_advance_push {b : SequentialBuffer α} (h : c.Placed n (.sequential b))
    (hn : n ≤ b.records.size) (e : Edit α) :
    (c.advance e).Placed n (.sequential (b.push (c.view.record e))) := by
  intro hedited
  rw [anchor_advance]
  rw [edited_advance] at hedited
  cases hr : e.isReplace with
  | true =>
    have hrecord : (c.view.record e).isReplace = true := hr
    have hplace : (b.push (c.view.record e)).place[c.anchor]? = some b.records.size := by
      rw [SequentialBuffer.push, hrecord, if_pos rfl]
      exact Std.HashMap.getElem?_insert_self
    refine ⟨_, hplace, hn, ?_⟩
    rw [SequentialBuffer.push, Array.size_push]
    exact Nat.lt_succ_self _
  | false =>
    rw [hr, Bool.or_false] at hedited
    exact h.push hn _ hedited

/-- One request of a visit that was opened when `rs` were the records. They stay, the invariant is kept
for this visit and any other, and the request is not refused where records can be written over. -/
theorem record_keeps {rs : List (EditRecord α)} {b : EditBuffer α} (hrs : rs <+: b.records)
    (hc : c.Placed rs.length b) (e : Edit α) :
    rs <+: (c.record b e).buffer.records ∧
      (c.record b e).context.Placed rs.length (c.record b e).buffer ∧
      (∀ d : Context α, d.Placed rs.length b → d.Placed rs.length (c.record b e).buffer) ∧
      (b.mode = .sequential → (c.record b e).result = .ok .proceed) := by
  have hsize : rs.length ≤ b.size := by
    have hlength := hrs.length_le
    rwa [EditBuffer.length_records] at hlength
  have hpush : rs <+: (b.push ⟨c.anchor, e⟩).records := by
    rw [EditBuffer.records_push]
    exact hrs.trans (List.prefix_append _ _)
  by_cases h : e.isReplace = true ∧ c.edited = true
  · cases b with
    | sequential b =>
      obtain ⟨b', hb', hrs'⟩ := overwrite_of_placed hrs hc h.2 e
      have hrec : c.record (.sequential b) e = ⟨.ok .proceed, c.advance e, .sequential b'⟩ := by
        simp only [record, recordSequential, if_pos h, hb']
      rw [hrec]
      refine ⟨hrs', ?_, fun d hd => hd.overwrite hb', fun _ => rfl⟩
      intro _
      rw [anchor_advance]
      exact hc.overwrite hb' h.2
    | parallel b =>
      rw [record_of_repeated h rfl]
      exact ⟨hrs, trivial, fun d hd => hd, fun hm => by cases hm⟩
  · rw [record_of_first h]
    refine ⟨hpush, ?_, ?_, fun _ => rfl⟩
    · cases b with
      | sequential b => exact placed_advance_push hc hsize e
      | parallel b => trivial
    · intro d hd
      cases b with
      | sequential b => exact hd.push hsize _
      | parallel b => trivial

end Context
end TreeEdits
