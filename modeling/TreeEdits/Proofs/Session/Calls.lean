import TreeEdits.Proofs.Context.Requests

/-!
# TreeEdits.Proofs.Session.Calls

What a list of requests leaves behind where a repeated change is written over an earlier record.

* `Call.records`: one record per request, but none for a repeated change. The record of a first
  change carries the node of the last change that follows before another visit adds one for the same
  node.
* `Call.records_append_of_adds`, `Call.records_append_of_repeated`: what one more request does.
-/

namespace TreeEdits

/-- A request: its node, what it asks for, and whether its visit had changed the node before. -/
structure Call (α : Type) where
  anchor : NodeId
  edit : Edit α
  changed : Bool

namespace Call

open EditRecord

variable {α : Type}

/-- Any request adds a record but a repeated change. -/
def adds (c : Call α) : Bool := !(c.edit.isReplace && c.changed)

/-- Whether a request adds a record that replaces the node with an identity. -/
def opens (a : NodeId) (c : Call α) : Bool :=
  c.edit.isReplace && !c.changed && decide (c.anchor = a)

/-- What a request puts in the place of the node with an identity. -/
def change? (a : NodeId) (c : Call α) : Option α :=
  if c.anchor = a then c.edit.replacement? else none

/-- What stands in the place of a node where `node` was put and requests follow, up to the next that
adds a record for the same. -/
def latest (a : NodeId) (node : α) (cs : List (Call α)) : α :=
  ((cs.takeWhile fun c => !c.opens a).filterMap (change? a)).getLastD node

/-- The record that a request adds, in view of the requests after it. -/
def record (c : Call α) (later : List (Call α)) : EditRecord α :=
  match c.edit with
  | .replace node => ⟨c.anchor, .replace (latest c.anchor node later)⟩
  | e => ⟨c.anchor, e⟩

/-- The records that requests leave behind. -/
def records : List (Call α) → List (EditRecord α)
  | [] => []
  | c :: cs => if c.adds then c.record cs :: records cs else records cs

theorem opens_iff {a : NodeId} {c : Call α} :
    c.opens a = true ↔ (∃ node, c.edit = .replace node) ∧ c.changed = false ∧ c.anchor = a := by
  rcases c with ⟨anchor, edit, changed⟩
  cases edit <;> simp [opens, Edit.isReplace]

theorem adds_of_opens {a : NodeId} {c : Call α} (h : c.opens a = true) : c.adds = true := by
  obtain ⟨-, hc, -⟩ := opens_iff.1 h
  rw [adds, hc, Bool.and_false, Bool.not_false]

theorem opens_or_change_eq_none {c : Call α} (h : c.adds = true) (a : NodeId) :
    c.opens a = true ∨ c.change? a = none := by
  rw [adds] at h
  by_cases ha : c.anchor = a
  · cases he : c.edit with
    | replace node =>
      rw [he] at h
      left
      simpa [opens, he, ha, Edit.isReplace] using h
    | delete => right; rw [change?, he, if_pos ha]; rfl
    | insertBefore node => right; rw [change?, he, if_pos ha]; rfl
    | insertAfter node => right; rw [change?, he, if_pos ha]; rfl
  · right
    rw [change?, if_neg ha]

theorem replaces_record (c : Call α) (cs : List (Call α)) (a : NodeId) :
    (c.record cs).replaces a = (c.edit.isReplace && decide (c.anchor = a)) := by
  rcases c with ⟨anchor, edit, changed⟩
  cases edit <;> rfl

theorem replaces_record_of_adds {c : Call α} (h : c.adds = true) (cs : List (Call α)) (a : NodeId) :
    (c.record cs).replaces a = c.opens a := by
  rw [replaces_record, opens]
  rw [adds] at h
  cases hr : c.edit.isReplace with
  | false => rfl
  | true =>
    rw [hr, Bool.true_and, Bool.not_eq_true'] at h
    rw [h, Bool.not_false, Bool.and_true]

theorem countP_replaces_records (cs : List (Call α)) (a : NodeId) :
    (records cs).countP (·.replaces a) = cs.countP (opens a) := by
  induction cs with
  | nil => rfl
  | cons c cs ih =>
    rw [records, List.countP_cons]
    split
    · rename_i h
      rw [List.countP_cons, ih, replaces_record_of_adds h]
    · rename_i h
      have hnot : ¬c.opens a = true := fun ho => h (adds_of_opens ho)
      rw [ih, if_neg hnot, Nat.add_zero]

theorem any_replaces_records (cs : List (Call α)) (a : NodeId) :
    (records cs).any (·.replaces a) = cs.any (opens a) := by
  rw [Bool.eq_iff_iff, List.any_eq_true, List.any_eq_true, ← List.countP_pos_iff,
    ← List.countP_pos_iff, countP_replaces_records]

/-! ## One more request -/

theorem latest_cons (a : NodeId) (node : α) (c : Call α) (cs : List (Call α)) :
    latest a node (c :: cs) =
      if c.opens a then node else latest a ((c.change? a).getD node) cs := by
  rw [latest, List.takeWhile_cons]
  cases ho : c.opens a with
  | true => rfl
  | false =>
    rw [Bool.not_false, if_pos rfl, List.filterMap_cons, if_neg Bool.false_ne_true]
    cases c.change? a with
    | none => rfl
    | some n => exact List.getLastD_cons

/-- A request changes nothing here if it is not about this node, or if another visit added a record
for the node before it. -/
theorem latest_append_eq_self {a : NodeId} {cs : List (Call α)} {c : Call α}
    (h : cs.any (opens a) = true ∨ c.opens a = true ∨ c.change? a = none) (node : α) :
    latest a node (cs ++ [c]) = latest a node cs := by
  induction cs generalizing node with
  | nil =>
    rw [List.nil_append, latest_cons]
    rcases h with h | h | h
    · cases h
    · rw [if_pos h]; rfl
    · rw [h]; exact ite_self _
  | cons d ds ih =>
    rw [List.cons_append, latest_cons, latest_cons]
    cases ho : d.opens a with
    | true => rfl
    | false =>
      rw [List.any_cons, ho, Bool.false_or] at h
      exact ih h _

theorem latest_append_change {a : NodeId} {cs : List (Call α)} {c : Call α} {m : α}
    (h : cs.any (opens a) = false) (ho : c.opens a = false) (hm : c.change? a = some m) (node : α) :
    latest a node (cs ++ [c]) = m := by
  induction cs generalizing node with
  | nil =>
    rw [List.nil_append, latest_cons, ho, hm]
    rfl
  | cons d ds ih =>
    rw [List.any_cons, Bool.or_eq_false_iff] at h
    rw [List.cons_append, latest_cons, h.1]
    exact ih h.2 _

theorem record_append_eq_self {c d : Call α} {cs : List (Call α)}
    (h : d.edit.isReplace = true →
      cs.any (opens d.anchor) = true ∨ c.opens d.anchor = true ∨ c.change? d.anchor = none) :
    d.record (cs ++ [c]) = d.record cs := by
  rw [record, record]
  cases hd : d.edit with
  | replace node => simp only [latest_append_eq_self (h (by rw [hd]; rfl))]
  | delete => rfl
  | insertBefore node => rfl
  | insertAfter node => rfl

theorem records_append_of_adds {c : Call α} (h : c.adds = true) (cs : List (Call α)) :
    records (cs ++ [c]) = records cs ++ [⟨c.anchor, c.edit⟩] := by
  have hlast : c.record [] = ⟨c.anchor, c.edit⟩ := by
    rcases c with ⟨anchor, edit, changed⟩
    cases edit <;> rfl
  induction cs with
  | nil => simp only [List.nil_append, records, if_pos h, hlast]
  | cons d ds ih =>
    rw [List.cons_append, records, records, ih,
      record_append_eq_self fun _ => .inr (opens_or_change_eq_none h d.anchor)]
    split <;> rfl

theorem record_append_of_repeated {c d : Call α} {m : α} (he : c.edit = .replace m)
    (hc : c.changed = true) (hd : d.adds = true) (cs : List (Call α)) :
    d.record (cs ++ [c]) =
      if d.opens c.anchor && !cs.any (opens c.anchor) then ⟨c.anchor, .replace m⟩
      else d.record cs := by
  have hopens : c.opens c.anchor = false := by rw [opens, hc, Bool.not_true, Bool.and_false]; rfl
  have hchange : c.change? c.anchor = some m := by rw [change?, if_pos rfl, he]; rfl
  by_cases h : (d.opens c.anchor && !cs.any (opens c.anchor)) = true
  · rw [if_pos h]
    rw [Bool.and_eq_true, Bool.not_eq_true'] at h
    obtain ⟨⟨node, hedit⟩, -, hanchor⟩ := opens_iff.1 h.1
    simp only [record, hedit, hanchor]
    rw [latest_append_change h.2 hopens hchange]
  · rw [if_neg h]
    apply record_append_eq_self
    intro hr
    by_cases ha : c.anchor = d.anchor
    · left
      have hdo : d.opens c.anchor = true := by
        rw [← replaces_record_of_adds hd cs, replaces_record, hr, ha, decide_eq_true rfl]
        rfl
      rw [hdo, Bool.true_and, Bool.not_eq_true', Bool.not_eq_false] at h
      rw [← ha, h]
    · right
      right
      rw [change?, if_neg ha]

/-- A repeated change is written over the last replace record of its node. -/
theorem records_append_of_repeated {c : Call α} {m : α} (he : c.edit = .replace m)
    (hc : c.changed = true) (cs : List (Call α)) :
    records (cs ++ [c]) = rewriteLast ⟨c.anchor, .replace m⟩ (records cs) := by
  have hadds : c.adds = false := by rw [adds, he, hc]; rfl
  induction cs with
  | nil => simp only [List.nil_append, records, hadds, if_neg Bool.false_ne_true, rewriteLast]
  | cons d ds ih =>
    rw [List.cons_append, records, records, ih]
    cases hd : d.adds with
    | false => rfl
    | true =>
      rw [if_pos rfl, if_pos rfl, rewriteLast, record_append_of_repeated he hc hd,
        replaces_record_of_adds hd, any_replaces_records]
      split
      · rename_i h
        rw [Bool.and_eq_true, Bool.not_eq_true', ← any_replaces_records] at h
        rw [rewriteLast_eq_self h.2]
      · rfl

/-! ## The place of a record -/

theorem getElem?_records_append (cs later : List (Call α)) :
    (records (cs ++ later))[cs.countP adds]? = (records later)[0]? := by
  induction cs with
  | nil => rfl
  | cons c cs ih =>
    rw [List.cons_append, records, List.countP_cons]
    cases c.adds with
    | true => rw [if_pos rfl, if_pos rfl, List.getElem?_cons_succ, ih]
    | false => exact ih

theorem latest_eq_getLastD {a : NodeId} {cs : List (Call α)} (h : cs.any (opens a) = false)
    (node : α) : latest a node cs = (cs.filterMap (change? a)).getLastD node := by
  induction cs generalizing node with
  | nil => rfl
  | cons c cs ih =>
    rw [List.any_cons, Bool.or_eq_false_iff] at h
    rw [latest_cons, h.1, if_neg Bool.false_ne_true, ih h.2, List.filterMap_cons]
    cases c.change? a with
    | none => rfl
    | some n => exact List.getLastD_cons.symm

/-- If only one request begins to replace a node, then its record stands behind those of the requests
before it, and it carries the node of the last change. -/
theorem getElem?_records_of_opens {a : NodeId} {before after : List (Call α)} {c : Call α} {node : α}
    (hone : (before ++ c :: after).countP (opens a) ≤ 1) (hc : c.opens a = true)
    (he : c.edit = .replace node) :
    (records (before ++ c :: after))[before.countP adds]? =
      some ⟨a, .replace ((after.filterMap (change? a)).getLastD node)⟩ := by
  have hafter : after.any (opens a) = false := by
    rw [List.countP_append, List.countP_cons, if_pos hc] at hone
    have hzero : after.countP (opens a) = 0 := by omega
    rw [List.countP_eq_zero] at hzero
    exact List.any_eq_false.2 hzero
  obtain ⟨-, -, hanchor⟩ := opens_iff.1 hc
  rw [getElem?_records_append, records, if_pos (adds_of_opens hc), List.getElem?_cons_zero]
  simp only [record, he, hanchor, latest_eq_getLastD hafter]

end Call
end TreeEdits
