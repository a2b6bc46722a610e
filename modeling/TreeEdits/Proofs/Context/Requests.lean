import TreeEdits.Editor
import TreeEdits.Proofs.Buffer.LastReplace

/-!
# TreeEdits.Proofs.Context.Requests

What the requests of one visit leave behind, as a function of the list of records.

* `recordSequential_eq`: over a buffer that can be written over, a request is never refused as long
  as a changed visit has its replace record (`Context.Known`), and `Context.recordsAfter` says what
  becomes of the records.
* `visit_edits_sequential`: a visit of fixed edits there. From an unchanged visit it adds the merged
  edits (`recordsAll_eq_merged`): one replacement, at the place of the first and with the node of
  the last.
* `visit_edits_parallel`: a visit of fixed edits over a buffer that only grows. It adds the edits
  up to the first conflict.
-/

namespace TreeEdits

namespace Edit

variable {α : Type}

def replacement? : Edit α → Option α
  | replace node => some node
  | _ => none

/-- The node after some edits, if it was `node` before. -/
def lastNode (node : α) (es : List (Edit α)) : α := (es.filterMap replacement?).getLastD node

/-- One edit for all changes, at the place of the first and with the node of the last, and every
other edit as it is. -/
def merged : List (Edit α) → List (Edit α)
  | [] => []
  | replace node :: es => replace (lastNode node es) :: es.filter (!·.isReplace)
  | e :: es => e :: merged es

/-- The edits before the first change of a node that is changed already. -/
def upToConflict (edited : Bool) : List (Edit α) → List (Edit α)
  | [] => []
  | e :: es => if e.isReplace && edited then [] else e :: upToConflict (edited || e.isReplace) es

theorem isSome_replacement? (e : Edit α) : e.replacement?.isSome = e.isReplace := by
  cases e <;> rfl

theorem lastNode_nil (node : α) : lastNode node [] = node := rfl

theorem lastNode_replace (node m : α) (es : List (Edit α)) :
    lastNode node (replace m :: es) = lastNode m es := by
  simp only [lastNode, List.filterMap_cons, replacement?, List.getLastD_cons]

theorem lastNode_of_not_replace {e : Edit α} (h : e.isReplace = false) (node : α)
    (es : List (Edit α)) : lastNode node (e :: es) = lastNode node es := by
  cases e with
  | replace m => cases h
  | delete => rfl
  | insertBefore m => rfl
  | insertAfter m => rfl

theorem merged_of_not_replace {e : Edit α} (h : e.isReplace = false) (es : List (Edit α)) :
    merged (e :: es) = e :: merged es := by
  cases e with
  | replace m => cases h
  | delete => rfl
  | insertBefore m => rfl
  | insertAfter m => rfl

theorem merged_eq_self {es : List (Edit α)} (h : es.countP isReplace ≤ 1) : merged es = es := by
  induction es with
  | nil => rfl
  | cons e es ih =>
    rw [List.countP_cons] at h
    cases e with
    | replace m =>
      have hzero : es.countP isReplace = 0 := by
        simp only [isReplace, if_true] at h
        omega
      rw [List.countP_eq_zero] at hzero
      have hnone : es.filterMap replacement? = [] := by
        rw [List.filterMap_eq_nil_iff]
        intro e he
        cases e with
        | replace n => exact absurd rfl (hzero _ he)
        | delete => rfl
        | insertBefore n => rfl
        | insertAfter n => rfl
      have hall : es.filter (!·.isReplace) = es := by
        rw [List.filter_eq_self]
        intro e he
        simpa using hzero e he
      rw [merged, hall, lastNode, hnone, List.getLastD_nil]
    | delete => rw [merged_of_not_replace rfl, ih (by simpa [isReplace] using h)]
    | insertBefore m => rw [merged_of_not_replace rfl, ih (by simpa [isReplace] using h)]
    | insertAfter m => rw [merged_of_not_replace rfl, ih (by simpa [isReplace] using h)]

theorem lastNode_append_replace {pre : List (Edit α)} (h : ∀ e ∈ pre, e.isReplace = false)
    (node m : α) (post : List (Edit α)) :
    lastNode node (pre ++ replace m :: post) = lastNode m post := by
  induction pre with
  | nil => exact lastNode_replace node m post
  | cons e pre ih =>
    rw [List.forall_mem_cons] at h
    rw [List.cons_append, lastNode_of_not_replace h.1, ih h.2]

theorem merged_append_replace {pre : List (Edit α)} (h : ∀ e ∈ pre, e.isReplace = false) (m : α)
    (post : List (Edit α)) :
    merged (pre ++ replace m :: post) =
      pre ++ replace (lastNode m post) :: post.filter (!·.isReplace) := by
  induction pre with
  | nil => rfl
  | cons e pre ih =>
    rw [List.forall_mem_cons] at h
    rw [List.cons_append, merged_of_not_replace h.1, ih h.2, List.cons_append]

theorem countP_merged_le (es : List (Edit α)) : (merged es).countP isReplace ≤ 1 := by
  induction es with
  | nil => exact Nat.zero_le 1
  | cons e es ih =>
    cases hr : e.isReplace with
    | false => rwa [merged_of_not_replace hr, List.countP_cons, hr, if_neg Bool.false_ne_true]
    | true =>
      cases e with
      | replace m =>
        have hrest : (es.filter (!·.isReplace)).countP isReplace = 0 := by
          rw [List.countP_eq_zero]
          intro e he
          simpa using (List.mem_filter.1 he).2
        rw [merged, List.countP_cons, hrest]
        exact Nat.le_refl 1
      | delete => cases hr
      | insertBefore m => cases hr
      | insertAfter m => cases hr

theorem upToConflict_eq_self {edited : Bool} {es : List (Edit α)} :
    upToConflict edited es = es ↔ edited.toNat + es.countP isReplace ≤ 1 := by
  induction es generalizing edited with
  | nil => cases edited <;> simp [upToConflict]
  | cons e es ih =>
    rw [upToConflict, List.countP_cons]
    cases hr : e.isReplace with
    | false => simp [ih]
    | true =>
      cases edited with
      | false => simp [ih, Nat.add_comm]
      | true => simp

end Edit

namespace Context

open EditRecord

variable {α : Type}

theorem edited_advance (c : Context α) (e : Edit α) :
    (c.advance e).edited = (c.edited || e.isReplace) := by
  cases e <;> simp [advance, Edit.isReplace]

theorem node_advance (c : Context α) (e : Edit α) :
    (c.advance e).node = e.replacement?.getD c.node := by
  cases e <;> rfl

theorem deleted_advance (c : Context α) (e : Edit α) :
    (c.advance e).deleted = (c.deleted || decide (e.action = .delete)) := by
  cases e <;> simp [advance, Edit.action]

theorem deleted_foldl_advance (c : Context α) (es : List (Edit α)) :
    (es.foldl advance c).deleted = (c.deleted || es.any fun e => decide (e.action = .delete)) := by
  induction es generalizing c with
  | nil => simp
  | cons e es ih => rw [List.foldl_cons, ih, deleted_advance, List.any_cons, Bool.or_assoc]

theorem edited_foldl_advance (c : Context α) (es : List (Edit α)) :
    (es.foldl advance c).edited = (c.edited || es.any Edit.isReplace) := by
  induction es generalizing c with
  | nil => simp
  | cons e es ih => rw [List.foldl_cons, ih, edited_advance, List.any_cons, Bool.or_assoc]

theorem anchor_foldl_advance (c : Context α) (es : List (Edit α)) :
    (es.foldl advance c).anchor = c.anchor := by
  induction es generalizing c with
  | nil => rfl
  | cons e es ih => rw [List.foldl_cons, ih, anchor_advance]

theorem node_foldl_advance (c : Context α) (es : List (Edit α)) :
    (es.foldl advance c).node = Edit.lastNode c.node es := by
  induction es generalizing c with
  | nil => rfl
  | cons e es ih =>
    rw [List.foldl_cons, ih, node_advance]
    cases e with
    | replace m => exact (Edit.lastNode_replace c.node m es).symm
    | delete => rfl
    | insertBefore m => rfl
    | insertAfter m => rfl

/-- A change that is not repeated counts as made from then on. -/
theorem countP_advance {c : Context α} {e : Edit α} (h : ¬(e.isReplace = true ∧ c.edited = true))
    (es : List (Edit α)) :
    (c.advance e).edited.toNat + es.countP Edit.isReplace =
      c.edited.toNat + (e :: es).countP Edit.isReplace := by
  rw [edited_advance, List.countP_cons]
  cases hr : e.isReplace with
  | false => simp
  | true =>
    have hc : c.edited = false := by simpa [hr] using h
    simp [hc, Nat.add_comm]

/-! ## One request -/

/-- A visit that changed its node has a replace record. -/
def Known (c : Context α) (b : SequentialBuffer α) : Prop :=
  c.edited = true → b.records.toList.any (·.replaces c.anchor) = true

/-- The records after a request that was not refused. -/
def recordsAfter (c : Context α) (rs : List (EditRecord α)) (e : Edit α) : List (EditRecord α) :=
  if e.isReplace && c.edited then rewriteLast ⟨c.anchor, e⟩ rs else rs ++ [⟨c.anchor, e⟩]

/-- Afterwards those nodes have a replace record that had one, and the node that was changed. -/
theorem any_replaces_recordsAfter (c : Context α) (rs : List (EditRecord α)) (e : Edit α)
    (hc : c.edited = true → rs.any (·.replaces c.anchor) = true) (a : NodeId) :
    (c.recordsAfter rs e).any (·.replaces a) =
      (rs.any (·.replaces a) || (e.isReplace && decide (c.anchor = a))) := by
  rw [recordsAfter]
  split
  · rename_i h
    rw [Bool.and_eq_true] at h
    have hr : (⟨c.anchor, e⟩ : EditRecord α).isReplace = true := h.1
    rw [any_replaces_rewriteLast hr]
    by_cases ha : c.anchor = a
    · rw [← ha, hc h.2, Bool.true_or]
    · simp [ha]
  · simp [replaces, EditRecord.isReplace]

theorem recordSequential_eq {c : Context α} {b : SequentialBuffer α} (hb : b.Indexed)
    (hc : c.Known b) (e : Edit α) :
    ∃ b', c.recordSequential b e = ⟨.ok .proceed, c.advance e, b'⟩ ∧ b'.Indexed ∧
      b'.records.toList = c.recordsAfter b.records.toList e := by
  by_cases h : e.isReplace = true ∧ c.edited = true
  · obtain ⟨b', hok, hb', hrs⟩ :=
      SequentialBuffer.overwrite_eq_ok hb (r := ⟨c.anchor, e⟩) h.1 (hc h.2)
    refine ⟨b', ?_, hb', ?_⟩
    · have hok' : b.overwrite (c.view.record e) = .ok b' := hok
      simp only [recordSequential, if_pos h, hok']
    · rw [hrs, recordsAfter, h.1, h.2]
      rfl
  · refine ⟨b.push ⟨c.anchor, e⟩, ?_, SequentialBuffer.indexed_push hb _, ?_⟩
    · simp only [recordSequential, if_neg h]
      rfl
    · have hf : ¬(e.isReplace && c.edited) = true := by rwa [Bool.and_eq_true]
      rw [recordsAfter, if_neg hf]
      exact Array.toList_push

theorem known_advance {c : Context α} {b b' : SequentialBuffer α} {e : Edit α} (hc : c.Known b)
    (h : b'.records.toList = c.recordsAfter b.records.toList e) : (c.advance e).Known b' := by
  intro he
  rw [h, anchor_advance, any_replaces_recordsAfter c _ e hc]
  rw [edited_advance, Bool.or_eq_true] at he
  rcases he with he | he
  · rw [hc he, Bool.true_or]
  · simp [he]

theorem known_enter (a : NodeId) (node : α) (b : SequentialBuffer α) : (enter a node).Known b := by
  intro h
  cases h

/-! ## The requests of a visit -/

theorem visit_edits_nil (finish : Sight α → Control) (c : Context α) (b : EditBuffer α) :
    c.visit b (Visit.edits finish []) = ⟨.ok (finish (c.sight b)), c, b⟩ := rfl

theorem visit_edits_cons (finish : Sight α → Control) (c : Context α) (b : EditBuffer α)
    (e : Edit α) (es : List (Edit α)) :
    c.visit b (Visit.edits finish (e :: es)) =
      match (c.record b e).result with
      | .error err => ⟨.error err, (c.record b e).context, (c.record b e).buffer⟩
      | .ok _ => (c.record b e).context.visit (c.record b e).buffer (Visit.edits finish es) := by
  rw [visit, Visit.edits, Visit.run]
  cases (c.record b e).result with
  | error err => rfl
  | ok control => rfl

theorem context_record {c : Context α} {b : EditBuffer α} {e : Edit α} {k : Control}
    (h : (c.record b e).result = .ok k) : (c.record b e).context = c.advance e := by
  by_cases hr : e.isReplace = true ∧ c.edited = true
  · cases b with
    | sequential b =>
      cases ho : b.overwrite (c.view.record e) with
      | ok b' => simp only [record, recordSequential, if_pos hr, ho]
      | error err => simp [record, recordSequential, if_pos hr, ho] at h
    | parallel b =>
      rw [record_of_repeated hr rfl] at h
      cases h
  · rw [record_of_first hr]

/-- A visit that does not fail had all its requests recorded, and then ends as it says. -/
theorem visit_edits_ok {finish : Sight α → Control} {es : List (Edit α)} :
    ∀ {c : Context α} {b : EditBuffer α} {k : Control},
      (c.visit b (Visit.edits finish es)).result = .ok k →
      k = finish ((c.visit b (Visit.edits finish es)).context.sight
          (c.visit b (Visit.edits finish es)).buffer) ∧
        (c.visit b (Visit.edits finish es)).context = es.foldl advance c := by
  induction es with
  | nil =>
    intro c b k h
    cases h
    exact ⟨rfl, rfl⟩
  | cons e es ih =>
    intro c b k h
    rw [visit_edits_cons] at h ⊢
    cases hrec : (c.record b e).result with
    | error err =>
      rw [hrec] at h
      cases h
    | ok k' =>
      rw [hrec] at h
      obtain ⟨hk, hc⟩ := ih h
      exact ⟨hk, by rw [hc, context_record hrec, List.foldl_cons]⟩

def recordsAll (c : Context α) (rs : List (EditRecord α)) : List (Edit α) → List (EditRecord α)
  | [] => rs
  | e :: es => (c.advance e).recordsAll (c.recordsAfter rs e) es

theorem recordsAll_append (es fs : List (Edit α)) :
    ∀ (c : Context α) (rs : List (EditRecord α)),
      c.recordsAll rs (es ++ fs) = (es.foldl advance c).recordsAll (c.recordsAll rs es) fs := by
  induction es with
  | nil => intro c rs; rfl
  | cons e es ih => intro c rs; exact ih (c.advance e) (c.recordsAfter rs e)

theorem visit_edits_sequential (finish : Sight α → Control) (es : List (Edit α)) :
    ∀ {c : Context α} {b : SequentialBuffer α}, b.Indexed → c.Known b →
      ∃ b', c.visit (.sequential b) (Visit.edits finish es) =
          ⟨.ok (finish ((es.foldl advance c).sight (.sequential b'))), es.foldl advance c,
            .sequential b'⟩ ∧
        b'.Indexed ∧ (es.foldl advance c).Known b' ∧
        b'.records.toList = c.recordsAll b.records.toList es := by
  induction es with
  | nil =>
    intro c b hb hc
    exact ⟨b, visit_edits_nil finish c _, hb, hc, rfl⟩
  | cons e es ih =>
    intro c b hb hc
    obtain ⟨b₁, hrec, hb₁, hrs₁⟩ := recordSequential_eq hb hc e
    obtain ⟨b', hvisit, hb', hc', hrs'⟩ := ih hb₁ (known_advance hc hrs₁)
    have hrec' : c.record (.sequential b) e = ⟨.ok .proceed, c.advance e, .sequential b₁⟩ := by
      simp only [record, hrec]
    refine ⟨b', ?_, hb', hc', ?_⟩
    · rw [visit_edits_cons, hrec']
      exact hvisit
    · rw [hrs', hrs₁, recordsAll]

/-- After the first change, what was added is a replacement that follows the changes, and the other
edits after it. -/
theorem recordsAll_of_changed (es : List (Edit α)) :
    ∀ {c : Context α} (pre post : List (EditRecord α)) (m : α), c.edited = true →
      post.any (·.replaces c.anchor) = false →
      c.recordsAll (pre ++ ⟨c.anchor, .replace m⟩ :: post) es =
        pre ++ ⟨c.anchor, .replace (Edit.lastNode m es)⟩ ::
          (post ++ (es.filter (!·.isReplace)).map (EditRecord.mk c.anchor)) := by
  induction es with
  | nil =>
    intro c pre post m _ _
    simp [recordsAll, Edit.lastNode_nil]
  | cons e es ih =>
    intro c pre post m hc hpost
    have hc' : (c.advance e).edited = true := by rw [edited_advance, hc, Bool.true_or]
    rw [recordsAll, recordsAfter, hc, Bool.and_true]
    cases hr : e.isReplace with
    | true =>
      cases e with
      | replace n =>
        have hq := replaces_replace c.anchor m
        rw [if_pos rfl, rewriteLast_append hq hpost, Edit.lastNode_replace]
        exact ih (c := c.advance (.replace n)) pre post n hc' hpost
      | delete => cases hr
      | insertBefore n => cases hr
      | insertAfter n => cases hr
    | false =>
      let q : EditRecord α := ⟨c.anchor, e⟩
      have hpost' : (post ++ [q]).any (·.replaces (c.advance e).anchor) = false := by
        rw [anchor_advance, List.any_append, hpost]
        simp [q, replaces, EditRecord.isReplace, hr]
      have hrest := ih pre (post ++ [q]) m hc' hpost'
      rw [anchor_advance] at hrest
      rw [if_neg Bool.false_ne_true, List.append_assoc, List.cons_append, hrest,
        Edit.lastNode_of_not_replace hr]
      simp [q, hr]

theorem recordsAll_eq_merged (es : List (Edit α)) : ∀ {c : Context α} {rs : List (EditRecord α)},
    c.edited = false →
      c.recordsAll rs es = rs ++ (Edit.merged es).map (EditRecord.mk c.anchor) := by
  induction es with
  | nil =>
    intro c rs _
    simp [recordsAll, Edit.merged]
  | cons e es ih =>
    intro c rs hc
    rw [recordsAll, recordsAfter, hc, Bool.and_false, if_neg Bool.false_ne_true]
    cases hr : e.isReplace with
    | true =>
      cases e with
      | replace n =>
        have hc' : (c.advance (.replace n)).edited = true := rfl
        exact recordsAll_of_changed es rs [] n hc' rfl
      | delete => cases hr
      | insertBefore n => cases hr
      | insertAfter n => cases hr
    | false =>
      have hc' : (c.advance e).edited = false := by rw [edited_advance, hc, hr]; rfl
      rw [ih hc', anchor_advance, Edit.merged_of_not_replace hr]
      simp

/-- Over a buffer that only grows, a visit adds its edits up to the first conflict, which is what
it fails with. -/
theorem visit_edits_parallel (finish : Sight α → Control) (es : List (Edit α)) :
    ∀ (c : Context α) (b : ParallelBuffer α),
      ∃ b' c', c.visit (.parallel b) (Visit.edits finish es) =
          ⟨if c.edited.toNat + es.countP Edit.isReplace ≤ 1
            then .ok (finish (c'.sight (.parallel b'))) else .error (.conflict c.anchor),
            c', .parallel b'⟩ ∧
        c' = (Edit.upToConflict c.edited es).foldl advance c ∧
        b'.records.toList =
          b.records.toList ++ (Edit.upToConflict c.edited es).map (EditRecord.mk c.anchor) := by
  induction es with
  | nil =>
    intro c b
    have hone : c.edited.toNat + ([] : List (Edit α)).countP Edit.isReplace ≤ 1 := by
      cases c.edited with
      | false => exact Nat.zero_le 1
      | true => exact Nat.le_refl 1
    refine ⟨b, c, ?_, rfl, by simp [Edit.upToConflict]⟩
    rw [visit_edits_nil, if_pos hone]
  | cons e es ih =>
    intro c b
    rw [visit_edits_cons, Edit.upToConflict, List.countP_cons]
    by_cases h : e.isReplace = true ∧ c.edited = true
    · have hcut : (e.isReplace && c.edited) = true := by rwa [Bool.and_eq_true]
      have hmany : ¬c.edited.toNat + (es.countP Edit.isReplace + if e.isReplace then 1 else 0) ≤ 1 := by
        rw [h.1, h.2, if_pos rfl, Bool.toNat_true]
        omega
      refine ⟨b, c, ?_, ?_, ?_⟩
      · rw [record_of_repeated h rfl, if_neg hmany]
      · rw [if_pos hcut, List.foldl_nil]
      · simp [hcut]
    · have hgo : ¬(e.isReplace && c.edited) = true := by rwa [Bool.and_eq_true]
      have hcount := countP_advance h es
      rw [List.countP_cons] at hcount
      obtain ⟨b', c', hvisit, hc', hrs⟩ := ih (c.advance e) (b.push ⟨c.anchor, e⟩)
      rw [anchor_advance] at hvisit hrs
      rw [edited_advance] at hrs hc'
      refine ⟨b', c', ?_, ?_, ?_⟩
      · rw [record_of_first h, ← hcount]
        exact hvisit
      · rw [if_neg hgo, List.foldl_cons, hc']
      · rw [hrs, if_neg hgo, ParallelBuffer.push, Array.toList_push, List.map_cons,
          List.append_assoc, List.singleton_append]

end Context
end TreeEdits
