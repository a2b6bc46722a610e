import TreeEdits.Proofs.Context.Requests

/-!
# TreeEdits.Proofs.Context.Changed

A change asked for in any state of a visit, also in one that no run leads to, such as a visit
flagged as changed whose replace record is missing. Of the buffer only its history is assumed.

* `EditBuffer.Built`: buffers that pushes and overwrites lead to.
* `Context.change_cases`: the four ways in which a change can go.
* `Context.record_change`: when it is refused and with what, that a refused change leaves everything
  as it was, and what an accepted one leaves.
-/

namespace TreeEdits

variable {α : Type}

/-- Every list of records is one that pushes lead to, so only buffers that can be written over are
told apart by this. -/
def EditBuffer.Built : EditBuffer α → Prop
  | sequential b => b.Built
  | parallel _ => True

namespace Context

open EditRecord

theorem advance_replace (c : Context α) (node : α) :
    c.advance (.replace node) = ⟨⟨c.anchor, node⟩, true, c.deleted⟩ := rfl

/-- A change of a visit that is not flagged as changed is pushed, whatever the buffer holds. -/
theorem change_first {c : Context α} (hc : c.edited = false) (b : EditBuffer α) (node : α) :
    c.record b (.replace node) =
      ⟨.ok .proceed, c.advance (.replace node), b.push ⟨c.anchor, .replace node⟩⟩ := by
  refine record_of_first ?_ b
  rw [hc]
  rintro ⟨-, h⟩
  cases h

theorem change_missing {c : Context α} (hc : c.edited = true) {b : SequentialBuffer α}
    (hb : b.Indexed) (hany : b.records.toList.any (·.replaces c.anchor) = false) (node : α) :
    c.record (.sequential b) (.replace node) =
      ⟨.error (.missingReplace c.anchor), c, .sequential b⟩ := by
  have hrefused : b.overwrite (c.view.record (.replace node)) = .error (.missingReplace c.anchor) :=
    SequentialBuffer.overwrite_eq_error hb hany
  have hrepeated : (Edit.replace node).isReplace = true ∧ c.edited = true := ⟨rfl, hc⟩
  simp only [record, recordSequential, if_pos hrepeated, hrefused]

/-- A repeated change takes the place of the last replace record of its anchor. -/
theorem change_again {c : Context α} (hc : c.edited = true) {b : SequentialBuffer α} (hb : b.Built)
    (hany : b.records.toList.any (·.replaces c.anchor) = true) (node : α) :
    ∃ b' before old after, b'.Built ∧
      c.record (.sequential b) (.replace node) =
        ⟨.ok .proceed, c.advance (.replace node), .sequential b'⟩ ∧
      b.records.toList = before ++ ⟨c.anchor, .replace old⟩ :: after ∧
      after.any (·.replaces c.anchor) = false ∧
      b'.records.toList = before ++ ⟨c.anchor, .replace node⟩ :: after := by
  let r : EditRecord α := c.view.record (.replace node)
  obtain ⟨b', hover, -, hrs⟩ := SequentialBuffer.overwrite_eq_ok hb.indexed (r := r) rfl hany
  obtain ⟨before, old, after, hsplit, hafter⟩ := exists_last_replace hany
  have hrepeated : (Edit.replace node).isReplace = true ∧ c.edited = true := ⟨rfl, hc⟩
  refine ⟨b', before, old, after, hb.overwrite rfl hover, ?_, hsplit, hafter, ?_⟩
  · have hover' : b.overwrite (c.view.record (.replace node)) = .ok b' := hover
    simp only [record, recordSequential, if_pos hrepeated, hover']
  · rw [hrs, hsplit]
    exact rewriteLast_append (replaces_replace c.anchor old) hafter

/-- A change is pushed, refused for a conflict, refused for want of a record, or written over the
last replace record of its anchor. -/
inductive ChangeCase (c : Context α) (b : EditBuffer α) (node : α) : Prop
  | first : c.edited = false →
    c.record b (.replace node) =
      ⟨.ok .proceed, c.advance (.replace node), b.push ⟨c.anchor, .replace node⟩⟩ →
    ChangeCase c b node
  | conflict : c.edited = true → b.mode = .parallel →
    c.record b (.replace node) = ⟨.error (.conflict c.anchor), c, b⟩ → ChangeCase c b node
  | missing : c.edited = true → b.mode = .sequential → b.records.any (·.replaces c.anchor) = false →
    c.record b (.replace node) = ⟨.error (.missingReplace c.anchor), c, b⟩ → ChangeCase c b node
  | again (b' : EditBuffer α) (before after : List (EditRecord α)) (old : α) :
    c.edited = true → b.mode = .sequential → b'.Built → b'.mode = .sequential →
    c.record b (.replace node) = ⟨.ok .proceed, c.advance (.replace node), b'⟩ →
    b.records = before ++ ⟨c.anchor, .replace old⟩ :: after →
    after.any (·.replaces c.anchor) = false →
    b'.records = before ++ ⟨c.anchor, .replace node⟩ :: after → ChangeCase c b node

theorem change_cases (c : Context α) {b : EditBuffer α} (hb : b.Built) (node : α) :
    ChangeCase c b node := by
  cases hc : c.edited with
  | false => exact .first hc (change_first hc b node)
  | true =>
    cases b with
    | parallel b => exact .conflict hc rfl (record_of_repeated ⟨rfl, hc⟩ rfl)
    | sequential b =>
      cases hany : b.records.toList.any (·.replaces c.anchor) with
      | false => exact .missing hc rfl hany (change_missing hc hb.indexed hany node)
      | true =>
        obtain ⟨b', before, old, after, hb', hrec, hsplit, hafter, hrs⟩ :=
          change_again hc hb hany node
        exact .again (.sequential b') before after old hc rfl hb' rfl hrec hsplit hafter hrs

/-- What an accepted change leaves: the visit with the new node, and the buffer with one record
more, or with the new node in the last replace record of the anchor. -/
structure Accepts (c : Context α) (b : EditBuffer α) (node : α) (o : Outcome α (EditBuffer α)) :
    Prop where
  result : o.result = .ok .proceed
  context : o.context = ⟨⟨c.anchor, node⟩, true, c.deleted⟩
  mode : o.buffer.mode = b.mode
  built : o.buffer.Built
  first : c.edited = false → o.buffer.records = b.records ++ [⟨c.anchor, .replace node⟩]
  again : c.edited = true → ∃ before old after,
    b.records = before ++ ⟨c.anchor, .replace old⟩ :: after ∧
    (∀ later, ⟨c.anchor, .replace later⟩ ∉ after) ∧
    o.buffer.records = before ++ ⟨c.anchor, .replace node⟩ :: after

theorem accepts_first {c : Context α} (hc : c.edited = false) {b : EditBuffer α} (hb : b.Built)
    (node : α) :
    c.Accepts b node
      ⟨.ok .proceed, c.advance (.replace node), b.push ⟨c.anchor, .replace node⟩⟩ where
  result := rfl
  context := advance_replace c node
  mode := EditBuffer.mode_push b _
  built := by
    cases b with
    | sequential b => exact hb.push _
    | parallel b => trivial
  first _ := EditBuffer.records_push b _
  again h := by
    rw [hc] at h
    cases h

/-- In whatever state a visit is, a change is refused exactly if the visit is flagged as changed and
either records can only grow or there is no replace record of its anchor. The error names the
anchor, and the visit and the buffer, with all that it knows replace records by, are as they were.
An accepted change shows in the node and the flag alone; it adds one record at the end if it is the
first, and otherwise only puts the new node into the last replace record of the anchor. -/
theorem record_change (c : Context α) {b : EditBuffer α} (hb : b.Built) (node : α) :
    (∀ err, (c.record b (.replace node)).result = .error err ↔ c.edited = true ∧
      (b.mode = .parallel ∧ err = .conflict c.anchor ∨
        b.mode = .sequential ∧ (∀ old, ⟨c.anchor, .replace old⟩ ∉ b.records) ∧
          err = .missingReplace c.anchor)) ∧
    (∀ err, (c.record b (.replace node)).result = .error err →
      c.record b (.replace node) = ⟨.error err, c, b⟩) ∧
    (∀ k, (c.record b (.replace node)).result = .ok k →
      c.Accepts b node (c.record b (.replace node))) := by
  cases change_cases c hb node with
  | first hc hrec =>
    rw [hrec]
    refine ⟨?_, ?_, fun k _ => accepts_first hc hb node⟩
    · simp [hc]
    · intro err h
      cases h
  | conflict hc hm hrec =>
    rw [hrec]
    refine ⟨?_, ?_, ?_⟩
    · simp [hc, hm, eq_comm]
    · intro err h
      cases h
      rfl
    · intro k h
      cases h
  | missing hc hm hany hrec =>
    have hnone := any_replaces_eq_false.1 hany
    rw [hrec]
    refine ⟨?_, ?_, ?_⟩
    · simp [hc, hm, hnone, eq_comm]
    · intro err h
      cases h
      rfl
    · intro k h
      cases h
  | again b' before after old hc hm hb' hm' hrec hsplit hafter hrs =>
    have hmem : (⟨c.anchor, .replace old⟩ : EditRecord α) ∈ b.records := by simp [hsplit]
    rw [hrec]
    refine ⟨?_, ?_, ?_⟩
    · intro err
      constructor
      · intro h
        cases h
      · rintro ⟨-, ⟨hp, -⟩ | ⟨-, hnone, -⟩⟩
        · rw [hm] at hp
          cases hp
        · exact absurd hmem (hnone old)
    · intro err h
      cases h
    · intro k _
      refine ⟨rfl, advance_replace c node, hm'.trans hm.symm, hb', ?_, ?_⟩
      · intro hfirst
        rw [hc] at hfirst
        cases hfirst
      · exact fun _ => ⟨before, old, after, hsplit, any_replaces_eq_false.1 hafter, hrs⟩

/-- Two visits that are flagged as changed, over one buffer. No run leads to the first, whose anchor
has no replace record; the anchor of the second has two. -/
theorem record_change_stray :
    let b : SequentialBuffer String := (((SequentialBuffer.empty.push ⟨⟨4⟩, .replace "a"⟩).push
      ⟨⟨4⟩, .replace "b"⟩).push ⟨⟨5⟩, .delete⟩)
    let stray : Context String := ⟨⟨⟨5⟩, "x"⟩, true, true⟩
    let known : Context String := ⟨⟨⟨4⟩, "b"⟩, true, false⟩
    (EditBuffer.sequential b).Built ∧
      stray.record (.sequential b) (.replace "z") =
        ⟨.error (.missingReplace ⟨5⟩), stray, .sequential b⟩ ∧
      known.Accepts (.sequential b) "z" (known.record (.sequential b) (.replace "z")) ∧
      (known.record (.sequential b) (.replace "z")).buffer.records =
        [⟨⟨4⟩, .replace "a"⟩, ⟨⟨4⟩, .replace "z"⟩, ⟨⟨5⟩, .delete⟩] := by
  intro b stray known
  have hb : (EditBuffer.sequential b).Built := ((SequentialBuffer.Built.empty.push _).push _).push _
  have hnone : ∀ old,
      (⟨⟨5⟩, .replace old⟩ : EditRecord String) ∉ (EditBuffer.sequential b).records :=
    any_replaces_eq_false.1 rfl
  obtain ⟨hstray, hsame, -⟩ := record_change stray hb "z"
  obtain ⟨hrefused, -, hknown⟩ := record_change known hb "z"
  refine ⟨hb, hsame _ ((hstray _).2 ⟨rfl, .inr ⟨rfl, hnone, rfl⟩⟩), ?_⟩
  cases hr : (known.record (.sequential b) (.replace "z")).result with
  | error err =>
    obtain ⟨-, ⟨hm, -⟩ | ⟨-, hmissing, -⟩⟩ := (hrefused err).1 hr
    · cases hm
    · exact absurd (.head _) (hmissing "a")
  | ok k =>
    have haccepts := hknown k hr
    obtain ⟨before, old, after, hsplit, hlater, hrs⟩ := haccepts.again rfl
    refine ⟨haccepts, hrs.trans ?_⟩
    obtain _ | ⟨p, _ | ⟨q, before⟩⟩ := before
    · cases hsplit
      exact absurd (.head _) (hlater "b")
    · cases hsplit
      rfl
    · cases before with
      | nil => cases hsplit
      | cons w before =>
        have hlength : 3 = _ := congrArg List.length hsplit
        simp only [List.length_append, List.length_cons] at hlength
        omega

end Context
end TreeEdits
