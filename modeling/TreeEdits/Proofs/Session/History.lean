import TreeEdits.Proofs.Session.Calls
import TreeEdits.Proofs.Session.Sequential

/-!
# TreeEdits.Proofs.Session.History

The records of a session that visits one node after the other, told from its events alone.

* `Event.opened`, `Session.calls`: the open visits and the requests of a run. They are read off the
  events; no buffer takes part.
* `Session.Tracks`: the invariant that ties a session to the requests so far. It holds after every
  event (`tracks_step`) and after every run (`tracks_run`).
* `records_run`: the records after any run, and what they come to if no node is visited twice.
-/

namespace TreeEdits

variable {α : Type}

namespace Event

/-- The open visits after an event, innermost first: their nodes, and whether they changed them. -/
def opened : Event α → List (NodeId × Bool) → List (NodeId × Bool)
  | enter a _, vs => (a, false) :: vs
  | leave, vs => vs.tail
  | edit _, [] => []
  | edit e, (a, changed) :: vs => (a, changed || e.isReplace) :: vs

/-- The request of an event, which is one of the innermost visit. -/
def call? : Event α → List (NodeId × Bool) → Option (Call α)
  | enter _ _, _ => none
  | leave, _ => none
  | edit _, [] => none
  | edit e, (a, changed) :: _ => some ⟨a, e, changed⟩

end Event

namespace Session

/-- The requests of a run that begins with some open visits. -/
def calls (vs : List (NodeId × Bool)) : List (Event α) → List (Call α)
  | [] => []
  | e :: es => (e.call? vs).toList ++ calls (e.opened vs) es

def entered : List (Event α) → List NodeId
  | [] => []
  | .enter a _ :: es => a :: entered es
  | .leave :: es => entered es
  | .edit _ :: es => entered es

/-- The open visits of a session as events tell them. -/
def outline (s : Session α) : List (NodeId × Bool) := s.visits.map fun c => (c.anchor, c.edited)

theorem outline_nil {s : Session α} (hv : s.visits = []) : s.outline = [] := by
  rw [outline, hv, List.map_nil]

theorem outline_cons {s : Session α} {c : Context α} {outer : List (Context α)}
    (hv : s.visits = c :: outer) :
    s.outline = (c.anchor, c.edited) :: outer.map fun c => (c.anchor, c.edited) := by
  rw [outline, hv, List.map_cons]

/-- The session can record any request, and its records are those of the requests so far. -/
def Tracks (s : Session α) (cs : List (Call α)) : Prop :=
  ∃ b, s.Sound b ∧ b.records.toList = Call.records cs

theorem records_eq {s : Session α} {b : SequentialBuffer α} (h : s.Sound b) :
    s.records = b.records.toList := by
  rw [records, h.buffer, EditBuffer.records]

theorem tracks_start (hint : Nat) : (start ⟨.sequential, hint⟩ : Session α).Tracks [] :=
  ⟨.empty, sound_start hint, rfl⟩

theorem recordsAfter_records (c : Context α) (e : Edit α) (cs : List (Call α)) :
    c.recordsAfter (Call.records cs) e = Call.records (cs ++ [⟨c.anchor, e, c.edited⟩]) := by
  rw [Context.recordsAfter]
  split
  · rename_i h
    rw [Bool.and_eq_true] at h
    cases e with
    | replace node => rw [Call.records_append_of_repeated rfl h.2]
    | delete => cases h.1
    | insertBefore node => cases h.1
    | insertAfter node => cases h.1
  · rename_i h
    have hadds : Call.adds ⟨c.anchor, e, c.edited⟩ = true := by
      rw [Call.adds, Bool.eq_false_iff.2 h, Bool.not_false]
    rw [Call.records_append_of_adds hadds]

theorem tracks_step {s : Session α} {cs : List (Call α)} (h : s.Tracks cs) (e : Event α) :
    (s.step e).2.Tracks (cs ++ (e.call? s.outline).toList) ∧
      (s.step e).2.outline = e.opened s.outline := by
  obtain ⟨b, hb, hrs⟩ := h
  cases e with
  | enter a node =>
    rw [Event.call?, Option.toList_none, List.append_nil]
    exact ⟨⟨b, hb.step_enter a node, hrs⟩, rfl⟩
  | leave =>
    rw [Event.call?, Option.toList_none, List.append_nil]
    refine ⟨⟨b, hb.step_leave, hrs⟩, ?_⟩
    rcases hv : s.visits with - | ⟨c, outer⟩ <;> simp [step, outline, Event.opened, hv]
  | edit e =>
    rcases hv : s.visits with - | ⟨c, outer⟩
    · rw [step_edit_nil hv, outline_nil hv, Event.call?, Option.toList_none, List.append_nil]
      exact ⟨⟨b, hb, hrs⟩, rfl⟩
    · obtain ⟨b', hstep, hb', hrs'⟩ := hb.step_edit hv e
      rw [hstep, outline_cons hv, Event.call?, Event.opened, Option.toList_some]
      refine ⟨⟨b', hb', ?_⟩, ?_⟩
      · rw [hrs', hrs, recordsAfter_records]
      · rw [outline, List.map_cons, Context.anchor_advance, Context.edited_advance]

theorem tracks_run (es : List (Event α)) : ∀ {s : Session α} {cs : List (Call α)}, s.Tracks cs →
    (s.run es).2.Tracks (cs ++ calls s.outline es) := by
  induction es with
  | nil =>
    intro s cs h
    rwa [calls, List.append_nil]
  | cons e es ih =>
    intro s cs h
    obtain ⟨hstep, hopen⟩ := tracks_step h e
    have hrun := ih hstep
    rw [hopen, List.append_assoc] at hrun
    exact hrun

/-! ## Nodes that are visited once -/

theorem calls_enter (vs : List (NodeId × Bool)) (a : NodeId) (node : α) (es : List (Event α)) :
    calls vs (.enter a node :: es) = calls ((a, false) :: vs) es := rfl

theorem calls_leave (vs : List (NodeId × Bool)) (es : List (Event α)) :
    calls vs (.leave :: es) = calls vs.tail es := rfl

theorem calls_edit_cons (a : NodeId) (changed : Bool) (vs : List (NodeId × Bool)) (e : Edit α)
    (es : List (Event α)) :
    calls ((a, changed) :: vs) (.edit e :: es) =
      ⟨a, e, changed⟩ :: calls ((a, changed || e.isReplace) :: vs) es := rfl

/-- An unchanged visit stays unchanged or begins to replace its node, and a changed one does neither.
-/
theorem opens_add_unchanged (a a' : NodeId) (changed : Bool) (e : Edit α) :
    ((if Call.opens a ⟨a', e, changed⟩ then 1 else 0) +
        if (a', changed || e.isReplace) == (a, false) then 1 else 0) =
      if (a', changed) == (a, false) then 1 else 0 := by
  rw [Call.opens]
  cases e.isReplace with
  | false =>
    rw [Bool.false_and, Bool.false_and, if_neg Bool.false_ne_true, Bool.or_false, Nat.zero_add]
  | true => cases changed <;> simp

/-- Only a visit that begins later, or one that is open and unchanged, can begin to replace a node.
-/
theorem countP_opens_calls (a : NodeId) (es : List (Event α)) : ∀ vs : List (NodeId × Bool),
    (calls vs es).countP (Call.opens a) ≤ vs.count (a, false) + (entered es).count a := by
  induction es with
  | nil => intro vs; exact Nat.zero_le _
  | cons e es ih =>
    intro vs
    cases e with
    | enter a' node =>
      have hrest := ih ((a', false) :: vs)
      rw [calls_enter, entered, List.count_cons]
      simp only [List.count_cons, beq_iff_eq, Prod.mk.injEq, and_true] at hrest ⊢
      omega
    | leave =>
      have htail : vs.tail.count (a, false) ≤ vs.count (a, false) :=
        (List.tail_sublist vs).count_le _
      have hrest := ih vs.tail
      rw [calls_leave, entered]
      omega
    | edit e =>
      rw [entered]
      rcases vs with - | ⟨⟨a', changed⟩, vs⟩
      · exact ih []
      · have hrest := ih ((a', changed || e.isReplace) :: vs)
        have huse := opens_add_unchanged a a' changed e
        rw [calls_edit_cons, List.countP_cons, List.count_cons]
        rw [List.count_cons] at hrest
        omega

theorem nodup_opened {vs : List (NodeId × Bool)} {e : Event α} {es : List (Event α)}
    (h : (vs.map Prod.fst ++ entered (e :: es)).Nodup) :
    ((e.opened vs).map Prod.fst ++ entered es).Nodup := by
  cases e with
  | enter a node =>
    exact List.perm_middle.nodup_iff.1 h
  | leave =>
    rw [Event.opened, List.map_tail]
    exact h.sublist ((List.tail_sublist _).append_right _)
  | edit e =>
    rcases vs with - | ⟨⟨a, changed⟩, vs⟩ <;> exact h

/-- Every open visit that changed its node shows what its last request put there. -/
def Shows (s : Session α) (cs : List (Call α)) : Prop :=
  ∀ c ∈ s.visits, c.edited = true → (cs.filterMap (Call.change? c.anchor)).getLast? = some c.node

theorem shows_step {s : Session α} {cs : List (Call α)} (hs : s.Tracks cs) (h : s.Shows cs)
    (e : Event α) (hd : (s.outline.map Prod.fst).Nodup) :
    (s.step e).2.Shows (cs ++ (e.call? s.outline).toList) := by
  cases e with
  | enter a node =>
    rw [Event.call?, Option.toList_none, List.append_nil]
    intro c hc hedited
    rcases List.mem_cons.1 hc with rfl | hc
    · cases hedited
    · exact h c hc hedited
  | leave =>
    rw [Event.call?, Option.toList_none, List.append_nil]
    rcases hv : s.visits with - | ⟨c, outer⟩
    · simpa only [step, hv] using h
    · intro d hd
      simp only [step, hv] at hd
      exact h d (hv ▸ List.mem_cons_of_mem c hd)
  | edit e =>
    rcases hv : s.visits with - | ⟨c, outer⟩
    · rw [step_edit_nil hv, outline_nil hv, Event.call?, Option.toList_none, List.append_nil]
      exact h
    · obtain ⟨b, hb, -⟩ := hs
      obtain ⟨b', hstep, -⟩ := hb.step_edit hv e
      rw [hstep, outline_cons hv, Event.call?, Option.toList_some]
      intro d hmem hedited
      rw [List.filterMap_append]
      rcases List.mem_cons.1 hmem with rfl | hmem
      · have hold : c.edited = true → (cs.filterMap (Call.change? c.anchor)).getLast? = some c.node :=
          h c (hv ▸ List.mem_cons_self)
        have hchange : Call.change? c.anchor ⟨c.anchor, e, c.edited⟩ = e.replacement? := if_pos rfl
        rw [Context.edited_advance, ← Edit.isSome_replacement?] at hedited
        rw [Context.anchor_advance, Context.node_advance, List.filterMap_cons, hchange]
        cases hr : e.replacement? with
        | none =>
          rw [hr, Option.isSome_none, Bool.or_false] at hedited
          rw [List.filterMap_nil, List.append_nil]
          exact hold hedited
        | some node => exact List.getLast?_concat
      · have hne : ¬c.anchor = d.anchor := by
          rw [outline_cons hv, List.map_cons, List.nodup_cons, List.map_map] at hd
          intro heq
          apply hd.1
          rw [heq]
          exact List.mem_map_of_mem hmem
        have hchange : Call.change? d.anchor ⟨c.anchor, e, c.edited⟩ = none := if_neg hne
        rw [List.filterMap_cons, hchange, List.filterMap_nil, List.append_nil]
        exact h d (hv ▸ List.mem_cons_of_mem c hmem) hedited

theorem shows_run (es : List (Event α)) : ∀ {s : Session α} {cs : List (Call α)}, s.Tracks cs →
    s.Shows cs → (s.outline.map Prod.fst ++ entered es).Nodup →
    (s.run es).2.Shows (cs ++ calls s.outline es) := by
  induction es with
  | nil =>
    intro s cs _ h _
    rwa [calls, List.append_nil]
  | cons e es ih =>
    intro s cs hs h hd
    obtain ⟨hstep, hopen⟩ := tracks_step hs e
    have hnext := nodup_opened hd
    rw [← hopen] at hnext
    have hrun := ih hstep (shows_step hs h e (List.nodup_append.1 hd).1) hnext
    rw [hopen, List.append_assoc] at hrun
    exact hrun

/-- The record of an open visit that changed its node carries the node as it stands. -/
theorem mem_records_of_edited {s : Session α} {cs : List (Call α)} (hs : s.Tracks cs)
    (h : s.Shows cs) {c : Context α} (hc : c ∈ s.visits) (hedited : c.edited = true)
    (hone : cs.countP (Call.opens c.anchor) ≤ 1) : ⟨c.anchor, .replace c.node⟩ ∈ s.records := by
  obtain ⟨b, hb, hrs⟩ := hs
  have hany := hb.known c hc hedited
  rw [hrs, Call.any_replaces_records, List.any_eq_true] at hany
  obtain ⟨d, hd, hopens⟩ := hany
  obtain ⟨before, after, rfl⟩ := List.append_of_mem hd
  obtain ⟨⟨node, he⟩, -, hanchor⟩ := Call.opens_iff.1 hopens
  have hchange : d.change? c.anchor = some node := by rw [Call.change?, if_pos hanchor, he]; rfl
  have hlast := h c hc hedited
  rw [List.filterMap_append, List.filterMap_cons, hchange] at hlast
  have hnode : (after.filterMap (Call.change? c.anchor)).getLastD node = c.node := by
    rw [List.getLastD_eq_getLast?]
    simpa [List.getLast?_cons] using hlast
  have hat := Call.getElem?_records_of_opens hone hopens he
  rw [hnode] at hat
  rw [records_eq hb, hrs]
  exact List.mem_of_getElem? hat

/-- After any run, the records are those that the requests leave behind. If no node is visited
twice, then a node has at most one replace record. It stands behind the records of the requests
before the first change, and it carries the node of the last change of the visit. -/
theorem records_run (hint : Nat) (es : List (Event α)) {as : List (Answer α)} {s : Session α}
    (h : (start ⟨.sequential, hint⟩).run es = (as, s)) :
    s.records = Call.records (calls [] es) ∧
    ((entered es).Nodup →
      (∀ a, s.records.countP (·.replaces a) ≤ 1) ∧
      (∀ before c after node, calls [] es = before ++ c :: after → c.edit = .replace node →
        c.changed = false →
        s.records[before.countP Call.adds]? =
          some ⟨c.anchor, .replace ((after.filterMap (Call.change? c.anchor)).getLastD node)⟩) ∧
      ∀ c ∈ s.visits, c.edited = true → ⟨c.anchor, .replace c.node⟩ ∈ s.records) := by
  have htracks := tracks_run es (tracks_start (α := α) hint)
  have hshows := shows_run es (tracks_start (α := α) hint)
  rw [h, List.nil_append] at htracks
  rw [h, List.nil_append] at hshows
  obtain ⟨b, hb, hrs⟩ := htracks
  have hrecords : s.records = Call.records (calls [] es) := by rw [records_eq hb, hrs]; rfl
  refine ⟨hrecords, ?_⟩
  intro hd
  have hone : ∀ a, (calls [] es).countP (Call.opens a) ≤ 1 := by
    intro a
    have hcount := countP_opens_calls a es []
    have hle := List.nodup_iff_count.1 hd a
    rw [List.count_nil] at hcount
    omega
  refine ⟨?_, ?_, ?_⟩
  · intro a
    rw [hrecords, Call.countP_replaces_records]
    exact hone a
  · intro before c after node hcalls he hc
    have hopens : c.opens c.anchor = true := Call.opens_iff.2 ⟨⟨node, he⟩, hc, rfl⟩
    have hone' := hone c.anchor
    rw [hcalls] at hone'
    rw [hrecords, hcalls]
    exact Call.getElem?_records_of_opens hone' hopens he
  · intro c hc hedited
    have hstart : (start ⟨.sequential, hint⟩ : Session α).Shows [] := by
      intro c hc
      cases hc
    exact mem_records_of_edited ⟨b, hb, hrs⟩ (hshows hstart hd) hc hedited (hone c.anchor)

/-- A visit is changed before and after one inside it. -/
def nestedRun : List (Event Nat) :=
  [.enter ⟨1⟩ 10, .edit (.replace 11), .enter ⟨2⟩ 20, .edit (.insertBefore 21), .leave,
    .edit (.replace 12), .edit .delete]

theorem records_run_nested : ∃ as s, (start ⟨.sequential, 0⟩).run nestedRun = (as, s) ∧
    (entered nestedRun).Nodup ∧
    s.records = [⟨⟨1⟩, .replace 12⟩, ⟨⟨2⟩, .insertBefore 21⟩, ⟨⟨1⟩, .delete⟩] ∧
    ∀ a, s.records.countP (·.replaces a) ≤ 1 := by
  have hd : (entered nestedRun).Nodup := by decide
  obtain ⟨hrs, honce⟩ := records_run 0 nestedRun rfl
  exact ⟨_, _, rfl, hd, hrs, (honce hd).1⟩

/-- Where a node is visited again inside its own visit, the outer visit writes over the record of
the inner one from then on. -/
example : Call.records (calls [] [.enter ⟨1⟩ 10, .edit (.replace 11), .enter ⟨1⟩ 20,
    .edit (.replace 21), .leave, .edit (.replace 12)]) =
      [⟨⟨1⟩, .replace 11⟩, ⟨⟨1⟩, .replace 12⟩] := rfl

end Session
end TreeEdits
