import Mathlib.Data.List.Permutation
import TreeEdits.Edit.Json
import TreeEdits.Proofs.Tree.Form

/-!
# TreeEdits.Proofs.Edit.Form

Edits and records off their members in any order. A node that comes behind its kind is read on the
spot; one that comes before it, and every node of a record, is kept as a value and looked at later.
Both ways give the node that was written.

* `JsonForm.Faithful`: a value that is read back as itself, from a text and from a kept value.
* `Edit.taken_members`, `Edit.ofMembers_members`: the members of an edit, read and kept.
* `EditRecord.taken_members`: the members of a record.
* `EditRecord.readBack`: whole texts.
-/

namespace TreeEdits

variable {α : Type}

theorem Edit.eq_delete_of_node {e : Edit α} (hx : e.node? = none) : e = delete := by
  cases e with
  | delete => rfl
  | _ => cases hx

variable [JsonForm α]

/-- Within the budget the form of the value is read as the value, whether it is known what it is or
the form is kept and looked at later. -/
structure JsonForm.Faithful (budget : Nat) (a : α) : Prop where
  reads : Reads (JsonForm.read budget) (toJson a).tokens a
  plain : (toJson a).Plain
  depth : (toJson a).depth ≤ budget
  ofJson : JsonForm.ofJson (toJson a) = .ok a

theorem faithful_string (budget : Nat) (s : String) : JsonForm.Faithful budget s where
  reads := reads_string s
  plain := .str s
  depth := Nat.zero_le budget
  ofJson := rfl

theorem Tree.faithful {budget : Nat} {t : Tree} (h : 2 * t.height ≤ budget + 1) :
    JsonForm.Faithful budget t where
  reads := reads_toJson h
  plain := (form_toJson t).plain
  depth := depth_toJson_le h
  ofJson := (form_toJson t).ofJson_eq

theorem faithful_action (budget : Nat) (a : Action) : JsonForm.Faithful budget a where
  reads := reads_choice budget (by cases a <;> rfl)
  plain := .str _
  depth := Nat.zero_le budget
  ofJson := by cases a <;> rfl

theorem reads_nodeId (budget : Nat) (id : NodeId) :
    Reads (JsonForm.read budget) (toJson id).tokens id :=
  (reads_natural "u32" (by decide) id.index.toNat_lt).imp fun hread => by
    simp [JsonForm.read, hread]

theorem nodeId_lt_wordLimit (id : NodeId) : id.index.toNat < wordLimit :=
  Nat.lt_trans id.index.toNat_lt (by decide)

theorem plain_nodeId (id : NodeId) : (toJson id).Plain := .nat (nodeId_lt_wordLimit id)

namespace Edit

variable {e : Edit α} {ms : List (String × Json)} {budget : Nat} {x : α}

theorem members_of_node (hx : e.node? = some x) :
    e.members = [("kind", JsonForm.toJson e.action), ("node", JsonForm.toJson x)] := by
  rw [members, hx]

/-- The members of an edit stand in one of two orders. -/
theorem perm_members (h : ms.Perm e.members) : ms = e.members ∨
    ∃ x, e.node? = some x ∧
      ms = [("node", JsonForm.toJson x), ("kind", JsonForm.toJson e.action)] := by
  cases hx : e.node? with
  | none =>
    rw [members, hx] at h ⊢
    exact .inl (List.perm_singleton.1 h)
  | some x =>
    rw [members_of_node hx] at h ⊢
    rcases List.perm_pair.1 h with rfl | rfl
    · exact .inl rfl
    · exact .inr ⟨x, rfl, rfl⟩

theorem reads_node (hx : e.node? = some x) (h : JsonForm.Faithful budget x) :
    Reads (readNode budget e.action) (JsonForm.toJson x).tokens e := by
  cases e with
  | delete => cases hx
  | _ =>
    cases hx
    exact h.reads.imp fun hread => by simp only [action, readNode, hread]

theorem ofNode_toJson (hx : e.node? = some x) (h : JsonForm.Faithful budget x) :
    ofNode e.action (JsonForm.toJson x) = .ok e := by
  cases e <;> cases hx <;> simp only [action, ofNode, h.ofJson]

theorem taken_members (h : ms.Perm e.members) (hnode : ∀ x ∈ e.node?, JsonForm.Faithful budget x) :
    ∃ d, Taken (take budget) .nothing ms d ∧ d.finish = .ok e := by
  have hkind := (faithful_action budget e.action).reads
  rcases perm_members h with rfl | ⟨x, hx, rfl⟩
  · have hfirst : Taken (take budget) (.nothing : Draft α) [("kind", JsonForm.toJson e.action)]
        (.kind e.action) :=
      .cons rfl (hkind.imp fun hread => by simp only [hread]) (.nil _)
    cases hx : e.node? with
    | none =>
      rw [members, hx]
      refine ⟨_, hfirst, ?_⟩
      rw [eq_delete_of_node hx]
      rfl
    | some x =>
      rw [members_of_node hx]
      have hsecond := reads_node hx (hnode x hx)
      exact ⟨.complete e, hfirst.append
        (.cons rfl (hsecond.imp fun hread => by simp only [hread]) (.nil _)), rfl⟩
  · have hx' := hnode x hx
    have hfirst : Taken (take budget) (.nothing : Draft α) [("node", JsonForm.toJson x)]
        (.node (JsonForm.toJson x)) :=
      .cons rfl ((hx'.plain.reads hx'.depth).imp fun hread => by simp only [hread]) (.nil _)
    -- The node was kept, so it is looked into once the kind is known.
    have hsecond : Taken (take budget) (.node (JsonForm.toJson x))
        [("kind", JsonForm.toJson e.action)] (.complete e) :=
      .cons rfl (hkind.imp fun hread => by simp only [hread, ofNode_toJson hx hx']) (.nil _)
    exact ⟨.complete e, hfirst.append hsecond, rfl⟩

theorem ofMembers_members (h : ms.Perm e.members)
    (hnode : ∀ x ∈ e.node?, JsonForm.Faithful budget x) : ofMembers .nothing ms = .ok e := by
  have hkind := (faithful_action budget e.action).ofJson
  rcases perm_members h with rfl | ⟨x, hx, rfl⟩
  · cases hx : e.node? with
    | none =>
      rw [members, hx, eq_delete_of_node hx]
      rfl
    | some x =>
      rw [members_of_node hx]
      simp [ofMembers, hkind, ofNode_toJson hx (hnode x hx), Draft.finish]
  · simp [ofMembers, hkind, ofNode_toJson hx (hnode x hx), Draft.finish]

theorem reads_members (h : ms.Perm e.members) (hnode : ∀ x ∈ e.node?, JsonForm.Faithful budget x) :
    Reads (read (budget + 1)) (Json.obj ms).tokens e := by
  intro us s _ hs
  obtain ⟨d, htaken, hfinish⟩ := taken_members h hnode
  obtain ⟨s₁, hskip, h₁⟩ := hs.object
  obtain ⟨s', hread, h'⟩ := htaken.reads h₁
  exact ⟨s', by simp only [read, hskip, hread, hfinish], h'⟩

end Edit

namespace EditRecord

variable {r : EditRecord α} {ms : List (String × Json)} {budget : Nat}

def members (r : EditRecord α) : List (String × Json) :=
  ("anchor", JsonForm.toJson r.anchor) :: r.edit.members

/-- The members of a record that are no anchor are kept, latest first. -/
theorem taken_others (h : ∀ m ∈ ms, m.1 ≠ "anchor" ∧ m.2.Plain ∧ m.2.depth ≤ budget) :
    ∀ d : Draft, Taken (take budget) d ms { d with others := ms.reverse ++ d.others } := by
  induction ms with
  | nil => exact fun d => .nil d
  | cons m ms ih =>
    intro d
    obtain ⟨key, v⟩ := m
    obtain ⟨hkey, hplain, hdepth⟩ := h (key, v) List.mem_cons_self
    have hrest := ih (fun x hx => h x (List.mem_cons_of_mem _ hx))
      { d with others := (key, v) :: d.others }
    have hv : Reads (Json.read budget) v.tokens v := hplain.reads hdepth
    rw [List.reverse_cons, List.append_assoc, List.singleton_append]
    exact .cons (if_neg hkey) (hv.imp fun hread => by simp only [hread]) hrest

theorem members_kept {e : Edit α} (hnode : ∀ x ∈ e.node?, JsonForm.Faithful budget x) :
    ∀ m ∈ e.members, m.1 ≠ "anchor" ∧ m.2.Plain ∧ m.2.depth ≤ budget := by
  have hkind : ("kind" : String) ≠ "anchor" ∧ (JsonForm.toJson e.action).Plain ∧
      (JsonForm.toJson e.action).depth ≤ budget := ⟨by decide, .str _, Nat.zero_le budget⟩
  intro m hm
  cases hx : e.node? with
  | none =>
    rw [Edit.members, hx] at hm
    rw [List.mem_singleton.1 hm]
    exact hkind
  | some x =>
    rw [Edit.members_of_node hx] at hm
    rcases List.mem_pair.1 hm with rfl | rfl
    · exact hkind
    · exact ⟨(by decide : "node" ≠ "anchor"), (hnode x hx).plain, (hnode x hx).depth⟩

theorem taken_members (h : ms.Perm r.members)
    (hnode : ∀ x ∈ r.edit.node?, JsonForm.Faithful budget x) :
    ∃ others, Taken (take budget) ⟨none, []⟩ ms ⟨some r.anchor, others⟩ ∧
      others.reverse.Perm r.edit.members := by
  have hmem : ("anchor", JsonForm.toJson r.anchor) ∈ ms := h.symm.subset List.mem_cons_self
  obtain ⟨pre, post, rfl⟩ := List.append_of_mem hmem
  have hothers : (pre ++ post).Perm r.edit.members := (List.perm_middle.symm.trans h).cons_inv
  have hkept : ∀ m ∈ pre ++ post, m.1 ≠ "anchor" ∧ m.2.Plain ∧ m.2.depth ≤ budget :=
    fun m hm => members_kept hnode m (hothers.subset hm)
  have hpre := taken_others (fun m hm => hkept m (List.mem_append_left post hm)) ⟨none, []⟩
  have hpost := taken_others (fun m hm => hkept m (List.mem_append_right pre hm))
    ⟨some r.anchor, pre.reverse⟩
  rw [List.append_nil] at hpre
  refine ⟨post.reverse ++ pre.reverse, hpre.append (.cons rfl ?_ hpost), ?_⟩
  · exact (reads_nodeId budget r.anchor).imp fun hread => by simp only [hread]
  · rw [List.reverse_append, List.reverse_reverse, List.reverse_reverse]
    exact hothers

theorem reads_members (h : ms.Perm r.members)
    (hnode : ∀ x ∈ r.edit.node?, JsonForm.Faithful budget x) :
    Reads (read (budget + 1)) (Json.obj ms).tokens r := by
  intro us s _ hs
  obtain ⟨others, htaken, hothers⟩ := taken_members h hnode
  have hfinish :
      (Draft.finish ⟨some r.anchor, others⟩ : Except Mismatch (EditRecord α)) = .ok r := by
    simp only [Draft.finish, Edit.ofMembers_members hothers hnode]
  obtain ⟨s₁, hskip, h₁⟩ := hs.object
  obtain ⟨s', hread, h'⟩ := htaken.reads h₁
  exact ⟨s', by simp only [read, hskip, hread, hfinish], h'⟩

/-- A record and its edit are read back from every layout of their members in any order, and the
text of the record is that of the edit with the anchor in front. -/
structure ReadBack (r : EditRecord α) : Prop where
  compact : ofText α r.toJson.compact = .ok r ∧ Edit.ofText α r.edit.toJson.compact = .ok r.edit
  record : ∀ ms text, ms.Perm r.members → (Json.obj ms).LaidOut text → ofText α text = .ok r
  edit : ∀ ms text, ms.Perm r.edit.members → (Json.obj ms).LaidOut text →
    Edit.ofText α text = .ok r.edit
  anchorFirst : ∃ rest, r.edit.toJson.compact = "\x7b" ++ rest ∧
    r.toJson.compact = "\x7b\"anchor\":" ++ toString r.anchor.index.toNat ++ "," ++ rest

theorem compact_anchorFirst (r : EditRecord α) : ∃ rest, r.edit.toJson.compact = "\x7b" ++ rest ∧
    r.toJson.compact = "\x7b\"anchor\":" ++ toString r.anchor.index.toNat ++ "," ++ rest := by
  obtain ⟨ms, hms⟩ : ∃ ms, r.edit.members = ("kind", JsonForm.toJson r.edit.action) :: ms := by
    rw [Edit.members]
    cases r.edit.node? with
    | none => exact ⟨_, rfl⟩
    | some x => exact ⟨_, rfl⟩
  obtain ⟨rest, hedit, hrecord⟩ := Json.compact_cons "anchor" (JsonForm.toJson r.anchor)
    ("kind", JsonForm.toJson r.edit.action) ms
  refine ⟨rest, ?_, ?_⟩
  · rw [Edit.toJson, hms, hedit]
  · rw [toJson, hms, hrecord]
    rfl

theorem readBack_of_faithful (hnode : ∀ x ∈ r.edit.node?, JsonForm.Faithful 126 x) :
    r.ReadBack where
  compact := ⟨(reads_members (.refl _) hnode).parse (Json.laidOut_compact _),
    (Edit.reads_members (.refl _) hnode).parse (Json.laidOut_compact _)⟩
  record _ _ h htext := (reads_members h hnode).parse htext
  edit _ _ h htext := (Edit.reads_members h hnode).parse htext
  anchorFirst := r.compact_anchorFirst

end EditRecord

/-- Every record of texts is read back, and every record of trees of up to 63 levels: its own
bracket takes one level of nesting. -/
theorem EditRecord.readBack : (∀ r : EditRecord String, r.ReadBack) ∧
    ∀ r : EditRecord Tree, (∀ t ∈ r.edit.node?, t.height ≤ 63) → r.ReadBack := by
  refine ⟨fun r => readBack_of_faithful fun x _ => faithful_string 126 x, ?_⟩
  intro r h
  refine readBack_of_faithful fun t ht => Tree.faithful ?_
  have hheight := h t ht
  omega

/-- The node stands in front of the kind, in a record and in its edit. -/
theorem EditRecord.readBack_nodeFirst :
    let s : EditRecord String := ⟨⟨0⟩, .delete⟩
    let r : EditRecord Tree := ⟨⟨41⟩, .insertAfter (.node "a" [.leaf "b"])⟩
    (∀ t ∈ r.edit.node?, t.height ≤ 63) ∧
      ofText String "\x7b\"kind\":\"delete\",\"anchor\":0\x7d" = .ok s ∧
      ofText Tree ("\x7b \"node\" : \x7b\"label\":\"a\",\"children\":[\x7b\"label\":\"b\"\x7d]\x7d,"
        ++ "\n\"anchor\":41, \"kind\":\t\"insert_after\"\x7d") = .ok r ∧
      Edit.ofText Tree ("\x7b\"node\":\x7b\"label\":\"a\",\"children\":[\x7b\"label\":\"b\"\x7d]\x7d"
        ++ ",\r\"kind\":\"insert_after\"\x7d\n") = .ok r.edit := by
  intro s r
  have hheight : ∀ t ∈ r.edit.node?, t.height ≤ 63 := by
    intro t ht
    cases ht
    decide
  have hs := readBack.1 s
  have hr := readBack.2 r hheight
  have hlast := (List.perm_append_singleton r.members[2] (r.members.take 2)).symm
  exact ⟨hheight, hs.record s.members.reverse _ (List.reverse_perm _) (.of_spells (by decide)),
    hr.record _ _ hlast (.of_spells (by decide)),
    hr.edit r.edit.members.reverse _ (List.reverse_perm _) (.of_spells (by decide))⟩

end TreeEdits
