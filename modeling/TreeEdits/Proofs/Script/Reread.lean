import TreeEdits.Proofs.Json.Yields
import TreeEdits.Proofs.Script.Form

/-!
# TreeEdits.Proofs.Script.Reread

What was read once is read again. Texts may give a record as a list, members in any order, members
that mean nothing and `null` for a node that is not there; whatever a text is like, the limit on its
brackets bounds the height of the trees in it, so that the text written for the value is within the
limit as well.

* `Tree.yields_read`, `Tree.height_le_of_ofJson`: heights of trees off a text and off a kept value.
* `EditRecord.yields_read`, `Rule.yields_read`: heights of the trees that are carried.
* `ofText_compact_of_ofText`: trees, scripts and records.
-/

namespace TreeEdits

namespace Tree

theorem two_mul_heightAll_le {ts : List Tree} {n : Nat} (h : ∀ t ∈ ts, 2 * t.height ≤ n) :
    2 * heightAll ts ≤ n := by
  induction ts with
  | nil => exact Nat.zero_le n
  | cons t ts ih =>
    obtain ⟨ht, hts⟩ := List.forall_mem_cons.1 h
    have hall := ih hts
    rw [heightAll]
    omega

/-- A node with children of which none is too high. -/
theorem finish_height {d : Draft} {t : Tree} {n : Nat} (h : ∀ ts ∈ d.children, 2 * heightAll ts ≤ n)
    (ht : d.finish = .ok t) : 2 * t.height ≤ n + 2 := by
  obtain ⟨label, children⟩ := d
  cases label with
  | none => cases ht
  | some label =>
    cases ht
    cases children with
    | none => simp [height, heightAll]
    | some ts =>
      have hts := h ts rfl
      simp only [Option.getD_some, height]
      omega

-- A tree takes one bracket for itself and one for its children, so two levels of the budget go with
-- each level of the tree, but only one with the last.
mutual

theorem yields_read : ∀ budget : Nat, Yields (read budget) fun t => 2 * t.height ≤ budget + 1
  | 0 => Record.yields_none typeName
  | budget + 1 => by
    refine Record.yields_read typeName (I := fun d => ∀ ts ∈ d.children, 2 * heightAll ts ≤ budget)
      (fun _ hts => by cases hts) ?_ finish_height
    refine List.forall_mem_cons.2 ⟨Field.keeps_of_set fun hd => hd, List.forall_mem_singleton.2 ?_⟩
    refine Field.keeps_of (yields_readAll budget) fun hts _ => ?_
    rintro _ ⟨⟩
    exact hts

theorem yields_readAll : ∀ budget : Nat, Yields (readAll budget) fun ts => 2 * heightAll ts ≤ budget
  | 0 => fun _ _ _ hread =>
    two_mul_heightAll_le (Yields.sequence (fun _ hitem => by cases hitem) hread)
  | budget + 1 => fun _ _ _ hread => by
    have hitem : ∀ item ∈ some (read budget), Yields item fun t => 2 * t.height ≤ budget + 1 := by
      rintro _ ⟨⟩
      exact yields_read budget
    exact two_mul_heightAll_le (Yields.sequence hitem hread)

end

mutual

theorem height_le_of_ofJson : ∀ {v : Json} {t : Tree}, ofJson v = .ok t → 2 * t.height ≤ v.depth + 1
  | .obj ms, t, h => by
    rw [ofJson] at h
    exact height_le_of_ofMembers h (fun ts hts => by cases hts) (Nat.le_refl _)
  | .arr [], t, h => by cases h
  | .arr [label], t, h => by
    rw [ofJson] at h
    split at h
    · cases h
    · cases h
      simp [height, heightAll, Json.depth]
  | .arr (label :: children :: rest), t, h => by
    rw [ofJson] at h
    split at h
    · cases h
    · split at h
      · cases h
      · rename_i hchildren
        have hts := height_le_of_ofJsonAll hchildren
        split at h
        · cases h
          simp only [height, Json.depth, Json.depthItems]
          omega
        · cases h
  | .null, t, h => by cases h
  | .bool _, t, h => by cases h
  | .number _, t, h => by cases h
  | .str _, t, h => by cases h

theorem height_le_of_ofJsonAll : ∀ {v : Json} {ts : List Tree}, ofJsonAll v = .ok ts →
    2 * heightAll ts ≤ v.depth
  | .arr vs, ts, h => by
    rw [ofJsonAll] at h
    simpa only [Json.depth] using height_le_of_ofItems h
  | .null, t, h => by cases h
  | .bool _, t, h => by cases h
  | .number _, t, h => by cases h
  | .str _, t, h => by cases h
  | .obj _, t, h => by cases h

theorem height_le_of_ofItems : ∀ {vs : List Json} {ts : List Tree}, ofItems vs = .ok ts →
    2 * heightAll ts ≤ Json.depthItems vs + 1
  | [], ts, h => by
    cases h
    simp [heightAll]
  | v :: vs, ts, h => by
    rw [ofItems] at h
    split at h
    · cases h
    · rename_i hv
      split at h
      · cases h
      · rename_i hvs
        cases h
        have ht := height_le_of_ofJson hv
        have hts := height_le_of_ofItems hvs
        simp only [heightAll, Json.depthItems]
        omega

theorem height_le_of_ofMembers : ∀ {ms : List (String × Json)} {d : Draft} {t : Tree} {n : Nat},
    ofMembers d ms = .ok t → (∀ ts ∈ d.children, 2 * heightAll ts ≤ n) → Json.depthMembers ms ≤ n →
      2 * t.height ≤ n + 2
  | [], d, t, n, h, hd, hms => by
    rw [ofMembers] at h
    exact finish_height hd h
  | (key, v) :: ms, d, t, n, h, hd, hms => by
    rw [Json.depthMembers, Nat.max_le] at hms
    rw [ofMembers] at h
    split at h
    · split at h
      · cases h
      · split at h
        · cases h
        · exact height_le_of_ofMembers h hd hms.2
    · split at h
      · split at h
        · cases h
        · split at h
          · cases h
          · rename_i hchildren
            have hts := (height_le_of_ofJsonAll hchildren).trans hms.1
            refine height_le_of_ofMembers h ?_ hms.2
            rintro _ ⟨⟩
            exact hts
      · exact height_le_of_ofMembers h hd hms.2

end

end Tree

/-! ## Edits and records -/

section

variable {α : Type} {P : α → Prop} {n : Nat}

namespace Edit

/-- A node that was kept nests its brackets at most `n` deep, and one that was looked at has the
property. -/
def Draft.Within (P : α → Prop) (n : Nat) : Draft α → Prop
  | nothing => True
  | kind _ => True
  | node v => v.depth ≤ n
  | complete e => ∀ x ∈ e.node?, P x

theorem node_of_finish {d : Draft α} {e : Edit α} (hd : d.Within P n) (h : d.finish = .ok e) :
    ∀ x ∈ e.node?, P x := by
  cases d with
  | nothing => cases h
  | kind a =>
    cases a with
    | delete => cases h; exact fun x hx => by cases hx
    | _ => cases h
  | node v => cases h
  | complete e' => cases h; exact hd

variable [JsonForm α] (hof : ∀ {v : Json} {x : α}, JsonForm.ofJson v = .ok x → v.depth ≤ n → P x)

include hof

theorem node_of_ofNode {a : Action} {v : Json} {e : Edit α} (hv : v.depth ≤ n)
    (h : ofNode a v = .ok e) : ∀ x ∈ e.node?, P x := by
  cases a with
  | delete =>
    simp only [ofNode] at h
    split at h
    · cases h
      exact fun x hx => by cases hx
    · cases h
  | _ =>
    simp only [ofNode] at h
    split at h
    · cases h
    · rename_i hx
      cases h
      rintro _ ⟨⟩
      exact hof hx hv

/-- One more member leads from one draft to another, or the edit is refused. -/
theorem exists_of_ofMembers_cons {d : Draft α} {key : String} {v : Json}
    {ms : List (String × Json)} {e : Edit α} (hd : d.Within P n) (hv : v.depth ≤ n)
    (h : ofMembers d ((key, v) :: ms) = .ok e) :
    ∃ d' : Draft α, d'.Within P n ∧ ofMembers d' ms = .ok e := by
  cases d with
  | nothing =>
    rw [ofMembers] at h
    split at h
    · split at h
      · cases h
      · exact ⟨.kind _, trivial, h⟩
    · split at h
      · exact ⟨.node v, hv, h⟩
      · exact ⟨_, hd, h⟩
  | kind a =>
    rw [ofMembers] at h
    split at h
    · cases h
    · split at h
      · split at h
        · cases h
        · rename_i hnode
          exact ⟨.complete _, node_of_ofNode hof hv hnode, h⟩
      · exact ⟨_, hd, h⟩
  | node u =>
    rw [ofMembers] at h
    split at h
    · split at h
      · cases h
      · split at h
        · cases h
        · rename_i hnode
          exact ⟨.complete _, node_of_ofNode hof hd hnode, h⟩
    · split at h
      · cases h
      · exact ⟨_, hd, h⟩
  | complete e' =>
    rw [ofMembers] at h
    split at h
    · cases h
    · split at h
      · cases h
      · exact ⟨_, hd, h⟩

theorem node_of_ofMembers {ms : List (String × Json)} : ∀ {d : Draft α} {e : Edit α},
    d.Within P n → (∀ m ∈ ms, m.2.depth ≤ n) → ofMembers d ms = .ok e → ∀ x ∈ e.node?, P x := by
  induction ms with
  | nil =>
    intro d e hd _ h
    rw [ofMembers] at h
    exact node_of_finish hd h
  | cons m ms ih =>
    intro d e hd hms h
    obtain ⟨hv, hms⟩ := List.forall_mem_cons.1 hms
    obtain ⟨d', hd', h⟩ := exists_of_ofMembers_cons hof hd hv h
    exact ih hd' hms h

end Edit

namespace EditRecord

variable [JsonForm α]

/-- The members that are kept nest their brackets within the budget. -/
theorem keeps_take (budget : Nat) :
    Keeps (take budget) fun d => ∀ m ∈ d.others, m.2.depth ≤ budget := by
  intro d key step hd hkey
  simp only [take] at hkey
  split at hkey
  · split at hkey
    · cases hkey
    · cases hkey
      intro s d' s' hread
      dsimp only at hread
      split at hread
      · cases hread
      · cases hread
        exact hd
  · cases hkey
    intro s d' s' hread
    dsimp only at hread
    split at hread
    · cases hread
    · rename_i hvalue
      cases hread
      exact List.forall_mem_cons.2 ⟨Json.yields_read budget hvalue, hd⟩

theorem node_of_finish (hof : ∀ {v : Json} {x : α}, JsonForm.ofJson v = .ok x → v.depth ≤ n → P x)
    {d : Draft} {r : EditRecord α} (hd : ∀ m ∈ d.others, m.2.depth ≤ n) (h : d.finish = .ok r) :
    ∀ x ∈ r.edit.node?, P x := by
  simp only [Draft.finish] at h
  split at h
  · cases h
  · split at h
    · cases h
    · rename_i hedit
      cases h
      exact Edit.node_of_ofMembers hof (d := .nothing) trivial
        (fun m hm => hd m (List.mem_reverse.1 hm)) hedit

/-- What a record carries was kept as a value first, within what its own bracket leaves. -/
theorem yields_read (hof : ∀ {v : Json} {x : α}, JsonForm.ofJson v = .ok x → v.depth ≤ n → P x) :
    Yields (read (n + 1)) fun r : EditRecord α => ∀ x ∈ r.edit.node?, P x := by
  intro s r s' hread
  simp only [read] at hread
  split at hread
  · rename_i hbudget; cases hbudget
  · rename_i hbudget
    cases hbudget
    split at hread
    · cases hread
    · rename_i hmembers
      split at hread
      · cases hread
      · rename_i hfinish
        cases hread
        have hothers := (keeps_take n).yields (fun m hm => by cases hm) hmembers
        exact node_of_finish hof hothers hfinish
  · cases hread

end EditRecord

end

namespace Rule

theorem node_of_finish {d : Draft} {r : Rule} {n : Nat}
    (hd : ∀ o ∈ d.node, ∀ t ∈ o, 2 * t.height ≤ n) (h : d.finish = .ok r) :
    ∀ t ∈ r.node, 2 * t.height ≤ n := by
  obtain ⟨label, action, node⟩ := d
  simp only [Draft.finish] at h
  split at h
  · cases h
  · cases h
  · cases h
    cases node with
    | none => exact fun t ht => by cases ht
    | some o => exact hd o rfl

theorem yields_read : ∀ budget : Nat,
    Yields (read budget) fun r => ∀ t ∈ r.node, 2 * t.height ≤ budget
  | 0 => Record.yields_none typeName
  | budget + 1 => by
    refine Record.yields_read typeName
      (I := fun d => ∀ o ∈ d.node, ∀ t ∈ o, 2 * t.height ≤ budget + 1)
      (fun _ ho => by cases ho) ?_ node_of_finish
    refine List.forall_mem_cons.2 ⟨Field.keeps_of_set fun hd => hd,
      List.forall_mem_cons.2 ⟨Field.keeps_of_set fun hd => hd, List.forall_mem_singleton.2 ?_⟩⟩
    refine Field.keeps_of (Tree.yields_read budget).option fun ho _ => ?_
    rintro _ ⟨⟩
    exact ho

theorem yields_readAll (budget : Nat) :
    Yields (readAll (budget + 1)) fun rules => ∀ r ∈ rules, ∀ t ∈ r.node, 2 * t.height ≤ budget :=
  Yields.sequence fun _ hitem => by
    cases hitem
    exact yields_read budget

end Rule

namespace Script

theorem rules_of_ofRules {rules : List Rule} {s : Script} (h : ofRules rules = .ok s) :
    s.rules = rules := by
  rw [ofRules] at h
  split at h
  · cases h; rfl
  · cases h

end Script

/-- Whatever text a tree, a script or a record was read from, the text written for it is read as the
same again. -/
theorem ofText_compact_of_ofText (text : String) :
    (∀ t, Tree.ofText text = .ok t → Tree.ofText t.toJson.compact = .ok t) ∧
    (∀ s, Script.ofText text = .ok s → Script.ofText s.toJson.compact = .ok s) ∧
    (∀ r, EditRecord.ofText Tree text = .ok r →
      EditRecord.ofText Tree r.toJson.compact = .ok r) := by
  refine ⟨fun t h => ?_, fun s h => ?_, fun r h => ?_⟩
  · have hheight : 2 * t.height ≤ 128 := (Tree.yields_read 127).parse h
    exact (Tree.reads_toJson hheight).parse (Json.laidOut_compact _)
  · rw [Script.ofText] at h
    split at h
    · cases h
    · rename_i rules hrules
      have hheight := (Rule.yields_readAll 126).parse hrules
      cases Script.rules_of_ofRules h
      refine (Script.ofText_eq_ofRules (fun r hr t ht => ?_) (Json.laidOut_compact _)).trans h
      exact Nat.le_of_mul_le_mul_left (hheight r hr t ht) (by decide : 0 < 2)
  · have hof : ∀ {v : Json} {t : Tree}, Tree.ofJson v = .ok t → v.depth ≤ 126 →
        2 * t.height ≤ 127 :=
      fun ht hv => (Tree.height_le_of_ofJson ht).trans (Nat.succ_le_succ hv)
    have hnode := (EditRecord.yields_read hof).parse h
    exact (EditRecord.readBack_of_faithful fun t ht => Tree.faithful (hnode t ht)).compact.1

theorem eq_ok_of_toOption {ε α : Type} {x : Except ε α} {a : α} (h : x.toOption = some a) :
    x = .ok a := by
  cases x with
  | error e => cases h
  | ok b => cases h; rfl

/-- Lists for records, members out of order or without a meaning, an action and a kind that are
objects, and `null` for no node. -/
theorem ofText_compact_of_lenient :
    (∃ t, Tree.ofText
        "[\"a\",[\x7b\"children\":[],\"x\":[1,2.5],\"label\":\"b\"\x7d, [\"c\"]]]" = .ok t ∧
      t = .node "a" [.leaf "b", .leaf "c"] ∧ Tree.ofText t.toJson.compact = .ok t) ∧
    (∃ s, Script.ofText
        "[[\"a\",\x7b\"replace\":null\x7d,[\"b\"]],[\"c\",\"delete\" , null]]" = .ok s ∧
      s.rules = [⟨"a", .replace, some (.leaf "b")⟩, ⟨"c", .delete, none⟩] ∧
        Script.ofText s.toJson.compact = .ok s) ∧
    ∃ r, EditRecord.ofText Tree
        "\x7b\"node\":[\"a\"],\"x\":1,\"kind\":\x7b\"replace\":\x7b\x7d\x7d,\"anchor\":7\x7d" = .ok r ∧
      r = ⟨⟨7⟩, .replace (.leaf "a")⟩ ∧ EditRecord.ofText Tree r.toJson.compact = .ok r := by
  refine ⟨⟨.node "a" [.leaf "b", .leaf "c"], ?tree, rfl,
      (ofText_compact_of_ofText _).1 _ ?tree⟩,
    ⟨⟨[⟨"a", .replace, some (.leaf "b")⟩, ⟨"c", .delete, none⟩], by decide⟩, ?script, rfl,
      (ofText_compact_of_ofText _).2.1 _ ?script⟩,
    ⟨⟨⟨7⟩, .replace (.leaf "a")⟩, ?record, rfl, (ofText_compact_of_ofText _).2.2 _ ?record⟩⟩
  case tree => exact eq_ok_of_toOption (by decide +kernel)
  case script => exact eq_ok_of_toOption (by decide +kernel)
  case record => exact eq_ok_of_toOption (by decide +kernel)

end TreeEdits
