import TreeEdits.Proofs.Json.Depth
import TreeEdits.Tree.Json

/-!
# TreeEdits.Proofs.Tree.Form

Trees read off any of their JSON forms, in any layout. A form nests its brackets two deep for each
level of the tree, one for the node and one for its children; reading fails exactly where these pass
the limit.

* `Tree.Form`: the values that a tree may be written as.
* `Tree.height`, `depth_toJson`: how deep the form written nests.
* `Tree.Form.reads`, `Tree.Form.refuses`: a form within a budget, and one beyond it.
* `Tree.ofText_laidOut`: whole texts.
-/

namespace TreeEdits
namespace Tree

/-- At each node the two members may stand in either order, and a leaf may spell out that it has no
children. -/
inductive Form : Tree → Json → Prop
  | leaf (label : String) : Form (node label []) (.obj [("label", .str label)])
  | labelFirst {label : String} {ts : List Tree} {vs : List Json} : List.Forall₂ Form ts vs →
    Form (node label ts) (.obj [("label", .str label), ("children", .arr vs)])
  | childrenFirst {label : String} {ts : List Tree} {vs : List Json} : List.Forall₂ Form ts vs →
    Form (node label ts) (.obj [("children", .arr vs), ("label", .str label)])

theorem Form.exists_members {t : Tree} {v : Json} (h : Form t v) : ∃ ms, v = .obj ms := by
  cases h <;> exact ⟨_, rfl⟩

theorem Form.begins {t : Tree} {v : Json} (h : Form t v) : Begins v.tokens := by
  obtain ⟨ms, rfl⟩ := h.exists_members
  exact begins_obj ms

mutual

theorem form_toJson : ∀ t : Tree, Form t t.toJson
  | node label [] => .leaf label
  | node _ (t :: ts) => .labelFirst (.cons (form_toJson t) (form_toJsonAll ts))

theorem form_toJsonAll : ∀ ts : List Tree, List.Forall₂ Form ts (toJsonAll ts)
  | [] => .nil
  | t :: ts => .cons (form_toJson t) (form_toJsonAll ts)

end

/-! ## Heights -/

mutual

/-- The number of levels. A leaf has one. -/
def height : Tree → Nat
  | node _ children => heightAll children + 1

def heightAll : List Tree → Nat
  | [] => 0
  | t :: ts => max (height t) (heightAll ts)

end

theorem height_pos (t : Tree) : 0 < t.height := by
  cases t with
  | node label children => exact Nat.succ_pos _

mutual

/-- The form written opens two brackets for each level, but only one for the last. -/
theorem depth_toJson : ∀ t : Tree, t.toJson.depth = 2 * t.height - 1
  | node _ [] => rfl
  | node label (t :: ts) => by
    have hts := depthItems_toJsonAll (t :: ts)
    have hpos := height_pos t
    simp only [toJsonAll, heightAll] at hts
    simp only [toJson, Json.depth, Json.depthMembers, hts, height, heightAll]
    omega

theorem depthItems_toJsonAll : ∀ ts : List Tree,
    Json.depthItems (toJsonAll ts) = 2 * heightAll ts - 1
  | [] => rfl
  | t :: ts => by
    have ht := depth_toJson t
    have hts := depthItems_toJsonAll ts
    simp only [toJsonAll, Json.depthItems, heightAll, ht, hts]
    omega

end

theorem depth_toJson_le {t : Tree} {n : Nat} (h : 2 * t.height ≤ n + 1) : t.toJson.depth ≤ n := by
  rw [depth_toJson]
  omega

/-! ## Reading within a budget -/

theorem depth_labelFirst (label : String) (vs : List Json) :
    (Json.obj [("label", .str label), ("children", .arr vs)]).depth = (Json.arr vs).depth + 1 := by
  simp [Json.depth, Json.depthMembers]

theorem depth_childrenFirst (label : String) (vs : List Json) :
    (Json.obj [("children", .arr vs), ("label", .str label)]).depth = (Json.arr vs).depth + 1 := by
  simp [Json.depth, Json.depthMembers]

theorem reads_children {ts : List Tree} {vs : List Json} {budget : Nat}
    (h : ∀ {b : Nat}, Json.depthItems vs ≤ b → List.Forall₂ (ReadsItem (read b)) vs ts)
    (hdepth : (Json.arr vs).depth ≤ budget) : Reads (readAll budget) (Json.arr vs).tokens ts := by
  cases budget with
  | zero => cases hdepth
  | succ budget => exact Reads.sequence (h (Nat.le_of_succ_le_succ hdepth))

theorem refuses_children {vs : List Json} {budget : Nat}
    (h : ∀ {b : Nat}, b < Json.depthItems vs → RefusesItem (read b) vs)
    (hdepth : budget < (Json.arr vs).depth) : Refuses (readAll budget) (Json.arr vs).tokens := by
  cases budget with
  | zero => exact Refuses.sequence_none vs
  | succ budget => exact Refuses.sequence (h (Nat.lt_of_succ_lt_succ hdepth))

mutual

theorem Form.reads : ∀ {t : Tree} {v : Json}, Form t v → ∀ {budget : Nat}, v.depth ≤ budget →
    Reads (read budget) v.tokens t
  | _, _, .leaf label, budget + 1, _ =>
    Record.reads typeName (Record.taken_field rfl rfl (reads_string label) (.nil _)) rfl
  | _, _, .labelFirst h, budget + 1, hdepth => by
    rw [depth_labelFirst] at hdepth
    have hchildren := reads_children (reads_forms h) (Nat.le_of_succ_le_succ hdepth)
    exact Record.reads typeName (Record.taken_field rfl rfl (reads_string _)
      (Record.taken_field rfl rfl hchildren (.nil _))) rfl
  | _, _, .childrenFirst h, budget + 1, hdepth => by
    rw [depth_childrenFirst] at hdepth
    have hchildren := reads_children (reads_forms h) (Nat.le_of_succ_le_succ hdepth)
    exact Record.reads typeName (Record.taken_field rfl rfl hchildren
      (Record.taken_field rfl rfl (reads_string _) (.nil _))) rfl

theorem reads_forms : ∀ {ts : List Tree} {vs : List Json}, List.Forall₂ Form ts vs →
    ∀ {budget : Nat}, Json.depthItems vs ≤ budget → List.Forall₂ (ReadsItem (read budget)) vs ts
  | _, _, .nil, _, _ => .nil
  | _, _, .cons h hs, budget, hdepth => by
    rw [Json.depthItems, Nat.max_le] at hdepth
    exact .cons ⟨h.begins, h.reads hdepth.1⟩ (reads_forms hs hdepth.2)

end

/-- A tree is read off the form written within twice its height. -/
theorem reads_toJson {t : Tree} {budget : Nat} (h : 2 * t.height ≤ budget + 1) :
    Reads (read budget) t.toJson.tokens t :=
  (form_toJson t).reads (depth_toJson_le h)

mutual

theorem Form.refuses : ∀ {t : Tree} {v : Json}, Form t v → ∀ {budget : Nat}, budget < v.depth →
    Refuses (read budget) v.tokens
  | _, _, .leaf _, 0, _ => Record.refuses_none typeName _
  | _, _, .leaf _, budget + 1, hdepth => by
    simp [Json.depth, Json.depthMembers] at hdepth
  | _, _, .labelFirst _, 0, _ => Record.refuses_none typeName _
  | _, _, .labelFirst h, budget + 1, hdepth => by
    rw [depth_labelFirst] at hdepth
    have hchildren := refuses_children (refuses_forms h) (Nat.lt_of_succ_lt_succ hdepth)
    exact Record.refuses_field typeName (Record.taken_field rfl rfl (reads_string _) (.nil _))
      rfl rfl hchildren
  | _, _, .childrenFirst _, 0, _ => Record.refuses_none typeName _
  | _, _, .childrenFirst h, budget + 1, hdepth => by
    rw [depth_childrenFirst] at hdepth
    have hchildren := refuses_children (refuses_forms h) (Nat.lt_of_succ_lt_succ hdepth)
    exact Record.refuses_field typeName (.nil _) rfl rfl hchildren

theorem refuses_forms : ∀ {ts : List Tree} {vs : List Json}, List.Forall₂ Form ts vs →
    ∀ {budget : Nat}, budget < Json.depthItems vs → RefusesItem (read budget) vs
  | _, _, .nil, _, hdepth => absurd hdepth (Nat.not_lt_zero _)
  | _, _, .cons (b := v) h hs, budget, hdepth => by
    rw [Json.depthItems] at hdepth
    rcases Nat.lt_or_ge budget v.depth with hv | hv
    · exact .here h.begins (h.refuses hv)
    · exact .later ⟨h.begins, h.reads hv⟩ (refuses_forms hs (by omega))

end

/-! ## Values that were kept -/

mutual

theorem Form.plain : ∀ {t : Tree} {v : Json}, Form t v → v.Plain
  | _, _, .leaf label => .obj fun m hm => by
    rw [List.mem_singleton.1 hm]
    exact .str label
  | _, _, .labelFirst h => .obj fun m hm => by
    have hchildren := plain_forms h
    rcases List.mem_pair.1 hm with rfl | rfl
    · exact .str _
    · exact .arr hchildren
  | _, _, .childrenFirst h => .obj fun m hm => by
    have hchildren := plain_forms h
    rcases List.mem_pair.1 hm with rfl | rfl
    · exact .arr hchildren
    · exact .str _

theorem plain_forms : ∀ {ts : List Tree} {vs : List Json}, List.Forall₂ Form ts vs →
    ∀ v ∈ vs, v.Plain
  | _, _, .nil => fun _ hv => absurd hv List.not_mem_nil
  | _, _, .cons h hs => fun u hu => by
    have hvs := plain_forms hs
    rcases List.mem_cons.1 hu with rfl | hu
    · exact h.plain
    · exact hvs u hu

end

mutual

theorem Form.ofJson_eq : ∀ {t : Tree} {v : Json}, Form t v → ofJson v = .ok t
  | _, _, .leaf _ => rfl
  | _, _, .labelFirst h => by
    have hchildren := ofItems_forms h
    simp [ofJson, ofMembers, ofJsonAll, hchildren, Draft.empty, Draft.finish, JsonForm.ofJson]
  | _, _, .childrenFirst h => by
    have hchildren := ofItems_forms h
    simp [ofJson, ofMembers, ofJsonAll, hchildren, Draft.empty, Draft.finish, JsonForm.ofJson]

theorem ofItems_forms : ∀ {ts : List Tree} {vs : List Json}, List.Forall₂ Form ts vs →
    ofItems vs = .ok ts
  | _, _, .nil => rfl
  | _, _, .cons h hs => by
    have ht := h.ofJson_eq
    have hts := ofItems_forms hs
    simp only [ofItems, ht, hts]

end

/-! ## Whole texts -/

theorem ofText_eq_ok {t : Tree} {text : String} (h : t.height ≤ 64)
    (htext : t.toJson.LaidOut text) : ofText text = .ok t := by
  have hreads : Reads (read 127) t.toJson.tokens t := reads_toJson (by omega)
  exact hreads.parse htext

/-- Of every form of a tree, every layout is read as the tree if its brackets nest no deeper than
allowed; otherwise it is refused for that. The form written is within the limit up to 64 levels. -/
theorem ofText_laidOut (t : Tree) :
    (∀ v text, t.Form v → v.LaidOut text →
      (v.depth ≤ 127 → ofText text = .ok t) ∧
      (127 < v.depth → ∃ e, ofText text = .error e ∧ e.cause = .tooDeep)) ∧
    (t.height ≤ 64 → ofText t.toJson.compact = .ok t ∧ ofText t.toJson.pretty = .ok t) ∧
    (64 < t.height → ∃ e, ofText t.toJson.compact = .error e ∧ e.cause = .tooDeep) := by
  have hform := form_toJson t
  have hdepth := depth_toJson t
  refine ⟨?_, ?_, ?_⟩
  · intro v text h htext
    exact ⟨fun hlimit => (h.reads hlimit).parse htext, fun hlimit => (h.refuses hlimit).parse htext⟩
  · intro hheight
    exact ⟨ofText_eq_ok hheight (Json.laidOut_compact _),
      ofText_eq_ok hheight (Json.laidOut_pretty _)⟩
  · intro hheight
    have hlimit : 127 < t.toJson.depth := by omega
    exact (hform.refuses hlimit).parse (Json.laidOut_compact _)

/-- One node on each of `n` levels below the root. -/
def tower (label : String) : Nat → Tree
  | 0 => leaf label
  | n + 1 => node label [tower label n]

theorem height_tower (label : String) (n : Nat) : (tower label n).height = n + 1 := by
  induction n with
  | zero => rfl
  | succ n ih => simp [tower, height, heightAll, ih]

/-- A node with its children in front, of which one spells out that it has none; and the lowest tree
that is too high, in both layouts. -/
theorem ofText_laidOut_mixed :
    let t := node "p" [leaf "\"c\n", leaf "d"]
    let v : Json := .obj [("children", .arr [.obj [("label", .str "\"c\n")],
      .obj [("children", .arr []), ("label", .str "d")]]), ("label", .str "p")]
    let text := "\x7b\n\"children\" :\t[ \x7b\"label\":\"\\\"c\\n\"\x7d,\r\n"
      ++ "\x7b\"children\":[ ] , \"label\":\"d\"\x7d],\"label\": \"p\"\x7d "
    let high := tower "a" 64
    (t.Form v ∧ v.LaidOut text ∧ v.depth ≤ 127 ∧ ofText text = .ok t) ∧
      (t.height ≤ 64 ∧ ofText t.toJson.compact = .ok t ∧ ofText t.toJson.pretty = .ok t) ∧
      (127 < high.toJson.depth ∧ ∃ e, ofText high.toJson.pretty = .error e ∧ e.cause = .tooDeep) ∧
      64 < high.height ∧ ∃ e, ofText high.toJson.compact = .error e ∧ e.cause = .tooDeep := by
  intro t v text high
  have hform : t.Form v := .childrenFirst (.cons (.leaf _) (.cons (.childrenFirst .nil) .nil))
  have htext : v.LaidOut text := .of_spells (by decide)
  have hdepth : v.depth ≤ 127 := by decide
  have hheight : t.height ≤ 64 := by decide
  have hhigh : 64 < high.height := by rw [height_tower]; decide
  have hdeep : 127 < high.toJson.depth := by rw [depth_toJson]; omega
  refine ⟨⟨hform, htext, hdepth, ((ofText_laidOut t).1 v text hform htext).1 hdepth⟩,
    ⟨hheight, (ofText_laidOut t).2.1 hheight⟩, ⟨hdeep, ?_⟩, hhigh, (ofText_laidOut high).2.2 hhigh⟩
  exact ((ofText_laidOut high).1 _ _ (form_toJson high) (Json.laidOut_pretty _)).2 hdeep

end Tree
end TreeEdits
