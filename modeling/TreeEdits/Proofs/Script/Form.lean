import TreeEdits.Proofs.Edit.Form
import TreeEdits.Script.Json

/-!
# TreeEdits.Proofs.Script.Form

Rules and scripts off the form they are written in. Reading a list of rules gives back those rules,
so whatever is wrong with a script is found by the check that follows: the first rule that carries a
node without taking one, or takes one without carrying it.

* `Rule.reads`, `Rule.readsAll`: a rule, and a list of rules.
* `Rule.Apt`: a rule that carries a node exactly if it does not delete.
* `Script.ofRules_eq_ok_iff`, `Script.ofRules_eq_error_iff`: the check, with the first rule that
  fails it.
* `Script.ofText_rules`: whole texts.
-/

namespace TreeEdits
namespace Rule

variable {budget : Nat}

/-- A tree is no `null`, so it is read as a node that is there. -/
theorem reads_node {t : Tree} (h : 2 * t.height ≤ budget + 1) :
    Reads (readOption (Tree.read budget)) t.toJson.tokens (some t) := by
  have hreads := Tree.reads_toJson h
  obtain ⟨ms, hms⟩ := (Tree.form_toJson t).exists_members
  have htokens : t.toJson.tokens = ['\x7b'] :: (Json.tokensMembers true ms ++ [['\x7d']]) := by
    rw [hms, Json.tokens]
  rw [htokens] at hreads ⊢
  exact hreads.option (by decide) (by decide)

theorem reads (r : Rule) (h : ∀ t ∈ r.node, 2 * t.height ≤ budget + 1) :
    Reads (read (budget + 1)) r.toJson.tokens r := by
  have haction := (faithful_action budget r.action).reads
  obtain ⟨label, action, node⟩ := r
  cases node with
  | none =>
    exact Record.reads typeName (Record.taken_field rfl rfl (reads_string label)
      (Record.taken_field rfl rfl haction (.nil _))) rfl
  | some t =>
    exact Record.reads typeName (Record.taken_field rfl rfl (reads_string label)
      (Record.taken_field rfl rfl haction
        (Record.taken_field rfl rfl (reads_node (h t rfl)) (.nil _)))) rfl

theorem readsAll {rules : List Rule} (h : ∀ r ∈ rules, ∀ t ∈ r.node, 2 * t.height ≤ budget + 1) :
    Reads (readAll (budget + 2)) (Json.arr (rules.map toJson)).tokens rules := by
  have hitem : ∀ r ∈ rules, ReadsItem (read (budget + 1)) r.toJson r :=
    fun r hr => ⟨begins_obj _, r.reads (h r hr)⟩
  exact Reads.sequence (List.forall₂_map_left_iff.2 (List.forall₂_same.2 hitem))

/-! ## The check -/

/-- A rule carries a node exactly if it does not delete. -/
def Apt (r : Rule) : Prop := r.node.isSome ↔ r.action ≠ .delete

instance (r : Rule) : Decidable r.Apt := inferInstanceAs (Decidable (_ ↔ _))

theorem fits_iff {r : Rule} : r.fits = true ↔ r.Apt := by
  obtain ⟨label, action, node⟩ := r
  cases action <;> simp [fits, Apt, Action.takesNode]

/-- A rule that does not fit is told by its number, its action and its label. Whether its node is
missing or one too many is told by whether there is one. -/
theorem misfit_eq {r : Rule} (h : ¬r.Apt) (i : Nat) : r.misfit i =
    .invalidArguments ("rule " ++ toString i ++ " (" ++ r.action.name ++ " on '" ++ r.label ++ "') "
      ++ if r.node.isSome then "does not take a node" else "requires a node") := by
  rw [← fits_iff] at h
  have htakes : r.action.takesNode = !r.node.isSome := by
    cases hnode : r.node.isSome <;> simpa [fits, hnode] using h
  cases hnode : r.node.isSome <;> simp [misfit, htakes, hnode]

end Rule

namespace Script

variable {rules : List Rule}

theorem misfit?_eq_none (h : ∀ r ∈ rules, r.fits = true) : ∀ i, misfit? i rules = none := by
  induction rules with
  | nil => exact fun _ => rfl
  | cons r rules ih =>
    intro i
    rw [misfit?, if_pos (h r List.mem_cons_self)]
    exact ih (fun q hq => h q (List.mem_cons_of_mem r hq)) (i + 1)

/-- The failure is that of the first rule that does not fit. -/
theorem exists_of_misfit? {f : Failure} : ∀ {i : Nat}, misfit? i rules = some f →
    ∃ (k : Nat) (r : Rule), rules[k]? = some r ∧ r.fits = false ∧
      (∀ j < k, ∀ q ∈ rules[j]?, q.fits = true) ∧ f = r.misfit (i + k) := by
  induction rules with
  | nil => intro i h; cases h
  | cons r rules ih =>
    intro i h
    rw [misfit?] at h
    split at h
    · rename_i hr
      obtain ⟨k, q, hq, hfits, hbefore, rfl⟩ := ih h
      refine ⟨k + 1, q, hq, hfits, ?_, by rw [Nat.add_right_comm, Nat.add_assoc]⟩
      intro j hj p hp
      cases j with
      | zero => cases hp; exact hr
      | succ j => exact hbefore j (Nat.lt_of_succ_lt_succ hj) p hp
    · rename_i hr
      cases h
      exact ⟨0, r, rfl, Bool.eq_false_iff.2 hr, fun j hj => absurd hj (Nat.not_lt_zero j), rfl⟩

theorem ofRules_eq_ok (h : ∀ r ∈ rules, r.fits = true) :
    ∃ s, ofRules rules = .ok s ∧ s.rules = rules := by
  have hmisfit := misfit?_eq_none h 0
  rw [ofRules]
  split
  · exact ⟨_, rfl, rfl⟩
  · rename_i f hf
    rw [hmisfit] at hf
    cases hf

theorem ofRules_eq_ok_iff :
    (∃ s, ofRules rules = .ok s ∧ s.rules = rules) ↔ ∀ r ∈ rules, r.Apt := by
  constructor
  · rintro ⟨s, -, rfl⟩ r hr
    exact Rule.fits_iff.1 (List.all_eq_true.1 s.fits r hr)
  · intro h
    exact ofRules_eq_ok fun r hr => Rule.fits_iff.2 (h r hr)

theorem ofRules_eq_error (h : ¬ ∀ r ∈ rules, r.Apt) :
    ∃ (k : Nat) (r : Rule), rules[k]? = some r ∧ ¬r.Apt ∧
      (∀ j < k, ∀ q ∈ rules[j]?, q.Apt) ∧ ofRules rules = .error (r.misfit k) := by
  simp only [← Rule.fits_iff, Bool.not_eq_true] at h ⊢
  rw [ofRules]
  split
  · rename_i hnone
    exact absurd (List.all_eq_true.1 (all_fits_of_misfit? hnone)) h
  · rename_i f hf
    obtain ⟨k, r, hr, hfits, hbefore, rfl⟩ := exists_of_misfit? hf
    exact ⟨k, r, hr, hfits, hbefore, by rw [Nat.zero_add]⟩

/-- There is only one first rule that is not apt, so its failure is that of the check. -/
theorem ofRules_eq_error_iff {f : Failure} : ofRules rules = .error f ↔
    ∃ (k : Nat) (r : Rule), rules[k]? = some r ∧ ¬r.Apt ∧ (∀ j < k, ∀ q ∈ rules[j]?, q.Apt) ∧
      f = r.misfit k := by
  constructor
  · intro h
    have hnot : ¬ ∀ r ∈ rules, r.Apt := by
      intro hall
      obtain ⟨s, hs, -⟩ := ofRules_eq_ok_iff.2 hall
      rw [hs] at h
      cases h
    obtain ⟨k, r, hr, hmisfit, hbefore, herror⟩ := ofRules_eq_error hnot
    rw [herror] at h
    cases h
    exact ⟨k, r, hr, hmisfit, hbefore, rfl⟩
  · rintro ⟨k, r, hr, hmisfit, hbefore, rfl⟩
    have hnot : ¬ ∀ r ∈ rules, r.Apt := fun hall => hmisfit (hall r (List.mem_of_getElem? hr))
    obtain ⟨i, q, hq, hmisfit', hbefore', herror⟩ := ofRules_eq_error hnot
    rcases Nat.lt_trichotomy i k with hlt | rfl | hlt
    · exact absurd (hbefore i hlt q hq) hmisfit'
    · rw [hr] at hq
      cases hq
      exact herror
    · exact absurd (hbefore' k hlt r hr) hmisfit

/-! ## Whole texts -/

theorem ofText_eq_ofRules {text : String} (h : ∀ r ∈ rules, ∀ t ∈ r.node, t.height ≤ 63)
    (htext : (Json.arr (rules.map Rule.toJson)).LaidOut text) : ofText text = ofRules rules := by
  have hreads :
      Reads (Rule.readAll Json.depthLimit) (Json.arr (rules.map Rule.toJson)).tokens rules :=
    Rule.readsAll fun r hr t ht => Nat.mul_le_mul_left 2 (h r hr t ht)
  rw [ofText, hreads.parse htext]

/-- Read from a text, rules give what they give as a list: a script of exactly these rules if each
is apt, and otherwise a failure for the first that is not. -/
theorem ofText_rules (rules : List Rule) (h : ∀ r ∈ rules, ∀ t ∈ r.node, t.height ≤ 63) :
    (ofText (Json.arr (rules.map Rule.toJson)).compact = ofRules rules ∧
      ofText (Json.arr (rules.map Rule.toJson)).pretty = ofRules rules) ∧
    ((∃ s, ofRules rules = .ok s ∧ s.rules = rules) ↔ ∀ r ∈ rules, r.Apt) ∧
    ((¬ ∀ r ∈ rules, r.Apt) → ∃ (i : Nat) (r : Rule), rules[i]? = some r ∧ ¬ r.Apt ∧
      (∀ j < i, ∀ q ∈ rules[j]?, q.Apt) ∧ ofRules rules = .error (.invalidArguments ("rule "
        ++ toString i ++ " (" ++ r.action.name ++ " on '" ++ r.label ++ "') "
        ++ if r.node.isSome then "does not take a node" else "requires a node"))) := by
  refine ⟨⟨ofText_eq_ofRules h (Json.laidOut_compact _),
    ofText_eq_ofRules h (Json.laidOut_pretty _)⟩, ofRules_eq_ok_iff, ?_⟩
  intro hnot
  obtain ⟨i, r, hr, hmisfit, hbefore, herror⟩ := ofRules_eq_error hnot
  rw [Rule.misfit_eq hmisfit] at herror
  exact ⟨i, r, hr, hmisfit, hbefore, herror⟩

/-- Apt rules, and rules of which the second lacks its node and the third has one too many. -/
theorem ofText_rules_secondUnfit :
    let apt : List Rule :=
      [⟨"old", .replace, some (.node "new" [.leaf "x"])⟩, ⟨"debug", .delete, none⟩]
    let unfit : List Rule := [⟨"debug", .delete, none⟩, ⟨"stmt", .insertAfter, none⟩,
      ⟨"old", .delete, some (.leaf "new")⟩]
    ((∀ r ∈ apt, ∀ t ∈ r.node, t.height ≤ 63) ∧
      ∃ s, ofText (Json.arr (apt.map Rule.toJson)).pretty = .ok s ∧ s.rules = apt) ∧
    (∀ r ∈ unfit, ∀ t ∈ r.node, t.height ≤ 63) ∧ (¬ ∀ r ∈ unfit, r.Apt) ∧
      ofText (Json.arr (unfit.map Rule.toJson)).compact =
        .error (.invalidArguments "rule 1 (insert_after on 'stmt') requires a node") := by
  intro apt unfit
  have hapt : ∀ r ∈ apt, ∀ t ∈ r.node, t.height ≤ 63 := by decide
  have hunfit : ∀ r ∈ unfit, ∀ t ∈ r.node, t.height ≤ 63 := by decide
  have hnot : ¬ ∀ r ∈ unfit, r.Apt := by decide
  obtain ⟨⟨-, hpretty⟩, hok, -⟩ := ofText_rules apt hapt
  obtain ⟨⟨hcompact, -⟩, -, herror⟩ := ofText_rules unfit hunfit
  obtain ⟨s, hs, hrules⟩ := hok.2 (by decide)
  obtain ⟨i, r, hr, hmisfit, hbefore, hfirst⟩ := herror hnot
  refine ⟨⟨hapt, s, hpretty.trans hs, hrules⟩, hunfit, hnot, ?_⟩
  rw [hcompact, hfirst]
  obtain _ | _ | i := i
  · cases hr
    exact absurd (by decide) hmisfit
  · cases hr
    rfl
  · exact absurd (hbefore 1 (by omega) _ rfl) (by decide)

end Script
end TreeEdits
