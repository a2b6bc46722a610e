import TreeEdits.Proofs.Json.Depth

/-!
# TreeEdits.Proofs.Json.Yields

What holds of everything that is read, whatever the text. A property of the items of a list, or one
of a state that every member keeps, holds of all that the list or the object gives.

* `Yields`: what holds of all that a reader reads.
* `Keeps`, `Field.Keeps`: members and fields that keep a property of a state.
* `Yields.sequence`, `Keeps.yields`, `Record.yields_read`: lists, objects and records.
* `Json.yields_read`: any value nests its brackets within the budget.
-/

namespace TreeEdits

variable {α β σ : Type} {P : α → Prop} {I : σ → Prop}

/-- All that the reader reads has the property. -/
def Yields (step : Step α) (P : α → Prop) : Prop :=
  ∀ ⦃s : List Char⦄ ⦃a : α⦄ ⦃s' : List Char⦄, step s = .ok (a, s') → P a

theorem Yields.parse {step : Step α} (h : Yields step P) {text : String} {a : α}
    (htext : TreeEdits.parse step text = .ok a) : P a := by
  simp only [TreeEdits.parse] at htext
  split at htext
  · cases htext
  · rename_i hread
    split at htext
    · cases htext
      exact h hread
    · cases htext

/-! ## Lists -/

variable {item : Step α}

theorem Yields.itemsWithin (h : Yields item P) : ∀ (bound : List Char) (first : Bool),
    Yields (readItemsWithin item bound first) fun as => ∀ a ∈ as, P a := by
  intro bound
  induction bound with
  | nil =>
    intro first s as s' hread
    cases hread
  | cons b bound ih =>
    intro first s as s' hread
    rw [readItemsWithin] at hread
    split at hread
    · cases hread
    · cases hread
      exact fun a ha => absurd ha List.not_mem_nil
    · split at hread
      · cases hread
      · rename_i hitem
        split at hread
        · cases hread
        · rename_i hrest
          cases hread
          exact List.forall_mem_cons.2 ⟨h hitem, ih false hrest⟩

theorem Yields.items (h : Yields item P) : Yields (readItems item) fun as => ∀ a ∈ as, P a :=
  fun s _ _ hread => h.itemsWithin s true hread

theorem Yields.sequence {item : Option (Step α)} (h : ∀ i ∈ item, Yields i P) :
    Yields (readSequence item) fun as => ∀ a ∈ as, P a := by
  intro s as s' hread
  simp only [readSequence] at hread
  split at hread
  · exact (h _ rfl).items hread
  · cases hread
  · cases hread

theorem Yields.option {value : Step α} (h : Yields value P) :
    Yields (readOption value) fun o => ∀ a ∈ o, P a := by
  intro s o s' hread
  simp only [readOption] at hread
  split at hread
  · split at hread
    · cases hread
    · cases hread
      intro a ha
      cases ha
  · split at hread
    · cases hread
    · rename_i hvalue
      cases hread
      intro a ha
      cases ha
      exact h hvalue

/-! ## Objects -/

/-- Whatever member is taken, the state has the property after it if it had it before. -/
def Keeps (take : Members σ) (I : σ → Prop) : Prop :=
  ∀ ⦃st : σ⦄ ⦃key : String⦄ ⦃step : Step σ⦄, I st → take st key = .ok step → Yields step I

theorem Keeps.yieldsWithin {take : Members σ} (h : Keeps take I) :
    ∀ (bound : List Char) (first : Bool) {st : σ}, I st →
      Yields (readMembersWithin take bound first st) I := by
  intro bound
  induction bound with
  | nil =>
    intro first st hst s st' s' hread
    cases hread
  | cons b bound ih =>
    intro first st hst s st' s' hread
    rw [readMembersWithin] at hread
    split at hread
    · cases hread
    · cases hread
      exact hst
    · split at hread
      · cases hread
      · split at hread
        · cases hread
        · rename_i hkey
          split at hread
          · cases hread
          · split at hread
            · cases hread
            · rename_i hvalue
              exact ih false (h hst hkey hvalue) hread

theorem Keeps.yields {take : Members σ} (h : Keeps take I) {st : σ} (hst : I st) :
    Yields (readMembers take st) I :=
  fun s _ _ hread => h.yieldsWithin s true hst hread

/-! ## Records -/

def Field.Keeps (f : Field σ) (I : σ → Prop) : Prop := ∀ ⦃st : σ⦄, I st → Yields (f.read st) I

theorem Field.keeps_of {name : String} {get : σ → Option β} {set : β → σ → σ} {value : Step β}
    {optional : Bool} {Q : β → Prop} (hvalue : Yields value Q)
    (hset : ∀ {b : β} {st : σ}, Q b → I st → I (set b st)) :
    (Field.of name get set value optional).Keeps I := by
  intro st hst s st' s' hread
  simp only [Field.of] at hread
  split at hread
  · cases hread
  · rename_i hb
    cases hread
    exact hset (hvalue hb) hst

/-- A field that does not matter to the property. -/
theorem Field.keeps_of_set {name : String} {get : σ → Option β} {set : β → σ → σ} {value : Step β}
    {optional : Bool} (hset : ∀ {b : β} {st : σ}, I st → I (set b st)) :
    (Field.of name get set value optional).Keeps I :=
  Field.keeps_of (Q := fun _ => True) (fun _ _ _ _ => trivial) fun _ hst => hset hst

namespace Record

variable {r : Record σ α}

theorem keeps_take (h : ∀ f ∈ r.fields, f.Keeps I) : TreeEdits.Keeps r.take I := by
  intro st key step hst hkey
  simp only [take] at hkey
  split at hkey
  · cases hkey
    intro s st' s' hread
    dsimp only at hread
    split at hread
    · cases hread
    · cases hread
      exact hst
  · rename_i f hfind
    split at hkey
    · cases hkey
    · cases hkey
      exact h f (List.mem_of_find?_eq_some hfind) hst

theorem yields_readFields (expected : String) {fs : List (Field σ)} (h : ∀ f ∈ fs, f.Keeps I) :
    ∀ (i : Nat) {st : σ}, I st → Yields (readFields expected fs i st) I := by
  induction fs with
  | nil =>
    intro i st hst s st' s' hread
    rw [readFields] at hread
    split at hread
    · cases hread
    · cases hread
      exact hst
  | cons f fs ih =>
    intro i st hst s st' s' hread
    rw [readFields] at hread
    split at hread
    · cases hread
    · -- The list ends early, and the fields that are left stay unread.
      split at hread
      · cases hread
      · cases hread
        exact hst
    · split at hread
      · cases hread
      · rename_i hfield
        have hst' := h f List.mem_cons_self hst hfield
        exact ih (fun g hg => h g (List.mem_cons_of_mem f hg)) (i + 1) hst' hread

/-- What is made of a state with the property, to which every field is added that is there. -/
theorem yields_read (name : String) (hstart : I r.start) (hfields : ∀ f ∈ r.fields, f.Keeps I)
    (hfinish : ∀ {st a}, I st → r.finish st = .ok a → P a) :
    Yields (Record.read name (some r)) P := by
  intro s a s' hread
  simp only [Record.read] at hread
  split at hread
  · rename_i hr
    cases hr
    rw [readObject] at hread
    split at hread
    · cases hread
    · rename_i hmembers
      split at hread
      · cases hread
      · rename_i ha
        cases hread
        exact hfinish ((keeps_take hfields).yields hstart hmembers) ha
  · rename_i hr
    cases hr
    rw [readList] at hread
    split at hread
    · cases hread
    · rename_i hlist
      split at hread
      · cases hread
      · rename_i ha
        cases hread
        exact hfinish (yields_readFields _ hfields 0 hstart hlist) ha
  · cases hread
  · cases hread
  · cases hread

/-- Where no bracket may be opened, no record is read. -/
theorem yields_none (name : String) : Yields (Record.read name (none : Option (Record σ α))) P := by
  intro s a s' hread
  simp only [Record.read] at hread
  split at hread <;> simp_all

end Record

/-! ## Values of no particular kind -/

namespace Json

theorem yields_readScalar : Yields readScalar fun v => v.depth = 0 := by
  intro s v s' hread
  cases s with
  | nil => cases hread
  | cons c s =>
    simp only [readScalar] at hread
    repeat' split at hread
    all_goals cases hread <;> rfl

theorem keeps_takeAny {value : Step Json} {n : Nat} (h : Yields value fun v => v.depth ≤ n) :
    Keeps (takeAny value) fun members => ∀ m ∈ members, m.2.depth ≤ n := by
  intro members key step hmembers hkey
  cases hkey
  intro s members' s' hread
  dsimp only at hread
  split at hread
  · cases hread
  · rename_i hvalue
    cases hread
    exact List.forall_mem_cons.2 ⟨h hvalue, hmembers⟩

theorem yields_readBehind_none : Yields (readBehind none) fun v => v.depth ≤ 0 := by
  intro s v s' hread
  simp only [readBehind] at hread
  split at hread
  · rename_i h; cases h
  · rename_i h; cases h
  · cases hread
  · cases hread
  · exact Nat.le_of_eq (yields_readScalar hread)

theorem yields_readBehind {value : Step Json} {n : Nat} (h : Yields value fun v => v.depth ≤ n) :
    Yields (readBehind (some value)) fun v => v.depth ≤ n + 1 := by
  intro s v s' hread
  simp only [readBehind] at hread
  split at hread
  · rename_i hvalue
    cases hvalue
    split at hread
    · cases hread
    · rename_i hitems
      cases hread
      exact Nat.succ_le_succ (depthItems_le_iff.2 (h.items hitems))
  · rename_i hvalue
    cases hvalue
    split at hread
    · cases hread
    · rename_i hmembers
      cases hread
      have hkept := (keeps_takeAny h).yields (fun m hm => absurd hm List.not_mem_nil) hmembers
      refine Nat.succ_le_succ (depthMembers_le_iff.2 fun m hm => hkept m ?_)
      exact List.mem_reverse.1 hm
  · rename_i hvalue; cases hvalue
  · rename_i hvalue; cases hvalue
  · rw [yields_readScalar hread]
    exact Nat.zero_le _

/-- Any value nests its brackets within the budget. -/
theorem yields_read : ∀ budget : Nat, Yields (read budget) fun v => v.depth ≤ budget
  | 0 => yields_readBehind_none
  | budget + 1 => yields_readBehind (yields_read budget)

end Json
end TreeEdits
