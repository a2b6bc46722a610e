import Mathlib.Data.List.Forall2
import TreeEdits.Json.Read
import TreeEdits.Proofs.Json.Tokens
import TreeEdits.Proofs.Json.Written

/-!
# TreeEdits.Proofs.Json.Reads

What a reader makes of tokens, however they are spaced. Either it reads them all as one value and
stops right behind them, or it meets a bracket that is too deep; nothing else can go wrong with
tokens that fit.

* `Reads`, `Refuses`: the two outcomes, for a reader and some tokens.
* `reads_string`, `reads_natural`, `reads_choice`: the scalars in use.
* `Reads.sequence`, `Refuses.sequence`: a list by its items; the first that is refused refuses it.
* `Reads.parse`, `Refuses.parse`: whole texts.
-/

namespace TreeEdits

variable {α β σ : Type} {ts us : List Token} {s : List Char}

/-- What stands behind a value: nothing, or first a comma or a closing bracket. -/
def Follows (ts : List Token) : Prop := ∀ t ∈ ts.head?, t = [','] ∨ t = [']'] ∨ t = ['\x7d']

/-- The reader reads the tokens as the value, and leaves what is behind them. -/
def Reads (step : Step α) (ts : List Token) (a : α) : Prop :=
  ∀ ⦃us : List Token⦄ ⦃s : List Char⦄, Follows us → Spaced (ts ++ us) s →
    ∃ s', step s = .ok (a, s') ∧ Spaced us s'

/-- The reader meets a bracket that is too deep in the tokens. -/
def Refuses (step : Step α) (ts : List Token) : Prop :=
  ∀ ⦃us : List Token⦄ ⦃s : List Char⦄, Spaced (ts ++ us) s →
    ∃ f, step s = .error f ∧ f.cause = .tooDeep

/-- Tokens that begin a value: not with a blank, and with no closing bracket. -/
def Begins (ts : List Token) : Prop :=
  ∃ c t us, ts = (c :: t) :: us ∧ isBlank c = false ∧ c ≠ ']'

theorem begins_obj (ms : List (String × Json)) : Begins (Json.obj ms).tokens :=
  ⟨'\x7b', [], _, rfl, by decide, by decide⟩

/-- A reader that makes something of what another one reads. -/
theorem Reads.imp {step : Step α} {step' : Step β} {a : α} {b : β} (h : Reads step ts a)
    (hstep : ∀ {s s'}, step s = .ok (a, s') → step' s = .ok (b, s')) : Reads step' ts b := by
  intro us s hus hs
  obtain ⟨s', hread, h'⟩ := h hus hs
  exact ⟨s', hstep hread, h'⟩

/-- A reader that fails where another one does. -/
theorem Refuses.imp {step : Step α} {step' : Step β} (h : Refuses step ts)
    (hstep : ∀ {s f}, step s = .error f → step' s = .error f) : Refuses step' ts := by
  intro us s hs
  obtain ⟨f, hread, hf⟩ := h hs
  exact ⟨f, hstep hread, hf⟩

/-! ## Scalars -/

theorem isBlank_eq_false_of_isDigit {c : Char} (h : c.isDigit = true) : isBlank c = false := by
  cases hc : isBlank c with
  | false => rfl
  | true =>
    rcases exists_of_isBlank hc with rfl | rfl | rfl | rfl <;> cases h

theorem PastNumber.of_blank {c : Char} (hc : isBlank c = true) : PastNumber (c :: s) := by
  intro x hx
  simp only [List.head?_cons, Option.mem_some_iff] at hx
  subst hx
  rcases exists_of_isBlank hc with rfl | rfl | rfl | rfl <;> decide

theorem Follows.pastNumber (hts : Follows ts) (h : Spaced ts s) : PastNumber s := by
  cases h with
  | nil hw =>
    cases s with
    | nil => intro c hc; cases hc
    | cons c s => exact .of_blank (hw c List.mem_cons_self)
  | @cons w t ts s hw h =>
    cases w with
    | nil =>
      intro c hc
      rcases hts t rfl with rfl | rfl | rfl
      all_goals cases hc; decide
    | cons c w => exact .of_blank (hw c List.mem_cons_self)

/-- Past the blanks a literal is its opening quote and what is read after it. -/
theorem Spaced.literal {t : String} (h : Spaced (Literal.write t :: ts) s) :
    ∃ body s', skipBlank s = '"' :: body ∧ Literal.read body = .ok (t, s') ∧ Spaced ts s' := by
  rw [Literal.write] at h
  obtain ⟨s', hs, h'⟩ := h.opens (by decide)
  exact ⟨_, s', hs, Literal.read_body t s', h'⟩

theorem Spaced.number {n : Nat} (hn : n < wordLimit) (hts : Follows ts)
    (h : Spaced ((Number.int n).text :: ts) s) :
    ∃ c ds s', skipBlank s = c :: ds ∧ c.isDigit = true ∧
      readNumber true (c :: ds) = .ok (.int n, s') ∧ Spaced ts s' := by
  cases h with
  | @cons w _ _ s' hw h =>
    obtain ⟨c, ds, htext, hc, hread⟩ := readNumber_text hn (hts.pastNumber h)
    refine ⟨c, ds, s', ?_, hc, hread, h⟩
    rw [skipBlank_append hw, htext]
    exact skipBlank_cons (isBlank_eq_false_of_isDigit hc) ds

theorem reads_string (t : String) : Reads readString (Json.str t).tokens t := by
  intro us s _ h
  obtain ⟨body, s', hs, hread, h'⟩ := Spaced.literal h
  refine ⟨s', ?_, h'⟩
  rw [readString, hs]
  exact hread

theorem reads_natural {limit n : Nat} (expected : String) (hlimit : limit ≤ wordLimit)
    (hn : n < limit) : Reads (readNatural limit expected) (Json.nat n).tokens n := by
  intro us s hus h
  obtain ⟨c, ds, s', hs, hc, hread, h'⟩ := Spaced.number (by omega) hus h
  have hsign : c ≠ '-' := by rintro rfl; cases hc
  refine ⟨s', ?_, h'⟩
  simp [readNatural, hs, hsign, hc, readNaturalAfter, hread, Number.toNatural, hn]

/-- A value that is there is read as itself, unless it could be `null`. -/
theorem Reads.option {value : Step α} {c : Char} {t : List Char} {a : α}
    (hc : isBlank c = false) (hnull : c ≠ 'n') (h : Reads value ((c :: t) :: ts) a) :
    Reads (readOption value) ((c :: t) :: ts) (some a) := by
  intro us s hus hs
  obtain ⟨s₁, hskip, h₁⟩ := hs.opens hc
  obtain ⟨s', hread, h'⟩ := h hus (h₁.token (t := c :: t))
  refine ⟨s', ?_, h'⟩
  rw [readOption, hskip]
  simp only [List.cons_append] at hread
  split
  · rename_i heq
    exact absurd (List.cons.inj heq).1 hnull
  · rw [hread]

/-- Names for which a choice has a meaning are read as it. -/
theorem reads_choice (budget : Nat) {choices : List (String × β)} {name : String} {b : β}
    (h : choose choices name = .ok b) :
    Reads (readChoice budget choices) (Json.str name).tokens b := by
  intro us s _ hs
  obtain ⟨body, s', hskip, hread, h'⟩ := Spaced.literal hs
  refine ⟨s', ?_, h'⟩
  rw [readChoice, hskip]
  simp only [readName, hread, h]

/-! ## Lists -/

theorem follows_items (vs : List Json) : Follows (Json.tokensItems false vs ++ [']'] :: us) := by
  cases vs with
  | nil => intro t ht; cases ht; exact .inr (.inl rfl)
  | cons v vs => intro t ht; cases ht; exact .inl rfl

theorem nextItem_end (first : Bool) (h : Spaced ([']'] :: ts) s) :
    ∃ s', nextItem first s = .ok (.done s') ∧ Spaced ts s' := by
  obtain ⟨s', hs, h'⟩ := h.opensSign (by decide)
  exact ⟨s', by rw [nextItem, hs]; rfl, h'⟩

theorem nextItem_item (first : Bool) (hts : Begins ts)
    (h : Spaced (Json.comma first ++ (ts ++ us)) s) :
    ∃ s', nextItem first s = .ok (.item s') ∧ Spaced (ts ++ us) s' := by
  obtain ⟨c, t, ts, rfl, hc, hclose⟩ := hts
  cases first with
  | true =>
    obtain ⟨s', hs, h'⟩ := Spaced.opens hc h
    exact ⟨c :: (t ++ s'), by simp [nextItem, hs, hclose], h'.token⟩
  | false =>
    obtain ⟨s₁, hs₁, h₁⟩ := Spaced.opensSign (c := ',') (by decide) h
    obtain ⟨s', hs, h'⟩ := Spaced.opens hc h₁
    exact ⟨c :: (t ++ s'), by simp [nextItem, hs₁, hs, hclose], h'.token⟩

/-- What it takes to read a value as an item of a list. -/
def ReadsItem (item : Step α) (v : Json) (a : α) : Prop := Begins v.tokens ∧ Reads item v.tokens a

variable {item : Step α}

theorem length_le_tokensItems (vs : List Json) :
    vs.length ≤ (Json.tokensItems false vs).flatten.length := by
  induction vs with
  | nil => exact Nat.le_refl 0
  | cons v vs ih =>
    simp only [Json.tokensItems, Json.comma, List.length_cons, List.flatten_append,
      List.length_append, Bool.false_eq_true, if_false, List.flatten_cons]
    omega

/-- The text of a list is longer than the list has items. -/
theorem length_lt_of_spacedItems {vs : List Json} (hv : ∀ v ∈ vs.head?, Begins v.tokens)
    (hs : Spaced (Json.tokensItems true vs ++ [']'] :: us) s) : vs.length < s.length := by
  have hclose : Spaced ((Json.tokensItems true vs ++ [[']']]) ++ us) s := by simpa using hs
  have hlength := hclose.length_le
  cases vs with
  | nil => exact hlength
  | cons v vs =>
    obtain ⟨c, t, ts, htokens, -, -⟩ := hv v rfl
    have hvs := length_le_tokensItems vs
    simp only [Json.tokensItems, htokens, List.flatten_append, List.length_append,
      List.flatten_cons, List.length_cons] at hlength ⊢
    omega

/-- The bound is longer than the list, so it does not end the loop. -/
theorem reads_itemsWithin {vs : List Json} {as : List α} (h : List.Forall₂ (ReadsItem item) vs as) :
    ∀ {bound : List Char} {first : Bool} {s : List Char}, vs.length < bound.length →
      Spaced (Json.tokensItems first vs ++ [']'] :: us) s →
      ∃ s', readItemsWithin item bound first s = .ok (as, s') ∧ Spaced us s' := by
  induction h with
  | nil =>
    intro bound first s hbound hs
    obtain ⟨b, bound, rfl⟩ := List.exists_cons_of_length_pos hbound
    obtain ⟨s', hnext, h'⟩ := nextItem_end first hs
    exact ⟨s', by rw [readItemsWithin, hnext], h'⟩
  | @cons v a vs as hv _ ih =>
    intro bound first s hbound hs
    obtain ⟨b, bound, rfl⟩ := List.exists_cons_of_length_pos (Nat.zero_lt_of_lt hbound)
    simp only [Json.tokensItems, List.append_assoc] at hs
    obtain ⟨s₁, hnext, h₁⟩ := nextItem_item first hv.1 hs
    obtain ⟨s₂, hread, h₂⟩ := hv.2 (follows_items vs) h₁
    obtain ⟨s', hrest, h'⟩ := ih (Nat.lt_of_succ_lt_succ hbound) h₂
    exact ⟨s', by rw [readItemsWithin, hnext]; simp only [hread, hrest], h'⟩

theorem begins_head?_of_forall₂ {vs : List Json} {as : List α}
    (h : List.Forall₂ (ReadsItem item) vs as) : ∀ v ∈ vs.head?, Begins v.tokens := by
  cases h with
  | nil => intro v hv; cases hv
  | cons hv _ => intro u hu; cases hu; exact hv.1

theorem reads_items {vs : List Json} {as : List α} (h : List.Forall₂ (ReadsItem item) vs as)
    (hs : Spaced (Json.tokensItems true vs ++ [']'] :: us) s) :
    ∃ s', readItems item s = .ok (as, s') ∧ Spaced us s' :=
  reads_itemsWithin h (length_lt_of_spacedItems (begins_head?_of_forall₂ h) hs) hs

theorem Reads.sequence {vs : List Json} {as : List α} (h : List.Forall₂ (ReadsItem item) vs as) :
    Reads (readSequence (some item)) (Json.arr vs).tokens as := by
  intro us s _ hs
  simp only [Json.tokens, List.cons_append, List.append_assoc, List.nil_append] at hs
  obtain ⟨s₁, hskip, h₁⟩ := hs.opensSign (by decide)
  obtain ⟨s', hread, h'⟩ := reads_items h h₁
  exact ⟨s', by simp only [readSequence, hskip, hread], h'⟩

/-- One of the items is refused, and all before it are read. -/
inductive RefusesItem (item : Step α) : List Json → Prop
  | here {v : Json} {vs : List Json} : Begins v.tokens → Refuses item v.tokens →
    RefusesItem item (v :: vs)
  | later {v : Json} {a : α} {vs : List Json} : ReadsItem item v a → RefusesItem item vs →
    RefusesItem item (v :: vs)

theorem refuses_itemsWithin {vs : List Json} (h : RefusesItem item vs) :
    ∀ {bound : List Char} {first : Bool} {s : List Char}, vs.length < bound.length →
      Spaced (Json.tokensItems first vs ++ [']'] :: us) s →
      ∃ f, readItemsWithin item bound first s = .error f ∧ f.cause = .tooDeep := by
  induction h with
  | here hv hrefuse =>
    intro bound first s hbound hs
    obtain ⟨b, bound, rfl⟩ := List.exists_cons_of_length_pos (Nat.zero_lt_of_lt hbound)
    simp only [Json.tokensItems, List.append_assoc] at hs
    obtain ⟨s₁, hnext, h₁⟩ := nextItem_item first hv hs
    obtain ⟨f, hread, hf⟩ := hrefuse h₁
    exact ⟨f, by rw [readItemsWithin, hnext]; simp only [hread], hf⟩
  | @later v a vs hv _ ih =>
    intro bound first s hbound hs
    obtain ⟨b, bound, rfl⟩ := List.exists_cons_of_length_pos (Nat.zero_lt_of_lt hbound)
    simp only [Json.tokensItems, List.append_assoc] at hs
    obtain ⟨s₁, hnext, h₁⟩ := nextItem_item first hv.1 hs
    obtain ⟨s₂, hread, h₂⟩ := hv.2 (follows_items vs) h₁
    obtain ⟨f, hrest, hf⟩ := ih (Nat.lt_of_succ_lt_succ hbound) h₂
    exact ⟨f, by rw [readItemsWithin, hnext]; simp only [hread, hrest], hf⟩

theorem refuses_items {vs : List Json} (h : RefusesItem item vs)
    (hs : Spaced (Json.tokensItems true vs ++ [']'] :: us) s) :
    ∃ f, readItems item s = .error f ∧ f.cause = .tooDeep := by
  have hhead : ∀ v ∈ vs.head?, Begins v.tokens := by
    cases h with
    | here hv _ => intro x hx; cases hx; exact hv
    | later hv _ => intro x hx; cases hx; exact hv.1
  exact refuses_itemsWithin h (length_lt_of_spacedItems hhead hs) hs

theorem Refuses.sequence {vs : List Json} (h : RefusesItem item vs) :
    Refuses (readSequence (some item)) (Json.arr vs).tokens := by
  intro us s hs
  simp only [Json.tokens, List.cons_append, List.append_assoc, List.nil_append] at hs
  obtain ⟨s₁, hskip, h₁⟩ := hs.opensSign (by decide)
  obtain ⟨f, hread, hf⟩ := refuses_items h h₁
  exact ⟨f, by simp only [readSequence, hskip, hread], hf⟩

/-- A list is refused where no bracket may be opened. -/
theorem Refuses.sequence_none (vs : List Json) :
    Refuses (readSequence (none : Option (Step α))) (Json.arr vs).tokens := by
  intro us s hs
  obtain ⟨s₁, hskip, -⟩ := Spaced.opensSign (c := '[') (by decide) hs
  exact ⟨_, by simp only [readSequence, hskip]; rfl, rfl⟩

/-! ## Whole texts -/

variable {step : Step α}

theorem Reads.parse {v : Json} {text : String} {a : α} (h : Reads step v.tokens a)
    (hs : v.LaidOut text) : TreeEdits.parse step text = .ok a := by
  rw [Json.LaidOut, ← List.append_nil v.tokens] at hs
  obtain ⟨s', hread, hend⟩ := h (by intro t ht; cases ht) hs
  cases hend with
  | nil hw => simp only [TreeEdits.parse, hread, skipBlank_eq_nil hw]

theorem Refuses.parse {v : Json} {text : String} (h : Refuses step v.tokens) (hs : v.LaidOut text) :
    ∃ e, TreeEdits.parse step text = .error e ∧ e.cause = .tooDeep := by
  rw [Json.LaidOut, ← List.append_nil v.tokens] at hs
  obtain ⟨f, hread, hf⟩ := h hs
  exact ⟨f.locate text.toList, by simp only [TreeEdits.parse, hread], hf⟩

end TreeEdits
