import TreeEdits.Proofs.Json.Reads

/-!
# TreeEdits.Proofs.Json.Members

Objects and records off their tokens. An object is read if its members can be taken one after the
other, each from the state that those before it left; the order of the members matters only as far
as it does to that.

* `Taken`: members taken from one state to another.
* `Taken.reads`, `Taken.refuses`: an object by its members, of which one may be refused.
* `Record.taken_field`, `Record.reads`, `Record.refuses_field`: a record written as an object.
-/

namespace TreeEdits

variable {α β σ : Type} {ts us : List Token} {s : List Char}

theorem follows_members (ms : List (String × Json)) :
    Follows (Json.tokensMembers false ms ++ ['\x7d'] :: us) := by
  cases ms with
  | nil => intro t ht; cases ht; exact .inr (.inr rfl)
  | cons m ms => intro t ht; cases ht; exact .inl rfl

theorem nextKey_end (first : Bool) (h : Spaced (['\x7d'] :: ts) s) :
    ∃ s', nextKey first s = .ok (.done s') ∧ Spaced ts s' := by
  obtain ⟨s', hs, h'⟩ := h.opensSign (by decide)
  exact ⟨s', by rw [nextKey, hs]; rfl, h'⟩

theorem nextKey_key (first : Bool) {key : String}
    (h : Spaced (Json.comma first ++ Literal.write key :: ts) s) :
    ∃ body s', nextKey first s = .ok (.item body) ∧ Literal.read body = .ok (key, s') ∧
      Spaced ts s' := by
  cases first with
  | true =>
    obtain ⟨body, s', hs, hread, h'⟩ := Spaced.literal h
    exact ⟨body, s', by simp [nextKey, hs], hread, h'⟩
  | false =>
    obtain ⟨s₁, hs₁, h₁⟩ := Spaced.opensSign (c := ',') (by decide) h
    obtain ⟨body, s', hs, hread, h'⟩ := Spaced.literal h₁
    exact ⟨body, s', by simp [nextKey, hs₁, hs], hread, h'⟩

theorem readColon_sign (h : Spaced ([':'] :: ts) s) :
    ∃ s', readColon s = .ok s' ∧ Spaced ts s' := by
  obtain ⟨s', hs, h'⟩ := h.opensSign (by decide)
  exact ⟨s', by simp [readColon, hs], h'⟩

/-- The members are taken one after the other, from one state to another. -/
inductive Taken (take : Members σ) : σ → List (String × Json) → σ → Prop
  | nil (st : σ) : Taken take st [] st
  | cons {st st' st'' : σ} {key : String} {v : Json} {ms : List (String × Json)} {step : Step σ} :
    take st key = .ok step → Reads step v.tokens st' → Taken take st' ms st'' →
      Taken take st ((key, v) :: ms) st''

variable {take : Members σ} {st st' : σ}

theorem Taken.append {st'' : σ} {ms ns : List (String × Json)} (h : Taken take st ms st')
    (h' : Taken take st' ns st'') : Taken take st (ms ++ ns) st'' := by
  induction h with
  | nil st => exact h'
  | cons hkey hv _ ih => exact .cons hkey hv (ih h')

theorem length_le_tokensMembers (ms : List (String × Json)) : ∀ first,
    ms.length ≤ (Json.tokensMembers first ms).flatten.length := by
  induction ms with
  | nil => exact fun _ => Nat.le_refl 0
  | cons m ms ih =>
    intro first
    obtain ⟨key, v⟩ := m
    have hms := ih false
    simp only [Json.tokensMembers, List.flatten_append, List.flatten_cons, List.length_append,
      List.length_cons, List.length_nil]
    omega

/-- The text of an object is longer than the object has members. -/
theorem length_lt_of_spacedMembers {ms : List (String × Json)}
    (hs : Spaced (Json.tokensMembers true ms ++ ['\x7d'] :: us) s) : ms.length < s.length := by
  have hclose : Spaced ((Json.tokensMembers true ms ++ [['\x7d']]) ++ us) s := by simpa using hs
  have hlength := hclose.length_le
  have hms := length_le_tokensMembers ms true
  simp only [List.flatten_append, List.flatten_cons, List.flatten_nil, List.length_append,
    List.length_cons, List.length_nil] at hlength
  omega

theorem Taken.readsWithin {ms : List (String × Json)} (h : Taken take st ms st') :
    ∀ {bound : List Char} {first : Bool} {s : List Char}, ms.length < bound.length →
      Spaced (Json.tokensMembers first ms ++ ['\x7d'] :: us) s →
      ∃ s', readMembersWithin take bound first st s = .ok (st', s') ∧ Spaced us s' := by
  induction h with
  | nil st =>
    intro bound first s hbound hs
    obtain ⟨b, bound, rfl⟩ := List.exists_cons_of_length_pos hbound
    obtain ⟨s', hnext, h'⟩ := nextKey_end first hs
    exact ⟨s', by rw [readMembersWithin, hnext], h'⟩
  | @cons st st₁ st₂ key v ms step hkey hv _ ih =>
    intro bound first s hbound hs
    obtain ⟨b, bound, rfl⟩ := List.exists_cons_of_length_pos (Nat.zero_lt_of_lt hbound)
    simp only [Json.tokensMembers, List.append_assoc, List.cons_append] at hs
    obtain ⟨body, s₁, hnext, hread, h₁⟩ := nextKey_key first hs
    obtain ⟨s₂, hcolon, h₂⟩ := readColon_sign h₁
    obtain ⟨s₃, hvalue, h₃⟩ := hv (follows_members ms) h₂
    obtain ⟨s', hrest, h'⟩ := ih (Nat.lt_of_succ_lt_succ hbound) h₃
    refine ⟨s', ?_, h'⟩
    rw [readMembersWithin, hnext]
    simp only [hread, hkey, hcolon, hvalue, hrest]

theorem Taken.reads {ms : List (String × Json)} (h : Taken take st ms st')
    (hs : Spaced (Json.tokensMembers true ms ++ ['\x7d'] :: us) s) :
    ∃ s', readMembers take st s = .ok (st', s') ∧ Spaced us s' :=
  h.readsWithin (length_lt_of_spacedMembers hs) hs

/-- The first member that is refused refuses the object. -/
theorem Taken.refusesWithin {pre post : List (String × Json)} {key : String} {v : Json}
    {step : Step σ} (h : Taken take st pre st') (hkey : take st' key = .ok step)
    (hv : Refuses step v.tokens) :
    ∀ {bound : List Char} {first : Bool} {s : List Char}, pre.length < bound.length →
      Spaced (Json.tokensMembers first (pre ++ (key, v) :: post) ++ ['\x7d'] :: us) s →
      ∃ f, readMembersWithin take bound first st s = .error f ∧ f.cause = .tooDeep := by
  induction h with
  | nil st =>
    intro bound first s hbound hs
    obtain ⟨b, bound, rfl⟩ := List.exists_cons_of_length_pos hbound
    simp only [List.nil_append, Json.tokensMembers, List.append_assoc, List.cons_append] at hs
    obtain ⟨body, s₁, hnext, hread, h₁⟩ := nextKey_key first hs
    obtain ⟨s₂, hcolon, h₂⟩ := readColon_sign h₁
    obtain ⟨f, hvalue, hf⟩ := hv h₂
    refine ⟨f, ?_, hf⟩
    rw [readMembersWithin, hnext]
    simp only [hread, hkey, hcolon, hvalue]
  | @cons st st₁ st₂ k u pre step hk hu _ ih =>
    intro bound first s hbound hs
    obtain ⟨b, bound, rfl⟩ := List.exists_cons_of_length_pos (Nat.zero_lt_of_lt hbound)
    simp only [Json.tokensMembers, List.append_assoc, List.cons_append] at hs
    obtain ⟨body, s₁, hnext, hread, h₁⟩ := nextKey_key first hs
    obtain ⟨s₂, hcolon, h₂⟩ := readColon_sign h₁
    obtain ⟨s₃, hvalue, h₃⟩ := hu (follows_members (pre ++ (key, v) :: post)) h₂
    obtain ⟨f, hrest, hf⟩ := ih hkey (Nat.lt_of_succ_lt_succ hbound) h₃
    refine ⟨f, ?_, hf⟩
    rw [readMembersWithin, hnext]
    simp only [hread, hk, hcolon, hvalue, hrest]

theorem Taken.refuses {pre post : List (String × Json)} {key : String} {v : Json} {step : Step σ}
    (h : Taken take st pre st') (hkey : take st' key = .ok step) (hv : Refuses step v.tokens)
    (hs : Spaced (Json.tokensMembers true (pre ++ (key, v) :: post) ++ ['\x7d'] :: us) s) :
    ∃ f, readMembers take st s = .error f ∧ f.cause = .tooDeep := by
  refine h.refusesWithin hkey hv ?_ hs
  have hlength := length_lt_of_spacedMembers hs
  simp only [List.length_append] at hlength
  omega

/-! ## Objects and records -/

/-- Past the blanks an object is its opening bracket and its members. -/
theorem Spaced.object {ms : List (String × Json)} (h : Spaced ((Json.obj ms).tokens ++ us) s) :
    ∃ s', skipBlank s = '\x7b' :: s' ∧
      Spaced (Json.tokensMembers true ms ++ ['\x7d'] :: us) s' := by
  simp only [Json.tokens, List.cons_append, List.append_assoc, List.nil_append] at h
  exact h.opensSign (by decide)

namespace Record

variable {r : Record σ α}

/-- A key that names a field which has not been read yet. -/
theorem take_field {f : Field σ} {key : String} (hfind : r.fields.find? (·.name == key) = some f)
    (hnew : f.isRead st = false) : r.take st key = .ok (f.read st) := by
  simp [take, hfind, hnew]

section

variable {key name : String} {get : σ → Option β} {set : β → σ → σ} {value : Step β}
  {optional : Bool} {v : Json}

/-- A member that is read into its field. -/
theorem taken_field {st' : σ} {b : β} {ms : List (String × Json)}
    (hfind : r.fields.find? (·.name == key) = some (.of name get set value optional))
    (hnew : get st = none) (hv : Reads value v.tokens b) (hrest : Taken r.take (set b st) ms st') :
    Taken r.take st ((key, v) :: ms) st' := by
  refine .cons (take_field hfind (by simp [Field.of, hnew])) ?_ hrest
  exact hv.imp fun hread => by simp only [Field.of, hread]

/-- A member that is refused by its field, behind some that are taken. -/
theorem refuses_field (typeName : String) {pre post : List (String × Json)}
    (h : Taken r.take r.start pre st)
    (hfind : r.fields.find? (·.name == key) = some (.of name get set value optional))
    (hnew : get st = none) (hv : Refuses value v.tokens) :
    Refuses (Record.read typeName (some r)) (Json.obj (pre ++ (key, v) :: post)).tokens := by
  have hfield : Refuses ((Field.of name get set value optional).read st) v.tokens :=
    hv.imp fun hread => by simp only [Field.of, hread]
  intro us s hs
  obtain ⟨s₁, hskip, h₁⟩ := hs.object
  obtain ⟨f, hread, hf⟩ := h.refuses (take_field hfind (by simp [Field.of, hnew])) hfield h₁
  exact ⟨f, by simp only [Record.read, hskip, readObject, hread], hf⟩

end

theorem reads (name : String) {ms : List (String × Json)} {a : α} (h : Taken r.take r.start ms st)
    (hfinish : r.finish st = .ok a) : Reads (Record.read name (some r)) (Json.obj ms).tokens a := by
  intro us s _ hs
  obtain ⟨s₁, hskip, h₁⟩ := hs.object
  obtain ⟨s', hread, h'⟩ := h.reads h₁
  exact ⟨s', by simp only [Record.read, hskip, readObject, hread, hfinish], h'⟩

/-- A record is refused where no bracket may be opened. -/
theorem refuses_none (name : String) (ms : List (String × Json)) :
    Refuses (Record.read name (none : Option (Record σ α))) (Json.obj ms).tokens := by
  intro us s hs
  obtain ⟨s₁, hskip, -⟩ := hs.object
  exact ⟨_, by simp only [Record.read, hskip]; rfl, rfl⟩

end Record
end TreeEdits
