import TreeEdits.Proofs.Json.Members

/-!
# TreeEdits.Proofs.Json.Depth

How deep the brackets of a value nest, and values read for what they are. A value whose brackets fit
the budget is read as itself, and any other is refused for the first bracket that does not.

* `Json.depth`: the greatest number of brackets that are open at one time.
* `Json.Plain`: values whose numbers are whole and fit in 64 bits without a sign.
* `Json.Plain.reads`, `Json.Plain.refuses`: a plain value within the budget and beyond it.
-/

namespace TreeEdits
namespace Json

variable {n : Nat} {us : List Token} {s : List Char}

mutual

def depth : Json → Nat
  | arr vs => depthItems vs + 1
  | obj ms => depthMembers ms + 1
  | _ => 0

def depthItems : List Json → Nat
  | [] => 0
  | v :: vs => max (depth v) (depthItems vs)

def depthMembers : List (String × Json) → Nat
  | [] => 0
  | (_, v) :: ms => max (depth v) (depthMembers ms)

end

theorem depthItems_le_iff {vs : List Json} : depthItems vs ≤ n ↔ ∀ v ∈ vs, v.depth ≤ n := by
  induction vs with
  | nil => simp [depthItems]
  | cons v vs ih => rw [depthItems, Nat.max_le, ih, List.forall_mem_cons]

theorem depthMembers_le_iff {ms : List (String × Json)} :
    depthMembers ms ≤ n ↔ ∀ m ∈ ms, m.2.depth ≤ n := by
  induction ms with
  | nil => simp [depthMembers]
  | cons m ms ih => rw [depthMembers, Nat.max_le, ih, List.forall_mem_cons]

/-- Values without floating point numbers, negative ones and those above 64 bits. -/
inductive Plain : Json → Prop
  | null : Plain null
  | bool (b : Bool) : Plain (bool b)
  | nat {n : Nat} : n < wordLimit → Plain (nat n)
  | str (s : String) : Plain (str s)
  | arr {vs : List Json} : (∀ v ∈ vs, Plain v) → Plain (arr vs)
  | obj {ms : List (String × Json)} : (∀ m ∈ ms, Plain m.2) → Plain (obj ms)

theorem tokens_nat (hn : n < wordLimit) :
    ∃ c ds, (nat n).tokens = [c :: ds] ∧ c.isDigit = true := by
  obtain ⟨c, ds, htext, hc, -⟩ := readNumber_text hn (s := []) (by intro c hc; cases hc)
  rw [List.append_nil] at htext
  exact ⟨c, ds, by rw [nat, tokens, htext], hc⟩

theorem Plain.begins {v : Json} (hv : Plain v) : Begins v.tokens := by
  cases hv with
  | null => exact ⟨'n', _, _, rfl, by decide, by decide⟩
  | bool b => cases b <;> exact ⟨_, _, _, rfl, by decide, by decide⟩
  | @nat n hn =>
    obtain ⟨c, ds, htokens, hc⟩ := tokens_nat hn
    exact ⟨c, ds, [], htokens, isBlank_eq_false_of_isDigit hc, by rintro rfl; cases hc⟩
  | str s => exact ⟨'"', _, _, rfl, by decide, by decide⟩
  | arr _ => exact ⟨'[', _, _, rfl, by decide, by decide⟩
  | obj _ => exact begins_obj _

/-- What does not begin with a bracket is read as a scalar, within any budget. -/
theorem read_eq_readScalar {c : Char} {s' : List Char} (hs : skipBlank s = c :: s')
    (hlist : c ≠ '[') (hobject : c ≠ '\x7b') (budget : Nat) : read budget s = readScalar (c :: s') := by
  cases budget <;> simp [read, readBehind, hs, hlist, hobject]

theorem taken_takeAny {value : Step Json} {ms : List (String × Json)}
    (h : ∀ m ∈ ms, Reads value m.2.tokens m.2) : ∀ acc : List (String × Json),
      Taken (takeAny value) acc ms (ms.reverse ++ acc) := by
  induction ms with
  | nil => exact fun acc => .nil acc
  | cons m ms ih =>
    intro acc
    obtain ⟨key, v⟩ := m
    have hrest := ih (fun x hx => h x (List.mem_cons_of_mem _ hx)) ((key, v) :: acc)
    rw [List.reverse_cons, List.append_assoc, List.singleton_append]
    have hv : Reads value v.tokens v := h (key, v) List.mem_cons_self
    exact .cons rfl (hv.imp fun hread => by simp only [hread]) hrest

theorem Plain.reads {v : Json} (hv : Plain v) :
    ∀ {budget : Nat}, v.depth ≤ budget → Reads (read budget) v.tokens v := by
  induction hv with
  | null =>
    intro budget _ us s _ hs
    obtain ⟨s', hskip, h'⟩ := Spaced.opens (c := 'n') (by decide) hs
    exact ⟨s', by rw [read_eq_readScalar hskip (by decide) (by decide)]; rfl, h'⟩
  | bool b =>
    intro budget _ us s _ hs
    cases b with
    | true =>
      obtain ⟨s', hskip, h'⟩ := Spaced.opens (c := 't') (by decide) hs
      exact ⟨s', by rw [read_eq_readScalar hskip (by decide) (by decide)]; rfl, h'⟩
    | false =>
      obtain ⟨s', hskip, h'⟩ := Spaced.opens (c := 'f') (by decide) hs
      exact ⟨s', by rw [read_eq_readScalar hskip (by decide) (by decide)]; rfl, h'⟩
  | @nat n hn =>
    intro budget _ us s hus hs
    obtain ⟨c, ds, s', hskip, hc, hread, h'⟩ := Spaced.number hn hus hs
    refine ⟨s', ?_, h'⟩
    rw [read_eq_readScalar hskip (by rintro rfl; cases hc) (by rintro rfl; cases hc), readScalar]
    have hother : c ≠ 'n' ∧ c ≠ 't' ∧ c ≠ 'f' ∧ c ≠ '-' := by
      refine ⟨?_, ?_, ?_, ?_⟩ <;> (rintro rfl; cases hc)
    simp [hother, hc, hread, Json.nat]
  | str t =>
    intro budget _ us s _ hs
    obtain ⟨body, s', hskip, hread, h'⟩ := Spaced.literal hs
    refine ⟨s', ?_, h'⟩
    rw [read_eq_readScalar hskip (by decide) (by decide)]
    simp [readScalar, hread]
  | @arr vs hvs ih =>
    intro budget hdepth us s _ hs
    cases budget with
    | zero => cases hdepth
    | succ budget =>
      have hitems := depthItems_le_iff.1 (Nat.le_of_succ_le_succ hdepth)
      simp only [tokens, List.cons_append, List.append_assoc, List.nil_append] at hs
      obtain ⟨s₁, hskip, h₁⟩ := hs.opensSign (by decide)
      have hall : List.Forall₂ (ReadsItem (read budget)) vs vs :=
        List.forall₂_same.2 fun v hv => ⟨(hvs v hv).begins, ih v hv (hitems v hv)⟩
      obtain ⟨s', hread, h'⟩ := reads_items hall h₁
      exact ⟨s', by simp only [read, readBehind, hskip, hread], h'⟩
  | @obj ms hms ih =>
    intro budget hdepth us s _ hs
    cases budget with
    | zero => cases hdepth
    | succ budget =>
      have hmembers := depthMembers_le_iff.1 (Nat.le_of_succ_le_succ hdepth)
      obtain ⟨s₁, hskip, h₁⟩ := hs.object
      have htaken := taken_takeAny (fun m hm => ih m hm (hmembers m hm)) []
      obtain ⟨s', hread, h'⟩ := htaken.reads h₁
      exact ⟨s', by simp [read, readBehind, hskip, hread], h'⟩

/-! ## Beyond the budget -/

theorem refusesItem {vs : List Json} {budget : Nat} (hplain : ∀ v ∈ vs, v.Plain)
    (hrefuse : ∀ v ∈ vs, budget < v.depth → Refuses (read budget) v.tokens)
    (hdepth : budget < depthItems vs) : RefusesItem (read budget) vs := by
  induction vs with
  | nil => exact absurd hdepth (Nat.not_lt_zero budget)
  | cons v vs ih =>
    obtain ⟨hv, hvs⟩ := List.forall_mem_cons.1 hplain
    obtain ⟨hrv, hrvs⟩ := List.forall_mem_cons.1 hrefuse
    rw [depthItems] at hdepth
    rcases Nat.lt_or_ge budget v.depth with hlt | hle
    · exact .here hv.begins (hrv hlt)
    · exact .later ⟨hv.begins, hv.reads hle⟩ (ih hvs hrvs (by omega))

/-- The first member that nests deeper than `n`. -/
theorem exists_of_lt_depthMembers {ms : List (String × Json)} (h : n < depthMembers ms) :
    ∃ pre key v post, ms = pre ++ (key, v) :: post ∧ n < v.depth ∧ ∀ m ∈ pre, m.2.depth ≤ n := by
  induction ms with
  | nil => exact absurd h (Nat.not_lt_zero n)
  | cons m ms ih =>
    obtain ⟨key, v⟩ := m
    rw [depthMembers] at h
    rcases Nat.lt_or_ge n v.depth with hlt | hle
    · exact ⟨[], key, v, ms, rfl, hlt, fun m hm => absurd hm List.not_mem_nil⟩
    · obtain ⟨pre, k, u, post, rfl, hu, hpre⟩ := ih (by omega)
      exact ⟨(key, v) :: pre, k, u, post, rfl, hu, List.forall_mem_cons.2 ⟨hle, hpre⟩⟩

/-- A value whose brackets do not fit the budget is refused for that. -/
theorem Plain.refuses {v : Json} (hv : Plain v) : ∀ {budget : Nat}, budget < v.depth →
    Refuses (read budget) v.tokens := by
  induction hv with
  | null => exact fun h => absurd h (Nat.not_lt_zero _)
  | bool b => exact fun h => absurd h (Nat.not_lt_zero _)
  | nat _ => exact fun h => absurd h (Nat.not_lt_zero _)
  | str t => exact fun h => absurd h (Nat.not_lt_zero _)
  | @arr vs hvs ih =>
    intro budget hdepth us s hs
    simp only [tokens, List.cons_append, List.append_assoc, List.nil_append] at hs
    obtain ⟨s₁, hskip, h₁⟩ := hs.opensSign (by decide)
    cases budget with
    | zero => exact ⟨_, by simp only [read, readBehind, hskip]; rfl, rfl⟩
    | succ budget =>
      have hitem := refusesItem hvs (fun v hv => ih v hv) (Nat.lt_of_succ_lt_succ hdepth)
      obtain ⟨f, hread, hf⟩ := refuses_items hitem h₁
      exact ⟨f, by simp only [read, readBehind, hskip, hread], hf⟩
  | @obj ms hms ih =>
    intro budget hdepth us s hs
    obtain ⟨s₁, hskip, h₁⟩ := hs.object
    cases budget with
    | zero => exact ⟨_, by simp only [read, readBehind, hskip]; rfl, rfl⟩
    | succ budget =>
      obtain ⟨pre, key, v, post, rfl, hv, hpre⟩ :=
        exists_of_lt_depthMembers (Nat.lt_of_succ_lt_succ hdepth)
      have hmem : ∀ m ∈ pre, m ∈ pre ++ (key, v) :: post := fun m hm => List.mem_append_left _ hm
      have htaken := taken_takeAny (fun m hm => (hms m (hmem m hm)).reads (hpre m hm)) []
      have hrefuse : Refuses (read budget) v.tokens := ih (key, v) (by simp) hv
      obtain ⟨f, hread, hf⟩ := htaken.refuses rfl (hrefuse.imp fun hv => by simp only [hv]) h₁
      exact ⟨f, by simp only [read, readBehind, hskip, hread], hf⟩

end Json
end TreeEdits
