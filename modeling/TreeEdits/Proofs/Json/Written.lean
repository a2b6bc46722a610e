import TreeEdits.Json.Scalar
import TreeEdits.Json.Write

/-!
# TreeEdits.Proofs.Json.Written

Literals and whole numbers are read back as they were written.

* `Literal.readOnto_escape`: an escaped character is read as that character.
* `Literal.read_body`: a literal, after its opening quote.
* `readDigits_append`: a run of digits, up to a character that is none.
* `readNumber_text`: a whole number that fits in 64 bits.
-/

namespace TreeEdits

namespace Literal

theorem hexDigit?_digitChar : ∀ d < 16, hexDigit? (Nat.digitChar d) = some d := by decide

theorem hex?_control {n : Nat} (h : n < 0x20) :
    hex? '0' '0' (Nat.digitChar (n / 16)) (Nat.digitChar (n % 16)) = some n := by
  have hzero : hexDigit? '0' = some 0 := hexDigit?_digitChar 0 (by decide)
  rw [hex?, hzero, hexDigit?_digitChar (n / 16) (by omega), hexDigit?_digitChar (n % 16) (by omega)]
  simp only [Option.some.injEq]
  omega

theorem readOnto_quote (acc s : List Char) :
    readOnto acc ('"' :: s) = .ok (String.ofList acc.reverse, s) := by
  rw [readOnto.eq_def]
  simp

theorem readOnto_letter {e x : Char} (he : e ≠ 'u') (hx : unescape e = some x) (acc s : List Char) :
    readOnto acc ('\\' :: e :: s) = readOnto (x :: acc) s := by
  rw [readOnto.eq_def]
  simp [he, hx]

theorem readOnto_plain {c : Char} (hquote : c ≠ '"') (hslash : c ≠ '\\')
    (hcontrol : ¬c.toNat < 0x20) (acc s : List Char) :
    readOnto acc (c :: s) = readOnto (c :: acc) s := by
  rw [readOnto.eq_def]
  simp [hquote, hslash, hcontrol]

/-- The escape of a character below U+0020 by its number. -/
theorem readOnto_control {c : Char} (h : c.toNat < 0x20) (acc s : List Char) :
    readOnto acc ('\\' :: 'u' :: '0' :: '0' :: Nat.digitChar (c.toNat / 16) ::
      Nat.digitChar (c.toNat % 16) :: s) = readOnto (c :: acc) s := by
  have htrailing : isTrailing c.toNat = false := by
    simp only [isTrailing, Bool.and_eq_false_iff, decide_eq_false_iff_not]
    omega
  have hleading : isLeading c.toNat = false := by
    simp only [isLeading, Bool.and_eq_false_iff, decide_eq_false_iff_not]
    omega
  rw [readOnto]
  simp [hex?_control h, htrailing, hleading]

theorem readOnto_escape (c : Char) (acc s : List Char) :
    readOnto acc (escape c ++ s) = readOnto (c :: acc) s := by
  rw [escape]
  split
  · subst c; exact readOnto_letter (by decide) rfl acc s
  split
  · subst c; exact readOnto_letter (by decide) rfl acc s
  split
  · subst c; exact readOnto_letter (by decide) rfl acc s
  split
  · subst c; exact readOnto_letter (by decide) rfl acc s
  split
  · subst c; exact readOnto_letter (by decide) rfl acc s
  split
  · subst c; exact readOnto_letter (by decide) rfl acc s
  split
  · subst c; exact readOnto_letter (by decide) rfl acc s
  rename_i hquote hslash _ _ _ _ _
  split
  next hcontrol => exact readOnto_control hcontrol acc s
  next hcontrol => exact readOnto_plain hquote hslash hcontrol acc s

theorem readOnto_escapes (cs s : List Char) : ∀ acc : List Char,
    readOnto acc (cs.flatMap escape ++ '"' :: s) = .ok (String.ofList (acc.reverse ++ cs), s) := by
  induction cs with
  | nil =>
    intro acc
    rw [List.append_nil]
    exact readOnto_quote acc s
  | cons c cs ih =>
    intro acc
    rw [List.flatMap_cons, List.append_assoc, readOnto_escape, ih]
    simp

/-- A literal after its opening quote. -/
theorem read_body (t : String) (s : List Char) :
    read (t.toList.flatMap escape ++ ['"'] ++ s) = .ok (t, s) := by
  rw [List.append_assoc, List.singleton_append, read, readOnto_escapes]
  simp

end Literal

/-! ## Whole numbers -/

/-- A text that does not go on with a number. -/
def PastNumber (s : List Char) : Prop :=
  ∀ c ∈ s.head?, c.isDigit = false ∧ c ≠ '.' ∧ c ≠ 'e' ∧ c ≠ 'E'

theorem readDigits_append {s : List Char} (hs : PastNumber s) (ds : List Char) :
    ∀ n : Nat, (∀ d ∈ ds, d.isDigit = true) → Nat.ofDigitChars 10 ds n < wordLimit →
      readDigits n (ds ++ s) = (Nat.ofDigitChars 10 ds n, 0, s) := by
  induction ds with
  | nil =>
    intro n _ _
    cases s with
    | nil => rfl
    | cons c s => simp [readDigits, (hs c rfl).1]
  | cons d ds ih =>
    intro n hds hlimit
    have hd : d.isDigit = true := hds d List.mem_cons_self
    rw [Nat.ofDigitChars_cons] at hlimit ⊢
    -- The digits that follow only make the number greater.
    have hfits : 10 * n + digitValue d < wordLimit := by
      rw [Nat.ofDigitChars_eq_ofDigitChars_zero] at hlimit
      have hpow : 0 < 10 ^ ds.length := Nat.pow_pos (by decide)
      have hle := Nat.le_mul_of_pos_left (10 * n + (d.toNat - '0'.toNat)) hpow
      rw [digitValue]
      omega
    rw [List.cons_append, readDigits, if_pos hd, if_pos hfits]
    exact ih _ (fun x hx => hds x (List.mem_cons_of_mem d hx)) hlimit

theorem readTail_past {s : List Char} (hs : PastNumber s) (n : Nat) :
    readTail true n 0 s = .ok (.int n, s) := by
  rw [readTail]
  · rfl
  · rintro s' rfl; exact (hs '.' rfl).2.1 rfl
  · rintro s' rfl; exact (hs 'e' rfl).2.2.1 rfl
  · rintro s' rfl; exact (hs 'E' rfl).2.2.2 rfl

/-- No zero is written in front of another digit. -/
theorem head?_toDigits_ne {n : Nat} (hn : 0 < n) : (Nat.toDigits 10 n).head? ≠ some '0' := by
  induction n using Nat.strongRecOn with
  | ind n ih =>
    by_cases hlt : n < 10
    · rw [Nat.toDigits_of_lt_base hlt]
      simp only [List.head?_cons, ne_eq, Option.some.injEq, Nat.digitChar_eq_zero]
      omega
    · have hfirst := ih (n / 10) (by omega) (by omega)
      rw [Nat.toDigits_of_base_le (by decide) (by omega)]
      cases hds : Nat.toDigits 10 (n / 10) with
      | nil => exact absurd hds Nat.toDigits_ne_nil
      | cons d ds => rwa [hds] at hfirst

/-- A whole number that fits in 64 bits begins with a digit and is read exactly. -/
theorem readNumber_text {n : Nat} (hn : n < wordLimit) {s : List Char} (hs : PastNumber s) :
    ∃ c ds, (Number.int n).text ++ s = c :: ds ∧ c.isDigit = true ∧
      readNumber true (c :: ds) = .ok (.int n, s) := by
  have htext : (Number.int n).text = Nat.toDigits 10 n := by simp [Number.text, Number.ofInt]
  rw [htext]
  rcases Nat.eq_zero_or_pos n with rfl | hpos
  · refine ⟨'0', s, rfl, rfl, ?_⟩
    cases s with
    | nil => rfl
    | cons c s =>
      rw [readNumber, if_neg (by simp [(hs c rfl).1])]
      exact readTail_past hs 0
  · have hdigits : ∀ d ∈ Nat.toDigits 10 n, d.isDigit = true := fun d hd =>
      Nat.isDigit_of_mem_toDigits (by decide) (by decide) hd
    have hhead := head?_toDigits_ne hpos
    have hvalue := Nat.ofDigitChars_ten_toDigits (n := n)
    cases hds : Nat.toDigits 10 n with
    | nil => exact absurd hds Nat.toDigits_ne_nil
    | cons d ds =>
      rw [hds] at hdigits hhead hvalue
      have hd := hdigits d List.mem_cons_self
      have hzero : d ≠ '0' := by simpa using hhead
      rw [Nat.ofDigitChars_cons, Nat.mul_zero, Nat.zero_add] at hvalue
      have hread := readDigits_append hs ds (digitValue d)
        (fun x hx => hdigits x (List.mem_cons_of_mem d hx)) (by rw [digitValue, hvalue]; exact hn)
      refine ⟨d, ds ++ s, rfl, hd, ?_⟩
      rw [readNumber, if_pos hd, hread, digitValue, hvalue]
      · exact readTail_past hs n
      · rintro rfl; exact absurd rfl hzero
      · rintro c s' rfl; exact absurd rfl hzero

end TreeEdits
