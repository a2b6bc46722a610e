import TreeEdits.Proofs.Json.Tokens

/-!
# TreeEdits.Proofs.Json.Stripped

The whitespace of a JSON text that stands outside its string literals. Without it, all layouts of a
value are the same text, which is that of the compact layout.

* `Standing`, `strip`: a text is gone through with an eye on its quotes, and loses its whitespace
  where no literal is open. Nothing is known there of tokens.
* `Whitespace`: what may count as whitespace. `isBlank` and `isWhite` do.
* `Firm`: tokens that lose nothing. Those of a value are (`firm_of_mem_tokens`).
* `Spaced.strip`, `Json.write_compact`: a spaced text is stripped to its tokens, and the compact one
  is made of them.
-/

namespace TreeEdits

/-- Where a character stands: outside the literals, inside one, or inside one behind a backslash. -/
inductive Standing where
  | outside
  | inside
  | escaped
deriving DecidableEq

/-- Where the character after `c` stands. -/
def Standing.after : Standing → Char → Standing
  | outside, c => if c = '"' then inside else outside
  | inside, c => if c = '"' then outside else if c = '\\' then escaped else inside
  | escaped, _ => inside

/-- The text without the whitespace that stands outside its literals. -/
def strip (white : Char → Bool) : Standing → List Char → List Char
  | _, [] => []
  | st, c :: s =>
    if st = .outside ∧ white c = true then strip white st s else c :: strip white (st.after c) s

/-- Characters in print, the quote apart. -/
def Visible (c : Char) : Prop := 0x20 < c.toNat ∧ c.toNat < 0x7f ∧ c ≠ '"'

instance : DecidablePred Visible := fun _ => inferInstanceAs (Decidable (_ ∧ _ ∧ _))

/-- Blanks count as whitespace, and nothing in print does. -/
structure Whitespace (white : Char → Bool) : Prop where
  blank : ∀ c, isBlank c = true → white c = true
  print : ∀ c : Char, 0x20 < c.toNat → c.toNat < 0x7f → white c = false

/-- The characters with the Unicode property `White_Space`. -/
def isWhite (c : Char) : Bool :=
  let n := c.toNat
  (0x9 ≤ n && n ≤ 0xd) || n == 0x20 || n == 0x85 || n == 0xa0 || n == 0x1680 ||
    (0x2000 ≤ n && n ≤ 0x200a) || n == 0x2028 || n == 0x2029 || n == 0x202f || n == 0x205f ||
    n == 0x3000

theorem whitespace_isBlank : Whitespace isBlank where
  blank _ h := h
  print c hlow _ := by
    cases h : isBlank c with
    | false => rfl
    | true =>
      rcases exists_of_isBlank h with rfl | rfl | rfl | rfl <;> exact absurd hlow (by decide)

theorem whitespace_isWhite : Whitespace isWhite where
  blank c h := by rcases exists_of_isBlank h with rfl | rfl | rfl | rfl <;> rfl
  print c hlow hhigh := by
    simp only [isWhite, Bool.or_eq_false_iff, Bool.and_eq_false_iff, decide_eq_false_iff_not,
      beq_eq_false_iff_ne]
    omega

variable {white : Char → Bool}

/-! ## Blanks and literals -/

theorem strip_blank (hwhite : Whitespace white) {w : List Char} (hw : Blank w) (s : List Char) :
    strip white .outside (w ++ s) = strip white .outside s := by
  induction w with
  | nil => rfl
  | cons c w ih =>
    have hc : white c = true := hwhite.blank c (hw c List.mem_cons_self)
    rw [List.cons_append, strip, if_pos ⟨rfl, hc⟩]
    exact ih fun x hx => hw x (List.mem_cons_of_mem c hx)

theorem strip_visible (hwhite : Whitespace white) {t : List Char} (ht : ∀ c ∈ t, Visible c)
    (s : List Char) : strip white .outside (t ++ s) = t ++ strip white .outside s := by
  induction t with
  | nil => rfl
  | cons c t ih =>
    obtain ⟨⟨hlow, hhigh, hquote⟩, ht⟩ := List.forall_mem_cons.1 ht
    have hc : ¬(Standing.outside = .outside ∧ white c = true) := by
      rintro ⟨-, hc⟩
      rw [hwhite.print c hlow hhigh] at hc
      cases hc
    rw [List.cons_append, strip, if_neg hc, Standing.after, if_neg hquote, ih ht, List.cons_append]

/-- Where a literal is open nothing is lost. -/
theorem strip_open {st : Standing} (hst : st ≠ .outside) (c : Char) (s : List Char) :
    strip white st (c :: s) = c :: strip white (st.after c) s := by
  rw [strip, if_neg fun h => hst h.1]

theorem strip_letter (c : Char) (s : List Char) :
    strip white .inside ('\\' :: c :: s) = '\\' :: c :: strip white .inside s := by
  rw [strip_open (by decide), Standing.after, if_neg (by decide), if_pos rfl,
    strip_open (by decide), Standing.after]

theorem strip_inside {c : Char} (hquote : c ≠ '"') (hslash : c ≠ '\\') (s : List Char) :
    strip white .inside (c :: s) = c :: strip white .inside s := by
  rw [strip_open (by decide), Standing.after, if_neg hquote, if_neg hslash]

/-- An escaped character is a backslash with a letter, or with the number of the character, or it is
the character itself. -/
inductive Literal.Escaped (c : Char) : List Char → Prop
  | letter {e : Char} : 0x20 ≤ e.toNat → Escaped c ['\\', e]
  | number {d e : Char} : Visible d ∧ d ≠ '\\' → Visible e ∧ e ≠ '\\' →
    Escaped c ['\\', 'u', '0', '0', d, e]
  | plain : c ≠ '"' → c ≠ '\\' → 0x20 ≤ c.toNat → Escaped c [c]

theorem Literal.escaped (c : Char) : Escaped c (escape c) := by
  have hdigit : ∀ d < 16, Visible (Nat.digitChar d) ∧ Nat.digitChar d ≠ '\\' := by decide
  rw [escape]
  -- Seven characters have a letter; what is no longer a quote or a backslash then may stand as it is.
  split
  · exact .letter (by decide)
  split
  · exact .letter (by decide)
  split
  · exact .letter (by decide)
  split
  · exact .letter (by decide)
  split
  · exact .letter (by decide)
  split
  · exact .letter (by decide)
  split
  · exact .letter (by decide)
  rename_i hquote hslash _ _ _ _ _
  split
  · exact .number (hdigit _ (by omega)) (hdigit _ (by omega))
  · exact .plain hquote hslash (by omega)

theorem strip_escaped {c : Char} {es : List Char} (h : Literal.Escaped c es) (s : List Char) :
    strip white .inside (es ++ s) = es ++ strip white .inside s := by
  cases h with
  | letter _ => exact strip_letter _ s
  | number hd he =>
    simp only [List.cons_append, List.nil_append]
    rw [strip_letter, strip_inside (by decide) (by decide), strip_inside (by decide) (by decide),
      strip_inside hd.1.2.2 hd.2, strip_inside he.1.2.2 he.2]
  | plain hquote hslash _ => exact strip_inside hquote hslash s

theorem low_le_of_escaped {c : Char} {es : List Char} (h : Literal.Escaped c es) :
    ∀ x ∈ es, 0x20 ≤ x.toNat := by
  cases h with
  | letter he => simpa using he
  | number hd he =>
    have hd' := hd.1.1
    have he' := he.1.1
    simp only [List.forall_mem_cons]
    exact ⟨by decide, by decide, by decide, by decide, by omega, by omega, fun _ hx => nomatch hx⟩
  | plain _ _ hlow => simpa using hlow

theorem strip_body (cs s : List Char) :
    strip white .inside (cs.flatMap Literal.escape ++ '"' :: s) =
      cs.flatMap Literal.escape ++ '"' :: strip white .outside s := by
  induction cs with
  | nil =>
    rw [List.flatMap_nil, List.nil_append, List.nil_append, strip_open (by decide), Standing.after,
      if_pos rfl]
  | cons c cs ih =>
    rw [List.flatMap_cons, List.append_assoc, strip_escaped (Literal.escaped c), ih,
      List.append_assoc]

/-- A literal is passed over as a whole. -/
theorem strip_literal (hwhite : Whitespace white) (t : String) (s : List Char) :
    strip white .outside (Literal.write t ++ s) = Literal.write t ++ strip white .outside s := by
  have hquote : ¬(Standing.outside = .outside ∧ white '"' = true) := by
    rw [hwhite.print '"' (by decide) (by decide)]
    decide
  rw [Literal.write, List.cons_append, List.append_assoc, List.singleton_append, strip,
    if_neg hquote, Standing.after, if_pos rfl, strip_body, List.cons_append, List.append_assoc,
    List.singleton_append]

theorem low_le_of_mem_literal {t : String} : ∀ x ∈ Literal.write t, 0x20 ≤ x.toNat := by
  have hquote : 0x20 ≤ '"'.toNat := by decide
  simp only [Literal.write, List.forall_mem_cons, List.forall_mem_append, List.mem_flatMap]
  refine ⟨hquote, ?_, hquote, fun _ hx => nomatch hx⟩
  rintro x ⟨c, -, hx⟩
  exact low_le_of_escaped (Literal.escaped c) x hx

/-! ## Numbers -/

theorem visible_of_isDigit {c : Char} (h : c.isDigit = true) : Visible c := by
  simp only [Char.isDigit, Bool.and_eq_true, decide_eq_true_eq, ge_iff_le] at h
  have hlow : 48 ≤ c.toNat := UInt32.le_iff_toNat_le.1 h.1
  have hhigh : c.toNat ≤ 57 := UInt32.le_iff_toNat_le.1 h.2
  refine ⟨by omega, by omega, ?_⟩
  rintro rfl
  exact absurd hlow (by decide)

theorem visible_of_mem_toDigits (n : Nat) : ∀ c ∈ Nat.toDigits 10 n, Visible c := fun c hc =>
  visible_of_isDigit (Nat.isDigit_of_mem_toDigits (by decide) (by decide) hc)

theorem Decimal.visible_of_mem_text (l : Layout) (negative : Bool) (c : Nat) (k : Int) :
    ∀ x ∈ (l.text negative c k).toList, Visible x := by
  unfold Layout.text
  extract_lets ds e zeros fraction magnitude
  have hds : ∀ x ∈ ds, Visible x := visible_of_mem_toDigits c
  have hzeros : ∀ n, ∀ x ∈ zeros n, Visible x := fun n x hx => by
    rw [(List.mem_replicate.1 hx).2]
    decide
  have htake : ∀ n, ∀ x ∈ ds.take n, Visible x := fun n x hx => hds x (List.mem_of_mem_take hx)
  have hdrop : ∀ n, ∀ x ∈ ds.drop n, Visible x := fun n x hx => hds x (List.mem_of_mem_drop hx)
  have hfraction : ∀ x ∈ fraction, Visible x := by
    have hrest := hdrop 1
    dsimp only [fraction]
    cases hr : ds.drop 1 with
    | nil => exact fun _ hx => nomatch hx
    | cons d rest => exact List.forall_mem_cons.2 ⟨by decide, hr ▸ hrest⟩
  have hsign : Visible (if e < 0 then '-' else '+') := by split <;> decide
  have hmagnitude : ∀ x ∈ magnitude, Visible x := by
    dsimp only [magnitude]
    split
    · split
      · refine List.forall_mem_cons.2 ⟨by decide, List.forall_mem_cons.2 ⟨by decide, ?_⟩⟩
        exact List.forall_mem_append.2 ⟨hzeros _, hds⟩
      split
      · refine List.forall_mem_append.2 ⟨List.forall_mem_append.2 ⟨hds, hzeros k⟩, ?_⟩
        exact List.forall_mem_cons.2 ⟨by decide, List.forall_mem_singleton.2 (by decide)⟩
      · exact List.forall_mem_append.2 ⟨htake _, List.forall_mem_cons.2 ⟨by decide, hdrop _⟩⟩
    · refine List.forall_mem_append.2 ⟨List.forall_mem_append.2 ⟨htake 1, hfraction⟩, ?_⟩
      refine List.forall_mem_cons.2 ⟨by decide, List.forall_mem_cons.2 ⟨hsign, ?_⟩⟩
      exact visible_of_mem_toDigits _
  rw [String.toList_ofList]
  cases negative with
  | true => exact List.forall_mem_cons.2 ⟨by decide, hmagnitude⟩
  | false => exact hmagnitude

theorem visible_of_mem_text : ∀ n : Number, ∀ c ∈ n.text, Visible c
  | .int n => by
    rw [Number.text, Number.ofInt]
    split
    · exact List.forall_mem_cons.2 ⟨by decide, visible_of_mem_toDigits _⟩
    · exact visible_of_mem_toDigits _
  | .float _ => Decimal.visible_of_mem_text _ _ _ _

/-! ## Tokens -/

/-- Tokens that a text cannot lose a part of. -/
inductive Firm : Token → Prop
  | literal (t : String) : Firm (Literal.write t)
  | visible {t : Token} : (∀ c ∈ t, Visible c) → Firm t

/-- A test for signs and words. -/
theorem Firm.of_all {t : Token} (h : t.all (fun c => decide (Visible c)) = true) : Firm t :=
  .visible fun c hc => of_decide_eq_true (List.all_eq_true.1 h c hc)

theorem Firm.strip (hwhite : Whitespace white) {t : Token} (ht : Firm t) (s : List Char) :
    strip white .outside (t ++ s) = t ++ TreeEdits.strip white .outside s := by
  cases ht with
  | literal t => exact strip_literal hwhite t s
  | visible ht => exact strip_visible hwhite ht s

theorem Firm.low_le {t : Token} (ht : Firm t) : ∀ c ∈ t, 0x20 ≤ c.toNat := by
  cases ht with
  | literal t => exact low_le_of_mem_literal
  | visible ht => exact fun c hc => Nat.le_of_lt (ht c hc).1

/-- A spaced text is stripped to its tokens. -/
theorem Spaced.strip (hwhite : Whitespace white) {ts : List Token} {s : List Char} (h : Spaced ts s)
    (hts : ∀ t ∈ ts, Firm t) : strip white .outside s = ts.flatten := by
  induction h with
  | @nil w hw =>
    rw [← List.append_nil w, strip_blank hwhite hw]
    rfl
  | @cons w t ts s hw _ ih =>
    obtain ⟨ht, hts⟩ := List.forall_mem_cons.1 hts
    -- Past the token no literal is open again, so the rest is stripped from the same standing.
    rw [strip_blank hwhite hw, ht.strip hwhite, ih hts, List.flatten_cons]

@[simp]
theorem Spacing.compact_line (depth : Nat) : compact.line depth = [] := rfl

@[simp]
theorem Spacing.compact_gap : compact.gap = [] := rfl

namespace Json

theorem firm_comma (first : Bool) : ∀ t ∈ comma first, Firm t := by
  cases first with
  | true => exact fun _ ht => nomatch ht
  | false => exact List.forall_mem_singleton.2 (.of_all rfl)

mutual

theorem firm_of_mem_tokens : ∀ v : Json, ∀ t ∈ v.tokens, Firm t
  | null => List.forall_mem_singleton.2 (.of_all rfl)
  | bool true => List.forall_mem_singleton.2 (.of_all rfl)
  | bool false => List.forall_mem_singleton.2 (.of_all rfl)
  | number n => List.forall_mem_singleton.2 (.visible (visible_of_mem_text n))
  | str s => List.forall_mem_singleton.2 (.literal s)
  | arr vs => by
    rw [tokens, List.forall_mem_cons, List.forall_mem_append, List.forall_mem_singleton]
    exact ⟨.of_all rfl, firm_of_mem_tokensItems true vs, .of_all rfl⟩
  | obj ms => by
    rw [tokens, List.forall_mem_cons, List.forall_mem_append, List.forall_mem_singleton]
    exact ⟨.of_all rfl, firm_of_mem_tokensMembers true ms, .of_all rfl⟩

theorem firm_of_mem_tokensItems (first : Bool) :
    ∀ vs : List Json, ∀ t ∈ tokensItems first vs, Firm t
  | [] => fun _ ht => nomatch ht
  | v :: vs => by
    rw [tokensItems, List.forall_mem_append, List.forall_mem_append]
    exact ⟨firm_comma first, firm_of_mem_tokens v, firm_of_mem_tokensItems false vs⟩

theorem firm_of_mem_tokensMembers (first : Bool) :
    ∀ ms : List (String × Json), ∀ t ∈ tokensMembers first ms, Firm t
  | [] => fun _ ht => nomatch ht
  | (k, v) :: ms => by
    rw [tokensMembers, List.forall_mem_append, List.forall_mem_cons, List.forall_mem_cons,
      List.forall_mem_append]
    exact ⟨firm_comma first, .literal k, .of_all rfl, firm_of_mem_tokens v,
      firm_of_mem_tokensMembers false ms⟩

end

mutual

/-- The compact layout has nothing between the tokens. -/
theorem write_compact (depth : Nat) : ∀ v : Json, v.write .compact depth = v.tokens.flatten
  | null => rfl
  | bool true => rfl
  | bool false => rfl
  | number n => (List.append_nil n.text).symm
  | str s => (List.append_nil (Literal.write s)).symm
  | arr [] => rfl
  | arr (v :: vs) => by
    have hv := write_compact (depth + 1) v
    have hvs := writeItems_compact (depth + 1) vs
    simp [write, tokens, tokensItems, comma, hv, hvs]
  | obj [] => rfl
  | obj ((k, v) :: ms) => by
    have hv := write_compact (depth + 1) v
    have hms := writeMembers_compact (depth + 1) ms
    simp [write, tokens, tokensMembers, comma, hv, hms]

theorem writeItems_compact (depth : Nat) :
    ∀ vs : List Json, writeItems .compact depth vs = (tokensItems false vs).flatten
  | [] => rfl
  | v :: vs => by
    have hv := write_compact depth v
    have hvs := writeItems_compact depth vs
    simp [writeItems, tokensItems, comma, hv, hvs]

theorem writeMembers_compact (depth : Nat) :
    ∀ ms : List (String × Json), writeMembers .compact depth ms = (tokensMembers false ms).flatten
  | [] => rfl
  | (k, v) :: ms => by
    have hv := write_compact depth v
    have hms := writeMembers_compact depth ms
    simp [writeMembers, tokensMembers, comma, hv, hms]

end

end Json
end TreeEdits
