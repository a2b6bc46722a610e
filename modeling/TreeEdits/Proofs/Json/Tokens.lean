import TreeEdits.Json.Scan
import TreeEdits.Json.Write

/-!
# TreeEdits.Proofs.Json.Tokens

The tokens of a JSON value, and the texts that spell them out. Two texts of one value differ only in
the blanks around its tokens, so what is proved of reading spaced tokens holds of every layout.

* `Json.tokens`: the tokens of a value, in order.
* `Spaced`: a text made of tokens, with any blanks around each of them.
* `Spaced.opens`: past the blanks, a text begins with its first token.
* `Json.LaidOut`: a text that is a value in some layout.
* `laidOut_compact`, `laidOut_pretty`: the two layouts in use.
-/

namespace TreeEdits

abbrev Token := List Char

def Blank (w : List Char) : Prop := ∀ c ∈ w, isBlank c = true

instance (w : List Char) : Decidable (Blank w) :=
  inferInstanceAs (Decidable (∀ c ∈ w, isBlank c = true))

/-- The text is made of the tokens in order, with blanks anywhere around them. -/
inductive Spaced : List Token → List Char → Prop
  | nil {w : List Char} (hw : Blank w) : Spaced [] w
  | cons {w t : List Char} {ts : List Token} {s : List Char} (hw : Blank w) (h : Spaced ts s) :
    Spaced (t :: ts) (w ++ (t ++ s))

/-- A test for spaced tokens. -/
def spells : List Token → List Char → Bool
  | [], s => (skipBlank s).isEmpty
  | t :: ts, s => t.isPrefixOf (skipBlank s) && spells ts ((skipBlank s).drop t.length)

namespace Json

/-- The comma in front of an item or a member that is not the first. -/
def comma (first : Bool) : List Token := if first then [] else [[',']]

mutual

def tokens : Json → List Token
  | null => [['n', 'u', 'l', 'l']]
  | bool true => [['t', 'r', 'u', 'e']]
  | bool false => [['f', 'a', 'l', 's', 'e']]
  | number n => [n.text]
  | str s => [Literal.write s]
  | arr vs => ['['] :: (tokensItems true vs ++ [[']']])
  | obj ms => ['\x7b'] :: (tokensMembers true ms ++ [['\x7d']])

def tokensItems (first : Bool) : List Json → List Token
  | [] => []
  | v :: vs => comma first ++ (tokens v ++ tokensItems false vs)

def tokensMembers (first : Bool) : List (String × Json) → List Token
  | [] => []
  | (k, v) :: ms => comma first ++ Literal.write k :: [':'] :: (tokens v ++ tokensMembers false ms)

end

end Json

theorem exists_of_isBlank {c : Char} (h : isBlank c = true) :
    c = ' ' ∨ c = '\t' ∨ c = '\n' ∨ c = '\r' := by
  simpa [isBlank, or_assoc] using h

theorem blank_nil : Blank [] := fun _ h => absurd h List.not_mem_nil

theorem Blank.append {w x : List Char} (hw : Blank w) (hx : Blank x) : Blank (w ++ x) := by
  intro c hc
  rcases List.mem_append.1 hc with hc | hc
  · exact hw c hc
  · exact hx c hc

theorem skipBlank_append {w : List Char} (hw : Blank w) (s : List Char) :
    skipBlank (w ++ s) = skipBlank s := by
  induction w with
  | nil => rfl
  | cons c w ih =>
    rw [List.cons_append, skipBlank, if_pos (hw c List.mem_cons_self)]
    exact ih fun x hx => hw x (List.mem_cons_of_mem c hx)

theorem skipBlank_cons {c : Char} (hc : isBlank c = false) (s : List Char) :
    skipBlank (c :: s) = c :: s := by
  simp [skipBlank, hc]

theorem skipBlank_eq_nil {w : List Char} (hw : Blank w) : skipBlank w = [] := by
  rw [← List.append_nil w, skipBlank_append hw]
  rfl

theorem exists_blank_append (s : List Char) : ∃ w, Blank w ∧ w ++ skipBlank s = s := by
  induction s with
  | nil => exact ⟨[], blank_nil, rfl⟩
  | cons c s ih =>
    rw [skipBlank]
    split
    next hc =>
      obtain ⟨w, hw, hs⟩ := ih
      refine ⟨c :: w, ?_, by rw [List.cons_append, hs]⟩
      intro x hx
      rcases List.mem_cons.1 hx with rfl | hx
      · exact hc
      · exact hw x hx
    next => exact ⟨[], blank_nil, rfl⟩

namespace Spaced

variable {w t s : List Char} {ts : List Token}

theorem blank (hw : Blank w) (h : Spaced ts s) : Spaced ts (w ++ s) := by
  cases h with
  | nil hx => exact .nil (hw.append hx)
  | @cons x t ts s hx h =>
    rw [← List.append_assoc]
    exact .cons (hw.append hx) h

theorem append_blank (h : Spaced ts s) (hw : Blank w) : Spaced ts (s ++ w) := by
  induction h with
  | nil hx => exact .nil (hx.append hw)
  | cons hx _ ih =>
    rw [List.append_assoc, List.append_assoc]
    exact .cons hx ih

theorem of_spells : ∀ {ts : List Token} {s : List Char}, spells ts s = true → Spaced ts s
  | [], s, h => by
    obtain ⟨w, hw, hs⟩ := exists_blank_append s
    rw [← hs, List.isEmpty_iff.1 h, List.append_nil]
    exact .nil hw
  | t :: ts, s, h => by
    rw [spells, Bool.and_eq_true] at h
    obtain ⟨w, hw, hs⟩ := exists_blank_append s
    rw [← hs, ← List.prefix_iff_eq_append.1 (List.isPrefixOf_iff_prefix.1 h.1)]
    exact .cons hw (of_spells h.2)

theorem token (h : Spaced ts s) : Spaced (t :: ts) (t ++ s) := .cons blank_nil h

theorem sign (c : Char) (h : Spaced ts s) : Spaced ([c] :: ts) (c :: s) := h.token

/-- Past the blanks a text begins with its first token. -/
theorem opens {c : Char} (hc : isBlank c = false) (h : Spaced ((c :: t) :: ts) s) :
    ∃ s', skipBlank s = c :: (t ++ s') ∧ Spaced ts s' := by
  cases h with
  | @cons w _ _ s' hw h =>
    refine ⟨s', ?_, h⟩
    rw [skipBlank_append hw]
    exact skipBlank_cons hc (t ++ s')

theorem opensSign {c : Char} (hc : isBlank c = false) (h : Spaced ([c] :: ts) s) :
    ∃ s', skipBlank s = c :: s' ∧ Spaced ts s' := h.opens hc

/-- A text is at least as long as some tokens of it. -/
theorem length_le {us : List Token} : ∀ {ts : List Token} {s : List Char}, Spaced (ts ++ us) s →
    ts.flatten.length ≤ s.length := by
  intro ts
  induction ts with
  | nil => exact fun _ => Nat.zero_le _
  | cons t ts ih =>
    intro s h
    cases h with
    | cons hw h =>
      have hts := ih h
      simp only [List.flatten_cons, List.length_append]
      omega

end Spaced

/-- A layout in which nothing but blanks is added. -/
structure Spacing.Plain (sp : Spacing) : Prop where
  line : ∀ depth, Blank (sp.line depth)
  gap : Blank sp.gap

theorem Spacing.plain_compact : Spacing.compact.Plain := ⟨fun _ => blank_nil, blank_nil⟩

theorem Spacing.plain_pretty : Spacing.pretty.Plain where
  line depth := by
    intro c hc
    rcases List.mem_cons.1 hc with rfl | hc
    · rfl
    · rw [(List.mem_replicate.1 hc).2]
      rfl
  gap := by
    intro c hc
    rw [List.mem_singleton.1 hc]
    rfl

namespace Json

variable {sp : Spacing}

mutual

theorem spaced_write (hsp : sp.Plain) (depth : Nat) :
    ∀ (v : Json) {ts : List Token} {s : List Char},
    Spaced ts s → Spaced (v.tokens ++ ts) (v.write sp depth ++ s)
  | null, _, _, h => h.token
  | bool true, _, _, h => h.token
  | bool false, _, _, h => h.token
  | number _, _, _, h => h.token
  | str _, _, _, h => h.token
  | arr [], _, _, h => (h.sign ']').sign '['
  | arr (v :: vs), ts, s, h => by
    have hend := (h.sign ']').blank (hsp.line depth)
    have hitems := spaced_writeItems hsp (depth + 1) vs hend
    have hall := (spaced_write hsp (depth + 1) v hitems).blank (hsp.line (depth + 1))
    simpa [tokens, tokensItems, comma, write] using hall.sign '['
  | obj [], _, _, h => (h.sign '\x7d').sign '\x7b'
  | obj ((k, v) :: ms), ts, s, h => by
    have hend := (h.sign '\x7d').blank (hsp.line depth)
    have hmembers := spaced_writeMembers hsp (depth + 1) ms hend
    have hvalue := (spaced_write hsp (depth + 1) v hmembers).blank hsp.gap
    have hkey := ((hvalue.sign ':').token (t := Literal.write k)).blank (hsp.line (depth + 1))
    simpa [tokens, tokensMembers, comma, write] using hkey.sign '\x7b'

theorem spaced_writeItems (hsp : sp.Plain) (depth : Nat) :
    ∀ (vs : List Json) {ts : List Token} {s : List Char},
      Spaced ts s → Spaced (tokensItems false vs ++ ts) (writeItems sp depth vs ++ s)
  | [], _, _, h => h
  | v :: vs, ts, s, h => by
    have hitems := spaced_writeItems hsp depth vs h
    have hall := (spaced_write hsp depth v hitems).blank (hsp.line depth)
    simpa [tokensItems, comma, writeItems] using hall.sign ','

theorem spaced_writeMembers (hsp : sp.Plain) (depth : Nat) :
    ∀ (ms : List (String × Json)) {ts : List Token} {s : List Char},
      Spaced ts s → Spaced (tokensMembers false ms ++ ts) (writeMembers sp depth ms ++ s)
  | [], _, _, h => h
  | (k, v) :: ms, ts, s, h => by
    have hmembers := spaced_writeMembers hsp depth ms h
    have hvalue := (spaced_write hsp depth v hmembers).blank hsp.gap
    have hkey := ((hvalue.sign ':').token (t := Literal.write k)).blank (hsp.line depth)
    simpa [tokensMembers, comma, writeMembers] using hkey.sign ','

end

/-- The text is the value with any blanks around its tokens. -/
def LaidOut (v : Json) (text : String) : Prop := Spaced v.tokens text.toList

theorem laidOut_compact (v : Json) : v.LaidOut v.compact := by
  have h := spaced_write Spacing.plain_compact 0 v (.nil blank_nil)
  simpa [LaidOut, compact] using h

theorem laidOut_pretty (v : Json) : v.LaidOut v.pretty := by
  have h := spaced_write Spacing.plain_pretty 0 v (.nil blank_nil)
  simpa [LaidOut, pretty] using h

/-- With one more member in front, the rest of a compact object stays as it is. -/
theorem compact_cons (key : String) (v : Json) (m : String × Json) (ms : List (String × Json)) :
    ∃ rest, (obj (m :: ms)).compact = "\x7b" ++ rest ∧ (obj ((key, v) :: m :: ms)).compact =
      "\x7b" ++ String.ofList (Literal.write key) ++ ":" ++ String.ofList (v.write .compact 1) ++ ","
        ++ rest := by
  obtain ⟨k, u⟩ := m
  refine ⟨String.ofList (Literal.write k ++ ':' :: (u.write .compact 1
    ++ (writeMembers .compact 1 ms ++ ['\x7d']))), ?_, ?_⟩
  · rw [← String.toList_inj]
    simp [compact, write, Spacing.compact]
  · rw [← String.toList_inj]
    simp [compact, write, writeMembers, Spacing.compact]

end Json
end TreeEdits
