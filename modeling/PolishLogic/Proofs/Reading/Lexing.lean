import PolishLogic.Reading.Scan

/-! # Lexing as splitting

Every symbol is written with one character, and no two with the same one
(`Symbol.ofChar?_eq_some`). A text is the spelling of a word, which is numbered token by token,
up to the first character outside the alphabet (`Lexing.ofChars_append`), and only a text
without such a character comes to be scanned (`Formula.ofText?_cases`). -/

namespace PolishLogic

namespace Symbol

@[simp] theorem ofChar?_char (s : Symbol Letter) : ofChar? s.char = some s := by
  cases s with
  | const b => cases b <;> rfl
  | leaf l =>
    have hne : ∀ c : Char, c.toNat < 65 → l.char ≠ c := by
      rintro c hc rfl
      rw [Letter.toNat_char] at hc
      omega
    rw [char, ofChar?, if_neg (hne '0' (by decide)), if_neg (hne '1' (by decide)),
      Letter.ofChar?_char]
  | op c => cases c <;> rfl

/-- A symbol is read from the one character it is written as. -/
theorem ofChar?_eq_some {c : Char} {s : Symbol Letter} : ofChar? c = some s ↔ c = s.char := by
  refine ⟨fun h => ?_, fun h => h ▸ ofChar?_char s⟩
  unfold ofChar? at h
  split at h
  · next hc => cases h; exact hc
  split at h
  · next hc => cases h; exact hc
  split at h
  · next hl => cases h; exact Letter.ofChar?_eq_some.mp hl
  · obtain ⟨op, hop, rfl⟩ := Option.map_eq_some_iff.mp h
    exact Connective.ofSymbol?_eq_some.mp hop

theorem char_injective {s t : Symbol Letter} (h : s.char = t.char) : s = t := by
  have hs := ofChar?_char s
  rw [h, ofChar?_char] at hs
  exact (Option.some.inj hs).symm

theorem chars_eq (s : Symbol Letter) : s.chars = [s.char] := by
  cases s with
  | const b => cases b <;> rfl
  | leaf l =>
    show (String.singleton l.char).toList = [l.char]
    exact String.toList_singleton _
  | op c => rfl

/-- Every symbol is written as one character. -/
theorem toList_spell (w : List (Symbol Letter)) : (spell w).toList = w.map char := by
  rw [spell, String.toList_ofList, List.map_eq_flatMap]
  exact congrArg (w.flatMap ·) (funext chars_eq)

theorem spell_ne_empty {w : List (Symbol Letter)} (hw : w ≠ []) : spell w ≠ "" := by
  intro he
  rw [← String.toList_eq_nil_iff, toList_spell, List.map_eq_nil_iff] at he
  exact hw he

end Symbol

/-- The tokens of a word the first symbol of which has the given position. -/
def Token.number (line : Int) : Nat → List (Symbol Letter) → List Token
  | _, [] => []
  | i, s :: w => ⟨s, i, line⟩ :: number line (i + 1) w

namespace Token

theorem map_symbol_number (line : Int) (i : Nat) (w : List (Symbol Letter)) :
    (number line i w).map Token.symbol = w := by
  induction w generalizing i with
  | nil => rfl
  | cons s w ih => exact congrArg (s :: ·) (ih (i + 1))

end Token

namespace Lexing

variable {line : Int}

/-- Symbols are lexed one by one up to the first character that is none. -/
theorem ofChars_append {i : Nat} (w : List (Symbol Letter)) {rest : List Char}
    (hrest : ∀ c ∈ rest.head?, Symbol.ofChar? c = none) :
    ofChars line i (w.map Symbol.char ++ rest) =
      ⟨Token.number line i w, i + w.length, rest.head?⟩ := by
  induction w generalizing i with
  | nil =>
    cases rest with
    | nil => rfl
    | cons c rest =>
      have hc := hrest c rfl
      simp only [List.map_nil, List.nil_append, ofChars, hc]
      rfl
  | cons s w ih =>
    simp only [List.map_cons, List.cons_append, ofChars, Symbol.ofChar?_char, ih, Token.number,
      List.length_cons, Nat.add_assoc, Nat.add_comm 1]

/-- Every text begins with a longest part that consists of symbols. -/
theorem exists_spelling (cs : List Char) :
    ∃ (w : List (Symbol Letter)) (rest : List Char), cs = w.map Symbol.char ++ rest ∧
      ∀ c ∈ rest.head?, Symbol.ofChar? c = none := by
  induction cs with
  | nil => exact ⟨[], [], rfl, nofun⟩
  | cons c cs ih =>
    cases hc : Symbol.ofChar? c with
    | none =>
      refine ⟨[], c :: cs, rfl, ?_⟩
      rintro d hd
      cases hd
      exact hc
    | some s =>
      obtain ⟨w, rest, rfl, hrest⟩ := ih
      refine ⟨s :: w, rest, ?_, hrest⟩
      rw [Symbol.ofChar?_eq_some.mp hc]
      rfl

theorem ofText_of_spelling (line : Int) {text : String} {w : List (Symbol Letter)}
    {rest : List Char} (h : text.toList = w.map Symbol.char ++ rest)
    (hrest : ∀ c ∈ rest.head?, Symbol.ofChar? c = none) :
    ofText text line 0 = ⟨Token.number line 0 w, w.length, rest.head?⟩ := by
  rw [ofText, List.drop_zero, h, ofChars_append w hrest, Nat.zero_add]

end Lexing

namespace Formula

/-- A text that is not empty is lexed as a whole before it is scanned. -/
theorem ofText?_of_ne_empty {text : String} (h : text ≠ "") :
    ofText? text = (do
      let tokens ← (Lexing.ofText text 1 0).toExcept
      let stack ← OperandStack.scan [] tokens
      stack.single) := by
  unfold ofText?
  rw [String.isEmpty_eq_false_iff.mpr h]
  rfl

/-- A text of symbols is never refused by the lexer. -/
theorem ofText?_spell {w : List (Symbol Letter)} (hw : w ≠ []) :
    ofText? (Symbol.spell w) =
      OperandStack.scan [] (Token.number 1 0 w) >>= OperandStack.single := by
  have hsplit : (Symbol.spell w).toList = w.map Symbol.char ++ [] := by
    rw [Symbol.toList_spell, List.append_nil]
  rw [ofText?_of_ne_empty (Symbol.spell_ne_empty hw), Lexing.ofText_of_spelling 1 hsplit nofun]
  rfl

/-- A text is empty, has a first character outside the alphabet, or spells a word. -/
theorem ofText?_cases (text : String) :
    text = "" ∨ text ≠ "" ∧
      ((∃ (w : List (Symbol Letter)) (c : Char) (rest : List Char),
        text.toList = w.map Symbol.char ++ c :: rest ∧ Symbol.ofChar? c = none ∧
          ofText? text = .error (.invalidToken c w.length)) ∨
      (∃ w : List (Symbol Letter), w ≠ [] ∧ Symbol.spell w = text ∧
        ofText? text = OperandStack.scan [] (Token.number 1 0 w) >>= OperandStack.single)) := by
  by_cases hne : text = ""
  · exact .inl hne
  refine .inr ⟨hne, ?_⟩
  obtain ⟨w, rest, hsplit, hrest⟩ := Lexing.exists_spelling text.toList
  cases rest with
  | cons c rest =>
    refine .inl ⟨w, c, rest, hsplit, hrest c rfl, ?_⟩
    rw [ofText?_of_ne_empty hne, Lexing.ofText_of_spelling 1 hsplit hrest]
    rfl
  | nil =>
    rw [List.append_nil, ← Symbol.toList_spell, String.toList_inj] at hsplit
    subst hsplit
    have hw : w ≠ [] := by
      rintro rfl
      exact hne rfl
    exact .inr ⟨w, hw, rfl, ofText?_spell hw⟩

end Formula
end PolishLogic
