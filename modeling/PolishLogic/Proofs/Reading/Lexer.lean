import PolishLogic.Proofs.Reading.Verdict

/-! # Lexers in use

A lexer is used for one text after another, and a loop that is not described here drives it.
`Drives` says what is relied on of the loop. It is enough for the lexer to end each text with
the tokens, at the place and with the error of `Lexing.ofText`, whatever it was used for before
(`Lexer.lexed_of_drives`). -/

namespace PolishLogic

/-- A lexer between two texts. The index is where it stands in the last one. What else the loop
keeps in it is of no concern to the lexer. -/
structure Lexer (κ : Type) where
  index : Nat
  kept : κ

/-- What comes of a text: the tokens that are handed out, the error that breaks them off, and
the lexer as it is left. -/
structure Lexed (κ : Type) where
  tokens : List Token
  error : Option ParseError
  lexer : Lexer κ

/-- A text that a lexer is given, with its line number and the offset to begin at. -/
structure LexerInput where
  text : String
  line : Int
  start : Nat

/-- A loop that drives lexers. -/
abbrev LexerLoop (κ : Type) := Lexer κ → LexerInput → Lexed κ

variable {κ : Type}

/-- The lexer after some texts. -/
def LexerLoop.after (loop : LexerLoop κ) (lexer : Lexer κ) (earlier : List LexerInput) : Lexer κ :=
  earlier.foldl (fun lexer input => (loop lexer input).lexer) lexer

/-- What a lexer does about a character that it has no pattern for: it fails with the position
it is at, having gone past it. -/
def Lexer.refuse (lexer : Lexer κ) (c : Char) : ParseError × Lexer κ :=
  (.invalidToken c lexer.index, { lexer with index := lexer.index + 1 })

/-- What is relied on of a loop. It has an offset of its own, at which it looks for a match, and
which becomes the index of the lexer when the loop is left, be it by an error. -/
structure Drives (loop : LexerLoop κ) : Prop where
  ended : ∀ (lexer : Lexer κ) (input : LexerInput), input.text.length ≤ input.start →
    (loop lexer input).tokens = [] ∧ (loop lexer input).error = none ∧
      (loop lexer input).lexer.index = input.start
  /-- The token of a match is handed out, and the loop goes on where it ends. -/
  matched : ∀ (lexer : Lexer κ) (input : LexerInput) {c : Char} {s : Symbol Letter},
    input.text.toList[input.start]? = some c → Symbol.ofChar? c = some s →
    let token : Token := ⟨s, input.start, input.line⟩
    ∃ lexer', let rest := loop lexer' { input with start := token.stop }
      (loop lexer input).tokens = token :: rest.tokens ∧
        (loop lexer input).error = rest.error ∧ (loop lexer input).lexer = rest.lexer
  /-- Where nothing matches, the lexer is asked, with the offset of the loop as its index. -/
  unmatched : ∀ (lexer : Lexer κ) (input : LexerInput) {c : Char},
    input.text.toList[input.start]? = some c → Symbol.ofChar? c = none →
    ∃ lexer' : Lexer κ, lexer'.index = input.start ∧ (loop lexer input).tokens = [] ∧
      (loop lexer input).error = some (lexer'.refuse c).1 ∧
      (loop lexer input).lexer.index = input.start

/-- There is one token for each offset from `i` to `j`, and an error if there is a character at
`j`, where the lexer is left. -/
structure LexedUpTo (text : String) (line : Int) (i j : Nat) (lexed : Lexed κ) : Prop where
  indices : lexed.tokens.map Token.index = List.range' i (j - i)
  each : ∀ t ∈ lexed.tokens, t.stop = t.index + 1 ∧ t.line = line
  spelled : Symbol.spell (lexed.tokens.map Token.symbol) =
    String.ofList ((text.toList.take j).drop i)
  error : lexed.error = text.toList[j]?.map (ParseError.invalidToken · j)
  index : lexed.lexer.index = j

/-- The offset is that of the first character outside the alphabet at or after `i`, or the end
if there is none. -/
def StopsAt (text : String) (i j : Nat) : Prop :=
  IsLeast (outside text.toList ∩ Set.Ici i) j ∨
    outside text.toList ∩ Set.Ici i = ∅ ∧ j = max i text.length

theorem mem_outside_drop {cs : List Char} {i n : Nat} :
    n ∈ outside (cs.drop i) ↔ i + n ∈ outside cs := by
  simp only [outside, Set.mem_ofPred_eq, List.getElem?_drop]

/-- A text is lexed at its first character or refused there. -/
theorem Lexing.ofText_of_getElem? {text : String} {line : Int} {i : Nat} {c : Char}
    (h : text.toList[i]? = some c) :
    ofText text line i = match Symbol.ofChar? c with
      | none => ⟨[], i, some c⟩
      | some s =>
        let rest := ofText text line (i + 1)
        { rest with tokens := ⟨s, i, line⟩ :: rest.tokens } := by
  obtain ⟨hi, rfl⟩ := List.getElem?_eq_some_iff.mp h
  rw [ofText, List.drop_eq_getElem_cons hi]
  rfl

namespace Token

theorem map_index_number (line : Int) (i : Nat) (w : List (Symbol Letter)) :
    (number line i w).map Token.index = List.range' i w.length := by
  induction w generalizing i with
  | nil => rfl
  | cons s w ih => exact congrArg (i :: ·) (ih (i + 1))

theorem line_of_mem_number {line : Int} {i : Nat} {w : List (Symbol Letter)} {t : Token}
    (h : t ∈ number line i w) : t.line = line := by
  induction w generalizing i with
  | nil => cases h
  | cons s w ih =>
    cases List.mem_cons.mp h with
    | inl heq => rw [heq]
    | inr hmem => exact ih hmem

end Token

section split

variable {text : String} {i : Nat} {w : List (Symbol Letter)} {rest : List Char}

/-- Lexing stops at the first character that is no symbol, or at the end of the text. -/
theorem stopsAt_of_drop (h : text.toList.drop i = w.map Symbol.char ++ rest)
    (hrest : ∀ c ∈ rest.head?, Symbol.ofChar? c = none) : StopsAt text i (i + w.length) := by
  cases rest with
  | cons c rest =>
    left
    have hleast := isLeast_outside w rest (hrest c rfl)
    rw [← h] at hleast
    refine ⟨⟨mem_outside_drop.mp hleast.1, Nat.le_add_right i _⟩, ?_⟩
    rintro n ⟨hn, hin⟩
    obtain ⟨k, rfl⟩ := Nat.exists_eq_add_of_le hin
    exact Nat.add_le_add_left (hleast.2 (mem_outside_drop.mpr hn)) i
  | nil =>
    right
    rw [List.append_nil] at h
    constructor
    · refine Set.eq_empty_of_forall_notMem ?_
      rintro n ⟨hn, hin⟩
      obtain ⟨k, rfl⟩ := Nat.exists_eq_add_of_le hin
      have hk : k ∈ outside (text.toList.drop i) := mem_outside_drop.mpr hn
      rw [h, outside_spelling] at hk
      exact hk
    · have hlen := congrArg List.length h
      rw [List.length_drop, List.length_map, String.length_toList] at hlen
      omega

theorem getElem?_of_drop (h : text.toList.drop i = w.map Symbol.char ++ rest) :
    text.toList[i + w.length]? = rest.head? := by
  rw [← List.getElem?_drop, h, List.getElem?_append_right (by simp), List.length_map,
    Nat.sub_self, List.head?_eq_getElem?]

theorem spell_of_drop (h : text.toList.drop i = w.map Symbol.char ++ rest) :
    Symbol.spell w = String.ofList ((text.toList.take (i + w.length)).drop i) := by
  rw [List.drop_take, Nat.add_sub_cancel_left, h, List.take_left' (by simp),
    ← Symbol.toList_spell, String.ofList_toList]

/-- The induction is on the symbols that are still to be read; each of them takes the loop one token
further, whatever state the lexer was left in. -/
theorem Drives.lexed {loop : LexerLoop κ} (hloop : Drives loop) (line : Int)
    (h : text.toList.drop i = w.map Symbol.char ++ rest)
    (hrest : ∀ c ∈ rest.head?, Symbol.ofChar? c = none) (lexer : Lexer κ) :
    (loop lexer ⟨text, line, i⟩).tokens = Token.number line i w ∧
      (loop lexer ⟨text, line, i⟩).error =
        rest.head?.map (ParseError.invalidToken · (i + w.length)) ∧
      (loop lexer ⟨text, line, i⟩).lexer.index = i + w.length := by
  -- On the symbols that are left. Each step may hand on another lexer, so it is not fixed.
  induction w generalizing i lexer with
  | nil =>
    cases rest with
    | nil =>
      have hend : text.length ≤ i := by
        rw [← String.length_toList]
        exact List.drop_eq_nil_iff.mp h
      exact hloop.ended lexer ⟨text, line, i⟩ hend
    | cons c rest =>
      have hc : text.toList[i]? = some c := getElem?_of_drop (w := []) h
      obtain ⟨lexer', hlexer, htokens, herror, hindex⟩ :=
        hloop.unmatched lexer ⟨text, line, i⟩ hc (hrest c rfl)
      rw [Lexer.refuse, hlexer] at herror
      exact ⟨htokens, herror, hindex⟩
  | cons s w ih =>
    have hs : text.toList[i]? = some s.char := getElem?_of_drop (w := []) h
    obtain ⟨lexer', htokens, herror, hlexer⟩ :=
      hloop.matched lexer ⟨text, line, i⟩ hs (Symbol.ofChar?_char s)
    have hdrop : text.toList.drop (i + 1) = w.map Symbol.char ++ rest := by
      rw [← List.drop_drop, h]
      rfl
    obtain ⟨htokens', herror', hindex'⟩ := ih hdrop lexer'
    have hlen : i + (s :: w).length = i + 1 + w.length := by
      rw [List.length_cons]
      omega
    rw [hlen, htokens, herror, hlexer]
    exact ⟨congrArg (⟨s, i, line⟩ :: ·) htokens', herror', hindex'⟩

end split

namespace Lexer

/-- A lexer driven by a loop hands out one token for each character of the text from the offset
on, up to the end or the first one outside the alphabet, about which it fails. It is left there,
and nothing of this depends on the texts it was used for before. -/
theorem lexed_of_drives {loop : LexerLoop κ} (hloop : Drives loop) (text : String) (line : Int)
    (i : Nat) :
    ∃ j, StopsAt text i j ∧ ∀ (lexer : Lexer κ) (earlier : List LexerInput),
      let lexed := loop (loop.after lexer earlier) ⟨text, line, i⟩
      LexedUpTo text line i j lexed ∧
        Lexing.ofText text line i = ⟨lexed.tokens, j, text.toList[j]?⟩ := by
  obtain ⟨w, rest, hdrop, hrest⟩ := Lexing.exists_spelling (text.toList.drop i)
  have hchar : text.toList[i + w.length]? = rest.head? := getElem?_of_drop hdrop
  refine ⟨i + w.length, stopsAt_of_drop hdrop hrest, fun lexer earlier => ?_⟩
  obtain ⟨htokens, herror, hindex⟩ :=
    hloop.lexed line hdrop hrest (loop.after lexer earlier)
  constructor
  · constructor
    case indices => rw [htokens, Token.map_index_number, Nat.add_sub_cancel_left]
    case each =>
      rw [htokens]
      exact fun t ht => ⟨rfl, Token.line_of_mem_number ht⟩
    case spelled => rw [htokens, Token.map_symbol_number, spell_of_drop hdrop]
    case error => rw [herror, hchar]
    case index => exact hindex
  · rw [htokens, hchar, Lexing.ofText, hdrop, Lexing.ofChars_append w hrest]

/-- The loop that lexes a text at once, and keeps the text and its line number in the lexer. -/
def lex : LexerLoop (String × Int) := fun _ input =>
  let lexing := Lexing.ofText input.text input.line input.start
  ⟨lexing.tokens, lexing.refused.map (ParseError.invalidToken · lexing.stop),
    ⟨lexing.stop, (input.text, input.line)⟩⟩

/-- The loop that matches one character after the other is one that drives a lexer. -/
theorem drives_lex : Drives lex where
  ended lexer input h := by
    have hdrop : input.text.toList.drop input.start = [] := by
      rw [List.drop_eq_nil_iff, String.length_toList]
      exact h
    rw [lex, Lexing.ofText, hdrop]
    exact ⟨rfl, rfl, rfl⟩
  matched lexer input c s hc hs := by
    refine ⟨lexer, ?_⟩
    rw [lex, lex, Lexing.ofText_of_getElem? hc, hs]
    exact ⟨rfl, rfl, rfl⟩
  unmatched lexer input c hc hs := by
    refine ⟨⟨input.start, lexer.kept⟩, rfl, ?_⟩
    rw [lex, Lexing.ofText_of_getElem? hc, hs]
    exact ⟨rfl, rfl, rfl⟩

/-- Two texts are lexed before, of which the first is refused; a third one is then lexed from its
second character on, up to the end of its first line. -/
theorem lexed_of_drives_after_failure :
    Drives lex ∧ StopsAt "AB&\n!" 1 3 ∧ ∀ lexer : Lexer (String × Int),
      let earlier : List LexerInput := [⟨"A$", 1, 0⟩, ⟨"0", 4, 6⟩]
      let lexed := lex (LexerLoop.after lex lexer earlier) ⟨"AB&\n!", 7, 1⟩
      LexedUpTo "AB&\n!" 7 1 3 lexed ∧ lexed.tokens = [⟨.leaf ⟨1⟩, 1, 7⟩, ⟨.op .and, 2, 7⟩] := by
  obtain ⟨j, hstops, hlexed⟩ := lexed_of_drives drives_lex "AB&\n!" 7 1
  have hj : 3 = j := congrArg Lexing.stop (hlexed ⟨0, "", 0⟩ []).2
  subst hj
  exact ⟨drives_lex, hstops, fun lexer => ⟨(hlexed lexer _).1, rfl⟩⟩

end Lexer
end PolishLogic
