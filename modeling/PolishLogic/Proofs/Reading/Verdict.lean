import PolishLogic.Proofs.Conversion
import PolishLogic.Proofs.Reading.Height

/-! # Which texts are formulas

`Verdict` says by positions and heights alone what comes of a text. There is one verdict for
each text (`Verdict.unique`), and reading ends with it (`verdict_ofText?`,
`Tree.parse_verdict`). -/

namespace PolishLogic

/-- The positions of the characters outside the alphabet. -/
def outside (cs : List Char) : Set Nat :=
  {n | ∃ c, cs[n]? = some c ∧ Alphabet.contains c = false}

theorem outside_spelling (w : List (Symbol Letter)) : outside (w.map Symbol.char) = ∅ := by
  refine Set.eq_empty_of_forall_notMem ?_
  rintro n ⟨c, hc, ho⟩
  rw [List.getElem?_map, Option.map_eq_some_iff] at hc
  obtain ⟨s, -, rfl⟩ := hc
  rw [Alphabet.contains_iff.mpr ⟨s, rfl⟩] at ho
  cases ho

/-- Symbols are followed by the first character outside the alphabet. -/
theorem isLeast_outside (w : List (Symbol Letter)) {c : Char} (rest : List Char)
    (hc : Symbol.ofChar? c = none) :
    IsLeast (outside (w.map Symbol.char ++ c :: rest)) w.length := by
  constructor
  · exact ⟨c, by simp, Alphabet.contains_eq_false.mpr hc⟩
  · rintro n ⟨d, hd, ho⟩
    by_contra hlt
    rw [List.getElem?_append_left (by simpa using hlt)] at hd
    have hn : n ∈ outside (w.map Symbol.char) := ⟨d, hd, ho⟩
    rw [outside_spelling] at hn
    exact hn

/-- What comes of a text: the first of these cases that it falls under. -/
inductive Verdict (text : String) : Except ParseError Unit → Prop
  | empty (he : text = "") : Verdict text (.error .emptyInput)
  | invalidToken {c : Char} {n : Nat} (hne : text ≠ "")
    (hn : IsLeast (outside text.toList) n) (hc : text.toList[n]? = some c) :
    Verdict text (.error (.invalidToken c n))
  | missingOperand {op : Connective} {n : Nat} (hne : text ≠ "")
    (ha : outside text.toList = ∅) (hn : IsLeast (lacking text.toList) n)
    (hc : text.toList[n]? = some op.symbol) : Verdict text (.error (.missingOperand op n))
  | leftOver {k : Nat} (hne : text ≠ "") (ha : outside text.toList = ∅)
    (hl : lacking text.toList = ∅) (hk : height text.toList = k) (h2 : 2 ≤ k) :
    Verdict text (.error (.leftOver k))
  | accepted (hne : text ≠ "") (ha : outside text.toList = ∅) (hl : lacking text.toList = ∅)
    (hk : height text.toList = 1) : Verdict text (.ok ())

/-- No text falls under two cases, and the cases leave no choice of a position or a number. -/
theorem Verdict.unique {text : String} {v v' : Except ParseError Unit} (h : Verdict text v)
    (h' : Verdict text v') : v = v' := by
  cases h with
  | empty he =>
    cases h' with
    | empty => rfl
    | invalidToken hne | missingOperand hne | leftOver hne | accepted hne => exact absurd he hne
  | invalidToken hne hn hc =>
    cases h' with
    | empty he => exact absurd he hne
    | invalidToken _ hn' hc' =>
      obtain rfl := hn.unique hn'
      cases hc.symm.trans hc'
      rfl
    | missingOperand _ ha | leftOver _ ha | accepted _ ha => exact absurd hn.1 (ha ▸ id)
  | missingOperand hne ha hn hc =>
    cases h' with
    | empty he => exact absurd he hne
    | invalidToken _ hn' => exact absurd hn'.1 (ha ▸ id)
    | missingOperand _ _ hn' hc' =>
      obtain rfl := hn.unique hn'
      cases Connective.symbol_injective (Option.some.inj (hc.symm.trans hc'))
      rfl
    | leftOver _ _ hl | accepted _ _ hl => exact absurd hn.1 (hl ▸ id)
  | leftOver hne ha hl hk h2 =>
    cases h' with
    | empty he => exact absurd he hne
    | invalidToken _ hn' => exact absurd hn'.1 (ha ▸ id)
    | missingOperand _ _ hn' => exact absurd hn'.1 (hl ▸ id)
    | leftOver _ _ _ hk' =>
      cases Int.ofNat.inj (hk.symm.trans hk')
      rfl
    | accepted _ _ _ hk' => omega
  | accepted hne ha hl hk =>
    cases h' with
    | empty he => exact absurd he hne
    | invalidToken _ hn' => exact absurd hn'.1 (ha ▸ id)
    | missingOperand _ _ hn' => exact absurd hn'.1 (hl ▸ id)
    | leftOver _ _ _ hk' => omega
    | accepted => rfl

/-- Each error names what its verdict is about: the character and its position in the text, or the
number of operands. -/
theorem Verdict.message_eq {text : String} {e : ParseError} (h : Verdict text (.error e)) :
    e = .emptyInput ∧ e.message = "Input formula is empty." ∨
    (∃ c n, e = .invalidToken c n ∧ text.toList[n]? = some c ∧
      e.message = "Invalid token '" ++ c.toString ++ "' at position " ++ toString n) ∨
    (∃ op c n, e = .missingOperand op n ∧ text.toList[n]? = some c ∧
      e.message = "Operator '" ++ c.toString ++ "' at position " ++ toString n ++
        " is missing an operand.") ∨
    ∃ k : Nat, e = .leftOver k ∧ height text.toList = k ∧
      e.message = toString k ++ " operands left over; expected exactly one." := by
  cases h with
  | empty => exact .inl ⟨rfl, rfl⟩
  | invalidToken _ _ hc => exact .inr (.inl ⟨_, _, rfl, hc, rfl⟩)
  | missingOperand _ _ _ hc => exact .inr (.inr (.inl ⟨_, _, _, rfl, hc, rfl⟩))
  | leftOver _ _ _ hk => exact .inr (.inr (.inr ⟨_, rfl, hk, rfl⟩))

/-- The case that no operand is left does not arise. -/
theorem OperandStack.Reads.ne_nil {stack final : OperandStack} {w : List (Symbol Letter)}
    (h : stack.Reads w final) (hw : w ≠ []) : final ≠ [] := by
  induction h with
  | nil => exact absurd rfl hw
  | cons hs h ih =>
    cases h with
    | nil => cases hs <;> exact List.cons_ne_nil _ _
    | cons => exact ih (List.cons_ne_nil _ _)

open OperandStack in
/-- Reading comes to the verdict: the lexer decides on the alphabet, each step of the scan on the
operands it needs, and the end on their number. -/
theorem verdict_ofText? (text : String) :
    Verdict text ((Formula.ofText? text).map fun _ => ()) := by
  rcases Formula.ofText?_cases text with
    rfl | ⟨hne, ⟨w, c, rest, hsplit, hc, hr⟩ | ⟨w, hw, rfl, hr⟩⟩
  · exact .empty rfl
  · rw [hr]
    refine .invalidToken hne ?_ ?_
    · rw [hsplit]
      exact isLeast_outside w rest hc
    · simp [hsplit]
  · have ha : outside (Symbol.spell w).toList = ∅ := by
      rw [Symbol.toList_spell, outside_spelling]
    rw [hr]
    cases hscan : scan [] (Token.number 1 0 w) with
    | error e =>
      obtain ⟨u, op, v, mid, rfl, hu, hlt, rfl⟩ := error_of_scan hscan
      rw [Nat.zero_add]
      refine .missingOperand hne ha ?_ ?_
      · rw [Symbol.toList_spell]
        exact isLeast_lacking hu hlt
      · simp [Symbol.toList_spell, Symbol.char]
    | ok stack =>
      rw [scan_eq_ok, Token.map_symbol_number] at hscan
      have hl : lacking (Symbol.spell w).toList = ∅ := by
        rw [Symbol.toList_spell, hscan.lacking_eq_empty]
      have hk : height (Symbol.spell w).toList = stack.length := by
        rw [Symbol.toList_spell, hscan.length_eq]
        exact (Int.zero_add _).symm
      rcases stack with _ | ⟨f, _ | ⟨g, stack⟩⟩
      · exact absurd rfl (hscan.ne_nil hw)
      · exact .accepted hne ha hl hk
      · exact .leftOver hne ha hl hk (Nat.le_add_left 2 _)

theorem Tree.parse_eq_error_iff {text : String} {level : Level} {store : Store} {e : ParseError} :
    (parse level store (.text text)).result = .error e ↔ Verdict text (.error e) := by
  have hv : Verdict text ((Source.read (.text text)).map fun _ => ()) := verdict_ofText? text
  rw [result_parse]
  cases hr : Source.read (.text text) with
  | error e' =>
    rw [hr] at hv
    refine ⟨?_, fun hv' => ?_⟩
    · rintro ⟨⟩
      exact hv
    · cases hv.unique hv'
      rfl
  | ok f =>
    rw [hr] at hv
    exact ⟨nofun, fun hv' => nomatch hv.unique hv'⟩

theorem Tree.parse_eq_ok_iff {text : String} {level : Level} {store : Store} :
    (∃ t final, (parse level store (.text text)).result = .ok (t, final)) ↔
      Verdict text (.ok ()) := by
  have hv : Verdict text ((Source.read (.text text)).map fun _ => ()) := verdict_ofText? text
  rw [result_parse]
  cases hr : Source.read (.text text) with
  | error e =>
    rw [hr] at hv
    exact ⟨nofun, fun hv' => nomatch hv.unique hv'⟩
  | ok f =>
    rw [hr] at hv
    exact ⟨fun _ => hv, fun _ => ⟨_, _, rfl⟩⟩

/-- Every text has one verdict, and reading a tree comes to it: with the error of the verdict,
or with a tree if the text is accepted. That no operand at all is left is never the case. The text
of an error says which character is wrong and where, or how many operands are left over. -/
theorem Tree.parse_verdict (text : String) (level : Level) (store : Store) :
    (∃! v, Verdict text v) ∧
    (∀ e, (parse level store (.text text)).result = .error e ↔ Verdict text (.error e)) ∧
    ((∃ t final, (parse level store (.text text)).result = .ok (t, final)) ↔
      Verdict text (.ok ())) ∧
    (parse level store (.text text)).result ≠ .error .noOperands ∧
    ∀ e, (parse level store (.text text)).result = .error e →
      e = .emptyInput ∧ e.message = "Input formula is empty." ∨
      (∃ c n, e = .invalidToken c n ∧ text.toList[n]? = some c ∧
        e.message = "Invalid token '" ++ c.toString ++ "' at position " ++ toString n) ∨
      (∃ op c n, e = .missingOperand op n ∧ text.toList[n]? = some c ∧
        e.message = "Operator '" ++ c.toString ++ "' at position " ++ toString n ++
          " is missing an operand.") ∨
      ∃ k : Nat, e = .leftOver k ∧ height text.toList = k ∧
        e.message = toString k ++ " operands left over; expected exactly one." := by
  have hv := verdict_ofText? text
  refine ⟨⟨_, hv, fun v hv' => hv'.unique hv⟩, fun _ => parse_eq_error_iff, parse_eq_ok_iff,
    fun h => ?_, fun e h => (parse_eq_error_iff.mp h).message_eq⟩
  cases parse_eq_error_iff.mp h

/-- A character outside the alphabet wins over the missing operand before it. -/
example : (Tree.parse .info .empty (.text "&a")).result = .error (.invalidToken 'a' 1) := rfl

end PolishLogic
