import Mathlib.Order.Bounds.Basic
import PolishLogic.Proofs.Reading.Scan

/-! # Heights

The height of a text is the number of operands that it leaves for what follows it, counted
without building any. The operand stack after a word is as long as the word is high
(`OperandStack.Reads.length_eq`), so heights tell which connective is the first that lacks
operands (`OperandStack.isLeast_lacking`). -/

namespace PolishLogic

namespace Alphabet

/-- A constant or a variable. -/
def isOperand (c : Char) : Bool := c == '0' || c == '1' || ('A' ≤ c && c ≤ 'Z')

/-- A connective with two operands. -/
def isBinary (c : Char) : Bool := ['&', '|', '^', '=', '>'].contains c

/-- The characters that a formula can have. -/
def contains (c : Char) : Bool := isOperand c || c == '!' || isBinary c

theorem of_letter (l : Letter) : isOperand l.char = true ∧ isBinary l.char = false := by
  obtain ⟨i⟩ := l
  revert i
  decide

theorem exists_letter {c : Char} (h : 'A' ≤ c ∧ c ≤ 'Z') : ∃ l : Letter, c = l.char := by
  have hc : 65 ≤ c.toNat ∧ c.toNat ≤ 90 := by
    simpa [Char.le_def, UInt32.le_iff_toNat_le] using h
  have hlt : 65 ≤ c.toNat ∧ c.toNat < 91 := by omega
  refine ⟨⟨c.toNat - 65, by omega⟩, Letter.ofChar?_eq_some.mp ?_⟩
  rw [Letter.ofChar?, dif_pos hlt]

/-- The alphabet consists of what the symbols are written as. -/
theorem contains_iff {c : Char} : contains c = true ↔ ∃ s : Symbol Letter, c = s.char := by
  constructor
  · intro h
    simp only [contains, isOperand, isBinary, Bool.or_eq_true, Bool.and_eq_true, beq_iff_eq,
      decide_eq_true_eq, List.contains_iff_mem, List.mem_cons, List.not_mem_nil, or_false] at h
    rcases h with (((rfl | rfl) | hl) | rfl) | rfl | rfl | rfl | rfl | rfl
    · exact ⟨.const false, rfl⟩
    · exact ⟨.const true, rfl⟩
    · obtain ⟨l, rfl⟩ := exists_letter hl
      exact ⟨.leaf l, rfl⟩
    · exact ⟨.op .not, rfl⟩
    · exact ⟨.op .and, rfl⟩
    · exact ⟨.op .or, rfl⟩
    · exact ⟨.op .xor, rfl⟩
    · exact ⟨.op .xnor, rfl⟩
    · exact ⟨.op .imply, rfl⟩
  · rintro ⟨s, rfl⟩
    cases s with
    | const b => cases b <;> rfl
    | leaf l => simp [contains, Symbol.char, of_letter]
    | op c => cases c <;> rfl

theorem contains_eq_false {c : Char} : contains c = false ↔ Symbol.ofChar? c = none := by
  rw [← Bool.not_eq_true, contains_iff, Option.eq_none_iff_forall_ne_some, not_exists]
  simp only [ne_eq, Symbol.ofChar?_eq_some]

end Alphabet

/-- The number of operands that a connective takes. -/
def Connective.arity : Connective → Nat
  | .not => 1
  | .and | .or | .xor | .xnor | .imply => 2

/-- The number of operands less the number of binary connectives. -/
def height (cs : List Char) : Int := cs.countP Alphabet.isOperand - cs.countP Alphabet.isBinary

/-- Heights add up, for what stands on the stack is never looked at. -/
theorem height_append (cs ds : List Char) : height (cs ++ ds) = height cs + height ds := by
  simp only [height, List.countP_append]
  omega

/-- The positions of the connectives that take more operands than there are before them. -/
def lacking (cs : List Char) : Set Nat :=
  {n | ∃ op : Connective, cs[n]? = some op.symbol ∧ height (cs.take n) < op.arity}

namespace OperandStack

/-- One symbol changes the number of operands by its height. -/
theorem Shifts.length_eq {stack final : OperandStack} {s : Symbol Letter}
    (h : stack.Shifts s final) : (final.length : Int) = stack.length + height [s.char] := by
  cases h with
  | @const _ b => cases b <;> rfl
  | leaf => simp [height, Symbol.char, Alphabet.of_letter]
  | not => rfl
  | @binary _ _ _ c hc =>
    have hdrop : height [(Symbol.op c : Symbol Letter).char] = -1 := by
      cases c with
      | not => exact absurd rfl hc
      | and | or | xor | xnor | imply => rfl
    rw [hdrop]
    simp only [List.length_cons]
    omega

/-- After a text as many operands are on the stack as its height says. -/
theorem Reads.length_eq {stack final : OperandStack} {w : List (Symbol Letter)}
    (h : stack.Reads w final) :
    (final.length : Int) = stack.length + height (w.map Symbol.char) := by
  induction h with
  | nil => exact (Int.add_zero _).symm
  | @cons _ _ _ s w hs _ ih =>
    rw [List.map_cons, ← List.singleton_append, height_append, ih, hs.length_eq, Int.add_assoc]

/-- A connective is taken in only if its operands are there. -/
theorem Shifts.arity_le {stack final : OperandStack} {op : Connective}
    (h : stack.Shifts (.op op) final) : op.arity ≤ stack.length := by
  cases h with
  | not => exact Nat.le_add_left 1 _
  | binary hop => cases op <;> simp [Connective.arity]

/-- The only error of a single step is that a connective finds too few operands. -/
theorem error_of_push {stack : OperandStack} {t : Token} {e : ParseError}
    (h : stack.push t = .error e) :
    ∃ op, t.symbol = .op op ∧ stack.length < op.arity ∧ e = .missingOperand op t.index := by
  obtain ⟨s, i, line⟩ := t
  cases s with
  | const | leaf => cases h
  | op c =>
    cases c with
    | not =>
      cases stack with
      | nil => cases h; exact ⟨.not, rfl, Nat.one_pos, rfl⟩
      | cons f stack => cases h
    | and | or | xor | xnor | imply =>
      rcases stack with _ | ⟨r, _ | ⟨l, stack⟩⟩
      · cases h; exact ⟨_, rfl, Nat.two_pos, rfl⟩
      · cases h; exact ⟨_, rfl, Nat.one_lt_two, rfl⟩
      · cases h

/-- A scan that breaks off does so at a connective that finds too few operands. -/
theorem error_of_scan {stack : OperandStack} {line : Int} {i : Nat} {w : List (Symbol Letter)}
    {e : ParseError} (h : stack.scan (Token.number line i w) = .error e) :
    ∃ u op v mid, w = u ++ .op op :: v ∧ stack.Reads u mid ∧ mid.length < op.arity ∧
      e = .missingOperand op (i + u.length) := by
  induction w generalizing stack i with
  | nil => cases h
  | cons s w ih =>
    rw [Token.number, scan] at h
    rcases Except.bind_eq_error.mp h with hp | ⟨next, hp, h⟩
    · obtain ⟨op, rfl, hlt, rfl⟩ := error_of_push hp
      exact ⟨[], op, w, stack, rfl, .nil, hlt, rfl⟩
    · obtain ⟨u, op, v, mid, rfl, hu, hlt, rfl⟩ := ih h
      refine ⟨s :: u, op, v, mid, rfl, .cons (push_eq_ok.mp hp) hu, hlt, ?_⟩
      rw [List.length_cons, Nat.add_assoc, Nat.add_comm 1]

/-- Words that are read through lack no operand, wherever reading would be broken off. -/
theorem Reads.lacking_eq_empty {final : OperandStack} {w : List (Symbol Letter)}
    (h : Reads [] w final) : lacking (w.map Symbol.char) = ∅ := by
  refine Set.eq_empty_of_forall_notMem ?_
  rintro n ⟨op, hc, hlt⟩
  rw [List.getElem?_map, Option.map_eq_some_iff] at hc
  obtain ⟨s, hs, hchar⟩ := hc
  obtain rfl : s = .op op := Symbol.char_injective hchar
  obtain ⟨hn, hget⟩ := List.getElem?_eq_some_iff.mp hs
  rw [← List.take_append_drop n w, List.drop_eq_getElem_cons hn, hget] at h
  obtain ⟨mid, hmid, h⟩ := reads_append.mp h
  cases h with
  | cons hs _ =>
    have harity := hs.arity_le
    have hlen := hmid.length_eq
    rw [← List.map_take] at hlt
    simp only [List.length_nil] at hlen
    omega

/-- The connective at which a scan breaks off is the first one that lacks operands. -/
theorem isLeast_lacking {u v : List (Symbol Letter)} {op : Connective} {mid : OperandStack}
    (hu : Reads [] u mid) (hlt : mid.length < op.arity) :
    IsLeast (lacking ((u ++ .op op :: v).map Symbol.char)) u.length := by
  have hlen := hu.length_eq
  have hnone := hu.lacking_eq_empty
  rw [List.map_append]
  constructor
  · refine ⟨op, by simp [Symbol.char], ?_⟩
    rw [List.take_left' (by simp)]
    simp only [List.length_nil] at hlen
    omega
  · rintro n ⟨op', hc, hlt'⟩
    by_contra hn
    have hn : n < (u.map Symbol.char).length := by simpa using hn
    rw [List.getElem?_append_left hn] at hc
    rw [List.take_append_of_le_length hn.le] at hlt'
    have hmem : n ∈ lacking (u.map Symbol.char) := ⟨op', hc, hlt'⟩
    rw [hnone] at hmem
    exact hmem

end OperandStack
end PolishLogic
