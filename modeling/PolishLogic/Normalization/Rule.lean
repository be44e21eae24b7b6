import PolishLogic.Formula.Checked

/-! # Rewrite rules

The eight one-step rules. An expanding rule rewrites a binary node whose connective has no
place in a normal form; a negating rule moves a negation from above a binary node to its
operands. Each keeps the truth value of the node it is for (`subject`).

Where an operand occurs twice in the result, the second occurrence is a copy. -/

namespace PolishLogic

/-- The rules, named for what they do to which connective. -/
inductive Rule where
  | expandImply | expandXor | expandXnor
  | negateAnd | negateOr | negateImply | negateXor | negateXnor
  deriving DecidableEq, Repr

namespace Rule

variable {α : Type}

def all : List Rule :=
  [.expandImply, .expandXor, .expandXnor, .negateAnd, .negateOr, .negateImply, .negateXor,
    .negateXnor]

def name : Rule → String
  | .expandImply => "expand_imply"
  | .expandXor => "expand_xor"
  | .expandXnor => "expand_xnor"
  | .negateAnd => "negate_and"
  | .negateOr => "negate_or"
  | .negateImply => "negate_imply"
  | .negateXor => "negate_xor"
  | .negateXnor => "negate_xnor"

def ofName? (s : String) : Option Rule := all.find? (·.name == s)

def subject (lhs rhs : Formula α) : Rule → Formula α
  | .expandImply => .binary .imply lhs rhs
  | .expandXor => .binary .xor lhs rhs
  | .expandXnor => .binary .xnor lhs rhs
  | .negateAnd => (Formula.binary .and lhs rhs).neg
  | .negateOr => (Formula.binary .or lhs rhs).neg
  | .negateImply => (Formula.binary .imply lhs rhs).neg
  | .negateXor => (Formula.binary .xor lhs rhs).neg
  | .negateXnor => (Formula.binary .xnor lhs rhs).neg

/-- Exactly one operand holds. -/
def different (lhs rhs : Formula α) : Except FormulaError (Formula α) := do
  let lhs' ← lhs.duplicate
  let rhs' ← rhs.duplicate
  return .disj (.conj lhs.neg rhs) (.conj lhs' rhs'.neg)

/-- Both operands hold or neither does. -/
def equivalent (lhs rhs : Formula α) : Except FormulaError (Formula α) := do
  let lhs' ← lhs.duplicate
  let rhs' ← rhs.duplicate
  return .disj (.conj lhs rhs) (.conj lhs'.neg rhs'.neg)

def apply (lhs rhs : Formula α) : Rule → Except FormulaError (Formula α)
  | .expandImply => .ok (.disj lhs.neg rhs)
  | .expandXor => different lhs rhs
  | .expandXnor => equivalent lhs rhs
  | .negateAnd => .ok (.disj lhs.neg rhs.neg)
  | .negateOr => .ok (.conj lhs.neg rhs.neg)
  | .negateImply => .ok (.conj lhs rhs.neg)
  | .negateXor => equivalent lhs rhs
  | .negateXnor => different lhs rhs

/-- The rule that replaces a connective outside the normal form. -/
def expansion? : Connective → Option Rule
  | .imply => some .expandImply
  | .xor => some .expandXor
  | .xnor => some .expandXnor
  | .not | .and | .or => none

/-- The rule that moves a negation below a connective. -/
def negation? : Connective → Option Rule
  | .and => some .negateAnd
  | .or => some .negateOr
  | .imply => some .negateImply
  | .xor => some .negateXor
  | .xnor => some .negateXnor
  | .not => none

/-- What a rule makes of its operands when copies are the formulas copied. -/
def image (lhs rhs : Formula α) : Rule → Formula α
  | .expandImply => .disj lhs.neg rhs
  | .negateAnd => .disj lhs.neg rhs.neg
  | .negateOr => .conj lhs.neg rhs.neg
  | .negateImply => .conj lhs rhs.neg
  | .expandXor | .negateXnor => .disj (.conj lhs.neg rhs) (.conj lhs rhs.neg)
  | .expandXnor | .negateXor => .disj (.conj lhs rhs) (.conj lhs.neg rhs.neg)

/-- The rules that use an operand twice. -/
def copies : Rule → Bool
  | .expandXor | .expandXnor | .negateXor | .negateXnor => true
  | .expandImply | .negateAnd | .negateOr | .negateImply => false

/-- A rule that makes no copies cannot fail. -/
theorem apply_of_not_copies {rule : Rule} (h : rule.copies = false) (l r : Formula α) :
    rule.apply l r = .ok (rule.image l r) := by
  cases rule with
  | expandImply | negateAnd | negateOr | negateImply => rfl
  | expandXor | expandXnor | negateXor | negateXnor => cases h

/-- What is made of two copies is made of what was copied. -/
theorem bind_copies (l r : Formula α) (k : Formula α → Formula α → Formula α) :
    (do let l' ← l.duplicate; let r' ← r.duplicate; return k l' r' : Except FormulaError _) =
      do let _ ← l.duplicate; let _ ← r.duplicate; return k l r := by
  cases hl : l.duplicate with
  | error e => rfl
  | ok l' =>
    cases hr : r.duplicate with
    | error e => rfl
    | ok r' => rw [Formula.eq_of_duplicate hl, Formula.eq_of_duplicate hr]; rfl

/-- A rule that makes copies fails exactly when an operand cannot be copied. -/
theorem apply_of_copies {rule : Rule} (h : rule.copies = true) (l r : Formula α) :
    rule.apply l r = do let _ ← l.duplicate; let _ ← r.duplicate; return rule.image l r := by
  cases rule with
  | expandImply | negateAnd | negateOr | negateImply => cases h
  | expandXor | negateXnor =>
    exact bind_copies l r fun l' r' => .disj (.conj l.neg r) (.conj l' r'.neg)
  | expandXnor | negateXor =>
    exact bind_copies l r fun l' r' => .disj (.conj l r) (.conj l'.neg r'.neg)

theorem eq_image_of_apply {rule : Rule} {l r f : Formula α} (h : rule.apply l r = .ok f) :
    f = rule.image l r := by
  cases hcopies : rule.copies with
  | false =>
    rw [apply_of_not_copies hcopies] at h
    exact (Except.ok.inj h).symm
  | true =>
    rw [apply_of_copies hcopies] at h
    obtain ⟨l', -, h⟩ := Except.bind_eq_ok.mp h
    obtain ⟨r', -, h⟩ := Except.bind_eq_ok.mp h
    exact (Except.ok.inj h).symm

/-- The left operand is copied first, so its error goes before that of the right one. -/
theorem apply_eq_error_iff {rule : Rule} (h : rule.copies = true) {l r : Formula α}
    {e : FormulaError} :
    rule.apply l r = .error e ↔ l.duplicate = .error e ∨ l.Intact ∧ r.duplicate = .error e := by
  rw [apply_of_copies h, Except.bind_eq_error]
  refine or_congr_right ⟨?_, ?_⟩
  · rintro ⟨l', hl, hr⟩
    rcases Except.bind_eq_error.mp hr with hr | ⟨r', -, hr⟩
    · exact ⟨Formula.intact_of_duplicate hl, hr⟩
    · cases hr
  · rintro ⟨hl, hr⟩
    exact ⟨l, Formula.duplicate_of_intact hl, Except.bind_eq_error.mpr (.inl hr)⟩

/-- The only way a rule can fail is that an operand cannot be copied. -/
theorem error_of_apply {rule : Rule} {l r : Formula α} {e : FormulaError}
    (h : rule.apply l r = .error e) : l.duplicate = .error e ∨ r.duplicate = .error e := by
  cases hcopies : rule.copies with
  | false =>
    rw [apply_of_not_copies hcopies] at h
    cases h
  | true => exact ((apply_eq_error_iff hcopies).mp h).imp_right And.right

theorem eq_subject_of_expansion? {op : Connective} {rule : Rule} (h : expansion? op = some rule)
    (l r : Formula α) : rule.subject l r = .binary op l r := by
  cases op <;> cases h <;> rfl

theorem eq_subject_of_negation? {op : Connective} {rule : Rule} (h : negation? op = some rule)
    (l r : Formula α) : rule.subject l r = (Formula.binary op l r).neg := by
  cases op <;> cases h <;> rfl

end Rule
end PolishLogic
