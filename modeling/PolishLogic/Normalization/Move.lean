import PolishLogic.Normalization.Weight

/-! # Moves

What normalization does with a formula by looking at its root: it stops, keeps the node and
goes on with the operands, drops an even run of negations, or applies a rule. `takes_move`
says when it makes which move. Every formula it goes on with has a smaller weight. -/

namespace PolishLogic

inductive Move (α : Type) where
  /-- An atom or a negated atom. -/
  | stop (f : Formula α)
  | fail (e : FormulaError)
  /-- A connective of the normal form: its operands are normalized, the left one first. -/
  | keep (op : Connective) (lhs rhs : Formula α)
  /-- What is left of an even run of negations. -/
  | drop (f : Formula α)
  /-- The result of a rule, which is normalized again. -/
  | rewrite (rule : Rule) (f : Formula α)

namespace Formula

variable {α : Type}

/-- Takes off the run of negations at the root: whether their number is odd, and what they
stand above. -/
def stripNot : Formula α → Except FormulaError (Bool × Formula α)
  | unary .not c => do
    let (odd, core) ← c.stripNot
    return (!odd, core)
  | unary op _ => .error (.inNegations op)
  | f => .ok (false, f)

/-- Applies a rule, or fails if an operand cannot be copied. -/
def applying (rule : Rule) (l r : Formula α) : Move α :=
  match rule.apply l r with
  | .error e => .fail e
  | .ok f => .rewrite rule f

/-- The move at a formula under an odd run of negations. -/
def negatedMove : Formula α → Move α
  | const b => .stop (const b).neg
  | var x => .stop (var x).neg
  | binary op l r =>
    match Rule.negation? op with
    | some rule => applying rule l r
    | none => .fail (.cannotNegate .binary)
  | f => .fail (.cannotNegate f.kind)

def move : Formula α → Move α
  | hole => .fail .hole
  | const b => .stop (const b)
  | var x => .stop (var x)
  | unary op c =>
    match (unary op c).stripNot with
    | .error e => .fail e
    | .ok (false, core) => .drop core
    | .ok (true, core) => core.negatedMove
  | binary op l r =>
    if op.isMonotone then .keep op l r
    else match Rule.expansion? op with
      | some rule => applying rule l r
      | none => .fail (.noExpansion op)

theorem stripNot_neg (c : Formula α) :
    c.neg.stripNot = c.stripNot.map fun p => (!p.1, p.2) := by
  show (unary .not c).stripNot = _
  rw [stripNot]
  cases c.stripNot <;> rfl

theorem stripNot_unary_eq_ok {op : Connective} {c core : Formula α} {odd : Bool} :
    (unary op c).stripNot = .ok (odd, core) ↔ op = .not ∧ c.stripNot = .ok (!odd, core) := by
  cases op with
  | not =>
    show c.neg.stripNot = _ ↔ _
    rw [stripNot_neg]
    cases c.stripNot with
    | error e => exact ⟨nofun, nofun⟩
    | ok p =>
      obtain ⟨o, k⟩ := p
      cases o <;> cases odd <;> simp [Except.map]
  | and | or | xor | xnor | imply => exact ⟨nofun, nofun⟩

/-- A stripped run is not longer than the formula, and an odd one weighs a negation. -/
theorem weight_stripNot {f core : Formula α} {odd : Bool} (h : f.stripNot = .ok (odd, core)) :
    core.weight ≤ f.weight ∧ (odd = true → 2 * core.weight ≤ f.weight) := by
  induction f generalizing odd core with
  | hole | const | var | binary => cases h; exact ⟨Nat.le_refl _, nofun⟩
  | unary op c ih =>
    have hk := (ih (stripNot_unary_eq_ok.mp h).2).1
    simp only [weight]
    exact ⟨by omega, fun _ => by omega⟩

theorem weight_stripNot_unary {op : Connective} {c core : Formula α} {odd : Bool}
    (h : (unary op c).stripNot = .ok (odd, core)) : core.weight < (unary op c).weight := by
  have hk := (weight_stripNot (stripNot_unary_eq_ok.mp h).2).1
  have hp := c.weight_pos
  simp only [weight]
  omega

/-- What a run of negations stands above is never unary. -/
theorem stripNot_ne_unary {f c : Formula α} {op : Connective} {odd : Bool} :
    f.stripNot ≠ .ok (odd, unary op c) := by
  intro h
  induction f generalizing odd with
  | hole | const | var | binary => cases h
  | unary op' c' ih => exact ih (stripNot_unary_eq_ok.mp h).2

/-- When each move is made. A rule is applied to a formula that is its subject up to the
length of the run of negations at the root. -/
inductive Takes : Formula α → Move α → Prop
  | atom {f : Formula α} (h : f.isAtom) : Takes f (.stop f)
  | literal {f core : Formula α} (h : f.stripNot = .ok (true, core)) (ha : core.isAtom) :
    Takes f (.stop core.neg)
  | keep {op : Connective} {l r : Formula α} (ho : op.isMonotone) :
    Takes (binary op l r) (.keep op l r)
  | drop {op : Connective} {c core : Formula α}
    (h : (unary op c).stripNot = .ok (false, core)) : Takes (unary op c) (.drop core)
  | rewrite {f l r g : Formula α} {rule : Rule}
    (h : f.stripNot = (rule.subject l r).stripNot) (hg : rule.apply l r = .ok g) :
    Takes f (.rewrite rule g)
  | hole : Takes hole (.fail .hole)
  | negations {f : Formula α} {e : FormulaError} (h : f.stripNot = .error e) : Takes f (.fail e)
  | uncopied {f l r : Formula α} {rule : Rule} {e : FormulaError}
    (h : f.stripNot = (rule.subject l r).stripNot) (he : rule.apply l r = .error e) :
    Takes f (.fail e)
  | noExpansion {l r : Formula α} : Takes (binary .not l r) (.fail (.noExpansion .not))
  | negatedHole {f : Formula α} (h : f.stripNot = .ok (true, .hole)) :
    Takes f (.fail (.cannotNegate .hole))
  | negatedNot {f l r : Formula α} (h : f.stripNot = .ok (true, binary .not l r)) :
    Takes f (.fail (.cannotNegate .binary))

theorem takes_applying {f l r : Formula α} {rule : Rule}
    (h : f.stripNot = (rule.subject l r).stripNot) : f.Takes (applying rule l r) := by
  unfold applying
  split
  · next he => exact .uncopied h he
  · next hg => exact .rewrite h hg

theorem takes_negatedMove {f core : Formula α} (h : f.stripNot = .ok (true, core)) :
    f.Takes core.negatedMove := by
  cases core with
  | hole => exact .negatedHole h
  | const | var => exact .literal h rfl
  | unary => exact absurd h stripNot_ne_unary
  | binary op l r =>
    rw [negatedMove]
    split
    · next rule hr =>
      apply takes_applying
      rw [Rule.eq_subject_of_negation? hr]
      exact h
    · next hr =>
      cases op with
      | not => exact .negatedNot h
      | and | or | xor | xnor | imply => cases hr

theorem takes_move (f : Formula α) : f.Takes f.move := by
  cases f with
  | hole => exact .hole
  | const | var => exact .atom rfl
  | unary op c =>
    rw [move]
    split
    · next he => exact .negations he
    · next hs => exact .drop hs
    · next hs => exact takes_negatedMove hs
  | binary op l r =>
    rw [move]
    split
    · next ho => exact .keep ho
    · split
      · next rule hr => exact takes_applying (by rw [Rule.eq_subject_of_expansion? hr])
      · next ho _ hr =>
        cases op with
        | not => exact .noExpansion
        | and | or => exact absurd rfl ho
        | xor | xnor | imply => cases hr

theorem takes_of_move {f : Formula α} {m : Move α} (h : f.move = m) : f.Takes m :=
  h ▸ f.takes_move

/-- A rule is applied below a run of negations, which may be longer than that of its subject. -/
theorem weight_subject_le {f l r : Formula α} {rule : Rule}
    (h : f.stripNot = (rule.subject l r).stripNot) :
    (rule.subject l r).weight ≤ f.weight := by
  cases rule with
  | expandImply | expandXor | expandXnor => exact (weight_stripNot h).1
  | negateAnd | negateOr | negateImply | negateXor | negateXnor =>
    exact (weight_stripNot h).2 rfl

theorem weight_rewrite {f g : Formula α} {rule : Rule} (h : f.move = .rewrite rule g) :
    g.weight < f.weight := by
  cases takes_of_move h with
  | rewrite hs hg => exact Nat.lt_of_lt_of_le (Rule.weight_apply hg) (weight_subject_le hs)

theorem weight_drop {f g : Formula α} (h : f.move = .drop g) : g.weight < f.weight := by
  cases takes_of_move h with
  | drop hs => exact weight_stripNot_unary hs

theorem eq_of_move_keep {f l r : Formula α} {op : Connective} (h : f.move = .keep op l r) :
    f = binary op l r ∧ op.isMonotone := by
  cases takes_of_move h with
  | keep ho => exact ⟨rfl, ho⟩

theorem weight_keep {f l r : Formula α} {op : Connective} (h : f.move = .keep op l r) :
    l.weight < f.weight ∧ r.weight < f.weight := by
  obtain ⟨rfl, hop⟩ := eq_of_move_keep h
  have hl := l.weight_pos
  have hr := r.weight_pos
  cases op with
  | and | or => exact ⟨by simp only [weight]; omega, by simp only [weight]; omega⟩
  | not | xor | xnor | imply => cases hop

end Formula
end PolishLogic
