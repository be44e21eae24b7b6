import PolishLogic.Proofs.Formula.Ancestors
import PolishLogic.Proofs.Normalization.Run

/-! # The error of a single defect

A formula with one defective node and no more cannot be normalized, and what stands above the node
decides with which error: below an exclusive connective it is that of copying the node, and
otherwise it depends on the polarity with which the node is met (`Formula.toNnf_sole_defect`).

The proof is by induction on the path to the node. What a run comes to that is not traced is told
for a formula and for its negation by that for its parts, errors included (`nnf_signed_not`,
`nnf_signed_binary`, `nnf_signed_exclusive`). -/

namespace PolishLogic

/-- What a run that is not traced comes to after its first move. -/
def Move.nnf {α : Type} : Move α → Except FormulaError (Formula α)
  | .stop f => .ok f
  | .fail e => .error e
  | .keep op l r => do
    let l ← l.nnf
    let r ← r.nnf
    return .binary op l r
  | .drop f | .rewrite _ f => f.nnf

namespace Formula

variable {α : Type}

/-! ## Runs that are not traced -/

theorem nnf_eq_move (f : Formula α) : f.nnf = f.move.nnf := by
  cases hm : f.move with
  | stop g => rw [nnf, normalize_of_stop hm]; rfl
  | fail e => rw [nnf, normalize_of_fail hm]; rfl
  | keep op l r => exact result_normalize_of_keep hm false
  | drop g => rw [nnf, normalize_of_drop hm]; rfl
  | rewrite rule g => rw [nnf, result_normalize_of_rewrite hm]; rfl

theorem nnf_subject (rule : Rule) (l r : Formula α) :
    (rule.subject l r).nnf = rule.apply l r >>= nnf := by
  have hmove : (rule.subject l r).move = applying rule l r := by cases rule <;> rfl
  rw [nnf_eq_move, hmove, applying]
  cases rule.apply l r <;> rfl

theorem nnf_of_isMonotone {op : Connective} (hop : op.isMonotone = true) (l r : Formula α) :
    (binary op l r).nnf = (do
      let l ← l.nnf
      let r ← r.nnf
      return binary op l r) := by
  rw [nnf_eq_move, move, if_pos hop, Move.nnf]

/-- A run sees of the negations at the root whether they are odd in number, and what they stand
above. -/
theorem nnf_eq_stripNot (f : Formula α) : f.nnf = (do
    let (odd, core) ← f.stripNot
    if odd then core.negatedMove.nnf else core.nnf) := by
  cases f with
  | hole | const | var | binary => rfl
  | unary op c =>
    rw [nnf_eq_move, move]
    cases (unary op c).stripNot with
    | error e => rfl
    | ok p =>
      obtain ⟨odd, core⟩ := p
      cases odd <;> rfl

theorem nnf_neg_neg (f : Formula α) : f.neg.neg.nnf = f.nnf := by
  have hstrip : f.neg.neg.stripNot = f.stripNot := by
    rw [stripNot_neg, stripNot_neg]
    cases f.stripNot with
    | error e => rfl
    | ok p => simp [Except.map]
  rw [nnf_eq_stripNot f.neg.neg, hstrip, ← nnf_eq_stripNot]

theorem nnf_signed_not (c : Formula α) (p : Bool) :
    ((unary .not c).signed p).nnf = (c.signed !p).nnf := by
  cases p with
  | true => rfl
  | false => exact nnf_neg_neg c

/-- A connective that is no XOR or XNOR normalizes each operand once, with the sign it comes to
have. -/
theorem nnf_signed_binary {op : Connective} (hop : op ≠ .not) (hx : op.isExclusive = false)
    (l r : Formula α) (p : Bool) : ∃ op', ((binary op l r).signed p).nnf = (do
      let l ← (l.signed (op.turns 'l' != p)).nnf
      let r ← (r.signed (op.turns 'r' != p)).nnf
      return binary op' l r) := by
  cases op with
  | not => exact absurd rfl hop
  | xor | xnor => cases hx
  | and =>
    cases p with
    | true => exact ⟨.and, nnf_of_isMonotone rfl l r⟩
    | false => exact ⟨.or, (nnf_subject .negateAnd l r).trans (nnf_of_isMonotone rfl l.neg r.neg)⟩
  | or =>
    cases p with
    | true => exact ⟨.or, nnf_of_isMonotone rfl l r⟩
    | false => exact ⟨.and, (nnf_subject .negateOr l r).trans (nnf_of_isMonotone rfl l.neg r.neg)⟩
  | imply =>
    cases p with
    | true => exact ⟨.or, (nnf_subject .expandImply l r).trans (nnf_of_isMonotone rfl l.neg r)⟩
    | false => exact ⟨.and, (nnf_subject .negateImply l r).trans (nnf_of_isMonotone rfl l r.neg)⟩

/-- Both operands of an exclusive connective are copied before anything else is done. -/
theorem nnf_signed_exclusive {op : Connective} (hx : op.isExclusive = true) (l r : Formula α)
    (p : Bool) : ∃ k : Formula α → Formula α → Formula α, ((binary op l r).signed p).nnf = (do
      let l' ← l.duplicate
      let r' ← r.duplicate
      (k l' r').nnf) := by
  have hdifferent : Rule.different l r >>= nnf = (do
      let l' ← l.duplicate
      let r' ← r.duplicate
      (disj (conj l.neg r) (conj l' r'.neg)).nnf) := by
    simp only [Rule.different, bind_assoc, pure_bind]
  have hequivalent : Rule.equivalent l r >>= nnf = (do
      let l' ← l.duplicate
      let r' ← r.duplicate
      (disj (conj l r) (conj l'.neg r'.neg)).nnf) := by
    simp only [Rule.equivalent, bind_assoc, pure_bind]
  cases op with
  | not | and | or | imply => cases hx
  | xor =>
    cases p with
    | true => exact ⟨_, (nnf_subject .expandXor l r).trans hdifferent⟩
    | false => exact ⟨_, (nnf_subject .negateXor l r).trans hequivalent⟩
  | xnor =>
    cases p with
    | true => exact ⟨_, (nnf_subject .expandXnor l r).trans hequivalent⟩
    | false => exact ⟨_, (nnf_subject .negateXnor l r).trans hdifferent⟩

/-- An intact formula is normalized to the form of its sign. -/
theorem nnf_signed_of_intact {f : Formula α} (hf : f.Intact) (p : Bool) :
    (f.signed p).nnf = .ok (f.polar p) := by
  cases p with
  | true => exact result_normalize_of_intact hf false
  | false => exact result_normalize_of_intact (f := f.neg) ⟨rfl, hf⟩ false

/-! ## Single defects -/

/-- The defective node `d` at the end of the path, when there is no other one. -/
inductive SoleDefect : Formula α → List Char → Formula α → Prop
  | hole : SoleDefect hole [] hole
  | unary {op : Connective} {c : Formula α} (hop : op ≠ .not) (hc : c.Intact) :
    SoleDefect (unary op c) [] (unary op c)
  | binaryNot {l r : Formula α} (hl : l.Intact) (hr : r.Intact) :
    SoleDefect (binary .not l r) [] (binary .not l r)
  | child {c d : Formula α} {path : List Char} (h : SoleDefect c path d) :
    SoleDefect (unary .not c) ('c' :: path) d
  | lhs {op : Connective} {l r d : Formula α} {path : List Char} (hop : op ≠ .not)
    (h : SoleDefect l path d) (hr : r.Intact) : SoleDefect (binary op l r) ('l' :: path) d
  | rhs {op : Connective} {l r d : Formula α} {path : List Char} (hop : op ≠ .not)
    (hl : l.Intact) (h : SoleDefect r path d) : SoleDefect (binary op l r) ('r' :: path) d

/-- A defect to which only one path leads is the sole one. -/
theorem soleDefect_of_unique {f d : Formula α} {path : List Char} (h : f.descend path = some d)
    (hd : d.Defective) (hsole : ∀ u e, f.descend u = some e → e.Defective → u = path) :
    f.SoleDefect path d := by
  have hintact {c : Formula α} (hc : ∀ u e, c.descend u = some e → ¬ e.Defective) : c.Intact :=
    intact_iff_part.mpr fun e ⟨u, hu⟩ => hc u e hu
  fun_induction descend f path with
  | case1 f =>
    cases h
    cases d with
    | hole => exact .hole
    | const | var => exact hd.elim
    | unary op c =>
      refine .unary hd (hintact fun u e hu he => ?_)
      exact List.cons_ne_nil _ _ (hsole ('c' :: u) e hu he)
    | binary op l r =>
      cases hd
      refine .binaryNot (hintact fun u e hu he => ?_) (hintact fun u e hu he => ?_)
      · exact List.cons_ne_nil _ _ (hsole ('l' :: u) e hu he)
      · exact List.cons_ne_nil _ _ (hsole ('r' :: u) e hu he)
  | case2 op c path ih =>
    have hop : op = .not := by
      by_contra hop
      exact List.cons_ne_nil _ _ (hsole [] _ rfl hop).symm
    cases hop
    exact .child (ih h fun u e hu he => (List.cons.inj (hsole ('c' :: u) e hu he)).2)
  | case3 op l r path ih =>
    have hop : op ≠ .not := fun hop => List.cons_ne_nil _ _ (hsole [] _ rfl hop).symm
    refine .lhs hop (ih h fun u e hu he => ?_) (hintact fun u e hu he => ?_)
    · exact (List.cons.inj (hsole ('l' :: u) e hu he)).2
    · exact absurd (List.cons.inj (hsole ('r' :: u) e hu he)).1 (by decide)
  | case4 op l r path ih =>
    have hop : op ≠ .not := fun hop => List.cons_ne_nil _ _ (hsole [] _ rfl hop).symm
    refine .rhs hop (hintact fun u e hu he => ?_) (ih h fun u e hu he => ?_)
    · exact absurd (List.cons.inj (hsole ('l' :: u) e hu he)).1 (by decide)
    · exact (List.cons.inj (hsole ('r' :: u) e hu he)).2
  | case5 => cases h

/-- What a run says about a defective node below an exclusive connective, where it is copied, and
elsewhere, where it is met under an even or under an odd number of negations. -/
def defectError (copied negated : Bool) : Formula α → FormulaError
  | unary op _ => if copied then .unaryOf op else .inNegations op
  | binary _ _ _ =>
    if copied then .binaryNot else if negated then .cannotNegate .binary else .noExpansion .not
  | _ => if !copied && negated then .cannotNegate .hole else .hole

namespace SoleDefect

variable {f d : Formula α} {path : List Char}

theorem unique (h : f.SoleDefect path d) {u : List Char} {e : Formula α}
    (hu : f.descend u = some e) (he : e.Defective) : u = path := by
  have hintact {c : Formula α} (hc : c.Intact) {v : List Char} (hv : c.descend v = some e) :
      False := intact_iff_part.mp hc e ⟨v, hv⟩ he
  induction h generalizing u with
  | hole =>
    rcases u with _ | ⟨k, v⟩
    · rfl
    · simp [descend] at hu
  | unary hop hc =>
    rcases u with _ | ⟨k, v⟩
    · rfl
    · exact (hintact hc (descend_unary_cons.mp hu).2).elim
  | binaryNot hl hr =>
    rcases u with _ | ⟨k, v⟩
    · rfl
    · rcases descend_binary_cons.mp hu with ⟨-, hv⟩ | ⟨-, hv⟩
      · exact (hintact hl hv).elim
      · exact (hintact hr hv).elim
  | child h ih =>
    rcases u with _ | ⟨k, v⟩
    · cases hu
      exact absurd rfl he
    · obtain ⟨rfl, hv⟩ := descend_unary_cons.mp hu
      rw [ih hv]
  | lhs hop h hr ih =>
    rcases u with _ | ⟨k, v⟩
    · cases hu
      exact absurd he hop
    · rcases descend_binary_cons.mp hu with ⟨rfl, hv⟩ | ⟨-, hv⟩
      · rw [ih hv]
      · exact (hintact hr hv).elim
  | rhs hop hl h ih =>
    rcases u with _ | ⟨k, v⟩
    · cases hu
      exact absurd he hop
    · rcases descend_binary_cons.mp hu with ⟨-, hv⟩ | ⟨rfl, hv⟩
      · exact (hintact hl hv).elim
      · rw [ih hv]

theorem duplicate (h : f.SoleDefect path d) (negated : Bool) :
    f.duplicate = .error (d.defectError true negated) := by
  induction h with
  | hole => rfl
  | @unary op c hop hc =>
    rw [Formula.duplicate, duplicate_of_intact hc]
    exact if_neg hop
  | binaryNot hl hr =>
    rw [Formula.duplicate, duplicate_of_intact hl, duplicate_of_intact hr]
    rfl
  | child h ih => rw [Formula.duplicate, ih]; rfl
  | lhs hop h hr ih => rw [Formula.duplicate, ih]; rfl
  | rhs hop hl h ih => rw [Formula.duplicate, duplicate_of_intact hl, ih]; rfl

theorem self (h : f.SoleDefect path d) : d.SoleDefect [] d := by
  induction h with
  | hole => exact .hole
  | unary hop hc => exact .unary hop hc
  | binaryNot hl hr => exact .binaryNot hl hr
  | child h ih | lhs hop h hr ih | rhs hop hl h ih => exact ih

/-- Where the defect is met decides the error: in a copy, below an odd run of negations, or neither
of these. -/
theorem nnf (h : f.SoleDefect path d) (p : Bool) : (f.signed p).nnf =
    .error (d.defectError (f.exclusives path != 0) (f.isFlipped path == p)) := by
  have hsign : ∀ turn flipped p : Bool, (flipped == (turn != p)) = ((turn != flipped) == p) := by
    decide
  induction h generalizing p with
  | hole => rw [nnf_eq_move]; cases p <;> rfl
  | @unary op c hop hc =>
    rw [nnf_eq_move]
    cases op with
    | not => exact absurd rfl hop
    | and | or | xor | xnor | imply => cases p <;> rfl
  | binaryNot hl hr => rw [nnf_eq_move]; cases p <;> rfl
  | child h ih =>
    rw [nnf_signed_not, ih, exclusives_cons rfl, isFlipped_cons rfl, ← hsign]
    simp [Connective.isExclusive]
  | @lhs op l r d path hop h hr ih =>
    rw [exclusives_cons rfl, isFlipped_cons rfl, ← hsign]
    cases hx : op.isExclusive with
    | false =>
      obtain ⟨op', hrun⟩ := nnf_signed_binary hop hx l r p
      rw [hrun, ih]
      rfl
    | true =>
      obtain ⟨k, hrun⟩ := nnf_signed_exclusive hx l r p
      rw [hrun, h.duplicate]
      rfl
  | @rhs op l r d path hop hl h ih =>
    rw [exclusives_cons rfl, isFlipped_cons rfl, ← hsign]
    cases hx : op.isExclusive with
    | false =>
      obtain ⟨op', hrun⟩ := nnf_signed_binary hop hx l r p
      rw [hrun, nnf_signed_of_intact hl, ih]
      rfl
    | true =>
      obtain ⟨k, hrun⟩ := nnf_signed_exclusive hx l r p
      rw [hrun, duplicate_of_intact hl, h.duplicate]
      rfl

end SoleDefect

/-- If a formula has a single defective node `d`, at the end of a path, normalizing it ends with an
error. Below an exclusive connective it is that of copying `d`. Elsewhere it names the wrong
connective of a unary node; for the other two sorts of defects it depends on whether the negations
above them, with the implications they are on the left of, are even or odd in number. -/
theorem toNnf_sole_defect [Named α] {f d : Formula α} {path : List Char}
    (hpart : f.descend path = some d) (hd : d.Defective)
    (hsole : ∀ u e, f.descend u = some e → e.Defective → u = path) {level : Level}
    (hl : level ≠ .debug) :
    ∃ e, (f.toNnf level).result = .error e ∧
      (1 ≤ f.exclusives path → d.duplicate = .error e ∧ (d = hole → e = .hole) ∧
        (∀ op c, d = unary op c → e = .unaryOf op ∧
          e.message = "Unary node carries " ++ op.name ++ ", expected NOT") ∧
        ∀ op l r, d = binary op l r → e = .binaryNot ∧
          e.message = "Binary node cannot carry NOT") ∧
      (f.exclusives path = 0 →
        (∀ op c, d = unary op c → e = .inNegations op ∧
          e.message = "Unary node carries " ++ op.name) ∧
        (f.flips path % 2 = 0 → (d = hole → e = .hole) ∧
          ∀ op l r, d = binary op l r → e = .noExpansion .not ∧
            e.message = "No NNF expansion for binary NOT") ∧
        (f.flips path % 2 = 1 →
          (d = hole → e = .cannotNegate .hole ∧ e.message = "Cannot negate Node node") ∧
          ∀ op l r, d = binary op l r → e = .cannotNegate .binary ∧
            e.message = "Cannot negate BinaryExpr node")) := by
  have hf := soleDefect_of_unique hpart hd hsole
  have hrun := hf.nnf true
  rw [beq_true] at hrun
  refine ⟨d.defectError (f.exclusives path != 0) (f.isFlipped path), ?_, fun hk => ?_,
    fun hk => ?_⟩
  · rw [result_toNnf, beq_eq_false_iff_ne.mpr hl]
    exact hrun
  · rw [bne_iff_ne.mpr (Nat.ne_of_gt hk)]
    refine ⟨hf.self.duplicate _, ?_, ?_, ?_⟩
    · rintro rfl
      rfl
    · rintro op c rfl
      exact ⟨rfl, rfl⟩
    · rintro op l r rfl
      exact ⟨rfl, rfl⟩
  · rw [hk]
    refine ⟨?_, fun hn => ?_, fun hn => ?_⟩
    · rintro op c rfl
      exact ⟨rfl, rfl⟩
    · rw [isFlipped, hn]
      refine ⟨?_, ?_⟩
      · rintro rfl
        rfl
      · rintro op l r rfl
        exact ⟨rfl, rfl⟩
    · rw [isFlipped, hn]
      refine ⟨?_, ?_⟩
      · rintro rfl
        exact ⟨rfl, rfl⟩
      · rintro op l r rfl
        exact ⟨rfl, rfl⟩

/-- A hole that comes to be negated, and a unary node of AND in an operand of XOR. -/
theorem toNnf_sole_defect_negated_hole_and_copied_unary :
    (let f : Formula String := (conj (var "A") hole).neg
     f.descend ['c', 'r'] = some hole ∧ (hole : Formula String).Defective ∧
      (∀ u e, f.descend u = some e → e.Defective → u = ['c', 'r']) ∧ Level.info ≠ .debug ∧
      (f.toNnf .info).result = .error (.cannotNegate .hole)) ∧
    (let d : Formula String := unary .and (var "A")
     let f := binary .imply (binary .xor d (var "B")).neg (const true)
     f.descend ['l', 'c', 'l'] = some d ∧ d.Defective ∧
      (∀ u e, f.descend u = some e → e.Defective → u = ['l', 'c', 'l']) ∧ Level.error ≠ .debug ∧
      (f.toNnf .error).result = .error (.unaryOf .and)) := by
  refine ⟨?_, ?_⟩
  · intro f
    have hf : f.SoleDefect ['c', 'r'] hole := .child (.rhs (by decide) trivial .hole)
    have hsole : ∀ u e, f.descend u = some e → e.Defective → u = ['c', 'r'] :=
      fun u e => hf.unique
    have hd : (hole : Formula String).Defective := trivial
    have hinfo : Level.info ≠ .debug := by decide
    obtain ⟨e, hresult, -, hk⟩ := toNnf_sole_defect (f := f) rfl hd hsole hinfo
    obtain ⟨-, -, hodd⟩ := hk rfl
    obtain ⟨rfl, -⟩ := (hodd rfl).1 rfl
    exact ⟨rfl, hd, hsole, hinfo, hresult⟩
  · intro d f
    have hd : d.Defective := nofun
    have hf : f.SoleDefect ['l', 'c', 'l'] d :=
      .lhs (by decide) (.child (.lhs (by decide) (.unary (by decide) trivial) trivial)) trivial
    have hsole : ∀ u e, f.descend u = some e → e.Defective → u = ['l', 'c', 'l'] :=
      fun u e => hf.unique
    have herror : Level.error ≠ .debug := by decide
    obtain ⟨e, hresult, hk, -⟩ := toNnf_sole_defect (f := f) rfl hd hsole herror
    obtain ⟨-, -, hunary, -⟩ := hk (by decide)
    obtain ⟨rfl, -⟩ := hunary .and _ rfl
    exact ⟨rfl, hd, hsole, herror, hresult⟩

end Formula
end PolishLogic
