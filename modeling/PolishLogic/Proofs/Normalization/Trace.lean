import Mathlib.Algebra.BigOperators.Ring.List
import Mathlib.Algebra.Ring.Nat
import PolishLogic.Proofs.Formula.Ancestors
import PolishLogic.Proofs.Normalization.Relabel
import PolishLogic.Proofs.Reading.RoundTrip

/-! # The rewrites of a run

What a traced run on an intact formula logs (`Traces`). Each entry is made by a move, so both of
its sides can be written and read again and have one value (`Traces.sound`). The number of entries
is told by what stands above the binary nodes of the formula (`Traces.length_eq`): `rewriteCount`
falls by one with each rewrite and by none with any other move. There are no rewrites at all
exactly when normalization comes to erasing pairs of negations (`Tree.rewrites_of_parse`). -/

namespace PolishLogic

theorem Logged.log_bind_of_ok {μ ε α β : Type} {x : Logged μ ε α} {a : α}
    (h : x.result = .ok a) (f : α → Logged μ ε β) : (x >>= f).log = x.log ++ (f a).log := by
  obtain ⟨log, result⟩ := x
  cases h
  rfl

namespace Formula

variable {α β : Type}

/-- The entries of the log of a run, move by move. -/
inductive Traces : Formula α → List (Rewrite α) → Prop
  | stop {f g : Formula α} (h : f.move = .stop g) : Traces f []
  | keep {f l r : Formula α} {op : Connective} {us vs : List (Rewrite α)}
    (h : f.move = .keep op l r) (hl : Traces l us) (hr : Traces r vs) : Traces f (us ++ vs)
  | drop {f g : Formula α} {rs : List (Rewrite α)} (h : f.move = .drop g) (hg : Traces g rs) :
    Traces f rs
  | rewrite {f g : Formula α} {rule : Rule} {before after : List (Symbol α)}
    {rs : List (Rewrite α)} (h : f.move = .rewrite rule g) (hbefore : f.word = .ok before)
    (hafter : g.word = .ok after) (hg : Traces g rs) : Traces f (⟨rule, before, after⟩ :: rs)

/-- The log of a traced run traces the formula; the induction is on the formulas visited. -/
theorem traces_log_normalize {f : Formula α} (hf : f.Intact) :
    f.Traces (f.normalize true).log := by
  induction f using visits_wellFounded.induction with
  | _ f ih =>
    cases hm : f.move with
    | stop g =>
      rw [normalize_of_stop hm]
      exact .stop hm
    | fail e => exact absurd (faults_of_move_fail hm) (not_faults_of_intact hf)
    | keep op l r =>
      have hl := Visits.intact (.lhs hm) hf
      have hr := Visits.intact (.rhs hm) hf
      rw [normalize_of_keep hm, Logged.log_bind_of_ok (result_normalize_of_intact hl true),
        Logged.log_bind_of_ok (result_normalize_of_intact hr true)]
      show f.Traces ((l.normalize true).log ++ ((r.normalize true).log ++ []))
      rw [List.append_nil]
      exact .keep hm (ih l (.lhs hm) hl) (ih r (.rhs hm) hr)
    | drop g =>
      rw [normalize_of_drop hm]
      exact .drop hm (ih g (.drop hm) (Visits.intact (.drop hm) hf))
    | rewrite rule g =>
      have hg := Visits.intact (.rewrite hm) hf
      obtain ⟨before, hbefore⟩ := exists_word_of_intact hf
      obtain ⟨after, hafter⟩ := exists_word_of_intact hg
      have hlog : logRewrite true rule f g = .emit ⟨rule, before, after⟩ := by
        rw [logRewrite, if_pos rfl, hbefore, hafter]
        rfl
      rw [normalize_of_rewrite hm, hlog]
      exact .rewrite hm hbefore hafter (ih g (.rewrite hm) hg)

/-- Each entry is about two intact formulas of one value. -/
theorem Traces.sound {f : Formula α} {rs : List (Rewrite α)} (h : f.Traces rs) (hf : f.Intact)
    {entry : Rewrite α} (hentry : entry ∈ rs) : ∃ b a : Formula α, b.Intact ∧ a.Intact ∧
      b.word = .ok entry.before ∧ a.word = .ok entry.after ∧
        ∀ v : α → Bool, b.eval v = a.eval v := by
  induction h with
  | stop => cases hentry
  | keep hm hl hr ihl ihr =>
    rcases List.mem_append.mp hentry with hentry | hentry
    · exact ihl (Visits.intact (.lhs hm) hf) hentry
    · exact ihr (Visits.intact (.rhs hm) hf) hentry
  | drop hm hg ih => exact ih (Visits.intact (.drop hm) hf) hentry
  | @rewrite f g rule before after rs hm hbefore hafter hg ih =>
    have hgi := Visits.intact (.rewrite hm) hf
    rcases List.mem_cons.mp hentry with rfl | hentry
    · exact ⟨f, g, hf, hgi, hbefore, hafter,
        fun v => ((continues_of_move_rewrite hm).eval hf v).symm⟩
    · exact ih hgi hentry

/-! ## The number of rewrites -/

/-- How many rewrites the node at the end of a path accounts for when the formula is normalized
with polarity `p`: one at each copy of a binary node, but with a conjunction or disjunction only at
those that are negated, which are half of them below exclusive connectives. -/
def rewritesAt (f : Formula α) (p : Bool) (path : List Char) : Nat :=
  match f.descend path with
  | some (binary op _ _) =>
    if op.isMonotone then
      if f.exclusives path = 0 then if f.isFlipped path = p then 1 else 0
      else 2 ^ (f.exclusives path - 1)
    else 2 ^ f.exclusives path
  | _ => 0

/-- The number of rules that are applied to come to a form of the formula. -/
def rewriteCount (f : Formula α) (p : Bool) : Nat := (f.paths.map (f.rewritesAt p)).sum

section cons

variable {f c : Formula α} {op : Connective} {step : Char} {path : List Char}

theorem rewritesAt_cons (hc : f.descend (step :: path) = c.descend path)
    (h : f.ancestors (step :: path) = (op, step) :: c.ancestors path) (p : Bool) :
    f.rewritesAt p (step :: path) = op.spread step p fun q => c.rewritesAt q path := by
  have hturn : ∀ a b q : Bool, ((a != b) = q) = (b = (a != q)) := by decide
  simp only [rewritesAt, hc, exclusives_cons h, isFlipped_cons h, hturn]
  cases c.descend path with
  | none => exact (op.spread_const_zero step p).symm
  | some d =>
    cases d with
    | hole | const | var | unary => exact (op.spread_const_zero step p).symm
    | binary op' l r =>
      simp only [Connective.spread]
      cases op.isExclusive with
      | false => rfl
      | true =>
        cases op'.isMonotone with
        | false => exact Nat.pow_succ'.trans (Nat.two_mul _)
        | true =>
          cases c.exclusives path with
          | zero => cases c.isFlipped path <;> rfl
          | succ k => exact Nat.pow_succ'.trans (Nat.two_mul _)

end cons

/-- Within an operand as many rules are applied as for the forms that its node asks for. -/
theorem sum_rewritesAt (op : Connective) (step : Char) (p : Bool) (c : Formula α) :
    (c.paths.map fun path => op.spread step p fun q => c.rewritesAt q path).sum =
      op.spread step p c.rewriteCount := by
  unfold Connective.spread rewriteCount
  cases op.isExclusive with
  | false => rfl
  | true => exact List.sum_map_add

theorem rewriteCount_not (c : Formula α) (p : Bool) :
    (unary .not c).rewriteCount p = c.rewriteCount !p := by
  have hbelow : ∀ path, (unary .not c).rewritesAt p ('c' :: path) = c.rewritesAt (!p) path :=
    fun path => (rewritesAt_cons rfl rfl p).trans (by cases p <;> rfl)
  rw [rewriteCount, paths, List.map_cons, List.sum_cons, List.map_map]
  simp only [Function.comp_def, hbelow]
  exact Nat.zero_add _

/-- One rule for the node, unless it is kept, and those for the operands. -/
theorem rewriteCount_binary (op : Connective) (l r : Formula α) (p : Bool) :
    (binary op l r).rewriteCount p =
      (if op.isMonotone && p then 0 else 1) + op.spread 'l' p l.rewriteCount +
        op.spread 'r' p r.rewriteCount := by
  have hroot : (binary op l r).rewritesAt p [] = if op.isMonotone && p then 0 else 1 := by
    cases op <;> cases p <;> rfl
  have hl : ∀ path, (binary op l r).rewritesAt p ('l' :: path) =
      op.spread 'l' p fun q => l.rewritesAt q path := fun path => rewritesAt_cons rfl rfl p
  have hr : ∀ path, (binary op l r).rewritesAt p ('r' :: path) =
      op.spread 'r' p fun q => r.rewritesAt q path := fun path => rewritesAt_cons rfl rfl p
  rw [rewriteCount, paths, List.map_cons, List.sum_cons, List.map_append, List.sum_append,
    List.map_map, List.map_map, hroot, ← sum_rewritesAt, ← sum_rewritesAt, Nat.add_assoc]
  simp only [Function.comp_def, hl, hr]

theorem rewriteCount_of_isMonotone {op : Connective} (hop : op.isMonotone = true)
    (l r : Formula α) :
    (binary op l r).rewriteCount true = l.rewriteCount true + r.rewriteCount true := by
  rw [rewriteCount_binary]
  cases op with
  | and | or => simp [Connective.spread, Connective.isExclusive, Connective.isMonotone]
  | not | xor | xnor | imply => cases hop

theorem rewriteCount_binary_eq_zero_iff {op : Connective} {l r : Formula α} {p : Bool} :
    (binary op l r).rewriteCount p = 0 ↔
      p = true ∧ op.isMonotone = true ∧ l.rewriteCount true = 0 ∧ r.rewriteCount true = 0 := by
  cases hroot : op.isMonotone && p with
  | true =>
    rw [Bool.and_eq_true] at hroot
    obtain ⟨hop, rfl⟩ := hroot
    rw [rewriteCount_of_isMonotone hop, Nat.add_eq_zero_iff]
    simp only [hop, true_and]
  | false =>
    rw [rewriteCount_binary, hroot]
    refine iff_of_false (by simp) ?_
    rintro ⟨rfl, hop, -, -⟩
    rw [hop] at hroot
    cases hroot

theorem rewriteCount_of_isAtom {f : Formula α} (ha : f.isAtom = true) (p : Bool) :
    f.rewriteCount p = 0 := by
  cases f with
  | hole | unary | binary => cases ha
  | const | var => rfl

/-- A rule accounts for one rewrite and leaves all others to what it makes. -/
theorem rewriteCount_subject (rule : Rule) (l r : Formula α) :
    (rule.subject l r).rewriteCount true = (rule.image l r).rewriteCount true + 1 := by
  cases rule <;>
    simp [Rule.subject, Rule.image, neg, conj, disj, rewriteCount_not, rewriteCount_binary,
      Connective.spread, Connective.isExclusive, Connective.isMonotone] <;> omega

/-- There is one entry in the log for each rule that is applied. -/
theorem Traces.length_eq {f : Formula α} {rs : List (Rewrite α)} (h : f.Traces rs) :
    rs.length = f.rewriteCount true := by
  -- Runs of negations at the root are told apart by parity alone, by moves and by the count.
  induction h with
  | stop hm =>
    cases takes_of_move hm with
    | atom ha => exact (rewriteCount_of_isAtom ha true).symm
    | literal hs ha =>
      rw [eq_of_stripNot rewriteCount_not hs, rewriteCount_of_isAtom ha]
      rfl
  | keep hm hl hr ihl ihr =>
    obtain ⟨rfl, hop⟩ := eq_of_move_keep hm
    rw [List.length_append, ihl, ihr, rewriteCount_of_isMonotone hop]
  | drop hm hg ih =>
    cases takes_of_move hm with
    | drop hs => rw [ih, eq_of_stripNot rewriteCount_not hs]; rfl
  | rewrite hm hbefore hafter hg ih =>
    cases takes_of_move hm with
    | rewrite hs hg =>
      rw [eq_of_stripNot_eq rewriteCount_not hs, rewriteCount_subject, List.length_cons, ih,
        Rule.eq_image_of_apply hg]

/-! ## Runs without rewrites -/

/-- The formula without the pairs of negations of which one stands immediately above the other. -/
def erasePairs : Formula α → Formula α
  | unary .not (unary .not c) => c.erasePairs
  | unary op c => unary op c.erasePairs
  | binary op l r => binary op l.erasePairs r.erasePairs
  | f => f

theorem erasePairs_signed_not (c : Formula α) (p : Bool) :
    ((unary .not c).signed p).erasePairs = (c.signed !p).erasePairs := by
  cases p <;> rfl

/-- Where no rule is applied nothing changes but the double negations. -/
theorem polar_of_rewriteCount {f : Formula α} (hf : f.Intact) {p : Bool}
    (h : f.rewriteCount p = 0) : f.polar p = (f.signed p).erasePairs := by
  induction f generalizing p with
  | hole => exact hf.elim
  | const | var => cases p <;> rfl
  | unary op c ih =>
    obtain ⟨rfl, hc⟩ := hf
    rw [rewriteCount_not] at h
    rw [erasePairs_signed_not, ← ih hc h]
    rfl
  | binary op l r ihl ihr =>
    obtain ⟨hop, hl, hr⟩ := hf
    obtain ⟨rfl, hmono, hcl, hcr⟩ := rewriteCount_binary_eq_zero_iff.mp h
    have hlp : l.polar true = l.erasePairs := ihl hl hcl
    have hrp : r.polar true = r.erasePairs := ihr hr hcr
    show _ = binary op l.erasePairs r.erasePairs
    cases op with
    | and | or => rw [polar, hlp, hrp]; rfl
    | not | xor | xnor | imply => cases hmono

theorem rewriteCount_of_erasePairs {f : Formula α} (hf : f.Intact) {p : Bool}
    (h : (f.signed p).erasePairs.isNnf = true) : f.rewriteCount p = 0 := by
  induction f generalizing p with
  | hole => exact hf.elim
  | const | var => rfl
  | unary op c ih =>
    obtain ⟨rfl, hc⟩ := hf
    rw [erasePairs_signed_not] at h
    rw [rewriteCount_not]
    exact ih hc h
  | binary op l r ihl ihr =>
    cases p with
    | false =>
      have hnegated := (isNnf_unary .not (binary op l r).erasePairs).symm.trans h
      cases hnegated
    | true =>
      have hkept := (isNnf_binary op l.erasePairs r.erasePairs).symm.trans h
      simp only [Bool.and_eq_true] at hkept
      obtain ⟨⟨hmono, hnl⟩, hnr⟩ := hkept
      exact rewriteCount_binary_eq_zero_iff.mpr
        ⟨rfl, hmono, ihl hf.2.1 hnl, ihr hf.2.2 hnr⟩

/-- No rule is applied exactly if nothing changes but double negations. -/
theorem rewriteCount_eq_zero_iff [Named α] {f : Formula α} (hf : f.Intact) :
    f.rewriteCount true = 0 ↔ (f.polar true).alike f.erasePairs = true := by
  constructor
  · intro h
    have hpolar : f.polar true = f.erasePairs := polar_of_rewriteCount hf h
    rw [hpolar, alike, beq_self_eq_true]
  · intro h
    have hnormal := normal_of_alike h (normal_polar f true)
    exact rewriteCount_of_erasePairs (p := true) hf (normal_iff_isNnf.mp hnormal)

/-! ## Texts of rewrites -/

theorem log_normalize_map (g : α → β) (f : Formula α) (traced : Bool) :
    ((f.map g).normalize traced).log = (f.normalize traced).log.map (Rewrite.map g) := by
  rw [normalize_map, Logged.map_eq]
  rfl

end Formula

/-- A rewrite as it is written in a line of the log. -/
structure RewriteLine where
  rule : Rule
  before : String
  after : String
  deriving DecidableEq, Repr

/-- Both sides of the line are texts that can be read, and what is read has one value under every
assignment of values to names. -/
def RewriteLine.Sound (line : RewriteLine) : Prop :=
  ∀ (level : Level) (store store' : Store), ∃ b a final final',
    (Tree.parse level store (.text line.before)).result = .ok (b, final) ∧
      (Tree.parse level store' (.text line.after)).result = .ok (a, final') ∧
        ∀ v : String → Bool, b.root.eval (v ∘ Named.name) = a.root.eval (v ∘ Named.name)

namespace Rewrite

variable {α : Type} [Named α]

def line (entry : Rewrite α) : RewriteLine :=
  ⟨entry.rule, Symbol.spell entry.before, Symbol.spell entry.after⟩

theorem line_map_name (entry : Rewrite α) : (entry.map Named.name).line = entry.line := by
  unfold line map
  rw [Formula.spell_map_name, Formula.spell_map_name]

/-- Only the names of the leaves can be seen in the lines of a run. -/
theorem lines_map_name (f : Formula α) (traced : Bool) :
    ((f.map Named.name).normalize traced).log.map line = (f.normalize traced).log.map line := by
  rw [Formula.log_normalize_map, List.map_map]
  exact List.map_congr_left fun entry _ => entry.line_map_name

/-- A line is sound if its sides are the texts of formulas with one truth value. -/
theorem sound_line_of_word {entry : Rewrite Letter} {b a : Formula Letter} (hb : b.Intact)
    (ha : a.Intact) (hbefore : b.word = .ok entry.before) (hafter : a.word = .ok entry.after)
    (hvalue : ∀ v : Letter → Bool, b.eval v = a.eval v) : entry.line.Sound := by
  have read {f : Formula Letter} {w : List (Symbol Letter)} (hf : f.Intact)
      (hw : f.word = .ok w) : Source.read (.text (Symbol.spell w)) = .ok f :=
    Formula.ofText?_eq_ok.mpr ⟨hf, Formula.render_eq_ok.mpr ⟨w, Formula.word_eq_ok.mp hw, rfl⟩⟩
  intro level store store'
  obtain ⟨s, final, hs, hsname⟩ := Tree.exists_parse (read hb hbefore) level store
  obtain ⟨t, final', ht, htname⟩ := Tree.exists_parse (read ha hafter) level store'
  refine ⟨s, t, final, final', hs, ht, fun v => ?_⟩
  rw [← Formula.eval_map, hsname, Formula.eval_map, hvalue, ← Formula.eval_map, ← htname,
    Formula.eval_map]

end Rewrite

/-- What is logged about a conversion: the kinds of both roots, and between them a line for each
rewrite with the name of the rule and the texts on its sides. -/
theorem Formula.log_toNnf_of_intact {α : Type} [Named α] {f : Formula α} (hf : f.Intact) :
    (f.toNnf .debug).log = ("Starting NNF transformation of " ++ f.kind.label) ::
      ((f.normalize true).log.map Rewrite.line).map
        (fun line =>
          "    🔁 " ++ line.rule.name ++ ": " ++ line.before ++ " → " ++ line.after) ++
        ["NNF transformation complete: " ++ (f.polar true).kind.label] := by
  have hresult : ((f.normalize true).mapLog Rewrite.message).result = .ok (f.polar true) :=
    result_normalize_of_intact hf true
  rw [List.map_map]
  show _ :: (((f.normalize true).mapLog Rewrite.message) >>= _).log = _
  rw [Logged.log_bind_of_ok hresult]
  rfl

namespace Tree

/-- The lines that a conversion logs between its first and its last one name a rule and two texts
of one value, and the binary nodes of the tree that is converted tell how many there are: below
`k` exclusive connectives, a node that has to be expanded accounts for `2 ^ k` of them, and one
that is kept accounts for half as many or, if `k` is zero, for one when it is negated. -/
theorem rewrites_of_parse {level : Level} {store final : Store} {text : String} {t : Tree}
    (h : (parse level store (.text text)).result = .ok (t, final)) :
    ∃ (g : Formula Variable) (lines : List RewriteLine),
      (t.root.toNnf .debug).result = .ok g ∧
      (t.root.toNnf .debug).log = ("Starting NNF transformation of " ++ t.root.kind.label) ::
        lines.map (fun line =>
          "    🔁 " ++ line.rule.name ++ ": " ++ line.before ++ " → " ++ line.after) ++
        ["NNF transformation complete: " ++ g.kind.label] ∧
      (∀ line ∈ lines, line.Sound) ∧
      (t.root.paths.Nodup ∧
        ∀ path, path ∈ t.root.paths ↔ ∃ m, t.root.descend path = some m) ∧
      lines.length = (t.root.paths.map (t.root.rewritesAt true)).sum ∧
      (lines = [] ↔ g.alike t.root.erasePairs = true) := by
  have hroot := intact_of_parse h
  have hlength : ((t.root.normalize true).log.map Rewrite.line).length =
      t.root.rewriteCount true := by
    rw [List.length_map, (Formula.traces_log_normalize hroot).length_eq]
  refine ⟨t.root.polar true, (t.root.normalize true).log.map Rewrite.line,
    Formula.result_toNnf_of_intact hroot _, Formula.log_toNnf_of_intact hroot,
    fun line hline => ?_, ⟨t.root.nodup_paths, fun _ => Formula.mem_paths⟩, hlength, ?_⟩
  · obtain ⟨f, hread, hname⟩ := exists_read_of_parse h
    have hf := Source.intact_of_read hread
    -- The run on the formula over letters has the same lines.
    rw [← Rewrite.lines_map_name, hname, Rewrite.lines_map_name] at hline
    obtain ⟨entry, hentry, rfl⟩ := List.mem_map.mp hline
    obtain ⟨b, a, hb, ha, hbefore, hafter, hvalue⟩ :=
      (Formula.traces_log_normalize hf).sound hf hentry
    exact Rewrite.sound_line_of_word hb ha hbefore hafter hvalue
  · rw [← List.length_eq_zero_iff, hlength]
    exact Formula.rewriteCount_eq_zero_iff hroot

/-- Three rewrites: the implication is expanded, the exclusive disjunction under a negation is
rewritten, and the conjunction is negated in one of its two copies. -/
theorem rewrites_of_parse_negated_xor :
    let f : Formula Letter := .binary .imply
      (Formula.binary .xor (.conj (.var ⟨0⟩) (.var ⟨1⟩)) (Formula.var ⟨2⟩).neg.neg).neg (.var ⟨3⟩)
    let (t, final) := ofFormula f .empty
    (parse .info .empty (.text "AB&C!!^!D>")).result = .ok (t, final) ∧
      ∃ (g : Formula Variable) (lines : List RewriteLine),
        (t.root.toNnf .debug).result = .ok g ∧
        (t.root.toNnf .debug).log = ("Starting NNF transformation of " ++ t.root.kind.label) ::
          lines.map (fun line =>
            "    🔁 " ++ line.rule.name ++ ": " ++ line.before ++ " → " ++ line.after) ++
          ["NNF transformation complete: " ++ g.kind.label] ∧
        (∀ line ∈ lines, line.Sound) ∧ lines.length = 3 := by
  have hparse : (parse .info .empty (.text "AB&C!!^!D>")).result = .ok (ofFormula
      (.binary .imply (Formula.binary .xor (.conj (.var ⟨0⟩) (.var ⟨1⟩))
        (Formula.var ⟨2⟩).neg.neg).neg (.var ⟨3⟩)) .empty) := rfl
  obtain ⟨g, lines, hresult, hlog, hsound, -, hlength, -⟩ := rewrites_of_parse hparse
  exact ⟨hparse, g, lines, hresult, hlog, hsound, hlength⟩

end Tree
end PolishLogic
