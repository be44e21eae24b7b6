import PolishLogic.Conversion
import PolishLogic.Proofs.Formula.Word
import PolishLogic.Proofs.Normalization.Run

/-! # Relabelling

No operation looks at the variables of a formula: to relabel them before is the same as to
relabel them in what comes of it. This holds of copies (`Formula.duplicate_map`), of the moves of
normalization (`Formula.move_map`) and of its runs with their logs (`Formula.normalize_map`). So
formulas that are alike are converted alike and with one log (`Formula.related_toNnf`). -/

namespace Except

variable {ε α β γ : Type}

/-- The two end alike: with the same error, or with results that are related. -/
inductive Related (R : α → β → Prop) : Except ε α → Except ε β → Prop
  | error (e : ε) : Related R (.error e) (.error e)
  | ok {a : α} {b : β} (h : R a b) : Related R (.ok a) (.ok b)

theorem related_of_map_eq {f : α → γ} {g : β → γ} {R : α → β → Prop}
    (hR : ∀ {a b}, f a = g b → R a b) {x : Except ε α} {y : Except ε β}
    (h : x.map f = y.map g) : Related R x y := by
  cases x with
  | error e =>
    cases y with
    | error e' => cases h; exact .error e
    | ok b => cases h
  | ok a =>
    cases y with
    | error e => cases h
    | ok b => exact .ok (hR (Except.ok.inj h))

end Except

namespace PolishLogic

namespace Logged

variable {μ ν ξ ε α β : Type}

theorem mapLog_bind (g : μ → ν) (x : Logged μ ε α) (f : α → Logged μ ε β) :
    (x >>= f).mapLog g = x.mapLog g >>= fun a => (f a).mapLog g := by
  obtain ⟨log, e | a⟩ := x
  · rfl
  · show (⟨(log ++ (f a).log).map g, (f a).result⟩ : Logged ν ε β) = _
    rw [List.map_append]
    rfl

theorem mapLog_map (g : μ → ν) (f : α → β) (x : Logged μ ε α) :
    (f <$> x).mapLog g = f <$> x.mapLog g := by
  rw [← bind_pure_comp, ← bind_pure_comp, mapLog_bind]
  rfl

theorem map_eq (f : α → β) (x : Logged μ ε α) : f <$> x = ⟨x.log, x.result.map f⟩ := by
  obtain ⟨log, e | a⟩ := x
  · rfl
  · show (⟨log ++ [], .ok (f a)⟩ : Logged μ ε β) = _
    rw [List.append_nil]
    rfl

theorem mapLog_mapLog (g : μ → ν) (h : ν → ξ) (x : Logged μ ε α) :
    (x.mapLog g).mapLog h = x.mapLog (h ∘ g) := by
  simp only [mapLog, List.map_map]

end Logged

variable {α β : Type}

/-- Relabels both sides of an entry of the log. -/
def Rewrite.map (g : α → β) (r : Rewrite α) : Rewrite β :=
  ⟨r.rule, r.before.map (Symbol.map g), r.after.map (Symbol.map g)⟩

theorem Rewrite.message_map_name [Named α] (r : Rewrite α) :
    (r.map Named.name).message = r.message := by
  unfold message map
  rw [Formula.spell_map_name, Formula.spell_map_name]

def Move.map (g : α → β) : Move α → Move β
  | .stop f => .stop (f.map g)
  | .fail e => .fail e
  | .keep op l r => .keep op (l.map g) (r.map g)
  | .drop f => .drop (f.map g)
  | .rewrite rule f => .rewrite rule (f.map g)

namespace Formula

theorem word_map (g : α → β) (f : Formula α) :
    (f.map g).word = f.word.map (List.map (Symbol.map g)) := by
  unfold word
  rw [postorder_map]
  cases f.postorder <;> rfl

theorem duplicate_map (g : α → β) (f : Formula α) :
    (f.map g).duplicate = f.duplicate.map (map g) := by
  induction f with
  | hole | const | var => rfl
  | unary op c ih =>
    rw [map, duplicate, duplicate, ih]
    cases c.duplicate with
    | error e => rfl
    | ok c => cases op <;> rfl
  | binary op l r ihl ihr =>
    rw [map, duplicate, duplicate, ihl, ihr]
    cases l.duplicate with
    | error e => rfl
    | ok l =>
      cases r.duplicate with
      | error e => rfl
      | ok r => cases op <;> rfl

end Formula

/-- Rules do not look at variables. -/
theorem Rule.apply_map (g : α → β) (rule : Rule) (l r : Formula α) :
    rule.apply (l.map g) (r.map g) = (rule.apply l r).map (Formula.map g) := by
  cases rule with
  | expandImply | negateAnd | negateOr | negateImply => rfl
  | expandXor | expandXnor | negateXor | negateXnor =>
    simp only [apply, different, equivalent, Formula.duplicate_map]
    cases l.duplicate with
    | error e => rfl
    | ok l' => cases r.duplicate <;> rfl

namespace Formula

theorem stripNot_map (g : α → β) (f : Formula α) :
    (f.map g).stripNot = f.stripNot.map fun p => (p.1, p.2.map g) := by
  induction f with
  | hole | const | var | binary => rfl
  | unary op c ih =>
    cases op with
    | not =>
      show (c.map g).neg.stripNot = (c.neg.stripNot).map _
      rw [stripNot_neg, stripNot_neg, ih]
      cases c.stripNot <;> rfl
    | and | or | xor | xnor | imply => rfl

theorem applying_map (g : α → β) (rule : Rule) (l r : Formula α) :
    applying rule (l.map g) (r.map g) = (applying rule l r).map g := by
  unfold applying
  rw [Rule.apply_map]
  cases rule.apply l r <;> rfl

theorem negatedMove_map (g : α → β) (f : Formula α) :
    (f.map g).negatedMove = f.negatedMove.map g := by
  cases f with
  | hole | const | var | unary => rfl
  | binary op l r =>
    rw [map, negatedMove, negatedMove]
    cases Rule.negation? op with
    | none => rfl
    | some rule => exact applying_map g rule l r

theorem move_map (g : α → β) (f : Formula α) : (f.map g).move = f.move.map g := by
  cases f with
  | hole | const | var => rfl
  | unary op c =>
    have hstrip := stripNot_map g (unary op c)
    rw [map] at hstrip ⊢
    rw [move, move, hstrip]
    cases (unary op c).stripNot with
    | error e => rfl
    | ok p =>
      obtain ⟨odd, core⟩ := p
      cases odd with
      | false => rfl
      | true => exact negatedMove_map g core
  | binary op l r =>
    rw [map, move, move]
    cases op.isMonotone with
    | true => rfl
    | false =>
      cases Rule.expansion? op with
      | none => rfl
      | some rule => exact applying_map g rule l r

theorem logRewrite_map (g : α → β) (traced : Bool) (rule : Rule) (f f' : Formula α) :
    logRewrite traced rule (f.map g) (f'.map g) =
      (logRewrite traced rule f f').mapLog (Rewrite.map g) := by
  unfold logRewrite
  cases traced with
  | false => rfl
  | true =>
    simp only [if_true, word_map]
    cases f.word with
    | error e => rfl
    | ok v => cases f'.word <;> rfl

/-- A run on a formula with other variables is the same run with other variables, the entries of
its log included. -/
theorem normalize_map (g : α → β) (f : Formula α) (traced : Bool) :
    (f.map g).normalize traced = map g <$> (f.normalize traced).mapLog (Rewrite.map g) := by
  induction f using visits_wellFounded.induction with
  | _ f ih =>
    have hmove := move_map g f
    cases hm : f.move with
    | stop f' =>
      rw [hm] at hmove
      rw [normalize_of_stop hm, normalize_of_stop hmove]
      rfl
    | fail e =>
      rw [hm] at hmove
      rw [normalize_of_fail hm, normalize_of_fail hmove]
      rfl
    | keep op l r =>
      rw [hm] at hmove
      rw [normalize_of_keep hm, normalize_of_keep hmove, ih l (.lhs hm), ih r (.rhs hm)]
      simp only [Logged.mapLog_bind, map_bind, bind_map_left]
      rfl
    | drop f' =>
      rw [hm] at hmove
      rw [normalize_of_drop hm, normalize_of_drop hmove, ih f' (.drop hm)]
    | rewrite rule f' =>
      rw [hm] at hmove
      rw [normalize_of_rewrite hm, normalize_of_rewrite hmove, ih f' (.rewrite hm),
        logRewrite_map, Logged.mapLog_bind, map_bind]

theorem toNnf_map_name [Named α] (f : Formula α) (level : Level) :
    (f.map Named.name).toNnf level = map Named.name <$> f.toNnf level := by
  have hmessage : Rewrite.message ∘ Rewrite.map Named.name = (Rewrite.message : Rewrite α → _) :=
    funext Rewrite.message_map_name
  unfold toNnf
  rw [normalize_map, kind_map, Logged.mapLog_map, Logged.mapLog_mapLog, hmessage]
  simp only [map_bind, bind_map_left, kind_map]
  rfl

section alike

variable [Named α] [Named β] {f : Formula α} {g : Formula β}

theorem alike_iff : f.alike g = true ↔ f.map Named.name = g.map Named.name := beq_iff_eq

theorem related_duplicate (h : f.alike g = true) :
    Except.Related (fun f g => f.alike g = true) f.duplicate g.duplicate := by
  apply Except.related_of_map_eq alike_iff.mpr
  rw [← duplicate_map, ← duplicate_map, alike_iff.mp h]

/-- Formulas that are alike have the same log, and alike normal forms or the same error. -/
theorem related_toNnf (h : f.alike g = true) (level : Level) :
    (f.toNnf level).log = (g.toNnf level).log ∧
      Except.Related (fun f g => f.alike g = true) (f.toNnf level).result
        (g.toNnf level).result := by
  have hrun : map Named.name <$> f.toNnf level = map Named.name <$> g.toNnf level := by
    rw [← toNnf_map_name, ← toNnf_map_name, alike_iff.mp h]
  rw [Logged.map_eq, Logged.map_eq] at hrun
  obtain ⟨hlog, hresult⟩ := Logged.mk.inj hrun
  exact ⟨hlog, Except.related_of_map_eq alike_iff.mpr hresult⟩

end alike

end Formula
end PolishLogic
