import PolishLogic.Formula.Postorder
import PolishLogic.Log.Logged
import PolishLogic.Normalization.Move

/-! # Normalization

The negation normal form of a formula, reached by following its moves from the root down.
Each application of a rule is an entry of the log when the run is traced; the entry holds
both sides written out, so that tracing fails on a formula that cannot be written. -/

namespace PolishLogic

/-- One application of a rule: what it was applied to and what it made of it. -/
structure Rewrite (α : Type) where
  rule : Rule
  before : List (Symbol α)
  after : List (Symbol α)
  deriving DecidableEq, Repr

/-- The line of the log for an application of a rule. -/
def Rewrite.message {α : Type} [Named α] (r : Rewrite α) : String :=
  "    🔁 " ++ r.rule.name ++ ": " ++ Symbol.spell r.before ++ " → " ++ Symbol.spell r.after

namespace Formula

variable {α : Type}

/-- Logs an application of a rule when the run is traced. -/
def logRewrite (traced : Bool) (rule : Rule) (before after : Formula α) :
    Logged (Rewrite α) FormulaError Unit :=
  if traced then do
    let before ← .ofExcept before.word
    let after ← .ofExcept after.word
    .emit ⟨rule, before, after⟩
  else pure ()

/-- Follows the moves of a formula, each of which leads to a smaller weight. -/
def normalize (traced : Bool) (f : Formula α) : Logged (Rewrite α) FormulaError (Formula α) :=
  match _h : f.move with
  | .stop g => pure g
  | .fail e => .fail e
  | .keep op l r => do
    let l ← normalize traced l
    let r ← normalize traced r
    return binary op l r
  | .drop g => normalize traced g
  | .rewrite rule g => do
    logRewrite traced rule f g
    normalize traced g
termination_by f.weight
decreasing_by
  · exact (weight_keep _h).1
  · exact (weight_keep _h).2
  · exact weight_drop _h
  · exact weight_rewrite _h

theorem normalize_of_stop {f g : Formula α} (h : f.move = .stop g) (traced : Bool) :
    f.normalize traced = pure g := by
  rw [normalize]; split <;> simp_all

theorem normalize_of_fail {f : Formula α} {e : FormulaError} (h : f.move = .fail e)
    (traced : Bool) : f.normalize traced = .fail e := by
  rw [normalize]; split <;> simp_all

theorem normalize_of_keep {f l r : Formula α} {op : Connective} (h : f.move = .keep op l r)
    (traced : Bool) :
    f.normalize traced = (do
      let l ← l.normalize traced
      let r ← r.normalize traced
      return binary op l r) := by
  rw [normalize]; split <;> simp_all

theorem normalize_of_drop {f g : Formula α} (h : f.move = .drop g) (traced : Bool) :
    f.normalize traced = g.normalize traced := by
  rw [normalize]; split <;> simp_all

theorem normalize_of_rewrite {f g : Formula α} {rule : Rule} (h : f.move = .rewrite rule g)
    (traced : Bool) :
    f.normalize traced = (logRewrite traced rule f g >>= fun _ => g.normalize traced) := by
  rw [normalize]; split <;> simp_all

theorem result_normalize_of_keep {f l r : Formula α} {op : Connective}
    (h : f.move = .keep op l r) (traced : Bool) :
    (f.normalize traced).result = (do
      let l ← (l.normalize traced).result
      let r ← (r.normalize traced).result
      return binary op l r) := by
  rw [normalize_of_keep h, Logged.result_bind]
  simp only [Logged.result_bind]
  rfl

/-- Logging comes before the next move, and so does an error of writing out. -/
theorem result_normalize_of_rewrite {f g : Formula α} {rule : Rule}
    (h : f.move = .rewrite rule g) (traced : Bool) :
    (f.normalize traced).result = (do
      (logRewrite traced rule f g).result
      (g.normalize traced).result) := by
  rw [normalize_of_rewrite h, Logged.result_bind]

/-- The negation normal form, reached without a log. -/
def nnf (f : Formula α) : Except FormulaError (Formula α) := (f.normalize false).result

end Formula
end PolishLogic
