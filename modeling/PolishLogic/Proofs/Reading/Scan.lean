import PolishLogic.Proofs.Formula.Word
import PolishLogic.Proofs.Reading.Lexing
import PolishLogic.Proofs.Reading.Stack

/-! # Scans

`Reads` says what a word does to the operand stack, and a scan that succeeds does just that
(`scan_eq_ok`). The word of a formula puts the formula on top of any stack
(`reads_postorder`); conversely the stack spells what has been read (`Reads.render`). So a
text is read as a formula exactly when it is the written form of it
(`Formula.ofText?_eq_ok`). -/

namespace PolishLogic
namespace OperandStack

/-- The stack after a word every symbol of which finds its operands. -/
inductive Reads : OperandStack → List (Symbol Letter) → OperandStack → Prop
  | nil {stack : OperandStack} : Reads stack [] stack
  | cons {stack mid final : OperandStack} {s : Symbol Letter} {w : List (Symbol Letter)}
    (hs : stack.Shifts s mid) (hw : Reads mid w final) : Reads stack (s :: w) final

/-- A scan sees only the symbols of its tokens, not where they stand. -/
theorem scan_eq_ok {stack final : OperandStack} {ts : List Token} :
    stack.scan ts = .ok final ↔ stack.Reads (ts.map Token.symbol) final := by
  induction ts generalizing stack with
  | nil =>
    constructor
    · intro h
      cases h
      exact .nil
    · rintro ⟨⟩
      rfl
  | cons t ts ih =>
    rw [scan, Except.bind_eq_ok]
    constructor
    · rintro ⟨mid, hp, hts⟩
      exact .cons (push_eq_ok.mp hp) (ih.mp hts)
    · intro h
      cases h with
      | cons hs hw => exact ⟨_, push_eq_ok.mpr hs, ih.mpr hw⟩

/-- Symbols may be read in two goes. -/
theorem reads_append {stack final : OperandStack} {v w : List (Symbol Letter)} :
    stack.Reads (v ++ w) final ↔ ∃ mid, stack.Reads v mid ∧ mid.Reads w final := by
  induction v generalizing stack with
  | nil =>
    constructor
    · exact fun h => ⟨stack, .nil, h⟩
    · rintro ⟨mid, ⟨⟩, hw⟩
      exact hw
  | cons s v ih =>
    constructor
    · intro h
      cases h with
      | cons hs h =>
        obtain ⟨mid, hv, hw⟩ := ih.mp h
        exact ⟨mid, .cons hs hv, hw⟩
    · rintro ⟨mid, hv, hw⟩
      cases hv with
      | cons hs hv => exact .cons hs (ih.mpr ⟨mid, hv, hw⟩)

theorem Shifts.reads {stack final : OperandStack} {s : Symbol Letter}
    (h : stack.Shifts s final) : stack.Reads [s] final :=
  .cons h .nil

/-- The symbols of a formula put it on top of any stack and change nothing below. -/
theorem reads_postorder {f : Formula Letter} (hf : f.Intact) {w : List (Symbol Letter)}
    (h : f.postorder = some w) (stack : OperandStack) : stack.Reads w (f :: stack) := by
  -- The stack is general: the right operand is read on top of the left one.
  induction f generalizing w stack with
  | hole => exact hf.elim
  | const b => cases h; exact Shifts.const.reads
  | var l => cases h; exact Shifts.leaf.reads
  | unary op c ih =>
    obtain ⟨rfl, hc⟩ := hf
    obtain ⟨v, hv, rfl⟩ := Formula.postorder_unary_eq_some.mp h
    exact reads_append.mpr ⟨c :: stack, ih hc hv stack, Shifts.not.reads⟩
  | binary op l r ihl ihr =>
    obtain ⟨hop, hl, hr⟩ := hf
    obtain ⟨u, v, hu, hv, rfl⟩ := Formula.postorder_binary_eq_some.mp h
    refine reads_append.mpr ⟨r :: l :: stack, ?_, (Shifts.binary hop).reads⟩
    exact reads_append.mpr ⟨l :: stack, ihl hl hu stack, ihr hr hv (l :: stack)⟩

/-! ## What the stack spells -/

/-- The written forms of the operands one after the other, the top one last. -/
def render : OperandStack → Except FormulaError String
  | [] => .ok ""
  | f :: stack => do
    let below ← render stack
    let top ← f.render
    return below ++ top

@[simp] theorem render_nil : render [] = .ok "" := rfl

theorem render_cons_eq_ok {f : Formula Letter} {stack : OperandStack} {text : String} :
    render (f :: stack) = .ok text ↔
      ∃ below top, stack.render = .ok below ∧ f.render = .ok top ∧ below ++ top = text := by
  rw [render]
  simp only [Except.bind_eq_ok]
  constructor
  · rintro ⟨below, hb, top, ht, h⟩
    exact ⟨below, top, hb, ht, Except.ok.inj h⟩
  · rintro ⟨below, top, hb, ht, rfl⟩
    exact ⟨below, hb, top, ht, rfl⟩

theorem Shifts.render {stack final : OperandStack} {s : Symbol Letter} {text : String}
    (hs : stack.Shifts s final) (h : stack.render = .ok text) :
    final.render = .ok (text ++ Symbol.spell [s]) := by
  cases hs with
  | const => exact render_cons_eq_ok.mpr ⟨text, _, h, rfl, rfl⟩
  | leaf => exact render_cons_eq_ok.mpr ⟨text, _, h, rfl, rfl⟩
  | not =>
    obtain ⟨below, top, hb, ht, rfl⟩ := render_cons_eq_ok.mp h
    refine render_cons_eq_ok.mpr ⟨below, _, hb, Formula.render_unary ht .not, ?_⟩
    rw [String.append_assoc]
    rfl
  | @binary _ _ _ c =>
    -- The top of the stack is the right operand, which was written last.
    obtain ⟨below', right, h', hr, rfl⟩ := render_cons_eq_ok.mp h
    obtain ⟨below, left, hb, hl, rfl⟩ := render_cons_eq_ok.mp h'
    refine render_cons_eq_ok.mpr ⟨below, _, hb, Formula.render_binary hl hr c, ?_⟩
    simp only [String.append_assoc]
    rfl

/-- What is written from the stack grows by the text that is read. -/
theorem Reads.render {stack final : OperandStack} {w : List (Symbol Letter)} {text : String}
    (hw : stack.Reads w final) (h : stack.render = .ok text) :
    final.render = .ok (text ++ Symbol.spell w) := by
  induction hw generalizing text with
  | nil =>
    rw [h, show Symbol.spell ([] : List (Symbol Letter)) = "" from rfl, String.append_empty]
  | @cons _ _ _ s w hs _ ih =>
    rw [ih (hs.render h), String.append_assoc, ← Formula.spell_append]
    rfl

end OperandStack

namespace Formula

open OperandStack

/-- What is written of an intact formula is read as this formula. -/
theorem ofText?_of_render {f : Formula Letter} (hf : f.Intact) {text : String}
    (h : f.render = .ok text) : ofText? text = .ok f := by
  obtain ⟨w, hw, rfl⟩ := render_eq_ok.mp h
  have hw' : w ≠ [] := by
    rintro rfl
    obtain ⟨s, hs, -⟩ := exists_head_operand hw
    cases hs
  have hscan : scan [] (Token.number 1 0 w) = .ok [f] := by
    rw [scan_eq_ok, Token.map_symbol_number]
    exact reads_postorder hf hw []
  rw [ofText?_spell hw', hscan]
  rfl

theorem reads_of_ofText? {f : Formula Letter} {text : String} (h : ofText? text = .ok f) :
    ∃ w, Symbol.spell w = text ∧ Reads [] w [f] := by
  rcases ofText?_cases text with rfl | ⟨-, ⟨w, c, rest, -, -, hr⟩ | ⟨w, -, rfl, hr⟩⟩
  · cases h
  · rw [hr] at h
    cases h
  · rw [hr] at h
    obtain ⟨stack, hscan, h⟩ := Except.bind_eq_ok.mp h
    rw [single_eq_ok.mp h, scan_eq_ok, Token.map_symbol_number] at hscan
    exact ⟨w, rfl, hscan⟩

/-- What is read as a formula is what this formula is written as. -/
theorem render_of_ofText? {f : Formula Letter} {text : String} (h : ofText? text = .ok f) :
    f.render = .ok text := by
  obtain ⟨w, rfl, hw⟩ := reads_of_ofText? h
  obtain ⟨below, top, hb, ht, hcat⟩ := render_cons_eq_ok.mp (hw.render render_nil)
  cases hb
  rw [String.empty_append, String.empty_append] at hcat
  rw [ht, hcat]

/-- Reading accepts the written forms of intact formulas and nothing else. -/
theorem ofText?_eq_ok {f : Formula Letter} {text : String} :
    ofText? text = .ok f ↔ f.Intact ∧ f.render = .ok text :=
  ⟨fun h => ⟨intact_of_ofText? h, render_of_ofText? h⟩, fun ⟨hf, h⟩ => ofText?_of_render hf h⟩

end Formula
end PolishLogic
