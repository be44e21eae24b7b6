import PolishLogic.Reading.Source

/-! # Reading keeps formulas intact

`Shifts` lists what a symbol can do to the operand stack, and `push_eq_ok` says that a token
does just that. Whatever is read is therefore intact (`Source.intact_of_read`). -/

namespace PolishLogic
namespace OperandStack

/-- The stack after a symbol that finds its operands. -/
inductive Shifts : OperandStack → Symbol Letter → OperandStack → Prop
  | const {stack : OperandStack} {b : Bool} : Shifts stack (.const b) (.const b :: stack)
  | leaf {stack : OperandStack} {l : Letter} : Shifts stack (.leaf l) (.var l :: stack)
  | not {stack : OperandStack} {f : Formula Letter} :
    Shifts (f :: stack) (.op .not) (f.neg :: stack)
  | binary {stack : OperandStack} {l r : Formula Letter} {c : Connective} (h : c ≠ .not) :
    Shifts (r :: l :: stack) (.op c) (.binary c l r :: stack)

theorem shifts_of_push {stack stack' : OperandStack} {t : Token}
    (h : stack.push t = .ok stack') : stack.Shifts t.symbol stack' := by
  unfold push at h
  split at h
  · next hs => cases h; rw [hs]; exact .const
  · next hs => cases h; rw [hs]; exact .leaf
  · next hs => cases h; rw [hs]; exact .not
  · cases h
  · next hnot hs =>
    cases h
    rw [hs]
    refine .binary ?_
    rintro rfl
    exact hnot rfl
  · cases h

theorem push_of_shifts {stack stack' : OperandStack} {t : Token}
    (h : stack.Shifts t.symbol stack') : stack.push t = .ok stack' := by
  generalize hs : t.symbol = s at h
  unfold push
  rw [hs]
  cases h with
  | const | leaf | not => rfl
  | @binary stack l r c hc =>
    cases c with
    | not => exact absurd rfl hc
    | and | or | xor | xnor | imply => rfl

/-- A token acts on the stack as its symbol does. -/
theorem push_eq_ok {stack stack' : OperandStack} {t : Token} :
    stack.push t = .ok stack' ↔ stack.Shifts t.symbol stack' :=
  ⟨shifts_of_push, push_of_shifts⟩

/-- A scan has been successful if there is one operand in the end. -/
theorem single_eq_ok {stack : OperandStack} {f : Formula Letter} :
    stack.single = .ok f ↔ stack = [f] := by
  unfold single
  split
  · exact ⟨nofun, nofun⟩
  · simp
  · next hne => exact ⟨nofun, fun h => absurd h (hne f)⟩

/-- Every operand on the stack is intact. -/
def AllIntact (stack : OperandStack) : Prop := ∀ f ∈ stack, f.Intact

theorem AllIntact.shift {stack stack' : OperandStack} {s : Symbol Letter}
    (hs : stack.AllIntact) (h : stack.Shifts s stack') : stack'.AllIntact := by
  cases h with
  | const | leaf => exact List.forall_mem_cons.mpr ⟨trivial, hs⟩
  | not =>
    obtain ⟨hf, hs⟩ := List.forall_mem_cons.mp hs
    exact List.forall_mem_cons.mpr ⟨⟨rfl, hf⟩, hs⟩
  | binary hc =>
    obtain ⟨hr, hs⟩ := List.forall_mem_cons.mp hs
    obtain ⟨hl, hs⟩ := List.forall_mem_cons.mp hs
    exact List.forall_mem_cons.mpr ⟨⟨hc, hl, hr⟩, hs⟩

theorem AllIntact.scan {stack stack' : OperandStack} {ts : List Token} (hs : stack.AllIntact)
    (h : stack.scan ts = .ok stack') : stack'.AllIntact := by
  induction ts generalizing stack with
  | nil => cases h; exact hs
  | cons t ts ih =>
    obtain ⟨next, hp, h⟩ := Except.bind_eq_ok.mp h
    exact ih (hs.shift (push_eq_ok.mp hp)) h

end OperandStack

/-- Reading makes nothing but intact formulas. -/
theorem Formula.intact_of_ofText? {text : String} {f : Formula Letter}
    (h : Formula.ofText? text = .ok f) : f.Intact := by
  unfold Formula.ofText? at h
  split at h
  · cases h
  · obtain ⟨tokens, -, h⟩ := Except.bind_eq_ok.mp h
    obtain ⟨stack, hscan, h⟩ := Except.bind_eq_ok.mp h
    have hempty : OperandStack.AllIntact [] := nofun
    refine hempty.scan hscan f ?_
    rw [OperandStack.single_eq_ok.mp h]
    exact List.mem_singleton_self f

theorem Source.intact_of_read {source : Source} {f : Formula Letter}
    (h : source.read = .ok f) : f.Intact := by
  cases source with
  | text s => exact Formula.intact_of_ofText? h
  | truth b => cases b <;> cases h
  | absent | whole | decimal | emptyList | emptyRecord => cases h

end PolishLogic
