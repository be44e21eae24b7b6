/-! # Letters

A variable of a written formula is one of the letters `A` to `Z`, kept as its place in the
alphabet. `ofChar?_eq_some`: a character denotes a letter exactly when it is its character. -/

namespace PolishLogic

structure Letter where
  index : Fin 26
  deriving DecidableEq, Repr

namespace Letter

def all : List Letter := (List.finRange 26).map Letter.mk

def char (l : Letter) : Char := Char.ofNat (65 + l.index)

def name (l : Letter) : String := String.singleton l.char

def ofChar? (c : Char) : Option Letter :=
  if h : 65 ≤ c.toNat ∧ c.toNat < 91 then some ⟨c.toNat - 65, by omega⟩ else none

@[simp] theorem toNat_char (l : Letter) : l.char.toNat = 65 + l.index := by
  have h : (65 + l.index.val).isValidChar := Or.inl (by omega)
  rw [char, Char.ofNat, dif_pos h]
  rfl

@[simp] theorem ofChar?_char (l : Letter) : ofChar? l.char = some l := by
  have := l.index.isLt
  rw [ofChar?, dif_pos (by rw [toNat_char]; omega)]
  congr 2
  exact Fin.ext (by simp)

theorem ofChar?_eq_some {c : Char} {l : Letter} : ofChar? c = some l ↔ c = l.char := by
  refine ⟨fun h => ?_, fun h => h ▸ ofChar?_char l⟩
  unfold ofChar? at h
  split at h
  · next hc =>
    cases h
    refine Char.toNat_inj.mp ?_
    rw [toNat_char]
    show c.toNat = 65 + (c.toNat - 65)
    omega
  · cases h

theorem char_injective {k l : Letter} (h : k.char = l.char) : k = l := by
  have := ofChar?_char k
  rw [h, ofChar?_char] at this
  exact (Option.some.inj this).symm

theorem name_injective {k l : Letter} (h : k.name = l.name) : k = l := by
  have hchars := congrArg String.toList h
  rw [name, name, String.toList_singleton, String.toList_singleton] at hchars
  exact char_injective (List.singleton_inj.mp hchars)

end Letter
end PolishLogic
