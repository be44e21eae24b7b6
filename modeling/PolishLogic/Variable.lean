import PolishLogic.Formula.Basic

/-! # Variables and their records

A variable of a tree stands for a record in a store. The record has the name of the variable
and the truth value last assigned to it, if any. Every occurrence of a letter in one reading is
the same variable, so that a value assigned through one is seen through all; the variables of
two readings are different even if their names are not.

`record_create_self`, `record_assign_self` and `record_assign_of_ne` say what each operation
does to the records. -/

namespace PolishLogic

structure Variable where
  id : Nat
  name : String
  deriving DecidableEq, Repr

instance : Named Variable := ⟨Variable.name⟩

/-- The name of a variable and the value last assigned to it. -/
structure Record where
  name : String
  value : Option Bool
  deriving DecidableEq, Repr

namespace Record

/-- A record to which nothing was assigned. -/
def fresh (name : String) : Record := ⟨name, none⟩

/-- The truth value of a record, false as long as none is assigned. -/
def truth (r : Record) : Bool := r.value.getD false

def isSet (r : Record) : Bool := r.value.isSome

end Record

/-- The records of all variables, by number. -/
structure Store where
  records : Array Record
  deriving DecidableEq, Repr

namespace Store

def empty : Store := ⟨#[]⟩

/-- The record of a variable; one that is not in the store has a record like a new one. -/
def record (s : Store) (x : Variable) : Record := (s.records[x.id]?).getD (.fresh x.name)

def create (s : Store) (name : String) : Variable × Store :=
  (⟨s.records.size, name⟩, ⟨s.records.push (.fresh name)⟩)

def assign (s : Store) (x : Variable) (b : Bool) : Store :=
  ⟨s.records.modify x.id fun r => { r with value := some b }⟩

theorem record_create_self (s : Store) (name : String) :
    (s.create name).2.record (s.create name).1 = .fresh name := by
  simp [create, record]

theorem record_create_of_lt {s : Store} {x : Variable} (h : x.id < s.records.size)
    (name : String) : (s.create name).2.record x = s.record x := by
  simp only [create, record, Array.getElem?_push, Nat.ne_of_lt h, if_false]

theorem record_assign_self {s : Store} {x : Variable} (h : x.id < s.records.size) (b : Bool) :
    (s.assign x b).record x = { s.record x with value := some b } := by
  simp [assign, record, Array.getElem_modify, h]

theorem record_assign_of_ne {s : Store} {x y : Variable} (h : x.id ≠ y.id) (b : Bool) :
    (s.assign x b).record y = s.record y := by
  simp [assign, record, Array.getElem?_modify, h]

theorem record_assign {s : Store} {x y : Variable} (h : y.id < s.records.size) (b : Bool) :
    (s.assign x b).record y =
      if x.id = y.id then { s.record y with value := some b } else s.record y := by
  by_cases hid : x.id = y.id
  · have hsame : s.assign x b = s.assign y b := by rw [assign, hid, assign]
    rw [if_pos hid, hsame, record_assign_self h]
  · rw [if_neg hid, record_assign_of_ne hid]

end Store
end PolishLogic
