import PolishLogic.Text.Quoted
import PolishLogic.Tree

/-! # Descriptions

A tree spelled out node by node with the name of every field, the records of its variables
included. -/

namespace PolishLogic

def Connective.description (c : Connective) : String :=
  "<Operator." ++ c.name ++ ": " ++ quote c.symbol.toString ++ ">"

def boolDescription (b : Bool) : String := if b then "True" else "False"

def Record.description (r : Record) : String :=
  "Variable(name=" ++ quote r.name ++ ", value=" ++ boolDescription r.truth ++ ", is_set=" ++
    boolDescription r.isSet ++ ")"

namespace Formula

/-- The pieces of the description of a formula, before those given. -/
def describeOnto (store : Store) : Formula Variable → List String → List String
  | hole, rest => "Node()" :: rest
  | const b, rest => "Constant(value=" :: boolDescription b :: ")" :: rest
  | var x, rest => "VariableRef(variable=" :: (store.record x).description :: ")" :: rest
  | unary op c, rest =>
    "UnaryExpr(op=" :: op.description :: ", child=" :: c.describeOnto store (")" :: rest)
  | binary op l r, rest =>
    "BinaryExpr(op=" :: op.description :: ", lhs=" ::
      l.describeOnto store (", rhs=" :: r.describeOnto store (")" :: rest))

def describe (store : Store) (f : Formula Variable) : String :=
  String.join (f.describeOnto store [])

end Formula

/-- The records of a table by letter. -/
def VariableTable.describe (store : Store) (t : VariableTable) : String :=
  match t.entries with
  | [] => "None"
  | entries =>
    let items := entries.map fun (l, x) => quote l.name ++ ": " ++ (store.record x).description
    "\x7b" ++ ", ".intercalate items ++ "\x7d"

def Tree.describe (store : Store) (t : Tree) : String :=
  "Tree(root=" ++ t.root.describe store ++ ", variables=" ++ t.table.describe store ++ ")"

end PolishLogic
