import Entail.Sorted
import Entail.SortName

set_option autoImplicit false

/-! # Variables

A variable is a name at a sort: one name at two sorts is two variables. Sets of variables are lists
in ascending order. -/

namespace Entail

/-- A name at a sort. -/
structure Variable where
  name : String
  sort : SortName
  deriving DecidableEq, Inhabited

namespace Variable

/-- Names that start with an underscore are those of variables made while simplifying. -/
def isFresh (v : Variable) : Bool := v.name.startsWith "_"

/-- Variables are ordered by name, then sort. Of two variables of one sort the larger is bound to
    the smaller. -/
def cmp (a b : Variable) : Ordering :=
  (compare a.name b.name).then (a.sort.cmp b.sort)

end Variable

/-- A set of variables, in ascending order. -/
abbrev VarSet := List Variable

namespace VarSet

def insert (vars : VarSet) (v : Variable) : VarSet := Sorted.insert Variable.cmp v vars

def union (vars more : VarSet) : VarSet := Sorted.union Variable.cmp vars more

def ofList (vars : List Variable) : VarSet := Sorted.ofList Variable.cmp vars

end VarSet

end Entail
