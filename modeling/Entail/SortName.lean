set_option autoImplicit false

/-! # Sort names

A sort is known by its name. `K` is the top sort: every sort lies below it. The sorts of truth
values, integers, strings and lists have fixed names. -/

namespace Entail

/-- The name of a sort. -/
structure SortName where
  name : String
  deriving DecidableEq, Inhabited

namespace SortName

/-- The top sort. -/
def k : SortName := ⟨"K"⟩

/-- The sort of truth values. -/
def bool : SortName := ⟨"Bool"⟩

/-- The sort of integers. -/
def int : SortName := ⟨"Int"⟩

/-- The sort of strings. -/
def string : SortName := ⟨"String"⟩

/-- The sort of lists. -/
def list : SortName := ⟨"List"⟩

def isK (s : SortName) : Bool := s == k

def isBool (s : SortName) : Bool := s == bool

def isInt (s : SortName) : Bool := s == int

/-- Sorts are ordered by name, code point by code point. -/
def cmp (a b : SortName) : Ordering := compare a.name b.name

end SortName

end Entail
