import Entail.Equality

set_option autoImplicit false

/-! # Substitutions

A substitution binds variables to terms. Its entries are kept in the order of the variables, each
variable at most once. -/

namespace Entail

/-- Variables with the terms they are bound to, in ascending order. -/
structure Substitution where
  entries : List (Variable × Term)
  deriving Inhabited

namespace Substitution

def empty : Substitution := ⟨[]⟩

def singleton (v : Variable) (t : Term) : Substitution := ⟨[(v, t)]⟩

def isEmpty (s : Substitution) : Bool := s.entries.isEmpty

def size (s : Substitution) : Nat := s.entries.length

/-- The term a variable is bound to. -/
def get? (s : Substitution) (v : Variable) : Option Term := s.entries.lookup v

def contains (s : Substitution) (v : Variable) : Bool := (s.get? v).isSome

/-- The bound variables, in ascending order. -/
def keys (s : Substitution) : VarSet := s.entries.map (·.1)

/-- Put a binding into its place, instead of an earlier one of the same variable. -/
def put (s : Substitution) (v : Variable) (t : Term) : Substitution :=
  ⟨Sorted.put (fun a b => a.1.cmp b.1) (v, t) s.entries⟩

/-- Of several bindings of one variable the last counts. -/
def ofList (entries : List (Variable × Term)) : Substitution :=
  entries.foldl (fun s (v, t) => s.put v t) empty

/-- Add a binding. If the variable is bound to a different term, that term is returned instead. -/
def bind (s : Substitution) (v : Variable) (t : Term) : Except Term Substitution :=
  match s.get? v with
  | some bound => if bound == t then .ok s else .error bound
  | none => .ok (s.put v t)

/-- Add a binding, unless the variable is bound to a different term. -/
def plus (s : Substitution) (v : Variable) (t : Term) : Option Substitution :=
  (s.bind v t).toOption

/-- Drop the binding of a variable. -/
def minus (s : Substitution) (v : Variable) : Substitution :=
  ⟨s.entries.filter (·.1 != v)⟩

/-- Drop the bindings of several variables. -/
def minusAll (s : Substitution) (vars : List Variable) : Substitution :=
  vars.foldl minus s

/-- The bindings as equalities. -/
def equalities (s : Substitution) : List Equality :=
  s.entries.map fun (v, t) => ⟨.var v, t⟩

/-- Substitutions are ordered entry by entry. -/
def cmp (a b : Substitution) : Ordering :=
  Sorted.compareLists (fun x y => (x.1.cmp y.1).then (x.2.cmp y.2)) a.entries b.entries

/-- The variables of the entries, bound ones included, as they occur. -/
def occurrences (s : Substitution) : List Variable :=
  s.entries.flatMap fun (v, t) => v :: t.occurrences

/-! ## Composition -/

/-- Apply `other` to the values of `s`. A variable that `other` binds as well must end up with the
    same term. -/
def applied (voc : Vocabulary) (facts : Facts) (other : Substitution) :
    List (Variable × Term) → Except Equality (List (Variable × Term))
  | [] => .ok []
  | (v, t) :: rest =>
    let t := t.rewrite voc facts other.get?
    match other.get? v with
    | some bound =>
      if bound == t then return (v, t) :: (← applied voc facts other rest)
      else .error ⟨t, bound⟩
    | none => return (v, t) :: (← applied voc facts other rest)

/-- Drop the entries that bind a variable to itself, and refuse one that binds a variable to a
    normal term it occurs in: no value satisfies such an equation. -/
def withoutCycles : List (Variable × Term) → Except Equality (List (Variable × Term))
  | [] => .ok []
  | (v, t) :: rest =>
    if t.asVar? == some v then withoutCycles rest
    else if t.occurs v && t.isNormal then .error ⟨.var v, t⟩
    else return (v, t) :: (← withoutCycles rest)

/-- `s` followed by `other`: `other` is applied to the values of `s`, and its own bindings are
    added. The witness of a failure is an equality that would have to hold. -/
def compose (voc : Vocabulary) (facts : Facts) (s other : Substitution) :
    Except Equality Substitution := do
  let own ← applied voc facts other s.entries
  let all := other.entries.foldl
    (fun acc entry => Sorted.insert (fun a b => a.1.cmp b.1) entry acc) own
  return ⟨← withoutCycles all⟩

end Substitution

end Entail
