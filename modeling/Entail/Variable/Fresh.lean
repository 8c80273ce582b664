import Entail.Variable.Basic

set_option autoImplicit false

/-! # Names for new variables

A new variable is named after the variables it stands for: an underscore, then their names in
ascending order, joined by underscores. A name that is taken is primed until it is free. Of the
first `n + 1` candidates one is free when `n` names are taken, so the search looks no further. -/

namespace Entail

/-- The names that may not be given to a new variable. -/
structure FreshNames where
  taken : List String
  deriving Inhabited

namespace FreshNames

/-- Nothing is given yet; the names of `vars` are taken. -/
def avoiding (vars : List Variable) : FreshNames := ⟨vars.map (·.name)⟩

/-- `base` followed by `n` primes. -/
def primed (base : String) (n : Nat) : String := base ++ String.ofList (List.replicate n '\'')

/-- The first of `base`, `base'`, `base''`, … that is not taken. -/
def firstFree (taken : List String) (base : String) : String :=
  (((List.range (taken.length + 1)).map (primed base)).find? fun name => !taken.contains name).getD
    base

/-- The unprimed name of a variable that stands for `origins`. -/
def baseName (origins : List Variable) : String :=
  "_" ++ "_".intercalate ((origins.mergeSort fun a b => (a.cmp b).isLE).map (·.name))

/-- A new variable of sort `sort` that stands for `origins`, and what is taken after it. -/
def derive (names : FreshNames) (origins : List Variable) (sort : SortName) :
    Variable × FreshNames :=
  let name := firstFree names.taken (baseName origins)
  (⟨name, sort⟩, ⟨name :: names.taken⟩)

/-- New variables for single origins, one after the other. -/
def deriveEach (names : FreshNames) : List (Variable × SortName) → List Variable × FreshNames
  | [] => ([], names)
  | (origin, sort) :: rest =>
    let (v, names) := names.derive [origin] sort
    let (vs, names) := deriveEach names rest
    (v :: vs, names)

end FreshNames

end Entail
