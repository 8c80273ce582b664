import Entail.SortName
import Entail.Sorted

set_option autoImplicit false

/-! # The subsort order

A lattice records, for every declared sort, the sorts below it, itself included. Declaring a pair
adds the lower set of the smaller sort to every sort above the larger one, so the recorded sets
stay transitively closed and a question about the order is one look-up. The top sort is never
recorded: it lies above everything by definition. -/

namespace Entail

/-- For every declared sort, in order of names, the sorts below it. -/
structure SortLattice where
  below : List (SortName × List SortName)
  deriving Inhabited

namespace SortLattice

/-- No sort is declared. -/
def empty : SortLattice := ⟨[]⟩

/-- The recorded lower set of a sort, if it is declared. -/
def below? (l : SortLattice) (s : SortName) : Option (List SortName) :=
  l.below.lookup s

/-- Record a sort with nothing but itself below it, unless it is the top sort or known. -/
def declare (l : SortLattice) (s : SortName) : SortLattice :=
  if s.isK || (l.below? s).isSome then l
  else ⟨Sorted.insert (fun a b => a.1.cmp b.1) (s, [s]) l.below⟩

/-- The declared sorts, in order of names. -/
def sorts (l : SortLattice) : List SortName := l.below.map (·.1)

/-- All sorts known to lie below `s`. Everything declared lies below the top sort, and a sort that
    is not declared has only itself below it. -/
def lowerSet (l : SortLattice) (s : SortName) : List SortName :=
  if s.isK then Sorted.insert SortName.cmp .k l.sorts
  else (l.below? s).getD [s]

/-- Declare both sorts and place `small` below `big`. Nothing is recorded below the top sort. -/
def addSubsort (l : SortLattice) (big small : SortName) : SortLattice :=
  let l := (l.declare big).declare small
  if big.isK then l
  else
    let lower := l.lowerSet small
    ⟨l.below.map fun (s, below) =>
      if s == big || below.contains big then (s, Sorted.union SortName.cmp below lower)
      else (s, below)⟩

/-- `small` lies below `big` or is the same sort. -/
def isSubsortEq (l : SortLattice) (big small : SortName) : Bool :=
  big == small || big.isK || ((l.below? big).getD []).contains small

/-- The sorts below both arguments. -/
def commonLowerBounds (l : SortLattice) (a b : SortName) : List SortName :=
  (l.lowerSet a).filter fun s => (l.lowerSet b).contains s

/-- Some sort lies below both arguments. -/
def haveCommonSubsort (l : SortLattice) (a b : SortName) : Bool :=
  !(l.commonLowerBounds a b).isEmpty

/-- The lower bounds of both arguments with no other lower bound above them. -/
def maximalLowerBounds (l : SortLattice) (a b : SortName) : List SortName :=
  let common := l.commonLowerBounds a b
  common.filter fun s => !common.any fun other => other != s && l.isSubsortEq other s

/-- The greatest lower bound: the smaller of two comparable sorts, and otherwise the maximal lower
    bound if there is exactly one. -/
def glb (l : SortLattice) (a b : SortName) : Option SortName :=
  if l.isSubsortEq a b then some b
  else if l.isSubsortEq b a then some a
  else
    match l.maximalLowerBounds a b with
    | [only] => some only
    | _ => none

/-- The lattice of the sorts with fixed names. -/
def builtin : SortLattice :=
  [SortName.bool, .int, .string, .list].foldl declare empty

end SortLattice

end Entail
