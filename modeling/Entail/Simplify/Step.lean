import Entail.Formula.Rewrite
import Entail.Unifier
import Entail.Variable.Fresh

set_option autoImplicit false

/-! # What becomes of one equality

A pending equality that was rewritten with the bindings found so far is dropped, kept, taken apart,
replaced by equalities with new variables, or turned into a binding; or it is seen to be false. -/

namespace Entail

/-- Why a formula is false: an equality that cannot hold, and, if unification found it, the two
    terms that cannot be made equal. -/
structure Refutation where
  witness : Equality
  mismatch : Option Mismatch

namespace Refutation

/-- An equality is seen to be false. -/
def ofEquality (e : Equality) : Refutation := ⟨e, none⟩

/-- Unification failed. -/
def ofMismatch (m : Mismatch) : Refutation := ⟨m.toEquality, some m⟩

/-- The message of a contradiction. -/
def text (r : Refutation) : String := "contradiction: " ++ r.witness.text

end Refutation

/-- What becomes of a pending equality. -/
inductive Step where
  /-- it holds anyway -/
  | drop
  /-- it stays, as written here -/
  | keep (e : Equality)
  /-- it comes down to these parts -/
  | split (parts : List Equality) (disjunctions : List Disjunction)
  /-- it is replaced by equalities with new variables; `fresh` is what is taken afterwards -/
  | introduce (parts : List Equality) (fresh : FreshNames)
  /-- it binds a variable -/
  | bind (v : Variable) (t : Term)

namespace Step

/-- Take an equality between rigid terms apart. It stays if the unifier gives it back. -/
def unify (unifier : Unifier) (mode : SimplifyMode) (e : Equality) : Except Refutation Step :=
  match unifier mode e.lhs e.rhs with
  | .error mismatch => .error (.ofMismatch mismatch)
  | .ok (.falsified w) => .error (.ofEquality w)
  | .ok (.all s es ds) =>
    let parts := s.equalities ++ es
    if ds.isEmpty && parts.any fun part => part == e || part == e.reversed then .ok (.keep e)
    else .ok (.split parts ds)

/-- An equality between two variables. Of one sort, the larger is bound to the smaller; of
    comparable sorts, the variable of the larger sort to the other; otherwise both are made equal
    to a new variable of the greatest common subsort, if there is one. -/
def bindVariables (voc : Vocabulary) (fresh : FreshNames) (x y : Variable) (e : Equality) :
    Step :=
  if x.sort == y.sort then
    if (x.cmp y).isGT then .bind x (.var y) else .bind y (.var x)
  else if voc.lattice.isSubsortEq x.sort y.sort then .bind x (.var y)
  else if voc.lattice.isSubsortEq y.sort x.sort then .bind y (.var x)
  else
    match voc.lattice.glb x.sort y.sort with
    | some s =>
      let (z, fresh) := fresh.derive [x, y] s
      .introduce [⟨.var x, .var z⟩, ⟨.var y, .var z⟩] fresh
    | none => .keep e

/-- The variables of a list of terms that are all variables. -/
def allVars? : List Term → Option (List Variable)
  | [] => some []
  | .var v :: ts => (allVars? ts).map (v :: ·)
  | _ :: _ => none

/-- The greatest lower bounds of two lists of sorts, position by position. -/
def glbs? (lattice : SortLattice) : List (SortName × SortName) → Option (List SortName)
  | [] => some []
  | (a, b) :: rest =>
    match lattice.glb a b with
    | some s => (glbs? lattice rest).map (s :: ·)
    | none => none

/-- The argument sorts to which an overloaded constructor must be narrowed to give a term of sort
    `target`: exactly one of its signatures fits, its parameters have greatest lower bounds with the
    sorts of the arguments, and these do give a term of the sort. -/
def narrowedSorts? (voc : Vocabulary) (target : SortName) (symbol : Symbol)
    (args : List SortName) : Option (List SortName) :=
  match (voc.possibleSignatures symbol args).filter fun sig =>
      voc.lattice.isSubsortEq target sig.result with
  | [sig] =>
    match glbs? voc.lattice (sig.params.zip args) with
    | some sorts =>
      if voc.lattice.isSubsortEq target (voc.leastSort symbol sorts) then some sorts else none
    | none => none
  | _ => none

/-- A way to bind `v` to `t` that respects sorts, if there is one. A term of a sort below that of
    `v` is bound as it is. An overloaded constructor applied to variables is built again from new
    variables of narrower sorts, which the old ones are made equal to. -/
def narrow (voc : Vocabulary) (fresh : FreshNames) (v : Variable) (t : Term) : Option Step :=
  if voc.lattice.isSubsortEq v.sort t.sort then some (.bind v t)
  else
    match t with
    | .app symbol args _ =>
      if !symbol.isConstructor || !symbol.isOverloaded then none
      else
        match allVars? args with
        | none => none
        | some vars =>
          match narrowedSorts? voc v.sort symbol (vars.map (·.sort)) with
          | none => none
          | some sorts =>
            let (news, fresh) := fresh.deriveEach (vars.zip sorts)
            let newArgs := news.map Term.var
            let renamed := (vars.zip newArgs).map fun (x, z) => (⟨.var x, z⟩ : Equality)
            some (.introduce (⟨.var v, voc.apply symbol newArgs⟩ :: renamed) fresh)
    | _ => none

/-- An equality between a variable and a term that is not a variable. A variable that occurs in the
    term is not bound, and inside a normal term it can have no value at all. -/
def bindTerm (voc : Vocabulary) (fresh : FreshNames) (v : Variable) (t : Term) (e : Equality) :
    Except Refutation Step :=
  if !t.occurs v then .ok ((narrow voc fresh v t).getD (.keep e))
  else if t.isNormal then .error (.ofEquality e)
  else .ok (.keep e)

/-- Decide what becomes of an equality. -/
def classify (voc : Vocabulary) (unifier : Unifier) (mode : SimplifyMode) (fresh : FreshNames)
    (e : Equality) : Except Refutation Step :=
  match e.truth with
  | .true => .ok .drop
  | .false => .error (.ofEquality e)
  | .unknown =>
    if !voc.lattice.haveCommonSubsort e.lhs.sort e.rhs.sort then .error (.ofEquality e)
    else if e.isSimplifiable mode.patternFolding then unify unifier mode e
    else
      match e.lhs, e.rhs with
      | .var x, .var y => .ok (bindVariables voc fresh x y e)
      | .var x, t => bindTerm voc fresh x t e
      | t, .var x => bindTerm voc fresh x t e
      | _, _ => .ok (.keep e)

end Step

end Entail
