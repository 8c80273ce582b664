import Entail.Substitution

set_option autoImplicit false

/-! # Formulas

A formula is a conjunction: bindings of variables, pending equalities, and disjunctions whose
alternatives are formulas again. A formula that was found false keeps nothing but the equality that
turned out false. Equalities and disjunctions are sets, in ascending order; the alternatives of a
disjunction keep the order in which they were given. -/

namespace Entail

/-- A conjunction of bindings, equalities and disjunctions, or a false formula. -/
inductive Formula where
  /-- found false: `witness` is the equality that does not hold -/
  | falsified (witness : Equality)
  /-- all of these hold -/
  | all (bindings : Substitution) (equalities : List Equality)
      (disjunctions : List (List Formula))

/-- Alternatives, in a fixed order and without repetition. No alternative at all is false. -/
abbrev Disjunction := List Formula

namespace Formula

/-- The empty conjunction, which is true. -/
def top : Formula := .all .empty [] []

instance : Inhabited Formula := ⟨top⟩

def bindings : Formula → Substitution
  | .falsified _ => .empty
  | .all s _ _ => s

def equalities : Formula → List Equality
  | .falsified _ => []
  | .all _ es _ => es

def disjunctions : Formula → List Disjunction
  | .falsified _ => []
  | .all _ _ ds => ds

/-- The equality that turned out false, in a false formula. -/
def witness? : Formula → Option Equality
  | .falsified w => some w
  | .all _ _ _ => none

def isFalse (φ : Formula) : Bool := φ.witness?.isSome

/-- Nothing is required. -/
def isTrue : Formula → Bool
  | .falsified _ => false
  | .all s es ds => s.isEmpty && es.isEmpty && ds.isEmpty

def truth (φ : Formula) : Truth :=
  if φ.isFalse then .false else if φ.isTrue then .true else .unknown

/-- The formula, or the equality that refutes it. -/
def toExcept : Formula → Except Equality Formula
  | .falsified w => .error w
  | φ => .ok φ

/-- Only bindings are left. -/
def isSubstitution : Formula → Bool
  | .falsified _ => false
  | .all _ es ds => es.isEmpty && ds.isEmpty

/-- Only bindings are left, and they bind exactly `vars`. -/
def isMatching (vars : VarSet) (φ : Formula) : Bool :=
  φ.isSubstitution && φ.bindings.keys == vars

/-- Bindings and pending equalities, as equalities. -/
def allEqualities (φ : Formula) : List Equality := φ.bindings.equalities ++ φ.equalities

/-! ## Walking over a formula -/

mutual

/-- The variables of a formula as they occur. -/
def occurrences : Formula → List Variable
  | .falsified _ => []
  | .all s es ds => s.occurrences ++ (es.flatMap Equality.occurrences ++ occurrencesIn ds)
termination_by structural φ => φ

def occurrencesIn : List (List Formula) → List Variable
  | [] => []
  | d :: ds => occurrencesOf d ++ occurrencesIn ds
termination_by structural ds => ds

def occurrencesOf : List Formula → List Variable
  | [] => []
  | φ :: φs => φ.occurrences ++ occurrencesOf φs
termination_by structural φs => φs

end

/-- The set of variables of a formula. -/
def vars (φ : Formula) : VarSet := VarSet.ofList φ.occurrences

mutual

/-- The conditions of the conditionals in a formula. -/
def allConditions : Formula → List Term
  | .falsified _ => []
  | .all s es ds =>
    s.entries.flatMap (fun entry => entry.2.conditions) ++
      (es.flatMap Equality.conditions ++ allConditionsIn ds)
termination_by structural φ => φ

def allConditionsIn : List (List Formula) → List Term
  | [] => []
  | d :: ds => allConditionsOf d ++ allConditionsIn ds
termination_by structural ds => ds

def allConditionsOf : List Formula → List Term
  | [] => []
  | φ :: φs => φ.allConditions ++ allConditionsOf φs
termination_by structural φs => φs

end

/-- The conditions of the conditionals in a formula, each once, in the order of first
    occurrence. -/
def conditions (φ : Formula) : List Term := Sorted.dedup Term.cmp φ.allConditions

-- sums start from the core library's zero, whatever else is imported
attribute [local instance (high)] Zero.ofOfNat0

mutual

/-- The number of nodes of a formula. -/
def size : Formula → Nat
  | .falsified w => w.size + 1
  | .all s es ds =>
    (s.entries.map fun entry => entry.2.size + 1).sum + (es.map Equality.size).sum + sizeIn ds + 1
termination_by structural φ => φ

def sizeIn : List (List Formula) → Nat
  | [] => 0
  | d :: ds => sizeAlternatives d + sizeIn ds + 1
termination_by structural ds => ds

def sizeAlternatives : List Formula → Nat
  | [] => 0
  | φ :: φs => φ.size + sizeAlternatives φs
termination_by structural φs => φs

end

end Formula

end Entail
