import Entail.Term.Rewrite
import Entail.Term.Text

set_option autoImplicit false

/-! # Equalities

Two terms stated to be equal. Whether an equality is true, false or open is read off the shapes of
its two sides. -/

namespace Entail

/-- What is known about a statement. -/
inductive Truth where
  | true
  | false
  | unknown
  deriving DecidableEq, Inhabited

/-- The written name of a truth value. -/
def Truth.text : Truth → String
  | .true => "true"
  | .false => "false"
  | .unknown => "unknown"

/-- Two terms stated to be equal. -/
structure Equality where
  lhs : Term
  rhs : Term
  deriving Inhabited

namespace Equality

/-- Equal sides make it true, clashing sides false. -/
def truth (e : Equality) : Truth :=
  if e.lhs == e.rhs then .true
  else if e.lhs.clashes e.rhs then .false
  else .unknown

def isTrue (e : Equality) : Bool := e.truth == .true

def isFalse (e : Equality) : Bool := e.truth == .false

def reversed (e : Equality) : Equality := ⟨e.rhs, e.lhs⟩

/-- Equalities are ordered by their left sides, then their right sides. -/
def cmp (a b : Equality) : Ordering := (a.lhs.cmp b.lhs).then (a.rhs.cmp b.rhs)

instance : BEq Equality := ⟨fun a b => (cmp a b).isEq⟩

/-- Both sides have a head that unification takes apart. -/
def isSimplifiable (patternFolding : Bool) (e : Equality) : Bool :=
  e.lhs.isRigid patternFolding && e.rhs.isRigid patternFolding

/-- The empty list on one side and a list with elements on the other. -/
def isEmptyVsNonEmptyList (e : Equality) : Bool :=
  (e.lhs.isEmptyList && e.rhs.isNonEmptyList) || (e.rhs.isEmptyList && e.lhs.isNonEmptyList)

/-- The equality as a term. -/
def toTerm (e : Equality) : Term := .eqK e.lhs e.rhs

/-- Substitute into both sides and evaluate them. -/
def rewrite (voc : Vocabulary) (facts : Facts) (f : Variable → Option Term) (e : Equality) :
    Equality :=
  ⟨e.lhs.rewrite voc facts f, e.rhs.rewrite voc facts f⟩

/-- The variables of both sides as they occur. -/
def occurrences (e : Equality) : List Variable := e.lhs.occurrences ++ e.rhs.occurrences

/-- The conditions of both sides. -/
def conditions (e : Equality) : List Term := e.lhs.conditions ++ e.rhs.conditions

def text (e : Equality) : String := e.lhs.text ++ " = " ++ e.rhs.text

def size (e : Equality) : Nat := e.lhs.size + e.rhs.size

@[simp] theorem reversed_reversed (e : Equality) : e.reversed.reversed = e := rfl

/-! ## Connectives

A truth value stated of a connective may determine the truth values of its arguments: both
arguments of a true conjunction are true, both of a false disjunction are false, and the argument of
a negation has the opposite value. -/

/-- Stating `b` of the term determines its arguments. -/
def splits : Term → Bool → Bool
  | .builtin .and [_, _], b => b
  | .builtin .or [_, _], b => !b
  | .builtin .not [_], _ => true
  | _, _ => false

/-- The statements, none of them about a connective that splits, that together say that a term has
    the truth value `b`. -/
def literals : Term → Bool → List Equality
  | .builtin .and [x, y], true => literals x true ++ literals y true
  | .builtin .or [x, y], false => literals x false ++ literals y false
  | .builtin .not [x], b => literals x !b
  | t, b => [⟨t, .bool b⟩]
termination_by structural t => t

/-- The parts of an equality: the literals of a connective that it splits, in either orientation,
    or the equality itself. -/
def parts (e : Equality) : List Equality :=
  match e.lhs, e.rhs with
  | t, .bool b => if splits t b then literals t b else [e]
  | .bool b, t => if splits t b then literals t b else [e]
  | _, _ => [e]

end Equality

end Entail
