import Entail.Formula.Build

set_option autoImplicit false

/-! # What a formula says about truth values

Bindings and equalities tell truth values: a variable bound to a truth value, a term stated equal to
one, and an equation between two terms that are stated equal. From these a formula answers questions
about terms, and a term stated both true and false refutes it without further search. -/

namespace Entail

/-- The two sides of an equation between terms. -/
def Term.asEquation? : Term → Option (Term × Term)
  | .builtin .eq [lhs, rhs] => some (lhs, rhs)
  | _ => none

namespace Facts

/-- The truth value of `t` if `fact` is `t` and `token` is a truth value. -/
def fromSides (t fact token : Term) : Option Bool :=
  match token with
  | .bool value => if fact == t then some value else none
  | _ => none

/-- Truth, if `t` is the equation of the two sides of an equality in either orientation. -/
def fromEquation (t : Term) (e : Equality) : Option Bool :=
  match t.asEquation? with
  | some (lhs, rhs) =>
    if (lhs == e.lhs && rhs == e.rhs) || (lhs == e.rhs && rhs == e.lhs) then some true else none
  | none => none

/-- What a single equality says about a term. -/
def fromEquality (t : Term) (e : Equality) : Option Bool :=
  (fromSides t e.lhs e.rhs).or ((fromSides t e.rhs e.lhs).or (fromEquation t e))

/-- What bindings say about a term. -/
def fromBindings (s : Substitution) (t : Term) : Option Bool :=
  match t with
  | .var v =>
    match s.get? v with
    | some (.bool value) => some value
    | _ => none
  | .builtin .eq [.var v, rhs] =>
    match s.get? v with
    | some bound => if bound == rhs then some true else none
    | none => none
  | _ => none

/-- What bindings and equalities say about a term. A negation has the opposite truth value of its
    argument; otherwise bindings are asked first and then the equalities in order. -/
def ofParts (s : Substitution) (es : List Equality) : Term → Option Bool
  | .builtin .not [t] => (ofParts s es t).map not
  | t =>
    match fromBindings s t with
    | some value => some value
    | none => es.findSome? (fromEquality t)
termination_by structural t => t

end Facts

namespace Formula

/-- The truth value of a term according to a formula; a false formula says nothing. -/
def facts (φ : Formula) : Facts := fun t =>
  match φ with
  | .falsified _ => none
  | .all s es _ => Facts.ofParts s es t

/-- The pair of terms is stated equal by a binding. -/
def bindsTo (s : Substitution) (lhs rhs : Term) : Bool :=
  match lhs with
  | .var v =>
    match s.get? v with
    | some bound => bound == rhs
    | none => false
  | _ => false

/-- The equality is stated, in either orientation, by an equality or a binding. -/
def containsEquality (φ : Formula) (e : Equality) : Bool :=
  Sorted.contains Equality.cmp e φ.equalities ||
    Sorted.contains Equality.cmp e.reversed φ.equalities ||
    bindsTo φ.bindings e.lhs e.rhs || bindsTo φ.bindings e.rhs e.lhs

/-- The term that an equality states to have the truth value `b`. -/
def statedTerm? (e : Equality) : Option (Term × Bool) :=
  match e.lhs, e.rhs with
  | t, .bool true => some (t, true)
  | .bool true, t => some (t, true)
  | t, .bool false => some (t, false)
  | .bool false, t => some (t, false)
  | _, _ => none

/-- The terms that are stated to have the truth value `b`. -/
def statedTerms (es : List Equality) (b : Bool) : List Term :=
  (es.filterMap statedTerm?).filterMap fun (t, value) => if value == b then some t else none

/-- Some term is stated false and also true, or stated false while it is the equation of two terms
    that are stated equal. -/
def isContradictory (φ : Formula) : Bool :=
  let es := φ.allEqualities
  let equations := es.flatMap fun e => [e.toTerm, e.reversed.toTerm]
  (statedTerms es false).any fun t =>
    equations.any (· == t) || (statedTerms es true).any (· == t)

/-- The formula is false, or a term is stated both true and false. -/
def isFalseExtended (φ : Formula) : Bool := φ.isFalse || φ.isContradictory

end Formula

end Entail
