import Entail.Term.Clash
import Entail.Vocabulary

set_option autoImplicit false

/-! # Substituting and evaluating terms

Substitution replaces variables without evaluating anything. Evaluation works from the leaves up
and always gives a term: what cannot be reduced is rebuilt from its reduced parts, with the sort of
every application computed anew. Terms of sort `Bool` that are not tokens may also be decided by a
source of facts. -/

namespace Entail

/-- Known truth values of terms. -/
abbrev Facts := Term → Option Bool

namespace Facts

/-- Nothing is known. -/
def unknown : Facts := fun _ => none

/-- A term, or its truth value if it is of sort `Bool`, not a token, and known. -/
def decide (facts : Facts) (t : Term) : Term :=
  if t.isToken || !t.sort.isBool then t
  else
    match facts t with
    | some value => .bool value
    | none => t

end Facts

namespace Term

mutual

/-- Replace the variables that `f` binds. -/
def substitute (f : Variable → Option Term) : Term → Term
  | .var v => (f v).getD (.var v)
  | .bool b => .bool b
  | .int n => .int n
  | .str s => .str s
  | .app symbol args s => .app symbol (substituteAll f args) s
  | .builtin op args => .builtin op (substituteAll f args)
  | .list elements none => .list (substituteAll f elements) none
  | .list elements (some frame) => mkList (substituteAll f elements) (some (substitute f frame))
  | .ite c t e => .ite (substitute f c) (substitute f t) (substitute f e)
termination_by structural t => t

def substituteAll (f : Variable → Option Term) : List Term → List Term
  | [] => []
  | t :: ts => substitute f t :: substituteAll f ts
termination_by structural ts => ts

end

/-! ## The builtin operations -/

/-- `true` is neutral and `false` absorbs. -/
def conj (x y : Term) : Term :=
  if x.isTrue then y
  else if y.isTrue then x
  else if x.isFalse || y.isFalse then .bool false
  else .builtin .and [x, y]

/-- `false` is neutral and `true` absorbs. -/
def disj (x y : Term) : Term :=
  if x.isFalse then y
  else if y.isFalse then x
  else if x.isTrue || y.isTrue then .bool true
  else .builtin .or [x, y]

/-- Truth values are negated and a double negation is dropped. -/
def neg : Term → Term
  | .bool b => .bool !b
  | .builtin .not [x] => x
  | x => .builtin .not [x]

/-- Equal terms are equal, terms that clash are not. -/
def equal (x y : Term) : Term :=
  if x == y then .bool true
  else if clashes x y then .bool false
  else .builtin .eq [x, y]

/-- Apply a builtin operation as far as its arguments are known. An operation on a wrong number of
    arguments is left alone. -/
def reduceBuiltin : Builtin → List Term → Term
  | .and, [x, y] => conj x y
  | .or, [x, y] => disj x y
  | .not, [x] => neg x
  | .eq, [x, y] => equal x y
  | .add, [.int m, .int n] => .int (m + n)
  | .sub, [.int m, .int n] => .int (m - n)
  | .lt, [.int m, .int n] => .bool (m < n)
  | .le, [.int m, .int n] => .bool (m ≤ n)
  | op, args => .builtin op args

/-- A conditional whose condition is not a truth value; equal branches make it one of them. -/
def mergeBranches (facts : Facts) (c t e : Term) : Term :=
  if t == e then t else facts.decide (.ite c t e)

/-! ## Evaluation -/

mutual

/-- Reduce a term from the leaves up. Of a conditional with a known condition only the chosen
    branch is looked at. -/
def evaluate (voc : Vocabulary) (facts : Facts) : Term → Term
  | .bool b => .bool b
  | .int n => .int n
  | .str s => .str s
  | .var v => facts.decide (.var v)
  | .app symbol args _ => facts.decide (voc.apply symbol (evaluateAll voc facts args))
  | .builtin op args => facts.decide (reduceBuiltin op (evaluateAll voc facts args))
  | .list elements none => .list (evaluateAll voc facts elements) none
  | .list elements (some frame) =>
    mkList (evaluateAll voc facts elements) (some (evaluate voc facts frame))
  | .ite c t e =>
    match evaluate voc facts c with
    | .bool true => evaluate voc facts t
    | .bool false => evaluate voc facts e
    | c' => mergeBranches facts c' (evaluate voc facts t) (evaluate voc facts e)
termination_by structural t => t

def evaluateAll (voc : Vocabulary) (facts : Facts) : List Term → List Term
  | [] => []
  | t :: ts => evaluate voc facts t :: evaluateAll voc facts ts
termination_by structural ts => ts

end

/-- Substitute, then evaluate. -/
def rewrite (voc : Vocabulary) (facts : Facts) (f : Variable → Option Term) (t : Term) : Term :=
  evaluate voc facts (substitute f t)

end Term

end Entail
