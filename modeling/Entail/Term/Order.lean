import Entail.Term.Basic

set_option autoImplicit false

/-! # The order of terms

Terms are ordered by their kind of head and then part by part. Symbols are compared by name and
kind, so two terms that differ only in the signatures their symbols carry compare equal. `==` on
terms is this equality. -/

namespace Entail

namespace Term

/-- Variables, truth values, integers, strings, applications, builtin operations, lists,
    conditionals: in this order. -/
def rank : Term → Nat
  | .var _ => 0
  | .bool _ => 1
  | .int _ => 2
  | .str _ => 3
  | .app _ _ _ => 4
  | .builtin _ _ => 5
  | .list _ _ => 6
  | .ite _ _ _ => 7

mutual

/-- Compare two terms. Applications go by symbol, arguments and sort; lists by elements and then
    frame, a list without a frame first. -/
def cmp : Term → Term → Ordering
  | .var v, .var w => v.cmp w
  | .bool a, .bool b => compare a b
  | .int m, .int n => compare m n
  | .str s, .str u => compare s u
  | .app f xs s, .app g ys u => (f.cmp g).then ((cmpAll xs ys).then (s.cmp u))
  | .builtin f xs, .builtin g ys => (compare f.rank g.rank).then (cmpAll xs ys)
  | .list xs none, .list ys none => cmpAll xs ys
  | .list xs none, .list ys (some _) => (cmpAll xs ys).then .lt
  | .list xs (some _), .list ys none => (cmpAll xs ys).then .gt
  | .list xs (some f), .list ys (some g) => (cmpAll xs ys).then (cmp f g)
  | .ite c t e, .ite c' t' e' => (cmp c c').then ((cmp t t').then (cmp e e'))
  | t, u => compare t.rank u.rank
termination_by structural t => t

/-- Compare two lists of terms; a proper initial part comes first. -/
def cmpAll : List Term → List Term → Ordering
  | [], [] => .eq
  | [], _ :: _ => .lt
  | _ :: _, [] => .gt
  | x :: xs, y :: ys => (cmp x y).then (cmpAll xs ys)
termination_by structural xs => xs

end

/-- Terms are equal when they differ at most in the signatures that symbols carry. -/
instance : BEq Term := ⟨fun t u => (cmp t u).isEq⟩

theorem beq_def (t u : Term) : (t == u) = (cmp t u).isEq := rfl

end Term

end Entail
