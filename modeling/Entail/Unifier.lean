import Entail.Formula.Build

set_option autoImplicit false

/-! # Unification of rigid terms

An equality between two rigid terms is taken apart into simpler equalities. Constructors are free:
equal heads give the equalities of their arguments, distinct heads exclude each other. Pattern
symbols are taken apart only under pattern folding and are otherwise left alone. Lists are compared
element by element from the front, and what is left of them becomes an equality of the
remainders. -/

namespace Entail

/-- How far simplification goes. -/
structure SimplifyMode where
  /-- take applications of one pattern symbol apart -/
  patternFolding : Bool
  /-- split equalities of lists even if their remainders stay unresolved -/
  partialLists : Bool
  deriving DecidableEq, Inhabited

namespace SimplifyMode

def default : SimplifyMode := ⟨false, true⟩

/-- Lists whose remainders stay unresolved are left untouched. -/
def beforePatternFolding : SimplifyMode := ⟨false, false⟩

/-- Pattern symbols are injective. -/
def moduloPatternFolding : SimplifyMode := ⟨true, true⟩

end SimplifyMode

/-- Two terms that can never be equal. -/
structure Mismatch where
  lhs : Term
  rhs : Term
  deriving Inhabited

namespace Mismatch

def text (m : Mismatch) : String := "cannot unify " ++ m.lhs.text ++ " with " ++ m.rhs.text

def toEquality (m : Mismatch) : Equality := ⟨m.lhs, m.rhs⟩

end Mismatch

/-- Takes `lhs = rhs` apart. An answer that holds `lhs = rhs` itself means that nothing could be
    done. -/
abbrev Unifier := SimplifyMode → Term → Term → Except Mismatch Formula

namespace Unifier

/-! ## Structural unification -/

/-- What the heads of two terms allow. -/
inductive Heads where
  /-- the terms are equal -/
  | equal
  /-- a head is not rigid: the equality stays -/
  | flexible
  /-- both heads are rigid -/
  | rigid
  deriving DecidableEq

def heads (mode : SimplifyMode) (t u : Term) : Heads :=
  if t == u then .equal
  else if t.isRigid mode.patternFolding && u.isRigid mode.patternFolding then .rigid
  else .flexible

/-- The application of a pattern symbol. -/
def isPatternApp : Term → Bool
  | .app f _ _ => f.isPattern
  | _ => false

/-- Two applications that do not match argument by argument: distinct constructors exclude each
    other, and a pattern symbol against anything else stays as it is. -/
def mismatchedApps (f g : Symbol) (t u : Term) (out : Formula) : Except Mismatch Formula :=
  if f.isConstructor && g.isConstructor then .error ⟨t, u⟩ else .ok (out.addTerms t u)

/-- Rigid terms with heads of different kinds. -/
def mismatchedHeads (t u : Term) (out : Formula) : Except Mismatch Formula :=
  if isPatternApp t || isPatternApp u then .ok (out.addTerms t u) else .error ⟨t, u⟩

/-- What is left of two lists after their common positions. `elements` holds what these positions
    state; it is given up, and the whole equality kept, if the remainders are unresolved and the
    mode asks for all or nothing. -/
def joinRests (mode : SimplifyMode) (t u lrest rrest : Term) (elements out : Formula) :
    Except Mismatch Formula :=
  if lrest == rrest then .ok (out.addFormula elements)
  else if lrest.clashes rrest then .error ⟨lrest, rrest⟩
  else if !(lrest.isVar || rrest.isVar) && !mode.partialLists then .ok (out.addTerms t u)
  else .ok (out.addFormula (elements.addTerms lrest rrest))

mutual

/-- Add to `out` what `t = u` comes down to. -/
def decompose (mode : SimplifyMode) : Term → Term → Formula → Except Mismatch Formula
  | .app f xs s, .app g ys s', out =>
    match heads mode (.app f xs s) (.app g ys s') with
    | .equal => .ok out
    | .flexible => .ok (out.addTerms (.app f xs s) (.app g ys s'))
    | .rigid =>
      if f.same g && xs.length == ys.length then decomposeAll mode xs ys out
      else mismatchedApps f g (.app f xs s) (.app g ys s') out
  | .list xs frame, .list ys frame', out =>
    match heads mode (.list xs frame) (.list ys frame') with
    | .equal => .ok out
    | .flexible => .ok (out.addTerms (.list xs frame) (.list ys frame'))
    | .rigid =>
      match decomposeAll mode xs ys .top with
      | .error mismatch => .error mismatch
      | .ok elements =>
        joinRests mode (.list xs frame) (.list ys frame')
          (.mkList (xs.drop ys.length) frame) (.mkList (ys.drop xs.length) frame') elements out
  | t, u, out =>
    match heads mode t u with
    | .equal => .ok out
    | .flexible => .ok (out.addTerms t u)
    | .rigid => mismatchedHeads t u out
termination_by structural t => t

/-- Take the equalities of two lists of terms apart, position by position. -/
def decomposeAll (mode : SimplifyMode) :
    List Term → List Term → Formula → Except Mismatch Formula
  | x :: xs, y :: ys, out =>
    match decompose mode x y out with
    | .error mismatch => .error mismatch
    | .ok out => decomposeAll mode xs ys out
  | _, _, out => .ok out
termination_by structural xs => xs

end

/-- Syntactic unification modulo builtin lists. -/
def structural : Unifier := fun mode lhs rhs => decompose mode lhs rhs .top

/-- A unifier that answers the listed pairs as they say and leaves all others to `fallback`. -/
def withAnswers (answers : List (Term × Term × Except Mismatch Formula)) (fallback : Unifier) :
    Unifier := fun mode lhs rhs =>
  match answers.find? fun (l, r, _) => l == lhs && r == rhs with
  | some (_, _, answer) => answer
  | none => fallback mode lhs rhs

end Unifier

end Entail
