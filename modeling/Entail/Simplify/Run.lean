import Entail.Simplify.Step

set_option autoImplicit false

/-! # Simplification

Pending equalities are visited in order. Each is rewritten with the bindings found so far and
evaluated against what the rest of the formula states, and then dropped, kept, taken apart or turned
into a binding. Passes repeat until one eliminates nothing. Then the disjunctions are rewritten with
the bindings; if one of them collapses, what it comes down to joins the pending equalities and the
passes start again. -/

namespace Entail

/-- A formula in the middle of simplification. -/
structure Worklist where
  fresh : FreshNames
  bindings : Substitution
  /-- equalities seen in this pass -/
  visited : List Equality
  /-- equalities still to be seen in this pass -/
  pending : List Equality
  disjunctions : List Disjunction
  /-- this pass has eliminated something -/
  progress : Bool

namespace Worklist

/-- All of a formula is still to be seen. -/
def ofFormula (φ : Formula) : Worklist where
  fresh := .avoiding φ.vars
  bindings := .empty
  visited := []
  pending := φ.allEqualities
  disjunctions := φ.disjunctions
  progress := false

/-- What is stated besides the equality that is looked at, which is neither in `visited` nor in
    `rest`. -/
def restFacts (w : Worklist) (rest : List Equality) : Facts :=
  Facts.ofParts w.bindings (w.visited ++ rest)

/-- Carry out a step on the first pending equality; `rest` are the others. -/
def apply (voc : Vocabulary) (w : Worklist) (rest : List Equality) :
    Step → Except Refutation Worklist
  | .drop => .ok { w with pending := rest }
  | .keep e => .ok { w with visited := w.visited ++ [e], pending := rest }
  | .split parts ds =>
    .ok { w with
      pending := parts ++ rest
      disjunctions := w.disjunctions ++ ds
      progress := true }
  | .introduce parts fresh =>
    .ok { w with fresh := fresh, pending := parts ++ rest, progress := true }
  | .bind v t =>
    match w.bindings.compose voc .unknown (.singleton v t) with
    | .error witness => .error (.ofEquality witness)
    | .ok bindings => .ok { w with bindings := bindings, pending := rest, progress := true }

/-- Look at the first pending equality. -/
def visit (voc : Vocabulary) (unifier : Unifier) (mode : SimplifyMode) (w : Worklist)
    (e : Equality) (rest : List Equality) : Except Refutation Worklist :=
  match Step.classify voc unifier mode w.fresh
      (e.rewrite voc (w.restFacts rest) w.bindings.get?) with
  | .error refutation => .error refutation
  | .ok step => w.apply voc rest step

/-! ## Disjunctions -/

/-- What rewriting the disjunctions gives. -/
structure Absorbed where
  /-- equalities of collapsed disjunctions -/
  equalities : List Equality
  disjunctions : List Disjunction
  /-- some disjunction collapsed to something that is not simply true -/
  collapsed : Bool

/-- Rewrite disjunctions with the bindings and see which of them collapse. -/
def absorb (voc : Vocabulary) (bindings : Substitution) :
    List Disjunction → Except Refutation Absorbed
  | [] => .ok ⟨[], [], false⟩
  | d :: ds =>
    match Formula.top.addDisjunction (d.rewrite voc .unknown bindings.get?) with
    | .falsified w => .error (.ofEquality w)
    | .all s es kept =>
      match absorb voc bindings ds with
      | .error refutation => .error refutation
      | .ok rest =>
        let stays := kept.length == 1 && es.isEmpty && s.isEmpty
        .ok ⟨s.equalities ++ es ++ rest.equalities, kept ++ rest.disjunctions,
          (!stays && !(Formula.all s es kept).isTrue) || rest.collapsed⟩

/-- The formula that is left when nothing is to be done. -/
def toFormula (w : Worklist) : Formula :=
  .ofParts w.bindings w.visited w.disjunctions

/-- No equality is pending: start another pass if this one eliminated something, or if a disjunction
    collapses; otherwise simplification is done. -/
def endPass (voc : Vocabulary) (w : Worklist) : Except Refutation (Worklist ⊕ Formula) :=
  if w.progress then
    .ok (.inl { w with visited := [], pending := w.visited, progress := false })
  else
    match absorb voc w.bindings w.disjunctions with
    | .error refutation => .error refutation
    | .ok absorbed =>
      let disjunctions := Sorted.dedup Disjunction.cmp absorbed.disjunctions
      if absorbed.collapsed then
        .ok (.inl { w with
          visited := []
          pending := w.visited ++ absorbed.equalities
          disjunctions := disjunctions })
      else .ok (.inr { w with disjunctions := disjunctions }.toFormula)

/-- One step of simplification: another state, or the result. -/
def next (voc : Vocabulary) (unifier : Unifier) (mode : SimplifyMode) (w : Worklist) :
    Except Refutation (Worklist ⊕ Formula) :=
  match w.pending with
  | [] => w.endPass voc
  | e :: rest =>
    match w.visit voc unifier mode e rest with
    | .error refutation => .error refutation
    | .ok w => .ok (.inl w)

end Worklist

/-- Why simplification gives no formula. -/
inductive Halt where
  /-- the formula is false -/
  | refuted (r : Refutation)
  /-- the allowed number of steps was not enough -/
  | exhausted

/-- A simplified formula, or why there is none. -/
abbrev Simplified := Except Halt Formula

namespace Worklist

/-- At most `n` steps of simplification. -/
def run (voc : Vocabulary) (unifier : Unifier) (mode : SimplifyMode) : Nat → Worklist → Simplified
  | 0, _ => .error .exhausted
  | n + 1, w =>
    match w.next voc unifier mode with
    | .error refutation => .error (.refuted refutation)
    | .ok (.inr φ) => .ok φ
    | .ok (.inl w) => run voc unifier mode n w

end Worklist

namespace Formula

-- powers are the core library's, whatever else is imported
attribute [local instance (high)] instPowNat

/-- A number of steps that simplification does not need. -/
def stepBound (φ : Formula) : Nat := 2 ^ (φ.size + 32)

/-- Simplify the parts of a formula within a number of steps. -/
def simplifyWithin (voc : Vocabulary) (unifier : Unifier) (mode : SimplifyMode) (steps : Nat)
    (φ : Formula) : Simplified :=
  (Worklist.ofFormula φ).run voc unifier mode steps

/-- Simplify a formula. A false formula is refuted by its witness and a true one is simple. -/
def simplify (voc : Vocabulary) (unifier : Unifier) (mode : SimplifyMode) (φ : Formula) :
    Simplified :=
  match φ with
  | .falsified w => .error (.refuted (.ofEquality w))
  | φ => if φ.isTrue then .ok φ else φ.simplifyWithin voc unifier mode φ.stepBound

end Formula

end Entail
