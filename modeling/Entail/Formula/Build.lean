import Entail.Formula.Order

set_option autoImplicit false

/-! # Adding to a formula

A formula grows by adding equalities, bindings, disjunctions and other formulas. Each addition
states something more, so what satisfies the result is what satisfied the formula and the addition.
A false formula stays as it is. -/

namespace Entail

namespace Formula

/-- Add one part of an equality: a true one is dropped, a false one refutes the formula, and an
    open one is kept unless its reversal is there. -/
def addPart (φ : Formula) (e : Equality) : Formula :=
  match φ with
  | .falsified w => .falsified w
  | .all s es ds =>
    match e.truth with
    | .true => .all s es ds
    | .false => .falsified e
    | .unknown =>
      if Sorted.contains Equality.cmp e.reversed es then .all s es ds
      else .all s (Sorted.put Equality.cmp e es) ds

/-- Add an equality, part by part. -/
def addEquality (φ : Formula) (e : Equality) : Formula :=
  e.parts.foldl addPart φ

def addEqualities (φ : Formula) (es : List Equality) : Formula :=
  es.foldl addEquality φ

/-- The conjunction of some equalities. -/
def ofEqualities (es : List Equality) : Formula := top.addEqualities es

/-- State that two terms are equal. -/
def addTerms (φ : Formula) (lhs rhs : Term) : Formula := φ.addEquality ⟨lhs, rhs⟩

/-- State that each of the terms is true. -/
def addConditions (φ : Formula) (conditions : List Term) : Formula :=
  conditions.foldl (fun φ t => φ.addTerms t (.bool true)) φ

/-- Add the bindings of a substitution as equalities. -/
def addSubstitution (φ : Formula) (s : Substitution) : Formula := φ.addEqualities s.equalities

/-- Bind a variable without looking further. A variable that is bound to a different term refutes
    the formula. -/
def addBinding (φ : Formula) (v : Variable) (t : Term) : Formula :=
  match φ with
  | .falsified w => .falsified w
  | .all s es ds =>
    match s.bind v t with
    | .ok s => .all s es ds
    | .error bound => .falsified ⟨bound, t⟩

def addBindings (φ : Formula) (entries : List (Variable × Term)) : Formula :=
  entries.foldl (fun φ (v, t) => φ.addBinding v t) φ

/-- What refutes a disjunction of false alternatives: the witness of the first one. -/
def refutation (d : Disjunction) : Equality :=
  (d.findSome? witness?).getD ⟨.bool true, .bool false⟩

/-- Add a disjunction whose false alternatives are dropped. None left refutes the formula, one left
    is merged by `mergeOnly`, a true one makes the disjunction superfluous. -/
def addAlternatives (φ : Formula) (d : Disjunction) (mergeOnly : Formula → Formula) : Formula :=
  match φ with
  | .falsified w => .falsified w
  | .all s es ds =>
    match d.filter (!·.isFalse) with
    | [] => .falsified (refutation d)
    | [_] => mergeOnly (.all s es ds)
    | members =>
      if members.any isTrue then .all s es ds
      else .all s es (Sorted.put Disjunction.cmp (Disjunction.ofList members) ds)

mutual

/-- `merge ψ φ` adds everything that `ψ` states to `φ`. -/
def merge : Formula → Formula → Formula
  | .falsified w, φ => if φ.isFalse then φ else .falsified w
  | .all s es ds, φ => mergeDisjunctions ds ((φ.addBindings s.entries).addEqualities es)
termination_by structural ψ => ψ

/-- Add disjunctions one after the other. -/
def mergeDisjunctions : List (List Formula) → Formula → Formula
  | [], φ => φ
  | d :: ds, φ => mergeDisjunctions ds (φ.addAlternatives d (mergeFirst d))
termination_by structural ds => ds

/-- Add the first alternative that is not false. -/
def mergeFirst : List Formula → Formula → Formula
  | [], φ => φ
  | ψ :: ψs, φ => if ψ.isFalse then mergeFirst ψs φ else merge ψ φ
termination_by structural ψs => ψs

end

/-- Add everything that another formula states. -/
def addFormula (φ ψ : Formula) : Formula := merge ψ φ

def addDisjunctions (φ : Formula) (ds : List Disjunction) : Formula := mergeDisjunctions ds φ

/-- State that one of the alternatives holds. -/
def addDisjunction (φ : Formula) (d : Disjunction) : Formula := φ.addDisjunctions [d]

/-- The formula with given bindings, equalities and disjunctions; of equal elements the last is
    kept. -/
def ofParts (s : Substitution) (es : List Equality) (ds : List Disjunction) : Formula :=
  .all s (Sorted.ofListLast Equality.cmp es) (Sorted.ofListLast Disjunction.cmp ds)

@[simp] theorem addPart_falsified (w e : Equality) : (falsified w).addPart e = .falsified w := rfl

@[simp] theorem addBinding_falsified (w : Equality) (v : Variable) (t : Term) :
    (falsified w).addBinding v t = .falsified w := rfl

@[simp] theorem foldl_addPart_falsified (w : Equality) (es : List Equality) :
    es.foldl addPart (.falsified w) = .falsified w := by
  induction es with
  | nil => rfl
  | cons e es ih => simpa using ih

@[simp] theorem addEquality_falsified (w e : Equality) :
    (falsified w).addEquality e = .falsified w := by
  simp [addEquality]

@[simp] theorem merge_falsified (ψ : Formula) (w : Equality) :
    merge ψ (.falsified w) = .falsified w := by
  have equalities (es : List Equality) :
      (falsified w).addEqualities es = .falsified w := by
    unfold addEqualities
    induction es with
    | nil => rfl
    | cons e es ih => simpa using ih
  have bindings (entries : List (Variable × Term)) :
      (falsified w).addBindings entries = .falsified w := by
    unfold addBindings
    induction entries with
    | nil => rfl
    | cons e es ih => simpa using ih
  have disjunctions (ds : List (List Formula)) :
      mergeDisjunctions ds (.falsified w) = .falsified w := by
    induction ds with
    | nil => rfl
    | cons d ds ih => simpa [mergeDisjunctions, addAlternatives] using ih
  cases ψ with
  | falsified w' => simp [merge, isFalse, witness?]
  | all s es ds => simp [merge, bindings, equalities, disjunctions]

end Formula

end Entail
