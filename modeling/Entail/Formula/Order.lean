import Entail.Formula.Basic

set_option autoImplicit false

/-! # The order of formulas

Formulas are ordered by their bindings, equalities and disjunctions, in this order, and a false
formula counts as one that has none of these, after the true one. `==` on formulas is equality in
this order. -/

namespace Entail

namespace Formula

mutual

/-- Compare two formulas part by part. -/
def cmp : Formula → Formula → Ordering
  | .falsified w, .falsified w' => w.cmp w'
  | .falsified _, .all s es ds => if s.isEmpty && es.isEmpty && ds.isEmpty then .gt else .lt
  | .all s es ds, .falsified _ => if s.isEmpty && es.isEmpty && ds.isEmpty then .lt else .gt
  | .all s es ds, .all s' es' ds' =>
    (s.cmp s').then ((Sorted.compareLists Equality.cmp es es').then (cmpDisjunctions ds ds'))
termination_by structural φ => φ

def cmpDisjunctions : List (List Formula) → List (List Formula) → Ordering
  | [], [] => .eq
  | [], _ :: _ => .lt
  | _ :: _, [] => .gt
  | d :: ds, d' :: ds' => (cmpAlternatives d d').then (cmpDisjunctions ds ds')
termination_by structural ds => ds

def cmpAlternatives : List Formula → List Formula → Ordering
  | [], [] => .eq
  | [], _ :: _ => .lt
  | _ :: _, [] => .gt
  | φ :: φs, ψ :: ψs => (cmp φ ψ).then (cmpAlternatives φs ψs)
termination_by structural φs => φs

end

instance : BEq Formula := ⟨fun φ ψ => (cmp φ ψ).isEq⟩

end Formula

namespace Disjunction

/-- Disjunctions are ordered alternative by alternative. -/
def cmp (d d' : Disjunction) : Ordering := Formula.cmpAlternatives d d'

/-- The disjunction of some formulas; a formula that comes again is dropped. -/
def ofList (φs : List Formula) : Disjunction := Sorted.dedup Formula.cmp φs

/-- An alternative that is true makes a disjunction true; it is false if all of them are. -/
def truth (d : Disjunction) : Truth :=
  if d.any Formula.isTrue then .true
  else if d.all Formula.isFalse then .false
  else .unknown

end Disjunction

end Entail
