import Entail.Formula.Build

set_option autoImplicit false

/-! # Disjunctive normal form

A formula is turned into a disjunction of formulas without disjunctions: one alternative for every
way of choosing an alternative of each disjunction, where the alternatives are normalised first. A
choice that is refuted while it is put together is left out. -/

namespace Entail

namespace Formula

/-- All ways of choosing one element of each list. The choice from the last list changes
    fastest. -/
def choices {α : Type} : List (List α) → List (List α)
  | [] => [[]]
  | xs :: rest => xs.flatMap fun x => (choices rest).map (x :: ·)

/-- Put the chosen alternatives together with the bindings and equalities they stand beside. -/
def choiceMembers (base : Formula) (branches : List (List Formula)) : List Formula :=
  ((choices branches).map fun choice => choice.foldl addFormula base).filter (!·.isFalse)

mutual

/-- The disjunctive normal form. -/
def toDnf : Formula → Disjunction
  | .falsified w => [.falsified w]
  | .all s es [] => [.all s es []]
  | .all s es (d :: ds) =>
    Disjunction.ofList
      (choiceMembers ((top.addBindings s.entries).addEqualities es) (dnfBranches (d :: ds)))
termination_by structural φ => φ

/-- The alternatives of each disjunction, in normal form. -/
def dnfBranches : List (List Formula) → List (List Formula)
  | [] => []
  | d :: ds => dnfMembers d :: dnfBranches ds
termination_by structural ds => ds

def dnfMembers : List Formula → List Formula
  | [] => []
  | φ :: φs => φ.toDnf ++ dnfMembers φs
termination_by structural φs => φs

end

-- products start from the core library's one, whatever else is imported
attribute [local instance (high)] One.ofOfNat1 in
theorem length_choices {α : Type} (xss : List (List α)) :
    (choices xss).length = (xss.map List.length).prod := by
  induction xss with
  | nil => rfl
  | cons xs rest ih =>
    simp only [choices, List.length_flatMap, List.length_map, ih, List.map_const',
      List.sum_replicate_nat, List.map_cons, List.prod_cons]

end Formula

end Entail
