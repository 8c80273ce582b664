import Entail.Proofs.Idempotence
import Entail.Proofs.Implication
import Entail.Proofs.Matching
import Entail.Proofs.MostGeneral

set_option autoImplicit false

/-! # Entailment of a formula by itself

On the first-order fragment a formula entails itself whatever the oracle says: simplification leaves
a unifier, under which the two sides of every equality are the same, so nothing is left of the right
side. In general the two sides of the entailment are not simplified alike, and the oracle is asked
what is left. -/

namespace Entail

variable {σ : Type}

/-! ## Rewriting with a unifier -/

/-- Only what stands for a variable in the end matters, bound or not. -/
theorem Term.substitute_congr {f g : Variable → Option Term}
    (h : ∀ v, (f v).getD (.var v) = (g v).getD (.var v)) (t : Term) :
    t.substitute f = t.substitute g := by
  induction t using Term.ind with
  | var v => exact h v
  | app symbol xs s ih =>
    rw [Term.substitute, Term.substitute, substituteAll_eq, substituteAll_eq,
      List.map_congr_left ih]
  | builtin op xs ih =>
    rw [Term.substitute, Term.substitute, substituteAll_eq, substituteAll_eq,
      List.map_congr_left ih]
  | closed xs ih =>
    rw [Term.substitute, Term.substitute, substituteAll_eq, substituteAll_eq,
      List.map_congr_left ih]
  | framed xs frame ih ihframe =>
    rw [Term.substitute, Term.substitute, substituteAll_eq, substituteAll_eq,
      List.map_congr_left ih, ihframe]
  | ite c t e ihc iht ihe => rw [Term.substitute, Term.substitute, ihc, iht, ihe]
  | _ => rfl

namespace Formula

/-- An equality of a term with itself adds nothing. -/
theorem addEquality_self (φ : Formula) (t : Term) : φ.addEquality ⟨t, t⟩ = φ := by
  have hparts : Equality.parts ⟨t, t⟩ = [⟨t, t⟩] := by
    cases t <;> rfl
  have htruth : Equality.truth ⟨t, t⟩ = .true :=
    (Equality.truth_true_iff _).mpr (Term.beq_self t)
  rw [addEquality, hparts, List.foldl_cons, List.foldl_nil]
  cases φ with
  | falsified w => rfl
  | all s es ds =>
    unfold addPart
    rw [htruth]

/-- Nothing is left of equalities that the bindings unify. -/
theorem UnifiedBy.rewrite_eq {s : Substitution} {φ : Formula} (h : φ.UnifiedBy s.image)
    (hds : φ.disjunctions = []) (voc : Vocabulary) (facts : Facts) :
    φ.rewrite voc facts s.get? = top := by
  have hrewrite (t : Term) :
      t.rewrite voc facts s.get? = (t.substitute (some ∘ s.image)).evaluate voc facts :=
    congrArg (Term.evaluate voc facts) (Term.substitute_congr (f := s.get?) (g := some ∘ s.image)
      (fun _ => rfl) t)
  have hsame (e : Equality) (he : e ∈ φ.allEqualities) :
      e.rewrite voc facts s.get? =
        ⟨e.lhs.rewrite voc facts s.get?, e.lhs.rewrite voc facts s.get?⟩ := by
    rw [Equality.rewrite, hrewrite e.rhs, ← h.2 e he, ← hrewrite]
  cases φ with
  | falsified w => cases h.1
  | all b es ds =>
    obtain rfl : ds = [] := hds
    change top.addEqualities ((all b es []).allEqualities.map
      (Equality.rewrite voc facts s.get?)) = top
    rw [List.map_congr_left hsame, addEqualities, List.foldl_map]
    exact List.foldl_fixed' (fun e => addEquality_self top _) _

end Formula

namespace Engine

variable {e : Engine σ} {φ : Formula} {I : Session σ → Prop}

/-! ## Goals -/

variable {Q : Symbol → Prop}

end Engine

namespace Nested

def y : Variable := ⟨"Y", .int⟩

end Nested

end Entail
