import Entail.Proofs.Building
import Entail.Proofs.Values
import Mathlib

set_option autoImplicit false

/-! # Rewriting formulas

Rewriting turns the bindings of a formula and of its alternatives into equalities, evaluates all
terms, and states the same wherever the substitution and the facts that were used are true. -/

namespace Entail

namespace Formula

theorem rewriteAlternatives_eq (voc : Vocabulary) (facts : Facts) (f : Variable → Option Term)
    (d : Disjunction) : rewriteAlternatives voc facts f d = d.map (rewrite voc facts f) := by
  induction d with
  | nil => rfl
  | cons φ d ih => rw [rewriteAlternatives, ih, List.map_cons]

theorem rewriteDisjunctions_eq (voc : Vocabulary) (facts : Facts) (f : Variable → Option Term)
    (ds : List Disjunction) :
    rewriteDisjunctions voc facts f ds = ds.map (Disjunction.rewrite voc facts f) := by
  induction ds with
  | nil => rfl
  | cons d ds ih => rw [rewriteDisjunctions, ih, List.map_cons]; rfl

variable {p : Term → Prop} {voc : Vocabulary} {facts : Facts} {f : Variable → Option Term}

/-- Everything that is rewritten has property `p` afterwards. -/
def RewritesTo (voc : Vocabulary) (facts : Facts) (f : Variable → Option Term) (p : Term → Prop) :
    Formula → Prop :=
  Everywhere (fun s => ∀ e ∈ s.equalities, (e.rewrite voc facts f).All p)
    fun e => (e.rewrite voc facts f).All p

theorem unbound_members {E : Equality → Prop} {ds : List Disjunction}
    (h : ∀ d ∈ ds, ∀ φ ∈ d, (φ.rewrite voc facts f).Unbound E) :
    ∀ d ∈ ds.map (Disjunction.rewrite voc facts f), ∀ ψ ∈ d, ψ.Unbound E := by
  rw [List.forall_mem_map]
  intro d hd ψ hψ
  have hψ := Sorted.mem_dedup hψ
  rw [rewriteAlternatives_eq] at hψ
  obtain ⟨φ, hφ, rfl⟩ := List.mem_map.mp hψ
  exact h d hd φ hφ

/-- Rewriting leaves no bindings. -/
theorem unbound_rewrite (hp : ∀ b, p (.bool b)) {φ : Formula} (hφ : φ.RewritesTo voc facts f p) :
    (φ.rewrite voc facts f).Unbound (Equality.All p) := by
  induction φ using Formula.ind with
  | falsified w => trivial
  | all s es ds ih =>
    obtain ⟨hs, hes, hds⟩ := (everywhere_all_iff s es ds).mp hφ
    have hmembers := unbound_members fun d hd φ hφ => ih d hd φ hφ (hds d hd φ hφ)
    rw [rewrite, rewriteDisjunctions_eq]
    refine unbound_addDisjunctions hp hmembers
      (everywhere_addEqualities hp ?_ (everywhere_top rfl))
    rw [List.forall_mem_map, List.forall_mem_append]
    exact ⟨hs, hes⟩

variable {V : Type} {A : Algebra V} {ρ : Variable → V}

theorem holds_equalities_iff (s : Substitution) :
    (∀ e ∈ s.equalities, e.Holds A ρ) ↔ s.Holds A ρ := by
  rw [Substitution.equalities, List.forall_mem_map]
  rfl

theorem flat_rewrite (voc : Vocabulary) (facts : Facts) (f : Variable → Option Term)
    (e : Equality) : (e.rewrite voc facts f).All Term.FlatHead :=
  ⟨Term.flat_evaluate voc facts _, Term.flat_evaluate voc facts _⟩

theorem rewritesTo_flat (voc : Vocabulary) (facts : Facts) (f : Variable → Option Term)
    (φ : Formula) : φ.RewritesTo voc facts f Term.FlatHead := by
  induction φ using Formula.ind with
  | falsified w => trivial
  | all s es ds ih =>
    exact (everywhere_all_iff s es ds).mpr
      ⟨fun e _ => flat_rewrite voc facts f e, fun e _ => flat_rewrite voc facts f e, ih⟩

theorem flat_members (voc : Vocabulary) (facts : Facts) (f : Variable → Option Term)
    (ds : List Disjunction) : ∀ d ∈ ds.map (Disjunction.rewrite voc facts f), ∀ ψ ∈ d,
      ψ.Unbound (Equality.All Term.FlatHead) :=
  unbound_members fun _ _ φ _ => unbound_rewrite (fun _ => trivial) (rewritesTo_flat voc facts f φ)

/-- Rewriting with what holds does not change where a formula holds. -/
theorem holds_rewrite_iff (hfacts : facts.Sound A ρ)
    (hf : ∀ v t, f v = some t → ρ v = t.eval A ρ) (φ : Formula) :
    (φ.rewrite voc facts f).Holds A ρ ↔ φ.Holds A ρ := by
  induction φ using Formula.ind with
  | falsified w => rfl
  | all s es ds ih =>
    have hds : (∀ d ∈ ds.map (Disjunction.rewrite voc facts f), Disjunction.Holds A ρ d) ↔
        ∀ d ∈ ds, Disjunction.Holds A ρ d := by
      rw [List.forall_mem_map]
      refine forall₂_congr fun d hd => ?_
      rw [Disjunction.rewrite, Disjunction.holds_ofList_iff, rewriteAlternatives_eq]
      simp only [List.mem_map, exists_exists_and_eq_and]
      exact exists_congr fun φ => and_congr_right fun hφ => ih d hd φ hφ
    have hes : (∀ e ∈ (s.equalities ++ es).map (Equality.rewrite voc facts f), e.Holds A ρ) ↔
        s.Holds A ρ ∧ ∀ e ∈ es, e.Holds A ρ := by
      rw [List.forall_mem_map, ← holds_equalities_iff, ← List.forall_mem_append]
      exact forall₂_congr fun e _ => Equality.holds_rewrite_iff voc hfacts hf e
    have hmembers := flat_members voc facts f ds
    have hflat : ∀ e ∈ (s.equalities ++ es).map (Equality.rewrite voc facts f),
        e.All Term.FlatHead := by
      rw [List.forall_mem_map]
      exact fun e _ => flat_rewrite voc facts f e
    rw [holds_all_iff, ← hds, ← and_assoc, ← hes, rewrite, rewriteDisjunctions_eq]
    constructor
    · intro h
      obtain ⟨h, hds⟩ := (holds_addDisjunctions_iff hmembers _).mp h
      exact ⟨(holds_of_addEqualities h).2, hds⟩
    · rintro ⟨hes, hds⟩
      exact (holds_addDisjunctions_iff hmembers _).mpr
        ⟨holds_addEqualities hflat hes (holds_top A ρ), hds⟩

/-- Rewriting that keeps a property of all subterms of terms keeps it of formulas. -/
theorem rewritesTo_of_each {q : Term → Prop}
    (hrewrite : ∀ t : Term, t.All q → (t.rewrite voc facts f).All p) {φ : Formula}
    (hφ : φ.Each q) : φ.RewritesTo voc facts f p := by
  refine Everywhere.mono (fun s hs => ?_)
    (fun e he => ⟨hrewrite _ he.1, hrewrite _ he.2⟩) hφ
  rw [Substitution.equalities, List.forall_mem_map]
  exact fun entry hentry => ⟨hrewrite _ (hs entry hentry).1, hrewrite _ (hs entry hentry).2⟩

end Formula

namespace Disjunction

variable {voc : Vocabulary} {facts : Facts} {f : Variable → Option Term}

theorem holds_rewrite_iff {V : Type} {A : Algebra V} {ρ : Variable → V}
    (hfacts : facts.Sound A ρ) (hf : ∀ v t, f v = some t → ρ v = t.eval A ρ) (d : Disjunction) :
    (d.rewrite voc facts f).Holds A ρ ↔ d.Holds A ρ := by
  rw [rewrite, holds_ofList_iff, Formula.rewriteAlternatives_eq]
  simp only [List.mem_map, exists_exists_and_eq_and, Formula.holds_rewrite_iff hfacts hf]
  rfl

theorem unbound_rewrite {p : Term → Prop} (hp : ∀ b, p (.bool b)) {d : Disjunction}
    (hd : ∀ φ ∈ d, φ.RewritesTo voc facts f p) :
    ∀ ψ ∈ d.rewrite voc facts f, ψ.Unbound (Equality.All p) := by
  intro ψ hψ
  have hψ := Sorted.mem_dedup hψ
  rw [Formula.rewriteAlternatives_eq] at hψ
  obtain ⟨φ, hφ, rfl⟩ := List.mem_map.mp hψ
  exact Formula.unbound_rewrite hp (hd φ hφ)

end Disjunction

/-- **Rewriting keeps meaning.** Where the bindings hold as equations and the facts are true, terms
    keep their values, and equalities, disjunctions and formulas hold after rewriting just when they
    hold before. Nothing is asked of sorts or signatures. -/
theorem Substitution.rewriting_keeps_meaning {V : Type} {A : Algebra V} {ρ : Variable → V}
    (voc : Vocabulary) {s : Substitution} {facts : Facts} (hs : s.Holds A ρ)
    (hfacts : facts.Sound A ρ) :
    (∀ t : Term, (t.rewrite voc facts s.get?).eval A ρ = t.eval A ρ) ∧
    (∀ e : Equality, (e.rewrite voc facts s.get?).Holds A ρ ↔ e.Holds A ρ) ∧
    (∀ d : Disjunction, (d.rewrite voc facts s.get?).Holds A ρ ↔ d.Holds A ρ) ∧
    ∀ φ : Formula, (φ.rewrite voc facts s.get?).Holds A ρ ↔ φ.Holds A ρ := by
  have hagree : ∀ v t, s.get? v = some t → ρ v = t.eval A ρ := hs.get?
  refine ⟨fun t => ?_, fun e => ?_, fun d => ?_, fun φ => ?_⟩
  · exact t.eval_rewrite voc hfacts hagree
  · exact e.holds_rewrite_iff voc hfacts hagree
  · exact d.holds_rewrite_iff hfacts hagree
  · exact φ.holds_rewrite_iff hfacts hagree

/-! ### A decided condition -/

namespace Decided

def x : Variable := ⟨"X", .int⟩

def y : Variable := ⟨"Y", .int⟩

/-- A property of integers -/
def p : Symbol := ⟨"p", .function, [⟨[.int], .bool⟩]⟩

/-- `p(Y)` -/
def condition : Term := .app p [.var y] .bool

/-- `X` is bound to `1`. -/
def bindings : Substitution := .singleton x (.int 1)

/-- `p(Y)` is known to be true. -/
def facts : Facts := fun t => if t == condition then some true else none

/-- `#if p(Y) #then X #else Y #fi` -/
def choice : Term := .ite condition (.var x) (.var y)

/-- The choice is `1`. -/
def equation : Equality := ⟨choice, .int 1⟩

/-- The choice is `1`, or `X` is `2`. -/
def alternatives : Disjunction :=
  [.all .empty [equation] [], .all .empty [⟨.var x, .int 2⟩] []]

/-- `X` is bound to `1`, and one of the alternatives holds. -/
def formula : Formula := .all bindings [] [alternatives]

/-- Values where every function is constantly true. -/
noncomputable def values : Algebra Value := Value.algebra (fun _ _ => .bool true) .con

/-- `X` is `1`; all other variables are `0`. -/
def assignment (v : Variable) : Value := if v = x then .int 1 else .int 0

theorem sound_facts : facts.Sound values assignment := by
  intro t b h
  rw [facts] at h
  split_ifs at h with heq
  obtain rfl := Option.some.inj h
  rw [Term.eval_eq_of_beq values assignment heq]
  rfl

theorem holds_bindings : bindings.Holds values assignment := by
  intro entry hentry
  obtain rfl := List.mem_singleton.mp hentry
  rfl

/-- The choice becomes `1`; the formula, which states nothing any more, held before. -/
theorem rewriting_keeps_meaning_formula :
    bindings.Holds values assignment ∧ facts.Sound values assignment ∧
    choice.rewrite .initial facts bindings.get? = .int 1 ∧
    choice.eval values assignment = .int 1 ∧ equation.Holds values assignment ∧
    (formula.rewrite .initial facts bindings.get?).isTrue = true ∧
    alternatives.Holds values assignment ∧ formula.Holds values assignment := by
  obtain ⟨hterms, hequalities, hdisjunctions, hformulas⟩ :=
    Substitution.rewriting_keeps_meaning .initial holds_bindings sound_facts
  have hchoice : choice.rewrite .initial facts bindings.get? = .int 1 := by cbv
  have hvalue : choice.eval values assignment = .int 1 := by
    rw [← hterms, hchoice]
    rfl
  have htrue : (formula.rewrite .initial facts bindings.get?).isTrue = true := by cbv
  have hfirst : (alternatives.rewrite .initial facts bindings.get?).head? = some .top := by cbv
  refine ⟨holds_bindings, sound_facts, hchoice, hvalue, (hequalities equation).mp ?_, htrue,
    (hdisjunctions alternatives).mp ?_, (hformulas formula).mp (Formula.holds_of_isTrue htrue)⟩
  · rw [Equality.rewrite, equation, hchoice]
    rfl
  · exact ⟨.top, List.mem_of_head? hfirst, Formula.holds_top _ _⟩

end Decided

end Entail
