import Entail.Proofs.Rewriting
import Entail.Simplify.Run

set_option autoImplicit false

/-! # What is known of truth values

Where a formula holds, every truth value that it tells is right; the same goes for what is told
while it is being simplified. So a formula that gives one term both truth values holds nowhere.
Nothing that a stored equality says outright is overlooked: a formula with a solution tells the
truth value of every term that an equality gives it, and a term with both truth values is
noticed. -/

namespace Entail

variable {V : Type} {A : Algebra V} {ρ : Variable → V}

namespace Equality

/-- The equality gives the term `t` the truth value `b`, in one orientation or the other. -/
def Fixes (e : Equality) (t : Term) (b : Bool) : Prop := e = ⟨t, .bool b⟩ ∨ e = ⟨.bool b, t⟩

theorem Fixes.eval {e : Equality} {t : Term} {b : Bool} (h : e.Fixes t b) (he : e.Holds A ρ) :
    t.eval A ρ = A.bool b := by
  rcases h with rfl | rfl
  · exact he
  · exact Eq.symm he

end Equality

/-! ## Facts -/

namespace Facts

theorem isSome_fromEquality {e : Equality} {t : Term} {b : Bool} (h : e.Fixes t b) :
    (fromEquality t e).isSome = true := by
  have hself : fromSides t t (.bool b) = some b := by simp [fromSides]
  rcases h with rfl | rfl
  · simp [fromEquality, hself]
  · simp [fromEquality, hself]

/-- Bindings and equalities that hold somewhere tell the truth value of a term that an equality
    gives it. A negation is looked up by its argument, so equalities about it are not consulted. -/
theorem ofParts_of_fixes {s : Substitution} {es : List Equality} (hs : s.Holds A ρ)
    (hes : ∀ e ∈ es, e.Holds A ρ) {e : Equality} (he : e ∈ es) {t : Term} {b : Bool}
    (hfixes : e.Fixes t b) (hnot : ∀ u, t ≠ .builtin .not [u]) : ofParts s es t = some b := by
  have htold : (ofParts s es t).isSome = true := by
    rw [ofParts.eq_def]
    split
    · exact absurd rfl (hnot _)
    · split
      · rfl
      · exact List.findSome?_isSome_iff.mpr ⟨e, he, isSome_fromEquality hfixes⟩
  obtain ⟨b', hb'⟩ := Option.isSome_iff_exists.mp htold
  have heval := ofParts_sound hs hes t b' hb'
  rw [hfixes.eval (hes e he), A.bool_inj] at heval
  rw [hb', heval]

end Facts

namespace Formula

/-- What a formula says about truth values is right where it holds. -/
theorem facts_sound {φ : Formula} (hφ : φ.Holds A ρ) :
    φ.facts.Sound A ρ ∧ ∀ v t, φ.bindings.get? v = some t → ρ v = t.eval A ρ := by
  cases φ with
  | falsified w => exact absurd hφ (not_holds_falsified A ρ w)
  | all s es ds =>
    obtain ⟨hs, hes, _⟩ := (holds_all_iff A ρ s es ds).mp hφ
    exact ⟨Facts.ofParts_sound hs hes, hs.get?⟩

theorem facts_of_fixes {φ : Formula} (hφ : φ.Holds A ρ) {e : Equality} (he : e ∈ φ.equalities)
    {t : Term} {b : Bool} (hfixes : e.Fixes t b) (hnot : ∀ u, t ≠ .builtin .not [u]) :
    φ.facts t = some b := by
  cases φ with
  | falsified w => exact absurd he List.not_mem_nil
  | all s es ds =>
    obtain ⟨hs, hes, _⟩ := (holds_all_iff A ρ s es ds).mp hφ
    exact Facts.ofParts_of_fixes hs hes he hfixes hnot

/-! ## Opposite truth values -/

theorem holds_allEqualities {φ : Formula} (hφ : φ.Holds A ρ) :
    ∀ e ∈ φ.allEqualities, e.Holds A ρ := by
  cases φ with
  | falsified w => exact absurd hφ (not_holds_falsified A ρ w)
  | all s es ds =>
    obtain ⟨hs, hes, _⟩ := (holds_all_iff A ρ s es ds).mp hφ
    exact List.forall_mem_append.mpr ⟨(holds_equalities_iff s).mpr hs, hes⟩

theorem fixes_of_statedTerm {e : Equality} {t : Term} {b : Bool} (h : statedTerm? e = some (t, b)) :
    e.Fixes t b := by
  obtain ⟨lhs, rhs⟩ := e
  unfold statedTerm? at h
  dsimp only at h
  split at h
  · obtain ⟨rfl, rfl⟩ := Prod.mk.inj (Option.some.inj h)
    exact .inl rfl
  · obtain ⟨rfl, rfl⟩ := Prod.mk.inj (Option.some.inj h)
    exact .inr rfl
  · obtain ⟨rfl, rfl⟩ := Prod.mk.inj (Option.some.inj h)
    exact .inl rfl
  · obtain ⟨rfl, rfl⟩ := Prod.mk.inj (Option.some.inj h)
    exact .inr rfl
  · exact absurd h nofun

/-- Of an equality between two truth values only one side counts as the term. -/
theorem statedTerm_of_fixes {e : Equality} {t : Term} {b : Bool} (htoken : t.isToken = false)
    (h : e.Fixes t b) : statedTerm? e = some (t, b) := by
  rcases h with rfl | rfl
  · cases t <;> cases b <;> simp_all [statedTerm?, Term.isToken]
  · cases t <;> cases b <;> simp_all [statedTerm?, Term.isToken]

theorem mem_statedTerms_iff (es : List Equality) (t : Term) (b : Bool) :
    t ∈ statedTerms es b ↔ ∃ e ∈ es, statedTerm? e = some (t, b) := by
  simp only [statedTerms, List.mem_filterMap]
  constructor
  · rintro ⟨⟨u, value⟩, ⟨e, he, hstated⟩, heq⟩
    dsimp only at heq
    split at heq
    · rename_i hvalue
      obtain rfl := Option.some.inj heq
      obtain rfl := beq_iff_eq.mp hvalue
      exact ⟨e, he, hstated⟩
    · exact absurd heq nofun
  · rintro ⟨e, he, hstated⟩
    exact ⟨(t, b), ⟨e, he, hstated⟩, by simp⟩

theorem statedTerms_sound {es : List Equality} (hes : ∀ e ∈ es, e.Holds A ρ) {t : Term} {b : Bool}
    (h : t ∈ statedTerms es b) : t.eval A ρ = A.bool b := by
  obtain ⟨e, he, hstated⟩ := (mem_statedTerms_iff es t b).mp h
  exact (fixes_of_statedTerm hstated).eval (hes e he)

/-- A formula that states a term both true and false holds nowhere. -/
theorem not_holds_of_isContradictory {φ : Formula} (h : φ.isContradictory = true) :
    ¬φ.Holds A ρ := by
  intro hφ
  have hes := holds_allEqualities hφ
  rw [isContradictory, List.any_eq_true] at h
  obtain ⟨t, ht, hopposite⟩ := h
  have hfalse := statedTerms_sound hes ht
  have htrue : t.eval A ρ = A.bool true := by
    rw [Bool.or_eq_true, List.any_eq_true, List.any_eq_true] at hopposite
    rcases hopposite with ⟨u, hu, heq⟩ | ⟨u, hu, heq⟩
    · obtain ⟨e, he, hu⟩ := List.mem_flatMap.mp hu
      have heHolds : e.lhs.eval A ρ = e.rhs.eval A ρ := hes e he
      rw [← Term.eval_eq_of_beq A ρ heq]
      rcases List.mem_cons.mp hu with rfl | hu
      · exact (Facts.eval_equation e.lhs e.rhs).mpr heHolds
      · obtain rfl := List.mem_singleton.mp hu
        exact (Facts.eval_equation e.rhs e.lhs).mpr heHolds.symm
    · rw [← Term.eval_eq_of_beq A ρ heq]
      exact statedTerms_sound hes hu
  rw [hfalse, A.bool_inj] at htrue
  exact absurd htrue nofun

theorem not_holds_of_isFalseExtended {φ : Formula} (h : φ.isFalseExtended = true) :
    ¬φ.Holds A ρ := by
  intro hφ
  rw [isFalseExtended, not_isFalse_of_holds hφ, Bool.false_or] at h
  exact not_holds_of_isContradictory h hφ

/-- A term that is given both truth values is noticed. -/
theorem isContradictory_of_fixes {φ : Formula} {e e' : Equality} (he : e ∈ φ.allEqualities)
    (he' : e' ∈ φ.allEqualities) {t : Term} (htoken : t.isToken = false) (htrue : e.Fixes t true)
    (hfalse : e'.Fixes t false) : φ.isContradictory = true := by
  have hmem := (mem_statedTerms_iff φ.allEqualities t true).mpr
    ⟨e, he, statedTerm_of_fixes htoken htrue⟩
  have hmem' := (mem_statedTerms_iff φ.allEqualities t false).mpr
    ⟨e', he', statedTerm_of_fixes htoken hfalse⟩
  rw [isContradictory, List.any_eq_true]
  exact ⟨t, hmem', Bool.or_eq_true_iff.mpr
    (.inr (List.any_eq_true.mpr ⟨t, hmem, Term.beq_self t⟩))⟩

/-- **What is known of truth values is right, and what is stated is known.** Where a formula holds,
    every term has the truth value that the formula tells of it. So has, while a formula is being
    simplified, every term where the bindings found so far and the pending equalities besides the
    one that is looked at hold. A formula that contradicts itself holds nowhere. Conversely, a formula
    with a solution tells the truth value of every term, negations apart, that one of its equalities
    gives it, and a formula that gives a term both truth values contradicts itself. -/
theorem known_values_hold (A : Algebra V) (ρ : Variable → V) (φ : Formula) :
    (∀ t b, φ.facts t = some b → φ.Holds A ρ → t.eval A ρ = A.bool b) ∧
    (∀ (w : Worklist) (rest : List Equality), w.bindings.Holds A ρ →
      (∀ e ∈ w.visited ++ rest, e.Holds A ρ) →
      ∀ t b, w.restFacts rest t = some b → t.eval A ρ = A.bool b) ∧
    (φ.isContradictory = true → ¬φ.Holds A ρ) ∧
    (φ.Holds A ρ → ∀ e ∈ φ.equalities, ∀ t b, e.Fixes t b → (∀ u, t ≠ .builtin .not [u]) →
      φ.facts t = some b) ∧
    ∀ e ∈ φ.allEqualities, ∀ e' ∈ φ.allEqualities, ∀ t, t.isToken = false → e.Fixes t true →
      e'.Fixes t false → φ.isContradictory = true :=
  ⟨fun t b h hφ => (facts_sound hφ).1 t b h,
    fun _ _ hbindings hes => Facts.ofParts_sound hbindings hes,
    not_holds_of_isContradictory,
    fun hφ _ he _ _ => facts_of_fixes hφ he,
    fun _ he _ he' _ => isContradictory_of_fixes he he'⟩

end Formula

/-! ### A predicate and an equation -/

namespace Told

def x : Variable := ⟨"X", .bool⟩

def z : Variable := ⟨"Z", ⟨"S"⟩⟩

/-- A predicate of `Z` -/
def holdsOf (name : String) : Term := .app ⟨name, .function, [⟨[⟨"S"⟩], .bool⟩]⟩ [.var z] .bool

/-- `X = false`, `true = p(Z)`, `(p(Z) ==K q(Z)) = X` and `r(Z) = q(Z)` -/
def formula : Formula :=
  .all ⟨[(x, .bool false)]⟩
    [⟨.bool true, holdsOf "p"⟩, ⟨.eqK (holdsOf "p") (holdsOf "q"), .var x⟩,
      ⟨holdsOf "r", holdsOf "q"⟩] []

/-- `p(Z) = false` besides `true = p(Z)` -/
def opposed : Formula := .all .empty [⟨.bool true, holdsOf "p"⟩, ⟨holdsOf "p", .bool false⟩] []

/-- Of the predicates only `p` is true. -/
noncomputable def algebra : Algebra Value :=
  Value.algebra (fun name _ => .bool (name == "p")) (fun _ _ => .nil)

def solution (v : Variable) : Value := if v = x then .bool false else .atom v

theorem holds_formula : formula.Holds algebra solution := by
  have hequation : (Term.eqK (holdsOf "p") (holdsOf "q")).eval algebra solution =
      algebra.bool false := by
    rw [Term.eqK, Term.eval_builtin]
    exact algebra.equal_of_ne nofun
  refine (Formula.holds_all_iff _ _ _ _ _).mpr ⟨List.forall_mem_singleton.mpr rfl, ?_, by simp⟩
  exact List.forall_mem_cons.mpr ⟨rfl, List.forall_mem_cons.mpr
    ⟨hequation, List.forall_mem_singleton.mpr rfl⟩⟩

/-- The formula tells that `p(Z)` is not false, that `X` is false and that `q(Z)` equals `r(Z)`, and
    all this is so; with opposite truth values for `p(Z)` there is no solution. -/
theorem known_values_hold_formula : formula.Holds algebra solution ∧
    formula.facts (.builtin .not [holdsOf "p"]) = some false ∧
    (Term.builtin .not [holdsOf "p"]).eval algebra solution = algebra.bool false ∧
    formula.facts (.eqK (holdsOf "q") (holdsOf "r")) = some true ∧
    (Term.eqK (holdsOf "q") (holdsOf "r")).eval algebra solution = algebra.bool true ∧
    opposed.isContradictory = true ∧ ¬opposed.Holds algebra solution := by
  have hnegation : formula.facts (.builtin .not [holdsOf "p"]) = some false := by cbv
  have hequation : formula.facts (.eqK (holdsOf "q") (holdsOf "r")) = some true := by cbv
  have hopposed : opposed.isContradictory = true := by cbv
  obtain ⟨hfacts, -⟩ := Formula.known_values_hold algebra solution formula
  obtain ⟨-, -, hcontradictory, -⟩ := Formula.known_values_hold algebra solution opposed
  exact ⟨holds_formula, hnegation, hfacts _ _ hnegation holds_formula, hequation,
    hfacts _ _ hequation holds_formula, hopposed, hcontradictory hopposed⟩

end Told

end Entail
