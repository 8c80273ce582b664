import Entail.Proofs.Entailment
import Entail.Proofs.Preservation

set_option autoImplicit false

/-! # Entailment without existential variables

Where all terms are well-sorted, nothing has to be asked of what is reported: a formula that has a
solution is not refuted, every condition to split on is a truth value, and a right side without
existential variables is discharged only if nothing is left of it. -/

namespace Entail

variable {V σ : Type}

/-! ## Answers -/

namespace Formula

variable {voc : Vocabulary} {M : Model V} {Q : Symbol → Prop} {mode : SimplifyMode}
  {φ S : Formula} {answer : Simplified}

/-- What simplification answers to `φ`, or to a sortable formula that compares equal to it. -/
def SortablyAnswered (voc : Vocabulary) (Q : Symbol → Prop) (mode : SimplifyMode) (φ : Formula)
    (answer : Simplified) : Prop :=
  ∃ ψ : Formula, ψ.bare = φ.bare ∧ ψ.Within (fun v => voc.lattice.Known v.sort) Q ∧
    ψ.simplify voc Unifier.structural mode = answer ∧ ψ.Sortable voc Q

theorem SortablyAnswered.simplifies (h : φ.SortablyAnswered voc Q mode answer) :
    φ.Simplifies voc Q mode answer := by
  obtain ⟨ψ, hψ, hwithin, hsimplify, _⟩ := h
  exact ⟨ψ, hψ, hwithin, hsimplify⟩

theorem SortablyAnswered.sortable (hM : M.Compares voc Q)
    (h : φ.SortablyAnswered voc Q mode (.ok S)) : S.Sortable voc Q ∧ S.bindings.Sortable voc Q := by
  obtain ⟨ψ, _, _, hsimplify, hsortable⟩ := h
  exact sortable_simplify hM hsortable hsimplify

end Formula

/-! ## The rules for goals -/

/-- Without variables to turn bindings to there is nothing to turn around. -/
theorem Formula.orient_nil (voc : Vocabulary) (facts : Facts) (φ : Formula) :
    φ.orient voc facts [] = φ := by
  cases φ with
  | falsified w => rfl
  | all s es ds =>
    have hturnable : turnable [] s = .empty := by
      unfold turnable
      induction s.entries with
      | nil => rfl
      | cons entry entries ih =>
        obtain ⟨key, value⟩ := entry
        cases value <;> simpa using ih
    rw [orient]
    simp [hturnable, Substitution.isEmpty, Substitution.empty]

/-- A right side that is discharged without existential variables holds everywhere. -/
theorem Engine.isTrue_of_isDischarged {φ : Formula} (hfalse : φ.isFalse = false)
    (h : isDischarged φ [] = true) : φ.isTrue = true := by
  rcases Bool.or_eq_true_iff.mp h with htrue | hbound
  · exact htrue
  cases φ with
  | falsified w => cases hfalse
  | all s es ds =>
    simp only [Formula.equalities, Formula.disjunctions, Formula.bindings, Substitution.keys,
      Bool.and_eq_true, List.isEmpty_iff, List.all_eq_true, List.mem_map] at hbound
    obtain ⟨⟨rfl, rfl⟩, hkeys⟩ := hbound
    have hnone : s.entries = [] :=
      List.eq_nil_iff_forall_not_mem.mpr fun entry hentry =>
        absurd (hkeys entry.1 ⟨entry, hentry, rfl⟩) (by simp)
    simp [Formula.isTrue, Substitution.isEmpty, hnone]

/-- A formula of checked terms, of declared sorts and known symbols, in which no name is one that
    simplification may choose. -/
structure Formula.Checked (voc : Vocabulary) (Q : Symbol → Prop) (φ : Formula) : Prop where
  within : φ.Within (fun v => voc.lattice.Known v.sort) Q
  heads : φ.Each (Term.CheckedHead voc)
  names : ∀ v ∈ φ.occurrences, v.isFresh = false

theorem Formula.Checked.named {voc : Vocabulary} {Q : Symbol → Prop} {φ : Formula}
    (hφ : φ.Checked voc Q) :
    φ.Within (fun v => voc.lattice.Known v.sort ∧ v.isFresh = false) Q :=
  within_occurrences hφ.within fun v hv => ⟨Within.occurrences hφ.within v hv, hφ.names v hv⟩

/-- What is declared: subsorts are acyclic, nothing lies below the sorts of truth values and integers,
    and the symbols have declared sorts. -/
structure Vocabulary.Regular (voc : Vocabulary) (Q : Symbol → Prop) : Prop where
  built : voc.Built
  acyclic : voc.lattice.Acyclic
  minimal : ∀ s : SortName, s.IsBasic → ∀ r, voc.lattice.isSubsortEq s r = true → r = s
  known : ∀ f, Q f → voc.Knows f

/-- The model has no truth values but the two. -/
def Model.TwoValued (M : Model V) : Prop := ∀ v, M.mem .bool v → ∃ b, v = M.bool b

/-- A model of an engine by which sorts are compared: the oracle is right in it, nothing is lost in
    it by simplification, and it has two truth values. -/
structure Engine.SortedModels (e : Engine σ) (M : Model V) (Q : Symbol → Prop) : Prop
    extends e.Sound M, M.Compares e.vocabulary Q where
  built : e.vocabulary.Built
  known : ∀ f, Q f → e.vocabulary.Knows f
  tight : M.Tight e.vocabulary Q
  folds : M.Folds .default
  bool : M.TwoValued

namespace Engine

variable {e : Engine σ} {M : Model V} {Q : Symbol → Prop} {left right : Formula}

theorem SortedModels.lossless (hM : e.SortedModels M Q) :
    M.Lossless e.vocabulary Q e.vocabulary.lattice.Known :=
  hM.ordered.lossless hM.closed hM.acyclic hM.tight hM.known

theorem answers_sortablyAnswered (he : e.Sound M) (J : Diagnostic → Prop) :
    e.Answers J (fun φ => φ.Within (fun v => e.vocabulary.lattice.Known v.sort) Q ∧
      φ.Sortable e.vocabulary Q) (Formula.SortablyAnswered e.vocabulary Q) where
  congr {mode φ ψ answer} h heq := by
    obtain ⟨χ, hχ, hrest⟩ := h
    exact ⟨χ, hχ.trans heq, hrest⟩
  self hφ hanswer _ := ⟨_, rfl, hφ.1, he.unifier ▸ hanswer, hφ.2⟩

theorem SortedModels.carries (hM : e.SortedModels M Q) {φ : Formula} {answer : Simplified}
    (h : φ.SortablyAnswered e.vocabulary Q .default answer) : M.Carries φ answer := by
  obtain ⟨ψ, hψ, hwithin, rfl, hsortable⟩ := h
  refine Formula.carries_congr hψ (Formula.carries_simplify hM.lossless hM.folds hM.ordered
    hM.sorted hwithin fun r hr _ ρ hρ hholds => ?_)
  exact Formula.not_refuted_of_sortable hM.toCompares hM.built hM.known hM.lossless hM.folds
    hwithin hsortable (fun v _ => hρ v) hholds r hr

/-- The rules for goals of sortable terms, whatever is reported. -/
theorem SortedModels.rules (hM : e.SortedModels M Q) :
    e.Rules M [] (fun _ => True)
      (fun φ => φ.Within (fun v => e.vocabulary.lattice.Known v.sort) Q ∧
        φ.Sortable e.vocabulary Q)
      (fun φ => (φ.Within (fun v => e.vocabulary.lattice.Known v.sort) Q ∧
        φ.Sortable e.vocabulary Q) ∧ φ.bindings.Sortable e.vocabulary Q)
      (fun φ => φ.Within (fun v => e.vocabulary.lattice.Known v.sort) Q ∧
        φ.Sortable e.vocabulary Q)
      (Formula.SortablyAnswered e.vocabulary Q) where
  toSound := hM.toSound
  answers := answers_sortablyAnswered hM.toSound _
  left hφ := hφ.1
  apart _ _ _ := List.not_mem_nil
  simplified hφ h := by
    obtain ⟨hsortable, hbindings⟩ := h.sortable hM.toCompares
    have hwithin := h.simplifies.within hM.lossless
    exact ⟨⟨⟨Formula.Within.mono (fun _ hv => hv.1) hwithin, hsortable⟩, hbindings⟩,
      fun _ => Formula.proves_of_carries (hM.carries h) fun _ => h.simplifies.holds⟩
  refuted _ h _ := Formula.proves_of_refuted (hM.carries h)
  prepared hleft hright := by
    refine ⟨Formula.within_prepared hleft.1.1 hright.1, ?_⟩
    rw [prepared, Formula.orient_nil]
    exact Formula.sortable_rewrite hM.toCompares _ hleft.2 hright.2
  reduced {left right S} hleft hright h := by
    have hreduced : Formula.Reduced M e.vocabulary Q left right _ :=
      h.simplifies.reduced hM.lossless
    have hfalse : S.isFalse = false := by
      obtain ⟨ψ, _, _, hsimplify, _⟩ := h
      exact Formula.isFalse_of_simplify hsimplify
    have hsortable : (left.without S).Sortable e.vocabulary Q :=
      Formula.each_without (h.sortable hM.toCompares).1
    rw [Formula.orient_nil] at hreduced ⊢
    refine ⟨⟨hreduced.within, hsortable⟩, hreduced.proves, fun hdischarged _ ρ hρ _ hholds => ?_,
      fun c hc _ => ?_⟩
    · have hopen : (left.without S).isFalse = false := by
        cases S with
        | falsified w => exact hfalse
        | all s es ds => rfl
      exact ⟨ρ, hρ, fun _ _ _ => rfl, hholds,
        Formula.holds_of_isTrue (isTrue_of_isDischarged hopen hdischarged)⟩
    · have hwithin := hreduced.within.of_mem_conditions hc
      obtain ⟨hcSortable, hcBool⟩ := hsortable.has_bool hc
      refine ⟨fun b => ⟨⟨Formula.everywhere_addEquality (fun _ => trivial) hleft.1.1
        ⟨hwithin, trivial⟩, Formula.everywhere_addEquality (fun _ => trivial) hleft.1.2
        ⟨hcSortable, trivial⟩⟩, fun entry hentry => hleft.2 entry
          (Formula.subset_addEquality left _ entry hentry)⟩, fun hcases => ?_⟩
      refine Formula.proves_of_cases hM.bool (hreduced.flat.of_mem_conditions hc) (fun ρ hρ => ?_)
        hcases
      have hrespects : M.Respects (fun v => e.vocabulary.lattice.Known v.sort) ρ := fun v _ => hρ v
      exact ⟨Term.mem_of_has hM.ordered hM.sorted hrespects hwithin hcSortable hcBool,
        Term.typed_of_sortable hM.ordered hM.sorted hrespects hwithin hcSortable⟩

/-- **What is answered with yes holds wherever the left side does**, if all terms are well-sorted and
    the bindings of the left side respect sorts. -/
theorem holds_of_smartImplies (hvoc : e.vocabulary.Regular Q)
    (hunifier : e.unifier = Unifier.structural) (hleft : left.Checked e.vocabulary Q)
    (hbindings : ∀ entry ∈ left.bindings.entries,
      e.vocabulary.lattice.isSubsortEq entry.1.sort entry.2.sort = true)
    (hright : right.Checked e.vocabulary Q) {s : Session σ}
    (hempty : s.simplifications.entries = [] ∧ s.implications.entries = [])
    (hyes : ((e.smartImplies left right).run s).1 = .ok true)
    (M : Model V) (hM : M.Standard e.vocabulary Q .default) (hsorted : M.Sorted e.vocabulary Q)
    (hbool : M.TwoValued) (horacle : e.oracle.Sound M)
    (ρ : Variable → V) (hρ : M.Total ρ) (hholds : left.Holds M.toAlgebra ρ) :
    right.Holds M.toAlgebra ρ := by
  have hclosed := hvoc.built.closed
  have hmodels : e.SortedModels M Q :=
    { unifier := hunifier
      oracle := horacle
      closed := hclosed
      acyclic := hvoc.acyclic
      ordered := hM.ordered
      sorted := hsorted
      inhabited := ⟨ρ, fun v _ => hρ v⟩
      minimal := hvoc.minimal
      built := hvoc.built
      known := hvoc.known
      tight := hM.tight
      folds := hM.folds
      bool := hbool }
  have hleftApt := Formula.apt_of_checked hclosed hvoc.acyclic hleft.within hleft.heads
  have hleftSortable := Formula.sortable_of_apt hleftApt
  have hleftBindings := Formula.sortable_bindings_of_apt hclosed hvoc.acyclic hleftApt hbindings
  have hrightSortable : right.Sortable e.vocabulary Q :=
    Formula.sortable_of_apt
      (Formula.apt_of_checked hclosed hvoc.acyclic hright.within hright.heads)
  -- the right side that is shown has the bindings of the left side put into it
  have hgoal : (right.rewrite e.vocabulary .unknown left.bindings.get?).Within
      (fun v => e.vocabulary.lattice.Known v.sort ∧ v.isFresh = false) Q :=
    Formula.within_rewritten (Formula.Within.bindings hleft.named) hright.named
  have hsound : s.Trusted M (Formula.SortablyAnswered e.vocabulary Q) :=
    Session.trusted_of_empty hempty
  have hproves : M.Proves [] left (right.rewrite e.vocabulary .unknown left.bindings.get?) :=
    (hmodels.rules.finds_implies.holds
      ⟨⟨⟨hleft.within, hleftSortable⟩, hleftBindings⟩,
        Formula.Within.mono (fun _ hv => hv.1) hgoal,
        Formula.sortable_rewrite hmodels.toCompares _ hleftBindings hrightSortable⟩
      s hsound fun _ _ => trivial).2 true hyes rfl
  have htyped := Formula.typed_of_sortable hM.ordered hsorted (fun v _ => hρ v) hleft.within
    hleftSortable
  obtain ⟨ρ', _, hkept, _, hsolves⟩ := hproves ρ hρ htyped hholds
  have hrewritten : (right.rewrite e.vocabulary .unknown left.bindings.get?).Holds M.toAlgebra ρ :=
    Formula.holds_of_agree (fun v hv =>
      (hkept v (Formula.Within.occurrences hgoal v hv).2 List.not_mem_nil).symm) hsolves
  exact (Formula.holds_rewrite_iff (Facts.unknown_sound _ _)
    (Formula.facts_sound hholds).2 right).mp hrewritten

end Engine

/-! ### A case split -/

/-- Nothing lies below a sort that has no entry but itself. -/
theorem SortLattice.eq_of_below {l : SortLattice} {s r : SortName} (hk : s ≠ .k)
    (hs : l.below? s = some [s]) (h : l.isSubsortEq s r = true) : r = s := by
  rcases (isSubsortEq_iff l s r).mp h with rfl | h | ⟨lower, hlower, hmem⟩
  · rfl
  · exact absurd h hk
  · rw [hs] at hlower
    obtain rfl := Option.some.inj hlower
    exact List.mem_singleton.mp hmem

/-- Nothing lies below the basic sorts that have no entries but themselves. -/
theorem SortLattice.minimal_of_below {l : SortLattice} (hbool : l.below? .bool = some [.bool])
    (hint : l.below? .int = some [.int]) {s r : SortName} (hs : s.IsBasic)
    (h : l.isSubsortEq s r = true) : r = s := by
  rcases hs with rfl | rfl
  · exact eq_of_below (by decide) hbool h
  · exact eq_of_below (by decide) hint h

theorem Vocabulary.regular_initial : Vocabulary.initial.Regular fun _ => False where
  built := .initial
  acyclic := Chosen.acyclic
  minimal _ hs _ := SortLattice.minimal_of_below rfl rfl hs
  known := nofun

namespace Split

def x : Variable := ⟨"X", .int⟩

def b : Variable := ⟨"B", .bool⟩

/-- `X` is bound to `2`. -/
def left : Formula := .all ⟨[(x, .int 2)]⟩ [] []

/-- `(if B then 1 else X) <Int 3 = true` -/
def right : Formula :=
  .all .empty [⟨.builtin .lt [.ite (.var b) (.int 1) (.var x), .int 3], .bool true⟩] []

theorem checked_left : left.Checked .initial fun _ => False where
  within := (Formula.everywhere_all_iff _ _ _).mpr
    ⟨List.forall_mem_singleton.mpr ⟨Or.inr ⟨_, rfl⟩, trivial⟩, nofun, nofun⟩
  heads := (Formula.everywhere_all_iff _ _ _).mpr
    ⟨List.forall_mem_singleton.mpr ⟨trivial, trivial⟩, nofun, nofun⟩
  names := Variable.unchosen_of_any (by cbv)

theorem checked_right : right.Checked .initial fun _ => False where
  within := (Formula.everywhere_all_iff _ _ _).mpr ⟨nofun, List.forall_mem_singleton.mpr
    ⟨⟨trivial, ⟨trivial, Or.inr ⟨_, rfl⟩, trivial, Or.inr ⟨_, rfl⟩⟩, trivial, trivial⟩, trivial⟩,
    nofun⟩
  heads := by
    have hconditional : (Term.ite (.var b) (.int 1) (.var x)).CheckedHead .initial :=
      ⟨by decide, .int, Or.inr rfl, rfl, rfl⟩
    have hlt : (Term.builtin .lt [.ite (.var b) (.int 1) (.var x), .int 3]).CheckedHead .initial :=
      ⟨rfl, by decide⟩
    exact (Formula.everywhere_all_iff _ _ _).mpr ⟨nofun, List.forall_mem_singleton.mpr
      ⟨⟨hlt, ⟨hconditional, trivial, trivial, trivial⟩, trivial, trivial⟩, trivial⟩, nofun⟩
  names := Variable.unchosen_of_any (by cbv)

def solution (v : Variable) : Value := if v = x then .int 2 else Value.ofVariable v

theorem total_solution : Chosen.model.Total solution := by
  intro v
  rw [solution]
  split_ifs with hv
  · rw [hv]
    exact Vocabulary.initial.lattice.isSubsortEq_refl _
  · exact Value.mem_ofVariable v

theorem holds_right : left.Holds Chosen.model.toAlgebra solution ∧
    (((Engine.unaided .initial).smartImplies left right).run (.fresh {} ())).1 = .ok true ∧
      right.Holds Chosen.model.toAlgebra solution := by
  have hleft : left.Holds Chosen.model.toAlgebra solution :=
    (Formula.holds_all_iff _ _ _ _ _).mpr ⟨List.forall_mem_singleton.mpr rfl, nofun, nofun⟩
  have hyes : (((Engine.unaided .initial).smartImplies left right).run (.fresh {} ())).1 =
      .ok true := by
    decide +kernel
  have hstandard : Chosen.model.Standard .initial (fun _ => False) .default :=
    { ordered := Value.ordered_model Vocabulary.Built.initial.closed Chosen.acyclic
      tight := nofun
      folds := nofun }
  have hbindings : ∀ entry ∈ left.bindings.entries,
      Vocabulary.initial.lattice.isSubsortEq entry.1.sort entry.2.sort = true :=
    List.forall_mem_singleton.mpr (Vocabulary.initial.lattice.isSubsortEq_refl _)
  refine ⟨hleft, hyes, ?_⟩
  exact Engine.holds_of_smartImplies Vocabulary.regular_initial rfl checked_left hbindings
    checked_right ⟨rfl, rfl⟩ hyes Chosen.model hstandard (Value.sorted_model nofun)
    Chosen.bool_model (Oracle.sound_disabled Chosen.model) solution total_solution hleft

end Split

/-! ### What the conditions are for

Without a condition on the bindings of the left side, on truth values or on the unifier some
conclusion is drawn that does not follow. -/

/-- What is not so is concluded without an oracle, in a model of which `P` is true. -/
def Engine.WronglyConcludes (voc : Vocabulary) (unifier : Unifier) (Q : Symbol → Prop)
    (left right : Formula) (P : Model Value → Prop) : Prop :=
  voc.Regular Q ∧ left.Checked voc Q ∧ right.Checked voc Q ∧
  ((Engine.smartImplies ⟨voc, {}, unifier, Oracle.disabled Unit⟩ left right).run
    (.fresh {} ())).1 = .ok true ∧
  ∃ (M : Model Value) (ρ : Variable → Value), M.Standard voc Q .default ∧ M.Sorted voc Q ∧ P M ∧
    M.Total ρ ∧ left.Holds M.toAlgebra ρ ∧ ¬right.Holds M.toAlgebra ρ

namespace Wide

/-- `Bool` lies below `S`. -/
def vocabulary : Vocabulary := Vocabulary.initial.addSubsort ⟨"S"⟩ .bool

def g : Symbol := ⟨"g", .function, [⟨[.int], ⟨"S"⟩⟩]⟩

def x : Variable := ⟨"X", .bool⟩

def z : Variable := ⟨"Z", .int⟩

/-- `g(5)` -/
def value : Term := .app g [.int 5] ⟨"S"⟩

/-- `g(5) ==K true orBool g(5) ==K false` -/
def isTruth : Term :=
  .builtin .or [.builtin .eq [value, .bool true], .builtin .eq [value, .bool false]]

/-- `X` is bound to `g(Z)`, and `(if g(5) ==K true orBool g(5) ==K false then Z else 5) = 5`. -/
def left : Formula :=
  .all ⟨[(x, .app g [.var z] ⟨"S"⟩)]⟩ [⟨.ite isTruth (.var z) (.int 5), .int 5⟩] []

/-- `Z = 5` and `(if X then g(5) ==K true orBool g(5) ==K false else true) = true` -/
def right : Formula :=
  .all .empty [⟨.var z, .int 5⟩, ⟨.ite (.var x) isTruth (.bool true), .bool true⟩] []

theorem built : vocabulary.Built := .addSubsort _ _ .initial

theorem regular : vocabulary.Regular (· = g) where
  built := built
  acyclic := SortLattice.acyclic_of_entries (by decide)
  minimal _ hs _ := SortLattice.minimal_of_below rfl rfl hs
  known f hf := by
    rw [hf]
    exact List.forall_mem_singleton.mpr
      ⟨List.forall_mem_singleton.mpr (Or.inr ⟨_, rfl⟩), Or.inr ⟨_, rfl⟩⟩

theorem known_sort (v : Variable) (hv : v = x ∨ v = z) : vocabulary.lattice.Known v.sort := by
  rcases hv with rfl | rfl <;> exact Or.inr ⟨_, rfl⟩

theorem within_isTruth : isTruth.Within (fun v => vocabulary.lattice.Known v.sort) (· = g) :=
  have hvalue : value.Within (fun v => vocabulary.lattice.Known v.sort) (· = g) :=
    ⟨rfl, trivial, trivial⟩
  ⟨trivial, ⟨trivial, hvalue, trivial, trivial⟩, ⟨trivial, hvalue, trivial, trivial⟩, trivial⟩

theorem leastSort_g (sorts : List SortName) : vocabulary.leastSort g sorts = ⟨"S"⟩ :=
  vocabulary.leastSort_of_single (show g.signatures = [⟨[.int], ⟨"S"⟩⟩] from rfl) sorts

theorem checked_application (t : Term) : (Term.app g [t] ⟨"S"⟩).CheckedHead vocabulary :=
  (leastSort_g _).symm

theorem checked_isTruth : isTruth.All (Term.CheckedHead vocabulary) := by
  have hvalue : value.All (Term.CheckedHead vocabulary) := ⟨checked_application _, trivial, trivial⟩
  have hequation (b : Bool) :
      (Term.builtin .eq [value, .bool b]).All (Term.CheckedHead vocabulary) :=
    ⟨⟨rfl, by cases b <;> decide⟩, hvalue, trivial, trivial⟩
  exact ⟨⟨rfl, by decide⟩, hequation true, hequation false, trivial⟩

theorem checked_left : left.Checked vocabulary (· = g) where
  within := (Formula.everywhere_all_iff _ _ _).mpr
    ⟨List.forall_mem_singleton.mpr ⟨known_sort x (Or.inl rfl), rfl, known_sort z (Or.inr rfl),
      trivial⟩, List.forall_mem_singleton.mpr ⟨⟨trivial, within_isTruth, known_sort z (Or.inr rfl),
        trivial⟩, trivial⟩, nofun⟩
  heads := by
    have hconditional : (Term.ite isTruth (.var z) (.int 5)).CheckedHead vocabulary :=
      ⟨by decide, .int, Or.inr rfl, rfl, rfl⟩
    exact (Formula.everywhere_all_iff _ _ _).mpr
      ⟨List.forall_mem_singleton.mpr ⟨trivial, checked_application _, trivial, trivial⟩,
        List.forall_mem_singleton.mpr
          ⟨⟨hconditional, checked_isTruth, trivial, trivial⟩, trivial⟩, nofun⟩
  names := Variable.unchosen_of_any (by cbv)

theorem checked_right : right.Checked vocabulary (· = g) where
  within := (Formula.everywhere_all_iff _ _ _).mpr
    ⟨nofun, List.forall_mem_cons.mpr ⟨⟨known_sort z (Or.inr rfl), trivial⟩,
      List.forall_mem_singleton.mpr ⟨⟨trivial, known_sort x (Or.inl rfl), within_isTruth, trivial⟩,
        trivial⟩⟩, nofun⟩
  heads := by
    have hconditional : (Term.ite (.var x) isTruth (.bool true)).CheckedHead vocabulary :=
      ⟨by decide, .bool, Or.inl rfl, rfl, rfl⟩
    exact (Formula.everywhere_all_iff _ _ _).mpr
      ⟨nofun, List.forall_mem_cons.mpr ⟨⟨trivial, trivial⟩, List.forall_mem_singleton.mpr
        ⟨⟨hconditional, trivial, checked_isTruth, trivial⟩, trivial⟩⟩, nofun⟩
  names := Variable.unchosen_of_any (by cbv)

/-- `g(6)` is true, and `g` has no truth value elsewhere. -/
def function (_ : String) : List Value → Value
  | [.int 6] => .bool true
  | _ => .atom ⟨"W", ⟨"S"⟩⟩

noncomputable def model : Model Value :=
  Value.model vocabulary (fun _ => default) function (fun _ _ => .nil)

theorem sorted : model.Sorted vocabulary (· = g) := by
  refine Value.sorted_of_applications fun f hf sorts vs => ?_
  obtain rfl := hf
  rw [leastSort_g]
  show model.mem ⟨"S"⟩ (function "g" vs)
  unfold function
  split
  · show vocabulary.lattice.isSubsortEq ⟨"S"⟩ .bool = true
    decide
  · exact vocabulary.lattice.isSubsortEq_refl _

theorem twoValued : model.TwoValued := by
  refine fun v hv => Value.bool_model (fun s hs => ?_) (fun name sorts => ?_) v hv
  · exact SortLattice.eq_of_below (by decide) rfl hs
  · show SortName.k ≠ .bool
    decide

/-- `X` is true and `Z` is `6`. -/
def solution (v : Variable) : Value :=
  if v = x then .bool true else if v = z then .int 6 else Value.ofVariable v

theorem total_solution : model.Total solution := by
  intro v
  rw [solution]
  split_ifs with hx hz
  · rw [hx]
    exact vocabulary.lattice.isSubsortEq_refl _
  · rw [hz]
    exact vocabulary.lattice.isSubsortEq_refl _
  · exact Value.mem_ofVariable v

theorem holds_left : left.Holds model.toAlgebra solution := by
  have hequation (b : Bool) :
      (Term.builtin .eq [value, .bool b]).eval model.toAlgebra solution = model.bool false := by
    rw [Term.eval_builtin]
    exact model.equal_of_ne nofun
  have hfalse : isTruth.eval model.toAlgebra solution = model.bool false := by
    rw [isTruth, Term.eval_builtin]
    exact (model.disj_eq_false_iff _ _).mpr ⟨hequation true, hequation false⟩
  refine (Formula.holds_all_iff _ _ _ _ _).mpr ⟨List.forall_mem_singleton.mpr rfl,
    List.forall_mem_singleton.mpr ?_, nofun⟩
  show (Term.ite isTruth (.var z) (.int 5)).eval model.toAlgebra solution = .int 5
  rw [Term.eval_ite, hfalse, Algebra.choose, if_neg (by simp)]
  rfl

theorem wronglyConcludes :
    Engine.WronglyConcludes vocabulary Unifier.structural (· = g) left right Model.TwoValued := by
  refine ⟨regular, checked_left, checked_right, by decide +kernel, model, solution, ?_, sorted,
    twoValued, total_solution, holds_left, fun hright => ?_⟩
  · exact
      { ordered := Value.ordered_model built.closed regular.acyclic
        tight := fun f hf hconstructor => by
          rw [hf] at hconstructor
          exact absurd hconstructor (by decide)
        folds := nofun }
  · have hz : Value.int 6 = Value.int 5 :=
      ((Formula.holds_all_iff _ _ _ _ _).mp hright).2.1 _ (List.mem_cons_self ..)
    exact absurd (Value.int.inj hz) (by decide)

end Wide

namespace Split

/-- `(if B then true else B ==K false) = true` -/
def either : Formula := .all .empty
  [⟨.ite (.var b) (.bool true) (.builtin .eq [.var b, .bool false]), .bool true⟩] []

theorem checked_top : Formula.top.Checked .initial fun _ => False where
  within := (Formula.everywhere_all_iff _ _ _).mpr ⟨nofun, nofun, nofun⟩
  heads := (Formula.everywhere_all_iff _ _ _).mpr ⟨nofun, nofun, nofun⟩
  names := nofun

theorem checked_either : either.Checked .initial fun _ => False where
  within := (Formula.everywhere_all_iff _ _ _).mpr ⟨nofun, List.forall_mem_singleton.mpr
    ⟨⟨trivial, Or.inr ⟨_, rfl⟩, trivial, trivial, Or.inr ⟨_, rfl⟩, trivial, trivial⟩, trivial⟩,
    nofun⟩
  heads := by
    have hequation : (Term.builtin .eq [.var b, .bool false]).CheckedHead .initial :=
      ⟨rfl, by decide⟩
    have hconditional : (Term.ite (.var b) (.bool true)
        (.builtin .eq [.var b, .bool false])).CheckedHead .initial :=
      ⟨by decide, .bool, Or.inl rfl, rfl, rfl⟩
    exact (Formula.everywhere_all_iff _ _ _).mpr ⟨nofun, List.forall_mem_singleton.mpr
      ⟨⟨hconditional, trivial, trivial, hequation, trivial, trivial, trivial⟩, trivial⟩, nofun⟩
  names := Variable.unchosen_of_any (by cbv)

/-- The atom `B` is a third truth value. -/
noncomputable def thirdModel : Model Value where
  toAlgebra := Chosen.model.toAlgebra
  mem s v := Chosen.model.mem s v ∨
    Vocabulary.initial.lattice.isSubsortEq s .bool = true ∧ v = .atom b

theorem standard_thirdModel : thirdModel.Standard .initial (fun _ => False) .default := by
  have hclosed := Vocabulary.Built.initial.closed
  have hordered : Chosen.model.Ordered Vocabulary.initial.lattice :=
    Value.ordered_model hclosed Chosen.acyclic
  -- a sort that the atom has in the old model lies above all sorts
  have habove {s r : SortName} (hs : Chosen.model.mem s (.atom b)) :
      Vocabulary.initial.lattice.isSubsortEq s r = true := by
    have hk : Vocabulary.initial.lattice.isSubsortEq .k r = true :=
      (SortLattice.isSubsortEq_iff _ _ _).mpr (Or.inr (Or.inl rfl))
    exact Chosen.acyclic.trans hclosed hs hk
  refine ⟨⟨fun v => Or.inl (hordered.top v), fun r s v hrs hs => ?_, fun r s v hr hs => ?_⟩,
    nofun, nofun⟩
  · rcases hs with hs | ⟨hs, hv⟩
    · exact Or.inl (hordered.mono r s v hrs hs)
    · exact Or.inr ⟨Chosen.acyclic.trans hclosed hrs hs, hv⟩
  · rcases hr with hr | ⟨hr, rfl⟩
    · rcases hs with hs | ⟨hs, rfl⟩
      · obtain ⟨common, hrc, hsc, hmem⟩ := hordered.meet r s v hr hs
        exact ⟨common, hrc, hsc, Or.inl hmem⟩
      · exact ⟨.bool, habove hr, hs, Or.inr ⟨SortLattice.isSubsortEq_refl _ _, rfl⟩⟩
    · rcases hs with hs | ⟨hs, _⟩
      · exact ⟨.bool, hr, habove hs, Or.inr ⟨SortLattice.isSubsortEq_refl _ _, rfl⟩⟩
      · exact ⟨.bool, hr, hs, Or.inr ⟨SortLattice.isSubsortEq_refl _ _, rfl⟩⟩

theorem sorted_thirdModel : thirdModel.Sorted .initial fun _ => False where
  bool _ := Or.inl (SortLattice.isSubsortEq_refl _ _)
  int _ := Or.inl (SortLattice.isSubsortEq_refl _ _)
  str _ := Or.inl (SortLattice.isSubsortEq_refl _ _)
  nil := Or.inl (SortLattice.isSubsortEq_refl _ _)
  cons _ _ := Or.inl (SortLattice.isSubsortEq_refl _ _)
  app _ hf := hf.elim

theorem wronglyConcludes_either :
    Engine.WronglyConcludes .initial Unifier.structural (fun _ => False) .top either
      fun _ => True := by
  refine ⟨Vocabulary.regular_initial, checked_top, checked_either, by decide +kernel, thirdModel,
    fun v => if v = b then .atom b else Value.ofVariable v, standard_thirdModel, sorted_thirdModel,
    trivial, fun v => ?_,
    (Formula.holds_all_iff _ _ _ _ _).mpr ⟨List.forall_mem_nil _, by simp, by simp⟩,
    fun hright => ?_⟩
  · show thirdModel.mem v.sort (if v = b then _ else _)
    split_ifs with hv
    · rw [hv]
      exact Or.inr ⟨SortLattice.isSubsortEq_refl _ _, rfl⟩
    · exact Or.inl (Value.mem_ofVariable v)
  · have htrue := ((Formula.holds_all_iff _ _ _ _ _).mp hright).2.1 _ (List.mem_singleton.mpr rfl)
    rw [Equality.Holds, Term.eval_ite, Algebra.choose, if_neg (by rintro ⟨⟩),
      Term.eval_builtin] at htrue
    have hequal : thirdModel.equal (.atom b) (.bool false) = thirdModel.bool true := htrue
    rw [thirdModel.equal_eq_true_iff] at hequal
    exact absurd hequal (by simp)

/-- `[X] = [2]` -/
def lists : Formula := .all .empty [⟨.list [.var x] none, .list [.int 2] none⟩] []

theorem checked_lists : lists.Checked .initial fun _ => False where
  within := (Formula.everywhere_all_iff _ _ _).mpr ⟨nofun, List.forall_mem_singleton.mpr
    ⟨⟨trivial, Or.inr ⟨_, rfl⟩, trivial⟩, trivial, trivial, trivial⟩, nofun⟩
  heads := (Formula.everywhere_all_iff _ _ _).mpr ⟨nofun, List.forall_mem_singleton.mpr
    ⟨⟨trivial, trivial, trivial⟩, trivial, trivial, trivial⟩, nofun⟩
  names := Variable.unchosen_of_any (by cbv)

theorem checked_absurdity : Formula.absurdity.Checked .initial fun _ => False where
  within := (Formula.everywhere_all_iff _ _ _).mpr
    ⟨nofun, List.forall_mem_singleton.mpr ⟨trivial, trivial⟩, nofun⟩
  heads := (Formula.everywhere_all_iff _ _ _).mpr
    ⟨nofun, List.forall_mem_singleton.mpr ⟨trivial, trivial⟩, nofun⟩
  names := nofun

/-- A unifier that refutes everything. -/
theorem wronglyConcludes_absurdity :
    Engine.WronglyConcludes .initial (fun _ t u => .error ⟨t, u⟩) (fun _ => False) lists .absurdity
      Model.TwoValued := by
  have hordered : Chosen.model.Ordered Vocabulary.initial.lattice :=
    Value.ordered_model Vocabulary.Built.initial.closed Chosen.acyclic
  refine ⟨Vocabulary.regular_initial, checked_lists, checked_absurdity, by decide +kernel,
    Chosen.model, solution, ⟨hordered, nofun, nofun⟩, Value.sorted_model nofun, Chosen.bool_model,
    total_solution,
    (Formula.holds_all_iff _ _ _ _ _).mpr ⟨nofun, List.forall_mem_singleton.mpr rfl, nofun⟩,
    Formula.not_holds_absurdity _ _⟩

end Split

theorem smartImplies_unsound :
    Engine.WronglyConcludes Wide.vocabulary Unifier.structural (· = Wide.g) Wide.left Wide.right
      Model.TwoValued ∧
    Engine.WronglyConcludes .initial Unifier.structural (fun _ => False) .top Split.either
      (fun _ => True) ∧
    Engine.WronglyConcludes .initial (fun _ t u => .error ⟨t, u⟩) (fun _ => False) Split.lists
      .absurdity Model.TwoValued :=
  ⟨Wide.wronglyConcludes, Split.wronglyConcludes_either, Split.wronglyConcludes_absurdity⟩

end Entail
