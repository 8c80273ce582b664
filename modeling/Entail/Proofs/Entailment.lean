import Entail.Proofs.Goals
import Mathlib

set_option autoImplicit false

/-! # Entailment is sound

Where nothing is reported that is wrong to rely on, the rules for goals hold: a goal with a simplified
left side suffices, a right side whose bindings are of existential variables is shown by giving them
the values of the terms they are bound to, and a condition without existential variables has one of
two truth values in every solution of the left side. -/

namespace Entail

variable {V σ : Type}

/-- A model of an engine: the oracle is right in it, nothing is lost in it by simplification, and it
    has two truth values. No existential variable has a name that simplification may choose. -/
structure Engine.Models (e : Engine σ) (M : Model V) (Q : Symbol → Prop) (existentials : VarSet) :
    Prop extends e.Sound M where
  lossless : M.Lossless e.vocabulary Q e.vocabulary.lattice.Known
  folds : M.Folds .default
  ordered : M.Ordered e.vocabulary.lattice
  sorted : M.Sorted e.vocabulary Q
  bool : ∀ v, M.mem .bool v → ∃ b, v = M.bool b
  names : ∀ v ∈ existentials, v.isFresh = false

variable {e : Engine σ} {M : Model V} {Q : Symbol → Prop} {existentials : VarSet}
  {left right : Formula}

/-- The value of a term that fits a sort lies in the sort. -/
theorem Term.Fits.mem {voc : Vocabulary} (hordered : M.Ordered voc.lattice)
    (hsorted : M.Sorted voc Q) {X : Variable → Prop} {s : SortName} {t : Term}
    (ht : t.Fits voc s) (hwithin : t.Within X Q) {ρ : Variable → V} (hρ : M.Total ρ) :
    M.mem s (t.eval M.toAlgebra ρ) := by
  have hrespects : M.Respects X ρ := fun v _ => hρ v
  have htyped := typed_of_wellSorted hordered hsorted hrespects hwithin ht.wellSorted
  obtain ⟨b, hb, hmem⟩ := eval_mem_branchSorts hsorted hrespects hwithin htyped
  exact hordered.mono _ _ _ (ht.branches b hb) hmem

/-! ## Simplifying the left side -/

namespace Formula

/-- Simplification brings no existential variable into the left side. -/
theorem Simplifies.apart (hlossless : M.Lossless e.vocabulary Q e.vocabulary.lattice.Known)
    (hnames : ∀ v ∈ existentials, v.isFresh = false) {S : Formula}
    (hleft : left.Within (fun v => e.vocabulary.lattice.Known v.sort ∧ v ∉ existentials) Q)
    (h : left.Simplifies e.vocabulary Q .default (.ok S)) :
    S.Within (fun v => e.vocabulary.lattice.Known v.sort ∧ v ∉ existentials) Q := by
  have hscope := h.within hlossless
  refine within_occurrences hscope fun v hv => ?_
  obtain ⟨hknown, hold | hnew⟩ := Within.occurrences hscope v hv
  · exact ⟨hknown, (Within.occurrences hleft v hold).2⟩
  · refine ⟨hknown, fun hmem => ?_⟩
    rw [hnames v hmem] at hnew
    exact absurd hnew nofun

/-! ## Reducing the right side -/

/-- `R` is what is left to show of `right`. -/
structure Reduced (M : Model V) (voc : Vocabulary) (Q : Symbol → Prop) (left right R : Formula) :
    Prop where
  holds : ∀ ρ, left.Holds M.toAlgebra ρ → R.Holds M.toAlgebra ρ → right.Holds M.toAlgebra ρ
  within : R.Within (fun v => voc.lattice.Known v.sort) Q
  flat : R.Each Term.FlatHead
  resolved : R.bindings.Resolved

theorem Reduced.proves {voc : Vocabulary} {R : Formula} (h : Reduced M voc Q left right R)
    (hR : M.Proves existentials left R) : M.Proves existentials left right := by
  intro ρ hρ htyped hholds
  obtain ⟨ρ', hρ', hkept, hleft, hright⟩ := hR ρ hρ htyped hholds
  exact ⟨ρ', hρ', hkept, hleft, h.holds ρ' hleft hright⟩

/-- The variables and symbols of a rewritten formula are among the old ones and those of the
    bindings. -/
theorem within_rewritten {X : Variable → Prop} {voc : Vocabulary} {facts : Facts}
    {s : Substitution} (hs : ∀ entry ∈ s.entries, entry.2.Within X Q) {φ : Formula}
    (hφ : φ.Within X Q) : (φ.rewrite voc facts s.get?).Within X Q := by
  refine (unbound_rewrite (fun _ => trivial) (rewritesTo_of_each (fun t ht => ?_) hφ)).each
  refine Term.within_evaluate voc facts (Term.within_substitute ht fun v hv => ?_)
  cases hget : s.get? v with
  | none => exact hv
  | some u => exact hs _ (Substitution.mem_of_get? hget)

theorem Within.bindings {X : Variable → Prop} {φ : Formula} (hφ : φ.Within X Q) :
    ∀ entry ∈ φ.bindings.entries, entry.2.Within X Q := by
  cases φ with
  | falsified w => exact nofun
  | all s es ds => exact fun entry hentry => (((everywhere_all_iff s es ds).mp hφ).1 entry hentry).2

theorem within_prepared {X : Variable → Prop} (hleft : left.Within X Q)
    (hright : right.Within X Q) : (e.prepared left right existentials).Within X Q :=
  within_rewritten (Within.bindings hleft) (within_orient hright)

theorem subset_without (left S : Formula) :
    ∀ entry ∈ (left.without S).bindings.entries, entry ∈ S.bindings.entries := by
  cases S with
  | falsified w => exact fun _ h => h
  | all s es ds => exact fun _ h => (List.mem_filter.mp h).1

/-- What is left of a right side after simplification. -/
theorem Simplifies.reduced (hlossless : M.Lossless e.vocabulary Q e.vocabulary.lattice.Known)
    {S : Formula}
    (hS : (e.prepared left right existentials).Simplifies e.vocabulary Q .default (.ok S)) :
    Reduced M e.vocabulary Q left right
      ((left.without S).orient e.vocabulary .unknown existentials) where
  holds ρ hleft hholds := by
    obtain ⟨hfacts, hbindings⟩ := facts_sound hleft
    have hrest := holds_of_without hleft (holds_of_orient hholds)
    exact holds_of_orient ((holds_rewrite_iff hfacts hbindings _).mp (hS.holds hrest))
  within := within_orient (each_without (Within.mono (fun _ hv => hv.1) (hS.within hlossless)))
  flat := flat_orient (each_without hS.flat)
  resolved := resolved_orient (hS.resolved.subset (subset_without left S))

/-! ## Showing a goal -/

/-- A right side is shown by giving its variables the values of the terms they are bound to, if all
    of them are existential. -/
theorem proves_of_discharged (hM : e.Models M Q existentials) {R : Formula}
    (hleft : left.Within (fun v => e.vocabulary.lattice.Known v.sort ∧ v ∉ existentials) Q)
    (hR : Reduced M e.vocabulary Q left right R)
    (hdischarged : Engine.isDischarged R existentials = true)
    (hjustified : Diagnostic.Justified e.vocabulary existentials
      (.event (.provedBySimplification R))) : M.Proves existentials left R := by
  intro ρ hρ _ hholds
  obtain ⟨hfalse, hfits⟩ := hjustified
  unfold Engine.isDischarged at hdischarged
  rcases Bool.or_eq_true_iff.mp hdischarged with htrue | hbound
  · exact ⟨ρ, hρ, fun _ _ _ => rfl, hholds, holds_of_isTrue htrue⟩
  cases R with
  | falsified w => cases hfalse
  | all s es ds =>
    simp only [equalities, disjunctions, bindings, Bool.and_eq_true, List.isEmpty_iff,
      List.all_eq_true, Substitution.keys, List.mem_map, forall_exists_index, and_imp,
      forall_apply_eq_imp_iff₂] at hbound
    obtain ⟨⟨rfl, rfl⟩, hkeys⟩ := hbound
    have hkept : ∀ v, v ∉ existentials → Term.after M.toAlgebra ρ s.get? v = ρ v := by
      intro v hv
      cases hget : s.get? v with
      | none =>
        rw [Term.after, hget]
        rfl
      | some t =>
        have hkey := hkeys (v, t) (Substitution.mem_of_get? hget)
        exact absurd (List.contains_iff_mem.mp hkey) hv
    refine ⟨Term.after M.toAlgebra ρ s.get?, fun v => ?_, fun v _ hv => hkept v hv, ?_, ?_⟩
    · cases hget : s.get? v with
      | none =>
        rw [Term.after, hget]
        exact hρ v
      | some t =>
        rw [Term.after, hget]
        have hentry := Substitution.mem_of_get? hget
        have hwithin := ((everywhere_all_iff s [] []).mp hR.within).1 (v, t) hentry
        exact (hfits (v, t) hentry).mem hM.ordered hM.sorted hwithin.2 hρ
    · exact holds_of_agree (fun v hv => hkept v (Within.occurrences hleft v hv).2) hholds
    · exact (holds_all_iff _ _ s [] []).mpr
        ⟨hR.resolved.holds_after M.toAlgebra ρ, by simp, by simp⟩

/-- It suffices to show a goal for both truth values of a condition. -/
theorem proves_of_cases (hbool : ∀ v, M.mem .bool v → ∃ b, v = M.bool b) {c : Term}
    (hflat : c.Flat) (hc : ∀ ρ, M.Total ρ →
      M.mem .bool (c.eval M.toAlgebra ρ) ∧ c.All (Term.TypedHead M ρ))
    (h : ∀ b, M.Proves existentials (left.addTerms c (.bool b)) right) :
    M.Proves existentials left right := by
  intro ρ hρ htyped hholds
  obtain ⟨hmem, hcTyped⟩ := hc ρ hρ
  obtain ⟨b, hb⟩ := hbool _ hmem
  have hassumedTyped : (left.addTerms c (.bool b)).Each (Term.TypedHead M ρ) :=
    everywhere_addEquality (fun _ => trivial) htyped ⟨hcTyped, trivial⟩
  have hassumed : (left.addTerms c (.bool b)).Holds M.toAlgebra ρ :=
    holds_addEquality hholds ⟨hflat, trivial⟩ hb
  obtain ⟨ρ', hρ', hkept, hleft, hright⟩ := h b ρ hρ hassumedTyped hassumed
  exact ⟨ρ', hρ', hkept, (holds_of_addEquality hleft).1, hright⟩

end Formula

namespace Engine

/-- The rules for goals, where what is reported is right to rely on. -/
theorem Models.rules (hM : e.Models M Q existentials) :
    e.Rules M existentials (Diagnostic.Justified e.vocabulary existentials)
      (fun φ => φ.Within (fun v => e.vocabulary.lattice.Known v.sort) Q)
      (fun φ => φ.Within (fun v => e.vocabulary.lattice.Known v.sort ∧ v ∉ existentials) Q)
      (fun φ => φ.Within (fun v => e.vocabulary.lattice.Known v.sort) Q)
      (Formula.AnsweredBy e.vocabulary Q) where
  toSound := hM.toSound
  answers := answers_answeredBy hM.toSound
  left hφ := Formula.Within.mono (fun _ hv => hv.1) hφ
  apart hφ v hv := (Formula.Within.occurrences hφ v hv).2
  simplified hφ h := ⟨h.simplifies.apart hM.lossless hM.names hφ, fun _ =>
    Formula.proves_of_carries (h.carries hM.lossless hM.folds hM.ordered hM.sorted)
      fun _ => h.simplifies.holds⟩
  refuted _ h _ :=
    Formula.proves_of_refuted (h.carries hM.lossless hM.folds hM.ordered hM.sorted)
  prepared hleft hright :=
    Formula.within_prepared (Formula.Within.mono (fun _ hv => hv.1) hleft) hright
  reduced {left right S} hleft hright h := by
    have hreduced : Formula.Reduced M e.vocabulary Q left right _ :=
      h.simplifies.reduced hM.lossless
    refine ⟨hreduced.within, hreduced.proves, fun hdischarged hjustified =>
      Formula.proves_of_discharged hM hleft hreduced hdischarged hjustified,
      fun c hc hjustified => ?_⟩
    have hknown := hreduced.within.of_mem_conditions hc
    have hwithin : c.Within
        (fun v => e.vocabulary.lattice.Known v.sort ∧ v ∉ existentials) Q :=
      Term.within_occurrences hknown fun v hv =>
        ⟨Term.Within.occurrences hknown v hv, hjustified.2 v hv⟩
    refine ⟨fun b => Formula.everywhere_addEquality (fun _ => trivial) hleft ⟨hwithin, trivial⟩,
      fun hcases => ?_⟩
    refine Formula.proves_of_cases hM.bool (hreduced.flat.of_mem_conditions hc) (fun ρ hρ => ?_)
      hcases
    exact ⟨hjustified.1.mem hM.ordered hM.sorted hwithin hρ, Term.typed_of_wellSorted hM.ordered
      hM.sorted (fun v _ => hρ v) hwithin hjustified.1.wellSorted⟩

theorem finds_implies (hM : e.Models M Q existentials) :
    e.Finds M Q existentials
      (left.Within (fun v => e.vocabulary.lattice.Known v.sort ∧ v ∉ existentials) Q ∧
        right.Within (fun v => e.vocabulary.lattice.Known v.sort) Q)
      (e.implies left right existentials) fun answer =>
        answer = true → M.Proves existentials left right :=
  hM.rules.finds_implies

end Engine

/-! ### A chosen value -/

/-- A missing oracle says nothing that is wrong. -/
theorem Oracle.sound_disabled (M : Model V) : (Oracle.disabled σ).Sound M where
  unsat _ _ _ h := absurd (Except.ok.inj h) nofun
  implies _ _ _ _ _ h := absurd (Except.ok.inj h) nofun

/-- An engine without an oracle. -/
def Engine.unaided (voc : Vocabulary) : Engine Unit :=
  ⟨voc, {}, Unifier.structural, Oracle.disabled Unit⟩

namespace Chosen

def x : Variable := ⟨"X", .int⟩

def y : Variable := ⟨"Y", .int⟩

/-- `X = Y` -/
def formula : Formula := .all .empty [⟨.var x, .var y⟩] []

noncomputable def model : Model Value :=
  Value.model .initial (fun _ => default) (fun _ _ => .nil) (fun _ _ => .nil)

theorem acyclic : Vocabulary.initial.lattice.Acyclic := SortLattice.acyclic_of_entries (by decide)

theorem bool_model (v : Value) (hv : model.mem .bool v) : ∃ b, v = model.bool b := by
  refine Value.bool_model (fun s hs => ?_) (fun name sorts => ?_) v hv
  · rcases (SortLattice.isSubsortEq_iff _ _ _).mp hs with rfl | h | ⟨lower, hlower, hmem⟩
    · rfl
    · exact absurd h (by decide)
    · obtain rfl := Option.some.inj hlower
      exact List.mem_singleton.mp hmem
  · change SortName.k ≠ .bool
    decide

end Chosen

/-! ### What the conditions are for

Without a condition on what is reported, on names, on declared sorts, on overloaded constructors or
on the sorts of values, some entailment is answered with yes although it fails. -/

/-- An entailment is answered with yes although it fails in a model where subsorts are subsets and
    applications have the sorts of their signatures. -/
def Engine.WronglyImplies (voc : Vocabulary) (Q : Symbol → Prop) (left right : Formula)
    (existentials : VarSet) : Prop :=
  (∀ v ∈ left.occurrences, v ∉ existentials) ∧
  (((unaided voc).implies left right existentials).run (.fresh {} ())).1 = .ok true ∧
  ∃ M : Model Value, (∀ v, M.mem .k v) ∧
    (∀ a b v, voc.lattice.isSubsortEq a b = true → M.mem b v → M.mem a v) ∧ M.Sorted voc Q ∧
    ¬M.Entails left right existentials

/-- `true = false` -/
def Formula.absurdity : Formula := .all .empty [⟨.bool true, .bool false⟩] []

theorem Formula.not_holds_absurdity (A : Algebra V) (ρ : Variable → V) : ¬absurdity.Holds A ρ := by
  intro hholds
  have htrue : A.bool true = A.bool false :=
    ((holds_all_iff _ _ _ _ _).mp hholds).2.1 _ (List.mem_singleton.mpr rfl)
  exact absurd ((A.bool_inj true false).mp htrue) nofun

/-- A refuted formula implies everything, also where it has a solution. -/
theorem Formula.WronglyRefuted.implies {voc : Vocabulary} {φ : Formula}
    (h : φ.WronglyRefuted voc Q)
    (hyes : (((Engine.unaided voc).implies φ absurdity []).run (.fresh {} ())).1 = .ok true) :
    Engine.WronglyImplies voc Q φ absurdity [] := by
  obtain ⟨_, r, M, ρ, _, hordered, hsorted, _, hρ, hholds⟩ := h
  refine ⟨fun _ _ => List.not_mem_nil, hyes, M, hordered.top, hordered.mono, hsorted, ?_⟩
  intro hentails
  obtain ⟨ρ', _, _, hright⟩ := hentails ρ (fun v => hρ v trivial) hholds
  exact not_holds_absurdity _ _ hright

namespace Branches

def s : Variable := ⟨"X", ⟨"S"⟩⟩

end Branches

namespace Chosen

/-- `Y = X` -/
def condition : Term := .builtin .eq [.var y, .var x]

/-- `if Y = X then Y else 3 = 3` and `if Y = X then X else Y = X` -/
def divided : Formula := .all .empty
  [⟨.ite condition (.var y) (.int 3), .int 3⟩, ⟨.ite condition (.var x) (.var y), .var x⟩] []

end Chosen

namespace Clash

/-- `C` lies below `A` and `B`. -/
def vocabulary : Vocabulary :=
  (Vocabulary.initial.addSubsort ⟨"A"⟩ ⟨"C"⟩).addSubsort ⟨"B"⟩ ⟨"C"⟩

def x : Variable := ⟨"X", ⟨"A"⟩⟩

def y : Variable := ⟨"Y", ⟨"B"⟩⟩

/-- The variable that simplification takes for the common value of `X` and `Y`. -/
def common : Variable := ⟨"_X_Y", ⟨"C"⟩⟩

def z : Variable := ⟨"Z", ⟨"C"⟩⟩

theorem built : vocabulary.Built := .addSubsort _ _ (.addSubsort _ _ .initial)

theorem acyclic : vocabulary.lattice.Acyclic := SortLattice.acyclic_of_entries (by decide)

noncomputable def model : Model Value :=
  Value.model vocabulary (fun _ => default) (fun _ _ => .nil) (fun _ _ => .nil)

/-- `X` and `Y` have the value of `Z`. -/
def solution (v : Variable) : Value := if v = x ∨ v = y then .atom z else Value.ofVariable v

theorem total_solution : model.Total solution := by
  intro v
  rw [solution]
  split_ifs with hv
  · rcases hv with rfl | rfl
    · rfl
    · rfl
  · exact Value.mem_ofVariable v

end Clash

namespace Unequal

/-- `B` lies below `A`, and `S` below `T`. -/
def vocabulary : Vocabulary :=
  (Vocabulary.initial.addSubsort ⟨"A"⟩ ⟨"B"⟩).addSubsort ⟨"T"⟩ ⟨"S"⟩

def x : Variable := ⟨"X", ⟨"A"⟩⟩

def y : Variable := ⟨"Y", ⟨"B"⟩⟩

/-- Two symbols of one name. -/
def first : Symbol := ⟨"f", .function, [⟨[⟨"B"⟩], ⟨"S"⟩⟩, ⟨[⟨"A"⟩], ⟨"T"⟩⟩]⟩

def second : Symbol := ⟨"f", .function, [⟨[⟨"A"⟩], ⟨"T"⟩⟩]⟩

theorem built : vocabulary.Built := .addSubsort _ _ (.addSubsort _ _ .initial)

theorem acyclic : vocabulary.lattice.Acyclic := SortLattice.acyclic_of_entries (by decide)

/-- All applications have the same value. -/
noncomputable def model : Model Value :=
  Value.model vocabulary (fun _ => default) (fun _ _ => .atom ⟨"F", ⟨"S"⟩⟩) (fun _ _ => .nil)

theorem sorted : model.Sorted vocabulary fun f => f = first ∨ f = second := by
  refine Value.sorted_of_applications fun f hf sorts vs => ?_
  have hresult : ∀ sig ∈ first.signatures,
      vocabulary.lattice.isSubsortEq sig.result ⟨"S"⟩ = true := by
    decide
  rcases hf with rfl | rfl
  · rcases vocabulary.leastSort_cases first sorts with ⟨sig, hsig, _, heq⟩ | ⟨_, heq⟩
    · rw [heq]
      exact hresult sig hsig
    · rw [heq]
      rfl
  · rw [vocabulary.leastSort_of_single (show second.signatures = [⟨[⟨"A"⟩], ⟨"T"⟩⟩] from rfl)]
    rfl

/-- `X = Y` and `f(Y) ==K f(Y) = false` -/
def formula : Formula := .all .empty [⟨.var x, .var y⟩,
  ⟨.builtin .eq [vocabulary.apply first [.var y], vocabulary.apply second [.var y]], .bool false⟩] []

end Unequal

end Entail
