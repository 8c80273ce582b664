import Entail.Proofs.Solutions
import Entail.Proofs.Typing
import Entail.Proofs.Values

set_option autoImplicit false

/-! # Refutations

A formula that has a solution is refuted by nothing but the test of the sorts of one equality. That
test looks at one sort of each side, so it is right unless other branches of a conditional have sorts
that meet. -/

namespace Entail

variable {V : Type}

/-! ## Connectives along a run -/

namespace Worklist

variable {Q : Symbol → Prop} {voc : Vocabulary} {mode : SimplifyMode} {M : Model V}
  {D : SortName → Prop} {X : Variable → Prop} {ρ ρ' : Variable → V} {w w' : Worklist}

/-- In the equality that is decided about, connectives are applied to truth values. -/
theorem typed_looked (voc : Vocabulary) (hholds : w.Holds M.toAlgebra ρ)
    (htyped : w.Each (Term.TypedHead M ρ)) {e : Equality} {rest : List Equality}
    (hpending : w.pending = e :: rest) :
    (w.looked voc e rest).All (Term.TypedHead M ρ) := by
  have hfacts : (w.restFacts rest).Sound M.toAlgebra ρ := by
    refine Facts.ofParts_sound hholds.bindings (List.forall_mem_append.mpr ⟨hholds.visited, ?_⟩)
    exact fun e' he' => hholds.pending e' (hpending ▸ List.mem_cons_of_mem _ he')
  have hbound : ∀ v t, w.bindings.get? v = some t → t.All (Term.TypedHead M ρ) :=
    fun v t hv => (htyped.bindings _ (Substitution.mem_of_get? hv)).2
  have he := htyped.pending e (hpending ▸ List.mem_cons_self ..)
  exact ⟨Term.typed_rewrite voc hfacts hholds.bindings.get? hbound he.1,
    Term.typed_rewrite voc hfacts hholds.bindings.get? hbound he.2⟩

/-- A step with suitable values for the new variables keeps connectives applied to truth values. -/
theorem typed_next (hw : w.Good X Q) (hkept : ∀ v, v.name ∈ w.fresh.taken → ρ' v = ρ v)
    (hholds : w.Holds M.toAlgebra ρ) (hholds' : w'.Holds M.toAlgebra ρ')
    (htyped : w.Each (Term.TypedHead M ρ))
    (h : w.next voc Unifier.structural mode = .ok (.inl w')) : w'.Each (Term.TypedHead M ρ') := by
  have hold := hw.holds_congr hkept hholds
  have htyped' : w.Each (Term.TypedHead M ρ') :=
    Each.imp (fun t => Term.typed_congr fun v hv => hkept v (hw.names v hv)) hw.each htyped
  have hbound : ∀ v t, w.bindings.get? v = some t → t.All (Term.TypedHead M ρ') :=
    fun v t hv => (htyped'.bindings _ (Substitution.mem_of_get? hv)).2
  refine each_next (fun _ => trivial) hw htyped' (fun e rest step hpending hstep => ?_)
    (fun t ht => Term.typed_rewrite voc (Facts.unknown_sound _ _) hold.bindings.get? hbound ht) h
  have hsteps := Step.each_of_classify Term.plain_typed (typed_looked voc hold htyped' hpending) hstep
    (fun _ _ _ _ _ => trivial) fun _ _ _ _ _ => trivial
  refine ⟨hsteps, fun v t hbind u hu => ?_⟩
  subst hbind
  -- the bound variable has the value of its term in the worklist after the step
  have hvt : ρ' v = t.eval M.toAlgebra ρ' := by
    rcases next_inl_cases h with ⟨hnil, _⟩ | ⟨e', rest', hpending', hvisited⟩
    · rw [hnil] at hpending
      exact absurd hpending nofun
    · rw [hpending] at hpending'
      obtain ⟨rfl, rfl⟩ := List.cons.inj hpending'
      obtain ⟨step, hstep', happly⟩ := step_of_visit hvisited
      rw [hstep] at hstep'
      obtain rfl := Except.ok.inj hstep'
      exact ((holds_apply_iff hw.resolved (hw.step_spec hpending hstep).1 happly).mp hholds').2
  refine Term.typed_rewrite voc (Facts.unknown_sound _ _) (Substitution.agree_singleton hvt)
    (fun x s hs => ?_) hu
  rw [Substitution.get?_singleton] at hs
  split_ifs at hs
  obtain rfl := Option.some.inj hs
  exact hsteps.2

/-- A solved worklist whose connectives are applied to truth values. -/
structure Typed (M : Model V) (Q : Symbol → Prop) (D : SortName → Prop) (X : Variable → Prop)
    (ρ : Variable → V) (w : Worklist) : Prop extends Solved M Q D X ρ w where
  typed : w.Each (Term.TypedHead M ρ)

theorem Typed.next (hM : M.Lossless voc Q D) (hfolds : M.Folds mode) (hw : w.Typed M Q D X ρ)
    (h : w.next voc Unifier.structural mode = .ok (.inl w')) :
    ∃ X' ρ', w'.Typed M Q D X' ρ' ∧ Grown X X' w.fresh w'.fresh ρ ρ' := by
  obtain ⟨X', ρ', hw', hgrown⟩ := hw.toSolved.next hM hfolds h
  exact ⟨X', ρ', ⟨hw', typed_next hw.good hgrown.kept hw.holds hw'.holds hw.typed h⟩, hgrown⟩

end Worklist

/-! ## The test of sorts -/

/-- The test of sorts takes the equality to be false although the sorts of some branches of its
    sides meet. -/
def Equality.Misjudged (voc : Vocabulary) (e : Equality) : Prop :=
  e.truth = .unknown ∧ voc.lattice.haveCommonSubsort e.lhs.sort e.rhs.sort = false ∧
    ∃ a ∈ e.lhs.branchSorts voc, ∃ b ∈ e.rhs.branchSorts voc, ∃ s,
      voc.lattice.isSubsortEq a s = true ∧ voc.lattice.isSubsortEq b s = true

namespace Worklist

variable {Q : Symbol → Prop} {voc : Vocabulary} {mode : SimplifyMode} {M : Model V}
  {D : SortName → Prop} {X : Variable → Prop} {ρ : Variable → V} {w : Worklist}

/-- What refutes a worklist that has a solution was misjudged. -/
theorem Typed.misjudged (hfolds : M.Folds mode) (hordered : M.Ordered voc.lattice)
    (hsorted : M.Sorted voc Q) (hw : w.Typed M Q D X ρ) {r : Refutation}
    (h : w.next voc Unifier.structural mode = .error r) : r.witness.Misjudged voc := by
  obtain ⟨e, rest, hpending, rfl, htruth, hcommon⟩ :=
    refuted_of_next hfolds hw.good hw.holds h
  have hwithin := hw.good.within_looked_scope voc hpending
  have he := (rest_holds voc hw.holds hpending).2
  have htyped := typed_looked voc hw.holds hw.typed hpending
  obtain ⟨a, ha, haMem⟩ := Term.eval_mem_branchSorts hsorted hw.respects hwithin.1 htyped.1
  obtain ⟨b, hb, hbMem⟩ := Term.eval_mem_branchSorts hsorted hw.respects hwithin.2 htyped.2
  rw [show (w.looked voc e rest).lhs.eval M.toAlgebra ρ =
    (w.looked voc e rest).rhs.eval M.toAlgebra ρ from he] at haMem
  obtain ⟨s, has, hbs, _⟩ := hordered.meet a b _ haMem hbMem
  exact ⟨htruth, hcommon, a, ha, b, hb, s, has, hbs⟩

end Worklist

/-! ## Simplification -/

namespace Formula

variable {Q : Symbol → Prop} {voc : Vocabulary} {mode : SimplifyMode} {M : Model V}
  {D : SortName → Prop}

/-- A solution of a formula is extended to one of the result, unless the formula is refuted by a test
    of sorts that misjudged. -/
theorem exists_simplified (hM : M.Lossless voc Q D) (hfolds : M.Folds mode)
    (hordered : M.Ordered voc.lattice) (hsorted : M.Sorted voc Q) {φ : Formula}
    (hφ : φ.Within (fun v => D v.sort) Q) {ρ : Variable → V}
    (hρ : M.Respects (· ∈ φ.occurrences) ρ) (hholds : φ.Holds M.toAlgebra ρ)
    (htyped : φ.Each (Term.TypedHead M ρ)) :
    φ.simplify voc Unifier.structural mode = .error .exhausted ∨
    (∃ r, φ.simplify voc Unifier.structural mode = .error (.refuted r) ∧
      r.witness.Misjudged voc) ∨
    ∃ S ρ', φ.simplify voc Unifier.structural mode = .ok S ∧
      (∀ v ∈ φ.occurrences, ρ' v = ρ v) ∧ M.Respects (· ∈ S.occurrences) ρ' ∧
      S.Holds M.toAlgebra ρ' ∧ S.Each (Term.TypedHead M ρ') := by
  rcases φ.simplify_cases voc mode with ⟨w, rfl, _⟩ | ⟨_, hself⟩ | ⟨_, _, _, _, hrun⟩
  · exact absurd hholds (not_holds_falsified _ _ w)
  · exact Or.inr (Or.inr ⟨φ, ρ, hself, fun _ _ => rfl, hρ, hholds, htyped⟩)
  have hstart : (Worklist.ofFormula φ).Typed M Q D (· ∈ φ.occurrences) ρ :=
    ⟨solved_ofFormula hφ hρ hholds, Worklist.each_ofFormula htyped⟩
  rw [hrun]
  rcases Worklist.exists_last (fun hw => hw.good) (fun hw hnext => hw.next hM hfolds hnext)
    hstart φ.stepBound with
    hexhausted | ⟨X, ρ', w, hw, hgrown, ⟨S, hS, hdone⟩ | ⟨r, hr, hrefuted⟩⟩
  · exact Or.inl hexhausted
  · refine Or.inr (Or.inr ⟨S, ρ', hS, fun v hv => hgrown.kept v (hstart.good.names v hv), ?_,
      (Worklist.holds_done_iff hdone).mpr hw.holds, ?_⟩)
    · exact fun v hv => hw.respects v (Within.occurrences (hw.good.done hdone) v hv)
    · refine Worklist.each_done (fun _ => trivial) hw.typed.bindings hw.typed.visited
        hw.typed.disjunctions (fun t ht => ?_) hdone
      exact Term.typed_rewrite voc (Facts.unknown_sound _ _) hw.holds.bindings.get?
        (fun v t hv => (hw.typed.bindings _ (Substitution.mem_of_get? hv)).2) ht
  · exact Or.inr (Or.inl ⟨r, hr, hw.misjudged hfolds hordered hsorted hrefuted⟩)

/-- Well-sorted connectives of a formula are applied to truth values. -/
theorem typed_of_wellSorted {X : Variable → Prop} (hordered : M.Ordered voc.lattice)
    (hsorted : M.Sorted voc Q) {ρ : Variable → V} (hρ : M.Respects X ρ) {φ : Formula}
    (hφ : φ.Within X Q) (hwell : φ.Each (Term.WellSortedHead voc)) :
    φ.Each (Term.TypedHead M ρ) := by
  have hterm {t : Term} (ht : t.Within X Q) (hwell : t.All (Term.WellSortedHead voc)) :=
    Term.typed_of_wellSorted hordered hsorted hρ ht hwell
  induction φ using Formula.ind with
  | falsified w => trivial
  | all s es ds ih =>
    obtain ⟨hs, hes, hds⟩ := (everywhere_all_iff s es ds).mp hφ
    obtain ⟨hsWell, hesWell, hdsWell⟩ := (everywhere_all_iff s es ds).mp hwell
    refine (everywhere_all_iff s es ds).mpr ⟨fun entry hentry => ?_, fun e he => ?_,
      fun d hd φ hφ => ih d hd φ hφ (hds d hd φ hφ) (hdsWell d hd φ hφ)⟩
    · exact ⟨trivial, hterm (hs entry hentry).2 (hsWell entry hentry).2⟩
    · exact ⟨hterm (hes e he).1 (hesWell e he).1, hterm (hes e he).2 (hesWell e he).2⟩

/-- **A refuted formula has no solution**, unless what refutes it is a test of sorts that overlooked
    the branches of a conditional. -/
theorem not_holds_of_refuted (hvoc : voc.Built) (hacyclic : voc.lattice.Acyclic)
    (hQ : ∀ f, Q f → voc.Knows f) {φ : Formula}
    (hφ : φ.Within (fun v => voc.lattice.Known v.sort) Q)
    (hwell : φ.Each (Term.WellSortedHead voc)) {r : Refutation}
    (h : φ.simplify voc Unifier.structural mode = .error (.refuted r))
    (hr : ¬r.witness.Misjudged voc) (M : Model V) (hM : M.Standard voc Q mode)
    (hsorted : M.Sorted voc Q) (ρ : Variable → V) (hρ : M.Respects (· ∈ φ.occurrences) ρ) :
    ¬φ.Holds M.toAlgebra ρ := by
  intro hholds
  have hlossless := hM.ordered.lossless hvoc.closed hacyclic hM.tight hQ
  have htyped := typed_of_wellSorted hM.ordered hsorted hρ
    (within_occurrences hφ fun _ hv => hv) hwell
  rcases exists_simplified hlossless hM.folds hM.ordered hsorted hφ hρ hholds htyped with
    hexhausted | ⟨r', hr', hmisjudged⟩ | ⟨S, _, hS, _⟩
  · rw [h] at hexhausted
    exact absurd hexhausted nofun
  · rw [h] at hr'
    obtain rfl := Halt.refuted.inj (Except.error.inj hr')
    exact hr hmisjudged
  · rw [h] at hS
    exact absurd hS nofun

end Formula

/-! ### Branches of two sorts

The sort of a conditional is that of its first branch. Where the other branch is taken, the test of
sorts looks at the wrong one. -/

namespace Branches

/-- `A` and `B` lie below `S`. -/
def vocabulary : Vocabulary :=
  (Vocabulary.initial.addSubsort ⟨"S"⟩ ⟨"A"⟩).addSubsort ⟨"S"⟩ ⟨"B"⟩

def x : Variable := ⟨"X", ⟨"A"⟩⟩

def y : Variable := ⟨"Y", ⟨"B"⟩⟩

def z : Variable := ⟨"Z", ⟨"B"⟩⟩

def c : Variable := ⟨"C", .bool⟩

theorem built : vocabulary.Built := .addSubsort _ _ (.addSubsort _ _ .initial)

theorem acyclic : vocabulary.lattice.Acyclic := SortLattice.acyclic_of_entries (by decide)

noncomputable def model : Model Value :=
  Value.model vocabulary (fun _ => default) (fun _ _ => .nil) (fun _ _ => .nil)

theorem standard : model.Standard vocabulary (fun _ => False) .default where
  ordered := Value.ordered_model built.closed acyclic
  tight := nofun
  folds := nofun

theorem sorted : model.Sorted vocabulary fun _ => False := Value.sorted_model nofun

theorem respects_ofVariable (X : Variable → Prop) : model.Respects X Value.ofVariable :=
  fun v _ => Value.mem_ofVariable v

/-- `X = Z` -/
def unequal : Equality := ⟨.var x, .var z⟩

theorem not_misjudged : ¬unequal.Misjudged vocabulary := by
  rintro ⟨_, _, a, ha, b, hb, s, has, hbs⟩
  obtain rfl := List.mem_singleton.mp ha
  obtain rfl := List.mem_singleton.mp hb
  have hs : s = ⟨"A"⟩ := by
    rcases (SortLattice.isSubsortEq_iff _ _ _).mp has with rfl | h | ⟨lower, hlower, hs⟩
    · rfl
    · exact absurd h (by decide)
    · obtain rfl := Option.some.inj hlower
      exact List.mem_singleton.mp hs
  subst hs
  exact absurd hbs (by decide)

theorem refutes_unequal : (Formula.all .empty [unequal] []).simplify vocabulary Unifier.structural
      .default = .error (.refuted (.ofEquality unequal)) ∧
    ¬unequal.Misjudged vocabulary ∧
    ¬(Formula.all .empty [unequal] []).Holds model.toAlgebra Value.ofVariable := by
  have hrefuted : (Formula.all .empty [unequal] []).simplify vocabulary Unifier.structural
      .default = .error (.refuted (.ofEquality unequal)) := by
    rfl
  have hwithin : (Formula.all .empty [unequal] []).Within
      (fun v => vocabulary.lattice.Known v.sort) fun _ => False :=
    (Formula.everywhere_all_iff _ _ _).mpr ⟨nofun,
      List.forall_mem_singleton.mpr ⟨Or.inr ⟨_, rfl⟩, Or.inr ⟨_, rfl⟩⟩, nofun⟩
  have hwell : (Formula.all .empty [unequal] []).Each (Term.WellSortedHead vocabulary) :=
    (Formula.everywhere_all_iff _ _ _).mpr ⟨nofun,
      List.forall_mem_singleton.mpr ⟨trivial, trivial⟩, nofun⟩
  exact ⟨hrefuted, not_misjudged, Formula.not_holds_of_refuted built acyclic nofun hwithin hwell
    hrefuted not_misjudged model standard sorted Value.ofVariable (respects_ofVariable _)⟩

/-- `if C then X else Y = Z` -/
def conditional : Equality := ⟨.ite (.var c) (.var x) (.var y), .var z⟩

/-- The condition is false and the second branch has the value of `Z`. -/
def solution (v : Variable) : Value :=
  if v = c then .bool false else if v = z then .atom y else Value.ofVariable v

theorem wellSorted_conditional :
    (Formula.all .empty [conditional] []).Each (Term.WellSortedHead vocabulary) := by
  refine (Formula.everywhere_all_iff _ _ _).mpr ⟨nofun, List.forall_mem_singleton.mpr
    ⟨⟨?_, trivial, trivial, trivial⟩, trivial⟩, nofun⟩
  exact List.forall_mem_singleton.mpr rfl

theorem simplify_conditional : (Formula.all .empty [conditional] []).simplify vocabulary
    Unifier.structural .default = .error (.refuted (.ofEquality conditional)) := by
  rfl

theorem respects_solution (X : Variable → Prop) : model.Respects X solution := by
  intro v _
  rw [solution]
  split_ifs with hc hz
  · rw [hc]
    rfl
  · rw [hz]
    rfl
  · exact Value.mem_ofVariable v

theorem holds_solution : (Formula.all .empty [conditional] []).Holds model.toAlgebra solution := by
  refine (Formula.holds_all_iff _ _ _ _ _).mpr ⟨nofun, List.forall_mem_singleton.mpr ?_, nofun⟩
  rw [Equality.Holds, conditional, Term.eval_ite, Algebra.choose]
  rfl

end Branches

/-! ### What the conditions are for

Without the condition on overloaded constructors, on declared sorts or on the test of sorts, some
refuted formula has a solution. -/

/-- A well-sorted formula is refuted although it has a solution with values of the right sorts. -/
def Formula.WronglyRefuted (voc : Vocabulary) (Q : Symbol → Prop) (φ : Formula) : Prop :=
  φ.Each (Term.WellSortedHead voc) ∧ ∃ (r : Refutation) (M : Model Value) (ρ : Variable → Value),
    φ.simplify voc Unifier.structural .default = .error (.refuted r) ∧ M.Ordered voc.lattice ∧
    M.Sorted voc Q ∧ M.Folds .default ∧ M.Respects (fun _ => True) ρ ∧ φ.Holds M.toAlgebra ρ

namespace Overloaded

def w : Variable := ⟨"Z", ⟨"C"⟩⟩

/-- `X = f(Y)` and `Y = Z`: the argument is narrowed to a sort apart from that of `Z`. -/
def separated : Formula :=
  .all .empty [⟨.var x, vocabulary.apply symbol [.var y]⟩, ⟨.var y, .var w⟩] []

theorem simplify_separated : separated.simplify vocabulary Unifier.structural .default =
    .error (.refuted (.ofEquality ⟨.var z, .var w⟩)) := by
  cbv

/-- All applications have sort `S`, which is below both results of the symbol. -/
theorem sorted_wideModel : wideModel.Sorted vocabulary (· = symbol) := by
  refine Value.sorted_of_applications ?_
  rintro f rfl sorts vs
  have hhome : Value.home vocabulary (fun _ => ⟨"f", .constructor, [⟨[⟨"A"⟩], ⟨"S"⟩⟩]⟩)
      (.con "f" vs) = ⟨"S"⟩ := by
    rw [Value.home]
    exact vocabulary.leastSort_of_single
      (show Symbol.signatures ⟨"f", .constructor, [⟨[⟨"A"⟩], ⟨"S"⟩⟩]⟩ = [⟨[⟨"A"⟩], ⟨"S"⟩⟩] from rfl) _
  rw [Value.apply_model rfl]
  change vocabulary.lattice.isSubsortEq _ (Value.home _ _ (.con "f" vs)) = true
  rw [hhome]
  rcases vocabulary.leastSort_cases symbol sorts with ⟨sig, hsig, _, heq⟩ | ⟨_, heq⟩
  · rw [heq]
    simp only [symbol, List.mem_cons, List.not_mem_nil, or_false] at hsig
    rcases hsig with rfl | rfl
    · decide
    · decide
  · rw [heq]
    decide

/-- `Y` and `Z` have the value of `Z`. -/
def separatedSolution (v : Variable) : Value :=
  if v = x then .con "f" [.atom w] else if v = y then .atom w else Value.ofVariable v

theorem wronglyRefuted_separated : separated.WronglyRefuted vocabulary (· = symbol) := by
  refine ⟨?_, _, wideModel, separatedSolution, simplify_separated,
    Value.ordered_model built.closed acyclic, sorted_wideModel, nofun, fun v _ => ?_, ?_⟩
  · exact (Formula.everywhere_all_iff _ _ _).mpr ⟨nofun, List.forall_mem_cons.mpr
      ⟨⟨trivial, trivial, trivial, trivial⟩, List.forall_mem_singleton.mpr ⟨trivial, trivial⟩⟩,
      nofun⟩
  · rw [separatedSolution]
    split_ifs with hx hy
    · rw [hx]
      rfl
    · rw [hy]
      rfl
    · exact Value.mem_ofVariable v
  · exact (Formula.holds_all_iff _ _ _ _ _).mpr
      ⟨nofun, List.forall_mem_cons.mpr ⟨rfl, List.forall_mem_singleton.mpr rfl⟩, nofun⟩

end Overloaded

theorem Branches.wronglyRefuted_conditional :
    (Formula.all .empty [conditional] []).WronglyRefuted vocabulary fun _ => False :=
  ⟨wellSorted_conditional, _, model, solution, simplify_conditional, standard.ordered, sorted, nofun,
    respects_solution _, holds_solution⟩

/-- `X = Y`, where `Y` has a sort that was not declared. -/
theorem wronglyRefuted_undeclared : (Formula.all .empty
      [⟨.var ⟨"X", .k⟩, .var ⟨"Y", ⟨"U"⟩⟩⟩] []).WronglyRefuted .initial fun _ => False := by
  have hacyclic : Vocabulary.initial.lattice.Acyclic := SortLattice.acyclic_of_entries (by decide)
  let M : Model Value := Value.model .initial (fun _ => default) (fun _ _ => .nil) fun _ _ => .nil
  refine ⟨?_, .ofEquality ⟨.var ⟨"X", .k⟩, .var ⟨"Y", ⟨"U"⟩⟩⟩, M,
    fun v => if v = ⟨"X", .k⟩ then .atom ⟨"Y", ⟨"U"⟩⟩ else Value.ofVariable v, rfl,
    Value.ordered_model Vocabulary.Built.initial.closed hacyclic, Value.sorted_model nofun, nofun,
    fun v _ => ?_, ?_⟩
  · exact (Formula.everywhere_all_iff _ _ _).mpr
      ⟨nofun, List.forall_mem_singleton.mpr ⟨trivial, trivial⟩, nofun⟩
  · dsimp only
    split_ifs with hx
    · rw [hx]
      rfl
    · exact Value.mem_ofVariable v
  · exact (Formula.holds_all_iff _ _ _ _ _).mpr ⟨nofun, List.forall_mem_singleton.mpr rfl, nofun⟩

theorem refutes_satisfiable :
    Overloaded.separated.WronglyRefuted Overloaded.vocabulary (· = Overloaded.symbol) ∧
    (Formula.all .empty [Branches.conditional] []).WronglyRefuted Branches.vocabulary
      (fun _ => False) ∧
    (Formula.all .empty [⟨.var ⟨"X", .k⟩, .var ⟨"Y", ⟨"U"⟩⟩⟩] []).WronglyRefuted .initial
      fun _ => False :=
  ⟨Overloaded.wronglyRefuted_separated, Branches.wronglyRefuted_conditional,
    wronglyRefuted_undeclared⟩

end Entail
