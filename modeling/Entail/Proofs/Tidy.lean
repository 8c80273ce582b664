import Entail.Proofs.Rewriting

set_option autoImplicit false

/-! # Tidy formulas

A tidy formula stores only what is open: equalities that are neither true nor false, whichever side
comes first, and disjunctions of two or more different alternatives, none of them decided. Adding
keeps a formula tidy, as every addition looks at what it adds, and rewriting makes it tidy, as it
adds everything again. -/

namespace Entail

/-! ## Open equalities -/

namespace Term

theorem clashesSomewhere_comm {xs : List Term} (ih : ∀ x ∈ xs, ∀ u, clashes x u = clashes u x)
    (ys : List Term) : clashesSomewhere xs ys = clashesSomewhere ys xs := by
  induction xs generalizing ys with
  | nil => cases ys <;> rfl
  | cons x xs ihxs =>
    rw [List.forall_mem_cons] at ih
    cases ys with
    | nil => rfl
    | cons y ys => rw [clashesSomewhere, clashesSomewhere, ih.1 y, ihxs ih.2 ys]

theorem shorterIsClosed_comm (xs ys : List Term) (frame frame' : Option Term) :
    shorterIsClosed xs frame ys frame' = shorterIsClosed ys frame' xs frame := Bool.or_comm ..

/-- Whether two terms clash does not depend on their order. -/
theorem clashes_comm (t u : Term) : t.clashes u = u.clashes t := by
  induction t using Term.ind generalizing u with
  | app f xs s ih =>
    cases u with
    | app g ys s' =>
      have hsame : f.same g = g.same f := by
        rw [Symbol.same, Symbol.same, Bool.beq_comm, Bool.beq_comm (a := f.kind)]
      rw [clashes, clashes, clashesSomewhere_comm ih ys, hsame, Bool.and_comm g.isConstructor,
        bne_comm]
    | _ => simp [clashes]
  | closed xs ih =>
    cases u with
    | list ys frame =>
      rw [clashes, clashes, shorterIsClosed_comm, clashesSomewhere_comm ih]
    | _ => simp [clashes]
  | framed xs frame ih =>
    cases u with
    | list ys frame' =>
      rw [clashes, clashes, shorterIsClosed_comm, clashesSomewhere_comm ih]
    | _ => simp [clashes]
  | builtin op xs => cases u <;> simp [clashes, isToken]
  | var v => cases u <;> simp [clashes, isToken]
  | ite c t e => cases u <;> simp [clashes, isToken]
  | bool b => cases u <;> simp [clashes, isToken, bne, beq_comm (.bool b)]
  | int n => cases u <;> simp [clashes, isToken, bne, beq_comm (.int n)]
  | str s => cases u <;> simp [clashes, isToken, bne, beq_comm (.str s)]

end Term

namespace Equality

theorem truth_reversed (e : Equality) : e.reversed.truth = e.truth := by
  rw [truth, truth, reversed, Term.beq_comm, Term.clashes_comm]

/-- Neither true nor false, whichever side comes first. -/
structure IsOpen (e : Equality) : Prop where
  truth_eq : e.truth = .unknown
  truth_reversed_eq : e.reversed.truth = .unknown

theorem isOpen_of_truth {e : Equality} (h : e.truth = .unknown) : e.IsOpen :=
  ⟨h, e.truth_reversed.trans h⟩

/-- An empty list and a list with elements clash, so that an open equality is not about them. -/
theorem IsOpen.isEmptyVsNonEmptyList_eq {e : Equality} (h : e.IsOpen) :
    e.isEmptyVsNonEmptyList = false := by
  have clash {t u : Term} (ht : t.isEmptyList = true) (hu : u.isNonEmptyList = true) :
      (⟨t, u⟩ : Equality).truth = .false := by
    obtain rfl : t = .list [] none := by
      unfold Term.isEmptyList at ht
      split at ht
      · rfl
      · cases ht
    obtain ⟨y, ys, frame, rfl⟩ : ∃ y ys frame, u = .list (y :: ys) frame := by
      unfold Term.isNonEmptyList at hu
      split at hu
      · exact ⟨_, _, _, rfl⟩
      · cases hu
    have hne : (Term.list [] none == .list (y :: ys) frame) = false := by
      rw [Bool.eq_false_iff, ne_eq, Term.beq_iff]
      simp
    simp [truth, hne, Term.clashes, Term.shorterIsClosed]
  by_contra hlists
  rw [Bool.not_eq_false, isEmptyVsNonEmptyList, Bool.or_eq_true, Bool.and_eq_true,
    Bool.and_eq_true] at hlists
  rcases hlists with ⟨hl, hr⟩ | ⟨hr, hl⟩
  · exact absurd (h.truth_eq.symm.trans (clash hl hr)) (by simp)
  · exact absurd (h.truth_reversed_eq.symm.trans (clash hr hl)) (by simp)

/-! ### Parts -/

theorem splits_of_mem_literals {t : Term} {b : Bool} :
    ∀ q ∈ literals t b, ∃ u c, q = ⟨u, .bool c⟩ ∧ splits u c = false := by
  induction t using Term.ind generalizing b with
  | builtin op xs ih =>
    rw [literals.eq_def]
    split
    · rename_i x y heq
      obtain ⟨rfl, rfl⟩ := Term.builtin.inj heq
      exact List.forall_mem_append.mpr ⟨ih x (by simp), ih y (by simp)⟩
    · rename_i x y heq
      obtain ⟨rfl, rfl⟩ := Term.builtin.inj heq
      exact List.forall_mem_append.mpr ⟨ih x (by simp), ih y (by simp)⟩
    · rename_i b x heq
      obtain ⟨rfl, rfl⟩ := Term.builtin.inj heq
      exact ih x (by simp)
    · rename_i hnot hand hor
      refine List.forall_mem_singleton.mpr ⟨_, _, rfl, ?_⟩
      unfold splits
      split
      · rename_i x y heq
        exact Bool.eq_false_iff.mpr fun hb => hand x y heq hb
      · rename_i x y heq
        rw [Bool.not_eq_false', ← Bool.not_eq_false]
        exact fun hb => hor x y heq hb
      · rename_i x heq
        exact absurd heq (hnot x)
      · rfl
  | _ =>
    rw [literals]
    · exact List.forall_mem_singleton.mpr ⟨_, b, rfl, rfl⟩
    all_goals simp

theorem parts_cases (e : Equality) : e.parts = [e] ∨ ∃ t b, e.parts = literals t b := by
  have split (t : Term) (b : Bool) : (if splits t b then literals t b else [e]) = [e] ∨
      ∃ t' b', (if splits t b then literals t b else [e]) = literals t' b' := by
    split_ifs
    · exact .inr ⟨t, b, rfl⟩
    · exact .inl rfl
  obtain ⟨lhs, rhs⟩ := e
  dsimp only [parts]
  split
  · exact split _ _
  · exact split _ _
  · exact .inl rfl

/-- Parts are not taken apart any further. -/
theorem parts_of_mem_parts {e q : Equality} (h : q ∈ e.parts) : q.parts = [q] := by
  rcases e.parts_cases with hparts | ⟨t, b, hparts⟩
  · rw [hparts, List.mem_singleton] at h
    rw [h, hparts]
  · rw [hparts] at h
    obtain ⟨u, c, rfl, hsplits⟩ := splits_of_mem_literals q h
    dsimp only [parts]
    rw [hsplits]
    rfl

end Equality

/-! ## Lists without repetition -/

namespace Sorted

variable {α : Type} {cmp : α → α → Ordering}

theorem pairwise_dedup (xs : List α) : (dedup cmp xs).Pairwise fun a b => cmp b a ≠ .eq := by
  have fold (kept : List α) (hkept : kept.Pairwise fun a b => cmp a b ≠ .eq) :
      (xs.foldl (fun kept x => if contains cmp x kept then kept else x :: kept) kept).Pairwise
        fun a b => cmp a b ≠ .eq := by
    induction xs generalizing kept with
    | nil => exact hkept
    | cons x xs ih =>
      rw [List.foldl_cons]
      split
      · exact ih kept hkept
      · rename_i hx
        refine ih _ (List.pairwise_cons.mpr ⟨fun y hy heq => hx ?_, hkept⟩)
        exact (contains_iff cmp x kept).mpr ⟨y, hy, Ordering.isEq_iff_eq_eq.mpr heq⟩
  exact List.pairwise_reverse.mpr (fold [] .nil)

/-- A list without repetition is left as it is. -/
theorem dedup_of_pairwise {xs : List α} (h : xs.Pairwise fun a b => cmp b a ≠ .eq) :
    dedup cmp xs = xs := by
  have fold (kept : List α) (hxs : xs.Pairwise fun a b => cmp b a ≠ .eq)
      (hkept : ∀ x ∈ xs, ∀ y ∈ kept, cmp x y ≠ .eq) :
      xs.foldl (fun kept x => if contains cmp x kept then kept else x :: kept) kept =
        xs.reverse ++ kept := by
    induction xs generalizing kept with
    | nil => rfl
    | cons x xs ih =>
      rw [List.pairwise_cons] at h hxs
      rw [List.forall_mem_cons] at hkept
      have hx : contains cmp x kept = false := by
        rw [Bool.eq_false_iff, ne_eq, contains_iff]
        rintro ⟨y, hy, heq⟩
        exact hkept.1 y hy (Ordering.isEq_iff_eq_eq.mp heq)
      rw [List.foldl_cons, hx, if_neg Bool.false_ne_true, ih h.2 _ hxs.2]
      · simp
      · intro z hz y hy
        rcases List.mem_cons.mp hy with rfl | hy
        · exact hxs.1 z hz
        · exact hkept.2 z hz y hy
  rw [dedup, fold [] h fun _ _ => (by simp), List.append_nil, List.reverse_reverse]

end Sorted

/-! ## Tidy formulas -/

namespace Disjunction

/-- No two alternatives are equal. -/
def Distinct (d : Disjunction) : Prop := d.Pairwise fun φ ψ => (φ == ψ) = false

theorem distinct_iff (d : Disjunction) :
    d.Distinct ↔ d.Pairwise fun φ ψ => Formula.cmp ψ φ ≠ .eq := by
  refine List.Pairwise.iff fun φ ψ => ?_
  rw [← Bool.not_eq_true, Formula.beq_iff, ne_eq, Formula.cmp_eq_iff, eq_comm]

theorem distinct_ofList (φs : List Formula) : (ofList φs).Distinct :=
  (distinct_iff _).mpr (Sorted.pairwise_dedup φs)

theorem Distinct.ofList_eq {d : Disjunction} (h : d.Distinct) : ofList d = d :=
  Sorted.dedup_of_pairwise ((distinct_iff d).mp h)

/-- Two or more different alternatives, none of them true and none false. -/
structure Undecided (d : Disjunction) : Prop where
  two_le : 2 ≤ d.length
  distinct : d.Distinct
  not_true : ∀ φ ∈ d, φ.isTrue = false
  not_false : ∀ φ ∈ d, φ.isFalse = false

end Disjunction

namespace Formula

/-- Only open equalities and undecided disjunctions are stored, also in the alternatives. -/
inductive Tidy : Formula → Prop
  | falsified (w : Equality) : Tidy (.falsified w)
  | all (s : Substitution) (es : List Equality) (ds : List Disjunction)
      (hopen : ∀ e ∈ es, e.IsOpen) (hundecided : ∀ d ∈ ds, Disjunction.Undecided d)
      (htidy : ∀ d ∈ ds, ∀ φ ∈ d, Tidy φ) : Tidy (.all s es ds)

theorem tidy_all_iff (s : Substitution) (es : List Equality) (ds : List Disjunction) :
    (all s es ds).Tidy ↔
      (∀ e ∈ es, e.IsOpen) ∧ ∀ d ∈ ds, d.Undecided ∧ ∀ φ ∈ d, Formula.Tidy φ :=
  ⟨fun | .all _ _ _ hopen hundecided htidy => ⟨hopen, fun d hd => ⟨hundecided d hd, htidy d hd⟩⟩,
    fun ⟨hopen, hds⟩ => .all s es ds hopen (fun d hd => (hds d hd).1) fun d hd => (hds d hd).2⟩

theorem tidy_top : top.Tidy := (tidy_all_iff _ _ _).mpr ⟨nofun, nofun⟩

theorem Tidy.alternatives {φ : Formula} (h : φ.Tidy) :
    ∀ d ∈ φ.disjunctions, d.Undecided ∧ ∀ ψ ∈ d, ψ.Tidy := by
  cases φ with
  | falsified w => exact nofun
  | all s es ds => exact ((tidy_all_iff s es ds).mp h).2

/-- A part of what a tidy formula stores is tidy, whatever is bound. -/
theorem tidy_of_subset {s s' : Substitution} {es es' : List Equality} {ds ds' : List Disjunction}
    (h : (all s es ds).Tidy) (hes : es' ⊆ es) (hds : ds' ⊆ ds) : (all s' es' ds').Tidy := by
  obtain ⟨hopen, halternatives⟩ := (tidy_all_iff s es ds).mp h
  exact (tidy_all_iff s' es' ds').mpr
    ⟨fun e he => hopen e (hes he), fun d hd => halternatives d (hds hd)⟩

/-! ## What adding keeps -/

/-- A property that is kept when a part of an equality, a binding or an undecided disjunction is
    added. It says that no disjunction of the formula repeats an alternative, which is needed to know
    that two are left when two are not false, and holds of the alternatives too. -/
structure Grows (P : Formula → Prop) : Prop where
  top : P top
  falsified (w : Equality) : P (.falsified w)
  addPart {φ : Formula} (hφ : P φ) {e : Equality} (he : e.parts = [e]) : P (φ.addPart e)
  addBinding {φ : Formula} (hφ : P φ) (v : Variable) (t : Term) : P (φ.addBinding v t)
  put {s : Substitution} {es : List Equality} {ds : List Disjunction} (h : P (.all s es ds))
    {d : Disjunction} (hundecided : d.Undecided) (hd : ∀ ψ ∈ d, P ψ) :
    P (.all s es (Sorted.put Disjunction.cmp d ds))
  alternatives {φ : Formula} (hφ : P φ) : ∀ d ∈ φ.disjunctions, d.Distinct ∧ ∀ ψ ∈ d, P ψ

namespace Grows

variable {P : Formula → Prop} {φ ψ : Formula}

theorem addEquality (hP : Grows P) (hφ : P φ) (e : Equality) : P (φ.addEquality e) := by
  have hparts : ∀ q ∈ e.parts, q.parts = [q] := fun _ => Equality.parts_of_mem_parts
  unfold Formula.addEquality
  generalize e.parts = es at hparts
  induction es generalizing φ with
  | nil => exact hφ
  | cons e es ih =>
    rw [List.forall_mem_cons] at hparts
    exact ih (hP.addPart hφ hparts.1) hparts.2

theorem addEqualities (hP : Grows P) (hφ : P φ) (es : List Equality) : P (φ.addEqualities es) := by
  unfold Formula.addEqualities
  induction es generalizing φ with
  | nil => exact hφ
  | cons e es ih => exact ih (hP.addEquality hφ e)

theorem addBindings (hP : Grows P) (hφ : P φ) (entries : List (Variable × Term)) :
    P (φ.addBindings entries) := by
  unfold Formula.addBindings
  induction entries generalizing φ with
  | nil => exact hφ
  | cons entry entries ih => exact ih (hP.addBinding hφ entry.1 entry.2)

/-- A disjunction is stored when two of its alternatives are not false and none is true. -/
theorem addAlternatives (hP : Grows P) (hφ : P φ) {d : Disjunction} (hdistinct : d.Distinct)
    (hd : ∀ ψ ∈ d, P ψ) {mergeOnly : Formula → Formula} (hmerge : P (mergeOnly φ)) :
    P (φ.addAlternatives d mergeOnly) := by
  cases φ with
  | falsified w => exact hφ
  | all s es ds =>
    unfold Formula.addAlternatives
    dsimp only
    have hmembers : Disjunction.Distinct (d.filter (!·.isFalse)) :=
      List.Pairwise.filter _ hdistinct
    split
    · exact hP.falsified _
    · exact hmerge
    · rename_i hnone hone
      split
      · exact hφ
      · rename_i htrue
        rw [hmembers.ofList_eq]
        refine hP.put hφ ⟨?_, hmembers, fun ψ hψ => ?_, fun ψ hψ => ?_⟩ fun ψ hψ => ?_
        · match hfilter : d.filter (!·.isFalse) with
          | [] => exact absurd hfilter hnone
          | [ψ] => exact absurd hfilter (hone ψ)
          | _ :: _ :: _ => simp [hfilter]
        · rw [Bool.not_eq_true, List.any_eq_false] at htrue
          exact Bool.not_eq_true _ ▸ htrue ψ hψ
        · exact (mem_filter_notFalse.mp hψ).2
        · exact hd ψ (mem_filter_notFalse.mp hψ).1

theorem mergeFirst {d : Disjunction} (hφ : P φ) (ih : ∀ ψ ∈ d, P (Formula.merge ψ φ)) :
    P (Formula.mergeFirst d φ) := by
  induction d with
  | nil => exact hφ
  | cons ψ d ihd =>
    rw [List.forall_mem_cons] at ih
    rw [Formula.mergeFirst]
    split
    · exact ihd ih.2
    · exact ih.1

theorem mergeDisjunctions (hP : Grows P) {ds : List Disjunction}
    (hds : ∀ d ∈ ds, d.Distinct ∧ ∀ ψ ∈ d, P ψ)
    (ih : ∀ d ∈ ds, ∀ ψ ∈ d, ∀ φ : Formula, P φ → P (Formula.merge ψ φ)) (hφ : P φ) :
    P (Formula.mergeDisjunctions ds φ) := by
  induction ds generalizing φ with
  | nil => exact hφ
  | cons d ds ihds =>
    rw [List.forall_mem_cons] at hds ih
    rw [Formula.mergeDisjunctions]
    exact ihds hds.2 ih.2 (hP.addAlternatives hφ hds.1.1 hds.1.2
      (mergeFirst hφ fun ψ hψ => ih.1 ψ hψ φ hφ))

theorem merge (hP : Grows P) (hψ : P ψ) (hφ : P φ) : P (Formula.merge ψ φ) := by
  induction ψ using Formula.ind generalizing φ with
  | falsified w =>
    rw [Formula.merge]
    split
    · exact hφ
    · exact hP.falsified w
  | all s es ds ih =>
    have hds : ∀ d ∈ ds, Disjunction.Distinct d ∧ ∀ ψ ∈ d, P ψ := hP.alternatives hψ
    rw [Formula.merge]
    exact hP.mergeDisjunctions hds (fun d hd ψ hψ φ hφ => ih d hd ψ hψ ((hds d hd).2 ψ hψ) hφ)
      (hP.addEqualities (hP.addBindings hφ s.entries) es)

theorem addDisjunctions (hP : Grows P) (hφ : P φ) {ds : List Disjunction}
    (hds : ∀ d ∈ ds, d.Distinct ∧ ∀ ψ ∈ d, P ψ) : P (φ.addDisjunctions ds) :=
  hP.mergeDisjunctions hds (fun d hd ψ hψ _ hφ => hP.merge ((hds d hd).2 ψ hψ) hφ) hφ

theorem addDisjunction (hP : Grows P) (hφ : P φ) {ψs : List Formula} (hψs : ∀ ψ ∈ ψs, P ψ) :
    P (φ.addDisjunction (Disjunction.ofList ψs)) :=
  hP.addDisjunctions hφ (List.forall_mem_singleton.mpr
    ⟨Disjunction.distinct_ofList ψs, fun ψ hψ => hψs ψ (Sorted.mem_dedup hψ)⟩)

/-! ### Rewriting -/

variable (voc : Vocabulary) (facts : Facts) (f : Variable → Option Term)

theorem members {d : Disjunction} (h : ∀ φ ∈ d, P (φ.rewrite voc facts f)) :
    (d.rewrite voc facts f).Distinct ∧ ∀ ψ ∈ d.rewrite voc facts f, P ψ := by
  refine ⟨Disjunction.distinct_ofList _, fun ψ hψ => ?_⟩
  have hmem := Sorted.mem_dedup hψ
  rw [rewriteAlternatives_eq] at hmem
  obtain ⟨φ, hφ, rfl⟩ := List.mem_map.mp hmem
  exact h φ hφ

/-- Rewriting adds everything again, so the formula itself need not have the property. -/
theorem rewrite (hP : Grows P) (φ : Formula) : P (φ.rewrite voc facts f) := by
  induction φ using Formula.ind with
  | falsified w => exact hP.falsified w
  | all s es ds ih =>
    rw [Formula.rewrite, rewriteDisjunctions_eq]
    refine hP.addDisjunctions (hP.addEqualities hP.top _) ?_
    exact List.forall_mem_map.mpr fun d hd => members voc facts f (ih d hd)

theorem rewrites (hP : Grows P) (ds : List Disjunction) :
    ∀ d ∈ ds.map (Disjunction.rewrite voc facts f), d.Distinct ∧ ∀ ψ ∈ d, P ψ :=
  List.forall_mem_map.mpr fun _ _ => members voc facts f fun φ _ => hP.rewrite voc facts f φ

end Grows

/-! ## Tidy formulas stay tidy -/

theorem tidy_addPart {φ : Formula} (hφ : φ.Tidy) (e : Equality) : (φ.addPart e).Tidy := by
  cases φ with
  | falsified w => exact hφ
  | all s es ds =>
    unfold addPart
    dsimp only
    split
    · exact hφ
    · exact .falsified e
    · rename_i htruth
      split
      · exact hφ
      · obtain ⟨hopen, hds⟩ := (tidy_all_iff s es ds).mp hφ
        refine (tidy_all_iff _ _ _).mpr ⟨fun e' he' => ?_, hds⟩
        rcases Sorted.mem_put _ he' with rfl | he'
        · exact Equality.isOpen_of_truth htruth
        · exact hopen e' he'

theorem tidy_addBinding {φ : Formula} (hφ : φ.Tidy) (v : Variable) (t : Term) :
    (φ.addBinding v t).Tidy := by
  cases φ with
  | falsified w => exact hφ
  | all s es ds =>
    unfold addBinding
    dsimp only
    split
    · exact tidy_of_subset hφ (List.Subset.refl es) (List.Subset.refl ds)
    · exact .falsified _

theorem grows_tidy : Grows Tidy where
  top := tidy_top
  falsified := .falsified
  addPart hφ _ _ := tidy_addPart hφ _
  addBinding := tidy_addBinding
  put {s es ds} h d hundecided hd := by
    obtain ⟨hopen, hds⟩ := (tidy_all_iff s es ds).mp h
    refine (tidy_all_iff _ _ _).mpr ⟨hopen, fun d' hd' => ?_⟩
    rcases Sorted.mem_put _ hd' with rfl | hd'
    · exact ⟨hundecided, hd⟩
    · exact hds d' hd'
  alternatives hφ d hd := ⟨(hφ.alternatives d hd).1.distinct, (hφ.alternatives d hd).2⟩

end Formula

end Entail
