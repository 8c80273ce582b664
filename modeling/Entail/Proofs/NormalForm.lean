import Entail.Formula.Dnf
import Entail.Proofs.Bindings
import Entail.Proofs.Tidy
import Mathlib.Data.List.Forall2

set_option autoImplicit false

/-! # What the disjunctive normal form states

A member of the normal form puts one member of the normal form of one alternative of each
disjunction together. Where only the formula itself binds variables nothing is lost on the way, so
the members state together what the formula states, at any depth. -/

namespace Entail

variable {V : Type}

namespace Formula

/-! ## Choosing an element of each list -/

section Choices

variable {α : Type} {P : α → Prop}

theorem mem_choices_iff (xs : List α) (xss : List (List α)) :
    xs ∈ choices xss ↔ List.Forall₂ (· ∈ ·) xs xss := by
  induction xss generalizing xs with
  | nil => simp [choices]
  | cons ys rest ih =>
    simp only [choices, List.mem_flatMap, List.mem_map, ih, List.forall₂_cons_right_iff]
    constructor
    · rintro ⟨y, hy, zs, hzs, rfl⟩
      exact ⟨y, zs, hy, hzs, rfl⟩
    · rintro ⟨y, zs, hy, hzs, rfl⟩
      exact ⟨y, hy, zs, hzs, rfl⟩

theorem forall_mem_chosen {xs : List α} {xss : List (List α)}
    (h : List.Forall₂ (· ∈ ·) xs xss) (hP : ∀ ys ∈ xss, ∀ y ∈ ys, P y) : ∀ x ∈ xs, P x := by
  induction h with
  | nil => nofun
  | cons hx _ ih =>
    rw [List.forall_mem_cons] at hP
    exact List.forall_mem_cons.mpr ⟨hP.1 _ hx, ih hP.2⟩

/-- Elements with a property can be chosen when each list has one. -/
theorem exists_chosen_iff (xss : List (List α)) :
    (∃ xs, List.Forall₂ (· ∈ ·) xs xss ∧ ∀ x ∈ xs, P x) ↔ ∀ ys ∈ xss, ∃ y ∈ ys, P y := by
  induction xss with
  | nil => simp
  | cons ys rest ih =>
    rw [List.forall_mem_cons, ← ih]
    constructor
    · rintro ⟨xs, hxs, hP⟩
      obtain ⟨x, xs, hx, hrest, rfl⟩ := List.forall₂_cons_right_iff.mp hxs
      rw [List.forall_mem_cons] at hP
      exact ⟨⟨x, hx, hP.1⟩, xs, hrest, hP.2⟩
    · rintro ⟨⟨y, hy, hPy⟩, xs, hxs, hPxs⟩
      exact ⟨y :: xs, .cons hy hxs, List.forall_mem_cons.mpr ⟨hPy, hPxs⟩⟩

end Choices

/-! ## What adding leaves as it is -/

theorem addPart_cases (s : Substitution) (es : List Equality) (ds : List Disjunction)
    (e : Equality) : (∃ w, (all s es ds).addPart e = .falsified w) ∨
      ∃ es', (all s es ds).addPart e = .all s es' ds := by
  unfold addPart
  dsimp only
  split
  · exact .inr ⟨es, rfl⟩
  · exact .inl ⟨e, rfl⟩
  · split
    · exact .inr ⟨es, rfl⟩
    · exact .inr ⟨_, rfl⟩

theorem foldl_addPart_cases (s : Substitution) (es : List Equality) (ds : List Disjunction)
    (added : List Equality) : (∃ w, added.foldl addPart (all s es ds) = .falsified w) ∨
      ∃ es', added.foldl addPart (all s es ds) = .all s es' ds := by
  induction added generalizing es with
  | nil => exact .inr ⟨es, rfl⟩
  | cons e added ih =>
    rw [List.foldl_cons]
    rcases addPart_cases s es ds e with ⟨w, hfalse⟩ | ⟨es', hes⟩
    · exact .inl ⟨w, by rw [hfalse, foldl_addPart_falsified]⟩
    · rw [hes]
      exact ih es'

/-- Equalities change nothing else, unless one of them is false. -/
theorem addEqualities_cases (s : Substitution) (es : List Equality) (ds : List Disjunction)
    (added : List Equality) : (∃ w, (all s es ds).addEqualities added = .falsified w) ∨
      ∃ es', (all s es ds).addEqualities added = .all s es' ds := by
  have hparts : (all s es ds).addEqualities added =
      (added.flatMap Equality.parts).foldl addPart (all s es ds) := by
    rw [List.foldl_flatMap]
    rfl
  rw [hparts]
  exact foldl_addPart_cases s es ds _

theorem disjunctions_addBindings {φ : Formula} (hφ : φ.disjunctions = [])
    (entries : List (Variable × Term)) : (φ.addBindings entries).disjunctions = [] := by
  cases φ with
  | falsified w =>
    rw [addBindings_falsified]
    rfl
  | all s es ds =>
    rcases addBindings_cases s es ds entries with ⟨w, hfalse⟩ | ⟨s', hs'⟩
    · rw [hfalse]
      rfl
    · rw [hs']
      exact hφ

theorem disjunctions_addEqualities {φ : Formula} (hφ : φ.disjunctions = [])
    (es : List Equality) : (φ.addEqualities es).disjunctions = [] := by
  cases φ with
  | falsified w =>
    rw [addEqualities_falsified]
    rfl
  | all s es' ds =>
    rcases addEqualities_cases s es' ds es with ⟨w, hfalse⟩ | ⟨es'', hes⟩
    · rw [hfalse]
      rfl
    · rw [hes]
      exact hφ

theorem disjunctions_merge {φ ψ : Formula} (hφ : φ.disjunctions = []) (hψ : ψ.disjunctions = []) :
    (merge ψ φ).disjunctions = [] := by
  cases ψ with
  | falsified w =>
    rw [merge]
    split
    · exact hφ
    · rfl
  | all s es ds =>
    obtain rfl : ds = [] := hψ
    exact disjunctions_addEqualities (disjunctions_addBindings hφ s.entries) es

/-! ## Putting alternatives together -/

section Members

variable {base : Formula} {branches : List (List Formula)}

theorem mem_choiceMembers_iff (φ : Formula) :
    φ ∈ choiceMembers base branches ↔
      (∃ choice, List.Forall₂ (· ∈ ·) choice branches ∧ choice.foldl addFormula base = φ) ∧
        φ.isFalse = false := by
  rw [choiceMembers, mem_filter_notFalse, List.mem_map]
  simp only [mem_choices_iff]

/-- What merging keeps holds of every member. -/
theorem forall_mem_choiceMembers {P Q : Formula → Prop} (hbase : P base)
    (hbranches : ∀ d ∈ branches, ∀ ψ ∈ d, Q ψ) (hmerge : ∀ φ ψ, P φ → Q ψ → P (merge ψ φ)) :
    ∀ φ ∈ choiceMembers base branches, P φ := by
  have added (choice : List Formula) (h : ∀ ψ ∈ choice, Q ψ) {φ : Formula} (hφ : P φ) :
      P (choice.foldl addFormula φ) := by
    induction choice generalizing φ with
    | nil => exact hφ
    | cons ψ choice ih =>
      rw [List.forall_mem_cons] at h
      exact ih h.2 (hmerge φ ψ hφ h.1)
  intro φ hφ
  obtain ⟨⟨choice, hchoice, rfl⟩, _⟩ := (mem_choiceMembers_iff φ).mp hφ
  exact added choice (forall_mem_chosen hchoice hbranches) hbase

variable {A : Algebra V} {ρ : Variable → V}

theorem holds_foldl_addFormula_iff {choice : List Formula}
    (h : ∀ ψ ∈ choice, ψ.Unbound (Equality.All Term.FlatHead)) (φ : Formula) :
    (choice.foldl addFormula φ).Holds A ρ ↔ φ.Holds A ρ ∧ ∀ ψ ∈ choice, ψ.Holds A ρ := by
  induction choice generalizing φ with
  | nil => simp
  | cons ψ choice ih =>
    rw [List.forall_mem_cons] at h
    rw [List.foldl_cons, ih h.2, List.forall_mem_cons, ← and_assoc]
    exact and_congr_left fun _ => ⟨holds_of_merge, fun hboth => holds_merge h.1 hboth.1 hboth.2⟩

/-- Some member holds where the common part and an alternative of each disjunction hold. -/
theorem exists_choiceMembers_holds_iff
    (h : ∀ d ∈ branches, ∀ ψ ∈ d, ψ.Unbound (Equality.All Term.FlatHead)) :
    (∃ φ ∈ choiceMembers base branches, φ.Holds A ρ) ↔
      base.Holds A ρ ∧ ∀ d ∈ branches, ∃ ψ ∈ d, ψ.Holds A ρ := by
  rw [← exists_chosen_iff (P := Formula.Holds A ρ)]
  constructor
  · rintro ⟨φ, hφ, hholds⟩
    obtain ⟨⟨choice, hchoice, rfl⟩, _⟩ := (mem_choiceMembers_iff φ).mp hφ
    obtain ⟨hbase, hchosen⟩ :=
      (holds_foldl_addFormula_iff (forall_mem_chosen hchoice h) base).mp hholds
    exact ⟨hbase, choice, hchoice, hchosen⟩
  · rintro ⟨hbase, choice, hchoice, hchosen⟩
    have hholds :=
      (holds_foldl_addFormula_iff (forall_mem_chosen hchoice h) base).mpr ⟨hbase, hchosen⟩
    exact ⟨_, (mem_choiceMembers_iff _).mpr ⟨⟨choice, hchoice, rfl⟩, not_isFalse_of_holds hholds⟩,
      hholds⟩

end Members

/-! ## The members of the normal form -/

theorem dnfMembers_eq (d : Disjunction) : dnfMembers d = d.flatMap toDnf := by
  induction d with
  | nil => rfl
  | cons φ d ih => rw [dnfMembers, ih, List.flatMap_cons]

theorem dnfBranches_eq (ds : List Disjunction) :
    dnfBranches ds = ds.map fun d => d.flatMap toDnf := by
  induction ds with
  | nil => rfl
  | cons d ds ih => rw [dnfBranches, ih, dnfMembers_eq, List.map_cons]

/-- The bindings and equalities of a formula, put together again without its disjunctions. -/
def core (φ : Formula) : Formula :=
  (top.addBindings φ.bindings.entries).addEqualities φ.equalities

theorem toDnf_of_disjunctions {φ : Formula} (h : φ.disjunctions ≠ []) :
    φ.toDnf = Disjunction.ofList
      (choiceMembers φ.core (φ.disjunctions.map fun d => d.flatMap toDnf)) := by
  cases φ with
  | falsified w => exact absurd rfl h
  | all s es ds =>
    cases ds with
    | nil => exact absurd rfl h
    | cons d ds =>
      rw [toDnf, dnfBranches_eq]
      rfl

theorem toDnf_of_no_disjunctions {φ : Formula} (h : φ.disjunctions = []) : φ.toDnf = [φ] := by
  cases φ with
  | falsified w => rfl
  | all s es ds =>
    obtain rfl : ds = [] := h
    rfl

/-- A property of formulas without disjunctions that merging keeps holds of all members, if the
    members of the alternatives have it. -/
theorem forall_mem_toDnf {P Q : Formula → Prop} {φ : Formula}
    (hnone : φ.disjunctions = [] → P φ) (hcore : P φ.core)
    (halternatives : ∀ d ∈ φ.disjunctions, ∀ χ ∈ d, ∀ ψ ∈ Formula.toDnf χ, Q ψ)
    (hmerge : ∀ φ ψ, P φ → Q ψ → P (merge ψ φ)) : ∀ ψ ∈ φ.toDnf, P ψ := by
  by_cases h : φ.disjunctions = []
  · rw [toDnf_of_no_disjunctions h]
    exact List.forall_mem_singleton.mpr (hnone h)
  · rw [toDnf_of_disjunctions h]
    intro ψ hψ
    refine forall_mem_choiceMembers hcore ?_ hmerge ψ (Sorted.mem_dedup hψ)
    rw [List.forall_mem_map]
    intro d hd ψ hψ
    obtain ⟨χ, hχ, hψ⟩ := List.mem_flatMap.mp hψ
    exact halternatives d hd χ hχ ψ hψ

/-- The members have no disjunctions. -/
theorem disjunctions_of_mem_toDnf (φ : Formula) : ∀ ψ ∈ φ.toDnf, ψ.disjunctions = [] := by
  induction φ using Formula.ind with
  | falsified w => exact List.forall_mem_singleton.mpr rfl
  | all s es ds ih =>
    exact forall_mem_toDnf id (disjunctions_addEqualities (disjunctions_addBindings rfl _) es) ih
      fun _ _ => disjunctions_merge

theorem unbound_of_mem_toDnf {p : Term → Prop} (hp : ∀ b, p (.bool b)) {φ : Formula}
    (hφ : φ.Unbound (Equality.All p)) : ∀ ψ ∈ φ.toDnf, ψ.Unbound (Equality.All p) := by
  induction φ using Formula.ind with
  | falsified w => exact List.forall_mem_singleton.mpr trivial
  | all s es ds ih =>
    obtain ⟨hs, hes, hds⟩ := (everywhere_all_iff s es ds).mp hφ
    refine forall_mem_toDnf (fun _ => hφ) ?_ (fun d hd χ hχ => ih d hd χ hχ (hds d hd χ hχ))
      fun _ _ hφ hψ => everywhere_merge hp (fun _ hs => hs) hψ hφ
    rw [core, bindings, hs]
    exact everywhere_addEqualities hp hes (everywhere_top rfl)

/-! ## Formulas that bind variables outside of disjunctions only -/

/-- Only the formula itself binds variables, each of them once, and all lists that it states
    something of are flat. -/
structure OuterBound (φ : Formula) : Prop where
  single : φ.bindings.Single
  equalities : ∀ e ∈ φ.equalities, e.All Term.FlatHead
  alternatives : ∀ d ∈ φ.disjunctions, ∀ ψ ∈ d, ψ.Unbound (Equality.All Term.FlatHead)

theorem Unbound.outerBound {φ : Formula} (h : φ.Unbound (Equality.All Term.FlatHead)) :
    φ.OuterBound := by
  cases φ with
  | falsified w => exact ⟨nofun, nofun, nofun⟩
  | all s es ds =>
    obtain ⟨hs, hes, hds⟩ := (everywhere_all_iff s es ds).mp h
    refine ⟨fun entry hentry => ?_, hes, hds⟩
    rw [bindings, hs] at hentry
    exact absurd hentry List.not_mem_nil

/-- The bindings are added without a conflict. -/
theorem OuterBound.exists_core {φ : Formula} (hφ : φ.OuterBound) :
    ∃ s : Substitution, φ.core = (all s [] []).addEqualities φ.equalities ∧
      ∀ entry, entry ∈ s.entries ↔ entry ∈ φ.bindings.entries := by
  obtain ⟨s, hs, hentries, hget⟩ := exists_addBindings hφ.single
    (Substitution.agrees_empty φ.bindings) [] []
  refine ⟨s, congrArg (addEqualities · φ.equalities) hs, fun entry => ⟨fun hentry => ?_,
    fun hentry => ?_⟩⟩
  · exact (hentries entry hentry).resolve_left List.not_mem_nil
  · refine Substitution.mem_of_get? ?_
    rw [hget, hφ.single.get?_of_mem hentry]
    rfl

variable {A : Algebra V} {ρ : Variable → V}

theorem OuterBound.core_holds_iff {φ : Formula} (hφ : φ.OuterBound) :
    φ.core.Holds A ρ ↔ φ.bindings.Holds A ρ ∧ ∀ e ∈ φ.equalities, e.Holds A ρ := by
  obtain ⟨s, hcore, hentries⟩ := hφ.exists_core
  have hs : (all s [] []).Holds A ρ ↔ φ.bindings.Holds A ρ := by
    rw [holds_all_iff]
    simp only [List.not_mem_nil, IsEmpty.forall_iff, implies_true, and_true]
    exact forall_congr' fun entry => imp_congr_left (hentries entry)
  rw [hcore, ← hs]
  exact ⟨holds_of_addEqualities, fun h => holds_addEqualities hφ.equalities h.2 h.1⟩

/-- A formula holds just when a member of its normal form does. -/
theorem OuterBound.holds_toDnf_iff {φ : Formula} (hφ : φ.OuterBound) :
    φ.toDnf.Holds A ρ ↔ φ.Holds A ρ := by
  induction φ using Formula.ind with
  | falsified w =>
    rw [toDnf_of_no_disjunctions rfl]
    simp [Disjunction.Holds]
  | all s es ds ih =>
    by_cases h : (all s es ds).disjunctions = []
    · rw [toDnf_of_no_disjunctions h]
      simp [Disjunction.Holds]
    · have hbranches : ∀ branch ∈ (all s es ds).disjunctions.map
          fun d => d.flatMap toDnf, ∀ ψ ∈ branch, ψ.Unbound (Equality.All Term.FlatHead) := by
        rw [List.forall_mem_map]
        intro d hd ψ hψ
        obtain ⟨χ, hχ, hψ⟩ := List.mem_flatMap.mp hψ
        exact unbound_of_mem_toDnf (fun _ => trivial) (hφ.alternatives d hd χ hχ) ψ hψ
      -- alternatives bind nothing, so the induction hypothesis applies to each of them
      have hdisjunction (d : Disjunction) (hd : d ∈ (all s es ds).disjunctions) :
          (∃ ψ ∈ d.flatMap toDnf, ψ.Holds A ρ) ↔ d.Holds A ρ := by
        simp only [List.mem_flatMap]
        constructor
        · rintro ⟨ψ, ⟨χ, hχ, hψ⟩, hholds⟩
          exact ⟨χ, hχ, (ih d hd χ hχ (hφ.alternatives d hd χ hχ).outerBound).mp ⟨ψ, hψ, hholds⟩⟩
        · rintro ⟨χ, hχ, hholds⟩
          obtain ⟨ψ, hψ, hholds⟩ :=
            (ih d hd χ hχ (hφ.alternatives d hd χ hχ).outerBound).mpr hholds
          exact ⟨ψ, ⟨χ, hχ, hψ⟩, hholds⟩
      rw [toDnf_of_disjunctions h, Disjunction.holds_ofList_iff,
        exists_choiceMembers_holds_iff hbranches, hφ.core_holds_iff, List.forall_mem_map,
        forall₂_congr hdisjunction, and_assoc]
      exact (holds_all_iff A ρ s es ds).symm

/-- Each member has the bindings of the formula. -/
theorem OuterBound.bindings_of_mem_toDnf {φ : Formula} (hφ : φ.OuterBound) :
    ∀ ψ ∈ φ.toDnf, ψ.isFalse = true ∨ ∀ entry ∈ φ.bindings.entries, entry ∈ ψ.bindings.entries := by
  -- members that are false on the way are left out later, so they need no bindings here
  refine forall_mem_toDnf (Q := fun ψ => ψ.Unbound (Equality.All Term.FlatHead) ∧
    ψ.disjunctions = []) (fun _ => .inr fun _ => id) ?_ (fun d hd χ hχ ψ hψ =>
    ⟨unbound_of_mem_toDnf (fun _ => trivial) (hφ.alternatives d hd χ hχ) ψ hψ,
      disjunctions_of_mem_toDnf χ ψ hψ⟩) ?_
  · obtain ⟨s, hcore, hentries⟩ := hφ.exists_core
    rw [hcore]
    rcases addEqualities_cases s [] [] φ.equalities with ⟨w, hfalse⟩ | ⟨es, hes⟩
    · rw [hfalse]
      exact .inl rfl
    · rw [hes]
      exact .inr fun entry => (hentries entry).mpr
  · rintro χ ψ hχ ⟨hunbound, hnone⟩
    cases ψ with
    | falsified w =>
      rw [merge]
      split
      · exact hχ
      · exact .inl rfl
    | all s' es' ds' =>
      obtain rfl : ds' = [] := hnone
      rw [merge, mergeDisjunctions, ((everywhere_all_iff s' es' []).mp hunbound).1]
      cases χ with
      | falsified w => exact .inl (congrArg isFalse (addEqualities_falsified w es'))
      | all s es ds =>
        rcases addEqualities_cases s es ds es' with ⟨w, hfalse⟩ | ⟨es'', hes⟩
        · exact .inl (congrArg isFalse hfalse)
        · rcases hχ with hχ | hs
          · cases hχ
          · exact .inr fun entry hentry => hes ▸ hs entry hentry

/-! ## Which combinations are left out -/

/-- One member of the normal form of one alternative of each disjunction. -/
def Combination (φ : Formula) (choice : List Formula) : Prop :=
  List.Forall₂ (fun ψ d => ∃ χ ∈ d, ψ ∈ Formula.toDnf χ) choice φ.disjunctions

/-- The normal form is empty when there is something to choose, and whatever is chosen is refuted
    while it is put together. -/
theorem toDnf_eq_nil_iff (φ : Formula) :
    φ.toDnf = [] ↔ φ.disjunctions ≠ [] ∧
      ∀ choice, φ.Combination choice → (choice.foldl addFormula φ.core).isFalse = true := by
  by_cases h : φ.disjunctions = []
  · simp [toDnf_of_no_disjunctions h, h]
  · have hempty (φs : List Formula) : Disjunction.ofList φs = [] ↔ φs = [] := by
      have hmem : (∃ ψ ∈ Disjunction.ofList φs, True) ↔ ∃ ψ ∈ φs, True :=
        Sorted.exists_mem_dedup (fun _ _ _ => Iff.rfl) φs
      simpa [List.eq_nil_iff_forall_not_mem] using not_congr hmem
    have hcombination (choice : List Formula) : φ.Combination choice ↔
        List.Forall₂ (· ∈ ·) choice (φ.disjunctions.map fun d => d.flatMap toDnf) := by
      simp only [Combination, List.forall₂_map_right_iff, List.mem_flatMap]
    simp only [toDnf_of_disjunctions h, hempty, List.eq_nil_iff_forall_not_mem,
      mem_choiceMembers_iff, hcombination, ne_eq, h, not_false_eq_true, true_and]
    constructor
    · intro hnone choice hchoice
      rw [← Bool.not_eq_false]
      exact fun hfalse => hnone _ ⟨⟨choice, hchoice, rfl⟩, hfalse⟩
    · rintro hfalse _ ⟨⟨choice, hchoice, rfl⟩, hne⟩
      rw [hfalse choice hchoice] at hne
      exact absurd hne nofun

/-- **The normal form.** The members state together what the formula states; none of them has
    disjunctions, each has the bindings of the formula, and none is false unless the formula is;
    they are different from each other; and there is none just when all combinations of
    alternatives are refuted while they are put together. -/
theorem disjunctive_normal_form {φ : Formula} (hφ : φ.OuterBound) :
    (∀ {V : Type} (A : Algebra V) (ρ : Variable → V), φ.Holds A ρ ↔ φ.toDnf.Holds A ρ) ∧
      (∀ ψ ∈ φ.toDnf, ψ.disjunctions = [] ∧
        ∀ entry ∈ φ.bindings.entries, entry ∈ ψ.bindings.entries) ∧
      (∀ ψ ∈ φ.toDnf, ψ.isFalse = true → φ.isFalse = true) ∧
      φ.toDnf.Distinct ∧
      (φ.toDnf = [] ↔ φ.disjunctions ≠ [] ∧
        ∀ choice, φ.Combination choice → (choice.foldl addFormula φ.core).isFalse = true) := by
  have hfalse : ∀ ψ ∈ φ.toDnf, ψ.isFalse = true → φ.isFalse = true := by
    by_cases h : φ.disjunctions = []
    · rw [toDnf_of_no_disjunctions h]
      exact List.forall_mem_singleton.mpr id
    · rw [toDnf_of_disjunctions h]
      intro ψ hψ hfalse
      rw [((mem_choiceMembers_iff ψ).mp (Sorted.mem_dedup hψ)).2] at hfalse
      exact absurd hfalse nofun
  refine ⟨fun A ρ => hφ.holds_toDnf_iff.symm, fun ψ hψ => ⟨disjunctions_of_mem_toDnf φ ψ hψ, ?_⟩,
    hfalse, ?_, toDnf_eq_nil_iff φ⟩
  · rcases hφ.bindings_of_mem_toDnf ψ hψ with hψfalse | hbindings
    · obtain ⟨w, rfl⟩ := (isFalse_iff φ).mp (hfalse ψ hψ hψfalse)
      exact nofun
    · exact hbindings
  · by_cases h : φ.disjunctions = []
    · rw [toDnf_of_no_disjunctions h]
      exact List.pairwise_singleton ..
    · rw [toDnf_of_disjunctions h]
      exact Disjunction.distinct_ofList _

end Formula

/-! ### Nested disjunctions -/

namespace Layered

def x : Variable := ⟨"X", .int⟩

def y : Variable := ⟨"Y", .int⟩

def z : Variable := ⟨"Z", .int⟩

/-- `v = n` -/
def states (v : Variable) (n : Int) : Formula := .ofEqualities [⟨.var v, .int n⟩]

/-- `Y = 1`, or else `Y = 2` and one of `Z = 1` and `Z = 2` -/
def choice : Disjunction :=
  [states y 1, .all .empty [⟨.var y, .int 2⟩] [[states z 1, states z 2]]]

/-- `X` is bound to `0`, and one of the alternatives holds. -/
def formula : Formula := .all (.singleton x (.int 0)) [] [choice]

theorem outerBound_formula : formula.OuterBound := by
  have hstates (v : Variable) (n : Int) :
      (states v n).Unbound (Equality.All Term.FlatHead) := by
    refine Formula.everywhere_addEqualities (fun _ => trivial) ?_ (Formula.everywhere_top rfl)
    exact List.forall_mem_singleton.mpr ⟨trivial, trivial⟩
  refine ⟨?_, nofun, List.forall_mem_singleton.mpr ?_⟩
  · intro entry hentry other hother _
    rw [List.mem_singleton.mp hentry, List.mem_singleton.mp hother]
  · refine List.forall_mem_cons.mpr ⟨hstates y 1, List.forall_mem_singleton.mpr ?_⟩
    refine (Formula.everywhere_all_iff _ _ _).mpr
      ⟨rfl, List.forall_mem_singleton.mpr ⟨trivial, trivial⟩, List.forall_mem_singleton.mpr ?_⟩
    exact List.forall_mem_cons.mpr ⟨hstates z 1, List.forall_mem_singleton.mpr (hstates z 2)⟩

/-- Three members state what the formula states. -/
theorem disjunctive_normal_form_formula : formula.toDnf.length = 3 ∧
    (∀ ψ ∈ formula.toDnf, ψ.disjunctions = [] ∧ (x, .int 0) ∈ ψ.bindings.entries) ∧
    ∀ (V : Type) (A : Algebra V) (ρ : Variable → V),
      formula.Holds A ρ ↔ formula.toDnf.Holds A ρ := by
  obtain ⟨hholds, hmembers, _⟩ := Formula.disjunctive_normal_form outerBound_formula
  refine ⟨by decide +kernel, fun ψ hψ => ?_, fun V A ρ => hholds A ρ⟩
  obtain ⟨hnone, hbindings⟩ := hmembers ψ hψ
  exact ⟨hnone, hbindings _ (List.mem_singleton.mpr rfl)⟩

end Layered

end Entail
