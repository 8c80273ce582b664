import Entail.Proofs.Lattice
import Mathlib.Data.List.Forall2

set_option autoImplicit false

/-! # Narrower arguments of overloaded symbols

Narrower arguments are accepted by more signatures, so a least result can only get smaller. But the
results of the signatures that are added may leave none least, and then the sort falls back to the
greatest declared result, or to the top sort. That is the only way in which narrower arguments widen
an application. -/

namespace Entail.Vocabulary

variable {voc : Vocabulary} {f : Symbol} {args sorts narrower : List SortName} {r : SortName}

/-! ## Least and greatest results -/

/-- The parameters of the signature lie above the argument sorts, one by one. -/
def Accepts (voc : Vocabulary) (sig : Signature) (args : List SortName) : Prop :=
  List.Forall₂ (fun p a => voc.lattice.isSubsortEq p a = true) sig.params args

/-- A signature that accepts the arguments has this result, and it lies below the results of all
    signatures that do. -/
structure IsLeastResult (voc : Vocabulary) (f : Symbol) (args : List SortName) (r : SortName) :
    Prop where
  accepted : ∃ sig ∈ f.signatures, voc.Accepts sig args ∧ sig.result = r
  least : ∀ sig ∈ f.signatures, voc.Accepts sig args →
    voc.lattice.isSubsortEq sig.result r = true

/-- A signature has this result, and it lies above the results of all signatures. -/
structure IsGreatestResult (voc : Vocabulary) (f : Symbol) (r : SortName) : Prop where
  declared : ∃ sig ∈ f.signatures, sig.result = r
  greatest : ∀ sig ∈ f.signatures, voc.lattice.isSubsortEq r sig.result = true

theorem mem_applicableResults_iff : r ∈ voc.applicableResults f args ↔
    ∃ sig ∈ f.signatures, voc.Accepts sig args ∧ sig.result = r := by
  simp only [applicableResults, List.mem_map, List.mem_filter, accepts_iff, Accepts, and_assoc]

theorem isLeastResult_iff : voc.IsLeastResult f args r ↔ r ∈ voc.applicableResults f args ∧
    ((voc.applicableResults f args).all fun other => voc.lattice.isSubsortEq other r) = true := by
  rw [List.all_eq_true]
  constructor
  · intro h
    refine ⟨mem_applicableResults_iff.mpr h.accepted, fun other hother => ?_⟩
    obtain ⟨sig, hsig, haccepts, rfl⟩ := mem_applicableResults_iff.mp hother
    exact h.least sig hsig haccepts
  · rintro ⟨hmem, hleast⟩
    refine ⟨mem_applicableResults_iff.mp hmem, fun sig hsig haccepts => ?_⟩
    exact hleast sig.result (mem_applicableResults_iff.mpr ⟨sig, hsig, haccepts, rfl⟩)

theorem isGreatestResult_iff : voc.IsGreatestResult f r ↔ r ∈ f.signatures.map (·.result) ∧
    ((f.signatures.map (·.result)).all fun other => voc.lattice.isSubsortEq r other) = true := by
  rw [List.all_eq_true, List.forall_mem_map, List.mem_map]
  exact ⟨fun h => ⟨h.declared, h.greatest⟩, fun h => ⟨h.1, h.2⟩⟩

/-- A search finds what it looks for just when it is there. -/
theorem find?_cases (p : SortName → Bool) (sorts : List SortName) :
    (∃ r, sorts.find? p = some r ∧ r ∈ sorts ∧ p r = true) ∨
      sorts.find? p = none ∧ ¬∃ r, r ∈ sorts ∧ p r = true := by
  cases hfind : sorts.find? p with
  | some r => exact Or.inl ⟨r, rfl, List.mem_of_find?_eq_some hfind, List.find?_some hfind⟩
  | none =>
    refine Or.inr ⟨rfl, ?_⟩
    rintro ⟨r, hr, hp⟩
    exact List.find?_eq_none.mp hfind r hr hp

theorem leastOf?_cases (voc : Vocabulary) (f : Symbol) (args : List SortName) :
    (∃ r, voc.leastOf? (voc.applicableResults f args) = some r ∧ voc.IsLeastResult f args r) ∨
      voc.leastOf? (voc.applicableResults f args) = none ∧ ¬∃ r, voc.IsLeastResult f args r := by
  simp only [isLeastResult_iff]
  exact find?_cases _ _

theorem greatestOf?_cases (voc : Vocabulary) (f : Symbol) :
    (∃ r, voc.greatestOf? (f.signatures.map (·.result)) = some r ∧ voc.IsGreatestResult f r) ∨
      voc.greatestOf? (f.signatures.map (·.result)) = none ∧ ¬∃ r, voc.IsGreatestResult f r := by
  simp only [isGreatestResult_iff]
  exact find?_cases _ _

/-! ## The sort of an application -/

/-- The sort of an application is the least result, and otherwise the greatest one or the top
    sort. -/
theorem leastSort_spec (voc : Vocabulary) (f : Symbol) (args : List SortName) :
    voc.IsLeastResult f args (voc.leastSort f args) ∨
      (¬∃ r, voc.IsLeastResult f args r) ∧
        (voc.IsGreatestResult f (voc.leastSort f args) ∨
          (¬∃ r, voc.IsGreatestResult f r) ∧ voc.leastSort f args = .k) := by
  rw [leastSort]
  rcases voc.leastOf?_cases f args with ⟨r, hfind, hr⟩ | ⟨hfind, hnone⟩
  · rw [hfind]
    exact Or.inl hr
  · rw [hfind]
    refine Or.inr ⟨hnone, ?_⟩
    rcases voc.greatestOf?_cases f with ⟨r, hfind, hr⟩ | ⟨hfind, hnone⟩
    · rw [hfind]
      exact Or.inl hr
    · rw [hfind]
      exact Or.inr ⟨hnone, rfl⟩

theorem isLeastResult_leastSort (h : ∃ r, voc.IsLeastResult f args r) :
    voc.IsLeastResult f args (voc.leastSort f args) :=
  (voc.leastSort_spec f args).resolve_right fun hnone => hnone.1 h

/-- Without a least result the sort lies above the results of all signatures. -/
theorem above_result (h : ¬∃ r, voc.IsLeastResult f args r) {sig : Signature}
    (hsig : sig ∈ f.signatures) :
    voc.lattice.isSubsortEq (voc.leastSort f args) sig.result = true := by
  rcases voc.leastSort_spec f args with hleast | ⟨_, hgreatest | ⟨_, hk⟩⟩
  · exact absurd ⟨_, hleast⟩ h
  · exact hgreatest.greatest sig hsig
  · rw [hk]
    exact voc.lattice.isSubsortEq_top sig.result

/-- Without a least result the sort lies below the greatest result. -/
theorem below_greatest (h : ¬∃ r, voc.IsLeastResult f args r) (hr : voc.IsGreatestResult f r) :
    voc.lattice.isSubsortEq r (voc.leastSort f args) = true := by
  rcases voc.leastSort_spec f args with hleast | ⟨_, hgreatest | ⟨hnone, _⟩⟩
  · exact absurd ⟨_, hleast⟩ h
  · obtain ⟨sig, hsig, heq⟩ := hgreatest.declared
    rw [← heq]
    exact hr.greatest sig hsig
  · exact absurd ⟨r, hr⟩ hnone

/-- Arguments without a least result all have the same one of the two other sorts. -/
theorem below_of_none (h : ¬∃ r, voc.IsLeastResult f sorts r)
    (h' : ¬∃ r, voc.IsLeastResult f narrower r) :
    voc.lattice.isSubsortEq (voc.leastSort f sorts) (voc.leastSort f narrower) = true := by
  rcases voc.leastSort_spec f sorts with hleast | ⟨_, hgreatest | ⟨_, hk⟩⟩
  · exact absurd ⟨_, hleast⟩ h
  · exact below_greatest h' hgreatest
  · rw [hk]
    exact voc.lattice.isSubsortEq_top _

/-! ## Narrower arguments -/

/-- What is accepted is still accepted when it gets narrower. -/
theorem Accepts.of_narrower (hvoc : voc.Built) (hacyclic : voc.lattice.Acyclic) {sig : Signature}
    (h : voc.Accepts sig sorts)
    (hle : List.Forall₂ (fun s r => voc.lattice.isSubsortEq s r = true) sorts narrower) :
    voc.Accepts sig narrower := by
  obtain ⟨params, result⟩ := sig
  change List.Forall₂ _ params sorts at h
  change List.Forall₂ _ params narrower
  induction h generalizing narrower with
  | nil =>
    cases hle
    exact .nil
  | cons hp _ ih =>
    cases hle with
    | cons hs hrest => exact .cons (hacyclic.trans hvoc.closed hp hs) (ih hrest)

/-- A least result for the narrower arguments lies below the sort for the wider ones, whatever that
    is. -/
theorem IsLeastResult.below_leastSort (hvoc : voc.Built) (hacyclic : voc.lattice.Acyclic)
    (hle : List.Forall₂ (fun s r => voc.lattice.isSubsortEq s r = true) sorts narrower)
    (hr : voc.IsLeastResult f narrower r) :
    voc.lattice.isSubsortEq (voc.leastSort f sorts) r = true := by
  by_cases hsorts : ∃ r, voc.IsLeastResult f sorts r
  · obtain ⟨sig, hsig, haccepts, heq⟩ := (isLeastResult_leastSort hsorts).accepted
    rw [← heq]
    exact hr.least sig hsig (haccepts.of_narrower hvoc hacyclic hle)
  · obtain ⟨sig, hsig, _, rfl⟩ := hr.accepted
    exact above_result hsorts hsig

/-- Least results are distinct only in cycles. -/
theorem IsLeastResult.eq_leastSort (hacyclic : voc.lattice.Acyclic)
    (hr : voc.IsLeastResult f args r) : r = voc.leastSort f args := by
  have hleast := isLeastResult_leastSort ⟨r, hr⟩
  obtain ⟨sig, hsig, haccepts, heq⟩ := hr.accepted
  obtain ⟨sig', hsig', haccepts', heq'⟩ := hleast.accepted
  refine hacyclic _ _ ?_ ?_
  · rw [← heq]
    exact hleast.least sig hsig haccepts
  · rw [← heq']
    exact hr.least sig' hsig' haccepts'

/-- **Narrower arguments widen an application in one case only.** If no two sorts lie below each
    other, an application to narrower arguments has a narrower sort or a wider one. It has a
    narrower one, unless the signatures that accept the wider arguments have a least result, this is
    not the greatest declared result, and the signatures that accept the narrower arguments have no
    least result. -/
theorem narrowed_application_iff (hvoc : voc.Built) (hacyclic : voc.lattice.Acyclic) (f : Symbol)
    {sorts narrower : List SortName}
    (hle : List.Forall₂ (fun s r => voc.lattice.isSubsortEq s r = true) sorts narrower) :
    (voc.lattice.isSubsortEq (voc.leastSort f sorts) (voc.leastSort f narrower) = true ∨
      voc.lattice.isSubsortEq (voc.leastSort f narrower) (voc.leastSort f sorts) = true) ∧
    (voc.lattice.isSubsortEq (voc.leastSort f sorts) (voc.leastSort f narrower) = true ↔
      ∀ r, voc.IsLeastResult f sorts r →
        (∃ r', voc.IsLeastResult f narrower r') ∨ voc.IsGreatestResult f r) := by
  by_cases hnarrower : ∃ r', voc.IsLeastResult f narrower r'
  · have hbelow := (isLeastResult_leastSort hnarrower).below_leastSort hvoc hacyclic hle
    exact ⟨Or.inl hbelow, fun _ _ _ => Or.inl hnarrower, fun _ => hbelow⟩
  · by_cases hsorts : ∃ r, voc.IsLeastResult f sorts r
    · have hleast := isLeastResult_leastSort hsorts
      obtain ⟨sig, hsig, _, hresult⟩ := hleast.accepted
      have habove := above_result hnarrower hsig
      rw [hresult] at habove
      refine ⟨Or.inr habove, fun hbelow r hr => Or.inr ?_, fun hcond => ?_⟩
      · -- the fallback lies above all results, and it is this one
        have heq := hacyclic _ _ hbelow habove
        rw [hr.eq_leastSort hacyclic, heq]
        exact ⟨⟨sig, hsig, hresult.trans heq⟩, fun _ => above_result hnarrower⟩
      · exact below_greatest hnarrower ((hcond _ hleast).resolve_left hnarrower)
    · have hbelow := below_of_none hsorts hnarrower
      exact ⟨Or.inl hbelow, fun _ r hr => absurd ⟨r, hr⟩ hsorts, fun _ => hbelow⟩

/-! ### Overloaded symbols -/

namespace Narrowed

/-- `B` lies below `A`, and `S` and `T` below `U`. -/
def vocabulary : Vocabulary :=
  ((Vocabulary.initial.addSubsort ⟨"A"⟩ ⟨"B"⟩).addSubsort ⟨"U"⟩ ⟨"S"⟩).addSubsort ⟨"U"⟩ ⟨"T"⟩

theorem built : vocabulary.Built := .addSubsort _ _ (.addSubsort _ _ (.addSubsort _ _ .initial))

theorem acyclic : vocabulary.lattice.Acyclic := SortLattice.acyclic_of_entries (by decide)

/-- An operation on `B` and on `A`. -/
def plus : Symbol :=
  ⟨"plus", .constructor, [⟨[⟨"B"⟩, ⟨"B"⟩], ⟨"B"⟩⟩, ⟨[⟨"A"⟩, ⟨"A"⟩], ⟨"A"⟩⟩]⟩

/-- From `A` to `S`, and from `B` to `T`. -/
def divided : Symbol := ⟨"f", .function, [⟨[⟨"A"⟩], ⟨"S"⟩⟩, ⟨[⟨"B"⟩], ⟨"T"⟩⟩]⟩

/-- The same, and from `U` to `U`. -/
def bounded : Symbol := ⟨"g", .function, divided.signatures ++ [⟨[⟨"U"⟩], ⟨"U"⟩⟩]⟩

/-- With one argument of `B` the operation is that on `A`, and with two of them that on `B`. -/
theorem narrowed_application_plus :
    vocabulary.leastSort plus [⟨"A"⟩, ⟨"B"⟩] = ⟨"A"⟩ ∧
    vocabulary.leastSort plus [⟨"B"⟩, ⟨"B"⟩] = ⟨"B"⟩ ∧
    vocabulary.lattice.isSubsortEq (vocabulary.leastSort plus [⟨"A"⟩, ⟨"B"⟩])
      (vocabulary.leastSort plus [⟨"B"⟩, ⟨"B"⟩]) = true := by
  have hle : List.Forall₂ (fun s r => vocabulary.lattice.isSubsortEq s r = true)
      [⟨"A"⟩, ⟨"B"⟩] [⟨"B"⟩, ⟨"B"⟩] := .cons (by decide) (.cons (by decide) .nil)
  have hleast : ∃ r, vocabulary.IsLeastResult plus [⟨"B"⟩, ⟨"B"⟩] r := by
    rcases vocabulary.leastOf?_cases plus [⟨"B"⟩, ⟨"B"⟩] with ⟨r, _, hr⟩ | ⟨hnone, _⟩
    · exact ⟨r, hr⟩
    · exact absurd hnone (by decide)
  refine ⟨by decide, by decide, ?_⟩
  exact (narrowed_application_iff built acyclic plus hle).2.mpr fun _ _ => Or.inl hleast

/-- `B` is accepted by two signatures, whose results are not related, and `A` only by one of them.
    So the application to `B` has the top sort, or the greatest declared result. -/
theorem narrower_arguments_widen :
    vocabulary.Built ∧ vocabulary.lattice.Acyclic ∧
    List.Forall₂ (fun s r => vocabulary.lattice.isSubsortEq s r = true) [⟨"A"⟩] [⟨"B"⟩] ∧
    ¬vocabulary.lattice.isSubsortEq (vocabulary.leastSort divided [⟨"A"⟩])
      (vocabulary.leastSort divided [⟨"B"⟩]) = true ∧
    ¬vocabulary.lattice.isSubsortEq (vocabulary.leastSort bounded [⟨"A"⟩])
      (vocabulary.leastSort bounded [⟨"B"⟩]) = true :=
  ⟨built, acyclic, .cons (by decide) .nil, by decide, by decide⟩

end Narrowed

end Entail.Vocabulary
