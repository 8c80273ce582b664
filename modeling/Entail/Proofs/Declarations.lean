import Entail.Proofs.Lattice
import Entail.Proofs.Ordering
import Mathlib.Logic.Relation

set_option autoImplicit false

/-! # What was declared

A lattice that was made by declarations knows exactly what they say: one sort lies below another if
the two are equal, if the other is the top sort, or if a chain of declared pairs leads down to it.
The pairs may come in any order and close cycles. Each is answered by one look at the lower set of
its small sort, and every sort above the big one takes this set over, so no chain is lost.

Where no two sorts lie below each other, the greatest lower bound is the one of the order, for
declared and undeclared sorts alike. A common subsort is found whenever there is one, except below
the top sort: there only declared sorts are looked for. -/

namespace Entail

/-- A sort, or a pair of which `small` is placed below `big`. -/
inductive Declaration where
  | sort (s : SortName)
  | subsort (big small : SortName)

/-- `small` is placed below `big` by one of the declarations. -/
def Declared (ds : List Declaration) (big small : SortName) : Prop :=
  .subsort big small ∈ ds

theorem Declared.append {ds : List Declaration} {big small : SortName} (h : Declared ds big small)
    (ds' : List Declaration) : Declared (ds ++ ds') big small := List.mem_append_left ds' h

theorem Declared.chain_append {ds : List Declaration} (ds' : List Declaration) {a b : SortName}
    (h : Relation.ReflTransGen (Declared ds) a b) :
    Relation.ReflTransGen (Declared (ds ++ ds')) a b :=
  Relation.ReflTransGen.mono (fun _ _ hst => hst.append ds') a b h

/-- The last sort of a chain is the small one of a pair. -/
theorem Declared.exists_last {ds : List Declaration} {a b : SortName}
    (h : Relation.TransGen (Declared ds) a b) : ∃ big, Declared ds big b := by
  cases h with
  | single h => exact ⟨_, h⟩
  | tail _ h => exact ⟨_, h⟩

namespace SortLattice

/-- The lattice after a declaration. -/
def after (l : SortLattice) : Declaration → SortLattice
  | .sort s => l.declare s
  | .subsort big small => l.addSubsort big small

/-- The lattice that declarations make of the empty one. -/
def ofDeclarations (ds : List Declaration) : SortLattice := ds.foldl after .empty

theorem ofDeclarations_concat (ds : List Declaration) (d : Declaration) :
    ofDeclarations (ds ++ [d]) = (ofDeclarations ds).after d := List.foldl_concat ..

/-- The sorts with fixed names, without any pairs. -/
def fixedNames : List Declaration := [.sort .bool, .sort .int, .sort .string, .sort .list]

theorem builtin_eq : builtin = ofDeclarations fixedNames := rfl

/-! ## Chains of pairs -/

/-- The lower set of a declared sort is recorded in ascending order, and it holds the sorts to which
    chains of pairs lead. -/
structure Records (l : SortLattice) (ds : List Declaration) : Prop where
  closed : l.Closed
  ascending : ∀ s b, l.below? s = some b → Sorted.Ascending SortName.cmp b
  sound : ∀ s b, l.below? s = some b → ∀ t ∈ b, Relation.ReflTransGen (Declared ds) s t
  complete : ∀ s t, Declared ds s t → s ≠ .k → ∃ b, l.below? s = some b ∧ t ∈ b

variable {l : SortLattice} {ds : List Declaration}

theorem records_empty : empty.Records [] where
  closed := closed_empty
  ascending := nofun
  sound := nofun
  complete := nofun

/-- More declarations that do not add a pair below a recorded sort. -/
theorem Records.append (h : l.Records ds) {ds' : List Declaration}
    (hds' : ∀ s t, Declared ds' s t → s = .k) : l.Records (ds ++ ds') where
  closed := h.closed
  ascending := h.ascending
  sound s b hb t ht := Declared.chain_append ds' (h.sound s b hb t ht)
  complete s t hst hs := by
    rcases List.mem_append.mp hst with hst | hst
    · exact h.complete s t hst hs
    · exact absurd (hds' s t hst) hs

theorem Records.declare (h : l.Records ds) (s : SortName) : (l.declare s).Records ds where
  closed := h.closed.declare s
  ascending t b hb := by
    rcases below?_declare_cases hb with hb | ⟨-, -, rfl⟩
    · exact h.ascending t b hb
    · exact List.pairwise_singleton ..
  sound t b hb u hu := by
    rcases below?_declare_cases hb with hb | ⟨rfl, -, rfl⟩
    · exact h.sound t b hb u hu
    · rw [List.mem_singleton.mp hu]
  complete t u htu ht := by
    obtain ⟨b, hb, hu⟩ := h.complete t u htu ht
    exact ⟨b, below?_declare_of_some hb s, hu⟩

/-- Once both sorts are declared, every sort above `big` takes over the lower set of `small`. -/
theorem Records.addSubsort (h : l.Records ds) {big small : SortName} (hbig : big ≠ .k)
    (hsmall : small ≠ .k) : (l.addSubsort big small).Records (ds ++ [.subsort big small]) := by
  have hbase := (h.declare big).declare small
  obtain ⟨lower, hlower⟩ := (known_declare (l.declare big) small).resolve_left hsmall
  have hlowerSet := hbase.closed.lowerSet_eq hlower
  have hpair : Declared (ds ++ [.subsort big small]) big small :=
    List.mem_append_right ds (List.mem_singleton.mpr rfl)
  refine ⟨h.closed.addSubsort big small, fun s b hb => ?_, fun s b hb t ht => ?_,
    fun s t hst hs => ?_⟩
  · rw [below?_addSubsort l hbig] at hb
    obtain ⟨b₀, hb₀, rfl⟩ := Option.map_eq_some_iff.mp hb
    have hb₀ := hbase.ascending s b₀ hb₀
    split_ifs
    · exact Sorted.ascending_union _ hb₀
    · exact hb₀
  · obtain ⟨b₀, hb₀, hmem⟩ := l.mem_below_addSubsort hbig small hb
    rcases (hmem t).mp ht with ht | ⟨habove, ht⟩
    · exact Declared.chain_append _ (hbase.sound s b₀ hb₀ t ht)
    · -- from `s` down to `big`, by the new pair to `small`, and on from there
      rw [hlowerSet] at ht
      have hsbig : Relation.ReflTransGen (Declared ds) s big := by
        rcases habove with rfl | hmem
        · exact .refl
        · exact hbase.sound s b₀ hb₀ big hmem
      exact ((Declared.chain_append _ hsbig).tail hpair).trans
        (Declared.chain_append _ (hbase.sound small lower hlower t ht))
  · rcases List.mem_append.mp hst with hst | hst
    · obtain ⟨b₀, hb₀, ht⟩ := hbase.complete s t hst hs
      obtain ⟨b, hb, hmem⟩ := l.exists_below_addSubsort hbig small hb₀
      exact ⟨b, hb, (hmem t).mpr (Or.inl ht)⟩
    · obtain ⟨rfl, rfl⟩ := Declaration.subsort.inj (List.mem_singleton.mp hst)
      obtain ⟨b₀, hb₀⟩ := ((known_declare l s).declare t).resolve_left hs
      obtain ⟨b, hb, hmem⟩ := l.exists_below_addSubsort hbig t hb₀
      refine ⟨b, hb, (hmem t).mpr (Or.inr ⟨Or.inl rfl, ?_⟩)⟩
      exact hbase.closed.self_mem_lowerSet t

/-- One more declaration is recorded, whatever was declared before. -/
theorem Records.after (h : l.Records ds) {d : Declaration} (hd : ∀ big, d ≠ .subsort big .k) :
    (l.after d).Records (ds ++ [d]) := by
  cases d with
  | sort s => exact (h.declare s).append fun _ _ hst => absurd (List.mem_singleton.mp hst) nofun
  | subsort big small =>
    by_cases hbig : big = .k
    · subst hbig
      rw [SortLattice.after, addSubsort_top]
      refine ((h.declare .k).declare small).append fun s t hst => ?_
      exact (Declaration.subsort.inj (List.mem_singleton.mp hst)).1
    · exact h.addSubsort hbig fun hsmall => hd big (hsmall ▸ rfl)

/-- Whatever the order of the declarations, the lattice records all of them. -/
theorem records_ofDeclarations (hk : ∀ big, ¬Declared ds big .k) :
    (ofDeclarations ds).Records ds := by
  induction ds using List.reverseRecOn with
  | nil => exact records_empty
  | append_singleton ds d ih =>
    rw [ofDeclarations_concat]
    refine (ih fun big hbig => hk big (hbig.append [d])).after ?_
    rintro big rfl
    exact hk big (List.mem_append_right ds (List.mem_singleton.mpr rfl))

/-- What a chain of pairs leads to is in the recorded lower set. -/
theorem Records.exists_below (h : l.Records ds) (hk : ∀ big, ¬Declared ds big .k) {a b : SortName}
    (ha : a ≠ .k) (hab : Relation.TransGen (Declared ds) a b) :
    ∃ lower, l.below? a = some lower ∧ b ∈ lower := by
  induction hab with
  | single hab => exact h.complete _ _ hab ha
  | @tail m b ham hmb ih =>
    obtain ⟨lower, hlower, hm⟩ := ih
    have hmk : m ≠ .k := by
      rintro rfl
      obtain ⟨big, hbig⟩ := Declared.exists_last ham
      exact hk big hbig
    obtain ⟨lower', hlower', hb⟩ := h.complete m b hmb hmk
    exact ⟨lower, hlower, h.closed.trans a lower m lower' hlower hm hlower' b hb⟩

theorem Records.isSubsortEq_iff (h : l.Records ds) (hk : ∀ big, ¬Declared ds big .k)
    (a b : SortName) : l.isSubsortEq a b = true ↔
      a = b ∨ a = .k ∨ Relation.TransGen (Declared ds) a b := by
  rw [SortLattice.isSubsortEq_iff]
  constructor
  · rintro (heq | htop | ⟨lower, hlower, hb⟩)
    · exact Or.inl heq
    · exact Or.inr (Or.inl htop)
    · rcases Relation.reflTransGen_iff_eq_or_transGen.mp (h.sound a lower hlower b hb) with
        heq | hchain
      · exact Or.inl heq.symm
      · exact Or.inr (Or.inr hchain)
  · rintro (heq | htop | hchain)
    · exact Or.inl heq
    · exact Or.inr (Or.inl htop)
    · by_cases htop : a = .k
      · exact Or.inr (Or.inl htop)
      · exact Or.inr (Or.inr (h.exists_below hk htop hchain))

/-- **The order is the closure of the declared pairs.** Whatever was declared and in whatever order,
    also several times and in cycles, as long as the top sort is not placed below another sort: a
    sort lies below another one just when they are equal, the other one is the top sort, or a chain
    of declared pairs leads down to it. -/
theorem isSubsortEq_iff_chain (ds : List Declaration) (hk : ∀ big, ¬Declared ds big .k)
    (a b : SortName) : (ofDeclarations ds).isSubsortEq a b = true ↔
      a = b ∨ a = .k ∨ Relation.TransGen (Declared ds) a b :=
  (records_ofDeclarations hk).isSubsortEq_iff hk a b

namespace Crossing

/-- `B` above `C`, `D` above `E` below it, then `C` above `D`, `A` above all of them, and `E` above
    `C`, which closes a cycle. -/
def declarations : List Declaration :=
  [.subsort ⟨"B"⟩ ⟨"C"⟩, .subsort ⟨"D"⟩ ⟨"E"⟩, .subsort ⟨"C"⟩ ⟨"D"⟩, .sort ⟨"C"⟩,
    .subsort ⟨"A"⟩ ⟨"B"⟩, .subsort ⟨"E"⟩ ⟨"C"⟩]

/-- The pairs in the middle and at the end are found from above, and nothing leads back up. -/
theorem isSubsortEq_iff_chain_crossing :
    (∀ big, ¬Declared declarations big .k) ∧
    Relation.TransGen (Declared declarations) ⟨"A"⟩ ⟨"E"⟩ ∧
    Relation.TransGen (Declared declarations) ⟨"D"⟩ ⟨"C"⟩ ∧
    ¬Relation.TransGen (Declared declarations) ⟨"C"⟩ ⟨"B"⟩ := by
  have hk : ∀ big, ¬Declared declarations big .k := by
    simp [Declared, declarations, SortName.k]
  have hiff := isSubsortEq_iff_chain declarations hk
  have found {a b : SortName} (hne : a ≠ b) (htop : a ≠ .k)
      (h : (ofDeclarations declarations).isSubsortEq a b = true) :
      Relation.TransGen (Declared declarations) a b :=
    (((hiff a b).mp h).resolve_left hne).resolve_left htop
  refine ⟨hk, found (by decide) (by decide) (by decide), found (by decide) (by decide) (by decide),
    fun hchain => ?_⟩
  have habove := (hiff ⟨"C"⟩ ⟨"B"⟩).mpr (Or.inr (Or.inr hchain))
  exact absurd habove (by decide)

end Crossing

/-! ## Lower bounds -/

/-- Pairs that lead no two sorts to each other make a lattice without cycles. -/
theorem Records.acyclic (h : l.Records ds) (hk : ∀ big, ¬Declared ds big .k)
    (hacyclic : ∀ a b, Relation.TransGen (Declared ds) a b →
      Relation.TransGen (Declared ds) b a → a = b) : l.Acyclic := by
  have not_to_top {a : SortName} (hchain : Relation.TransGen (Declared ds) a .k) : False :=
    (Declared.exists_last hchain).elim hk
  intro a b hab hba
  rw [h.isSubsortEq_iff hk] at hab hba
  rcases hab with heq | rfl | hab
  · exact heq
  · rcases hba with heq | heq | hba
    · exact heq.symm
    · exact heq.symm
    · exact (not_to_top hba).elim
  · rcases hba with heq | rfl | hba
    · exact heq.symm
    · exact (not_to_top hab).elim
    · exact hacyclic a b hab hba

theorem Records.ascending_lowerSet (h : l.Records ds) {s : SortName} (hs : s ≠ .k) :
    Sorted.Ascending SortName.cmp (l.lowerSet s) := by
  cases hb : l.below? s with
  | none =>
    rw [lowerSet_of_undeclared hs hb]
    exact List.pairwise_singleton ..
  | some b =>
    rw [h.closed.lowerSet_eq hb]
    exact h.ascending s b hb

/-- The greatest lower bound is the only maximal one. -/
theorem Records.maximalLowerBounds_eq (h : l.Records ds) (hacyclic : l.Acyclic)
    {a b g : SortName} (ha : a ≠ .k) (hb : b ≠ .k) (hg : l.IsMeet a b g) :
    l.maximalLowerBounds a b = [g] := by
  have hbounds := h.closed.mem_common_iff ha hb
  have hgmem := (hbounds g).mpr ⟨hg.left, hg.right⟩
  have hcommon : Sorted.Ascending SortName.cmp (l.commonLowerBounds a b) :=
    List.Pairwise.filter _ (h.ascending_lowerSet ha)
  refine Sorted.eq_singleton_of_nodup (hcommon.nodup.filter _) fun m => ?_
  rw [← maximalLowerBounds, mem_maximalLowerBounds_iff]
  constructor
  · rintro ⟨hm, hmax⟩
    obtain ⟨ham, hbm⟩ := (hbounds m).mp hm
    exact (hmax g hgmem (hg.greatest m ham hbm)).symm
  · rintro rfl
    refine ⟨hgmem, fun other hother hle => hacyclic other m hle ?_⟩
    obtain ⟨ha', hb'⟩ := (hbounds other).mp hother
    exact hg.greatest other ha' hb'

/-- The greatest lower bound is found just when there is one. -/
theorem Records.glb_eq_some_iff (h : l.Records ds) (hacyclic : l.Acyclic) (a b g : SortName) :
    l.glb a b = some g ↔ l.IsMeet a b g := by
  refine ⟨hacyclic.isMeet_of_glb h.closed, fun hg => ?_⟩
  rw [glb]
  split_ifs with hab hba
  · rw [hacyclic g b (hg.greatest b hab (l.isSubsortEq_refl b)) hg.right]
  · rw [hacyclic g a (hg.greatest a (l.isSubsortEq_refl a) hba) hg.left]
  · rw [h.maximalLowerBounds_eq hacyclic (ne_k_of_not_above hab) (ne_k_of_not_above hba) hg]

/-- **Lower bounds agree with the order**, for declared and undeclared sorts, if no two different
    sorts lead to each other by chains of declared pairs and the top sort is the small sort of none:
    the greatest lower bound is found just when there is one. A common subsort is found just when
    there is one, except of the top sort and a sort that is not declared, which has itself for a
    common subsort. -/
theorem lower_bounds_found (ds : List Declaration) (hk : ∀ big, ¬Declared ds big .k)
    (hacyclic : ∀ a b, Relation.TransGen (Declared ds) a b →
      Relation.TransGen (Declared ds) b a → a = b) (a b : SortName) :
    ((ofDeclarations ds).haveCommonSubsort a b = true ↔
      (∃ s, (ofDeclarations ds).isSubsortEq a s = true ∧
        (ofDeclarations ds).isSubsortEq b s = true) ∧
      (a = .k → (ofDeclarations ds).Known b) ∧ (b = .k → (ofDeclarations ds).Known a)) ∧
    ∀ g, (ofDeclarations ds).glb a b = some g ↔ (ofDeclarations ds).IsMeet a b g := by
  have h := records_ofDeclarations hk
  exact ⟨h.closed.haveCommonSubsort_iff a b, h.glb_eq_some_iff (h.acyclic hk hacyclic) a b⟩

namespace Expressions

/-- `Exp` above `Int` and `Id`, and `Val` above `Int`. -/
def declarations : List Declaration :=
  fixedNames ++ [.subsort ⟨"Exp"⟩ .int, .subsort ⟨"Exp"⟩ ⟨"Id"⟩, .subsort ⟨"Val"⟩ .int]

/-- The pairs make no chains of more than one. -/
theorem above_of_chain {a b : SortName} (h : Relation.TransGen (Declared declarations) a b) :
    a ∈ [⟨"Exp"⟩, ⟨"Val"⟩] ∧ b ∈ [.int, ⟨"Id"⟩] := by
  have pair {a b : SortName} (h : Declared declarations a b) :
      a ∈ [⟨"Exp"⟩, ⟨"Val"⟩] ∧ b ∈ [.int, ⟨"Id"⟩] := by
    simp only [Declared, declarations, fixedNames, List.mem_append, List.mem_cons,
      Declaration.subsort.injEq, List.not_mem_nil, reduceCtorEq, or_false, false_or] at h
    rcases h with ⟨rfl, rfl⟩ | ⟨rfl, rfl⟩ | ⟨rfl, rfl⟩ <;> decide
  induction h with
  | single h => exact pair h
  | tail _ h ih => exact ⟨ih.1, (pair h).2⟩

/-- `Exp` and `Val` meet in `Int`. `Exp` has a sort in common with `K`, but none with a sort that is
    not declared. -/
theorem lower_bounds_found_expressions :
    (ofDeclarations declarations).IsMeet ⟨"Exp"⟩ ⟨"Val"⟩ .int ∧
    (∃ s, (ofDeclarations declarations).isSubsortEq .k s = true ∧
      (ofDeclarations declarations).isSubsortEq ⟨"Exp"⟩ s = true) ∧
    ¬∃ s, (ofDeclarations declarations).isSubsortEq ⟨"Exp"⟩ s = true ∧
      (ofDeclarations declarations).isSubsortEq ⟨"U"⟩ s = true := by
  have hk (big : SortName) : ¬Declared declarations big .k := by
    simp [Declared, declarations, fixedNames, SortName.k, SortName.int]
  have hacyclic (a b : SortName) (hab : Relation.TransGen (Declared declarations) a b)
      (hba : Relation.TransGen (Declared declarations) b a) : a = b := by
    have habove := (above_of_chain hab).1
    have hbelow := (above_of_chain hba).2
    simp only [List.mem_cons, List.not_mem_nil, or_false] at habove hbelow
    rcases habove with rfl | rfl <;> simp [SortName.int] at hbelow
  have hmeet := (lower_bounds_found declarations hk hacyclic ⟨"Exp"⟩ ⟨"Val"⟩).2 .int
  have htop := (lower_bounds_found declarations hk hacyclic .k ⟨"Exp"⟩).1
  have hundeclared := (lower_bounds_found declarations hk hacyclic ⟨"Exp"⟩ ⟨"U"⟩).1
  refine ⟨hmeet.mp (by decide), (htop.mp (by decide)).1, fun hcommon => ?_⟩
  have hfound := hundeclared.mpr ⟨hcommon, fun htop => absurd htop (by decide),
    fun htop => absurd htop (by decide)⟩
  exact absurd hfound (by decide)

end Expressions

/-- A sort that is not declared is below the top sort, and it is their greatest lower bound. The
    common subsorts of the two are looked for among the declared sorts only. -/
theorem common_subsort_overlooked :
    (∀ big small, ¬Declared fixedNames big small) ∧
    (ofDeclarations fixedNames).glb .k ⟨"U"⟩ = some ⟨"U"⟩ ∧
    ¬((ofDeclarations fixedNames).haveCommonSubsort .k ⟨"U"⟩ = true ↔
      ∃ s, (ofDeclarations fixedNames).isSubsortEq .k s = true ∧
        (ofDeclarations fixedNames).isSubsortEq ⟨"U"⟩ s = true) := by
  refine ⟨by simp [Declared, fixedNames], by decide, fun hiff => ?_⟩
  have hfound := hiff.mpr ⟨⟨"U"⟩, by decide, by decide⟩
  exact absurd hfound (by decide)

end SortLattice

end Entail
