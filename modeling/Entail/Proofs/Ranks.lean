import Entail.Proofs.Lattice
import Mathlib.Data.Finset.Card
import Mathlib.Data.List.Basic

set_option autoImplicit false

/-! # Ranks of sorts

Below the top sort the order is transitive, and the rank of a sort is the number of sorts below it.
The order may have cycles, and the top sort may itself be declared below another sort, so that it is
not transitive as a whole; the rank of the top sort is above all others. A sort that replaces another
one in a simplification lies under it, which is what makes ranks go down. -/

namespace Entail

namespace SortLattice

variable {l : SortLattice}

/-! ## The top sort below other sorts -/

/-- Two sorts with the top sort below them have a third one of this kind below them both. -/
def Founded (l : SortLattice) : Prop :=
  ∀ a b la lb, l.below? a = some la → l.below? b = some lb → .k ∈ la → .k ∈ lb →
    ∃ o lo, o ≠ .k ∧ o ∈ la ∧ o ∈ lb ∧ l.below? o = some lo ∧ .k ∈ lo

theorem founded_empty : Founded empty := nofun

theorem Founded.declare (h : l.Founded) (s : SortName) : (l.declare s).Founded := by
  -- a new sort has nothing but itself below it
  have old {t : SortName} {b : List SortName} (hb : (l.declare s).below? t = some b)
      (hk : .k ∈ b) : l.below? t = some b := by
    rcases below?_declare_cases hb with hb | ⟨-, hs, rfl⟩
    · exact hb
    · exact absurd (List.mem_singleton.mp hk).symm hs
  intro a b la lb ha hb hka hkb
  obtain ⟨o, lo, hne, hoa, hob, ho, hko⟩ := h a b la lb (old ha hka) (old hb hkb) hka hkb
  exact ⟨o, lo, hne, hoa, hob, below?_declare_of_some ho s, hko⟩

/-- A sort with the top sort below it and the lower set of another one share a third one of this
    kind, if the top sort is in that set. -/
theorem Founded.exists_in_lowerSet (h : l.Founded) (hl : l.Closed) {a small : SortName}
    {la : List SortName} (ha : l.below? a = some la) (hka : .k ∈ la) (hsmall : l.Known small)
    (hk : .k ∈ l.lowerSet small) :
    ∃ o lo, o ≠ .k ∧ o ∈ la ∧ o ∈ l.lowerSet small ∧ l.below? o = some lo ∧ .k ∈ lo := by
  rcases hsmall with rfl | ⟨ls, hls⟩
  · refine ⟨a, la, ?_, hl.self a la ha, (l.mem_lowerSet_k a).mpr (Or.inr ⟨la, ha⟩), ha, hka⟩
    rintro rfl
    rw [hl.top] at ha
    exact absurd ha nofun
  · rw [hl.lowerSet_eq hls] at hk ⊢
    exact h a small la ls ha hls hka hk

theorem Founded.addSubsort (hl : l.Closed) (h : l.Founded) (big small : SortName) :
    (l.addSubsort big small).Founded := by
  have hfounded := (h.declare big).declare small
  have hclosed := (hl.declare big).declare small
  have hsmall := known_declare (l.declare big) small
  by_cases hbig : big = .k
  · subst hbig
    rwa [addSubsort_top]
  have grown {t : SortName} {b : List SortName} :=
    l.mem_below_addSubsort hbig small (t := t) (b := b)
  set base := (l.declare big).declare small with hbase
  -- everything that was recorded is still there
  have larger {t : SortName} {b₀ : List SortName} (hb₀ : base.below? t = some b₀) :
      ∃ b, (l.addSubsort big small).below? t = some b ∧ ∀ u ∈ b₀, u ∈ b := by
    obtain ⟨b, hb, hmem⟩ := l.exists_below_addSubsort hbig small hb₀
    exact ⟨b, hb, fun u hu => (hmem u).mpr (Or.inl hu)⟩
  -- a sort that had the top sort below it before, and one that gets it now
  have mixed {a b : SortName} {la lb la₀ lb₀ : List SortName} (ha₀ : base.below? a = some la₀)
      (hka : .k ∈ la₀) (hla : ∀ u, u ∈ la₀ → u ∈ la)
      (hlb : ∀ u, u ∈ lb ↔ u ∈ lb₀ ∨ (b = big ∨ big ∈ lb₀) ∧ u ∈ base.lowerSet small)
      (hcond : b = big ∨ big ∈ lb₀) (hk : .k ∈ base.lowerSet small) :
      ∃ o lo, o ≠ .k ∧ o ∈ la ∧ o ∈ lb ∧ (l.addSubsort big small).below? o = some lo ∧
        .k ∈ lo := by
    obtain ⟨o, lo, hne, hoa, hos, ho, hko⟩ :=
      hfounded.exists_in_lowerSet hclosed ha₀ hka hsmall hk
    obtain ⟨lo', hlo', hsub⟩ := larger ho
    exact ⟨o, lo', hne, hla o hoa, (hlb o).mpr (Or.inr ⟨hcond, hos⟩), hlo', hsub _ hko⟩
  intro a b la lb ha hb hka hkb
  obtain ⟨la₀, ha₀, hla⟩ := grown ha
  obtain ⟨lb₀, hb₀, hlb⟩ := grown hb
  rcases (hla .k).mp hka with hka₀ | ⟨hconda, hk⟩
  · rcases (hlb .k).mp hkb with hkb₀ | ⟨hcondb, hk⟩
    · obtain ⟨o, lo, hne, hoa, hob, ho, hko⟩ := hfounded a b la₀ lb₀ ha₀ hb₀ hka₀ hkb₀
      obtain ⟨lo', hlo', hsub⟩ := larger ho
      exact ⟨o, lo', hne, (hla o).mpr (Or.inl hoa), (hlb o).mpr (Or.inl hob), hlo', hsub _ hko⟩
    · exact mixed ha₀ hka₀ (fun u hu => (hla u).mpr (Or.inl hu)) hlb hcondb hk
  · rcases (hlb .k).mp hkb with hkb₀ | ⟨hcondb, hk⟩
    · obtain ⟨o, lo, hne, hob, hoa, ho, hko⟩ :=
        mixed hb₀ hkb₀ (fun u hu => (hlb u).mpr (Or.inl hu)) hla hconda hk
      exact ⟨o, lo, hne, hoa, hob, ho, hko⟩
    · -- both get it now, through the larger of the two sorts
      obtain ⟨lbig₀, hlbig₀⟩ := ((known_declare l big).declare small).resolve_left hbig
      obtain ⟨lbig, hlbig, hsub⟩ := larger hlbig₀
      obtain ⟨lbig₁, hlbig₁, hmem⟩ := grown hlbig
      have member {t : SortName} {lt lt₀ : List SortName}
          (ht : (l.addSubsort big small).below? t = some lt)
          (hlt : ∀ u, u ∈ lt ↔ u ∈ lt₀ ∨ (t = big ∨ big ∈ lt₀) ∧ u ∈ base.lowerSet small)
          (hcond : t = big ∨ big ∈ lt₀) : big ∈ lt := by
        rcases hcond with rfl | hmem
        · exact (hl.addSubsort t small).self t lt ht
        · exact (hlt big).mpr (Or.inl hmem)
      exact ⟨big, lbig, hbig, member ha hla hconda, member hb hlb hcondb, hlbig,
        (hmem .k).mpr (Or.inr ⟨Or.inl rfl, hk⟩)⟩

theorem founded_declareAll (h : l.Founded) (sorts : List SortName) :
    (sorts.foldl SortLattice.declare l).Founded := by
  induction sorts generalizing l with
  | nil => exact h
  | cons s sorts ih => exact ih (h.declare s)

end SortLattice

theorem Vocabulary.Built.founded {voc : Vocabulary} (h : voc.Built) : voc.lattice.Founded := by
  induction h with
  | initial => exact SortLattice.founded_declareAll SortLattice.founded_empty _
  | declareSort s _ ih => exact ih.declare s
  | addSubsort big small hbuilt ih => exact ih.addSubsort hbuilt.closed big small
  | declareSymbol f _ ih => exact SortLattice.founded_declareAll ih _

namespace SortLattice

variable {l : SortLattice}

/-! ## The order below the top sort -/

/-- The order is transitive through sorts other than the top sort. -/
theorem Closed.trans_of_ne (h : l.Closed) {a b c : SortName} (hb : b ≠ .k)
    (hab : l.isSubsortEq a b = true) (hbc : l.isSubsortEq b c = true) :
    l.isSubsortEq a c = true := by
  rw [isSubsortEq_iff] at hab hbc ⊢
  rcases hab with rfl | rfl | ⟨la, hla, hbla⟩
  · exact hbc
  · exact Or.inr (Or.inl rfl)
  · rcases hbc with rfl | hk | ⟨lb, hlb, hclb⟩
    · exact Or.inr (Or.inr ⟨la, hla, hbla⟩)
    · exact absurd hk hb
    · exact Or.inr (Or.inr ⟨la, hla, h.trans a la b lb hla hbla hlb c hclb⟩)

/-- The greatest lower bound of two incomparable sorts lies below both and is not the top sort. -/
theorem Closed.glb_of_incomparable (h : l.Closed) (hfounded : l.Founded) {a b g : SortName}
    (hab : l.isSubsortEq a b = false) (hba : l.isSubsortEq b a = false)
    (hg : l.glb a b = some g) :
    l.isSubsortEq a g = true ∧ l.isSubsortEq b g = true ∧ g ≠ .k := by
  have hne {s t : SortName} (hst : l.isSubsortEq s t = false) : s ≠ .k :=
    ne_k_of_not_above (Bool.not_eq_true _ ▸ hst)
  rw [glb, hab, hba, if_neg Bool.false_ne_true, if_neg Bool.false_ne_true] at hg
  split at hg
  · rename_i only honly
    obtain rfl := Option.some.inj hg
    have hmem : only ∈ l.maximalLowerBounds a b := by
      rw [honly]
      exact List.mem_singleton.mpr rfl
    obtain ⟨hcommon, hmaximal⟩ := (l.mem_maximalLowerBounds_iff a b only).mp hmem
    have hbounds := h.mem_common_iff (hne hab) (hne hba)
    obtain ⟨ha, hb⟩ := (hbounds only).mp hcommon
    refine ⟨ha, hb, ?_⟩
    rintro rfl
    -- a sort below both with the top sort below it would be another lower bound above it
    have recorded {s t : SortName} (hst : l.isSubsortEq s t = false)
        (hk : l.isSubsortEq s .k = true) : ∃ ls, l.below? s = some ls ∧ .k ∈ ls :=
      (((l.isSubsortEq_iff s .k).mp hk).resolve_left (hne hst)).resolve_left (hne hst)
    obtain ⟨la, hla, hka⟩ := recorded hab ha
    obtain ⟨lb, hlb, hkb⟩ := recorded hba hb
    obtain ⟨o, lo, ho, hoa, hob, hlo, hko⟩ := hfounded a b la lb hla hlb hka hkb
    refine ho (hmaximal o ((hbounds o).mpr ⟨?_, ?_⟩) ?_)
    · exact (l.isSubsortEq_iff a o).mpr (Or.inr (Or.inr ⟨la, hla, hoa⟩))
    · exact (l.isSubsortEq_iff b o).mpr (Or.inr (Or.inr ⟨lb, hlb, hob⟩))
    · exact (l.isSubsortEq_iff o .k).mpr (Or.inr (Or.inr ⟨lo, hlo, hko⟩))
  · exact absurd hg (by simp)

/-! ## Ranks -/

/-- The sorts below a sort, without the top sort. -/
def belowTop (l : SortLattice) (s : SortName) : Finset SortName :=
  (l.lowerSet s).toFinset.erase .k

/-- The number of sorts below a sort; the top sort is above all others. -/
def rank (l : SortLattice) (s : SortName) : Nat :=
  if s = .k then l.sorts.length + 2 else (l.belowTop s).card

theorem mem_belowTop_iff (h : l.Closed) {a b : SortName} (ha : a ≠ .k) :
    b ∈ l.belowTop a ↔ b ≠ .k ∧ l.isSubsortEq a b = true := by
  rw [belowTop, Finset.mem_erase, List.mem_toFinset, h.mem_lowerSet_iff ha]

theorem Closed.rank_lt_top (h : l.Closed) {s : SortName} (hs : s ≠ .k) : l.rank s < l.rank .k := by
  have hsub : l.belowTop s ⊆ insert s l.sorts.toFinset := by
    intro t ht
    obtain ⟨htk, hst⟩ := (mem_belowTop_iff h hs).mp ht
    rw [Finset.mem_insert, List.mem_toFinset, mem_sorts_iff]
    rcases (l.isSubsortEq_iff s t).mp hst with rfl | hk | ⟨b, hb, htb⟩
    · exact Or.inl rfl
    · exact absurd hk hs
    · exact (h.known s b t hb htb).elim (fun hk => absurd hk htk) Or.inr
  have hcard := Finset.card_le_card hsub
  have hinsert := Finset.card_insert_le s l.sorts.toFinset
  have hlength := List.toFinset_card_le l.sorts
  rw [rank, if_neg hs, rank, if_pos rfl]
  omega

theorem Closed.belowTop_subset (h : l.Closed) {a b : SortName} (ha : a ≠ .k) (hb : b ≠ .k)
    (hab : l.isSubsortEq a b = true) : l.belowTop b ⊆ l.belowTop a := by
  intro t ht
  obtain ⟨htk, hbt⟩ := (mem_belowTop_iff h hb).mp ht
  exact (mem_belowTop_iff h ha).mpr ⟨htk, h.trans_of_ne hb hab hbt⟩

theorem Closed.rank_le (h : l.Closed) {a b : SortName} (hb : b ≠ .k)
    (hab : l.isSubsortEq a b = true) : l.rank b ≤ l.rank a := by
  by_cases ha : a = .k
  · subst ha
    exact Nat.le_of_lt (h.rank_lt_top hb)
  · rw [rank, rank, if_neg hb, if_neg ha]
    exact Finset.card_le_card (h.belowTop_subset ha hb hab)

/-- Of two sorts below a third one, the first ranks lower if the second is not below it. -/
theorem Closed.rank_lt (h : l.Closed) {a b c : SortName} (hb : b ≠ .k) (hc : c ≠ .k)
    (hab : l.isSubsortEq a b = true) (hac : l.isSubsortEq a c = true)
    (hbc : l.isSubsortEq b c = false) : l.rank b < l.rank a := by
  by_cases ha : a = .k
  · subst ha
    exact h.rank_lt_top hb
  · rw [rank, rank, if_neg hb, if_neg ha]
    refine Finset.card_lt_card
      ((Finset.ssubset_iff_of_subset (h.belowTop_subset ha hb hab)).mpr ⟨c, ?_, ?_⟩)
    · exact (mem_belowTop_iff h ha).mpr ⟨hc, hac⟩
    · intro hmem
      rw [((mem_belowTop_iff h hb).mp hmem).2] at hbc
      exact absurd hbc nofun

/-! ## Sorts that replace others -/

/-- A sort that may stand for `a` where an argument is narrowed. The top sort stands for itself
    alone, and no sort with the top sort below it stands for the top sort. -/
structure Under (l : SortLattice) (a s : SortName) : Prop where
  below : l.isSubsortEq a s = true
  top : s = .k → a = .k
  apart : a = .k → s ≠ .k → l.isSubsortEq s .k = false

theorem Under.refl (l : SortLattice) (a : SortName) : l.Under a a :=
  ⟨l.isSubsortEq_refl a, id, fun ha hne => absurd ha hne⟩

/-- The greatest lower bound of a parameter and an argument stands for the argument. -/
theorem under_glb (h : l.Closed) (hfounded : l.Founded) {p a g : SortName}
    (hg : l.glb p a = some g) : l.Under a g := by
  have hincomparable := h.glb_of_incomparable hfounded (a := p) (b := a) (g := g)
  cases hpa : l.isSubsortEq p a with
  | true =>
    rw [glb, if_pos hpa] at hg
    obtain rfl := Option.some.inj hg
    exact Under.refl l a
  | false =>
    have hp : p ≠ .k := by
      rintro rfl
      rw [isSubsortEq_top] at hpa
      exact absurd hpa (by simp)
    cases hap : l.isSubsortEq a p with
    | true =>
      rw [glb, hpa, if_neg Bool.false_ne_true, if_pos hap] at hg
      obtain rfl := Option.some.inj hg
      exact ⟨hap, fun hk => absurd hk hp, fun ha _ => ha ▸ hpa⟩
    | false =>
      obtain ⟨_, hag, hgk⟩ := hincomparable hpa hap hg
      refine ⟨hag, fun hk => absurd hk hgk, fun ha => ?_⟩
      rw [ha, isSubsortEq_top] at hap
      exact absurd hap (by simp)

section Under

variable {a s t : SortName}

/-- Of two sorts that stand for one sort, the smaller ranks no higher. -/
theorem Under.rank_le_of_le (h : l.Closed) (hs : l.Under a s) (ht : l.Under a t)
    (hst : l.isSubsortEq s t = true) : l.rank t ≤ l.rank s := by
  by_cases hk : t = .k
  · have ha := ht.top hk
    by_cases hsk : s = .k
    · rw [hk, hsk]
    · have hapart := hs.apart ha hsk
      rw [hk] at hst
      rw [hst] at hapart
      exact absurd hapart nofun
  · exact h.rank_le hk hst

/-- Two incomparable sorts that stand for one sort both rank lower. -/
theorem Under.rank_lt (h : l.Closed) (hs : l.Under a s) (ht : l.Under a t)
    (hst : l.isSubsortEq s t = false) (hts : l.isSubsortEq t s = false) : l.rank s < l.rank a := by
  have hsk : s ≠ .k := by
    rintro rfl
    rw [isSubsortEq_top] at hst
    exact absurd hst nofun
  have htk : t ≠ .k := by
    rintro rfl
    rw [isSubsortEq_top] at hts
    exact absurd hts nofun
  exact h.rank_lt hsk htk hs.below ht.below hst

/-- The greatest lower bound of two incomparable sorts stands for whatever the first stands for. -/
theorem Under.glb (h : l.Closed) (hfounded : l.Founded) (hs : l.Under a s) {g : SortName}
    (hst : l.isSubsortEq s t = false) (hts : l.isSubsortEq t s = false)
    (hg : l.glb s t = some g) : l.Under a g ∧ l.rank g ≤ l.rank s := by
  obtain ⟨hsg, _, hgk⟩ := h.glb_of_incomparable hfounded hst hts hg
  have hsk : s ≠ .k := by
    rintro rfl
    rw [isSubsortEq_top] at hst
    exact absurd hst nofun
  refine ⟨⟨h.trans_of_ne hsk hs.below hsg, fun hk => absurd hk hgk, fun ha _ => ?_⟩,
    h.rank_le hgk hsg⟩
  cases hgtop : l.isSubsortEq g .k with
  | false => rfl
  | true =>
    have hapart := hs.apart ha hsk
    rw [h.trans_of_ne hgk hsg hgtop] at hapart
    exact absurd hapart nofun

end Under

end SortLattice

end Entail
