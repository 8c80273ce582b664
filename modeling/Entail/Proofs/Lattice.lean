import Entail.Proofs.Equivalence
import Entail.Proofs.Sets
import Entail.Vocabulary
import Mathlib.Order.WellFounded
import Mathlib.Tactic.SplitIfs
import Mathlib.Data.Fintype.Card
import Mathlib.Data.List.Forall2
import Mathlib.Order.WellFoundedSet

set_option autoImplicit false

/-! # The subsort order

The recorded lower sets of a lattice stay closed: every sort is in its own lower set, and the lower
set of a member is included. A common subsort is found whenever there is one, unless it is one of
the top sort and a sort that is not declared. Where no two sorts lie below each other the order is
transitive, and a greatest lower bound lies above every other lower bound. -/

namespace Entail

theorem Sorted.mem_insert_iff_of_lawful {α : Type} {cmp : α → α → Ordering}
    (hcmp : ∀ a b, cmp a b = .eq ↔ a = b) (x : α) (ys : List α) (z : α) :
    z ∈ insert cmp x ys ↔ z = x ∨ z ∈ ys := by
  induction ys with
  | nil => simp [insert]
  | cons y ys ih =>
    rw [insert]
    split
    · simp
    · rename_i heq
      rw [List.mem_cons, (hcmp x y).mp heq]
      tauto
    · rw [List.mem_cons, ih, List.mem_cons]
      tauto

theorem Sorted.mem_union_iff {α : Type} {cmp : α → α → Ordering}
    (hcmp : ∀ a b, cmp a b = .eq ↔ a = b) (set xs : List α) (z : α) :
    z ∈ union cmp set xs ↔ z ∈ set ∨ z ∈ xs := by
  unfold union
  induction xs generalizing set with
  | nil => simp
  | cons x xs ih =>
    rw [List.foldl_cons, ih, mem_insert_iff_of_lawful hcmp, List.mem_cons]
    tauto

namespace SortLattice

/-! ## Looking up lower sets -/

theorem lookup_insert (s : SortName) (b : List SortName) {below : List (SortName × List SortName)}
    (hs : below.lookup s = none) (t : SortName) :
    (Sorted.insert (fun a b => a.1.cmp b.1) (s, b) below).lookup t =
      if t = s then some b else below.lookup t := by
  induction below with
  | nil => rw [Sorted.insert, lookup_cons]
  | cons entry below ih =>
    rw [lookup_cons] at hs
    split_ifs at hs with hne
    rw [Sorted.insert]
    split
    · rw [lookup_cons]
    · rename_i heq
      exact absurd ((SortName.cmp_eq_iff _ _).mp heq) hne
    · rw [lookup_cons, ih hs, lookup_cons]
      by_cases ht : t = entry.1
      · rw [if_pos ht, if_pos ht, if_neg (ht ▸ Ne.symm hne)]
      · rw [if_neg ht, if_neg ht]

theorem below?_declare (l : SortLattice) (s t : SortName) :
    (l.declare s).below? t =
      if t = s ∧ s ≠ .k ∧ l.below? s = none then some [s] else l.below? t := by
  rw [declare]
  split
  · rename_i h
    rw [Bool.or_eq_true, SortName.isK, beq_iff_eq] at h
    rw [if_neg]
    rintro ⟨_, hk, hnone⟩
    rcases h with h | h
    · exact hk h
    · simp [hnone] at h
  · rename_i h
    rw [Bool.or_eq_true, SortName.isK, beq_iff_eq, not_or, Bool.not_eq_true,
      Option.isSome_eq_false_iff, Option.isNone_iff_eq_none] at h
    rw [below?, lookup_insert s [s] h.2]
    simp only [h.1, h.2, ne_eq, not_false_eq_true, and_true]
    rfl

theorem lookup_map_values (g : SortName → List SortName → List SortName)
    (below : List (SortName × List SortName)) (t : SortName) :
    (below.map fun entry => (entry.1, g entry.1 entry.2)).lookup t =
      (below.lookup t).map (g t) := by
  induction below with
  | nil => rfl
  | cons entry below ih =>
    rw [List.map_cons, lookup_cons, lookup_cons, ih]
    split
    · rename_i h
      rw [h]
      rfl
    · rfl

/-- What was recorded is still there after a declaration. -/
theorem below?_declare_of_some {l : SortLattice} {t : SortName} {b : List SortName}
    (hb : l.below? t = some b) (s : SortName) : (l.declare s).below? t = some b := by
  rw [below?_declare, if_neg, hb]
  rintro ⟨rfl, _, hnone⟩
  rw [hb] at hnone
  exact absurd hnone nofun

/-- What is recorded after a declaration was so before, or is the new sort with nothing else below
    it. -/
theorem below?_declare_cases {l : SortLattice} {s t : SortName} {b : List SortName}
    (hb : (l.declare s).below? t = some b) :
    l.below? t = some b ∨ (t = s ∧ s ≠ .k ∧ b = [s]) := by
  rw [below?_declare] at hb
  split at hb
  · rename_i hnew
    exact Or.inr ⟨hnew.1, hnew.2.1, (Option.some.inj hb).symm⟩
  · exact Or.inl hb

/-- The top sort or a declared one. -/
def Known (l : SortLattice) (s : SortName) : Prop := s = .k ∨ ∃ b, l.below? s = some b

theorem known_declare (l : SortLattice) (s : SortName) : (l.declare s).Known s := by
  by_cases hs : s = .k
  · exact Or.inl hs
  · right
    rw [below?_declare]
    split_ifs with h
    · exact ⟨_, rfl⟩
    · exact Option.ne_none_iff_exists'.mp fun hnone => h ⟨rfl, hs, hnone⟩

theorem Known.declare {l : SortLattice} {s : SortName} (h : l.Known s) (t : SortName) :
    (l.declare t).Known s :=
  h.imp_right fun ⟨b, hb⟩ => ⟨b, below?_declare_of_some hb t⟩

/-! ## Closed lattices -/

/-- The recorded lower sets are reflexive, transitive, and made of known sorts. -/
structure Closed (l : SortLattice) : Prop where
  top : l.below? .k = none
  self : ∀ s b, l.below? s = some b → s ∈ b
  known : ∀ s b t, l.below? s = some b → t ∈ b → l.Known t
  trans : ∀ s b t b', l.below? s = some b → t ∈ b → l.below? t = some b' → ∀ u ∈ b', u ∈ b

theorem closed_empty : Closed empty where
  top := rfl
  self := nofun
  known := nofun
  trans := nofun

theorem Closed.declare {l : SortLattice} (h : l.Closed) (s : SortName) : (l.declare s).Closed where
  top := by
    rw [below?_declare, h.top]
    split
    · rename_i hk
      exact absurd hk.1.symm hk.2.1
    · rfl
  self t b hb := by
    rcases below?_declare_cases hb with hb | ⟨rfl, -, rfl⟩
    · exact h.self t b hb
    · exact List.mem_singleton.mpr rfl
  known t b u hb hu := by
    rcases below?_declare_cases hb with hb | ⟨rfl, -, rfl⟩
    · exact (h.known t b u hb hu).declare s
    · exact List.mem_singleton.mp hu ▸ l.known_declare t
  trans t b u b' hb hu hb' w hw := by
    rcases below?_declare_cases hb with hold | ⟨rfl, -, rfl⟩
    · -- a member of an old lower set has the lower set that it had
      have hu' : l.below? u = some b' := by
        rcases h.known t b u hold hu with rfl | ⟨b'', hb''⟩
        · exact (below?_declare_cases hb').resolve_right fun hnew => hnew.2.1 hnew.1.symm
        · rw [below?_declare_of_some hb'' s] at hb'
          rwa [hb'] at hb''
      exact h.trans t b u b' hold hu hu' w hw
    · obtain rfl := List.mem_singleton.mp hu
      rw [hb] at hb'
      exact Option.some.inj hb' ▸ hw

theorem mem_sorts_iff (l : SortLattice) (s : SortName) :
    s ∈ l.sorts ↔ ∃ b, l.below? s = some b := by
  rw [← Option.isSome_iff_exists, below?, List.lookup_isSome_iff, sorts, List.mem_map]
  refine exists_congr fun entry => and_congr_right fun _ => ?_
  rw [beq_iff_eq]
  exact eq_comm

theorem mem_lowerSet_k (l : SortLattice) (s : SortName) : s ∈ l.lowerSet .k ↔ l.Known s := by
  rw [lowerSet, if_pos (by rfl), Sorted.mem_insert_iff_of_lawful SortName.cmp_eq_iff, mem_sorts_iff,
    Known]

theorem Closed.lowerSet_eq {l : SortLattice} (h : l.Closed) {s : SortName} {b : List SortName}
    (hb : l.below? s = some b) : l.lowerSet s = b := by
  have hs : s ≠ .k := by
    rintro rfl
    rw [h.top] at hb
    exact absurd hb nofun
  rw [lowerSet, if_neg (by simpa [SortName.isK] using hs), hb, Option.getD_some]

theorem Closed.known_lowerSet {l : SortLattice} (h : l.Closed) {s t : SortName} (hs : l.Known s)
    (ht : t ∈ l.lowerSet s) : l.Known t := by
  rcases hs with rfl | ⟨b, hb⟩
  · exact (l.mem_lowerSet_k t).mp ht
  · rw [h.lowerSet_eq hb] at ht
    exact h.known s b t hb ht

/-- The lower set of a known sort holds the lower sets of its members. -/
theorem Closed.trans_lowerSet {l : SortLattice} (h : l.Closed) {s t : SortName} {b : List SortName}
    (hs : l.Known s) (ht : t ∈ l.lowerSet s) (hb : l.below? t = some b) {u : SortName}
    (hu : u ∈ b) : u ∈ l.lowerSet s := by
  rcases hs with rfl | ⟨b', hb'⟩
  · exact (l.mem_lowerSet_k u).mpr (h.known t b u hb hu)
  · rw [h.lowerSet_eq hb'] at ht ⊢
    exact h.trans s b' t b hb' ht hb u hu

/-- The declared sorts whose lower sets grow are `big` and those that already have `big` below
    them. -/
theorem below?_addSubsort (l : SortLattice) {big : SortName} (hbig : big ≠ .k)
    (small t : SortName) :
    (l.addSubsort big small).below? t =
      (((l.declare big).declare small).below? t).map fun b =>
        if t == big || b.contains big then
          Sorted.union SortName.cmp b (((l.declare big).declare small).lowerSet small)
        else b := by
  have hk : big.isK = false := by simpa [SortName.isK] using hbig
  have values := lookup_map_values
    (fun s b => if s == big || b.contains big then
      Sorted.union SortName.cmp b (((l.declare big).declare small).lowerSet small) else b)
    ((l.declare big).declare small).below t
  rw [below?, below?, ← values, addSubsort, hk, if_neg Bool.false_ne_true]
  congr 1
  refine List.map_congr_left fun entry _ => ?_
  dsimp only
  split <;> rfl

/-- Nothing is placed below the top sort. -/
theorem addSubsort_top (l : SortLattice) (small : SortName) :
    l.addSubsort .k small = (l.declare .k).declare small := rfl

/-- A recorded lower set after an addition, in terms of the one before. -/
theorem mem_below_addSubsort (l : SortLattice) {big : SortName} (hbig : big ≠ .k)
    (small : SortName) {t : SortName} {b : List SortName}
    (hb : (l.addSubsort big small).below? t = some b) :
    ∃ b₀, ((l.declare big).declare small).below? t = some b₀ ∧ ∀ u, u ∈ b ↔
      u ∈ b₀ ∨ (t = big ∨ big ∈ b₀) ∧ u ∈ ((l.declare big).declare small).lowerSet small := by
  rw [below?_addSubsort l hbig] at hb
  obtain ⟨b₀, hb₀, rfl⟩ := Option.map_eq_some_iff.mp hb
  refine ⟨b₀, hb₀, fun u => ?_⟩
  split_ifs with hcond
  · rw [Sorted.mem_union_iff SortName.cmp_eq_iff]
    simp only [Bool.or_eq_true, beq_iff_eq, List.contains_iff_mem] at hcond
    rw [and_iff_right hcond]
  · simp only [Bool.or_eq_true, beq_iff_eq, List.contains_iff_mem] at hcond
    rw [iff_comm]
    exact or_iff_left fun hu => hcond hu.1

/-- What was recorded is still there after an addition. -/
theorem exists_below_addSubsort (l : SortLattice) {big : SortName} (hbig : big ≠ .k)
    (small : SortName) {t : SortName} {b₀ : List SortName}
    (hb₀ : ((l.declare big).declare small).below? t = some b₀) :
    ∃ b, (l.addSubsort big small).below? t = some b ∧ ∀ u, u ∈ b ↔
      u ∈ b₀ ∨ (t = big ∨ big ∈ b₀) ∧ u ∈ ((l.declare big).declare small).lowerSet small := by
  obtain ⟨b, hb⟩ : ∃ b, (l.addSubsort big small).below? t = some b := by
    rw [below?_addSubsort l hbig, hb₀]
    exact ⟨_, rfl⟩
  obtain ⟨b₁, hb₁, hmem⟩ := l.mem_below_addSubsort hbig small hb
  rw [hb₀] at hb₁
  obtain rfl := Option.some.inj hb₁
  exact ⟨b, hb, hmem⟩

/-- After its two declarations an addition keeps all known sorts. -/
theorem known_addSubsort {l : SortLattice} {big small s : SortName}
    (h : ((l.declare big).declare small).Known s) : (l.addSubsort big small).Known s := by
  by_cases hbig : big = .k
  · subst hbig
    rwa [addSubsort_top]
  · refine h.imp_right fun ⟨b, hb⟩ => ?_
    obtain ⟨b', hb', -⟩ := l.exists_below_addSubsort hbig small hb
    exact ⟨b', hb'⟩

theorem Known.addSubsort {l : SortLattice} {s : SortName} (h : l.Known s) (big small : SortName) :
    (l.addSubsort big small).Known s :=
  known_addSubsort ((h.declare big).declare small)

theorem Closed.addSubsort {l : SortLattice} (h : l.Closed) (big small : SortName) :
    (l.addSubsort big small).Closed := by
  have hl := (h.declare big).declare small
  have hsmall := known_declare (l.declare big) small
  by_cases hbig : big = .k
  · subst hbig
    rwa [addSubsort_top]
  have grown {t : SortName} {b : List SortName} :=
    l.mem_below_addSubsort hbig small (t := t) (b := b)
  set base := (l.declare big).declare small with hbase
  constructor
  · rw [below?_addSubsort l hbig, ← hbase, hl.top]
    rfl
  · intro s b hb
    obtain ⟨b₀, hb₀, hmem⟩ := grown hb
    exact (hmem s).mpr (Or.inl (hl.self s b₀ hb₀))
  · intro s b t hb ht
    obtain ⟨b₀, hb₀, hmem⟩ := grown hb
    rcases (hmem t).mp ht with ht | ⟨_, ht⟩
    · exact known_addSubsort (hl.known s b₀ t hb₀ ht)
    · exact known_addSubsort (hl.known_lowerSet hsmall ht)
  · intro s b t b' hb ht hb' u hu
    obtain ⟨b₀, hb₀, hmem⟩ := grown hb
    obtain ⟨b₀', hb₀', hmem'⟩ := grown hb'
    refine (hmem u).mpr ?_
    rcases (hmem t).mp ht with ht | ⟨hcond, ht⟩
    · rcases (hmem' u).mp hu with hu | ⟨hcond, hu⟩
      · exact Or.inl (hl.trans s b₀ t b₀' hb₀ ht hb₀' u hu)
      · refine Or.inr ⟨Or.inr ?_, hu⟩
        rcases hcond with rfl | hcond
        · exact ht
        · exact hl.trans s b₀ t b₀' hb₀ ht hb₀' big hcond
    · rcases (hmem' u).mp hu with hu | ⟨_, hu⟩
      · exact Or.inr ⟨hcond, hl.trans_lowerSet hsmall ht hb₀' hu⟩
      · exact Or.inr ⟨hcond, hu⟩

/-! ## The order -/

theorem isSubsortEq_iff (l : SortLattice) (big small : SortName) :
    l.isSubsortEq big small = true ↔
      big = small ∨ big = .k ∨ ∃ b, l.below? big = some b ∧ small ∈ b := by
  rw [isSubsortEq, Bool.or_eq_true, Bool.or_eq_true, beq_iff_eq, SortName.isK, beq_iff_eq,
    List.contains_iff_mem, or_assoc]
  cases l.below? big <;> simp

theorem isSubsortEq_refl (l : SortLattice) (s : SortName) : l.isSubsortEq s s = true :=
  (l.isSubsortEq_iff s s).mpr (Or.inl rfl)

/-- No two different sorts lie below each other. -/
def Acyclic (l : SortLattice) : Prop :=
  ∀ a b, l.isSubsortEq a b = true → l.isSubsortEq b a = true → a = b

/-- The recorded lower sets show that there are no cycles. -/
theorem acyclic_of_entries {l : SortLattice} (h : ∀ entry ∈ l.below, ∀ s ∈ entry.2,
    s = entry.1 ∨ (s ≠ .k ∧ entry.1 ∉ (l.below? s).getD [])) : l.Acyclic := by
  have hbelow {a b : SortName} {lower : List SortName} (ha : l.below? a = some lower)
      (hb : b ∈ lower) : b = a ∨ (b ≠ .k ∧ a ∉ (l.below? b).getD []) := by
    obtain ⟨before, after, heq, _⟩ := List.lookup_eq_some_iff.mp ha
    exact h (a, lower) (heq ▸ List.mem_append_right _ (List.mem_cons_self ..)) b hb
  intro a b hab hba
  rw [isSubsortEq_iff] at hab hba
  rcases hab with rfl | rfl | ⟨lower, ha, hb⟩
  · rfl
  · rcases hba with rfl | rfl | ⟨lower, hb, hk⟩
    · rfl
    · rfl
    · exact (hbelow hb hk).elim id fun hne => absurd rfl hne.1
  · rcases hbelow ha hb with rfl | ⟨hne, hnot⟩
    · rfl
    · rcases hba with rfl | rfl | ⟨lower', hb', ha'⟩
      · rfl
      · exact absurd rfl hne
      · rw [hb', Option.getD_some] at hnot
        exact absurd ha' hnot

theorem Acyclic.top_not_below {l : SortLattice} (h : l.Acyclic) (hl : l.Closed) {s : SortName}
    {b : List SortName} (hb : l.below? s = some b) : .k ∉ b := by
  intro hk
  have hs := h s .k ((l.isSubsortEq_iff s .k).mpr (Or.inr (Or.inr ⟨b, hb, hk⟩)))
    ((l.isSubsortEq_iff .k s).mpr (Or.inr (Or.inl rfl)))
  rw [hs, hl.top] at hb
  exact absurd hb nofun

theorem Acyclic.trans {l : SortLattice} (h : l.Acyclic) (hl : l.Closed) {a b c : SortName}
    (hab : l.isSubsortEq a b = true) (hbc : l.isSubsortEq b c = true) :
    l.isSubsortEq a c = true := by
  rw [isSubsortEq_iff] at hab hbc ⊢
  rcases hab with rfl | rfl | ⟨below, hbelow, hb⟩
  · exact hbc
  · exact Or.inr (Or.inl rfl)
  · rcases hbc with rfl | rfl | ⟨below', hbelow', hc⟩
    · exact Or.inr (Or.inr ⟨below, hbelow, hb⟩)
    · exact absurd hb (h.top_not_below hl hbelow)
    · exact Or.inr (Or.inr ⟨below, hbelow, hl.trans a below b below' hbelow hb hbelow' c hc⟩)

theorem isSubsortEq_top (l : SortLattice) (s : SortName) : l.isSubsortEq .k s = true :=
  (l.isSubsortEq_iff .k s).mpr (Or.inr (Or.inl rfl))

theorem Closed.known_of_isSubsortEq {l : SortLattice} (h : l.Closed) {s t : SortName}
    (hs : l.Known s) (hne : s ≠ .k) (hst : l.isSubsortEq s t = true) : l.Known t := by
  rcases (l.isSubsortEq_iff s t).mp hst with rfl | rfl | ⟨b, hb, ht⟩
  · exact hs
  · exact absurd rfl hne
  · exact h.known s b t hb ht

theorem isSubsortEq_of_mem_lowerSet {l : SortLattice} {s t : SortName} (h : t ∈ l.lowerSet s) :
    l.isSubsortEq s t = true := by
  rw [isSubsortEq_iff]
  rw [lowerSet] at h
  split at h
  · rename_i hk
    exact Or.inr (Or.inl (beq_iff_eq.mp hk))
  · cases hb : l.below? s with
    | none =>
      rw [hb] at h
      exact Or.inl (List.mem_singleton.mp h).symm
    | some b =>
      rw [hb] at h
      exact Or.inr (Or.inr ⟨b, rfl, h⟩)

theorem lowerSet_of_undeclared {l : SortLattice} {s : SortName} (hs : s ≠ .k)
    (hnone : l.below? s = none) : l.lowerSet s = [s] := by
  have hk : ¬s.isK = true := fun hk => hs (beq_iff_eq.mp hk)
  rw [lowerSet, if_neg hk, hnone, Option.getD_none]

/-- Below a sort other than the top sort, the order is membership in the lower set. -/
theorem Closed.mem_lowerSet_iff {l : SortLattice} (h : l.Closed) {a b : SortName} (ha : a ≠ .k) :
    b ∈ l.lowerSet a ↔ l.isSubsortEq a b = true := by
  refine ⟨isSubsortEq_of_mem_lowerSet, fun hab => ?_⟩
  cases hla : l.below? a with
  | none =>
    rcases (l.isSubsortEq_iff a b).mp hab with rfl | hk | ⟨la, hla', _⟩
    · rw [lowerSet_of_undeclared ha hla]
      exact List.mem_singleton.mpr rfl
    · exact absurd hk ha
    · rw [hla] at hla'
      exact absurd hla' nofun
  | some la =>
    rw [h.lowerSet_eq hla]
    rcases (l.isSubsortEq_iff a b).mp hab with rfl | hk | ⟨la', hla', hb⟩
    · exact h.self a la hla
    · exact absurd hk ha
    · rw [hla] at hla'
      obtain rfl := Option.some.inj hla'
      exact hb

theorem Closed.self_mem_lowerSet {l : SortLattice} (h : l.Closed) (s : SortName) :
    s ∈ l.lowerSet s := by
  by_cases hk : s = .k
  · rw [hk]
    exact (l.mem_lowerSet_k .k).mpr (Or.inl rfl)
  · exact (h.mem_lowerSet_iff hk).mpr (l.isSubsortEq_refl s)

/-! ## Lower bounds -/

theorem mem_commonLowerBounds_iff (l : SortLattice) (a b s : SortName) :
    s ∈ l.commonLowerBounds a b ↔ s ∈ l.lowerSet a ∧ s ∈ l.lowerSet b := by
  rw [commonLowerBounds, List.mem_filter, List.contains_iff_mem]

theorem haveCommonSubsort_iff_mem (l : SortLattice) (a b : SortName) :
    l.haveCommonSubsort a b = true ↔ ∃ s, s ∈ l.lowerSet a ∧ s ∈ l.lowerSet b := by
  rw [haveCommonSubsort, Bool.not_eq_true', List.isEmpty_eq_false_iff_exists_mem]
  exact exists_congr (l.mem_commonLowerBounds_iff a b)

/-- A sort with a known sort in its lower set is known. -/
theorem Known.of_mem_lowerSet {l : SortLattice} {s t : SortName} (ht : l.Known t)
    (hst : t ∈ l.lowerSet s) : l.Known s := by
  by_cases hk : s = .k
  · exact Or.inl hk
  · cases hb : l.below? s with
    | none =>
      rw [lowerSet_of_undeclared hk hb, List.mem_singleton] at hst
      exact hst ▸ ht
    | some b => exact Or.inr ⟨b, hb⟩

/-- A common subsort is found if there is one, unless one of the sorts is the top sort and the other
    one is not declared: what lies below the top sort is looked for among the declared sorts. -/
theorem Closed.haveCommonSubsort_iff {l : SortLattice} (h : l.Closed) (a b : SortName) :
    l.haveCommonSubsort a b = true ↔
      (∃ s, l.isSubsortEq a s = true ∧ l.isSubsortEq b s = true) ∧
        (a = .k → l.Known b) ∧ (b = .k → l.Known a) := by
  rw [haveCommonSubsort_iff_mem]
  constructor
  · rintro ⟨s, hsa, hsb⟩
    refine ⟨⟨s, isSubsortEq_of_mem_lowerSet hsa, isSubsortEq_of_mem_lowerSet hsb⟩, ?_, ?_⟩
    · rintro rfl
      exact ((l.mem_lowerSet_k s).mp hsa).of_mem_lowerSet hsb
    · rintro rfl
      exact ((l.mem_lowerSet_k s).mp hsb).of_mem_lowerSet hsa
  · rintro ⟨⟨s, has, hbs⟩, hb, ha⟩
    by_cases hak : a = .k
    · subst hak
      exact ⟨b, (l.mem_lowerSet_k b).mpr (hb rfl), h.self_mem_lowerSet b⟩
    · by_cases hbk : b = .k
      · subst hbk
        exact ⟨a, h.self_mem_lowerSet a, (l.mem_lowerSet_k a).mpr (ha rfl)⟩
      · exact ⟨s, (h.mem_lowerSet_iff hak).mpr has, (h.mem_lowerSet_iff hbk).mpr hbs⟩

/-- A common subsort of two known sorts is found if there is one. -/
theorem Closed.exists_common {l : SortLattice} (h : l.Closed) {a b s : SortName} (ha : l.Known a)
    (hb : l.Known b) (has : l.isSubsortEq a s = true) (hbs : l.isSubsortEq b s = true) :
    l.haveCommonSubsort a b = true :=
  (h.haveCommonSubsort_iff a b).mpr ⟨⟨s, has, hbs⟩, fun _ => hb, fun _ => ha⟩

/-! ## Greatest lower bounds -/

/-- In a list of sorts every sort lies below one that is maximal in the list. -/
theorem exists_maximal_above {l : SortLattice} (h : l.Acyclic) (hl : l.Closed)
    (sorts : List SortName) {s : SortName} (hs : s ∈ sorts) :
    ∃ m ∈ sorts, l.isSubsortEq m s = true ∧
      ∀ other ∈ sorts, l.isSubsortEq other m = true → other = m := by
  -- the sorts of the list that lie strictly above one another form a finite order
  let above (a b : {t // t ∈ sorts}) : Prop :=
    l.isSubsortEq a.1 b.1 = true ∧ a.1 ≠ b.1
  have htrans : IsTrans {t // t ∈ sorts} above := by
    refine ⟨fun a b c hab hbc => ⟨h.trans hl hab.1 hbc.1, fun hac => ?_⟩⟩
    exact hbc.2 (h b.1 c.1 hbc.1 (hac ▸ hab.1))
  have hirrefl : Std.Irrefl above := ⟨fun a haa => haa.2 rfl⟩
  have hfinite : Finite {t // t ∈ sorts} := List.finite_toSet sorts
  have hwf : WellFounded above := Finite.wellFounded_of_trans_of_irrefl above
  obtain ⟨m, hm, hmin⟩ := hwf.has_min {a | l.isSubsortEq a.1 s = true}
    ⟨⟨s, hs⟩, l.isSubsortEq_refl s⟩
  refine ⟨m.1, m.2, hm, fun other hother hle => ?_⟩
  by_contra hne
  exact hmin ⟨other, hother⟩ (h.trans hl hle hm) ⟨hle, hne⟩

/-- `g` lies below both sorts, and every sort below both lies below `g`. -/
structure IsMeet (l : SortLattice) (a b g : SortName) : Prop where
  left : l.isSubsortEq a g = true
  right : l.isSubsortEq b g = true
  greatest : ∀ s, l.isSubsortEq a s = true → l.isSubsortEq b s = true → l.isSubsortEq g s = true

theorem mem_maximalLowerBounds_iff (l : SortLattice) (a b m : SortName) :
    m ∈ l.maximalLowerBounds a b ↔ m ∈ l.commonLowerBounds a b ∧
      ∀ other ∈ l.commonLowerBounds a b, l.isSubsortEq other m = true → other = m := by
  rw [maximalLowerBounds, List.mem_filter, Bool.not_eq_true', List.any_eq_false]
  refine and_congr_right fun _ => forall₂_congr fun other _ => ?_
  rw [Bool.and_eq_true, bne_iff_ne]
  tauto

/-- Of sorts of which neither is above the other, neither is the top sort. -/
theorem ne_k_of_not_above {l : SortLattice} {a b : SortName} (h : ¬l.isSubsortEq a b = true) :
    a ≠ .k := by
  rintro rfl
  exact h (l.isSubsortEq_top b)

/-- Of two sorts other than the top sort, the common lower bounds are all sorts below both. -/
theorem Closed.mem_common_iff {l : SortLattice} (h : l.Closed) {a b : SortName}
    (ha : a ≠ .k) (hb : b ≠ .k) (s : SortName) :
    s ∈ l.commonLowerBounds a b ↔ l.isSubsortEq a s = true ∧ l.isSubsortEq b s = true := by
  rw [mem_commonLowerBounds_iff, h.mem_lowerSet_iff ha, h.mem_lowerSet_iff hb]

/-- What is given as the greatest lower bound is one. -/
theorem Acyclic.isMeet_of_glb {l : SortLattice} (h : l.Acyclic) (hl : l.Closed)
    {a b g : SortName} (hg : l.glb a b = some g) : l.IsMeet a b g := by
  rw [glb] at hg
  split at hg
  · rename_i hab
    obtain rfl := Option.some.inj hg
    exact ⟨hab, l.isSubsortEq_refl _, fun s _ hbs => hbs⟩
  · rename_i hab
    split at hg
    · rename_i hba
      obtain rfl := Option.some.inj hg
      exact ⟨l.isSubsortEq_refl _, hba, fun s has _ => has⟩
    · rename_i hba
      have hbounds := hl.mem_common_iff (ne_k_of_not_above hab) (ne_k_of_not_above hba)
      split at hg
      · rename_i only honly
        obtain rfl := Option.some.inj hg
        have hmem (m : SortName) : m ∈ l.maximalLowerBounds a b ↔ m = only := by
          rw [honly, List.mem_singleton]
        have honlyMem := ((l.mem_maximalLowerBounds_iff a b only).mp ((hmem only).mpr rfl)).1
        obtain ⟨haonly, hbonly⟩ := (hbounds only).mp honlyMem
        refine ⟨haonly, hbonly, fun s has hbs => ?_⟩
        -- above every lower bound there is a maximal one, and there is only one of these
        obtain ⟨m, hm, hms, hmax⟩ := exists_maximal_above h hl _ ((hbounds s).mpr ⟨has, hbs⟩)
        obtain rfl := (hmem m).mp ((l.mem_maximalLowerBounds_iff a b m).mpr ⟨hm, hmax⟩)
        exact hms
      · exact absurd hg nofun

/-- The greatest lower bound of two known sorts is a known sort above every common subsort. -/
theorem Acyclic.glb_spec {l : SortLattice} (h : l.Acyclic) (hl : l.Closed) {a b g : SortName}
    (ha : l.Known a) (hb : l.Known b) (hg : l.glb a b = some g) :
    l.Known g ∧ ∀ s, l.isSubsortEq a s = true → l.isSubsortEq b s = true →
      l.isSubsortEq g s = true := by
  have hmeet := h.isMeet_of_glb hl hg
  refine ⟨?_, hmeet.greatest⟩
  by_cases hak : a = .k
  · subst hak
    rw [glb, if_pos (l.isSubsortEq_top b)] at hg
    exact Option.some.inj hg ▸ hb
  · exact hl.known_of_isSubsortEq ha hak hmeet.left

end SortLattice

/-! ## Vocabularies -/

namespace Vocabulary

/-- The vocabularies that declarations give. -/
inductive Built : Vocabulary → Prop
  | initial : Built .initial
  | declareSort {voc : Vocabulary} (s : SortName) : Built voc → Built (voc.declareSort s)
  | addSubsort {voc : Vocabulary} (big small : SortName) :
    Built voc → Built (voc.addSubsort big small)
  | declareSymbol {voc : Vocabulary} (f : Symbol) : Built voc → Built (voc.declareSymbol f)

theorem closed_declareAll {l : SortLattice} (h : l.Closed) (sorts : List SortName) :
    (sorts.foldl SortLattice.declare l).Closed := by
  induction sorts generalizing l with
  | nil => exact h
  | cons s sorts ih => exact ih (h.declare s)

theorem Built.closed {voc : Vocabulary} (h : voc.Built) : voc.lattice.Closed := by
  induction h with
  | initial => exact closed_declareAll SortLattice.closed_empty _
  | declareSort s _ ih => exact ih.declare s
  | addSubsort big small _ ih => exact ih.addSubsort big small
  | declareSymbol f _ ih => exact closed_declareAll ih _

theorem known_declareAll {l : SortLattice} {s : SortName} (h : l.Known s) (sorts : List SortName) :
    (sorts.foldl SortLattice.declare l).Known s := by
  induction sorts generalizing l with
  | nil => exact h
  | cons t sorts ih => exact ih (h.declare t)

/-- Declarations keep the sorts with fixed names. -/
theorem Built.known_of_initial {voc : Vocabulary} (h : voc.Built) {s : SortName}
    (hs : Vocabulary.initial.lattice.Known s) : voc.lattice.Known s := by
  induction h with
  | initial => exact hs
  | declareSort t _ ih => exact ih.declare t
  | addSubsort big small _ ih => exact ih.addSubsort big small
  | declareSymbol f _ ih => exact known_declareAll ih _

/-- The sorts of the signatures of a symbol are declared. -/
def Knows (voc : Vocabulary) (f : Symbol) : Prop :=
  ∀ sig ∈ f.signatures, (∀ p ∈ sig.params, voc.lattice.Known p) ∧ voc.lattice.Known sig.result

theorem accepts_iff (voc : Vocabulary) (params args : List SortName) :
    voc.accepts params args = true ↔
      List.Forall₂ (fun p a => voc.lattice.isSubsortEq p a = true) params args := by
  rw [accepts, Bool.and_eq_true, beq_iff_eq, List.all_eq_true, List.forall₂_iff_zip]
  refine and_congr_right fun _ => ⟨fun h a b hab => h (a, b) hab, fun h p hp => h hp⟩

/-- The least sort is the result of a signature that accepts the arguments and lies below every
    other such result; failing that, it is the greatest result or the top sort. -/
theorem leastSort_cases (voc : Vocabulary) (f : Symbol) (args : List SortName) :
    (∃ sig ∈ f.signatures, voc.accepts sig.params args = true ∧
      voc.leastSort f args = sig.result) ∨
    (voc.leastOf? (voc.applicableResults f args) = none ∧
      voc.leastSort f args = (voc.greatestOf? (f.signatures.map (·.result))).getD .k) := by
  rw [leastSort]
  split
  · rename_i least hleast
    have hmem := List.mem_of_find?_eq_some hleast
    rw [applicableResults, List.mem_map] at hmem
    obtain ⟨sig, hsig, rfl⟩ := hmem
    rw [List.mem_filter] at hsig
    exact Or.inl ⟨sig, hsig.1, hsig.2, rfl⟩
  · rename_i hnone
    exact Or.inr ⟨hnone, rfl⟩

/-- The least sort of an application is the top sort or the result of a signature. -/
theorem leastSort_result (voc : Vocabulary) (f : Symbol) (args : List SortName) :
    voc.leastSort f args = .k ∨ ∃ sig ∈ f.signatures, voc.leastSort f args = sig.result := by
  rcases voc.leastSort_cases f args with ⟨sig, hsig, _, heq⟩ | ⟨_, heq⟩
  · exact Or.inr ⟨sig, hsig, heq⟩
  · rw [heq]
    cases hgreatest : voc.greatestOf? (f.signatures.map (·.result)) with
    | none => exact Or.inl rfl
    | some s =>
      obtain ⟨sig, hsig, rfl⟩ := List.mem_map.mp (List.mem_of_find?_eq_some hgreatest)
      exact Or.inr ⟨sig, hsig, rfl⟩

theorem known_leastSort {voc : Vocabulary} {f : Symbol} (hf : voc.Knows f)
    (args : List SortName) : voc.lattice.Known (voc.leastSort f args) := by
  rcases voc.leastSort_result f args with heq | ⟨sig, hsig, heq⟩
  · exact Or.inl heq
  · rw [heq]
    exact (hf sig hsig).2

end Vocabulary

end Entail
