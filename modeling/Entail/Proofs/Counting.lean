import Entail.Proofs.Live
import Entail.Proofs.Ranks
import Mathlib.Data.Multiset.DershowitzManna

set_option autoImplicit false

/-! # Counting live variables

Live variables are counted by the ranks of their sorts. The count goes down when a variable is gone,
and when variables of lower rank come in its place, however many they are. Before it comes the number
of disjunctions, and after it what changes while all variables stay live: the size of the
equalities, whether the pass has eliminated something, and how many equalities are pending. -/

namespace Entail

/-! ## Counting variables by rank -/

/-- The ranks of the sorts of some variables. -/
def ranks (l : SortLattice) (X : Finset Variable) : Multiset Nat :=
  X.val.map fun v => l.rank v.sort

/-- Each variable of `Y` comes in the place of one of `X` that ranks no lower, and of two that come
    in the place of one variable both rank lower. -/
structure Owned (l : SortLattice) (X Y : Finset Variable) (owner : Variable → Variable) :
    Prop where
  mem : ∀ y ∈ Y, owner y ∈ X
  rank_le : ∀ y ∈ Y, l.rank y.sort ≤ l.rank (owner y).sort
  rank_lt : ∀ y ∈ Y, ∀ z ∈ Y, y ≠ z → owner y = owner z → l.rank y.sort < l.rank (owner y).sort

namespace Owned

variable {l : SortLattice} {X Y Z : Finset Variable} {owner : Variable → Variable}
  {b v z : Variable}

theorem of_subset (h : Y ⊆ X) : Owned l X Y id where
  mem _ hy := h hy
  rank_le _ _ := Nat.le_refl _
  rank_lt _ _ _ _ hne heq := absurd heq hne

theorem subset (h : Owned l X Y owner) (hsub : Z ⊆ Y) : Owned l X Z owner where
  mem y hy := h.mem y (hsub hy)
  rank_le y hy := h.rank_le y (hsub hy)
  rank_lt y hy z hz := h.rank_lt y (hsub hy) z (hsub hz)

/-- A variable that ranks no higher comes in the place of another one. -/
theorem replace (h : Owned l X Y owner) (hb : b ∈ Y) (hz : l.rank z.sort ≤ l.rank b.sort) :
    Owned l X (insert z (Y.erase b)) (Function.update owner z (owner b)) := by
  have hrank : ∀ y ∈ Y.erase b, y ≠ z → owner y = owner b →
      l.rank z.sort < l.rank (owner b).sort ∧ l.rank y.sort < l.rank (owner y).sort := by
    intro y hy _ heq
    obtain ⟨hne, hy⟩ := Finset.mem_erase.mp hy
    have hlt := h.rank_lt b hb y hy hne.symm heq.symm
    exact ⟨Nat.lt_of_le_of_lt hz hlt, h.rank_lt y hy b hb hne heq⟩
  have old {y : Variable} (hy : y ∈ insert z (Y.erase b)) (hne : y ≠ z) : y ∈ Y.erase b :=
    (Finset.mem_insert.mp hy).resolve_left hne
  refine ⟨fun y hy => ?_, fun y hy => ?_, fun y hy x hx hne heq => ?_⟩
  · by_cases hyz : y = z
    · rw [hyz, Function.update_self]
      exact h.mem b hb
    · rw [Function.update_of_ne hyz]
      exact h.mem y (Finset.mem_of_mem_erase (old hy hyz))
  · by_cases hyz : y = z
    · rw [hyz, Function.update_self]
      exact Nat.le_trans hz (h.rank_le b hb)
    · rw [Function.update_of_ne hyz]
      exact h.rank_le y (Finset.mem_of_mem_erase (old hy hyz))
  · by_cases hyz : y = z
    · subst hyz
      rw [Function.update_self, Function.update_of_ne hne.symm] at heq
      rw [Function.update_self]
      exact (hrank x (old hx hne.symm) hne.symm heq.symm).1
    · rw [Function.update_of_ne hyz] at heq ⊢
      by_cases hxz : x = z
      · rw [hxz, Function.update_self] at heq
        exact (hrank y (old hy hyz) hyz heq).2
      · rw [Function.update_of_ne hxz] at heq
        exact h.rank_lt y (Finset.mem_of_mem_erase (old hy hyz)) x
          (Finset.mem_of_mem_erase (old hx hxz)) hne heq

/-- A variable comes beside another one, if both rank lower than what they stand for. -/
theorem beside (h : Owned l X Y owner) (hb : b ∈ Y)
    (hz : l.rank z.sort < l.rank (owner b).sort) (hlt : l.rank b.sort < l.rank (owner b).sort) :
    Owned l X (insert z Y) (Function.update owner z (owner b)) := by
  have hrank : ∀ y ∈ Y, owner y = owner b → l.rank y.sort < l.rank (owner y).sort := by
    intro y hy heq
    by_cases hyb : y = b
    · rw [hyb]
      exact hlt
    · exact h.rank_lt y hy b hb hyb heq
  have old {y : Variable} (hy : y ∈ insert z Y) (hne : y ≠ z) : y ∈ Y :=
    (Finset.mem_insert.mp hy).resolve_left hne
  refine ⟨fun y hy => ?_, fun y hy => ?_, fun y hy x hx hne heq => ?_⟩
  · by_cases hyz : y = z
    · rw [hyz, Function.update_self]
      exact h.mem b hb
    · rw [Function.update_of_ne hyz]
      exact h.mem y (old hy hyz)
  · by_cases hyz : y = z
    · rw [hyz, Function.update_self]
      exact Nat.le_of_lt hz
    · rw [Function.update_of_ne hyz]
      exact h.rank_le y (old hy hyz)
  · by_cases hyz : y = z
    · rw [hyz, Function.update_self]
      exact hz
    · rw [Function.update_of_ne hyz] at heq ⊢
      by_cases hxz : x = z
      · rw [hxz, Function.update_self] at heq
        exact hrank y (old hy hyz) heq
      · rw [Function.update_of_ne hxz] at heq
        exact h.rank_lt y (old hy hyz) x (old hx hxz) hne heq

/-- Where a variable is gone and all others come in the place of old ones, the ranks go down. -/
theorem ranks_lt (h : Owned l (X.erase v) Y owner) (hv : v ∈ X) :
    (ranks l Y).IsDershowitzMannaLT (ranks l X) := by
  -- those that keep the rank of their owners are as many as their owners
  let lower : Finset Variable := Y.filter fun y => l.rank y.sort < l.rank (owner y).sort
  let same : Finset Variable := Y.filter fun y => ¬l.rank y.sort < l.rank (owner y).sort
  let owners : Finset Variable := same.image owner
  have hsame : ∀ y ∈ same, y ∈ Y ∧ l.rank y.sort = l.rank (owner y).sort := by
    intro y hy
    obtain ⟨hmem, hnot⟩ := Finset.mem_filter.mp hy
    exact ⟨hmem, Nat.le_antisymm (h.rank_le y hmem) (Nat.le_of_not_lt hnot)⟩
  have hinjective : Set.InjOn owner same := by
    intro y hy z hz heq
    obtain ⟨hyY, hyrank⟩ := hsame y hy
    by_contra hne
    have hlt := h.rank_lt y hyY z (hsame z hz).1 hne heq
    omega
  have howners : owners ⊆ X := by
    intro x hx
    obtain ⟨y, hy, rfl⟩ := Finset.mem_image.mp hx
    exact Finset.mem_of_mem_erase (h.mem y (hsame y hy).1)
  have hY : ranks l Y = ranks l owners + ranks l lower := by
    have hval : owners.val = same.val.map owner := Finset.image_val_of_injOn hinjective
    have hkept : same.val.map (fun y => l.rank (owner y).sort) =
        same.val.map fun y => l.rank y.sort :=
      Multiset.map_congr rfl fun y hy => (hsame y hy).2.symm
    rw [ranks, ranks, ranks, hval, Multiset.map_map]
    change _ = same.val.map (fun y => l.rank (owner y).sort) + _
    rw [hkept, ← Multiset.map_add, add_comm]
    congr 1
    exact (Multiset.filter_add_not _ Y.val).symm
  have hX : ranks l X = ranks l owners + ranks l (X \ owners) := by
    have hval : X.val = owners.val + (X \ owners).val := by
      rw [Finset.sdiff_val]
      exact (add_tsub_cancel_of_le (Finset.val_le_iff.mpr howners)).symm
    rw [ranks, ranks, ranks, ← Multiset.map_add, ← hval]
  refine ⟨ranks l owners, ranks l lower, ranks l (X \ owners), ?_, hY, hX, fun n hn => ?_⟩
  · intro hempty
    have hmem : v ∈ X \ owners := by
      refine Finset.mem_sdiff.mpr ⟨hv, fun hmem => ?_⟩
      obtain ⟨y, hy, heq⟩ := Finset.mem_image.mp hmem
      exact Finset.ne_of_mem_erase (h.mem y (hsame y hy).1) heq
    have hrank : l.rank v.sort ∈ ranks l (X \ owners) := Multiset.mem_map_of_mem _ hmem
    rw [hempty] at hrank
    exact absurd hrank (Multiset.notMem_zero _)
  · obtain ⟨y, hy, rfl⟩ := Multiset.mem_map.mp hn
    obtain ⟨hyY, hlt⟩ := Finset.mem_filter.mp hy
    refine ⟨l.rank (owner y).sort, Multiset.mem_map_of_mem _ ?_, hlt⟩
    refine Finset.mem_sdiff.mpr ⟨Finset.mem_of_mem_erase (h.mem y hyY), fun hmem => ?_⟩
    -- an owner of two variables has no variable of its own rank
    obtain ⟨z, hz, heq⟩ := Finset.mem_image.mp hmem
    obtain ⟨hzY, hzrank⟩ := hsame z hz
    have hne : z ≠ y := by
      rintro rfl
      omega
    have hzlt := h.rank_lt z hzY y hyY hne heq
    omega

end Owned

/-- Fewer live variables, or the same. -/
theorem ranks_of_subset {l : SortLattice} {X Y : Finset Variable} (h : Y ⊆ X) :
    ranks l Y = ranks l X ∨ (ranks l Y).IsDershowitzMannaLT (ranks l X) := by
  by_cases hsub : X ⊆ Y
  · rw [Finset.Subset.antisymm h hsub]
    exact Or.inl rfl
  · obtain ⟨v, hv, hnot⟩ := Finset.not_subset.mp hsub
    have hY : Y ⊆ X.erase v := fun y hy =>
      Finset.mem_erase.mpr ⟨fun heq => hnot (heq ▸ hy), h hy⟩
    exact Or.inr ((Owned.of_subset hY).ranks_lt hv)

/-! ## The measure -/

/-- What goes down: disjunctions, ranks of live variables, the size of equalities, whether the pass
    has eliminated something, and how many equalities are pending. -/
abbrev Measure := Nat × Multiset Nat × Nat × Nat × Nat

namespace Measure

/-- The first part that changes goes down. -/
def Lower : Measure → Measure → Prop :=
  Prod.Lex (· < ·) (Prod.Lex Multiset.IsDershowitzMannaLT
    (Prod.Lex (· < ·) (Prod.Lex (· < ·) (· < ·))))

theorem wellFounded_lower : WellFounded Lower :=
  Nat.lt_wfRel.wf.prod_lex (Multiset.wellFounded_isDershowitzMannaLT.prod_lex
    (Nat.lt_wfRel.wf.prod_lex (Nat.lt_wfRel.wf.prod_lex Nat.lt_wfRel.wf)))

end Measure

namespace Worklist

variable {voc : Vocabulary} {mode : SimplifyMode} {w w' : Worklist}

/-- The measure of a worklist. -/
def measure (l : SortLattice) (w : Worklist) : Measure :=
  (Formula.nodesIn w.disjunctions, ranks l w.live, w.weight, if w.progress then 1 else 0,
    w.pending.length)

/-- `w'` is nearer to the end. -/
def Nearer (l : SortLattice) (w' w : Worklist) : Prop :=
  Measure.Lower (w'.measure l) (w.measure l)

section Nearer

variable {l : SortLattice}

theorem nearer_of_nodes (h : Formula.nodesIn w'.disjunctions < Formula.nodesIn w.disjunctions) :
    Nearer l w' w :=
  Prod.Lex.left _ _ h

theorem nearer_of_ranks (hds : w'.disjunctions = w.disjunctions)
    (h : (ranks l w'.live).IsDershowitzMannaLT (ranks l w.live)) : Nearer l w' w := by
  rw [Nearer, measure, measure, hds]
  exact Prod.Lex.right _ (Prod.Lex.left _ _ h)

/-- With no other live variables, equalities may get smaller, a pass may end, or fewer equalities
    may be pending. -/
theorem nearer_of_live (hds : w'.disjunctions = w.disjunctions) (hlive : w'.live ⊆ w.live)
    (h : w'.weight < w.weight ∨ (w'.weight ≤ w.weight ∧
      ((w'.progress = false ∧ w.progress = true) ∨
        (w'.progress = w.progress ∧ w'.pending.length < w.pending.length)))) :
    Nearer l w' w := by
  rcases ranks_of_subset (l := l) hlive with hsame | hfewer
  · have hsmaller : w'.weight < w.weight ∨ (w'.weight = w.weight ∧
        ((w'.progress = false ∧ w.progress = true) ∨
          (w'.progress = w.progress ∧ w'.pending.length < w.pending.length))) := by
      rcases h with h | ⟨hle, h⟩
      · exact Or.inl h
      · exact (Nat.lt_or_eq_of_le hle).imp_right fun heq => ⟨heq, h⟩
    rw [Nearer, measure, measure, hds, hsame]
    refine Prod.Lex.right _ (Prod.Lex.right _ ?_)
    rcases hsmaller with hlt | ⟨heq, ⟨hended, hstarted⟩ | ⟨hsamePass, hfewer⟩⟩
    · exact Prod.Lex.left _ _ hlt
    · rw [heq, hended, hstarted]
      exact Prod.Lex.right _ (Prod.Lex.left _ _ Nat.one_pos)
    · rw [heq, hsamePass]
      exact Prod.Lex.right _ (Prod.Lex.right _ hfewer)
  · exact nearer_of_ranks hds hfewer

end Nearer

end Worklist

end Entail
