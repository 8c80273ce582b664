import Entail.Sorted
import Mathlib.Data.List.Basic

set_option autoImplicit false

/-! # What holds of all elements of a set

The functions on sets drop an element only where one that compares equal stays. So a property that
two elements share when they compare equal holds of all elements of the result just when it holds
of all elements that went into it. -/

namespace Entail.Sorted

variable {α : Type} {cmp : α → α → Ordering}

/-- What a set contains after elements were added one by one was there before or is one of them. -/
theorem mem_foldl {step : List α → α → List α}
    (hstep : ∀ set x z, z ∈ step set x → z = x ∨ z ∈ set) {z : α} (xs set : List α)
    (h : z ∈ xs.foldl step set) : z ∈ set ∨ z ∈ xs := by
  induction xs generalizing set with
  | nil => exact Or.inl h
  | cons x xs ih =>
    rw [List.foldl_cons] at h
    rcases ih _ h with h | h
    · rcases hstep set x z h with rfl | h
      · exact Or.inr (List.mem_cons_self ..)
      · exact Or.inl h
    · exact Or.inr (List.mem_cons_of_mem _ h)

theorem mem_ofListLast {z : α} {xs : List α} (h : z ∈ ofListLast cmp xs) : z ∈ xs := by
  have hz := mem_foldl (fun _ _ _ => mem_put cmp) xs [] h
  simpa using hz

theorem mem_dedup {z : α} {xs : List α} (h : z ∈ dedup cmp xs) : z ∈ xs := by
  have hz := mem_foldl (fun kept x z hz => ?_) xs [] (List.mem_reverse.mp h)
  · simpa using hz
  · split at hz
    · exact Or.inr hz
    · exact List.mem_cons.mp hz

/-! ## New elements -/

/-- Adding an element that equals none of a set keeps all the others. -/
theorem mem_put_iff {x : α} {ys : List α} (h : ∀ y ∈ ys, cmp x y ≠ .eq) (z : α) :
    z ∈ put cmp x ys ↔ z = x ∨ z ∈ ys := by
  induction ys with
  | nil => simp [put]
  | cons y ys ih =>
    rw [List.forall_mem_cons] at h
    rw [put]
    split
    · simp
    · rename_i heq
      exact absurd heq h.1
    · rw [List.mem_cons, ih h.2, List.mem_cons]
      tauto

theorem mem_insert_iff {x : α} {ys : List α} (h : ∀ y ∈ ys, cmp x y ≠ .eq) (z : α) :
    z ∈ insert cmp x ys ↔ z = x ∨ z ∈ ys := by
  induction ys with
  | nil => simp [insert]
  | cons y ys ih =>
    rw [List.forall_mem_cons] at h
    rw [insert]
    split
    · simp
    · rename_i heq
      exact absurd heq h.1
    · rw [List.mem_cons, ih h.2, List.mem_cons]
      tauto

/-- Adding an element keeps what is there. -/
theorem mem_insert_of_mem {z : α} {ys : List α} (x : α) (h : z ∈ ys) : z ∈ insert cmp x ys := by
  induction ys with
  | nil => simp at h
  | cons y ys ih =>
    rw [insert]
    split
    · exact List.mem_cons_of_mem x h
    · exact h
    · rw [List.mem_cons] at h ⊢
      exact h.imp_right ih

variable (cmp) in
theorem exists_mem_insert (x : α) (ys : List α) :
    ∃ z ∈ insert cmp x ys, z = x ∨ cmp x z = .eq := by
  induction ys with
  | nil => exact ⟨x, by simp [insert], Or.inl rfl⟩
  | cons y ys ih =>
    rw [insert]
    split
    · exact ⟨x, by simp, Or.inl rfl⟩
    · next heq => exact ⟨y, by simp, Or.inr heq⟩
    · obtain ⟨z, hz, h⟩ := ih
      exact ⟨z, List.mem_cons_of_mem y hz, h⟩

theorem mem_union_of_mem {z : α} {set : List α} (xs : List α) (h : z ∈ set) :
    z ∈ union cmp set xs := by
  induction xs generalizing set with
  | nil => exact h
  | cons x xs ih => exact ih (mem_insert_of_mem x h)

variable (cmp) in
/-- Of what is added to a set, an element that compares equal is there afterwards. -/
theorem exists_mem_union {x : α} {xs : List α} (h : x ∈ xs) (set : List α) :
    ∃ z ∈ union cmp set xs, z = x ∨ cmp x z = .eq := by
  induction xs generalizing set with
  | nil => simp at h
  | cons y ys ih =>
    rcases List.mem_cons.mp h with rfl | h
    · obtain ⟨z, hz, heq⟩ := exists_mem_insert cmp x set
      exact ⟨z, mem_union_of_mem ys hz, heq⟩
    · exact ih h _

/-! ## Properties that equal elements share -/

variable {P : α → Prop}

theorem forall_mem_put (hP : ∀ a b, cmp a b = .eq → (P a ↔ P b)) (x : α) (ys : List α) :
    (∀ z ∈ put cmp x ys, P z) ↔ P x ∧ ∀ y ∈ ys, P y := by
  induction ys with
  | nil => simp [put]
  | cons y ys ih =>
    rw [put]
    split
    · simp
    · rename_i heq
      rw [List.forall_mem_cons, List.forall_mem_cons, ← hP x y heq]
      tauto
    · rw [List.forall_mem_cons, List.forall_mem_cons, ih]
      tauto

theorem forall_mem_ofListLast (hP : ∀ a b, cmp a b = .eq → (P a ↔ P b)) (xs : List α) :
    (∀ z ∈ ofListLast cmp xs, P z) ↔ ∀ x ∈ xs, P x := by
  have fold (xs set : List α) : (∀ z ∈ xs.foldl (fun set x => put cmp x set) set, P z) ↔
      (∀ z ∈ set, P z) ∧ ∀ x ∈ xs, P x := by
    induction xs generalizing set with
    | nil => simp
    | cons x xs ih =>
      rw [List.foldl_cons, ih, forall_mem_put hP, List.forall_mem_cons]
      tauto
  rw [ofListLast, fold]
  simp

theorem forall_mem_dedup (hP : ∀ a b, cmp a b = .eq → (P a ↔ P b)) (xs : List α) :
    (∀ z ∈ dedup cmp xs, P z) ↔ ∀ x ∈ xs, P x := by
  have fold (xs kept : List α) :
      (∀ z ∈ xs.foldl (fun kept x => if contains cmp x kept then kept else x :: kept) kept, P z) ↔
        (∀ z ∈ kept, P z) ∧ ∀ x ∈ xs, P x := by
    induction xs generalizing kept with
    | nil => simp
    | cons x xs ih =>
      rw [List.foldl_cons, ih, List.forall_mem_cons]
      split
      · rename_i hx
        obtain ⟨y, hy, heq⟩ := (contains_iff cmp x kept).mp hx
        have hxy := hP x y (Ordering.isEq_iff_eq_eq.mp heq)
        exact ⟨fun h => ⟨h.1, hxy.mpr (h.1 y hy), h.2⟩, fun h => ⟨h.1, h.2.2⟩⟩
      · rw [List.forall_mem_cons]
        tauto
  rw [dedup]
  simp [fold]

/-- Some element of a list without repetition has a property just when some element of the list
    does. -/
theorem exists_mem_dedup (hP : ∀ a b, cmp a b = .eq → (P a ↔ P b)) (xs : List α) :
    (∃ z ∈ dedup cmp xs, P z) ↔ ∃ x ∈ xs, P x := by
  have h := forall_mem_dedup (P := fun a => ¬P a)
    (fun a b heq => not_congr (hP a b heq)) xs
  rw [← not_iff_not]
  simpa using h

end Entail.Sorted
