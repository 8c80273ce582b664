import Entail.Proofs.Sets

set_option autoImplicit false

/-! # Ascending lists

Where a comparison is a total order, the functions on sets keep their lists in ascending order. Such
a list holds no element twice, also up to `.eq` answers of the comparison, and it is what is made
of its elements one by one. -/

namespace Entail.Sorted

variable {α : Type} {cmp : α → α → Ordering}

/-- Every element is below all later ones. -/
def Ascending (cmp : α → α → Ordering) (xs : List α) : Prop := xs.Pairwise fun a b => cmp a b = .lt

section

variable [Std.TransCmp cmp]

theorem ascending_cons_of_lt {x y : α} {ys : List α} (hlt : cmp x y = .lt)
    (h : Ascending cmp (y :: ys)) : Ascending cmp (x :: y :: ys) := by
  refine List.pairwise_cons.mpr ⟨fun z hz => ?_, h⟩
  rcases List.mem_cons.mp hz with rfl | hz
  · exact hlt
  · exact Std.TransCmp.lt_trans hlt ((List.pairwise_cons.mp h).1 z hz)

theorem ascending_cons_of_gt {x y : α} {ys zs : List α} (hgt : cmp x y = .gt)
    (h : Ascending cmp (y :: ys)) (hzs : Ascending cmp zs) (hmem : ∀ z ∈ zs, z = x ∨ z ∈ ys) :
    Ascending cmp (y :: zs) := by
  refine List.pairwise_cons.mpr ⟨fun z hz => ?_, hzs⟩
  rcases hmem z hz with rfl | hz
  · exact Std.OrientedCmp.lt_of_gt hgt
  · exact (List.pairwise_cons.mp h).1 z hz

theorem ascending_insert (x : α) {ys : List α} (h : Ascending cmp ys) :
    Ascending cmp (insert cmp x ys) := by
  induction ys with
  | nil => exact List.pairwise_singleton ..
  | cons y ys ih =>
    rw [insert]
    split
    · rename_i hlt
      exact ascending_cons_of_lt hlt h
    · exact h
    · rename_i hgt
      exact ascending_cons_of_gt hgt h (ih (List.pairwise_cons.mp h).2) fun _ => mem_insert cmp

theorem ascending_union (xs : List α) {set : List α} (h : Ascending cmp set) :
    Ascending cmp (union cmp set xs) := by
  induction xs generalizing set with
  | nil => exact h
  | cons x xs ih => exact ih (ascending_insert x h)

theorem ascending_put (x : α) {ys : List α} (h : Ascending cmp ys) :
    Ascending cmp (put cmp x ys) := by
  induction ys with
  | nil => exact List.pairwise_singleton ..
  | cons y ys ih =>
    have hys := List.pairwise_cons.mp h
    rw [put]
    split
    · rename_i hlt
      exact ascending_cons_of_lt hlt h
    · rename_i heq
      exact List.pairwise_cons.mpr
        ⟨fun z hz => Std.TransCmp.lt_of_eq_of_lt heq (hys.1 z hz), hys.2⟩
    · rename_i hgt
      exact ascending_cons_of_gt hgt h (ih hys.2) fun _ => mem_put cmp

theorem ascending_ofList (xs : List α) : Ascending cmp (ofList cmp xs) :=
  ascending_union xs .nil

theorem ascending_ofListLast (xs : List α) : Ascending cmp (ofListLast cmp xs) := by
  have fold (set : List α) (hset : Ascending cmp set) :
      Ascending cmp (xs.foldl (fun set x => put cmp x set) set) := by
    induction xs generalizing set with
    | nil => exact hset
    | cons x xs ih => exact ih _ (ascending_put x hset)
  exact fold [] .nil

/-- An element above all others comes last. -/
theorem put_eq_append {x : α} {ys : List α} (h : ∀ y ∈ ys, cmp y x = .lt) :
    put cmp x ys = ys ++ [x] := by
  induction ys with
  | nil => rfl
  | cons y ys ih =>
    rw [List.forall_mem_cons] at h
    rw [put, Std.OrientedCmp.gt_of_lt h.1, ih h.2]
    rfl

theorem insert_eq_append {x : α} {ys : List α} (h : ∀ y ∈ ys, cmp y x = .lt) :
    insert cmp x ys = ys ++ [x] := by
  induction ys with
  | nil => rfl
  | cons y ys ih =>
    rw [List.forall_mem_cons] at h
    rw [insert, Std.OrientedCmp.gt_of_lt h.1, ih h.2]
    rfl

/-- Making a set of an ascending list gives the list back. -/
theorem Ascending.ofListLast_eq {xs : List α} (h : Ascending cmp xs) : ofListLast cmp xs = xs := by
  have fold (set ys : List α) (h : Ascending cmp (set ++ ys)) :
      ys.foldl (fun set x => put cmp x set) set = set ++ ys := by
    induction ys generalizing set with
    | nil => rw [List.foldl_nil, List.append_nil]
    | cons y ys ih =>
      have hlast : ∀ x ∈ set, cmp x y = .lt := fun x hx =>
        (List.pairwise_append.mp h).2.2 x hx y (List.mem_cons_self ..)
      rw [List.foldl_cons, put_eq_append hlast, ih _ (by rwa [List.append_assoc]),
        List.append_assoc]
      rfl
  exact fold [] xs h

/-- An element of an ascending list is the only one that is erased with it. -/
theorem Ascending.erase_append {xs ys : List α} {a : α} (h : Ascending cmp (xs ++ a :: ys)) :
    erase cmp a (xs ++ a :: ys) = xs ++ ys := by
  obtain ⟨_, hys, hbelow⟩ := List.pairwise_append.mp h
  have hxs : ∀ x ∈ xs, (!(cmp a x).isEq) = true := fun x hx => by
    rw [Std.OrientedCmp.gt_of_lt (hbelow x hx a (List.mem_cons_self ..))]
    rfl
  have hys' : ∀ y ∈ ys, (!(cmp a y).isEq) = true := fun y hy => by
    rw [(List.pairwise_cons.mp hys).1 y hy]
    rfl
  have hrefl : cmp a a = .eq := Std.ReflCmp.compare_self
  have hself : (!(cmp a a).isEq) = false := by
    rw [hrefl]
    rfl
  rw [erase, List.filter_append, List.filter_cons, hself, if_neg Bool.false_ne_true,
    List.filter_eq_self.mpr hxs, List.filter_eq_self.mpr hys']

/-- Elements of an ascending list that compare equal are the same. -/
theorem Ascending.eq_of_cmp {xs : List α} (h : Ascending cmp xs) {a b : α} (ha : a ∈ xs)
    (hb : b ∈ xs) (heq : cmp a b = .eq) : a = b := by
  have irrefl (c d : α) (hcd : cmp c d = .lt) (heq : cmp d c = .eq ∨ cmp c d = .eq) : False := by
    rcases heq with heq | heq
    · simp [Std.OrientedCmp.gt_of_lt hcd] at heq
    · simp [hcd] at heq
  unfold Ascending at h
  induction xs with
  | nil => exact absurd ha List.not_mem_nil
  | cons x xs ih =>
    obtain ⟨hx, hxs⟩ := List.pairwise_cons.mp h
    rcases List.mem_cons.mp ha with ha | ha <;> rcases List.mem_cons.mp hb with hb | hb
    · rw [ha, hb]
    · exact (irrefl x b (hx b hb) (.inr (ha ▸ heq))).elim
    · exact (irrefl x a (hx a ha) (.inl (hb ▸ heq))).elim
    · exact ih hxs ha hb

theorem Ascending.nodup {xs : List α} (h : Ascending cmp xs) : xs.Nodup := by
  refine List.Pairwise.imp (fun {a b} hlt => ?_) h
  rintro rfl
  have hrefl : cmp a a = .eq := Std.ReflCmp.compare_self
  rw [hrefl] at hlt
  cases hlt

/-- A list without repetition of which one element is the only member. -/
theorem eq_singleton_of_nodup {xs : List α} (hnodup : xs.Nodup) {a : α}
    (hmem : ∀ b, b ∈ xs ↔ b = a) : xs = [a] :=
  List.perm_singleton.mp ((List.perm_ext_iff_of_nodup hnodup (List.pairwise_singleton ..)).mpr
    fun b => by rw [hmem, List.mem_singleton])

/-- Of an ascending list, a test that only one element passes leaves this element. -/
theorem Ascending.filter_eq {xs : List α} (h : Ascending cmp xs) {a : α} (ha : a ∈ xs)
    {p : α → Bool} (hp : ∀ b ∈ xs, p b = true ↔ cmp b a = .eq) : xs.filter p = [a] := by
  refine eq_singleton_of_nodup (h.nodup.filter p) fun b => ?_
  rw [List.mem_filter]
  refine ⟨fun hb => h.eq_of_cmp hb.1 ha ((hp b hb.1).mp hb.2), ?_⟩
  rintro rfl
  exact ⟨ha, (hp b ha).mpr Std.ReflCmp.compare_self⟩

end

end Entail.Sorted
