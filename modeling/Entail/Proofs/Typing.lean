import Entail.Proofs.Model
import Entail.Proofs.NormalForm

set_option autoImplicit false

/-! # Sorts of values

The sort of a term is that of its first branches. The value of a term lies in the sort that belongs
to the branches that are taken, provided that the connectives in it are applied to truth values; and
this is kept by substituting and evaluating with what holds. -/

namespace Entail

variable {V : Type}

/-- Connectives are the operations whose results are among their arguments. -/
def Builtin.isConnective : Builtin → Bool
  | .and | .or | .not => true
  | _ => false

/-- The sort of the arguments of an operation. -/
def Builtin.argumentSort : Builtin → SortName
  | .and | .or | .not => .bool
  | .eq => .k
  | .add | .sub | .lt | .le => .int

/-! ## The sorts of the branches of a term -/

namespace Term

mutual

/-- The sorts that a term has, one for each way of taking branches. -/
def branchSorts (voc : Vocabulary) : Term → List SortName
  | .var v => [v.sort]
  | .bool _ => [.bool]
  | .int _ => [.int]
  | .str _ => [.string]
  | .app f xs _ => (Formula.choices (allBranchSorts voc xs)).map (voc.leastSort f)
  | .builtin op _ => [op.resultSort]
  | .list [] (some frame) => branchSorts voc frame
  | .list _ _ => [.list]
  | .ite _ t e => branchSorts voc t ++ branchSorts voc e
termination_by structural t => t

def allBranchSorts (voc : Vocabulary) : List Term → List (List SortName)
  | [] => []
  | t :: ts => branchSorts voc t :: allBranchSorts voc ts
termination_by structural ts => ts

end

theorem allBranchSorts_eq (voc : Vocabulary) (ts : List Term) :
    allBranchSorts voc ts = ts.map (branchSorts voc) := by
  induction ts with
  | nil => rfl
  | cons t ts ih => rw [allBranchSorts, ih, List.map_cons]

/-! ## Connectives of truth values -/

/-- A connective is applied to terms whose values are truth values. -/
def TypedHead (M : Model V) (ρ : Variable → V) : Term → Prop
  | .builtin op xs => op.isConnective = true → ∀ x ∈ xs, M.mem .bool (x.eval M.toAlgebra ρ)
  | _ => True

variable {M : Model V} {ρ : Variable → V}

theorem plain_typed : Plain (TypedHead M ρ) where
  bool _ := trivial
  closed _ := trivial
  framed _ _ _ _ := trivial

theorem typed_bare_iff (M : Model V) (ρ : Variable → V) (t : Term) :
    TypedHead M ρ t.bare ↔ TypedHead M ρ t := by
  cases t with
  | builtin op xs =>
    rw [bare, bareAll_eq, TypedHead, TypedHead, List.forall_mem_map]
    simp only [eval_bare]
  | list xs frame => cases frame <;> rfl
  | _ => rfl

/-- Only the values of the variables that occur matter. -/
theorem typed_congr {ρ' : Variable → V} {X : Variable → Prop} {Q : Symbol → Prop}
    (h : ∀ v, X v → ρ' v = ρ v) {t : Term} (ht : t.Within X Q) (htyped : TypedHead M ρ t) :
    TypedHead M ρ' t := by
  cases t with
  | builtin op xs =>
    intro hop x hx
    have hxX := ((all_builtin_iff op xs).mp ht).2 x hx
    rw [eval_congr M.toAlgebra x fun v hv => h v (Within.occurrences hxX v hv)]
    exact htyped hop x hx
  | _ => trivial

theorem typed_substitute {f : Variable → Option Term}
    (hf : ∀ v t, f v = some t → ρ v = t.eval M.toAlgebra ρ)
    (htyped : ∀ v t, f v = some t → t.All (TypedHead M ρ)) {t : Term}
    (ht : t.All (TypedHead M ρ)) : (t.substitute f).All (TypedHead M ρ) := by
  refine all_substitute
    { token := fun t ht => ?_
      var := fun v _ => ?_
      app := fun _ _ _ _ => trivial
      builtin := fun op xs hxs hop => ?_
      closed := fun _ => trivial
      framed := fun _ _ _ _ => trivial
      ite := fun _ _ _ _ => trivial } ht
  · cases t <;> trivial
  · cases hv : f v with
    | none => trivial
    | some u => exact htyped v u hv
  · rw [List.forall_mem_map]
    intro x hx
    rw [eval_substitute_of_agree M.toAlgebra ρ f hf]
    exact hxs hop x hx

theorem typed_evaluate (voc : Vocabulary) {facts : Facts} (hfacts : facts.Sound M.toAlgebra ρ)
    {t : Term} (ht : t.All (TypedHead M ρ)) : (t.evaluate voc facts).All (TypedHead M ρ) := by
  refine all_evaluate
    { token := fun t ht => ?_
      var := fun _ _ _ => trivial
      app := fun _ _ _ _ => trivial
      builtin := fun op xs hxs hop => ?_
      closed := fun _ => trivial
      framed := fun _ _ _ _ => trivial
      ite := fun _ _ _ _ => trivial } ht
  · cases t <;> trivial
  · rw [List.forall_mem_map]
    intro x hx
    rw [eval_evaluate voc hfacts]
    exact hxs hop x hx

/-- Rewriting with what holds keeps connectives applied to truth values. -/
theorem typed_rewrite (voc : Vocabulary) {facts : Facts} (hfacts : facts.Sound M.toAlgebra ρ)
    {f : Variable → Option Term} (hf : ∀ v t, f v = some t → ρ v = t.eval M.toAlgebra ρ)
    (htyped : ∀ v t, f v = some t → t.All (TypedHead M ρ)) {t : Term}
    (ht : t.All (TypedHead M ρ)) : (t.rewrite voc facts f).All (TypedHead M ρ) :=
  typed_evaluate voc hfacts (typed_substitute hf htyped ht)

/-! ## The sorts of values -/

section Membership

variable {voc : Vocabulary} {X : Variable → Prop} {Q : Symbol → Prop}

theorem neg_mem {v : V} (hbool : ∀ b, M.mem .bool (M.bool b)) (hv : M.mem .bool v) :
    M.mem .bool (M.neg v) := by
  rw [Algebra.neg]
  split
  · exact hbool _
  · exact hv

theorem conj_mem {v w : V} (hbool : ∀ b, M.mem .bool (M.bool b)) (hv : M.mem .bool v)
    (hw : M.mem .bool w) : M.mem .bool (M.conj v w) := by
  rw [Algebra.conj]
  split_ifs
  · exact hw
  · exact hv
  · exact hbool _

theorem arith_mem {s : SortName} {default : V} {f : Int → Int → V} (hdefault : M.mem s default)
    (hf : ∀ m n, M.mem s (f m n)) (v w : V) : M.mem s (M.arith default f v w) := by
  rw [Algebra.arith]
  split
  · exact hf _ _
  · exact hdefault

theorem junk_mem (hbool : ∀ b, M.mem .bool (M.bool b)) (hint : ∀ n, M.mem .int (M.int n))
    (op : Builtin) : M.mem op.resultSort (M.junk op) := by
  cases op <;> first | exact hbool false | exact hint 0

/-- An operation gives a value of its result sort, a connective if its arguments are truth
    values. -/
theorem operate_mem (hbool : ∀ b, M.mem .bool (M.bool b)) (hint : ∀ n, M.mem .int (M.int n))
    (op : Builtin) {vs : List V} (hvs : op.isConnective = true → ∀ v ∈ vs, M.mem .bool v) :
    M.mem op.resultSort (M.operate op vs) := by
  unfold Algebra.operate
  split
  · exact conj_mem hbool (hvs rfl _ (by simp)) (hvs rfl _ (by simp))
  · exact neg_mem hbool (conj_mem hbool (neg_mem hbool (hvs rfl _ (by simp)))
      (neg_mem hbool (hvs rfl _ (by simp))))
  · exact neg_mem hbool (hvs rfl _ (by simp))
  · exact hbool _
  · exact arith_mem (junk_mem hbool hint .add) (fun _ _ => hint _) _ _
  · exact arith_mem (junk_mem hbool hint .sub) (fun _ _ => hint _) _ _
  · exact arith_mem (junk_mem hbool hint .lt) (fun _ _ => hbool _) _ _
  · exact arith_mem (junk_mem hbool hint .le) (fun _ _ => hbool _) _ _
  · exact junk_mem hbool hint op

/-- The value of a term lies in the sort of some of its branches. -/
theorem eval_mem_branchSorts (hM : M.Sorted voc Q) (hρ : M.Respects X ρ) {t : Term}
    (ht : t.Within X Q) (htyped : t.All (TypedHead M ρ)) :
    ∃ s ∈ t.branchSorts voc, M.mem s (t.eval M.toAlgebra ρ) := by
  induction t using Term.ind with
  | var v => exact ⟨v.sort, List.mem_singleton.mpr rfl, hρ v ht⟩
  | bool b => exact ⟨.bool, List.mem_singleton.mpr rfl, hM.bool b⟩
  | int n => exact ⟨.int, List.mem_singleton.mpr rfl, hM.int n⟩
  | str s => exact ⟨.string, List.mem_singleton.mpr rfl, hM.str s⟩
  | app f xs s ih =>
    obtain ⟨hf, hxs⟩ := (all_app_iff f xs s).mp ht
    have hxsTyped := ((all_app_iff f xs s).mp htyped).2
    -- one sort for every argument, from the branches that are taken
    have hsorts : ∃ sorts, List.Forall₂ (· ∈ ·) sorts (xs.map (branchSorts voc)) ∧
        List.Forall₂ M.mem sorts (xs.map (eval M.toAlgebra ρ)) := by
      clear ht htyped hf
      revert ih hxs hxsTyped
      induction xs with
      | nil => exact fun _ _ _ => ⟨[], .nil, .nil⟩
      | cons x xs ihxs =>
        intro ih hxs hxsTyped
        rw [List.forall_mem_cons] at ih hxs hxsTyped
        obtain ⟨sorts, hsorts, hmem⟩ := ihxs ih.2 hxs.2 hxsTyped.2
        obtain ⟨s, hs, hx⟩ := ih.1 hxs.1 hxsTyped.1
        exact ⟨s :: sorts, .cons hs hsorts, .cons hx hmem⟩
    obtain ⟨sorts, hsorts, hmem⟩ := hsorts
    rw [branchSorts, allBranchSorts_eq, eval_app]
    exact ⟨_, List.mem_map_of_mem ((Formula.mem_choices_iff _ _).mpr hsorts),
      hM.app f hf sorts _ hmem⟩
  | builtin op xs =>
    refine ⟨op.resultSort, List.mem_singleton.mpr rfl, ?_⟩
    rw [eval_builtin]
    refine operate_mem hM.bool hM.int op fun hop => ?_
    rw [List.forall_mem_map]
    exact htyped.head hop
  | closed xs =>
    rw [eval_list]
    cases xs with
    | nil => exact ⟨.list, List.mem_singleton.mpr rfl, hM.nil⟩
    | cons x xs => exact ⟨.list, List.mem_singleton.mpr rfl, hM.cons _ _⟩
  | framed xs frame _ ihframe =>
    rw [eval_list]
    cases xs with
    | nil =>
      exact ihframe (((all_list_iff [] (some frame)).mp ht).2.2 frame rfl)
        (((all_list_iff [] (some frame)).mp htyped).2.2 frame rfl)
    | cons x xs => exact ⟨.list, List.mem_singleton.mpr rfl, hM.cons _ _⟩
  | ite c t e ihc iht ihe =>
    obtain ⟨_, _, ht, he⟩ := (all_ite_iff c t e).mp ht
    obtain ⟨_, _, htTyped, heTyped⟩ := (all_ite_iff c t e).mp htyped
    rw [branchSorts, eval_ite, Algebra.choose]
    split_ifs
    · obtain ⟨s, hs, hmem⟩ := iht ht htTyped
      exact ⟨s, List.mem_append_left _ hs, hmem⟩
    · obtain ⟨s, hs, hmem⟩ := ihe he heTyped
      exact ⟨s, List.mem_append_right _ hs, hmem⟩

/-! ## Well-sorted operations -/

/-- Operations are applied to as many terms as they take, of the sorts they take in every branch,
    and conditions are truth values in every branch. -/
def WellSortedHead (voc : Vocabulary) : Term → Prop
  | .builtin op xs => xs.length = op.arity ∧
      ∀ x ∈ xs, ∀ s ∈ x.branchSorts voc, voc.lattice.isSubsortEq op.argumentSort s = true
  | .ite c _ _ => ∀ s ∈ c.branchSorts voc, voc.lattice.isSubsortEq .bool s = true
  | _ => True

theorem argumentSort_of_isConnective {op : Builtin} (h : op.isConnective = true) :
    op.argumentSort = .bool := by
  cases op <;> first | rfl | exact absurd h nofun

/-- Well-sorted connectives are applied to truth values. -/
theorem typed_of_wellSorted (hordered : M.Ordered voc.lattice) (hM : M.Sorted voc Q)
    (hρ : M.Respects X ρ) {t : Term} (ht : t.Within X Q) (hwell : t.All (WellSortedHead voc)) :
    t.All (TypedHead M ρ) := by
  induction t using Term.ind with
  | app f xs s ih =>
    have hxs := ((all_app_iff f xs s).mp ht).2
    have hwellXs := ((all_app_iff f xs s).mp hwell).2
    exact (all_app_iff f xs s).mpr ⟨trivial, fun x hx => ih x hx (hxs x hx) (hwellXs x hx)⟩
  | builtin op xs ih =>
    have hxs := ((all_builtin_iff op xs).mp ht).2
    obtain ⟨hhead, hwellXs⟩ := (all_builtin_iff op xs).mp hwell
    have htyped := fun x hx => ih x hx (hxs x hx) (hwellXs x hx)
    refine (all_builtin_iff op xs).mpr ⟨fun hop x hx => ?_, htyped⟩
    obtain ⟨s, hs, hmem⟩ := eval_mem_branchSorts hM hρ (hxs x hx) (htyped x hx)
    have hle := hhead.2 x hx s hs
    rw [argumentSort_of_isConnective hop] at hle
    exact hordered.mono _ _ _ hle hmem
  | closed xs ih =>
    have hxs := ((all_list_iff xs none).mp ht).2.1
    have hwellXs := ((all_list_iff xs none).mp hwell).2.1
    exact (all_list_iff xs none).mpr
      ⟨trivial, fun x hx => ih x hx (hxs x hx) (hwellXs x hx), nofun⟩
  | framed xs frame ih ihframe =>
    obtain ⟨_, hxs, hframe⟩ := (all_list_iff xs (some frame)).mp ht
    obtain ⟨_, hwellXs, hwellFrame⟩ := (all_list_iff xs (some frame)).mp hwell
    refine (all_list_iff xs (some frame)).mpr
      ⟨trivial, fun x hx => ih x hx (hxs x hx) (hwellXs x hx), fun u hu => ?_⟩
    obtain rfl := Option.mem_some_iff.mp hu
    exact ihframe (hframe _ rfl) (hwellFrame _ rfl)
  | ite c t e ihc iht ihe =>
    obtain ⟨_, hc, ht, he⟩ := (all_ite_iff c t e).mp ht
    obtain ⟨_, hcw, htw, hew⟩ := (all_ite_iff c t e).mp hwell
    exact (all_ite_iff c t e).mpr ⟨trivial, ihc hc hcw, iht ht htw, ihe he hew⟩
  | _ => trivial

end Membership

end Term

end Entail
