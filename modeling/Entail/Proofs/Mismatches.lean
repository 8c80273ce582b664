import Entail.Proofs.Unification
import Entail.Proofs.Values
import Mathlib

set_option autoImplicit false

/-! # What the structural unifier answers

The unifier answers with a formula that states the equality, or with two terms that clash: parts of
the terms at one position of both, or the remainders of two lists. Clashing terms have different
values everywhere. -/

namespace Entail

variable {V : Type}

namespace Unifier

open Term (Mixed FlatHead)

variable {A : Algebra V} {ρ : Variable → V} {mode : SimplifyMode}

/-- The two terms clash, and all their subterms have property `p`. -/
structure Clashing (p : Term → Prop) (m : Mismatch) : Prop where
  lhs : m.lhs.All p
  rhs : m.rhs.All p
  clashes : m.lhs.clashes m.rhs = true

section Clashing

variable {p : Term → Prop}

theorem clashing_decomposeAll {xs : List Term} (hxs : ∀ x ∈ xs, x.All p) {m : Mismatch}
    (ih : ∀ x ∈ xs, ∀ u out, x.All p → u.All p → decompose mode x u out = .error m → Clashing p m)
    {ys : List Term} (hys : ∀ y ∈ ys, y.All p) {out : Formula}
    (h : decomposeAll mode xs ys out = .error m) : Clashing p m := by
  induction xs generalizing ys out with
  | nil => exact absurd h nofun
  | cons x xs ihxs =>
    cases ys with
    | nil => exact absurd h nofun
    | cons y ys =>
      rw [List.forall_mem_cons] at ih hxs hys
      rw [decomposeAll] at h
      split at h
      · rename_i hmismatch
        obtain rfl := Except.error.inj h
        exact ih.1 y out hxs.1 hys.1 hmismatch
      · exact ihxs hxs.2 ih.2 hys.2 h

/-- Terms with different heads are compared as a whole. -/
theorem clashing_mixed {t u : Term} (ht : t.All p) (hu : u.All p) (hmixed : Mixed t u)
    {out : Formula} {m : Mismatch} (h : decompose mode t u out = .error m) : Clashing p m := by
  rw [decompose_mixed hmixed] at h
  split at h
  · exact absurd h nofun
  · exact absurd h nofun
  · rename_i hrigid
    unfold mismatchedHeads at h
    split at h
    · exact absurd h nofun
    · rename_i hpattern
      obtain rfl := Except.error.inj h
      exact ⟨ht, hu, clashes_of_rigid hmixed hrigid (Bool.not_eq_true _ ▸ hpattern)⟩

/-- Two lists clash at two of their elements or in what is left of one of them. -/
theorem clashing_lists (hp : Term.Plain p) {xs ys : List Term} {frame frame' : Option Term}
    (ht : (Term.list xs frame).All p) (hu : (Term.list ys frame').All p) {m : Mismatch}
    (ih : ∀ x ∈ xs, ∀ u out, x.All p → u.All p → decompose mode x u out = .error m → Clashing p m)
    {out : Formula} (h : decompose mode (.list xs frame) (.list ys frame') out = .error m) :
    Clashing p m := by
  rw [decompose] at h
  split at h
  · exact absurd h (by simp)
  · exact absurd h (by simp)
  · split at h
    · rename_i hmismatch
      obtain rfl := Except.error.inj h
      exact clashing_decomposeAll ((Term.all_list_iff xs frame).mp ht).2.1 ih
        ((Term.all_list_iff ys frame').mp hu).2.1 hmismatch
    · unfold joinRests at h
      split_ifs at h with _ hclash
      obtain rfl := Except.error.inj h
      exact ⟨Term.all_rest hp ht ys.length, Term.all_rest hp hu xs.length, hclash⟩

/-- Different symbols clash if both are constructors. -/
theorem clashing_apps {f g : Symbol} {xs ys : List Term} {s s' : SortName}
    (ht : (Term.app f xs s).All p) (hu : (Term.app g ys s').All p) {m : Mismatch}
    (ih : ∀ x ∈ xs, ∀ u out, x.All p → u.All p → decompose mode x u out = .error m → Clashing p m)
    {out : Formula} (h : decompose mode (.app f xs s) (.app g ys s') out = .error m) :
    Clashing p m := by
  rw [decompose] at h
  split at h
  · exact absurd h (by simp)
  · exact absurd h (by simp)
  · split at h
    · exact clashing_decomposeAll ((Term.all_app_iff f xs s).mp ht).2 ih
        ((Term.all_app_iff g ys s').mp hu).2 h
    · rename_i hdiffer
      unfold mismatchedApps at h
      split at h
      · rename_i hconstructors
        obtain rfl := Except.error.inj h
        exact ⟨ht, hu, clashes_of_constructors hconstructors hdiffer⟩
      · exact absurd h (by simp)

/-- Taking an equality apart fails at two terms that clash. -/
theorem clashing_decompose (hp : Term.Plain p) {t u : Term} (ht : t.All p) (hu : u.All p)
    {out : Formula} {m : Mismatch} (h : decompose mode t u out = .error m) : Clashing p m := by
  -- only applications and lists are taken apart, and only against their like
  induction t using Term.ind generalizing u out with
  | app f xs s ih =>
    cases u with
    | app g ys s' => exact clashing_apps ht hu (fun x hx _ _ hx' hu' => ih x hx hx' hu') h
    | _ => exact clashing_mixed ht hu (by simp [Mixed, Term.rank]) h
  | closed xs ih =>
    cases u with
    | list ys frame' => exact clashing_lists hp ht hu (fun x hx _ _ hx' hu' => ih x hx hx' hu') h
    | _ => exact clashing_mixed ht hu (by simp [Mixed, Term.rank]) h
  | framed xs frame ih _ =>
    cases u with
    | list ys frame' => exact clashing_lists hp ht hu (fun x hx _ _ hx' hu' => ih x hx hx' hu') h
    | _ => exact clashing_mixed ht hu (by simp [Mixed, Term.rank]) h
  | _ => exact clashing_mixed ht hu (by simp [Mixed, Term.rank]) h

end Clashing

/-- **The structural unifier is sound in both directions.** Where a result is given, it holds just
    where the terms have one value; where two terms are given that cannot be made equal, neither they
    nor the terms that were to be unified have one value anywhere. -/
theorem structural_sound {A : Algebra V} {mode : SimplifyMode} (hfolds : A.Folds mode) {t u : Term}
    (ht : t.Flat) (hu : u.Flat) :
    (∀ φ, structural mode t u = .ok φ →
      ∀ ρ : Variable → V, φ.Holds A ρ ↔ t.eval A ρ = u.eval A ρ) ∧
    ∀ m, structural mode t u = .error m →
      ∀ ρ : Variable → V, m.lhs.eval A ρ ≠ m.rhs.eval A ρ ∧ t.eval A ρ ≠ u.eval A ρ := by
  refine ⟨fun φ h ρ => ⟨fun hφ => (holds_of_decompose h hφ).2, fun heq => ?_⟩,
    fun m h ρ => ⟨?_, fun heq => ?_⟩⟩
  · obtain ⟨φ', hφ', hholds⟩ := exists_decompose hfolds ht hu (Formula.holds_top A ρ) heq
    obtain rfl := Except.ok.inj (h.symm.trans hφ')
    exact hholds
  · obtain ⟨hlhs, hrhs, hclash⟩ := clashing_decompose Term.plain_flatHead ht hu h
    exact Term.clashes_sound A ρ hlhs hrhs hclash
  · obtain ⟨φ, hφ, _⟩ := exists_decompose hfolds ht hu (Formula.holds_top A ρ) heq
    exact absurd (h.symm.trans hφ) nofun

end Unifier

/-! ### Lists of unknown length -/

namespace Prefixed

def x : Variable := ⟨"X", .int⟩

def y : Variable := ⟨"Y", .int⟩

def r : Variable := ⟨"R", .list⟩

/-- A pattern symbol applied to a term -/
def folded (t : Term) : Term := .app ⟨"p", .pattern, [⟨[.int], .list⟩]⟩ [t] .list

/-- `[X, p(Y)]` -/
def elements : Term := .list [.var x, folded (.var y)] none

/-- `[1, p(2), ...R]` -/
def framed : Term := .list [.int 1, folded (.int 2)] (some (.var r))

/-- `X = 1`, `Y = 2` and `R = []` -/
def answer : Formula :=
  .all .empty [⟨.var x, .int 1⟩, ⟨.var y, .int 2⟩, ⟨.list [] none, .var r⟩] []

/-- Pattern symbols build values that determine their arguments. -/
noncomputable def folding : Algebra Value := Value.algebra (fun _ _ => .nil) .con

theorem folds_folding : folding.Folds .moduloPatternFolding := by
  intro _ name vs ws _ h
  exact (Value.con.inj h).2

theorem structural_elements :
    Unifier.structural .moduloPatternFolding elements framed = .ok answer := by
  cbv

theorem structural_shorter : Unifier.structural .moduloPatternFolding (.list [.var x] none) framed =
    .error ⟨.list [] none, .list [folded (.int 2)] (some (.var r))⟩ := by
  cbv

theorem flat_framed : framed.Flat := by
  refine (Term.all_list_iff _ _).mpr ⟨⟨nofun, rfl⟩, ?_, fun frame hframe => ?_⟩
  · refine List.forall_mem_cons.mpr ⟨trivial, List.forall_mem_singleton.mpr ?_⟩
    exact (Term.all_app_iff _ _ _).mpr ⟨trivial, List.forall_mem_singleton.mpr trivial⟩
  · obtain rfl := Option.some.inj hframe
    trivial

theorem flat_elements : elements.Flat := by
  refine (Term.all_list_iff _ _).mpr ⟨trivial, ?_, nofun⟩
  refine List.forall_mem_cons.mpr ⟨trivial, List.forall_mem_singleton.mpr ?_⟩
  exact (Term.all_app_iff _ _ _).mpr ⟨trivial, List.forall_mem_singleton.mpr trivial⟩

/-- `X = 1`, `Y = 2` and an empty rest are just what makes the lists equal, and no values make a list
    of one element equal to the longer one. -/
theorem structural_sound_framed : folding.Folds .moduloPatternFolding ∧
    (∀ ρ, answer.Holds folding ρ ↔ elements.eval folding ρ = framed.eval folding ρ) ∧
    ∀ ρ, (Term.list [.var x] none).eval folding ρ ≠ framed.eval folding ρ := by
  have hshorter : (Term.list [.var x] none).Flat :=
    (Term.all_list_iff _ _).mpr ⟨trivial, List.forall_mem_singleton.mpr trivial, nofun⟩
  exact ⟨folds_folding,
    (Unifier.structural_sound folds_folding flat_elements flat_framed).1 answer
      structural_elements,
    fun ρ => ((Unifier.structural_sound folds_folding hshorter flat_framed).2 _
      structural_shorter ρ).2⟩

end Prefixed

end Entail
