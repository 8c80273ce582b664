import Entail.Proofs.Sizes
import Mathlib.Algebra.Order.BigOperators.Group.List
import Mathlib.Algebra.Order.Group.Nat

set_option autoImplicit false

/-! # Terms as values

Terms themselves are values: constructors, tokens and list cells stand for themselves. A flat list
is a chain of cells. Giving values to variables is then the same as substituting for them. -/

namespace Entail

namespace Term

/-! ## Cells -/

/-- A list with one more element in front. -/
def cell (head : Term) : Term → Term
  | .list [] none => .list [head] none
  | .list (x :: xs) frame => .list (head :: x :: xs) frame
  | tail => .list [head] (some tail)

/-- The first element of a list and what comes after it; of a list that is not flat there may be
    none. -/
def cell? : Term → Option (Term × Term)
  | .list [head] none => some (head, .list [] none)
  | .list (head :: x :: xs) frame => some (head, .list (x :: xs) frame)
  | .list [head] (some tail) =>
    match tail with
    | .list [] none => none
    | .list (_ :: _) _ => none
    | tail => some (head, tail)
  | _ => none

theorem cell?_eq_some_iff (t head tail : Term) :
    t.cell? = some (head, tail) ↔ cell head tail = t := by
  constructor
  · intro h
    unfold cell? at h
    split at h
    · simp only [Option.some.injEq, Prod.mk.injEq] at h
      rw [← h.1, ← h.2, cell]
    · simp only [Option.some.injEq, Prod.mk.injEq] at h
      rw [← h.1, ← h.2, cell]
    · split at h
      · exact absurd h nofun
      · exact absurd h nofun
      · simp only [Option.some.injEq, Prod.mk.injEq] at h
        rw [← h.1, ← h.2, cell] <;> assumption
    · exact absurd h nofun
  · rintro rfl
    unfold cell
    split
    · rfl
    · rfl
    · simp only [cell?]

/-- A frame that is no list stays a frame. -/
theorem consFrame_of_not_list {xs : List Term} (hne : xs ≠ []) {t : Term} (ht : t.isList = false) :
    consFrame xs t = .list xs (some t) := by
  have hnonempty : xs.isEmpty = false := by simpa using hne
  cases t with
  | list ys frame => exact absurd ht nofun
  | _ => simp [consFrame, hnonempty]

theorem cell_of_not_list {head tail : Term} (h : tail.isList = false) :
    cell head tail = .list [head] (some tail) := by
  cases tail with
  | list ys frame => exact absurd h nofun
  | _ => rfl

theorem cell_list (head : Term) {xs : List Term} {frame : Option Term}
    (h : xs = [] → frame = none) : cell head (.list xs frame) = .list (head :: xs) frame := by
  cases xs with
  | nil => rw [h rfl, cell]
  | cons x xs => rfl

theorem foldr_cell_list (xs : List Term) {ys : List Term} {frame : Option Term}
    (h : ys = [] → frame = none) :
    xs.foldr cell (.list ys frame) = .list (xs ++ ys) frame := by
  induction xs with
  | nil => rfl
  | cons x xs ih =>
    rw [List.foldr_cons, ih, cell_list x fun hnil => h (List.append_eq_nil_iff.mp hnil).2,
      List.cons_append]

/-- Cells in front of a term make a flat list. -/
theorem foldr_cell (xs : List Term) {t : Term} (ht : t.FlatHead) :
    xs.foldr cell t = consFrame xs t := by
  by_cases hlist : t.isList = true
  · -- the elements join the prefix of a list
    obtain ⟨ys, frame, rfl⟩ : ∃ ys frame, t = .list ys frame := by
      cases t <;> first | exact ⟨_, _, rfl⟩ | exact absurd hlist Bool.false_ne_true
    cases frame with
    | none => rw [foldr_cell_list xs fun _ => rfl, consFrame]
    | some u =>
      obtain ⟨hne, hu⟩ := ht
      rw [foldr_cell_list xs fun hnil => absurd hnil hne, consFrame,
        consFrame_of_not_list (by simp [hne]) hu]
  · rw [Bool.not_eq_true] at hlist
    rcases List.eq_nil_or_concat xs with rfl | ⟨xs, x, rfl⟩
    · cases t <;> first | rfl | cases hlist
    · rw [List.concat_eq_append, consFrame_of_not_list (by simp) hlist, List.foldr_append,
        List.foldr_cons, List.foldr_nil, cell_of_not_list hlist,
        foldr_cell_list xs fun hnil => absurd hnil (List.cons_ne_nil x [])]

/-! ## The algebra of terms -/

end Term

/-- The result of the first signature; without any, the top sort. -/
def Symbol.result (f : Symbol) : SortName := (f.signatures.head?.map (·.result)).getD .k

/-- The constructors of `Q`, and others, by their names. -/
structure Naming (Q : Symbol → Prop) where
  symbolOf : String → Symbol
  name_symbolOf : ∀ name, (symbolOf name).name = name
  symbolOf_name : ∀ f, Q f → symbolOf f.name = f

namespace Term

variable {Q : Symbol → Prop}

/-- The term of a head. -/
def ofShape (N : Naming Q) : Shape Term → Term
  | .bool b => .bool b
  | .int n => .int n
  | .str s => .str s
  | .con name args => .app (N.symbolOf name) args (N.symbolOf name).result
  | .nil => emptyList
  | .cons head tail => cell head tail

/-- The head of a term; variables and terms with other symbols have none. -/
def shape? (N : Naming Q) : Term → Option (Shape Term)
  | .bool b => some (.bool b)
  | .int n => some (.int n)
  | .str s => some (.str s)
  | .app f args s =>
    if f = N.symbolOf f.name ∧ s = f.result then some (.con f.name args) else none
  | .list [] none => some .nil
  | .list xs frame => (cell? (.list xs frame)).map fun (head, tail) => .cons head tail
  | _ => none

variable (N : Naming Q)

theorem shape?_cell (head tail : Term) :
    (cell head tail).shape? N = some (.cons head tail) := by
  have hcell := (cell?_eq_some_iff (cell head tail) head tail).mpr rfl
  obtain ⟨x, xs, frame, h⟩ : ∃ x xs frame, cell head tail = .list (x :: xs) frame := by
    unfold cell
    split <;> exact ⟨_, _, _, rfl⟩
  rw [h] at hcell ⊢
  rw [shape?, hcell]
  · rfl
  · nofun

theorem shape?_eq_some_iff (t : Term) (s : Shape Term) :
    t.shape? N = some s ↔ ofShape N s = t := by
  constructor
  · intro h
    unfold shape? at h
    split at h
    · obtain rfl := Option.some.inj h
      rfl
    · obtain rfl := Option.some.inj h
      rfl
    · obtain rfl := Option.some.inj h
      rfl
    · split_ifs at h with hf
      obtain rfl := Option.some.inj h
      rw [ofShape, ← hf.1, hf.2]
    · obtain rfl := Option.some.inj h
      rfl
    · obtain ⟨⟨head, tail⟩, hcell, rfl⟩ := Option.map_eq_some_iff.mp h
      exact (cell?_eq_some_iff _ head tail).mp hcell
    · exact absurd h nofun
  · rintro rfl
    cases s with
    | con name args => rw [ofShape, shape?, N.name_symbolOf, if_pos ⟨rfl, rfl⟩]
    | cons head tail => exact shape?_cell N head tail
    | _ => rfl

theorem size_lt_cell (head tail : Term) :
    head.size < (cell head tail).size ∧ tail.size < (cell head tail).size := by
  have hhead := head.size_pos
  unfold cell
  split
  · rw [size_list, size_list]
    simp only [List.map_cons, List.map_nil, List.sum_cons, List.sum_nil, frameSize]
    omega
  · rw [size_list, size_list]
    simp only [List.map_cons, List.sum_cons]
    omega
  · rw [size_list]
    simp only [List.map_cons, List.map_nil, List.sum_cons, List.sum_nil, frameSize,
      Option.map_some, Option.getD_some]
    omega

theorem size_lt_of_mem_parts (s : Shape Term) :
    ∀ t ∈ s.parts, t.size < (ofShape N s).size := by
  intro t ht
  cases s with
  | con name args =>
    have hle : t.size ≤ (args.map size).sum :=
      List.single_le_sum (fun _ _ => Nat.zero_le _) _ (List.mem_map_of_mem ht)
    rw [ofShape, size_app]
    omega
  | cons head tail =>
    obtain ⟨hhead, htail⟩ := size_lt_cell head tail
    rcases List.mem_cons.mp ht with rfl | ht
    · exact hhead
    · rw [List.mem_singleton.mp ht]
      exact htail
  | _ => exact absurd ht List.not_mem_nil

/-- Terms as values. Functions and patterns have no part in terms of constructors; here they
    stand for constructors as well. -/
noncomputable def algebra : Algebra Term where
  make := ofShape N
  view := shape? N
  view_eq_some := shape?_eq_some_iff N
  height := size
  height_lt := size_lt_of_mem_parts N
  decEq := Classical.decEq Term
  function name args := ofShape N (.con name args)
  pattern name args := ofShape N (.con name args)

theorem folds_algebra (mode : SimplifyMode) : (algebra N).Folds mode := by
  intro _ name vs ws _ h
  exact (Shape.con.inj ((algebra N).make_injective h)).2

theorem make_con (name : String) (args : List Term) : (algebra N).make (.con name args) =
    .app (N.symbolOf name) args (N.symbolOf name).result := rfl

theorem prepend_algebra (xs : List Term) {t : Term} (ht : t.FlatHead) :
    (algebra N).prepend xs t = consFrame xs t := foldr_cell xs ht

theorem prepend_nil_algebra (xs : List Term) :
    (algebra N).prepend xs (algebra N).nil = .list xs none := by
  have hcells := foldr_cell xs (t := emptyList) trivial
  rw [emptyList, consFrame, List.append_nil] at hcells
  exact hcells

/-- Terms as values of their own sorts. -/
noncomputable def model : Model Term where
  toAlgebra := algebra N
  mem s t := t.sort = s

end Term

end Entail
