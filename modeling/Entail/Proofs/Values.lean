import Entail.Proofs.Model

set_option autoImplicit false

/-! # Free values

Values built from atoms by the free heads and nothing else. Variables serve as atoms, so that these
values are also the terms of the first-order fragment with lists taken apart cell by cell. -/

namespace Entail

/-- Atoms, and what the free heads build from them. -/
inductive Value where
  | atom (v : Variable)
  | bool (b : Bool)
  | int (n : Int)
  | str (s : String)
  | con (name : String) (args : List Value)
  | nil
  | cons (head tail : Value)

namespace Value

def ofShape : Shape Value → Value
  | .bool b => .bool b
  | .int n => .int n
  | .str s => .str s
  | .con name args => .con name args
  | .nil => .nil
  | .cons head tail => .cons head tail

/-- The head of a value; an atom has none. -/
def shape? : Value → Option (Shape Value)
  | .atom _ => none
  | .bool b => some (.bool b)
  | .int n => some (.int n)
  | .str s => some (.str s)
  | .con name args => some (.con name args)
  | .nil => some .nil
  | .cons head tail => some (.cons head tail)

theorem shape?_eq_some_iff (v : Value) (s : Shape Value) : v.shape? = some s ↔ ofShape s = v := by
  cases v <;> cases s <;> simp [shape?, ofShape, eq_comm]

theorem sizeOf_lt_of_mem_parts (s : Shape Value) : ∀ v ∈ s.parts, sizeOf v < sizeOf (ofShape s) := by
  intro v hv
  cases s with
  | con name args =>
    have hlt : sizeOf v < sizeOf args := List.sizeOf_lt_of_mem hv
    rw [ofShape, con.sizeOf_spec]
    omega
  | cons head tail =>
    rw [ofShape, cons.sizeOf_spec]
    rcases List.mem_cons.mp hv with rfl | hv
    · omega
    · obtain rfl := List.mem_singleton.mp hv
      omega
  | _ => exact absurd hv List.not_mem_nil

/-- Free values with given interpretations of functions and patterns. -/
noncomputable def algebra (function pattern : String → List Value → Value) : Algebra Value where
  make := ofShape
  view := shape?
  view_eq_some := shape?_eq_some_iff
  height := sizeOf
  height_lt := sizeOf_lt_of_mem_parts
  decEq := Classical.decEq Value
  function := function
  pattern := pattern

/-! ## The sorts of free values -/

section Sorts

variable (voc : Vocabulary) (symbolOf : String → Symbol)

mutual

/-- The least sort of a value: an atom has its own sort, unless this is the one of truth values, and
    the application of a constructor the least one for the sorts of its arguments. -/
def home : Value → SortName
  | .atom v => if v.sort = .bool then .k else v.sort
  | .bool _ => .bool
  | .int _ => .int
  | .str _ => .string
  | .con name args => voc.leastSort (symbolOf name) (homes args)
  | .nil => .list
  | .cons _ _ => .list
termination_by structural v => v

def homes : List Value → List SortName
  | [] => []
  | v :: vs => home v :: homes vs
termination_by structural vs => vs

end

theorem homes_eq (vs : List Value) : homes voc symbolOf vs = vs.map (home voc symbolOf) := by
  induction vs with
  | nil => rfl
  | cons v vs ih => rw [homes, ih, List.map_cons]

/-- Free values, each in the sorts above its least one. `symbolOf` gives the signatures of a
    constructor. -/
noncomputable def model (function pattern : String → List Value → Value) : Model Value where
  toAlgebra := algebra function pattern
  mem s v := voc.lattice.isSubsortEq s (home voc symbolOf v) = true

variable {voc} {symbolOf} {function pattern : String → List Value → Value}

theorem ordered_model (hl : voc.lattice.Closed) (hacyclic : voc.lattice.Acyclic) :
    (model voc symbolOf function pattern).Ordered voc.lattice where
  top _ := (voc.lattice.isSubsortEq_iff .k _).mpr (Or.inr (Or.inl rfl))
  mono _ _ _ hab hb := hacyclic.trans hl hab hb
  meet _ _ v ha hb := ⟨home voc symbolOf v, ha, hb, voc.lattice.isSubsortEq_refl _⟩

theorem mem_homes (vs : List Value) :
    List.Forall₂ (model voc symbolOf function pattern).mem (homes voc symbolOf vs) vs := by
  rw [homes_eq, List.forall₂_map_left_iff, List.forall₂_same]
  exact fun v _ => voc.lattice.isSubsortEq_refl _

/-- A value of the sort of a variable. -/
def ofVariable (v : Variable) : Value := if v.sort = .bool then .bool false else .atom v

theorem mem_ofVariable (v : Variable) :
    (model voc symbolOf function pattern).mem v.sort (ofVariable v) := by
  rw [ofVariable]
  split_ifs with hbool
  · rw [hbool]
    exact voc.lattice.isSubsortEq_refl _
  · change voc.lattice.isSubsortEq v.sort (if v.sort = .bool then .k else v.sort) = true
    rw [if_neg hbool]
    exact voc.lattice.isSubsortEq_refl _

/-- There are two truth values, if no sort lies below theirs and no application is one. -/
theorem bool_model (hbelow : ∀ s, voc.lattice.isSubsortEq .bool s = true → s = .bool)
    (hcon : ∀ name sorts, voc.leastSort (symbolOf name) sorts ≠ .bool) (v : Value)
    (hv : (model voc symbolOf function pattern).mem .bool v) :
    ∃ b, v = (model voc symbolOf function pattern).bool b := by
  have hhome : home voc symbolOf v = .bool := hbelow _ hv
  have hint : SortName.int ≠ .bool := by decide
  have hstring : SortName.string ≠ .bool := by decide
  have hlist : SortName.list ≠ .bool := by decide
  cases v with
  | bool b => exact ⟨b, rfl⟩
  | int n => exact absurd hhome hint
  | str s => exact absurd hhome hstring
  | nil => exact absurd hhome hlist
  | cons head tail => exact absurd hhome hlist
  | atom v =>
    rw [home] at hhome
    split_ifs at hhome with hbool
    · exact absurd hhome (by decide)
    · exact absurd hhome hbool
  | con name args => exact absurd hhome (hcon name _)

theorem apply_model {f : Symbol} (hf : f.isConstructor = true) (vs : List Value) :
    (model voc symbolOf function pattern).apply f vs = .con f.name vs := by
  rw [Algebra.apply, beq_iff_eq.mp hf]
  rfl

theorem tight_model {Q : Symbol → Prop}
    (hQ : ∀ f, Q f → f.isConstructor = true → symbolOf f.name = f) :
    (model voc symbolOf function pattern).Tight voc Q := by
  intro f hf hconstructor _ s vs hmem
  rw [apply_model hconstructor] at hmem
  refine ⟨homes voc symbolOf vs, mem_homes vs, ?_⟩
  rw [← hQ f hf hconstructor]
  exact hmem

end Sorts

end Value

/-- With one signature there is one sort for all applications. -/
theorem Vocabulary.leastSort_of_single (voc : Vocabulary) {f : Symbol} {sig : Signature}
    (hf : f.signatures = [sig]) (sorts : List SortName) : voc.leastSort f sorts = sig.result := by
  have hrefl := voc.lattice.isSubsortEq_refl sig.result
  rw [leastSort, applicableResults, hf]
  cases haccepts : voc.accepts sig.params sorts <;>
    simp [haccepts, leastOf?, greatestOf?, hrefl]

namespace Value

/-- Free values satisfy the signatures if all applications do. -/
theorem sorted_of_applications {voc : Vocabulary} {symbolOf : String → Symbol}
    {function pattern : String → List Value → Value} {Q : Symbol → Prop}
    (happ : ∀ f, Q f → ∀ sorts vs, (model voc symbolOf function pattern).mem (voc.leastSort f sorts)
      ((model voc symbolOf function pattern).apply f vs)) :
    (model voc symbolOf function pattern).Sorted voc Q where
  bool _ := voc.lattice.isSubsortEq_refl _
  int _ := voc.lattice.isSubsortEq_refl _
  str _ := voc.lattice.isSubsortEq_refl _
  nil := voc.lattice.isSubsortEq_refl _
  cons _ _ := voc.lattice.isSubsortEq_refl _
  app f hf sorts vs _ := happ f hf sorts vs

/-- They do if the only symbols are constructors with one signature. -/
theorem sorted_model {voc : Vocabulary} {symbolOf : String → Symbol}
    {function pattern : String → List Value → Value} {Q : Symbol → Prop}
    (hQ : ∀ f, Q f → f.isConstructor = true ∧ symbolOf f.name = f ∧
      ∃ sig, f.signatures = [sig]) :
    (model voc symbolOf function pattern).Sorted voc Q := by
  refine sorted_of_applications fun f hf sorts vs => ?_
  obtain ⟨hconstructor, hsymbol, sig, hsig⟩ := hQ f hf
  have hhome : home voc symbolOf (.con f.name vs) = voc.leastSort f sorts := by
    rw [home, hsymbol, voc.leastSort_of_single hsig, voc.leastSort_of_single hsig]
  rw [apply_model hconstructor, ← hhome]
  exact voc.lattice.isSubsortEq_refl _

end Value

end Entail
