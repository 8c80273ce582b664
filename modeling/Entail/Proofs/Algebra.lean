import Entail.Proofs.Equivalence

set_option autoImplicit false

/-! # Values and what terms denote

An algebra gives values to terms. Tokens, applications of constructors and cells of lists are free:
the value of such a head determines the head and the values of its parts, and it is never one of its
parts, however deep. Functions and patterns are arbitrary. Operations have their usual meaning on
truth values and integers. -/

namespace Entail

variable {V : Type}

/-- A free head with the values of its parts. -/
inductive Shape (V : Type) where
  | bool (b : Bool)
  | int (n : Int)
  | str (s : String)
  | con (name : String) (args : List V)
  | nil
  | cons (head tail : V)

/-- The values inside a head. -/
def Shape.parts : Shape V → List V
  | .con _ args => args
  | .cons head tail => [head, tail]
  | _ => []

/-- Values, with free heads and interpretations of the other symbols. -/
structure Algebra (V : Type) where
  make : Shape V → V
  /-- the head of a value, if it has one -/
  view : V → Option (Shape V)
  view_eq_some : ∀ v s, view v = some s ↔ make s = v
  height : V → Nat
  height_lt : ∀ s, ∀ v ∈ s.parts, height v < height (make s)
  decEq : DecidableEq V
  function : String → List V → V
  pattern : String → List V → V

namespace Algebra

variable (A : Algebra V)

theorem make_injective : Function.Injective A.make := by
  intro s s' h
  have hs := (A.view_eq_some (A.make s') s).mpr h
  rw [(A.view_eq_some (A.make s') s').mpr rfl] at hs
  exact (Option.some.inj hs).symm

@[simp]
theorem make_inj (s s' : Shape V) : A.make s = A.make s' ↔ s = s' := A.make_injective.eq_iff

@[simp]
theorem view_make (s : Shape V) : A.view (A.make s) = some s := (A.view_eq_some _ s).mpr rfl

/-! ## Heads and symbols -/

def bool (b : Bool) : V := A.make (.bool b)

def int (n : Int) : V := A.make (.int n)

def str (s : String) : V := A.make (.str s)

def nil : V := A.make .nil

def cons (head tail : V) : V := A.make (.cons head tail)

/-- The elements `vs` in front of `tail`. -/
def prepend (vs : List V) (tail : V) : V := vs.foldr A.cons tail

/-- A symbol applied to values. -/
def apply (f : Symbol) (vs : List V) : V :=
  match f.kind with
  | .constructor => A.make (.con f.name vs)
  | .function => A.function f.name vs
  | .pattern => A.pattern f.name vs

theorem apply_constructor {f : Symbol} (hf : f.isConstructor = true) (vs : List V) :
    A.apply f vs = A.make (.con f.name vs) := by
  have hkind : f.kind = .constructor := by simpa [Symbol.isConstructor] using hf
  rw [apply, hkind]

@[simp]
theorem bool_inj (b b' : Bool) : A.bool b = A.bool b' ↔ b = b' := by
  rw [bool, bool, make_inj, Shape.bool.injEq]

@[simp]
theorem prepend_append (vs ws : List V) (tail : V) :
    A.prepend (vs ++ ws) tail = A.prepend vs (A.prepend ws tail) :=
  List.foldr_append

@[simp]
theorem prepend_nil (tail : V) : A.prepend [] tail = tail := rfl

@[simp]
theorem prepend_cons (v : V) (vs : List V) (tail : V) :
    A.prepend (v :: vs) tail = A.cons v (A.prepend vs tail) := rfl

theorem cons_inj (v w tail tail' : V) :
    A.cons v tail = A.cons w tail' ↔ v = w ∧ tail = tail' := by
  rw [cons, cons, make_inj, Shape.cons.injEq]

theorem cons_ne_nil (v tail : V) : A.cons v tail ≠ A.nil := by
  rw [cons, nil, Ne, make_inj]
  nofun

/-! ## Operations -/

/-- The value is the true truth value. -/
def isTrue (v : V) : Bool :=
  match A.view v with
  | some (.bool b) => b
  | _ => false

theorem isTrue_iff (v : V) : A.isTrue v = true ↔ v = A.bool true := by
  rw [isTrue]
  split
  · rename_i b h
    obtain rfl := (A.view_eq_some v _).mp h
    exact (A.bool_inj b true).symm
  · rename_i h
    simp only [Bool.false_eq_true, false_iff]
    rintro rfl
    exact h true (A.view_make _)

@[simp]
theorem isTrue_bool (b : Bool) : A.isTrue (A.bool b) = b := by
  rw [isTrue, bool, view_make]

def conj (v w : V) : V :=
  if A.isTrue v then w else if A.isTrue w then v else A.bool false

/-- The opposite truth value; any other value is left alone. -/
def neg (v : V) : V :=
  match A.view v with
  | some (.bool b) => A.bool !b
  | _ => v

def disj (v w : V) : V := A.neg (A.conj (A.neg v) (A.neg w))

def equal (v w : V) : V := A.bool (@decide (v = w) (A.decEq v w))

/-- A function of two integers; `default` if one of the values is not an integer. -/
def arith (default : V) (f : Int → Int → V) (v w : V) : V :=
  match A.view v, A.view w with
  | some (.int m), some (.int n) => f m n
  | _, _ => default

/-- Some value of the result sort of an operation. -/
def junk (op : Builtin) : V :=
  match op.resultSort.isInt with
  | true => A.int 0
  | false => A.bool false

/-- What an operation gives; arguments for which it is not meant give `junk`. -/
def operate : Builtin → List V → V
  | .and, [v, w] => A.conj v w
  | .or, [v, w] => A.disj v w
  | .not, [v] => A.neg v
  | .eq, [v, w] => A.equal v w
  | .add, [v, w] => A.arith (A.junk .add) (fun m n => A.int (m + n)) v w
  | .sub, [v, w] => A.arith (A.junk .sub) (fun m n => A.int (m - n)) v w
  | .lt, [v, w] => A.arith (A.junk .lt) (fun m n => A.bool (m < n)) v w
  | .le, [v, w] => A.arith (A.junk .le) (fun m n => A.bool (m ≤ n)) v w
  | op, _ => A.junk op

def choose (c v w : V) : V := if A.isTrue c then v else w

@[simp]
theorem neg_bool (b : Bool) : A.neg (A.bool b) = A.bool !b := by
  rw [neg, bool, view_make]

theorem neg_neg (v : V) : A.neg (A.neg v) = v := by
  rw [neg.eq_def A v]
  split
  · rename_i b h
    rw [neg_bool, Bool.not_not]
    exact (A.view_eq_some v _).mp h
  · rename_i h
    rw [neg]
    split
    · rename_i b hb
      exact absurd hb (h b)
    · rfl

theorem neg_eq_bool_iff (v : V) (b : Bool) : A.neg v = A.bool b ↔ v = A.bool !b := by
  constructor
  · intro h
    rw [← A.neg_neg v, h, neg_bool]
  · rintro rfl
    rw [neg_bool, Bool.not_not]

theorem conj_eq_true_iff (v w : V) :
    A.conj v w = A.bool true ↔ v = A.bool true ∧ w = A.bool true := by
  rw [conj]
  split
  · rename_i h
    simp [(A.isTrue_iff v).mp h]
  · rename_i h
    have hv : v ≠ A.bool true := fun hv => h ((A.isTrue_iff v).mpr hv)
    split
    · simp [hv]
    · simp [hv]

@[simp]
theorem conj_true_left (v : V) : A.conj (A.bool true) v = v := by
  rw [conj, isTrue_bool, if_pos rfl]

@[simp]
theorem conj_true_right (v : V) : A.conj v (A.bool true) = v := by
  rw [conj, isTrue_bool, if_pos rfl]
  split
  · rename_i h
    exact ((A.isTrue_iff v).mp h).symm
  · rfl

@[simp]
theorem conj_false_left (v : V) : A.conj (A.bool false) v = A.bool false := by
  simp [conj]

@[simp]
theorem conj_false_right (v : V) : A.conj v (A.bool false) = A.bool false := by
  simp [conj]

theorem disj_eq_false_iff (v w : V) :
    A.disj v w = A.bool false ↔ v = A.bool false ∧ w = A.bool false := by
  rw [disj, neg_eq_bool_iff, Bool.not_false, conj_eq_true_iff, neg_eq_bool_iff, neg_eq_bool_iff]
  rfl

theorem equal_eq_true_iff (v w : V) : A.equal v w = A.bool true ↔ v = w := by
  rw [equal, bool_inj]
  exact @decide_eq_true_iff _ (A.decEq v w)

theorem equal_self (v : V) : A.equal v v = A.bool true := (A.equal_eq_true_iff v v).mpr rfl

theorem equal_of_ne {v w : V} (h : v ≠ w) : A.equal v w = A.bool false := by
  rw [equal, bool_inj]
  exact (@decide_eq_false_iff_not _ (A.decEq v w)).mpr h

end Algebra

/-! ## Terms -/

namespace Term

mutual

/-- The value of a term when `ρ` gives values to the variables. -/
def eval (A : Algebra V) (ρ : Variable → V) : Term → V
  | .var v => ρ v
  | .bool b => A.bool b
  | .int n => A.int n
  | .str s => A.str s
  | .app f xs _ => A.apply f (evalAll A ρ xs)
  | .builtin op xs => A.operate op (evalAll A ρ xs)
  | .list xs none => A.prepend (evalAll A ρ xs) A.nil
  | .list xs (some frame) => A.prepend (evalAll A ρ xs) (eval A ρ frame)
  | .ite c t e => A.choose (eval A ρ c) (eval A ρ t) (eval A ρ e)
termination_by structural t => t

def evalAll (A : Algebra V) (ρ : Variable → V) : List Term → List V
  | [] => []
  | t :: ts => eval A ρ t :: evalAll A ρ ts
termination_by structural ts => ts

end

variable (A : Algebra V) (ρ : Variable → V)

theorem evalAll_eq (ts : List Term) : evalAll A ρ ts = ts.map (eval A ρ) := by
  induction ts with
  | nil => rfl
  | cons t ts ih => rw [evalAll, ih, List.map_cons]

/-- The value of a frame; without one, the empty list. -/
def evalFrame (frame : Option Term) : V :=
  match frame with
  | none => A.nil
  | some t => eval A ρ t

theorem eval_list (xs : List Term) (frame : Option Term) :
    (list xs frame).eval A ρ = A.prepend (xs.map (eval A ρ)) (evalFrame A ρ frame) := by
  cases frame <;> rw [eval, evalAll_eq] <;> rfl

theorem eval_app (f : Symbol) (xs : List Term) (s : SortName) :
    (app f xs s).eval A ρ = A.apply f (xs.map (eval A ρ)) := by
  rw [eval, evalAll_eq]

theorem eval_builtin (op : Builtin) (xs : List Term) :
    (builtin op xs).eval A ρ = A.operate op (xs.map (eval A ρ)) := by
  rw [eval, evalAll_eq]

theorem eval_ite (c t e : Term) :
    (ite c t e).eval A ρ = A.choose (c.eval A ρ) (t.eval A ρ) (e.eval A ρ) := by
  rw [eval]

/-- Flattening a list does not change what it denotes. -/
theorem eval_consFrame (xs : List Term) (frame : Term) :
    (consFrame xs frame).eval A ρ = A.prepend (xs.map (eval A ρ)) (frame.eval A ρ) := by
  induction frame using Term.ind generalizing xs with
  | closed ys _ =>
    rw [consFrame, eval_list, eval_list, List.map_append, A.prepend_append]
  | framed ys frame _ ih =>
    rw [consFrame, ih, eval_list, List.map_append, A.prepend_append]
    rfl
  | _ => cases xs <;> simp [consFrame, eval_list, evalFrame]

theorem eval_mkList (xs : List Term) (frame : Option Term) :
    (mkList xs frame).eval A ρ = A.prepend (xs.map (eval A ρ)) (evalFrame A ρ frame) := by
  cases frame with
  | none => rw [mkList, eval_list]
  | some t => rw [mkList, eval_consFrame, evalFrame]

/-! ## What a value depends on -/

theorem eval_bare (t : Term) : t.bare.eval A ρ = t.eval A ρ := by
  induction t using Term.ind with
  | app f xs s ih =>
    rw [bare, bareAll_eq, eval_app, eval_app, map_map_congr ih]
    rfl
  | builtin op xs ih =>
    rw [bare, bareAll_eq, eval_builtin, eval_builtin, map_map_congr ih]
  | closed xs ih =>
    rw [bare_list, eval_list, eval_list, map_map_congr ih]
    rfl
  | framed xs frame ih ihframe =>
    rw [bare_list, eval_list, eval_list, map_map_congr ih]
    rw [Option.map, evalFrame, evalFrame, ihframe]
  | ite c t e ihc iht ihe => rw [bare, eval_ite, eval_ite, ihc, iht, ihe]
  | _ => rfl

theorem eval_eq_of_beq {t u : Term} (h : (t == u) = true) : t.eval A ρ = u.eval A ρ := by
  rw [← eval_bare, (beq_iff t u).mp h, eval_bare]

/-- Only the values of the variables that occur matter. -/
theorem eval_congr {ρ ρ' : Variable → V} (t : Term) (h : ∀ v ∈ t.occurrences, ρ v = ρ' v) :
    t.eval A ρ = t.eval A ρ' := by
  have members {xs : List Term} (hxs : ∀ v ∈ allOccurrences xs, ρ v = ρ' v)
      (ih : ∀ x ∈ xs, (∀ v ∈ x.occurrences, ρ v = ρ' v) → x.eval A ρ = x.eval A ρ') :
      xs.map (eval A ρ) = xs.map (eval A ρ') := by
    rw [allOccurrences_eq] at hxs
    exact List.map_congr_left fun x hx =>
      ih x hx fun v hv => hxs v (List.mem_flatMap.mpr ⟨x, hx, hv⟩)
  induction t using Term.ind with
  | var v => exact h v (by simp [occurrences])
  | app f xs s ih => rw [eval_app, eval_app, members h ih]
  | builtin op xs ih => rw [eval_builtin, eval_builtin, members h ih]
  | closed xs ih => rw [eval_list, eval_list, members h ih]; rfl
  | framed xs frame ih ihframe =>
    have hxs := members (fun v hv => h v (List.mem_append_left _ hv)) ih
    have hframe := ihframe (fun v hv => h v (List.mem_append_right _ hv))
    rw [eval_list, eval_list, hxs, evalFrame, evalFrame, hframe]
  | ite c t e ihc iht ihe =>
    simp only [occurrences, List.mem_append] at h
    rw [eval_ite, eval_ite, ihc fun v hv => h v (Or.inl hv),
      iht fun v hv => h v (Or.inr (Or.inl hv)), ihe fun v hv => h v (Or.inr (Or.inr hv))]
  | _ => rfl

/-- The values of variables after a substitution. -/
def after (f : Variable → Option Term) (v : Variable) : V := ((f v).getD (.var v)).eval A ρ

theorem eval_substitute (f : Variable → Option Term) (t : Term) :
    (t.substitute f).eval A ρ = t.eval A (after A ρ f) := by
  induction t using Term.ind with
  | app g xs s ih =>
    rw [substitute, substituteAll_eq, eval_app, eval_app, map_map_congr ih]
  | builtin op xs ih =>
    rw [substitute, substituteAll_eq, eval_builtin, eval_builtin, map_map_congr ih]
  | closed xs ih =>
    rw [substitute, substituteAll_eq, eval_list, eval_list, map_map_congr ih]
    rfl
  | framed xs frame ih ihframe =>
    rw [substitute, substituteAll_eq, eval_mkList, eval_list, map_map_congr ih,
      evalFrame, evalFrame, ihframe]
  | ite c t e ihc iht ihe => rw [substitute, eval_ite, eval_ite, ihc, iht, ihe]
  | _ => rfl

/-- A substitution that agrees with the values of the variables does not change a value. -/
theorem eval_substitute_of_agree (f : Variable → Option Term)
    (h : ∀ v t, f v = some t → ρ v = t.eval A ρ) (t : Term) :
    (t.substitute f).eval A ρ = t.eval A ρ := by
  rw [eval_substitute]
  refine eval_congr A t fun v _ => ?_
  rw [after]
  cases hv : f v with
  | none => rfl
  | some u => exact (h v u hv).symm

end Term

/-! ## Statements -/

/-- Both sides have one value. -/
def Equality.Holds (A : Algebra V) (ρ : Variable → V) (e : Equality) : Prop :=
  e.lhs.eval A ρ = e.rhs.eval A ρ

/-- Every bound variable has the value of its term. -/
def Substitution.Holds (A : Algebra V) (ρ : Variable → V) (s : Substitution) : Prop :=
  ∀ entry ∈ s.entries, ρ entry.1 = entry.2.eval A ρ

namespace Formula

mutual

/-- Everything that a formula states holds; of each disjunction some alternative does. -/
def Holds (A : Algebra V) (ρ : Variable → V) : Formula → Prop
  | .falsified _ => False
  | .all s es ds => s.Holds A ρ ∧ (∀ e ∈ es, e.Holds A ρ) ∧ HoldsIn A ρ ds
termination_by structural φ => φ

def HoldsIn (A : Algebra V) (ρ : Variable → V) : List (List Formula) → Prop
  | [] => True
  | d :: ds => HoldsOf A ρ d ∧ HoldsIn A ρ ds
termination_by structural ds => ds

def HoldsOf (A : Algebra V) (ρ : Variable → V) : List Formula → Prop
  | [] => False
  | φ :: φs => φ.Holds A ρ ∨ HoldsOf A ρ φs
termination_by structural φs => φs

end

end Formula

/-- Some alternative holds. -/
def Disjunction.Holds (A : Algebra V) (ρ : Variable → V) (d : Disjunction) : Prop :=
  ∃ φ ∈ d, Formula.Holds A ρ φ

namespace Formula

variable (A : Algebra V) (ρ : Variable → V)

theorem holdsOf_iff (d : Disjunction) : HoldsOf A ρ d ↔ Disjunction.Holds A ρ d := by
  induction d with
  | nil => simp [HoldsOf, Disjunction.Holds]
  | cons φ d ih => rw [HoldsOf, ih]; simp [Disjunction.Holds]

theorem holdsIn_iff (ds : List Disjunction) : HoldsIn A ρ ds ↔ ∀ d ∈ ds, d.Holds A ρ := by
  induction ds with
  | nil => simp [HoldsIn]
  | cons d ds ih => rw [HoldsIn, ih, holdsOf_iff, List.forall_mem_cons]

theorem holds_all_iff (s : Substitution) (es : List Equality) (ds : List Disjunction) :
    (all s es ds).Holds A ρ ↔
      s.Holds A ρ ∧ (∀ e ∈ es, e.Holds A ρ) ∧ ∀ d ∈ ds, d.Holds A ρ := by
  rw [Holds, holdsIn_iff]

@[simp]
theorem not_holds_falsified (w : Equality) : ¬(falsified w).Holds A ρ := id

@[simp]
theorem holds_top : top.Holds A ρ := by
  rw [top, holds_all_iff]
  simp [Substitution.Holds, Substitution.empty]

end Formula

end Entail
