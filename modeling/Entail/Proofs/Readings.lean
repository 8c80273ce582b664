import Entail.Proofs.Algebra
import Entail.Proofs.Subterms

set_option autoImplicit false

/-! # Readings of terms

What the shapes of terms tell about their values rests on tokens, constructors and lists alone. A
reading gives values to terms and keeps these free; whatever else a term is made of may be read in
any way, even such that equal arguments give different values. In each reading terms that clash have
different values, and a variable has not the value of a normal term around it. -/

namespace Entail

variable {V : Type}

namespace Algebra

variable (A : Algebra V)

/-- Values for terms in which tokens, applications of constructors and lists are free. -/
structure Reads (value : Term → V) : Prop where
  bool : ∀ b, value (.bool b) = A.bool b
  int : ∀ n, value (.int n) = A.int n
  str : ∀ s, value (.str s) = A.str s
  constructor : ∀ f xs s, f.isConstructor = true →
    value (.app f xs s) = A.make (.con f.name (xs.map value))
  list : ∀ xs frame, value (.list xs frame) = A.prepend (xs.map value) (frame.elim A.nil value)

/-! ## Lists of values -/

/-- Two lists are equal when they agree at the common positions and what is left of them is
    equal. -/
theorem prepend_eq_iff (vs ws : List V) (tail tail' : V) :
    A.prepend vs tail = A.prepend ws tail' ↔ (∀ p ∈ vs.zip ws, p.1 = p.2) ∧
      A.prepend (vs.drop ws.length) tail = A.prepend (ws.drop vs.length) tail' := by
  induction vs generalizing ws with
  | nil => simp
  | cons v vs ih =>
    cases ws with
    | nil => simp
    | cons w ws =>
      rw [prepend_cons, prepend_cons, A.cons_inj, ih, List.zip_cons_cons, List.forall_mem_cons]
      simp only [List.length_cons, List.drop_succ_cons, and_assoc]

theorem prepend_ne_nil {vs : List V} (h : vs ≠ []) (tail : V) : A.prepend vs tail ≠ A.nil := by
  obtain ⟨v, vs, rfl⟩ := List.exists_cons_of_ne_nil h
  exact A.cons_ne_nil v _

/-- A closed list is not a longer one. -/
theorem prepend_nil_ne {vs ws : List V} (h : vs.length < ws.length) (tail : V) :
    A.prepend vs A.nil ≠ A.prepend ws tail := by
  intro heq
  have hrest := ((A.prepend_eq_iff vs ws A.nil tail).mp heq).2
  rw [List.drop_of_length_le (Nat.le_of_lt h), prepend_nil] at hrest
  have hleft : ws.drop vs.length ≠ [] := by
    rw [Ne, List.drop_eq_nil_iff]
    omega
  exact A.prepend_ne_nil hleft tail hrest.symm

theorem height_lt_cons_left (v tail : V) : A.height v < A.height (A.cons v tail) :=
  A.height_lt (.cons v tail) v (List.mem_cons_self ..)

theorem height_lt_cons_right (v tail : V) : A.height tail < A.height (A.cons v tail) :=
  A.height_lt (.cons v tail) tail (List.mem_cons_of_mem _ (List.mem_cons_self ..))

theorem height_lt_prepend {vs : List V} {v : V} (h : v ∈ vs) (tail : V) :
    A.height v < A.height (A.prepend vs tail) := by
  induction vs with
  | nil => exact absurd h List.not_mem_nil
  | cons w vs ih =>
    rw [prepend_cons]
    rcases List.mem_cons.mp h with rfl | h
    · exact A.height_lt_cons_left v _
    · exact Nat.lt_trans (ih h) (A.height_lt_cons_right w _)

theorem height_tail_le (vs : List V) (tail : V) :
    A.height tail ≤ A.height (A.prepend vs tail) := by
  induction vs with
  | nil => exact Nat.le_refl _
  | cons w vs ih => exact Nat.le_trans ih (Nat.le_of_lt (A.height_lt_cons_right w _))

theorem height_tail_lt {vs : List V} (h : vs ≠ []) (tail : V) :
    A.height tail < A.height (A.prepend vs tail) := by
  obtain ⟨w, vs, rfl⟩ := List.exists_cons_of_ne_nil h
  exact Nat.lt_of_le_of_lt (A.height_tail_le vs tail) (A.height_lt_cons_right w _)

end Algebra

/-! ## Kinds of heads -/

/-- The kind of a free head. -/
def Shape.tag : Shape V → Nat
  | .bool _ => 0
  | .int _ => 1
  | .str _ => 2
  | .con _ _ => 3
  | .nil => 4
  | .cons _ _ => 4

theorem map_eq_map_iff_zip {α β : Type} (f : α → β) (xs ys : List α) :
    xs.map f = ys.map f ↔ xs.length = ys.length ∧ ∀ p ∈ xs.zip ys, f p.1 = f p.2 := by
  induction xs generalizing ys with
  | nil => cases ys <;> simp
  | cons x xs ih =>
    cases ys with
    | nil => simp
    | cons y ys =>
      rw [List.map_cons, List.map_cons, List.cons.injEq, ih, List.zip_cons_cons,
        List.forall_mem_cons, List.length_cons, List.length_cons, Nat.add_right_cancel_iff]
      tauto

namespace Term

/-- The kind of head that the value of a term has, if the term shows it. -/
def freeTag : Term → Option Nat
  | .bool _ => some 0
  | .int _ => some 1
  | .str _ => some 2
  | .app f _ _ => if f.isConstructor then some 3 else none
  | .list _ _ => some 4
  | _ => none

/-- Neither are both terms applications nor both lists. -/
def Mixed (t u : Term) : Prop := (t.rank = 4 → u.rank ≠ 4) ∧ (t.rank = 6 → u.rank ≠ 6)

/-- Apart from two applications and two lists, terms clash as distinct tokens or because their heads
    are of different kinds. -/
theorem clashes_mixed {t u : Term} (h : t.clashes u = true) (hmixed : Mixed t u) :
    (t.isToken = true ∧ u.isToken = true ∧ (t != u) = true) ∨
      ∃ m n, t.freeTag = some m ∧ u.freeTag = some n ∧ m ≠ n := by
  cases t with
  | app f xs s =>
    cases u with
    | app g ys s' => exact absurd rfl (hmixed.1 rfl)
    | _ => simp_all [clashes, isToken, freeTag]
  | list xs frame =>
    cases u with
    | list ys frame' => exact absurd rfl (hmixed.2 rfl)
    | _ => simp_all [clashes, isToken, freeTag]
  | _ => cases u <;> simp_all [clashes, isToken, freeTag]

end Term

namespace Algebra.Reads

open Term (Mixed)

variable {A : Algebra V} {value : Term → V} (hvalue : A.Reads value)

include hvalue

theorem exists_shape {t : Term} {n : Nat} (ht : t.FlatHead) (hn : t.freeTag = some n) :
    ∃ s : Shape V, value t = A.make s ∧ s.tag = n := by
  cases t with
  | bool b => exact ⟨.bool b, hvalue.bool b, Option.some.inj hn⟩
  | int m => exact ⟨.int m, hvalue.int m, Option.some.inj hn⟩
  | str u => exact ⟨.str u, hvalue.str u, Option.some.inj hn⟩
  | app f xs s =>
    rw [Term.freeTag] at hn
    split at hn
    · rename_i hf
      exact ⟨_, hvalue.constructor f xs s hf, Option.some.inj hn⟩
    · exact absurd hn nofun
  | list xs frame =>
    rw [hvalue.list]
    cases xs with
    | nil =>
      cases frame with
      | none => exact ⟨.nil, rfl, Option.some.inj hn⟩
      | some u => exact absurd rfl ht.1
    | cons x xs => exact ⟨.cons _ _, rfl, Option.some.inj hn⟩
  | _ => exact absurd hn nofun

theorem ne_of_freeTag {t u : Term} {m n : Nat} (ht : t.FlatHead) (hu : u.FlatHead)
    (hm : t.freeTag = some m) (hn : u.freeTag = some n) (hne : m ≠ n) : value t ≠ value u := by
  obtain ⟨s, hs, rfl⟩ := hvalue.exists_shape ht hm
  obtain ⟨s', hs', rfl⟩ := hvalue.exists_shape hu hn
  rw [hs, hs']
  intro h
  exact hne (congrArg Shape.tag (A.make_injective h))

theorem tokens_ne {t u : Term} (ht : t.isToken = true) (hu : u.isToken = true)
    (hne : (t != u) = true) : value t ≠ value u := by
  intro h
  cases t <;> cases u <;>
    simp_all [Term.isToken, hvalue.bool, hvalue.int, hvalue.str, Algebra.bool, Algebra.int,
      Algebra.str, bne]

/-! ## Clashes -/

omit hvalue in
theorem clash_in_common {xs ys : List Term}
    (ih : ∀ x ∈ xs, ∀ u : Term, x.Flat → u.Flat → x.clashes u = true → value x ≠ value u)
    (hxs : ∀ x ∈ xs, x.Flat) (hys : ∀ y ∈ ys, y.Flat) (h : Term.clashesSomewhere xs ys = true) :
    ¬∀ p ∈ xs.zip ys, value p.1 = value p.2 := by
  intro hall
  obtain ⟨p, hp, hclash⟩ := (Term.clashesSomewhere_iff xs ys).mp h
  obtain ⟨hx, hy⟩ := List.of_mem_zip hp
  exact ih p.1 hx p.2 (hxs _ hx) (hys _ hy) hclash (hall p hp)

theorem ne_of_shorterIsClosed {xs ys : List Term} {frame frame' : Option Term}
    (h : Term.shorterIsClosed xs frame ys frame' = true) :
    value (.list xs frame) ≠ value (.list ys frame') := by
  rw [hvalue.list, hvalue.list]
  simp only [Term.shorterIsClosed, Bool.or_eq_true, Bool.and_eq_true, decide_eq_true_iff,
    Option.isNone_iff_eq_none] at h
  rcases h with ⟨hlt, rfl⟩ | ⟨hlt, rfl⟩
  · exact A.prepend_nil_ne (by simpa using hlt) _
  · exact (A.prepend_nil_ne (by simpa using hlt) _).symm

/-- Terms that clash have different values. -/
theorem ne_of_clashes {t u : Term} (ht : t.Flat) (hu : u.Flat) (h : t.clashes u = true) :
    value t ≠ value u := by
  have lists {xs ys : List Term} {frame frame' : Option Term}
      (ih : ∀ x ∈ xs, ∀ u : Term, x.Flat → u.Flat → x.clashes u = true → value x ≠ value u)
      (ht : (Term.list xs frame).Flat) (hu : (Term.list ys frame').Flat)
      (h : (Term.list xs frame).clashes (.list ys frame') = true) :
      value (.list xs frame) ≠ value (.list ys frame') := by
    rw [Term.clashes, Bool.or_eq_true] at h
    rcases h with h | h
    · exact hvalue.ne_of_shorterIsClosed h
    · intro heq
      rw [hvalue.list, hvalue.list, A.prepend_eq_iff, List.zip_map, List.forall_mem_map] at heq
      exact clash_in_common ih ((Term.all_list_iff xs frame).mp ht).2.1
        ((Term.all_list_iff ys frame').mp hu).2.1 h heq.1
  have mixed {t u : Term} (ht : t.Flat) (hu : u.Flat) (h : t.clashes u = true)
      (hmixed : Mixed t u) : value t ≠ value u := by
    rcases Term.clashes_mixed h hmixed with ⟨htok, hutok, hne⟩ | ⟨m, n, hm, hn, hne⟩
    · exact hvalue.tokens_ne htok hutok hne
    · exact hvalue.ne_of_freeTag ht.head hu.head hm hn hne
  induction t using Term.ind generalizing u with
  | app f xs s ih =>
    cases u with
    | app g ys s' =>
      simp only [Term.clashes, Bool.and_eq_true, Bool.or_eq_true] at h
      obtain ⟨⟨hf, hg⟩, h⟩ := h
      rw [hvalue.constructor f xs s hf, hvalue.constructor g ys s' hg]
      intro heq
      obtain ⟨hname, hargs⟩ := Shape.con.inj (A.make_injective heq)
      obtain ⟨hlen, hcommon⟩ := (map_eq_map_iff_zip _ _ _).mp hargs
      rcases h with (h | h) | h
      · have hkind : f.kind = g.kind := by
          rw [Symbol.isConstructor, beq_iff_eq] at hf hg
          rw [hf, hg]
        simp [(Symbol.same_iff f g).mpr ⟨hname, hkind⟩] at h
      · simp [hlen] at h
      · exact clash_in_common (fun x hx u => ih x hx) ((Term.all_app_iff f xs s).mp ht).2
          ((Term.all_app_iff g ys s').mp hu).2 h hcommon
    | _ => exact mixed ht hu h (by simp [Mixed, Term.rank])
  | closed xs ih =>
    cases u with
    | list ys frame' => exact lists (fun x hx u => ih x hx) ht hu h
    | _ => exact mixed ht hu h (by simp [Mixed, Term.rank])
  | framed xs frame ih _ =>
    cases u with
    | list ys frame' => exact lists (fun x hx u => ih x hx) ht hu h
    | _ => exact mixed ht hu h (by simp [Mixed, Term.rank])
  | _ => exact mixed ht hu h (by simp [Mixed, Term.rank])

/-! ## Occurrence in normal terms -/

/-- A variable inside a normal term has a lower value than the term. -/
theorem height_lt {t : Term} (ht : t.Flat) (hnormal : t.isNormal = true) {v : Variable}
    (hv : v ∈ t.occurrences) : t = .var v ∨ A.height (value (.var v)) < A.height (value t) := by
  have below {xs : List Term} (hxs : ∀ x ∈ xs, x.Flat) (hnormal : Term.allNormal xs = true)
      (ih : ∀ x ∈ xs, x.Flat → x.isNormal = true → v ∈ x.occurrences →
        x = .var v ∨ A.height (value (.var v)) < A.height (value x))
      (hv : v ∈ Term.allOccurrences xs) :
      ∃ x ∈ xs, A.height (value (.var v)) ≤ A.height (value x) := by
    rw [Term.allOccurrences_eq, List.mem_flatMap] at hv
    obtain ⟨x, hx, hv⟩ := hv
    rw [Term.allNormal_eq, List.all_eq_true] at hnormal
    rcases ih x hx (hxs x hx) (hnormal x hx) hv with rfl | hlt
    · exact ⟨.var v, hx, Nat.le_refl _⟩
    · exact ⟨x, hx, Nat.le_of_lt hlt⟩
  induction t using Term.ind with
  | var w =>
    obtain rfl := List.mem_singleton.mp hv
    exact Or.inl rfl
  | app f xs s ih =>
    rw [Term.isNormal, Bool.and_eq_true] at hnormal
    obtain ⟨x, hx, hle⟩ := below ((Term.all_app_iff f xs s).mp ht).2 hnormal.2 ih hv
    have hlt := A.height_lt (.con f.name (xs.map value)) (value x) (List.mem_map_of_mem hx)
    rw [hvalue.constructor f xs s hnormal.1]
    exact Or.inr (Nat.lt_of_le_of_lt hle hlt)
  | closed xs ih =>
    obtain ⟨x, hx, hle⟩ := below ((Term.all_list_iff xs none).mp ht).2.1 hnormal ih hv
    rw [hvalue.list]
    exact Or.inr (Nat.lt_of_le_of_lt hle (A.height_lt_prepend (List.mem_map_of_mem hx) _))
  | framed xs frame ih ihframe =>
    obtain ⟨⟨hne, _⟩, hxs, hframe⟩ := (Term.all_list_iff xs (some frame)).mp ht
    rw [Term.isNormal, Bool.and_eq_true] at hnormal
    rw [hvalue.list, Option.elim_some]
    rcases List.mem_append.mp hv with hv | hv
    · obtain ⟨x, hx, hle⟩ := below hxs hnormal.1 ih hv
      exact Or.inr (Nat.lt_of_le_of_lt hle (A.height_lt_prepend (List.mem_map_of_mem hx) _))
    · have hne : xs.map value ≠ [] := mt List.map_eq_nil_iff.mp hne
      have htail := A.height_tail_lt hne (value frame)
      rcases ihframe (hframe frame rfl) hnormal.2 hv with rfl | hlt
      · exact Or.inr htail
      · exact Or.inr (Nat.lt_trans hlt htail)
  | _ => simp [Term.occurrences, Term.isNormal] at hv hnormal

/-- No value is inside itself. -/
theorem ne_of_occurs {t : Term} (ht : t.Flat) (hnormal : t.isNormal = true) {v : Variable}
    (hne : t ≠ .var v) (hv : v ∈ t.occurrences) : value (.var v) ≠ value t := by
  intro heq
  have hlt := (hvalue.height_lt ht hnormal hv).resolve_left hne
  rw [heq] at hlt
  exact Nat.lt_irrefl _ hlt

end Algebra.Reads

end Entail
