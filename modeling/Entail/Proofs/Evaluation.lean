import Entail.Proofs.Readings
import Entail.Proofs.Sets
import Entail.Formula.Facts
import Mathlib.Tactic.SplitIfs

set_option autoImplicit false

/-! # Evaluation keeps values

A term has the value of what it evaluates to wherever the facts that were used are true. What a
formula says about truth values is true wherever its bindings and equalities hold. -/

namespace Entail

variable {V : Type}

namespace Term

variable (A : Algebra V) (ρ : Variable → V)

/-- An assignment reads terms. -/
theorem reads_eval : A.Reads (eval A ρ) where
  bool _ := rfl
  int _ := rfl
  str _ := rfl
  constructor f xs s hf := by rw [eval_app, A.apply_constructor hf]
  list xs frame := by rw [eval_list]; cases frame <;> rfl

/-- Terms that clash have different values. -/
theorem clashes_sound {t u : Term} (ht : t.Flat) (hu : u.Flat) (h : t.clashes u = true) :
    t.eval A ρ ≠ u.eval A ρ :=
  (reads_eval A ρ).ne_of_clashes ht hu h

/-- A variable has not the value of a normal term around it. -/
theorem eval_ne_of_occurs {t : Term} (ht : t.Flat) (hnormal : t.isNormal = true) {v : Variable}
    (hne : t ≠ .var v) (hv : v ∈ t.occurrences) : ρ v ≠ t.eval A ρ :=
  (reads_eval A ρ).ne_of_occurs ht hnormal hne hv

end Term

/-! ## Evaluation -/

/-- Whatever truth value the facts give to a term, the term has it. -/
def Facts.Sound (A : Algebra V) (ρ : Variable → V) (facts : Facts) : Prop :=
  ∀ t b, facts t = some b → t.eval A ρ = A.bool b

theorem Facts.unknown_sound (A : Algebra V) (ρ : Variable → V) : Facts.unknown.Sound A ρ := nofun

variable {A : Algebra V} {ρ : Variable → V}

namespace Term

theorem isTrue_eq {t : Term} (h : t.isTrue = true) : t = .bool true := by
  rwa [isTrue, beq_iff_eq, asBool?_eq_some_iff] at h

theorem isFalse_eq {t : Term} (h : t.isFalse = true) : t = .bool false := by
  rwa [isFalse, beq_iff_eq, asBool?_eq_some_iff] at h

theorem eval_decide {facts : Facts} (hfacts : facts.Sound A ρ) (t : Term) :
    (facts.decide t).eval A ρ = t.eval A ρ := by
  rcases decide_cases facts t with hsame | ⟨b, hb, _, htold⟩
  · rw [hsame]
  · rw [htold]
    exact (hfacts t b hb).symm

theorem eval_conj (x y : Term) : (conj x y).eval A ρ = A.conj (x.eval A ρ) (y.eval A ρ) := by
  unfold conj
  split_ifs with hx hy hf
  · simp [isTrue_eq hx, eval]
  · simp [isTrue_eq hy, eval]
  · rcases Bool.or_eq_true _ _ ▸ hf with hf | hf <;> simp [isFalse_eq hf, eval]
  · rw [eval_builtin]
    rfl

theorem eval_disj (x y : Term) : (disj x y).eval A ρ = A.disj (x.eval A ρ) (y.eval A ρ) := by
  unfold disj
  split_ifs with hx hy hf
  · simp [isFalse_eq hx, eval, Algebra.disj, A.neg_neg]
  · simp [isFalse_eq hy, eval, Algebra.disj, A.neg_neg]
  · rcases Bool.or_eq_true _ _ ▸ hf with hf | hf <;> simp [isTrue_eq hf, eval, Algebra.disj]
  · rw [eval_builtin]
    rfl

theorem eval_neg (x : Term) : (neg x).eval A ρ = A.neg (x.eval A ρ) := by
  unfold neg
  split
  · rw [eval, eval, A.neg_bool]
  · rw [eval_builtin]
    exact (A.neg_neg _).symm
  · rw [eval_builtin]
    rfl

theorem eval_equal {x y : Term} (hx : x.Flat) (hy : y.Flat) :
    (equal x y).eval A ρ = A.equal (x.eval A ρ) (y.eval A ρ) := by
  unfold equal
  split_ifs with heq hclash
  · rw [eval_eq_of_beq A ρ heq, A.equal_self, eval]
  · rw [A.equal_of_ne (clashes_sound A ρ hx hy hclash), eval]
  · rw [eval_builtin]
    rfl

theorem eval_reduceBuiltin (op : Builtin) {xs : List Term} (hxs : ∀ x ∈ xs, x.Flat) :
    (reduceBuiltin op xs).eval A ρ = A.operate op (xs.map (eval A ρ)) := by
  unfold reduceBuiltin
  split
  · exact eval_conj _ _
  · exact eval_disj _ _
  · exact eval_neg _
  · exact eval_equal (hxs _ (by simp)) (hxs _ (by simp))
  · simp [eval, Algebra.operate, Algebra.arith, Algebra.int]
  · simp [eval, Algebra.operate, Algebra.arith, Algebra.int]
  · simp [eval, Algebra.operate, Algebra.arith, Algebra.int]
  · simp [eval, Algebra.operate, Algebra.arith, Algebra.int]
  · exact eval_builtin A ρ _ _

/-- A term has the value of what it evaluates to. -/
theorem eval_evaluate (voc : Vocabulary) {facts : Facts} (hfacts : facts.Sound A ρ) (t : Term) :
    (t.evaluate voc facts).eval A ρ = t.eval A ρ := by
  induction t using Term.ind with
  | var v => rw [evaluate, eval_decide hfacts]
  | app f xs s ih =>
    rw [evaluate, eval_decide hfacts, Vocabulary.apply, eval_app, eval_app, evaluateAll_eq,
      map_map_congr ih]
  | builtin op xs ih =>
    rw [evaluate, eval_decide hfacts, eval_reduceBuiltin, eval_builtin, evaluateAll_eq,
      map_map_congr ih]
    rw [evaluateAll_eq, List.forall_mem_map]
    exact fun x _ => flat_evaluate voc facts x
  | closed xs ih =>
    rw [evaluate, eval_list, eval_list, evaluateAll_eq, map_map_congr ih]
  | framed xs frame ih ihframe =>
    rw [evaluate, eval_mkList, eval_list, evaluateAll_eq, map_map_congr ih, evalFrame, ihframe]
    rfl
  | ite c t e ihc iht ihe =>
    rw [eval_ite, ← ihc, ← iht, ← ihe, evaluate]
    split
    · rename_i hc
      rw [hc, eval, Algebra.choose, A.isTrue_bool, if_pos rfl]
    · rename_i hc
      rw [hc, eval, Algebra.choose, A.isTrue_bool, if_neg Bool.false_ne_true]
    · rw [mergeBranches]
      split
      · rename_i heq
        rw [eval_eq_of_beq A ρ heq, Algebra.choose, ite_self]
      · rw [eval_decide hfacts, eval_ite]
  | _ => rfl

/-- Rewriting with what holds does not change a value. -/
theorem eval_rewrite (voc : Vocabulary) {facts : Facts} (hfacts : facts.Sound A ρ)
    {f : Variable → Option Term} (hf : ∀ v t, f v = some t → ρ v = t.eval A ρ) (t : Term) :
    (t.rewrite voc facts f).eval A ρ = t.eval A ρ := by
  rw [rewrite, eval_evaluate voc hfacts, eval_substitute_of_agree A ρ f hf]

end Term

/-! ## Facts -/

theorem Substitution.mem_of_get? {s : Substitution} {v : Variable} {t : Term}
    (h : s.get? v = some t) : (v, t) ∈ s.entries := by
  obtain ⟨before, after, heq, _⟩ := List.lookup_eq_some_iff.mp h
  rw [heq]
  exact List.mem_append_right _ (List.mem_cons_self ..)

theorem Substitution.Holds.get? {s : Substitution} (hs : s.Holds A ρ) (v : Variable) (t : Term)
    (h : s.get? v = some t) : ρ v = t.eval A ρ :=
  hs (v, t) (mem_of_get? h)

namespace Facts

theorem fromSides_sound {t fact token : Term} {b : Bool} (h : fromSides t fact token = some b)
    (he : fact.eval A ρ = token.eval A ρ) : t.eval A ρ = A.bool b := by
  unfold fromSides at h
  split at h
  · split at h
    · rename_i value heq
      obtain rfl := Option.some.inj h
      rw [← Term.eval_eq_of_beq A ρ heq, he, Term.eval]
    · exact absurd h (by simp)
  · exact absurd h (by simp)

theorem asEquation?_eq {t lhs rhs : Term} (h : t.asEquation? = some (lhs, rhs)) :
    t = .builtin .eq [lhs, rhs] := by
  unfold Term.asEquation? at h
  split at h
  · obtain ⟨rfl, rfl⟩ := Prod.mk.inj (Option.some.inj h)
    rfl
  · exact absurd h nofun

theorem eval_equation (lhs rhs : Term) :
    (Term.builtin .eq [lhs, rhs]).eval A ρ = A.bool true ↔ lhs.eval A ρ = rhs.eval A ρ := by
  rw [Term.eval_builtin]
  exact A.equal_eq_true_iff _ _

theorem fromEquation_sound {t : Term} {e : Equality} {b : Bool}
    (h : fromEquation t e = some b) (he : e.Holds A ρ) : t.eval A ρ = A.bool b := by
  rw [fromEquation] at h
  split at h
  · rename_i lhs rhs ht
    split at h
    · rename_i hsides
      obtain rfl := Option.some.inj h
      rw [asEquation?_eq ht, eval_equation]
      rw [Bool.or_eq_true, Bool.and_eq_true, Bool.and_eq_true] at hsides
      rcases hsides with ⟨hl, hr⟩ | ⟨hl, hr⟩
      · rw [Term.eval_eq_of_beq A ρ hl, Term.eval_eq_of_beq A ρ hr, he]
      · rw [Term.eval_eq_of_beq A ρ hl, Term.eval_eq_of_beq A ρ hr, he]
    · exact absurd h nofun
  · exact absurd h nofun

theorem fromEquality_sound {t : Term} {e : Equality} {b : Bool}
    (h : fromEquality t e = some b) (he : e.Holds A ρ) : t.eval A ρ = A.bool b := by
  rw [fromEquality, Option.or_eq_some_iff, Option.or_eq_some_iff] at h
  rcases h with h | ⟨_, h | ⟨_, h⟩⟩
  · exact fromSides_sound h he
  · exact fromSides_sound h he.symm
  · exact fromEquation_sound h he

theorem fromBindings_sound {s : Substitution} (hs : s.Holds A ρ) {t : Term} {b : Bool}
    (h : fromBindings s t = some b) : t.eval A ρ = A.bool b := by
  unfold fromBindings at h
  split at h
  · rename_i v
    split at h
    · rename_i value hv
      obtain rfl := Option.some.inj h
      exact hs.get? v _ hv
    · exact absurd h nofun
  · rename_i v rhs
    split at h
    · rename_i bound hv
      split at h
      · rename_i heq
        obtain rfl := Option.some.inj h
        rw [eval_equation, ← Term.eval_eq_of_beq A ρ heq]
        exact hs.get? v _ hv
      · exact absurd h nofun
    · exact absurd h nofun
  · exact absurd h nofun

/-- What bindings and equalities say about truth values is true where they hold. -/
theorem ofParts_sound {s : Substitution} {es : List Equality} (hs : s.Holds A ρ)
    (hes : ∀ e ∈ es, e.Holds A ρ) : Facts.Sound A ρ (ofParts s es) := by
  have base (t : Term) (b : Bool)
      (h : fromBindings s t = some b ∨ es.findSome? (fromEquality t) = some b) :
      t.eval A ρ = A.bool b := by
    rcases h with h | h
    · exact fromBindings_sound hs h
    · obtain ⟨e, he, h⟩ := List.exists_of_findSome?_eq_some h
      exact fromEquality_sound h (hes e he)
  intro t
  induction t using Term.ind with
  | builtin op xs ih =>
    intro b h
    rw [ofParts.eq_def] at h
    split at h
    · rename_i x heq
      obtain ⟨rfl, rfl⟩ := Term.builtin.inj heq
      obtain ⟨c, hc, rfl⟩ := Option.map_eq_some_iff.mp h
      have hx := ih x (List.mem_singleton.mpr rfl) c hc
      rw [Term.eval_builtin, List.map_singleton, hx]
      exact A.neg_bool c
    · split at h
      · rename_i hvalue
        exact base _ b (.inl (hvalue.trans h))
      · exact base _ b (.inr h)
  | _ =>
    intro b h
    rw [ofParts] at h
    · split at h
      · rename_i hvalue
        exact base _ b (.inl (hvalue.trans h))
      · exact base _ b (.inr h)
    · simp

end Facts

/-! ## Equalities -/

namespace Equality

theorem truth_true_iff (e : Equality) : e.truth = .true ↔ (e.lhs == e.rhs) = true := by
  rw [truth]
  split_ifs <;> simp_all

theorem holds_of_truth {e : Equality} (h : e.truth = .true) : e.Holds A ρ :=
  Term.eval_eq_of_beq A ρ ((truth_true_iff e).mp h)

theorem not_holds_of_truth {e : Equality} (hl : e.lhs.Flat) (hr : e.rhs.Flat)
    (h : e.truth = .false) : ¬e.Holds A ρ := by
  rw [truth] at h
  split_ifs at h with _ hclash
  exact Term.clashes_sound A ρ hl hr hclash

theorem holds_reversed_iff (e : Equality) : e.reversed.Holds A ρ ↔ e.Holds A ρ :=
  eq_comm

theorem holds_congr {e e' : Equality} (h : e.cmp e' = .eq) : e.Holds A ρ ↔ e'.Holds A ρ := by
  obtain ⟨hl, hr⟩ := Equality.mk.inj ((cmp_eq_iff e e').mp h)
  rw [Holds, Holds, ← Term.eval_bare A ρ e.lhs, ← Term.eval_bare A ρ e.rhs, hl, hr,
    Term.eval_bare, Term.eval_bare]

theorem holds_rewrite_iff (voc : Vocabulary) {facts : Facts} (hfacts : facts.Sound A ρ)
    {f : Variable → Option Term} (hf : ∀ v t, f v = some t → ρ v = t.eval A ρ) (e : Equality) :
    (e.rewrite voc facts f).Holds A ρ ↔ e.Holds A ρ := by
  rw [Holds, rewrite, Term.eval_rewrite voc hfacts hf, Term.eval_rewrite voc hfacts hf, Holds]

/-- The literals of a term hold together just when the term has the truth value. -/
theorem literals_hold_iff (t : Term) (b : Bool) :
    (∀ e ∈ literals t b, e.Holds A ρ) ↔ t.eval A ρ = A.bool b := by
  induction t using Term.ind generalizing b with
  | builtin op xs ih =>
    rw [literals.eq_def]
    split
    · rename_i x y heq
      obtain ⟨rfl, rfl⟩ := Term.builtin.inj heq
      rw [List.forall_mem_append, ih x (by simp), ih y (by simp), Term.eval_builtin]
      exact (A.conj_eq_true_iff _ _).symm
    · rename_i x y heq
      obtain ⟨rfl, rfl⟩ := Term.builtin.inj heq
      rw [List.forall_mem_append, ih x (by simp), ih y (by simp), Term.eval_builtin]
      exact (A.disj_eq_false_iff _ _).symm
    · rename_i b x heq
      obtain ⟨rfl, rfl⟩ := Term.builtin.inj heq
      rw [ih x (by simp), Term.eval_builtin]
      exact (A.neg_eq_bool_iff _ _).symm
    · rw [List.forall_mem_singleton]
      rfl
  | _ =>
    rw [literals]
    · rw [List.forall_mem_singleton]
      rfl
    all_goals nofun

/-- The parts of an equality hold together just when the equality does. -/
theorem parts_hold_iff (e : Equality) : (∀ p ∈ e.parts, p.Holds A ρ) ↔ e.Holds A ρ := by
  have split {t : Term} {b : Bool} (e : Equality) (he : e.Holds A ρ ↔ t.eval A ρ = A.bool b) :
      (∀ p ∈ if splits t b then literals t b else [e], p.Holds A ρ) ↔ e.Holds A ρ := by
    split
    · rw [literals_hold_iff, he]
    · exact List.forall_mem_singleton
  obtain ⟨lhs, rhs⟩ := e
  dsimp only [parts]
  split
  · exact split _ Iff.rfl
  · exact split _ eq_comm
  · exact List.forall_mem_singleton

end Equality

end Entail
