import Entail.Proofs.Stored
import Entail.Proofs.Sizes

set_option autoImplicit false

/-! # Adding equalities

An equality that gives a connective a truth value is taken apart when it determines the arguments,
and what it comes down to is added in its place, one after the other. Every step makes the
equalities smaller, so it ends with equalities that are not taken apart any further. The formula
then states what it stated before and the equality, however deep the connectives nest: an argument
that turns out true adds nothing, and one that turns out false refutes the formula. -/

namespace Entail

namespace Equality

/-- What the truth value `b` of a connective says of its arguments, if it determines them. -/
def argumentsOf? : Term → Bool → Option (List Equality)
  | .builtin .and [x, y], true => some [⟨x, .bool true⟩, ⟨y, .bool true⟩]
  | .builtin .or [x, y], false => some [⟨x, .bool false⟩, ⟨y, .bool false⟩]
  | .builtin .not [x], b => some [⟨x, .bool !b⟩]
  | _, _ => none

/-- An equality taken apart once, whichever of its sides is the truth value. -/
def decomposed? (e : Equality) : Option (List Equality) :=
  match e.lhs, e.rhs with
  | t, .bool b => argumentsOf? t b
  | .bool b, t => argumentsOf? t b
  | _, _ => none

/-- `q` is one of the equalities that `e` comes down to in one step. -/
def ComesTo (e q : Equality) : Prop := ∃ qs, e.decomposed? = some qs ∧ q ∈ qs

theorem splits_iff (t : Term) (b : Bool) : splits t b = true ↔ argumentsOf? t b ≠ none := by
  unfold splits argumentsOf?
  split <;> cases b <;> simp_all

theorem literals_of_not_splits {t : Term} {b : Bool} (h : argumentsOf? t b = none) :
    literals t b = [⟨t, .bool b⟩] := by
  rw [literals.eq_def]
  split <;> simp_all [argumentsOf?]

/-- Stating a truth value comes down to literals. -/
theorem parts_stated (t : Term) (b : Bool) : parts ⟨t, .bool b⟩ = literals t b := by
  dsimp only [parts]
  split
  · rfl
  · rename_i hsplits
    rw [splits_iff, not_not] at hsplits
    exact (literals_of_not_splits hsplits).symm

theorem literals_eq {t : Term} {b : Bool} {qs : List Equality} (h : argumentsOf? t b = some qs) :
    literals t b = qs.flatMap parts := by
  unfold argumentsOf? at h
  split at h
  · obtain rfl := Option.some.inj h
    simp [parts_stated, literals]
  · obtain rfl := Option.some.inj h
    simp [parts_stated, literals]
  · obtain rfl := Option.some.inj h
    simp [parts_stated, literals]
  · cases h

/-- The parts of an equality are those of the equalities that it comes down to. -/
theorem parts_eq (e : Equality) :
    e.parts = match e.decomposed? with
      | some qs => qs.flatMap parts
      | none => [e] := by
  have stated (t : Term) (b : Bool) :
      (if splits t b then literals t b else [e]) = match argumentsOf? t b with
        | some qs => qs.flatMap parts
        | none => [e] := by
    cases h : argumentsOf? t b with
    | none => rw [if_neg (by rw [splits_iff]; exact not_not.mpr h)]
    | some qs => rw [if_pos (by rw [splits_iff, h]; nofun), literals_eq h]
  obtain ⟨lhs, rhs⟩ := e
  dsimp only [parts, decomposed?]
  split
  · exact stated _ _
  · rename_i hright
    cases rhs with
    | bool b => exact (hright b rfl).elim
    | _ => exact stated _ _
  · rename_i hleft hright
    cases lhs with
    | bool b => exact (hleft b rfl).elim
    | _ =>
      cases rhs with
      | bool b => exact (hright b rfl).elim
      | _ => rfl

theorem size_lt_of_argumentsOf {t : Term} {b : Bool} {qs : List Equality}
    (h : argumentsOf? t b = some qs) : ∀ q ∈ qs, q.size < t.size + 1 := by
  unfold argumentsOf? at h
  split at h
  · obtain rfl := Option.some.inj h
    simp only [List.forall_mem_cons, size, Term.size, Term.sizeAll]
    exact ⟨by omega, by omega, List.forall_mem_nil _⟩
  · obtain rfl := Option.some.inj h
    simp only [List.forall_mem_cons, size, Term.size, Term.sizeAll]
    exact ⟨by omega, by omega, List.forall_mem_nil _⟩
  · obtain rfl := Option.some.inj h
    simp [size, Term.size, Term.sizeAll]
  · cases h

theorem ComesTo.size_lt {e q : Equality} (h : e.ComesTo q) : q.size < e.size := by
  obtain ⟨qs, hqs, hq⟩ := h
  obtain ⟨lhs, rhs⟩ := e
  dsimp only [decomposed?] at hqs
  split at hqs
  · exact size_lt_of_argumentsOf hqs q hq
  · have hlt := size_lt_of_argumentsOf hqs q hq
    simp only [size, Term.size] at hlt ⊢
    omega
  · cases hqs

/-- Taking apart ends. -/
theorem wellFounded_comesTo : WellFounded fun q e : Equality => e.ComesTo q :=
  Subrelation.wf ComesTo.size_lt (measure size).wf

/-- What is left is not taken apart any further. -/
theorem decomposed_of_mem_parts {e q : Equality} (h : q ∈ e.parts) : q.decomposed? = none := by
  induction e using wellFounded_comesTo.induction with
  | _ e ih =>
    rw [parts_eq] at h
    cases hqs : e.decomposed? with
    | none =>
      rw [hqs] at h
      rw [List.mem_singleton.mp h, hqs]
    | some qs =>
      rw [hqs] at h
      obtain ⟨p, hp, hq⟩ := List.mem_flatMap.mp h
      exact ih p ⟨qs, hqs, hp⟩ hq

end Equality

namespace Formula

/-- An equality is added by adding what it comes down to, if it is taken apart. -/
theorem addEquality_eq (φ : Formula) (e : Equality) :
    φ.addEquality e = match e.decomposed? with
      | some qs => φ.addEqualities qs
      | none => φ.addPart e := by
  rw [addEquality, Equality.parts_eq]
  cases e.decomposed? with
  | none => rfl
  | some qs => exact List.foldl_flatMap ..

theorem mem_addPart {φ : Formula} {e q : Equality} (h : q ∈ (φ.addPart e).equalities) :
    q ∈ φ.equalities ∨ q = e := by
  cases φ with
  | falsified w => exact absurd h List.not_mem_nil
  | all s es ds =>
    unfold addPart at h
    dsimp only at h
    split at h
    · exact .inl h
    · exact absurd h List.not_mem_nil
    · split at h
      · exact .inl h
      · exact (Sorted.mem_put _ h).symm

theorem mem_addEquality {φ : Formula} {e q : Equality} (h : q ∈ (φ.addEquality e).equalities) :
    q ∈ φ.equalities ∨ q ∈ e.parts := by
  unfold addEquality at h
  generalize e.parts = es at h ⊢
  induction es generalizing φ with
  | nil => exact .inl h
  | cons e es ih =>
    rcases ih h with h | h
    · refine (mem_addPart h).imp_right fun heq => ?_
      rw [heq]
      exact List.mem_cons_self ..
    · exact .inr (List.mem_cons_of_mem e h)

/-- `ψ` states what `φ` and the equalities state together, and what is new in it is not taken apart
    any further. -/
structure Extended (φ : Formula) (es : List Equality) (ψ : Formula) : Prop where
  holds_iff : ∀ {V : Type} (A : Algebra V) (ρ : Variable → V),
    ψ.Holds A ρ ↔ φ.Holds A ρ ∧ ∀ e ∈ es, e.Holds A ρ
  undivided : ∀ q ∈ ψ.equalities, q ∈ φ.equalities ∨ q.decomposed? = none

theorem extended_addEqualities {es : List Equality} (hes : ∀ e ∈ es, e.All Term.FlatHead)
    (φ : Formula) : φ.Extended es (φ.addEqualities es) where
  holds_iff _ _ := ⟨holds_of_addEqualities, fun h => holds_addEqualities hes h.2 h.1⟩
  undivided := by
    clear hes
    unfold addEqualities
    induction es generalizing φ with
    | nil => exact fun _ => .inl
    | cons e es ih =>
      intro q hq
      rcases ih (φ.addEquality e) q hq with h | h
      · exact (mem_addEquality h).imp_right Equality.decomposed_of_mem_parts
      · exact .inr h

theorem addConditions_eq (φ : Formula) (ts : List Term) :
    φ.addConditions ts = φ.addEqualities (ts.map fun t => ⟨t, .bool true⟩) := by
  rw [addConditions, addEqualities, List.foldl_map]
  rfl

/-- **Adding keeps exactly the right solutions.** Adding equalities with flat lists, one by one, as
    two terms, as conditions or as the bindings of a substitution, states them besides what the
    formula states. An equality is taken apart as long as it is about a connective that it
    determines, which ends, and nothing that is stored then can be taken apart. -/
theorem adding_keeps_exactly_solutions (φ : Formula) :
    (∀ e : Equality, e.All Term.FlatHead → φ.Extended [e] (φ.addEquality e)) ∧
    (∀ lhs rhs : Term, lhs.Flat → rhs.Flat → φ.Extended [⟨lhs, rhs⟩] (φ.addTerms lhs rhs)) ∧
    (∀ ts : List Term, (∀ t ∈ ts, t.Flat) →
      φ.Extended (ts.map fun t => ⟨t, .bool true⟩) (φ.addConditions ts)) ∧
    (∀ s : Substitution, (∀ entry ∈ s.entries, entry.2.Flat) →
      φ.Extended s.equalities (φ.addSubstitution s)) ∧
    (∀ es : List Equality, (∀ e ∈ es, e.All Term.FlatHead) → top.Extended es (ofEqualities es)) ∧
    (∀ e : Equality, φ.addEquality e = match e.decomposed? with
      | some qs => φ.addEqualities qs
      | none => φ.addPart e) ∧
    WellFounded fun q e : Equality => e.ComesTo q := by
  have single (e : Equality) (he : e.All Term.FlatHead) : φ.Extended [e] (φ.addEquality e) :=
    extended_addEqualities (List.forall_mem_singleton.mpr he) φ
  refine ⟨single, fun lhs rhs hl hr => single ⟨lhs, rhs⟩ ⟨hl, hr⟩, fun ts hts => ?_,
    fun s hs => ?_, fun es hes => extended_addEqualities hes top, addEquality_eq φ,
    Equality.wellFounded_comesTo⟩
  · have hes : ∀ t ∈ ts, (⟨t, .bool true⟩ : Equality).All Term.FlatHead :=
      fun t ht => ⟨hts t ht, trivial⟩
    rw [addConditions_eq]
    exact extended_addEqualities (List.forall_mem_map.mpr hes) φ
  · have hes : ∀ entry ∈ s.entries, (⟨.var entry.1, entry.2⟩ : Equality).All Term.FlatHead :=
      fun entry hentry => ⟨trivial, hs entry hentry⟩
    exact extended_addEqualities (List.forall_mem_map.mpr hes) φ

end Formula

/-! ### Nested connectives -/

namespace Connected

def p : Term := .var ⟨"P", .bool⟩

def q : Term := .var ⟨"Q", .bool⟩

def r : Term := .var ⟨"R", .bool⟩

def conj (x y : Term) : Term := .builtin .and [x, y]

def disj (x y : Term) : Term := .builtin .or [x, y]

def neg (x : Term) : Term := .builtin .not [x]

/-- `true = ¬(P ∨ ¬(Q ∧ ¬R))` -/
def nested : Equality := ⟨.bool true, neg (disj p (neg (conj q (neg r))))⟩

/-- It comes down to `P = false`, `Q = true` and `R = false`. -/
theorem adding_keeps_exactly_solutions_nested : nested.All Term.FlatHead ∧
    (Formula.ofEqualities [nested]).equalities =
      [⟨p, .bool false⟩, ⟨q, .bool true⟩, ⟨r, .bool false⟩] ∧
    ∀ (V : Type) (A : Algebra V) (ρ : Variable → V),
      (Formula.ofEqualities [nested]).Holds A ρ ↔ nested.Holds A ρ := by
  have hflat : nested.All Term.FlatHead := by
    simp [nested, neg, disj, conj, p, q, r, Equality.All, Term.All, Term.AllIn, Term.FlatHead]
  refine ⟨hflat, rfl, fun V A ρ => ?_⟩
  have hextended := (Formula.adding_keeps_exactly_solutions .top).1 nested hflat
  refine (hextended.holds_iff A ρ).trans ?_
  simp [Formula.holds_top]

end Connected

end Entail
