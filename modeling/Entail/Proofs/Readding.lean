import Entail.Proofs.Adding
import Entail.Proofs.Carrying
import Entail.Proofs.Ordering
import Entail.Proofs.Representation
import Entail.Proofs.Solutions

set_option autoImplicit false

/-! # Adding the equalities of a result again

Adding takes an equality apart, as far as it can, and drops one whose reversal is there.
Simplification does neither with the equalities that it has rewritten: they are sorted into the
result as they are. So adding the equalities of a result again gives them back only where none of
them can be taken apart and none stands besides its reversal; it always states the same. An equality
that can be taken apart comes from a connective in the formula. -/

namespace Entail

namespace Equality

/-- None of the equalities stands besides its reversal. -/
def Unreversed (es : List Equality) : Prop := ∀ p ∈ es, ∀ q ∈ es, p.reversed.bare ≠ q.bare

/-- None of the equalities can be taken apart or stands besides its reversal. -/
structure Normal (es : List Equality) : Prop where
  undivided : ∀ e ∈ es, e.decomposed? = none
  unreversed : Unreversed es

theorem contains_reversed_iff (e : Equality) (es : List Equality) :
    Sorted.contains cmp e.reversed es = true ↔ ∃ q ∈ es, e.reversed.bare = q.bare := by
  simp only [Sorted.contains_iff, Ordering.isEq_iff_eq_eq, cmp_eq_iff]

theorem bare_reversed (e : Equality) : e.reversed.bare = e.bare.reversed := rfl

/-- An open equality is not its own reversal. -/
theorem IsOpen.bare_reversed_ne {e : Equality} (h : e.IsOpen) : e.reversed.bare ≠ e.bare := by
  intro heq
  have htruth := h.truth_eq
  have hsides : (e.lhs == e.rhs) = true :=
    (Term.beq_iff _ _).mpr (congrArg Equality.rhs heq)
  rw [truth, if_pos hsides] at htruth
  cases htruth

end Equality

namespace Formula

/-! ## Adding open equalities that are not taken apart -/

theorem addPart_of_isOpen {e : Equality} (he : e.IsOpen) (s : Substitution) (es : List Equality)
    (ds : List Disjunction) : (all s es ds).addPart e =
      if Sorted.contains Equality.cmp e.reversed es then .all s es ds
      else .all s (Sorted.put Equality.cmp e es) ds := by
  unfold addPart
  rw [he.truth_eq]

/-- Where no equality is taken apart, all are kept whose reversal was not kept before. -/
theorem addEqualities_of_undivided {es : List Equality} (hopen : ∀ e ∈ es, e.IsOpen)
    (hundivided : ∀ e ∈ es, e.decomposed? = none) (s : Substitution) (ds : List Disjunction)
    (kept : List Equality) (hes : Sorted.Ascending Equality.cmp (kept ++ es)) :
    ∃ new, (all s kept ds).addEqualities es = .all s (kept ++ new) ds ∧ new.Sublist es ∧
      ∀ e ∈ es, e ∈ new ∨ Sorted.contains Equality.cmp e.reversed (kept ++ new) = true := by
  induction es generalizing kept with
  | nil => exact ⟨[], by rw [List.append_nil]; rfl, .slnil, nofun⟩
  | cons e es ih =>
    rw [List.forall_mem_cons] at hopen hundivided
    have hadd : (all s kept ds).addEquality e = (all s kept ds).addPart e := by
      rw [addEquality_eq, hundivided.1]
    rw [addEqualities, List.foldl_cons, hadd, addPart_of_isOpen hopen.1]
    split
    · rename_i hreversed
      have hrest : Sorted.Ascending Equality.cmp (kept ++ es) :=
        hes.sublist ((List.sublist_cons_self e es).append_left kept)
      obtain ⟨new, hnew, hsub, hcovered⟩ := ih hopen.2 hundivided.2 _ hrest
      refine ⟨new, hnew, hsub.cons e, List.forall_mem_cons.mpr ⟨.inr ?_, hcovered⟩⟩
      obtain ⟨q, hq, heq⟩ := (Equality.contains_reversed_iff e kept).mp hreversed
      exact (Equality.contains_reversed_iff e _).mpr ⟨q, List.mem_append_left new hq, heq⟩
    · have hlast : ∀ q ∈ kept, q.cmp e = .lt := fun q hq =>
        (List.pairwise_append.mp hes).2.2 q hq e (List.mem_cons_self ..)
      rw [Sorted.put_eq_append hlast]
      have hrest : Sorted.Ascending Equality.cmp (kept ++ [e] ++ es) := by
        rwa [List.append_assoc]
      obtain ⟨new, hnew, hsub, hcovered⟩ := ih hopen.2 hundivided.2 _ hrest
      rw [List.append_assoc] at hnew hcovered
      refine ⟨e :: new, hnew, hsub.cons_cons e, List.forall_mem_cons.mpr
        ⟨.inl (List.mem_cons_self ..), fun q hq => ?_⟩⟩
      exact (hcovered q hq).imp_left (List.mem_cons_of_mem e)

/-- An equality is added only where its reversal is not there. -/
theorem unreversed_addPart {φ : Formula} (hφ : Equality.Unreversed φ.equalities) (e : Equality) :
    Equality.Unreversed (φ.addPart e).equalities := by
  cases φ with
  | falsified w => exact hφ
  | all s es ds =>
    unfold addPart
    dsimp only
    split
    · exact hφ
    · exact nofun
    · rename_i htruth
      split
      · exact hφ
      · rename_i hreversed
        have hnew : ∀ q ∈ es, e.reversed.bare ≠ q.bare := fun q hq heq =>
          hreversed ((Equality.contains_reversed_iff e es).mpr ⟨q, hq, heq⟩)
        intro p hp q hq
        rcases Sorted.mem_put _ hp with hpe | hpes <;> rcases Sorted.mem_put _ hq with hqe | hqes
        · rw [hpe, hqe]
          exact (Equality.isOpen_of_truth htruth).bare_reversed_ne
        · rw [hpe]
          exact hnew q hqes
        · rw [hqe]
          intro heq
          refine hnew p hpes ?_
          rw [Equality.bare_reversed, ← heq]
          rfl
        · exact hφ p hpes q hqes

theorem unreversed_addEqualities {φ : Formula} (hφ : Equality.Unreversed φ.equalities)
    (es : List Equality) : Equality.Unreversed (φ.addEqualities es).equalities := by
  have parts (es : List Equality) {φ : Formula} (hφ : Equality.Unreversed φ.equalities) :
      Equality.Unreversed (es.foldl addPart φ).equalities := by
    induction es generalizing φ with
    | nil => exact hφ
    | cons e es ih => exact ih (unreversed_addPart hφ e)
  unfold addEqualities
  induction es generalizing φ with
  | nil => exact hφ
  | cons e es ih => exact ih (parts e.parts hφ)

/-- Normal open equalities in ascending order are added as they are. -/
theorem addEqualities_of_normal {es : List Equality} (hes : Sorted.Ascending Equality.cmp es)
    (hopen : ∀ e ∈ es, e.IsOpen) (h : Equality.Normal es) (s : Substitution)
    (ds : List Disjunction) : (all s [] ds).addEqualities es = .all s es ds := by
  obtain ⟨new, hnew, hsub, hcovered⟩ := addEqualities_of_undivided hopen h.undivided s ds [] hes
  have hsubset : es ⊆ new := by
    intro e he
    refine (hcovered e he).resolve_right fun hreversed => ?_
    obtain ⟨q, hq, heq⟩ := (Equality.contains_reversed_iff e _).mp hreversed
    exact h.unreversed e he q (hsub.subset hq) heq
  have hsame : new = es := hsub.eq_of_length_le (hes.nodup.length_le_of_subset hsubset)
  rw [hnew, hsame, List.nil_append]

/-- Open equalities in ascending order are given back just when they are normal. -/
theorem ofEqualities_eq_iff {es : List Equality} (hes : Sorted.Ascending Equality.cmp es)
    (hopen : ∀ e ∈ es, e.IsOpen) (hflat : ∀ e ∈ es, e.All Term.FlatHead) :
    (ofEqualities es).equalities = es ↔ Equality.Normal es := by
  refine ⟨fun h => ⟨fun e he => ?_, ?_⟩, fun h => ?_⟩
  · exact ((extended_addEqualities hflat top).undivided e (h.symm ▸ he)).resolve_left
      List.not_mem_nil
  · have hnone := unreversed_addEqualities (φ := top) nofun es
    rwa [← ofEqualities, h] at hnone
  · rw [ofEqualities, top, addEqualities_of_normal hes hopen h]
    rfl

/-! ## Results -/

section Results

variable {voc : Vocabulary} {mode : SimplifyMode} {φ S : Formula}

/-- The equalities of a result are in ascending order and open, and their lists are flat. -/
theorem equalities_of_simplify (h : φ.simplify voc Unifier.structural mode = .ok S) :
    Sorted.Ascending Equality.cmp S.equalities ∧
      ∀ e ∈ S.equalities, e.IsOpen ∧ e.All Term.FlatHead := by
  rcases simplify_result h with rfl | hrun
  · exact ⟨.nil, fun e he => absurd he List.not_mem_nil⟩
  have htidy := tidy_simplifyWithin hrun
  obtain ⟨last, hsteps, hlast⟩ := Worklist.exists_leads_of_run hrun
  have hvisited : ∀ e ∈ last.visited, e.All Term.FlatHead := by
    refine Worklist.forall_visited_run (fun _ e _ _ => flat_rewrite voc _ _ e) ?_ hsteps
    exact fun _ => nofun
  obtain ⟨_, a, _, _, rfl⟩ := Worklist.next_inr_cases hlast
  refine ⟨Sorted.ascending_ofListLast last.visited, fun e he => ⟨?_, ?_⟩⟩
  · exact ((tidy_all_iff _ _ _).mp htidy).1 e he
  · exact hvisited e (Sorted.mem_ofListLast he)

end Results

end Formula

/-! ## Formulas without connectives -/

namespace Term

/-- The head is no connective. -/
def Unconnected : Term → Prop
  | .builtin .and _ | .builtin .or _ | .builtin .not _ => False
  | _ => True

theorem shallow_unconnected (voc : Vocabulary) : Shallow voc Unconnected where
  token t _ := by cases t <;> trivial
  app _ _ _ _ _ := trivial
  apply _ _ _ _ _ := trivial
  builtin op _ _ h := by cases op <;> exact h
  list _ _ := trivial
  ite _ _ _ _ _ _ _ := trivial

end Term

theorem Equality.decomposed_of_unconnected {e : Equality} (h : e.All Term.Unconnected) :
    e.decomposed? = none := by
  have arguments {t : Term} (ht : t.All Term.Unconnected) (b : Bool) : argumentsOf? t b = none := by
    have hhead := ht.head
    unfold argumentsOf?
    split <;> first | exact hhead.elim | rfl
  obtain ⟨lhs, rhs⟩ := e
  dsimp only [decomposed?]
  split
  · exact arguments h.1 _
  · exact arguments h.2 _
  · rfl

namespace Formula

variable {voc : Vocabulary} {mode : SimplifyMode} {φ S : Formula}

/-- A formula without connectives has a result without equalities that can be taken apart. -/
theorem undivided_of_unconnected (hφ : φ.Each Term.Unconnected)
    (h : φ.simplify voc Unifier.structural mode = .ok S) :
    ∀ e ∈ S.equalities, e.decomposed? = none := by
  have hmaintained := Worklist.maintained_of_shallow (Term.shallow_unconnected voc)
    fun _ => trivial
  have hS := (maintained_simplify hmaintained hφ h).1
  cases S with
  | falsified w => exact nofun
  | all s es ds =>
    exact fun e he =>
      Equality.decomposed_of_unconnected (((everywhere_all_iff s es ds).mp hS).2.1 e he)

/-- **Results and the normal form of adding.** Adding the equalities of a result to the empty
    formula gives them back just when none of them can be taken apart or stands besides its
    reversal. Where none can be taken apart, which is so if the formula has no connectives, of an
    equality and its reversal one is dropped and all others are given back. What is given back
    always states the same. -/
theorem readding_result (h : φ.simplify voc Unifier.structural mode = .ok S) :
    ((ofEqualities S.equalities).equalities = S.equalities ↔ Equality.Normal S.equalities) ∧
    ((∀ e ∈ S.equalities, e.decomposed? = none) →
      ∃ new, ofEqualities S.equalities = .all .empty new [] ∧ new.Sublist S.equalities ∧
        ∀ e ∈ S.equalities, e ∈ new ∨ Sorted.contains Equality.cmp e.reversed new = true) ∧
    (φ.Each Term.Unconnected → ∀ e ∈ S.equalities, e.decomposed? = none) ∧
    ∀ {V : Type} (A : Algebra V) (ρ : Variable → V),
      (ofEqualities S.equalities).Holds A ρ ↔ ∀ e ∈ S.equalities, e.Holds A ρ := by
  obtain ⟨hascending, hequalities⟩ := equalities_of_simplify h
  have hopen : ∀ e ∈ S.equalities, e.IsOpen := fun e he => (hequalities e he).1
  have hflat : ∀ e ∈ S.equalities, e.All Term.FlatHead := fun e he => (hequalities e he).2
  refine ⟨ofEqualities_eq_iff hascending hopen hflat, fun hundivided => ?_,
    fun hφ => undivided_of_unconnected hφ h, fun A ρ => ?_⟩
  · exact addEqualities_of_undivided hopen hundivided .empty [] [] hascending
  · refine ((extended_addEqualities hflat top).holds_iff A ρ).trans ?_
    exact and_iff_right (holds_top A ρ)

end Formula

/-! ### Equalities that take another form when they are rewritten -/

namespace Reshaped

def x : Variable := ⟨"X", .bool⟩

def y : Variable := ⟨"Y", .int⟩

def w : Variable := ⟨"W", .int⟩

def z : Variable := ⟨"Z", .int⟩

/-- A function of an integer. -/
def function (name : String) (result : SortName) : Symbol :=
  ⟨name, .function, [⟨[.int], result⟩]⟩

def vocabulary : Vocabulary :=
  (((Vocabulary.initial.declareSymbol (function "p" .bool)).declareSymbol
    (function "q" .bool)).declareSymbol (function "f" .int)).declareSymbol (function "g" .int)

def p (t : Term) : Term := vocabulary.apply (function "p" .bool) [t]

def q (t : Term) : Term := vocabulary.apply (function "q" .bool) [t]

def f (t : Term) : Term := vocabulary.apply (function "f" .int) [t]

def g (t : Term) : Term := vocabulary.apply (function "g" .int) [t]

/-- `p(Z) ∧ q(Z)` -/
def both : Term := .builtin .and [p (.var z), q (.var z)]

/-- `X = (p(Z) ∧ q(Z))` and `X = true` -/
def connected : Formula := .ofEqualities [⟨.var x, both⟩, ⟨.var x, .bool true⟩]

/-- `f(Y) = g(Z)`, `g(Z) = f(W)` and `Y = W` -/
def turning : Formula := .ofEqualities
  [⟨f (.var y), g (.var z)⟩, ⟨g (.var z), f (.var w)⟩, ⟨.var y, .var w⟩]

/-- With `X = true`, what is stated of `X` states the conjunction. -/
def connectedResult : Formula := .all ⟨[(x, .bool true)]⟩ [⟨.bool true, both⟩] []

/-- With `Y = W`, one equality is the reversal of the other. -/
def turningResult : Formula := .all ⟨[(y, .var w)]⟩
  [⟨f (.var w), g (.var z)⟩, ⟨g (.var z), f (.var w)⟩] []

theorem simplify_connected :
    connected.simplify vocabulary Unifier.structural .default = .ok connectedResult := by
  cbv

theorem simplify_turning :
    turning.simplify vocabulary Unifier.structural .default = .ok turningResult := by
  cbv

/-- Of an equality and its reversal one is given back. -/
theorem readding_result_turning :
    turning.simplify vocabulary Unifier.structural .default = .ok turningResult ∧
    (Formula.ofEqualities turningResult.equalities).equalities ≠ turningResult.equalities ∧
    ∀ (V : Type) (A : Algebra V) (ρ : Variable → V),
      (Formula.ofEqualities turningResult.equalities).Holds A ρ ↔
        ∀ e ∈ turningResult.equalities, e.Holds A ρ := by
  obtain ⟨hiff, _, _, hholds⟩ := Formula.readding_result simplify_turning
  refine ⟨simplify_turning, fun h => ?_, fun V A ρ => hholds A ρ⟩
  have hnormal := hiff.mp h
  exact hnormal.unreversed ⟨f (.var w), g (.var z)⟩ (by simp [turningResult, Formula.equalities])
    ⟨g (.var z), f (.var w)⟩ (by simp [turningResult, Formula.equalities]) rfl

/-- Adding the equalities of a result again may take one of them apart, or drop one. -/
theorem results_not_normal :
    (∃ S, connected.simplify vocabulary Unifier.structural .default = .ok S ∧
      (∃ e ∈ S.equalities, e.decomposed? ≠ none) ∧
      (Formula.ofEqualities S.equalities).equalities =
        [⟨p (.var z), .bool true⟩, ⟨q (.var z), .bool true⟩] ∧
      S.equalities.length = 1) ∧
    ∃ S, turning.simplify vocabulary Unifier.structural .default = .ok S ∧
      (∃ e ∈ S.equalities, e.reversed ∈ S.equalities) ∧
      (Formula.ofEqualities S.equalities).equalities = [⟨f (.var w), g (.var z)⟩] ∧
      S.equalities.length = 2 := by
  refine ⟨⟨connectedResult, simplify_connected, ⟨⟨.bool true, both⟩, ?_, nofun⟩, by cbv, rfl⟩,
    ⟨turningResult, simplify_turning, ⟨⟨f (.var w), g (.var z)⟩, ?_, ?_⟩, by cbv, rfl⟩⟩
  · exact List.mem_singleton.mpr rfl
  · exact List.mem_cons_self ..
  · exact List.mem_cons_of_mem _ (List.mem_singleton.mpr rfl)

end Reshaped

end Entail
