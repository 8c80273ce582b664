import Entail.Proofs.Quiet

set_option autoImplicit false

/-! # Simplifying twice

A second simplification may change a result: the last pass may rewrite an equality that it keeps,
and what is stated then was not used for the equalities before it. Where this does not happen the
result is given back, as it is wherever the only terms of sort `Bool` are truth values and
variables. -/

namespace Entail

/-! ## Results that are simplified further -/

namespace Nested

/-- A function with one argument. -/
def function (name : String) (argument result : SortName) : Symbol :=
  ⟨name, .function, [⟨[argument], result⟩]⟩

def a : Symbol := function "a" .bool ⟨"S"⟩

def b : Symbol := function "b" ⟨"S"⟩ ⟨"S"⟩

def c : Symbol := function "c" ⟨"S"⟩ .bool

def p : Symbol := function "p" ⟨"S"⟩ .bool

def q : Symbol := function "q" ⟨"S"⟩ .bool

def vocabulary : Vocabulary :=
  ((((Vocabulary.initial.declareSymbol a).declareSymbol b).declareSymbol p).declareSymbol
    q).declareSymbol c

def x : Variable := ⟨"X", ⟨"S"⟩⟩

def z : Variable := ⟨"Z", ⟨"S"⟩⟩

/-- A function applied to one term. -/
def of (f : Symbol) (t : Term) : Term := vocabulary.apply f [t]

/-- `c(X) = true`, and `p(X) = true` if `c(X)`, else `p(X) = q(X)`; and `a(p(X)) = b(Z)`. -/
def formula : Formula := .ofEqualities
  [⟨of a (of p (.var x)), of b (.var z)⟩,
    ⟨of p (.var x), .ite (of c (.var x)) (.bool true) (of q (.var x))⟩,
    ⟨of c (.var x), .bool true⟩]

/-- `p(X) = true` was found after `a(p(X)) = b(Z)` was seen. -/
def once : Formula := .all .empty
  [⟨of a (of p (.var x)), of b (.var z)⟩, ⟨of c (.var x), .bool true⟩, ⟨of p (.var x), .bool true⟩]
  []

/-- Now it is used. -/
def twice : Formula := .all .empty
  [⟨of a (.bool true), of b (.var z)⟩, ⟨of c (.var x), .bool true⟩, ⟨of p (.var x), .bool true⟩] []

theorem simplify_formula :
    formula.simplify vocabulary Unifier.structural .default = .ok once := by
  cbv

theorem simplify_once :
    once.simplify vocabulary Unifier.structural .default = .ok twice := by
  cbv

/-- A result may be simplified further: what a pass finds about an equality is not used for those
    it has seen before. -/
theorem simplification_not_idempotent :
    ∃ S, formula.simplify vocabulary Unifier.structural .default = .ok S ∧
      S.simplify vocabulary Unifier.structural .default ≠ .ok S := by
  refine ⟨once, simplify_formula, fun h => ?_⟩
  rw [simplify_once] at h
  -- the left sides of the first equalities differ
  have hequalities := congrArg Formula.equalities (Except.ok.inj h)
  have hfirst := congrArg Equality.lhs (List.cons.inj hequalities).1
  exact absurd (congrArg Term.occurrences hfirst) nofun

end Nested

/-! ## Results that are given back -/

/-- **When simplification is idempotent.** A result that is settled is given back by a second
    simplification. Results are settled if narrower arguments make applications narrower, no
    application or operation is a truth value, and nothing is chosen by a condition. -/
theorem Formula.simplified_again {voc : Vocabulary} {mode : SimplifyMode} {φ S : Formula}
    (h : φ.simplify voc Unifier.structural mode = .ok S) :
    (S.Settled voc → S.simplify voc Unifier.structural mode = .ok S) ∧
      ∀ Q : Symbol → Prop, voc.Built → voc.lattice.Acyclic → voc.Narrows Q →
        (∀ f, Q f → voc.Knows f) → φ.Within (fun v => voc.lattice.Known v.sort) Q →
        φ.Each Term.QuietHead → S.simplify voc Unifier.structural mode = .ok S := by
  refine ⟨fun hsettled => hsettled.simplify_eq h,
    fun Q hvoc hacyclic hnarrows hQ hwithin hquiet => ?_⟩
  exact (settled_of_quiet hvoc hacyclic hQ hnarrows hwithin hquiet h).simplify_eq h

namespace Returning

open Straying (sortA sortB sortS sortT f regular)

def x : Variable := ⟨"X", sortS⟩

def y : Variable := ⟨"Y", sortA⟩

def z : Variable := ⟨"Z", sortB⟩

def w : Variable := ⟨"W", sortB⟩

def i : Variable := ⟨"I", .int⟩

def j : Variable := ⟨"J", .int⟩

def k : Variable := ⟨"K", .int⟩

def l : Variable := ⟨"L", .list⟩

/-- `J + 1` -/
def sum : Term := .builtin .add [.var j, .int 1]

/-- `X = f(Y)`, `Y = Z`, `[I, ...L] = [J + 1, K]` and `I + K = 3`; and `f(Y) = f(W)` or `I = 4`. -/
def formula : Formula := .all .empty
  [⟨.var x, .app f [.var y] sortS⟩, ⟨.var y, .var z⟩,
    ⟨.list [.var i] (some (.var l)), .list [sum, .var k] none⟩,
    ⟨.builtin .add [.var i, .var k], .int 3⟩]
  [[.all .empty [⟨.app f [.var y] sortS, .app f [.var w] sortS⟩] [],
    .all .empty [⟨.var i, .int 4⟩] []]]

/-- All but the sum and the alternatives is bound. -/
def result : Formula := .all
  ⟨[(i, sum), (l, .list [.var k] none), (x, .app f [.var z] sortT), (y, .var z)]⟩
  [⟨.builtin .add [sum, .var k], .int 3⟩]
  [[.all .empty [⟨.app f [.var z] sortT, .app f [.var w] sortT⟩] [],
    .all .empty [⟨sum, .int 4⟩] []]]

theorem simplify_formula : formula.simplify regular Unifier.structural .default = .ok result := by
  cbv

theorem within_formula : formula.Within (fun v => regular.lattice.Known v.sort) (· = f) := by
  have hS : regular.lattice.Known sortS := Or.inr ⟨_, rfl⟩
  have hA : regular.lattice.Known sortA := Or.inr ⟨_, rfl⟩
  have hB : regular.lattice.Known sortB := Or.inr ⟨_, rfl⟩
  have hInt : regular.lattice.Known .int := Or.inr ⟨_, rfl⟩
  have hList : regular.lattice.Known .list := Or.inr ⟨_, rfl⟩
  simp [formula, sum, Formula.Within, Formula.Each, Formula.everywhere_all_iff, Equality.All,
    Term.AllIn, Term.WithinHead, Substitution.empty, Term.All, x, y, z, w, i, j, k, l, hS, hA, hB,
    hInt, hList]

theorem quiet_formula : formula.Each Term.QuietHead := by
  simp [formula, sum, Formula.Each, Formula.everywhere_all_iff, Equality.All, Term.AllIn,
    Term.QuietHead, Substitution.empty, Term.All, f, sortS, sortT, Builtin.resultSort,
    SortName.bool, SortName.int]

theorem knows_f : ∀ g, g = f → regular.Knows g := by
  rintro g rfl
  exact List.forall_mem_cons.mpr ⟨⟨List.forall_mem_singleton.mpr (Or.inr ⟨_, rfl⟩),
    Or.inr ⟨_, rfl⟩⟩, List.forall_mem_singleton.mpr
      ⟨List.forall_mem_singleton.mpr (Or.inr ⟨_, rfl⟩), Or.inr ⟨_, rfl⟩⟩⟩

/-- A result with bindings, an equality and a disjunction comes back, and so does one that tells
    the truth value of applications. -/
theorem simplified_again_formula :
    (∃ S, formula.simplify regular Unifier.structural .default = .ok S ∧
      S.bindings.entries.length = 4 ∧ S.equalities.length = 1 ∧ S.disjunctions.length = 1 ∧
      S.simplify regular Unifier.structural .default = .ok S) ∧
    ∃ S, Nested.once.simplify Nested.vocabulary Unifier.structural .default = .ok S ∧
      ¬S.Each Term.QuietHead ∧
      S.simplify Nested.vocabulary Unifier.structural .default = .ok S := by
  refine ⟨⟨result, simplify_formula, rfl, rfl, rfl, ?_⟩, Nested.twice, Nested.simplify_once,
    ?_, ?_⟩
  · exact (Formula.simplified_again simplify_formula).2 _ Straying.built_regular Straying.acyclic
      Straying.narrows_regular knows_f within_formula quiet_formula
  · intro hquiet
    obtain ⟨_, hequalities, _⟩ := (Formula.everywhere_all_iff _ _ _).mp hquiet
    obtain ⟨⟨_, hresults⟩, _⟩ := (hequalities ⟨Nested.of Nested.c (.var Nested.x), .bool true⟩
      (List.mem_cons_of_mem _ (List.mem_cons_self ..))).1
    exact hresults _ (List.mem_singleton.mpr rfl) rfl
  · refine (Formula.simplified_again Nested.simplify_once).1
      ⟨nofun, List.forall_mem_cons.mpr ⟨⟨?_, ?_⟩, List.forall_mem_cons.mpr ⟨⟨?_, ?_⟩,
        List.forall_mem_singleton.mpr ⟨?_, ?_⟩⟩⟩, nofun⟩ <;> cbv

end Returning

end Entail
