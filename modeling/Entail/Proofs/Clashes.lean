import Entail.Proofs.Confluence
import Entail.Proofs.Mismatches
import Entail.Proofs.Tidy

set_option autoImplicit false

/-! # Clashes and unification

Whether two terms clash is decided by one look at their shapes. The unifier goes another way: it
takes the terms apart, and what is left of two lists is compared as two terms of its own. The two
agree as long as the frame of a list shows no head: a list that ends in a token, or in the
application of a constructor, is told from a longer list by its remainder alone. -/

namespace Entail

namespace Term

/-- A token or the application of a constructor. -/
def isFree : Term → Bool
  | .app f _ _ => f.isConstructor
  | t => t.isToken

/-- A list is flat, and its frame is neither a token nor the application of a constructor. -/
def OpenHead : Term → Prop
  | .list xs (some frame) => xs ≠ [] ∧ frame.isList = false ∧ frame.isFree = false
  | _ => True

theorem OpenHead.flatHead {t : Term} (h : OpenHead t) : FlatHead t := by
  unfold OpenHead at h
  split at h
  · exact ⟨h.1, h.2.1⟩
  · rename_i hframed
    unfold FlatHead
    split
    · exact absurd rfl (hframed _ _)
    · trivial

theorem flat_of_open {t : Term} (h : t.All OpenHead) : t.Flat :=
  h.mono fun _ => OpenHead.flatHead

/-- Without pattern folding the free heads and the lists are taken apart. -/
theorem isRigid_eq (t : Term) : t.isRigid false = (t.isFree || t.isList) := by
  cases t with
  | app f xs s =>
    cases hkind : f.kind <;> simp [isRigid, isFree, isList, Symbol.isConstructor, hkind]
  | _ => rfl

/-! ## Clashes show in the heads -/

theorem isRigid_of_clashes {t u : Term} (h : t.clashes u = true) :
    t.isRigid false = true ∧ u.isRigid false = true := by
  rw [isRigid_eq, isRigid_eq]
  cases t <;> cases u <;> simp_all [clashes, isFree, isToken, isList]

theorem clashes_of_not_isRigid {t : Term} (h : t.isRigid false = false) (u : Term) :
    t.clashes u = false := by
  rw [← Bool.not_eq_true]
  intro hclash
  rw [(isRigid_of_clashes hclash).1] at h
  cases h

/-! ## What shapes refute -/

/-- **What is refuted by shape has no solution and stays refuted.** Clashes do not depend on the
    order of the two terms. Where tokens, constructors and lists are free, terms that clash have
    different values, and they clash after any substitution. A normal term has never the value of a
    variable inside it, other than the variable itself. -/
theorem refuted_by_shape (l r : Term) (hl : l.Flat) (hr : r.Flat) :
    l.clashes r = r.clashes l ∧
    (l.clashes r = true →
      (∀ {V : Type} (A : Algebra V) (value : Term → V), A.Reads value → value l ≠ value r) ∧
      ∀ voc s, (l.rewrite voc .unknown s).clashes (r.rewrite voc .unknown s) = true) ∧
    ∀ (t : Term) (x : Variable), t.Flat → t.isNormal = true → t ≠ .var x → t.occurs x = true →
      ∀ {V : Type} (A : Algebra V) (value : Term → V), A.Reads value →
        value (.var x) ≠ value t := by
  refine ⟨clashes_comm l r, fun hclash => ⟨?_, ?_⟩, ?_⟩
  · intro V A value hvalue
    exact hvalue.ne_of_clashes hl hr hclash
  · intro voc s
    exact clashes_rewrite hl hr hclash
  · intro t x ht hnormal hne hoccurs V A value hvalue
    exact hvalue.ne_of_occurs ht hnormal hne ((occurs_iff x t).mp hoccurs)

namespace Apart

def x : Variable := ⟨"X", .int⟩

def y : Variable := ⟨"Y", .int⟩

def frame : Variable := ⟨"F", .list⟩

def pair : Symbol := ⟨"pair", .constructor, [⟨[.k, .k], ⟨"Pair"⟩⟩]⟩

def g : Symbol := ⟨"g", .function, [⟨[.int], .int⟩]⟩

/-- `pair(X, [g(X), Y | F])` -/
def left : Term :=
  .app pair [.var x, .list [.app g [.var x] .int, .var y] (some (.var frame))] ⟨"Pair"⟩

/-- `pair(g(Y), [2])` -/
def right : Term := .app pair [.app g [.var y] .int, .list [.int 2] none] ⟨"Pair"⟩

/-- `F` is bound to `[3 | F]`, and `X` to `Y`. -/
def bindings (v : Variable) : Option Term :=
  [(frame, .list [.int 3] (some (.var frame))), (x, .var y)].lookup v

/-- `[1 | F]` -/
def longer : Term := .list [.int 1] (some (.var frame))

/-- The open list is too long for the closed one and grows, and no list has itself for its rest. -/
theorem refuted_by_shape_pairs :
    right.clashes left = true ∧
    (∀ function pattern ρ, left.eval (Value.algebra function pattern) ρ ≠
      right.eval (Value.algebra function pattern) ρ) ∧
    (left.rewrite .initial .unknown bindings).clashes
      (right.rewrite .initial .unknown bindings) = true ∧
    ∀ function pattern ρ, ρ frame ≠ longer.eval (Value.algebra function pattern) ρ := by
  have hleft : left.Flat := by simp [left, Flat, All, AllIn, FlatHead, isList]
  have hright : right.Flat := by simp [right, Flat, All, AllIn, FlatHead]
  have hlonger : longer.Flat := by simp [longer, Flat, All, AllIn, FlatHead, isList]
  have hclash : left.clashes right = true := by cbv
  obtain ⟨hcomm, hrefuted, hinside⟩ := refuted_by_shape left right hleft hright
  obtain ⟨hvalues, hstays⟩ := hrefuted hclash
  refine ⟨hcomm ▸ hclash, fun function pattern ρ => ?_, hstays _ _, fun function pattern ρ => ?_⟩
  · exact hvalues _ _ (reads_eval _ ρ)
  · exact hinside longer frame hlonger (by cbv) (by simp [longer]) (by cbv) _ _ (reads_eval _ ρ)

end Apart

/-! ## What is left of a list -/

/-- A frame of an open list shows no head. -/
theorem OpenHead.isRigid_frame {xs : List Term} {frame : Term}
    (h : OpenHead (.list xs (some frame))) : frame.isRigid false = false := by
  rw [isRigid_eq, h.2.1, h.2.2, Bool.or_false]

theorem mkList_nil_of_open {xs : List Term} {frame : Term} (h : OpenHead (.list xs (some frame))) :
    mkList [] (some frame) = frame := by
  have hlist := h.2.1
  cases frame with
  | list ys frame' => cases hlist
  | _ => rfl

theorem mkList_cons_of_open {xs : List Term} {frame : Option Term} (h : OpenHead (.list xs frame))
    (y : Term) (ys : List Term) : mkList (y :: ys) frame = .list (y :: ys) frame := by
  cases frame with
  | none => rfl
  | some frame =>
    have hlist := h.2.1
    cases frame with
    | list zs frame' => cases hlist
    | _ => rfl

/-- A list without elements is told from what is left of another list if it is closed and something
    is left. -/
theorem clashes_nil_rest {xs ys : List Term} {frame frame' : Option Term}
    (hx : OpenHead (.list xs frame)) (hy : OpenHead (.list ys frame')) (rest : List Term) :
    (mkList [] frame).clashes (mkList rest frame') = (!rest.isEmpty && frame.isNone) := by
  cases frame with
  | some t =>
    rw [mkList_nil_of_open hx, clashes_of_not_isRigid hx.isRigid_frame, Option.isNone_some,
      Bool.and_false]
  | none =>
    cases rest with
    | cons y rest =>
      rw [mkList_cons_of_open hy]
      simp [mkList, clashes, shorterIsClosed]
    | nil =>
      cases frame' with
      | none => rfl
      | some u =>
        rw [mkList_nil_of_open hy, clashes_comm, clashes_of_not_isRigid hy.isRigid_frame]
        rfl

/-- The remainders of two lists clash if one list is closed and the other one longer. -/
theorem clashes_rests {xs ys : List Term} {frame frame' : Option Term}
    (hx : OpenHead (.list xs frame)) (hy : OpenHead (.list ys frame')) :
    (mkList (xs.drop ys.length) frame).clashes (mkList (ys.drop xs.length) frame') =
      shorterIsClosed xs frame ys frame' := by
  have hleft (xs : List Term) (n : Nat) : (!(xs.drop n).isEmpty) = decide (n < xs.length) := by
    rw [Bool.eq_iff_iff]
    simp
  unfold shorterIsClosed
  rcases Nat.le_total xs.length ys.length with hle | hle
  · rw [List.drop_of_length_le hle, clashes_nil_rest hx hy, hleft]
    simp [Nat.not_lt.mpr hle]
  · rw [List.drop_of_length_le hle, clashes_comm, clashes_nil_rest hy hx, hleft]
    simp [Nat.not_lt.mpr hle]

end Term

/-- An equality of two terms with flat lists is false just when they clash. -/
theorem Equality.truth_eq_false_iff {t u : Term} (ht : t.Flat) (hu : u.Flat) :
    (⟨t, u⟩ : Equality).truth = .false ↔ t.clashes u = true := by
  constructor
  · intro h
    unfold truth at h
    split_ifs at h with _ hclash
    exact hclash
  · intro h
    simp [truth, Term.beq_eq_false_of_clashes ht hu h, h]

namespace Unifier

open Term (Mixed OpenHead)

variable {mode : SimplifyMode}

/-! ## Where taking apart fails -/

/-- Equal terms do not clash, and neither do terms of which one shows no head; nothing is taken apart
    there. -/
theorem error_iff_of_rigid (hmode : mode.patternFolding = false) {t u : Term} (ht : t.Flat)
    (hu : u.Flat) (out : Formula)
    (h : heads mode t u = .rigid →
      ((∃ m, decompose mode t u out = .error m) ↔ t.clashes u = true)) :
    (∃ m, decompose mode t u out = .error m) ↔ t.clashes u = true := by
  by_cases hheads : heads mode t u = .rigid
  · exact h hheads
  · have hclash : t.clashes u = false := by
      rw [← Bool.not_eq_true]
      intro hclash
      obtain ⟨hrigid, hrigid'⟩ := Term.isRigid_of_clashes hclash
      apply hheads
      simp [heads, Term.beq_eq_false_of_clashes ht hu hclash, hmode, hrigid, hrigid']
    have hok : ∃ φ, decompose mode t u out = .ok φ := by
      rw [decompose.eq_def]
      split
      all_goals
        split
        · exact ⟨_, rfl⟩
        · exact ⟨_, rfl⟩
        · rename_i hrigid
          exact absurd hrigid hheads
    obtain ⟨φ, hφ⟩ := hok
    simp [hφ, hclash]

/-- Against open terms, taking an equality of the term apart fails just when the terms clash. -/
def Decided (mode : SimplifyMode) (t : Term) : Prop :=
  ∀ u : Term, u.All OpenHead → ∀ out : Formula,
    (∃ m, decompose mode t u out = .error m) ↔ t.clashes u = true

theorem decided_all {xs : List Term} (hxs : ∀ x ∈ xs, Decided mode x) {ys : List Term}
    (hys : ∀ y ∈ ys, y.All OpenHead) (out : Formula) :
    (∃ m, decomposeAll mode xs ys out = .error m) ↔ Term.clashesSomewhere xs ys = true := by
  induction xs generalizing ys out with
  | nil => simp [decomposeAll, Term.clashesSomewhere]
  | cons x xs ih =>
    cases ys with
    | nil => simp [decomposeAll, Term.clashesSomewhere]
    | cons y ys =>
      rw [List.forall_mem_cons] at hxs hys
      have hfirst := hxs.1 y hys.1 out
      rw [decomposeAll, Term.clashesSomewhere, Bool.or_eq_true, ← hfirst]
      cases decompose mode x y out with
      | error m => simp
      | ok out' => simp [ih hxs.2 hys.2 out']

/-- The remainders decide if nothing was found before. -/
theorem error_joinRests_iff (mode : SimplifyMode) (t u : Term) {lrest rrest : Term}
    (hl : lrest.Flat) (hr : rrest.Flat) (elements out : Formula) :
    (∃ m, joinRests mode t u lrest rrest elements out = .error m) ↔ lrest.clashes rrest = true := by
  unfold joinRests
  split_ifs with heq hclash
  · have hclash : lrest.clashes rrest = false := by
      rw [← Bool.not_eq_true]
      intro hclash
      rw [Term.beq_eq_false_of_clashes hl hr hclash] at heq
      cases heq
    simp [hclash]
  all_goals simp [hclash]

theorem decided_list {xs : List Term} {frame : Option Term}
    (ht : (Term.list xs frame).All OpenHead) (hxs : ∀ x ∈ xs, Decided mode x) {ys : List Term}
    {frame' : Option Term} (hu : (Term.list ys frame').All OpenHead) (out : Formula)
    (hheads : heads mode (.list xs frame) (.list ys frame') = .rigid) :
    (∃ m, decompose mode (.list xs frame) (.list ys frame') out = .error m) ↔
      (Term.list xs frame).clashes (.list ys frame') = true := by
  have helements := decided_all hxs ((Term.all_list_iff ys frame').mp hu).2.1 .top
  rw [decompose, hheads, Term.clashes, ← Term.clashes_rests ht.head hu.head, Bool.or_eq_true,
    ← helements]
  cases decomposeAll mode xs ys .top with
  | error m => simp
  | ok elements =>
    have hrests := error_joinRests_iff mode (.list xs frame) (.list ys frame')
      (Term.all_rest Term.plain_flatHead (Term.flat_of_open ht) ys.length)
      (Term.all_rest Term.plain_flatHead (Term.flat_of_open hu) xs.length) elements out
    simp [hrests]

theorem decided_app (hmode : mode.patternFolding = false) {f g : Symbol} {xs ys : List Term}
    {s s' : SortName} (hxs : ∀ x ∈ xs, Decided mode x) (hu : (Term.app g ys s').All OpenHead)
    (out : Formula) (hheads : heads mode (.app f xs s) (.app g ys s') = .rigid) :
    (∃ m, decompose mode (.app f xs s) (.app g ys s') out = .error m) ↔
      (Term.app f xs s).clashes (.app g ys s') = true := by
  obtain ⟨-, hf, hg⟩ := heads_rigid hheads
  simp only [hmode, isRigid_app_iff, Bool.false_eq_true, and_false, or_false] at hf hg
  rw [decompose, hheads]
  dsimp only
  split
  · rename_i hmatch
    rw [Bool.and_eq_true, beq_iff_eq] at hmatch
    rw [decided_all hxs ((Term.all_app_iff g ys s').mp hu).2, Term.clashes, hf, hg, hmatch.1,
      hmatch.2]
    simp
  · rename_i hdiffer
    have hclash : (Term.app f xs s).clashes (.app g ys s') = true :=
      clashes_of_constructors (by rw [hf, hg]; rfl) hdiffer
    simp [mismatchedApps, hf, hg, hclash]

/-- Without pattern folding the applications of patterns are not taken apart. -/
theorem isPatternApp_of_isRigid {t : Term} (h : t.isRigid false = true) :
    isPatternApp t = false := by
  cases t with
  | app f xs s =>
    cases hkind : f.kind <;> simp [Term.isRigid, isPatternApp, Symbol.isPattern, hkind] at h ⊢
  | _ => rfl

theorem decided_mixed (hmode : mode.patternFolding = false) {t u : Term} (hmixed : Mixed t u)
    (out : Formula) (hheads : heads mode t u = .rigid) :
    (∃ m, decompose mode t u out = .error m) ↔ t.clashes u = true := by
  obtain ⟨-, hl, hr⟩ := heads_rigid hheads
  rw [hmode] at hl hr
  have hpattern : (isPatternApp t || isPatternApp u) = false := by
    rw [isPatternApp_of_isRigid hl, isPatternApp_of_isRigid hr, Bool.or_false]
  rw [decompose_mixed hmixed, hheads]
  simp [mismatchedHeads, hpattern, clashes_of_rigid hmixed hheads hpattern]

/-- All open terms are decided: applications by their arguments, lists by their elements and what is
    left of them, everything else by the heads. -/
theorem decided_of_open (hmode : mode.patternFolding = false) {t : Term} (ht : t.All OpenHead) :
    Decided mode t := by
  intro u hu out
  induction t using Term.ind generalizing u out with
  | app f xs s ih =>
    refine error_iff_of_rigid hmode (Term.flat_of_open ht) (Term.flat_of_open hu) out fun h => ?_
    have hxs : ∀ x ∈ xs, Decided mode x := fun x hx =>
      ih x hx (((Term.all_app_iff f xs s).mp ht).2 x hx)
    cases u with
    | app g ys s' => exact decided_app hmode hxs hu out h
    | _ => exact decided_mixed hmode (by simp [Mixed, Term.rank]) out h
  | closed xs ih =>
    refine error_iff_of_rigid hmode (Term.flat_of_open ht) (Term.flat_of_open hu) out fun h => ?_
    have hxs : ∀ x ∈ xs, Decided mode x := fun x hx =>
      ih x hx (((Term.all_list_iff xs none).mp ht).2.1 x hx)
    cases u with
    | list ys frame' => exact decided_list ht hxs hu out h
    | _ => exact decided_mixed hmode (by simp [Mixed, Term.rank]) out h
  | framed xs frame ih _ =>
    refine error_iff_of_rigid hmode (Term.flat_of_open ht) (Term.flat_of_open hu) out fun h => ?_
    have hxs : ∀ x ∈ xs, Decided mode x := fun x hx =>
      ih x hx (((Term.all_list_iff xs (some frame)).mp ht).2.1 x hx)
    cases u with
    | list ys frame' => exact decided_list ht hxs hu out h
    | _ => exact decided_mixed hmode (by simp [Mixed, Term.rank]) out h
  | _ =>
    refine error_iff_of_rigid hmode (Term.flat_of_open ht) (Term.flat_of_open hu) out fun h => ?_
    exact decided_mixed hmode (by simp [Mixed, Term.rank]) out h

/-- **Unification and the look at the shapes agree.** Without pattern folding, and whether lists may
    be taken apart partially or not, the structural unifier rejects two open terms just when they
    clash, which is when the equality of the two is false. -/
theorem structural_error_iff (mode : SimplifyMode) (hmode : mode.patternFolding = false)
    {l r : Term} (hl : l.All OpenHead) (hr : r.All OpenHead) :
    ((∃ m, structural mode l r = .error m) ↔ l.clashes r = true) ∧
      (l.clashes r = true ↔ (⟨l, r⟩ : Equality).truth = .false) :=
  ⟨decided_of_open hmode hl r hr .top,
    (Equality.truth_eq_false_iff (Term.flat_of_open hl) (Term.flat_of_open hr)).symm⟩

-- `[1 | 5]` and `[1, 2]`: a token that ends a list is seen by the unifier alone
example : (Term.list [.int 1] (some (.int 5))).clashes (.list [.int 1, .int 2] none) = false ∧
    (structural .default (.list [.int 1] (some (.int 5)))
      (.list [.int 1, .int 2] none)).isOk = false := by
  cbv

/-! ### Open lists in a constructor -/

namespace Rejected

def c (xs : List Term) : Term := .app ⟨"c", .constructor, []⟩ xs ⟨"S"⟩

def x : Term := .var ⟨"X", .int⟩

/-- `c([1, 2], X)` -/
def closed : Term := c [.list [.int 1, .int 2] none, x]

/-- `c([1, X, c(3) | T], 4)` -/
def longer : Term :=
  c [.list [.int 1, x, c [.int 3]] (some (.var ⟨"T", .list⟩)), .int 4]

/-- `c([1 | T], 4)` -/
def shorter : Term := c [.list [.int 1] (some (.var ⟨"T", .list⟩)), .int 4]

theorem open_closed : closed.All OpenHead := by
  simp [closed, c, x, Term.All, Term.AllIn, OpenHead]

theorem open_longer : longer.All OpenHead := by
  simp [longer, c, x, Term.All, Term.AllIn, OpenHead, Term.isList, Term.isFree, Term.isToken]

theorem open_shorter : shorter.All OpenHead := by
  simp [shorter, c, Term.All, Term.AllIn, OpenHead, Term.isList, Term.isFree, Term.isToken]

/-- The closed list is too short for three elements, deep in a constructor, but long enough for
    one. -/
theorem structural_error_iff_nested :
    (∃ m, structural .default closed longer = .error m) ∧
    (⟨closed, longer⟩ : Equality).truth = .false ∧
    (¬∃ m, structural .beforePatternFolding closed shorter = .error m) ∧
    (⟨closed, shorter⟩ : Equality).truth ≠ .false := by
  have hclash : closed.clashes longer = true := by cbv
  have hopen : closed.clashes shorter = false := by cbv
  obtain ⟨hrejected, hfalse⟩ :=
    structural_error_iff .default rfl open_closed open_longer
  obtain ⟨hkept, hunknown⟩ :=
    structural_error_iff .beforePatternFolding rfl open_closed open_shorter
  rw [hopen] at hkept hunknown
  exact ⟨hrejected.mpr hclash, hfalse.mp hclash, fun h => Bool.false_ne_true (hkept.mp h),
    fun h => Bool.false_ne_true (hunknown.mpr h)⟩

end Rejected

end Unifier

end Entail
