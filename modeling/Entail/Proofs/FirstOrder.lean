import Entail.Proofs.Cells
import Entail.Proofs.Solutions

set_option autoImplicit false

/-! # The first-order fragment

Terms built from variables, tokens, lists and constructors of one signature each, over sorts without
an order. Here every variable can be bound to any term of its sort: nothing is left to evaluate, and
taking an equality apart leaves equalities of which one side is a variable. -/

namespace Entail

/-! ## Sorts without an order -/

namespace SortLattice

/-- Nothing but itself is recorded below a sort. -/
def Discrete (l : SortLattice) : Prop := ∀ s b, l.below? s = some b → b = [s]

theorem Discrete.declare {l : SortLattice} (h : l.Discrete) (s : SortName) :
    (l.declare s).Discrete := by
  intro t b hb
  rw [below?_declare] at hb
  split at hb
  · rename_i ht
    obtain rfl := Option.some.inj hb
    rw [ht.1]
  · exact h t b hb

theorem Discrete.lowerSet {l : SortLattice} (h : l.Discrete) {s : SortName} (hs : s ≠ .k) :
    l.lowerSet s = [s] := by
  rw [SortLattice.lowerSet, if_neg (by simpa [SortName.isK] using hs)]
  cases hb : l.below? s with
  | none => rfl
  | some b => exact h s b hb

/-- Two sorts other than the top sort have a common subsort only if they are one. -/
theorem Discrete.common_iff {l : SortLattice} (h : l.Discrete) {a b : SortName} (ha : a ≠ .k)
    (hb : b ≠ .k) : l.haveCommonSubsort a b = true ↔ a = b := by
  rw [haveCommonSubsort, commonLowerBounds, h.lowerSet ha, h.lowerSet hb]
  by_cases hab : a = b <;> simp [hab]

end SortLattice

namespace Vocabulary

/-- Sorts and symbols are declared, but no subsorts. -/
inductive Unordered : Vocabulary → Prop
  | initial : Unordered .initial
  | declareSort {voc : Vocabulary} (s : SortName) (h : Unordered voc) :
      Unordered (voc.declareSort s)
  | declareSymbol {voc : Vocabulary} (f : Symbol) (h : Unordered voc) :
      Unordered (voc.declareSymbol f)

theorem Unordered.discrete {voc : Vocabulary} (h : voc.Unordered) : voc.lattice.Discrete := by
  have declared (sorts : List SortName) {l : SortLattice} (hl : l.Discrete) :
      (sorts.foldl SortLattice.declare l).Discrete := by
    induction sorts generalizing l with
    | nil => exact hl
    | cons s sorts ih => exact ih (hl.declare s)
  induction h with
  | initial => exact declared _ (l := .empty) nofun
  | declareSort s _ ih => exact ih.declare s
  | declareSymbol f _ ih => exact declared _ ih

end Vocabulary

/-! ## First-order terms -/

/-- Constructors, no two of one name. -/
structure Constructors (Q : Symbol → Prop) : Prop where
  constructor : ∀ f, Q f → f.isConstructor = true
  named : ∀ f g, Q f → Q g → f.name = g.name → f = g

namespace Term

/-- Terms over the symbols of `Q`: a symbol has one signature and is applied to arguments of exactly
    its sorts; a list may have a frame of the sort of lists that is no list itself. -/
inductive FirstOrder (Q : Symbol → Prop) : Term → Prop
  | var (v : Variable) (hsort : v.sort ≠ .k) : FirstOrder Q (.var v)
  | bool (b : Bool) : FirstOrder Q (.bool b)
  | int (n : Int) : FirstOrder Q (.int n)
  | str (s : String) : FirstOrder Q (.str s)
  | app (f : Symbol) (xs : List Term) (s : SortName) (hf : Q f)
      (hsignature : f.signatures = [⟨xs.map sort, s⟩]) (hxs : ∀ x ∈ xs, FirstOrder Q x) :
      FirstOrder Q (.app f xs s)
  | closed (xs : List Term) (hxs : ∀ x ∈ xs, FirstOrder Q x) : FirstOrder Q (.list xs none)
  | framed (xs : List Term) (frame : Term) (hne : xs ≠ []) (hxs : ∀ x ∈ xs, FirstOrder Q x)
      (hframe : FirstOrder Q frame) (hlist : frame.isList = false) (hsort : frame.sort = .list) :
      FirstOrder Q (.list xs (some frame))

variable {Q : Symbol → Prop} {voc : Vocabulary}

/-- A symbol with one signature is applied at the result of this signature. -/
theorem FirstOrder.app_eq {f : Symbol} {xs : List Term} {s : SortName}
    (h : f.signatures = [⟨xs.map sort, s⟩]) : voc.apply f xs = .app f xs s := by
  rw [Vocabulary.apply, voc.leastSort_of_single h]

theorem FirstOrder.within (X : Variable → Prop) {t : Term} (h : t.FirstOrder Q)
    (hX : ∀ v, X v) : t.Within X Q := by
  induction h with
  | var v => exact hX v
  | app f xs s hf _ _ ih => exact (all_app_iff f xs s).mpr ⟨hf, ih⟩
  | closed xs _ ih => exact (all_list_iff xs none).mpr ⟨trivial, ih, nofun⟩
  | framed xs frame _ _ _ _ _ ih ihframe =>
    refine (all_list_iff xs _).mpr ⟨trivial, ih, fun t ht => ?_⟩
    obtain rfl := Option.mem_some_iff.mp ht
    exact ihframe
  | _ => trivial

theorem FirstOrder.flat {t : Term} (h : t.FirstOrder Q) : t.Flat := by
  induction h with
  | app f xs s _ _ _ ih => exact (all_app_iff f xs s).mpr ⟨trivial, ih⟩
  | closed xs _ ih => exact (all_list_iff xs none).mpr ⟨trivial, ih, nofun⟩
  | framed xs frame hne _ _ hlist _ ih ihframe =>
    refine (all_list_iff xs _).mpr ⟨⟨hne, hlist⟩, ih, fun t ht => ?_⟩
    obtain rfl := Option.mem_some_iff.mp ht
    exact ihframe
  | _ => trivial

theorem FirstOrder.isNormal (hQ : Constructors Q) {t : Term} (h : t.FirstOrder Q) :
    t.isNormal = true := by
  induction h with
  | app f xs s hf _ _ ih =>
    rw [Term.isNormal, hQ.constructor f hf, allNormal_eq, Bool.true_and, List.all_eq_true]
    exact ih
  | closed xs _ ih =>
    rw [Term.isNormal, allNormal_eq, List.all_eq_true]
    exact ih
  | framed xs frame _ _ _ _ _ ih ihframe =>
    rw [Term.isNormal, allNormal_eq, ihframe, Bool.and_true, List.all_eq_true]
    exact ih
  | _ => rfl

/-- Everything but a variable can be taken apart. -/
theorem FirstOrder.isRigid (hQ : Constructors Q) {t : Term} (h : t.FirstOrder Q)
    (hvar : t.isVar = false) (folding : Bool) : t.isRigid folding = true := by
  cases h with
  | var v => exact absurd hvar nofun
  | app f xs s hf => exact (Unifier.isRigid_app_iff f xs s folding).mpr (Or.inl (hQ.constructor f hf))
  | _ => rfl

/-- Without constructors into the top sort no term is of that sort. -/
theorem FirstOrder.sort_ne (hk : ∀ f, Q f → f.result ≠ .k) {t : Term} (h : t.FirstOrder Q) :
    t.sort ≠ .k := by
  cases h with
  | var v hsort => exact hsort
  | app f xs s hf hsignature =>
    have hresult := hk f hf
    rw [Symbol.result, hsignature] at hresult
    exact hresult
  | bool b => exact (by decide : SortName.bool ≠ .k)
  | int n => exact (by decide : SortName.int ≠ .k)
  | str s => exact (by decide : SortName.string ≠ .k)
  | closed xs => exact (by decide : SortName.list ≠ .k)
  | framed xs frame => exact (by decide : SortName.list ≠ .k)

/-- Elements in front of a frame of the sort of lists. -/
theorem FirstOrder.consFrame {xs : List Term} (hxs : ∀ x ∈ xs, x.FirstOrder Q) {t : Term}
    (ht : t.FirstOrder Q) (hsort : t.sort = .list) :
    (consFrame xs t).FirstOrder Q ∧ (consFrame xs t).sort = .list := by
  by_cases hlist : t.isList = true
  · cases ht with
    | closed ys hys =>
      rw [Term.consFrame]
      exact ⟨.closed _ fun x hx => (List.mem_append.mp hx).elim (hxs x) (hys x), rfl⟩
    | framed ys frame hne hys hframe hflat hframeSort =>
      rw [Term.consFrame, consFrame_of_not_list (by simp [hne]) hflat]
      exact ⟨.framed _ frame (by simp [hne])
        (fun x hx => (List.mem_append.mp hx).elim (hxs x) (hys x)) hframe hflat hframeSort, rfl⟩
    | _ => exact absurd hlist Bool.false_ne_true
  · rw [Bool.not_eq_true] at hlist
    by_cases hne : xs = []
    · subst hne
      cases t <;> first | exact ⟨ht, hsort⟩ | cases hlist
    · rw [consFrame_of_not_list hne hlist]
      exact ⟨.framed xs t hne hxs ht hlist hsort, rfl⟩

/-- The elements that a list has left, with its frame. -/
theorem FirstOrder.rest {xs : List Term} {frame : Option Term}
    (h : (Term.list xs frame).FirstOrder Q) (n : Nat) : (mkList (xs.drop n) frame).FirstOrder Q := by
  cases h with
  | closed _ hxs => exact .closed _ fun x hx => hxs x (List.mem_of_mem_drop hx)
  | framed _ u _ hxs hu _ hsort =>
    exact (FirstOrder.consFrame (fun x hx => hxs x (List.mem_of_mem_drop hx)) hu hsort).1

/-- Substituting terms of the right sorts. -/
theorem FirstOrder.substitute {f : Variable → Option Term}
    (hf : ∀ v u, f v = some u → u.FirstOrder Q ∧ u.sort = v.sort) {t : Term}
    (h : t.FirstOrder Q) : (t.substitute f).FirstOrder Q ∧ (t.substitute f).sort = t.sort := by
  have members {xs : List Term}
      (ih : ∀ x ∈ xs, (x.substitute f).FirstOrder Q ∧ (x.substitute f).sort = x.sort) :
      (∀ x ∈ xs.map (Term.substitute f), x.FirstOrder Q) ∧
        (xs.map (Term.substitute f)).map Term.sort = xs.map Term.sort :=
    ⟨List.forall_mem_map.mpr fun x hx => (ih x hx).1, map_map_congr fun x hx => (ih x hx).2⟩
  induction h with
  | var v hsort =>
    rw [Term.substitute]
    cases hv : f v with
    | none => exact ⟨.var v hsort, rfl⟩
    | some u => exact hf v u hv
  | app g xs s hg hsignature _ ih =>
    obtain ⟨hxs, hsorts⟩ := members ih
    rw [Term.substitute, substituteAll_eq]
    exact ⟨.app g _ s hg (hsorts ▸ hsignature) hxs, rfl⟩
  | closed xs _ ih =>
    rw [Term.substitute, substituteAll_eq]
    exact ⟨.closed _ (members ih).1, rfl⟩
  | framed xs frame _ _ _ _ hsort ih ihframe =>
    rw [Term.substitute, substituteAll_eq]
    exact FirstOrder.consFrame (members ih).1 ihframe.1 (ihframe.2.trans hsort)
  | bool b => exact ⟨.bool b, rfl⟩
  | int n => exact ⟨.int n, rfl⟩
  | str s => exact ⟨.str s, rfl⟩

theorem FirstOrder.decide (facts : Facts) {t : Term} (h : t.FirstOrder Q) :
    (facts.decide t).FirstOrder Q ∧ (facts.decide t).sort = t.sort := by
  rcases decide_cases facts t with hsame | ⟨b, _, hbool, htold⟩
  · rw [hsame]
    exact ⟨h, rfl⟩
  · rw [htold]
    exact ⟨.bool b, hbool.symm⟩

/-- There is nothing to evaluate but facts about terms of the sort of truth values. -/
theorem FirstOrder.evaluate (voc : Vocabulary) (facts : Facts) {t : Term} (h : t.FirstOrder Q) :
    (t.evaluate voc facts).FirstOrder Q ∧ (t.evaluate voc facts).sort = t.sort := by
  have members {xs : List Term} (ih : ∀ x ∈ xs, (x.evaluate voc facts).FirstOrder Q ∧
        (x.evaluate voc facts).sort = x.sort) :
      (∀ x ∈ xs.map (Term.evaluate voc facts), x.FirstOrder Q) ∧
        (xs.map (Term.evaluate voc facts)).map Term.sort = xs.map Term.sort :=
    ⟨List.forall_mem_map.mpr fun x hx => (ih x hx).1, map_map_congr fun x hx => (ih x hx).2⟩
  induction h with
  | var v hsort => exact FirstOrder.decide facts (.var v hsort)
  | app g xs s hg hsignature _ ih =>
    obtain ⟨hxs, hsorts⟩ := members ih
    rw [Term.evaluate, evaluateAll_eq, FirstOrder.app_eq (hsorts ▸ hsignature)]
    exact FirstOrder.decide facts (.app g _ s hg (hsorts ▸ hsignature) hxs)
  | closed xs _ ih =>
    rw [Term.evaluate, evaluateAll_eq]
    exact ⟨.closed _ (members ih).1, rfl⟩
  | framed xs frame _ _ _ _ hsort ih ihframe =>
    rw [Term.evaluate, evaluateAll_eq]
    exact FirstOrder.consFrame (members ih).1 ihframe.1 (ihframe.2.trans hsort)
  | bool b => exact ⟨.bool b, rfl⟩
  | int n => exact ⟨.int n, rfl⟩
  | str s => exact ⟨.str s, rfl⟩

theorem FirstOrder.rewrite (voc : Vocabulary) (facts : Facts) {f : Variable → Option Term}
    (hf : ∀ v u, f v = some u → u.FirstOrder Q ∧ u.sort = v.sort) {t : Term}
    (h : t.FirstOrder Q) :
    (t.rewrite voc facts f).FirstOrder Q ∧ (t.rewrite voc facts f).sort = t.sort := by
  obtain ⟨hsubstitute, hsort⟩ := FirstOrder.substitute hf h
  obtain ⟨hevaluate, hsort'⟩ := FirstOrder.evaluate voc facts hsubstitute
  exact ⟨hevaluate, hsort'.trans hsort⟩

end Term

/-! ## First-order equalities -/

variable {Q : Symbol → Prop} {voc : Vocabulary} {mode : SimplifyMode}

/-- Both sides are first-order terms. -/
def Equality.FirstOrder (Q : Symbol → Prop) (e : Equality) : Prop :=
  e.lhs.FirstOrder Q ∧ e.rhs.FirstOrder Q

/-- There are no connectives to take apart. -/
theorem Equality.FirstOrder.parts {e : Equality} (h : e.FirstOrder Q) : e.parts = [e] := by
  have hsplits {t : Term} (ht : t.FirstOrder Q) (b : Bool) : splits t b = false := by
    cases ht <;> rfl
  obtain ⟨lhs, rhs⟩ := e
  dsimp only [Equality.parts]
  split
  · rw [hsplits h.1, if_neg Bool.false_ne_true]
  · rw [hsplits h.2, if_neg Bool.false_ne_true]
  · rfl

namespace Formula

/-- Equalities between first-order terms and nothing else. -/
def Equational (Q : Symbol → Prop) : Formula → Prop
  | .falsified _ => True
  | .all s es ds => s.entries = [] ∧ ds = [] ∧ ∀ e ∈ es, e.FirstOrder Q

theorem equational_top : top.Equational Q := ⟨rfl, rfl, nofun⟩

theorem Equational.addEquality {φ : Formula} (hφ : φ.Equational Q) {e : Equality}
    (he : e.FirstOrder Q) : (φ.addEquality e).Equational Q := by
  rw [Formula.addEquality, he.parts, List.foldl_cons, List.foldl_nil]
  cases φ with
  | falsified w => trivial
  | all s es ds =>
    unfold addPart
    dsimp only
    split
    · exact hφ
    · trivial
    · split
      · exact hφ
      · refine ⟨hφ.1, hφ.2.1, fun d hd => ?_⟩
        rcases Sorted.mem_put _ hd with rfl | hd
        · exact he
        · exact hφ.2.2 d hd

theorem Equational.addFormula {φ ψ : Formula} (hφ : φ.Equational Q) (hψ : ψ.Equational Q) :
    (φ.addFormula ψ).Equational Q := by
  cases ψ with
  | falsified w =>
    rw [Formula.addFormula, merge]
    split
    · exact hφ
    · trivial
  | all s es ds =>
    obtain ⟨hs, rfl, hes⟩ := hψ
    rw [Formula.addFormula, merge, hs]
    change (φ.addEqualities es).Equational Q
    unfold addEqualities
    induction es generalizing φ with
    | nil => exact hφ
    | cons e es ih =>
      rw [List.forall_mem_cons] at hes
      exact ih (hφ.addEquality hes.1) hes.2

end Formula

namespace Unifier

theorem descends_firstOrder : Descends (Term.FirstOrder Q) (Formula.Equational Q) where
  args f xs s h := by
    cases h with
    | app _ _ _ _ _ hxs => exact hxs
  elements xs frame h := by
    cases h with
    | closed _ hxs => exact hxs
    | framed _ _ _ hxs => exact hxs
  rest _ _ n h := h.rest n
  top := Formula.equational_top
  terms _ _ _ hout ht hu := hout.addEquality ⟨ht, hu⟩
  formula _ _ hout hφ := hout.addFormula hφ

/-- First-order terms are taken apart into first-order terms. -/
theorem firstOrder_decompose {t u : Term} (ht : t.FirstOrder Q) (hu : u.FirstOrder Q)
    {out φ : Formula} (hout : out.Equational Q) (h : decompose mode t u out = .ok φ) :
    φ.Equational Q :=
  (descends_firstOrder.ways mode).decompose h ht hu hout

/-- Lists are split, or no constructor gives one. -/
def Splits (mode : SimplifyMode) (Q : Symbol → Prop) : Prop :=
  mode.partialLists = true ∨ ∀ f, Q f → f.result ≠ .list

/-- Equalities between first-order terms that are no variables are never given back. -/
theorem not_stuck (hQ : Constructors Q) (hmode : Splits mode Q) {t u : Term}
    (ht : t.FirstOrder Q) (hu : u.FirstOrder Q) (htvar : t.isVar = false)
    (huvar : u.isVar = false) : ¬Stuck mode t u := by
  intro hstuck
  have hrigid := ht.isRigid hQ htvar mode.patternFolding
  have hrigid' := hu.isRigid hQ huvar mode.patternFolding
  cases hstuck with
  | flexible h =>
    rw [hrigid, hrigid'] at h
    exact absurd h (by simp)
  | apps h =>
    cases ht with
    | app _ _ _ hf =>
      cases hu with
      | app _ _ _ hg =>
        rw [hQ.constructor _ hf, hQ.constructor _ hg] at h
        exact absurd h (by simp)
  | heads h =>
    have hpattern {t : Term} (ht : t.FirstOrder Q) : isPatternApp t = false := by
      cases ht with
      | app f _ _ hf =>
        have hconstructor := hQ.constructor f hf
        rw [Symbol.isConstructor, beq_iff_eq] at hconstructor
        rw [isPatternApp, Symbol.isPattern, hconstructor]
        rfl
      | _ => rfl
    rw [hpattern ht, hpattern hu] at h
    exact absurd h (by simp)
  | lists hpartial hne hclash hvar =>
    -- one of the remainders is a frame, and that is a variable
    have hresult := hmode.resolve_left (by simp [hpartial])
    have hframe {xs : List Term} {u : Term} (h : (Term.list xs (some u)).FirstOrder Q) :
        (Term.mkList [] (some u)).isVar = true := by
      cases h with
      | framed _ _ _ _ hu hlist hsort =>
        cases hu with
        | var v => rfl
        | app f xs s hf hsignature =>
          have hf := hresult f hf
          rw [Symbol.result, hsignature] at hf
          exact absurd hsort hf
        | closed _ _ => cases hlist
        | framed _ _ _ _ _ _ _ => cases hlist
        | bool b => exact absurd hsort (by decide : SortName.bool ≠ .list)
        | int n => exact absurd hsort (by decide : SortName.int ≠ .list)
        | str s => exact absurd hsort (by decide : SortName.string ≠ .list)
    rw [Bool.or_eq_false_iff] at hvar
    rcases frame_of_rests hne hclash with ⟨u, rfl, hnil⟩ | ⟨u, rfl, hnil⟩
    · rw [hnil, hframe ht] at hvar
      exact absurd hvar.1 (by simp)
    · rw [hnil, hframe hu] at hvar
      exact absurd hvar.2 (by simp)

end Unifier

/-! ## Steps -/

namespace Step

variable {names : FreshNames} {e : Equality} {step : Step}

/-- The equality is worked off: it is dropped, taken apart, or binds a variable to a first-order
    term of its sort. -/
def Solves (Q : Symbol → Prop) : Step → Prop
  | .drop => True
  | .split parts ds => ds = [] ∧ ∀ part ∈ parts, part.FirstOrder Q
  | .bind v t => t.FirstOrder Q ∧ t.sort = v.sort
  | .keep _ | .introduce _ _ => False

/-- An open equality is looked at further only if its sides have a common subsort. -/
theorem common_of_classify (h : classify voc Unifier.structural mode names e = .ok step)
    (htruth : e.truth = .unknown) :
    voc.lattice.haveCommonSubsort e.lhs.sort e.rhs.sort = true := by
  unfold classify at h
  rw [htruth] at h
  dsimp only at h
  split at h
  · exact absurd h nofun
  · rename_i hcommon
    simpa using hcommon

/-- An equality that became smaller is not the one it came from. -/
theorem ne_of_light {es : List Equality} (hes : (es.map Equality.size).sum ≤ e.size - 1)
    {part : Equality} (hpart : part ∈ es) : (part == e || part == e.reversed) = false := by
  have hsize : part.size ≤ (es.map Equality.size).sum :=
    List.single_le_sum (fun _ _ => Nat.zero_le _) _ (List.mem_map_of_mem hpart)
  have hpos : 1 ≤ e.size := Nat.le_trans e.lhs.size_pos (Nat.le_add_right _ _)
  have hbare {d : Equality} (h : (part == d) = true) : part.size = d.size := by
    obtain ⟨hl, hr⟩ := Equality.mk.inj ((Equality.beq_iff part d).mp h)
    rw [Equality.size, Equality.size, ← Term.size_bare part.lhs, ← Term.size_bare part.rhs, hl, hr,
      Term.size_bare, Term.size_bare]
  rw [Bool.or_eq_false_iff, ← Bool.not_eq_true, ← Bool.not_eq_true]
  refine ⟨fun h => ?_, fun h => ?_⟩
  · have heq := hbare h
    omega
  · have heq : part.size = e.rhs.size + e.lhs.size := hbare h
    have hself : e.size = e.lhs.size + e.rhs.size := rfl
    omega

/-- Every equality between first-order terms is worked off. -/
theorem solves_of_classify (hl : voc.lattice.Discrete) (hQ : Constructors Q)
    (hk : ∀ f, Q f → f.result ≠ .k) (hmode : Unifier.Splits mode Q) (he : e.FirstOrder Q)
    (h : classify voc Unifier.structural mode names e = .ok step) : step.Solves Q := by
  have hlist := classified voc mode names e
  rw [h] at hlist
  -- both sides are of one sort, unless they are equal anyway
  have hsort (htruth : e.truth = .unknown) : e.lhs.sort = e.rhs.sort :=
    (hl.common_iff (he.1.sort_ne hk) (he.2.sort_ne hk)).mp (common_of_classify h htruth)
  have hopen (hdrop : step ≠ .drop) : e.lhs.sort = e.rhs.sort := by
    refine hsort ?_
    unfold classify at h
    split at h
    · exact absurd (Except.ok.inj h).symm hdrop
    · exact absurd h (by simp)
    · assumption
  have hrelates {v : Variable} {t : Term} (hrel : e.Relates v t) (hdrop : step ≠ .drop) :
      t.FirstOrder Q ∧ t.sort = v.sort := by
    have hsorts := hopen hdrop
    rcases hrel with rfl | rfl
    · exact ⟨he.2, hsorts.symm⟩
    · exact ⟨he.1, hsorts⟩
  have hrefl (s : SortName) : voc.lattice.isSubsortEq s s ≠ false := by
    rw [voc.lattice.isSubsortEq_refl]
    exact Bool.true_eq_false_eq_False
  cases hlist with
  | drop htruth => trivial
  | returned s es hrigid hunify hreturned =>
    exfalso
    have hvar {t : Term} (ht : t.isRigid mode.patternFolding = true) : t.isVar = false := by
      cases t with
      | var v => cases ht
      | _ => rfl
    rw [Equality.isSimplifiable, Bool.and_eq_true] at hrigid
    rcases Unifier.decompose_cases Formula.light_top hunify with ⟨_, hstuck⟩ | ⟨hs, _, hes⟩
    · exact Unifier.not_stuck hQ hmode he.1 he.2 (hvar hrigid.1) (hvar hrigid.2) hstuck
    · obtain ⟨part, hpart, hsame⟩ := hreturned
      rw [Substitution.equalities, hs, List.map_nil, List.nil_append] at hpart
      rw [Nat.zero_add] at hes
      rw [ne_of_light hes hpart] at hsame
      exact absurd hsame (by simp)
  | split s es ds hunify =>
    obtain ⟨hs, hds, hes⟩ := Unifier.firstOrder_decompose he.1 he.2 Formula.equational_top hunify
    refine ⟨hds, ?_⟩
    rw [Substitution.equalities, hs]
    exact hes
  | bind v t hrel => exact hrelates hrel (by simp)
  | common x y s z names' hrel hglb hz =>
    subst hrel
    have hsame : x.sort = y.sort := hopen (by simp)
    have hstep := classify_vars (ne_of_introduce h) h
    rcases bindVariables_cases voc names x y ⟨.var x, .var y⟩ with
      ⟨_, hbind⟩ | ⟨_, _, hbind⟩ | ⟨hnot, _⟩
    · exact absurd (hstep.trans hbind) (by simp)
    · exact absurd (hstep.trans hbind) (by simp)
    · exact hrefl _ (hsame ▸ hnot)
  | incomparable x y hrel hne =>
    subst hrel
    exact absurd (hopen (by simp)) hne
  | narrow v f s vars sorts news names' hrel _ _ hbelow =>
    have hsame : s = v.sort := (hrelates hrel (by simp)).2
    exact hrefl s (hsame ▸ hbelow)
  | unbound v t hrel _ hbelow => exact hrefl _ ((hrelates hrel (by simp)).2 ▸ hbelow)
  | cyclic v t hrel _ _ hnormal =>
    rw [(hrelates hrel (by simp)).1.isNormal hQ] at hnormal
    exact absurd hnormal (by simp)
  | flexible hrigid hlhs hrhs =>
    rw [Equality.isSimplifiable, he.1.isRigid hQ hlhs, he.2.isRigid hQ hrhs] at hrigid
    exact absurd hrigid (by simp)

end Step

end Entail
