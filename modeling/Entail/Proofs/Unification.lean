import Entail.Proofs.Building
import Entail.Unifier

set_option autoImplicit false

/-! # The structural unifier

Taking an equality apart gives a formula that holds just where the equality does, and fails only
where two flat terms clash. Pattern symbols are taken apart under pattern folding alone, and then
they have to be injective. All that taking apart can do is said once, in `Ways`; what it keeps is
shown for each of the ways. -/

namespace Entail

variable {V : Type}

/-- Under pattern folding, pattern symbols are injective. -/
def Algebra.Folds (A : Algebra V) (mode : SimplifyMode) : Prop :=
  mode.patternFolding = true → ∀ name vs ws, vs.length = ws.length →
    A.pattern name vs = A.pattern name ws → vs = ws

namespace Unifier

open Term (Mixed FlatHead)

variable {A : Algebra V} {ρ : Variable → V} {mode : SimplifyMode}

/-! ## Heads -/

theorem heads_equal {t u : Term} (h : heads mode t u = .equal) : (t == u) = true := by
  unfold heads at h
  split_ifs at h with heq
  exact heq

theorem heads_rigid {t u : Term} (h : heads mode t u = .rigid) :
    (t == u) = false ∧ t.isRigid mode.patternFolding = true ∧
      u.isRigid mode.patternFolding = true := by
  unfold heads at h
  split_ifs at h with heq hrigid
  rw [Bool.and_eq_true] at hrigid
  exact ⟨by simpa using heq, hrigid⟩

/-- Terms that are neither two applications nor two lists are decided by their heads. -/
theorem decompose_mixed {t u : Term} (h : Mixed t u) (out : Formula) :
    decompose mode t u out =
      match heads mode t u with
      | .equal => .ok out
      | .flexible => .ok (out.addTerms t u)
      | .rigid => mismatchedHeads t u out := by
  cases t with
  | app f xs s =>
    cases u with
    | app g ys s' => exact absurd rfl (h.1 rfl)
    | _ => rfl
  | list xs frame =>
    cases u with
    | list ys frame' => exact absurd rfl (h.2 rfl)
    | _ => rfl
  | _ => rfl

theorem isRigid_app_iff (f : Symbol) (xs : List Term) (s : SortName) (folding : Bool) :
    (Term.app f xs s).isRigid folding = true ↔
      f.isConstructor = true ∨ f.isPattern = true ∧ folding = true := by
  unfold Term.isRigid Symbol.isConstructor Symbol.isPattern
  cases hkind : f.kind <;> simp [hkind]

/-- Rigid heads of different kinds clash, unless one of them is a pattern. -/
theorem clashes_of_rigid {t u : Term} (h : Mixed t u) (heads : heads mode t u = .rigid)
    (hpattern : (isPatternApp t || isPatternApp u) = false) : t.clashes u = true := by
  obtain ⟨hne, ht, hu⟩ := heads_rigid heads
  cases t <;> cases u <;>
    simp_all [Mixed, Term.rank, Term.clashes, isRigid_app_iff, Term.isToken, isPatternApp, bne] <;>
    simp_all [Term.isRigid]

/-- Different constructors clash, also if only the numbers of their arguments differ. -/
theorem clashes_of_constructors {f g : Symbol} {xs ys : List Term} {s s' : SortName}
    (hconstructors : (f.isConstructor && g.isConstructor) = true)
    (hdiffer : ¬(f.same g && xs.length == ys.length) = true) :
    (Term.app f xs s).clashes (.app g ys s') = true := by
  rw [Bool.and_eq_true, not_and_or] at hdiffer
  rw [Term.clashes, hconstructors, Bool.true_and]
  rcases hdiffer with hdiffer | hdiffer
  · simp [Bool.not_eq_true _ ▸ hdiffer]
  · simp [bne, Bool.not_eq_true _ ▸ hdiffer]

/-- Two rigid applications of one symbol are equal just when their arguments are. -/
theorem eval_apps_iff (hfolds : A.Folds mode) {f g : Symbol} {xs ys : List Term} {s s' : SortName}
    (hf : (Term.app f xs s).isRigid mode.patternFolding = true) (hsame : f.same g = true)
    (hlen : xs.length = ys.length) :
    (Term.app f xs s).eval A ρ = (Term.app g ys s').eval A ρ ↔
      ∀ p ∈ xs.zip ys, p.1.eval A ρ = p.2.eval A ρ := by
  obtain ⟨hname, hkind⟩ := (Symbol.same_iff f g).mp hsame
  have hargs : (∀ p ∈ xs.zip ys, p.1.eval A ρ = p.2.eval A ρ) ↔
      xs.map (Term.eval A ρ) = ys.map (Term.eval A ρ) := by
    rw [map_eq_map_iff_zip]
    exact ⟨fun h => ⟨hlen, h⟩, fun h => h.2⟩
  rw [hargs, Term.eval_app, Term.eval_app]
  constructor
  · intro h
    unfold Algebra.apply at h
    rw [← hkind, ← hname] at h
    cases hk : f.kind with
    | constructor =>
      rw [hk] at h
      exact (Shape.con.inj (A.make_injective h)).2
    | function =>
      rw [Term.isRigid, hk] at hf
      exact absurd hf Bool.false_ne_true
    | pattern =>
      rw [Term.isRigid, hk] at hf
      rw [hk] at h
      exact hfolds hf f.name _ _ (by rw [List.length_map, List.length_map, hlen]) h
  · intro h
    unfold Algebra.apply
    rw [hname, hkind, h]

/-- Two lists are equal when they agree at the common positions and the remainders are equal. -/
theorem eval_lists_iff (xs ys : List Term) (frame frame' : Option Term) :
    (Term.list xs frame).eval A ρ = (Term.list ys frame').eval A ρ ↔
      (∀ p ∈ xs.zip ys, p.1.eval A ρ = p.2.eval A ρ) ∧
        (Term.mkList (xs.drop ys.length) frame).eval A ρ =
          (Term.mkList (ys.drop xs.length) frame').eval A ρ := by
  rw [Term.eval_list, Term.eval_list, A.prepend_eq_iff, List.zip_map, List.forall_mem_map,
    Term.eval_mkList, Term.eval_mkList, List.map_drop, List.map_drop, List.length_map,
    List.length_map]
  rfl

/-! ## How equalities come apart -/

/-- Why an equality is given back as it is: a head is not rigid, the symbols are not constructors,
    or the remainders of two lists are unresolved and the mode asks for all or nothing. -/
inductive Stuck (mode : SimplifyMode) : Term → Term → Prop
  | flexible {t u : Term}
      (h : (t.isRigid mode.patternFolding && u.isRigid mode.patternFolding) = false) :
      Stuck mode t u
  | apps {f g : Symbol} {xs ys : List Term} {s s' : SortName}
      (h : (f.isConstructor && g.isConstructor) = false) :
      Stuck mode (.app f xs s) (.app g ys s')
  | heads {t u : Term} (h : (isPatternApp t || isPatternApp u) = true) : Stuck mode t u
  | lists {xs ys : List Term} {frame frame' : Option Term} (hmode : mode.partialLists = false)
      (hne : (Term.mkList (xs.drop ys.length) frame ==
        Term.mkList (ys.drop xs.length) frame') = false)
      (hclash : (Term.mkList (xs.drop ys.length) frame).clashes
        (Term.mkList (ys.drop xs.length) frame') = false)
      (hvar : ((Term.mkList (xs.drop ys.length) frame).isVar ||
        (Term.mkList (ys.drop xs.length) frame').isVar) = false) :
      Stuck mode (.list xs frame) (.list ys frame')

theorem stuck_of_flexible {t u : Term} (h : heads mode t u = .flexible) : Stuck mode t u := by
  unfold heads at h
  split_ifs at h with heq hrigid
  exact .flexible (by simpa using hrigid)

/-- `P` holds at the common positions of two lists, and what comes out at one of them goes into the
    next. -/
inductive Threaded (P : Term → Term → Formula → Formula → Prop) :
    List Term → List Term → Formula → Formula → Prop
  | left (ys : List Term) (out : Formula) : Threaded P [] ys out out
  | right (xs : List Term) (out : Formula) : Threaded P xs [] out out
  | cons {x y : Term} {xs ys : List Term} {out out' φ : Formula} (head : P x y out out')
      (tail : Threaded P xs ys out' φ) : Threaded P (x :: xs) (y :: ys) out φ

theorem threaded_of_decomposeAll {P : Term → Term → Formula → Formula → Prop} {xs : List Term}
    (ih : ∀ x ∈ xs, ∀ {u out φ}, decompose mode x u out = .ok φ → P x u out φ) {ys : List Term}
    {out φ : Formula} (h : decomposeAll mode xs ys out = .ok φ) : Threaded P xs ys out φ := by
  induction xs generalizing ys out with
  | nil =>
    obtain rfl := Except.ok.inj h
    exact .left ys out
  | cons x xs ihxs =>
    cases ys with
    | nil =>
      obtain rfl := Except.ok.inj h
      exact .right (x :: xs) out
    | cons y ys =>
      rw [List.forall_mem_cons] at ih
      rw [decomposeAll] at h
      split at h
      · exact absurd h nofun
      · rename_i out' hout'
        exact .cons (ih.1 hout') (ihxs ih.2 h)

/-- All that taking an equality apart can do: nothing is left of equal terms, an equality may stay as
    it is, the arguments of applications are taken apart, and so are the elements of lists, with an
    equality of the remainders unless these are equal. -/
structure Ways (mode : SimplifyMode) (P : Term → Term → Formula → Formula → Prop) : Prop where
  equal : ∀ t u out, (t == u) = true → P t u out out
  stuck : ∀ t u out, Stuck mode t u → P t u out (out.addTerms t u)
  apps : ∀ (f g : Symbol) xs ys s s' out φ, f.same g = true → xs.length = ys.length →
    Threaded P xs ys out φ → P (.app f xs s) (.app g ys s') out φ
  elements : ∀ xs ys frame frame' out elements, Threaded P xs ys .top elements →
    (Term.mkList (xs.drop ys.length) frame == Term.mkList (ys.drop xs.length) frame') = true →
    P (.list xs frame) (.list ys frame') out (out.addFormula elements)
  rests : ∀ xs ys frame frame' out elements, Threaded P xs ys .top elements →
    (Term.mkList (xs.drop ys.length) frame == Term.mkList (ys.drop xs.length) frame') = false →
    (Term.mkList (xs.drop ys.length) frame).clashes
      (Term.mkList (ys.drop xs.length) frame') = false →
    P (.list xs frame) (.list ys frame') out (out.addFormula (elements.addTerms
      (.mkList (xs.drop ys.length) frame) (.mkList (ys.drop xs.length) frame')))

section Ways

variable {P : Term → Term → Formula → Formula → Prop} (hP : Ways mode P)

include hP

theorem Ways.mixed {t u : Term} {out φ : Formula} (hmixed : Mixed t u)
    (h : decompose mode t u out = .ok φ) : P t u out φ := by
  rw [decompose_mixed hmixed] at h
  split at h
  · rename_i hheads
    obtain rfl := Except.ok.inj h
    exact hP.equal t u out (heads_equal hheads)
  · rename_i hheads
    obtain rfl := Except.ok.inj h
    exact hP.stuck t u out (stuck_of_flexible hheads)
  · unfold mismatchedHeads at h
    split at h
    · rename_i hpattern
      obtain rfl := Except.ok.inj h
      exact hP.stuck t u out (.heads hpattern)
    · exact absurd h nofun

theorem Ways.lists {xs ys : List Term} {frame frame' : Option Term} {out φ : Formula}
    (ih : ∀ x ∈ xs, ∀ {u out φ}, Unifier.decompose mode x u out = .ok φ → P x u out φ)
    (h : Unifier.decompose mode (.list xs frame) (.list ys frame') out = .ok φ) :
    P (.list xs frame) (.list ys frame') out φ := by
  rw [Unifier.decompose] at h
  split at h
  · rename_i hheads
    obtain rfl := Except.ok.inj h
    exact hP.equal _ _ out (heads_equal hheads)
  · rename_i hheads
    obtain rfl := Except.ok.inj h
    exact hP.stuck _ _ out (stuck_of_flexible hheads)
  · split at h
    · exact absurd h nofun
    · rename_i elements helements
      have hthreaded := threaded_of_decomposeAll ih helements
      unfold joinRests at h
      split_ifs at h with heq hclash hrest
      · obtain rfl := Except.ok.inj h
        exact hP.elements xs ys frame frame' out elements hthreaded heq
      · obtain rfl := Except.ok.inj h
        rw [Bool.not_eq_true] at heq hclash
        rw [Bool.and_eq_true, Bool.not_eq_true', Bool.not_eq_true'] at hrest
        exact hP.stuck _ _ out (.lists hrest.2 heq hclash hrest.1)
      · obtain rfl := Except.ok.inj h
        rw [Bool.not_eq_true] at heq hclash
        exact hP.rests xs ys frame frame' out elements hthreaded heq hclash

/-- What each of the ways gives holds of every equality that is taken apart. -/
theorem Ways.decompose {t u : Term} {out φ : Formula} (h : decompose mode t u out = .ok φ) :
    P t u out φ := by
  induction t using Term.ind generalizing u out φ with
  | app f xs s ih =>
    cases u with
    | app g ys s' =>
      rw [Unifier.decompose] at h
      split at h
      · rename_i hheads
        obtain rfl := Except.ok.inj h
        exact hP.equal _ _ out (heads_equal hheads)
      · rename_i hheads
        obtain rfl := Except.ok.inj h
        exact hP.stuck _ _ out (stuck_of_flexible hheads)
      · split at h
        · rename_i hsame
          rw [Bool.and_eq_true, beq_iff_eq] at hsame
          exact hP.apps f g xs ys s s' out φ hsame.1 hsame.2 (threaded_of_decomposeAll ih h)
        · unfold mismatchedApps at h
          split at h
          · exact absurd h nofun
          · rename_i hconstructors
            obtain rfl := Except.ok.inj h
            exact hP.stuck _ _ out (.apps (Bool.not_eq_true _ ▸ hconstructors))
    | _ => exact hP.mixed (by simp [Mixed, Term.rank]) h
  | closed xs ih =>
    cases u with
    | list ys frame' => exact hP.lists ih h
    | _ => exact hP.mixed (by simp [Mixed, Term.rank]) h
  | framed xs frame ih _ =>
    cases u with
    | list ys frame' => exact hP.lists ih h
    | _ => exact hP.mixed (by simp [Mixed, Term.rank]) h
  | _ => exact hP.mixed (by simp [Mixed, Term.rank]) h

end Ways

/-! ## Where the result holds -/

theorem Threaded.holds {xs ys : List Term} {out φ : Formula}
    (h : Threaded (fun t u out φ => φ.Holds A ρ → out.Holds A ρ ∧ t.eval A ρ = u.eval A ρ)
      xs ys out φ) (hφ : φ.Holds A ρ) :
    out.Holds A ρ ∧ ∀ p ∈ xs.zip ys, p.1.eval A ρ = p.2.eval A ρ := by
  induction h with
  | left ys out => exact ⟨hφ, nofun⟩
  | right xs out =>
    rw [List.zip_nil_right]
    exact ⟨hφ, nofun⟩
  | cons head _ ih =>
    obtain ⟨hout', hrest⟩ := ih hφ
    obtain ⟨hout, hhead⟩ := head hout'
    exact ⟨hout, List.forall_mem_cons.mpr ⟨hhead, hrest⟩⟩

theorem ways_holds (A : Algebra V) (ρ : Variable → V) (mode : SimplifyMode) : Ways mode
    fun t u out φ => φ.Holds A ρ → out.Holds A ρ ∧ t.eval A ρ = u.eval A ρ where
  equal t u out heq hout := ⟨hout, Term.eval_eq_of_beq A ρ heq⟩
  stuck t u out _ hφ := Formula.holds_of_addEquality hφ
  apps f g xs ys s s' out φ hsame hlen hargs hφ := by
    obtain ⟨hout, hargs⟩ := hargs.holds hφ
    have hmaps := (map_eq_map_iff_zip (Term.eval A ρ) xs ys).mpr ⟨hlen, hargs⟩
    obtain ⟨hname, hkind⟩ := (Symbol.same_iff f g).mp hsame
    refine ⟨hout, ?_⟩
    rw [Term.eval_app, Term.eval_app, hmaps, Algebra.apply, Algebra.apply, hname, hkind]
  elements xs ys frame frame' out elements helements heq hφ := by
    obtain ⟨hout, hels⟩ := Formula.holds_of_merge hφ
    have hrests := Term.eval_eq_of_beq A ρ heq
    exact ⟨hout, (eval_lists_iff xs ys frame frame').mpr ⟨(helements.holds hels).2, hrests⟩⟩
  rests xs ys frame frame' out elements helements _ _ hφ := by
    obtain ⟨hout, hjoined⟩ := Formula.holds_of_merge hφ
    obtain ⟨hels, hrests⟩ := Formula.holds_of_addEquality hjoined
    exact ⟨hout, (eval_lists_iff xs ys frame frame').mpr ⟨(helements.holds hels).2, hrests⟩⟩

/-- Where the result of taking an equality apart holds, the equality does. -/
theorem holds_of_decompose {t u : Term} {out φ : Formula} (h : decompose mode t u out = .ok φ)
    (hφ : φ.Holds A ρ) : out.Holds A ρ ∧ t.eval A ρ = u.eval A ρ :=
  (ways_holds A ρ mode).decompose h hφ

/-! ## What the result is made of -/

theorem Threaded.keeps {p : Term → Prop} {R : Formula → Prop} {xs ys : List Term}
    {out φ : Formula} (h : Threaded (fun t u out φ => p t → p u → R out → R φ) xs ys out φ)
    (hxs : ∀ x ∈ xs, p x) (hys : ∀ y ∈ ys, p y) (hout : R out) : R φ := by
  induction h with
  | left ys out => exact hout
  | right xs out => exact hout
  | cons head _ ih =>
    rw [List.forall_mem_cons] at hxs hys
    exact ih hxs.2 hys.2 (head hxs.1 hys.1 hout)

/-- A property of terms that goes to their arguments, elements and remainders, and one of formulas
    that is kept by adding equalities of such terms. -/
structure Descends (p : Term → Prop) (R : Formula → Prop) : Prop where
  args : ∀ f xs s, p (.app f xs s) → ∀ x ∈ xs, p x
  elements : ∀ xs frame, p (.list xs frame) → ∀ x ∈ xs, p x
  rest : ∀ xs frame n, p (.list xs frame) → p (.mkList (xs.drop n) frame)
  top : R .top
  terms : ∀ out t u, R out → p t → p u → R (out.addTerms t u)
  formula : ∀ out φ, R out → R φ → R (out.addFormula φ)

theorem Descends.ways {p : Term → Prop} {R : Formula → Prop} (hp : Descends p R)
    (mode : SimplifyMode) : Ways mode fun t u out φ => p t → p u → R out → R φ where
  equal _ _ _ _ _ _ hout := hout
  stuck t u out _ ht hu hout := hp.terms out t u hout ht hu
  apps f g xs ys s s' out φ _ _ hargs ht hu hout :=
    hargs.keeps (hp.args f xs s ht) (hp.args g ys s' hu) hout
  elements xs ys frame frame' out elements helements _ ht hu hout := by
    have hels := helements.keeps (hp.elements xs frame ht) (hp.elements ys frame' hu) hp.top
    exact hp.formula out elements hout hels
  rests xs ys frame frame' out elements helements _ _ ht hu hout := by
    have hels := helements.keeps (hp.elements xs frame ht) (hp.elements ys frame' hu) hp.top
    exact hp.formula out _ hout
      (hp.terms elements _ _ hels (hp.rest xs frame _ ht) (hp.rest ys frame' _ hu))

theorem Descends.decomposeAll {p : Term → Prop} {R : Formula → Prop} (hp : Descends p R)
    {xs ys : List Term} {out φ : Formula} (h : decomposeAll mode xs ys out = .ok φ)
    (hxs : ∀ x ∈ xs, p x) (hys : ∀ y ∈ ys, p y) (hout : R out) : R φ :=
  (threaded_of_decomposeAll (fun _ _ => (hp.ways mode).decompose) h).keeps hxs hys hout

theorem descends_all {p : Term → Prop} (hp : Term.Plain p) :
    Descends (Term.All p) (Formula.Unbound (Equality.All p)) where
  args f xs s h := ((Term.all_app_iff f xs s).mp h).2
  elements xs frame h := ((Term.all_list_iff xs frame).mp h).2.1
  rest _ _ n h := Term.all_rest hp h n
  top := Formula.everywhere_top rfl
  terms _ _ _ hout ht hu := Formula.everywhere_addEquality hp.bool hout ⟨ht, hu⟩
  formula _ _ hout hφ := Formula.everywhere_merge hp.bool (fun _ hs => hs) hφ hout

/-- The parts into which flat terms are taken apart have all properties of the terms. -/
theorem unbound_decompose {p : Term → Prop} (hp : Term.Plain p) {t u : Term} (ht : t.All p)
    (hu : u.All p) {out φ : Formula} (hout : out.Unbound (Equality.All p))
    (h : decompose mode t u out = .ok φ) : φ.Unbound (Equality.All p) :=
  ((descends_all hp).ways mode).decompose h ht hu hout

/-! ## Terms with one value -/

theorem exists_decomposeAll {xs : List Term} (hxs : ∀ x ∈ xs, x.Flat)
    (ih : ∀ x ∈ xs, ∀ u out, x.Flat → u.Flat → out.Holds A ρ → x.eval A ρ = u.eval A ρ →
      ∃ φ, decompose mode x u out = .ok φ ∧ φ.Holds A ρ) {ys : List Term}
    (hys : ∀ y ∈ ys, y.Flat) {out : Formula} (hout : out.Holds A ρ)
    (h : ∀ p ∈ xs.zip ys, p.1.eval A ρ = p.2.eval A ρ) :
    ∃ φ, decomposeAll mode xs ys out = .ok φ ∧ φ.Holds A ρ := by
  induction xs generalizing ys out with
  | nil => exact ⟨out, rfl, hout⟩
  | cons x xs ihxs =>
    cases ys with
    | nil => exact ⟨out, rfl, hout⟩
    | cons y ys =>
      rw [List.forall_mem_cons] at ih hxs hys
      rw [List.zip_cons_cons, List.forall_mem_cons] at h
      obtain ⟨out', hdecompose, hout'⟩ := ih.1 y out hxs.1 hys.1 hout h.1
      obtain ⟨φ, hall, hφ⟩ := ihxs hxs.2 ih.2 hys.2 hout' h.2
      exact ⟨φ, by rw [decomposeAll, hdecompose]; exact hall, hφ⟩

/-- Where two flat terms have one value, taking their equality apart succeeds and the result
    holds. -/
theorem exists_decompose (hfolds : A.Folds mode) {t u : Term} (ht : t.Flat) (hu : u.Flat)
    {out : Formula} (hout : out.Holds A ρ) (h : t.eval A ρ = u.eval A ρ) :
    ∃ φ, decompose mode t u out = .ok φ ∧ φ.Holds A ρ := by
  have mixed {t u : Term} (ht : t.Flat) (hu : u.Flat) {out : Formula} (hout : out.Holds A ρ)
      (hmixed : Mixed t u) (h : t.eval A ρ = u.eval A ρ) :
      ∃ φ, decompose mode t u out = .ok φ ∧ φ.Holds A ρ := by
    rw [decompose_mixed hmixed]
    split
    · exact ⟨out, rfl, hout⟩
    · exact ⟨_, rfl, Formula.holds_addEquality hout ⟨ht, hu⟩ h⟩
    · rename_i hrigid
      unfold mismatchedHeads
      split
      · exact ⟨_, rfl, Formula.holds_addEquality hout ⟨ht, hu⟩ h⟩
      · rename_i hpattern
        rw [Bool.not_eq_true] at hpattern
        exact absurd h (Term.clashes_sound A ρ ht hu (clashes_of_rigid hmixed hrigid hpattern))
  have lists {xs ys : List Term} {frame frame' : Option Term} {out : Formula}
      (ih : ∀ x ∈ xs, ∀ u out, x.Flat → u.Flat → out.Holds A ρ → x.eval A ρ = u.eval A ρ →
        ∃ φ, decompose mode x u out = .ok φ ∧ φ.Holds A ρ)
      (ht : (Term.list xs frame).Flat) (hu : (Term.list ys frame').Flat) (hout : out.Holds A ρ)
      (h : (Term.list xs frame).eval A ρ = (Term.list ys frame').eval A ρ) :
      ∃ φ, decompose mode (.list xs frame) (.list ys frame') out = .ok φ ∧ φ.Holds A ρ := by
    have hxs := ((Term.all_list_iff xs frame).mp ht).2.1
    have hys := ((Term.all_list_iff ys frame').mp hu).2.1
    obtain ⟨hcommon, hrests⟩ := (eval_lists_iff xs ys frame frame').mp h
    obtain ⟨elements, helements, hels⟩ :=
      exists_decomposeAll hxs ih hys (Formula.holds_top A ρ) hcommon
    have hunbound : elements.Unbound (Equality.All FlatHead) :=
      (descends_all Term.plain_flatHead).decomposeAll helements hxs hys (Formula.everywhere_top rfl)
    have hflat : Equality.All FlatHead ⟨_, _⟩ :=
      ⟨Term.all_rest Term.plain_flatHead ht ys.length, Term.all_rest Term.plain_flatHead hu xs.length⟩
    rw [decompose]
    split
    · exact ⟨out, rfl, hout⟩
    · exact ⟨_, rfl, Formula.holds_addEquality hout ⟨ht, hu⟩ h⟩
    · rw [helements]
      dsimp only
      unfold joinRests
      split_ifs with heq hclash hrest
      · exact ⟨_, rfl, Formula.holds_merge hunbound hout hels⟩
      · exact absurd hrests (Term.clashes_sound A ρ hflat.1 hflat.2 hclash)
      · exact ⟨_, rfl, Formula.holds_addEquality hout ⟨ht, hu⟩ h⟩
      · exact ⟨_, rfl, Formula.holds_merge
          (Formula.everywhere_addEquality (fun _ => trivial) hunbound hflat) hout
          (Formula.holds_addEquality hels hflat hrests)⟩
  induction t using Term.ind generalizing u out with
  | app f xs s ih =>
    cases u with
    | app g ys s' =>
      rw [decompose]
      split
      · exact ⟨out, rfl, hout⟩
      · exact ⟨_, rfl, Formula.holds_addEquality hout ⟨ht, hu⟩ h⟩
      · rename_i hrigid
        split
        · rename_i hsame
          rw [Bool.and_eq_true, beq_iff_eq] at hsame
          have hargs := (eval_apps_iff hfolds (heads_rigid hrigid).2.1 hsame.1 hsame.2).mp h
          exact exists_decomposeAll ((Term.all_app_iff f xs s).mp ht).2
            (fun x hx u out hx' hu' hout' => ih x hx hx' hu' hout')
            ((Term.all_app_iff g ys s').mp hu).2 hout hargs
        · rename_i hdiffer
          unfold mismatchedApps
          split
          · rename_i hconstructors
            exact absurd h (Term.clashes_sound A ρ ht hu
              (clashes_of_constructors hconstructors hdiffer))
          · exact ⟨_, rfl, Formula.holds_addEquality hout ⟨ht, hu⟩ h⟩
    | _ => exact mixed ht hu hout (by simp [Mixed, Term.rank]) h
  | closed xs ih =>
    cases u with
    | list ys frame' =>
      exact lists (fun x hx u out hx' hu' hout' => ih x hx hx' hu' hout') ht hu hout h
    | _ => exact mixed ht hu hout (by simp [Mixed, Term.rank]) h
  | framed xs frame ih _ =>
    cases u with
    | list ys frame' =>
      exact lists (fun x hx u out hx' hu' hout' => ih x hx hx' hu' hout') ht hu hout h
    | _ => exact mixed ht hu hout (by simp [Mixed, Term.rank]) h
  | _ => exact mixed ht hu hout (by simp [Mixed, Term.rank]) h

end Unifier

end Entail
