import Entail.Proofs.Composition
import Entail.Proofs.Freshness
import Entail.Proofs.Model
import Entail.Proofs.Unification

set_option autoImplicit false

/-! # One step of simplification

What can become of an equality is listed once, and everything else about a step is read off this
list: that it states no less than the equality, that no solution is lost when it succeeds, and why
it fails. -/

namespace Entail

variable {V : Type}

/-- The equality relates a variable and a term, in either orientation. -/
def Equality.Relates (e : Equality) (v : Variable) (t : Term) : Prop :=
  e = ⟨.var v, t⟩ ∨ e = ⟨t, .var v⟩

/-- Variables may come to those of `X`, but only new ones. -/
structure Extends (X X' : Variable → Prop) (names names' : FreshNames) : Prop where
  old : ∀ v, X v → X' v
  taken : ∀ n ∈ names.taken, n ∈ names'.taken
  known : ∀ v, X' v → v.name ∈ names'.taken
  new : ∀ v, X' v → X v ∨ (v.name ∉ names.taken ∧ v.isFresh = true)

theorem Extends.refl {X : Variable → Prop} {names : FreshNames}
    (h : ∀ v, X v → v.name ∈ names.taken) : Extends X X names names where
  old _ hv := hv
  taken _ hn := hn
  known := h
  new _ hv := Or.inl hv

theorem Extends.trans {X X' X'' : Variable → Prop} {names names' names'' : FreshNames}
    (h : Extends X X' names names') (h' : Extends X' X'' names' names'') :
    Extends X X'' names names'' where
  old v hv := h'.old v (h.old v hv)
  taken n hn := h'.taken n (h.taken n hn)
  known := h'.known
  new v hv := by
    rcases h'.new v hv with hv | ⟨hname, hfresh⟩
    · exact h.new v hv
    · exact Or.inr ⟨fun hmem => hname (h.taken _ hmem), hfresh⟩

namespace Step

/-! ## What can become of an equality -/

/-- The possible answers about an equality, with what is known when they are given. -/
inductive Classified (voc : Vocabulary) (mode : SimplifyMode) (names : FreshNames) (e : Equality) :
    Except Refutation Step → Prop
  | drop (htruth : e.truth = .true) : Classified voc mode names e (.ok .drop)
  | clash (htruth : e.truth = .false) : Classified voc mode names e (.error (.ofEquality e))
  | apart (htruth : e.truth = .unknown)
      (hsorts : voc.lattice.haveCommonSubsort e.lhs.sort e.rhs.sort = false) :
      Classified voc mode names e (.error (.ofEquality e))
  | mismatch (m : Mismatch) (hunify : Unifier.structural mode e.lhs e.rhs = .error m) :
      Classified voc mode names e (.error (.ofMismatch m))
  | falsified (w : Equality) (hunify : Unifier.structural mode e.lhs e.rhs = .ok (.falsified w)) :
      Classified voc mode names e (.error (.ofEquality w))
  | returned (s : Substitution) (es : List Equality)
      (hrigid : e.isSimplifiable mode.patternFolding = true)
      (hunify : Unifier.structural mode e.lhs e.rhs = .ok (.all s es []))
      (hreturned : ∃ part ∈ s.equalities ++ es, (part == e || part == e.reversed) = true) :
      Classified voc mode names e (.ok (.keep e))
  | split (s : Substitution) (es : List Equality) (ds : List Disjunction)
      (hunify : Unifier.structural mode e.lhs e.rhs = .ok (.all s es ds)) :
      Classified voc mode names e (.ok (.split (s.equalities ++ es) ds))
  | bind (v : Variable) (t : Term) (he : e.Relates v t) (hoccurs : v ∉ t.occurrences)
      (hsort : voc.lattice.isSubsortEq v.sort t.sort = true) :
      Classified voc mode names e (.ok (.bind v t))
  | common (x y : Variable) (s : SortName) (z : Variable) (names' : FreshNames)
      (he : e = ⟨.var x, .var y⟩) (hglb : voc.lattice.glb x.sort y.sort = some s)
      (hz : names.derive [x, y] s = (z, names')) :
      Classified voc mode names e (.ok (.introduce [⟨.var x, .var z⟩, ⟨.var y, .var z⟩] names'))
  | incomparable (x y : Variable) (he : e = ⟨.var x, .var y⟩) (hne : x.sort ≠ y.sort) :
      Classified voc mode names e (.ok (.keep e))
  | narrow (v : Variable) (f : Symbol) (s : SortName) (vars : List Variable)
      (sorts : List SortName) (news : List Variable) (names' : FreshNames)
      (he : e.Relates v (.app f (vars.map .var) s)) (hconstructor : f.isConstructor = true)
      (hoverloaded : f.isOverloaded = true) (hsort : voc.lattice.isSubsortEq v.sort s = false)
      (hsorts : narrowedSorts? voc v.sort f (vars.map (·.sort)) = some sorts)
      (hnews : names.deriveEach (vars.zip sorts) = (news, names')) (hoccurs : v ∉ vars) :
      Classified voc mode names e (.ok (.introduce
        (⟨.var v, voc.apply f (news.map .var)⟩ ::
          (vars.zip (news.map Term.var)).map fun pair => ⟨.var pair.1, pair.2⟩) names'))
  | unbound (v : Variable) (t : Term) (he : e.Relates v t) (hvar : t.isVar = false)
      (hsort : voc.lattice.isSubsortEq v.sort t.sort = false) :
      Classified voc mode names e (.ok (.keep e))
  | cyclic (v : Variable) (t : Term) (he : e.Relates v t) (hvar : t.isVar = false)
      (hoccurs : v ∈ t.occurrences) (hnormal : t.isNormal = false) :
      Classified voc mode names e (.ok (.keep e))
  | contained (v : Variable) (t : Term) (he : e.Relates v t) (hvar : t.isVar = false)
      (hoccurs : v ∈ t.occurrences) (hnormal : t.isNormal = true) :
      Classified voc mode names e (.error (.ofEquality e))
  | flexible (hrigid : e.isSimplifiable mode.patternFolding = false) (hlhs : e.lhs.isVar = false)
      (hrhs : e.rhs.isVar = false) : Classified voc mode names e (.ok (.keep e))

theorem allVars?_eq {ts : List Term} {vars : List Variable} (h : allVars? ts = some vars) :
    ts = vars.map .var := by
  induction ts generalizing vars with
  | nil =>
    obtain rfl := Option.some.inj h
    rfl
  | cons t ts ih =>
    cases t with
    | var v =>
      obtain ⟨rest, hrest, rfl⟩ := Option.map_eq_some_iff.mp h
      rw [ih hrest, List.map_cons]
    | _ => exact absurd h nofun

variable {voc : Vocabulary} {mode : SimplifyMode} {names : FreshNames} {e : Equality}

theorem classified_unify (hrigid : e.isSimplifiable mode.patternFolding = true) :
    Classified voc mode names e (unify Unifier.structural mode e) := by
  unfold unify
  split
  · rename_i m hunify
    exact .mismatch m hunify
  · rename_i w hunify
    exact .falsified w hunify
  · rename_i s es ds hunify
    dsimp only
    split
    · rename_i hreturned
      rw [Bool.and_eq_true, List.isEmpty_iff, List.any_eq_true] at hreturned
      obtain ⟨rfl, hreturned⟩ := hreturned
      exact .returned s es hrigid hunify hreturned
    · exact .split s es ds hunify

theorem classified_bindTerm {v : Variable} {t : Term} (he : e.Relates v t) (hvar : t.isVar = false) :
    Classified voc mode names e (bindTerm voc names v t e) := by
  have hbind (hoccurs : v ∉ t.occurrences) :
      Classified voc mode names e (.ok ((Step.narrow voc names v t).getD (.keep e))) := by
    unfold Step.narrow
    split
    · rename_i hsort
      exact .bind v t he hoccurs hsort
    · rename_i hsort
      rw [Bool.not_eq_true] at hsort
      have hkeep : Classified voc mode names e (.ok (.keep e)) := .unbound v t he hvar hsort
      split
      · rename_i f args s
        split
        · exact hkeep
        · rename_i hf
          rw [Bool.or_eq_true, not_or, Bool.not_eq_true', Bool.not_eq_true', Bool.not_eq_false,
            Bool.not_eq_false] at hf
          split
          · exact hkeep
          · rename_i vars hvars
            obtain rfl := allVars?_eq hvars
            split
            · exact hkeep
            · rename_i sorts hsorts
              rw [Term.occurrences, Term.allOccurrences_eq, List.flatMap_map] at hoccurs
              simp only [Term.occurrences, List.flatMap_singleton'] at hoccurs
              exact .narrow v f s vars sorts _ _ he hf.1 hf.2 hsort hsorts rfl hoccurs
      · exact hkeep
  unfold bindTerm
  split
  · rename_i hoccurs
    refine hbind fun hmem => ?_
    rw [(Term.occurs_iff v t).mpr hmem] at hoccurs
    exact absurd hoccurs Bool.false_ne_true
  · rename_i hoccurs
    rw [Bool.not_eq_true, Bool.not_eq_false', Term.occurs_iff] at hoccurs
    split
    · rename_i hnormal
      exact .contained v t he hvar hoccurs hnormal
    · rename_i hnormal
      exact .cyclic v t he hvar hoccurs (Bool.not_eq_true _ ▸ hnormal)

theorem classified_bindVariables {x y : Variable} (hne : x ≠ y) :
    Classified voc mode names ⟨.var x, .var y⟩
      (.ok (bindVariables voc names x y ⟨.var x, .var y⟩)) := by
  have notIn {v w : Variable} (h : v ≠ w) : v ∉ (Term.var w).occurrences :=
    fun hmem => h (List.mem_singleton.mp hmem)
  unfold bindVariables
  split
  · rename_i hsort
    rw [beq_iff_eq] at hsort
    split
    · refine .bind x (.var y) (Or.inl rfl) (notIn hne) ?_
      rw [Term.sort, hsort]
      exact voc.lattice.isSubsortEq_refl _
    · refine .bind y (.var x) (Or.inr rfl) (notIn hne.symm) ?_
      rw [Term.sort, hsort]
      exact voc.lattice.isSubsortEq_refl _
  · rename_i hsort
    rw [beq_iff_eq] at hsort
    split
    · rename_i hle
      exact .bind x (.var y) (Or.inl rfl) (notIn hne) hle
    · split
      · rename_i hle
        exact .bind y (.var x) (Or.inr rfl) (notIn hne.symm) hle
      · split
        · rename_i s hglb
          exact .common x y s _ _ rfl hglb rfl
        · exact .incomparable x y rfl hsort

theorem isVar_eq_false {t : Term} (h : ∀ v, t = .var v → False) : t.isVar = false := by
  rw [← Bool.not_eq_true, Term.isVar_eq_true_iff]
  exact fun ⟨v, hv⟩ => h v hv

/-- Every answer is one of the list. -/
theorem classified (voc : Vocabulary) (mode : SimplifyMode) (names : FreshNames) (e : Equality) :
    Classified voc mode names e (classify voc Unifier.structural mode names e) := by
  unfold classify
  split
  · rename_i htruth
    exact .drop htruth
  · rename_i htruth
    exact .clash htruth
  · rename_i htruth
    split
    · rename_i hsorts
      exact .apart htruth (by simpa using hsorts)
    · split
      · rename_i hrigid
        exact classified_unify hrigid
      · rename_i hrigid
        obtain ⟨lhs, rhs⟩ := e
        dsimp only
        split
        · rename_i x y
          refine classified_bindVariables ?_
          rintro rfl
          rw [(Equality.truth_true_iff _).mpr (Term.beq_self _)] at htruth
          exact absurd htruth nofun
        · rename_i x hrhs
          exact classified_bindTerm (Or.inl rfl) (isVar_eq_false hrhs)
        · rename_i x hlhs _
          exact classified_bindTerm (Or.inr rfl) (isVar_eq_false hlhs)
        · rename_i hlhs hrhs _
          rw [Bool.not_eq_true] at hrigid
          exact .flexible hrigid (isVar_eq_false hlhs) (isVar_eq_false hrhs)

/-! ## An equality between two variables -/

section

variable {x y : Variable}

/-- What becomes of an equality between two variables. -/
theorem bindVariables_cases (voc : Vocabulary) (names : FreshNames) (x y : Variable) (e : Equality) :
    (voc.lattice.isSubsortEq x.sort y.sort = true ∧
        bindVariables voc names x y e = .bind x (.var y)) ∨
      (voc.lattice.isSubsortEq y.sort x.sort = true ∧
        (x.sort ≠ y.sort → voc.lattice.isSubsortEq x.sort y.sort = false) ∧
        bindVariables voc names x y e = .bind y (.var x)) ∨
      (voc.lattice.isSubsortEq x.sort y.sort = false ∧
        voc.lattice.isSubsortEq y.sort x.sort = false ∧
        ((∃ g z names', voc.lattice.glb x.sort y.sort = some g ∧
            names.derive [x, y] g = (z, names') ∧ bindVariables voc names x y e =
              .introduce [⟨.var x, .var z⟩, ⟨.var y, .var z⟩] names') ∨
          bindVariables voc names x y e = .keep e)) := by
  have hrefl := voc.lattice.isSubsortEq_refl x.sort
  unfold bindVariables
  by_cases hsort : x.sort = y.sort
  · rw [if_pos (beq_iff_eq.mpr hsort), ← hsort]
    by_cases hgreater : (x.cmp y).isGT = true
    · exact Or.inl ⟨hrefl, if_pos hgreater⟩
    · exact Or.inr (Or.inl ⟨hrefl, fun hne => absurd rfl hne, if_neg hgreater⟩)
  · rw [if_neg (by simpa using hsort)]
    cases hxy : voc.lattice.isSubsortEq x.sort y.sort with
    | true => exact Or.inl ⟨rfl, if_pos rfl⟩
    | false =>
      rw [if_neg Bool.false_ne_true]
      cases hyx : voc.lattice.isSubsortEq y.sort x.sort with
      | true => exact Or.inr (Or.inl ⟨rfl, fun _ => rfl, if_pos rfl⟩)
      | false =>
        rw [if_neg Bool.false_ne_true]
        refine Or.inr (Or.inr ⟨rfl, rfl, ?_⟩)
        cases hglb : voc.lattice.glb x.sort y.sort with
        | some g => exact Or.inl ⟨g, _, _, rfl, rfl, rfl⟩
        | none => exact Or.inr rfl

/-- Two variables are made equal, if nothing is wrong with their sorts. -/
theorem classify_vars (hne : x ≠ y) {step : Step}
    (h : classify voc Unifier.structural mode names ⟨.var x, .var y⟩ = .ok step) :
    step = bindVariables voc names x y ⟨.var x, .var y⟩ := by
  have htruth : (⟨.var x, .var y⟩ : Equality).truth = .unknown := by
    have hdistinct : ((Term.var x) == (Term.var y)) = false := by
      rw [← Bool.not_eq_true, Term.beq_iff]
      intro heq
      exact hne (Term.var.inj heq)
    rw [Equality.truth, hdistinct]
    rfl
  unfold classify at h
  rw [htruth] at h
  dsimp only at h
  split at h
  · exact absurd h (by simp)
  · exact (Except.ok.inj h).symm

/-- Equal sides leave nothing to introduce. -/
theorem ne_of_introduce {parts : List Equality} {names' : FreshNames}
    (h : classify voc Unifier.structural mode names ⟨.var x, .var y⟩ =
      .ok (.introduce parts names')) : x ≠ y := by
  rintro rfl
  have htruth : (⟨.var x, .var x⟩ : Equality).truth = .true :=
    (Equality.truth_true_iff _).mpr (Term.beq_self _)
  unfold classify at h
  rw [htruth] at h
  exact absurd (Except.ok.inj h) nofun

end

/-! ## What a step states -/

/-- What is stated after the step instead of the equality. -/
def Holds (A : Algebra V) (ρ : Variable → V) : Step → Prop
  | .drop => True
  | .keep e => e.Holds A ρ
  | .split parts ds => (∀ part ∈ parts, part.Holds A ρ) ∧ ∀ d ∈ ds, d.Holds A ρ
  | .introduce parts _ => ∀ part ∈ parts, part.Holds A ρ
  | .bind v t => ρ v = t.eval A ρ

section

variable {A : Algebra V} {ρ : Variable → V}

theorem relates_holds_iff {v : Variable} {t : Term} (he : e.Relates v t) :
    e.Holds A ρ ↔ ρ v = t.eval A ρ := by
  rcases he with rfl | rfl
  · rfl
  · exact eq_comm

theorem structural_holds_iff (s : Substitution) (es : List Equality) (ds : List Disjunction) :
    (Formula.all s es ds).Holds A ρ ↔
      (∀ part ∈ s.equalities ++ es, part.Holds A ρ) ∧ ∀ d ∈ ds, d.Holds A ρ := by
  rw [Formula.holds_all_iff, List.forall_mem_append, Formula.holds_equalities_iff, and_assoc]

theorem eval_app_vars (f : Symbol) (vars : List Variable) (s : SortName) :
    (Term.app f (vars.map .var) s).eval A ρ = A.apply f (vars.map ρ) := by
  rw [Term.eval_app, List.map_map]
  rfl

/-- Equating variables with new ones, position by position, gives both lists the same values. -/
theorem renamed_hold_iff {vars news : List Variable} (hlen : vars.length = news.length) :
    (∀ part ∈ (vars.zip (news.map Term.var)).map fun pair => (⟨.var pair.1, pair.2⟩ : Equality),
      part.Holds A ρ) ↔ vars.map ρ = news.map ρ := by
  rw [List.forall_mem_map, List.zip_map_right, List.forall_mem_map, map_eq_map_iff_zip]
  exact ⟨fun h => ⟨hlen, h⟩, fun h => h.2⟩

theorem narrowed_length {target : SortName} {f : Symbol} {args sorts : List SortName}
    (h : narrowedSorts? voc target f args = some sorts) : sorts.length = args.length := by
  obtain ⟨sig, _, _, hlen, hglbs, _⟩ := narrowedSorts_spec h
  rw [← (forall_glbs hglbs).length_eq, List.length_zip, hlen, Nat.min_self]

theorem news_length {target : SortName} {f : Symbol} {vars news : List Variable}
    {sorts : List SortName} {names names' : FreshNames}
    (hsorts : narrowedSorts? voc target f (vars.map (·.sort)) = some sorts)
    (hnews : names.deriveEach (vars.zip sorts) = (news, names')) : vars.length = news.length := by
  have hlen := congrArg List.length (FreshNames.deriveEach_spec hnews).1
  have hsortsLen := narrowed_length hsorts
  rw [List.length_map, List.length_map, List.length_zip] at hlen
  rw [List.length_map] at hsortsLen
  omega

/-- Where what a step states holds, the equality does. -/
theorem holds_of_classify {step : Step}
    (h : classify voc Unifier.structural mode names e = .ok step) (hstep : step.Holds A ρ) :
    e.Holds A ρ := by
  have hlist := classified voc mode names e
  rw [h] at hlist
  cases hlist with
  | drop htruth => exact Equality.holds_of_truth htruth
  | split s es ds hunify =>
    exact (Unifier.holds_of_decompose hunify ((structural_holds_iff s es ds).mpr hstep)).2
  | bind v t he => exact (relates_holds_iff he).mpr hstep
  | common x y s z names' he =>
    have hx := hstep _ (List.mem_cons_self ..)
    have hy := hstep _ (List.mem_cons_of_mem _ (List.mem_cons_self ..))
    rw [he]
    exact Eq.trans hx hy.symm
  | narrow v f s vars sorts news names' he _ _ _ hsorts hnews =>
    obtain ⟨hv, hrenamed⟩ := List.forall_mem_cons.mp hstep
    have hvalues := (renamed_hold_iff (news_length hsorts hnews)).mp hrenamed
    rw [relates_holds_iff he, eval_app_vars, hvalues]
    exact Eq.trans hv (eval_app_vars f news _)
  | _ => exact hstep

end

/-! ## The variables of a step -/

/-- The variables in use after a step. -/
def scope (X : Variable → Prop) : Step → Variable → Prop
  | .introduce parts _ => fun v => X v ∨ ∃ part ∈ parts, v ∈ part.occurrences
  | _ => X

/-- The names that are taken after a step. -/
def namesAfter (names : FreshNames) : Step → FreshNames
  | .introduce _ names' => names'
  | _ => names

/-- `p` holds of all subterms that a step mentions. -/
def Each (p : Term → Prop) : Step → Prop
  | .drop => True
  | .keep e => e.All p
  | .split parts ds => (∀ part ∈ parts, part.All p) ∧
      ∀ d ∈ ds, ∀ φ ∈ d, Formula.Unbound (Equality.All p) φ
  | .introduce parts _ => ∀ part ∈ parts, part.All p
  | .bind v t => p (.var v) ∧ t.All p

/-- `p` holds of all subterms that a step mentions, where alternatives that are added may bind
    variables. -/
def EachPart (p : Term → Prop) : Step → Prop
  | .split parts ds => (∀ part ∈ parts, part.All p) ∧ ∀ d ∈ ds, ∀ φ ∈ d, Formula.Each p φ
  | step => step.Each p

theorem Each.eachPart {p : Term → Prop} {step : Step} (h : step.Each p) : step.EachPart p := by
  cases step with
  | split parts ds => exact ⟨h.1, fun d hd φ hφ => (h.2 d hd φ hφ).each⟩
  | _ => exact h

theorem occurrences_app_vars (f : Symbol) (vars : List Variable) (s : SortName) :
    (Term.app f (vars.map .var) s).occurrences = vars := by
  rw [Term.occurrences, Term.allOccurrences_eq, List.flatMap_map]
  simp [Term.occurrences]

/-- The variable and those of the term are in the equality. -/
theorem mem_occurrences_of_relates {v x : Variable} {t : Term} (he : e.Relates v t)
    (hx : x = v ∨ x ∈ t.occurrences) : x ∈ e.occurrences := by
  rcases he with rfl | rfl
  · exact List.mem_append.mpr (hx.imp_left List.mem_singleton.mpr)
  · exact List.mem_append.mpr (hx.symm.imp_right List.mem_singleton.mpr)

theorem relates_all {p : Term → Prop} {v : Variable} {t : Term} (he : e.Relates v t)
    (h : e.All p) : p (.var v) ∧ t.All p := by
  rcases he with rfl | rfl
  · exact h
  · exact ⟨h.2, h.1⟩

/-- What holds of all subterms of an equality, holds of all subterms of what it comes down to;
    new variables and the applications to them are to be looked at. -/
theorem each_of_classify {p : Term → Prop} (hp : Term.Plain p) (he : e.All p) {step : Step}
    (h : classify voc Unifier.structural mode names e = .ok step)
    (hnew : ∀ parts names', step = .introduce parts names' → ∀ v, (∃ part ∈ parts,
      v ∈ part.occurrences) → p (.var v))
    (happ : ∀ f xs s ys, p (.app f xs s) → p (voc.apply f ys)) : step.Each p := by
  have hlist := classified voc mode names e
  rw [h] at hlist
  cases hlist with
  | drop htruth => trivial
  | split s es ds hunify =>
    have hparts := Unifier.unbound_decompose hp he.1 he.2 (Formula.everywhere_top rfl) hunify
    obtain ⟨hs, hes, hds⟩ := (Formula.everywhere_all_iff s es ds).mp hparts
    refine ⟨?_, hds⟩
    rw [Substitution.equalities, hs]
    exact hes
  | bind v t hrel => exact relates_all hrel he
  | common x y s z names' hrel =>
    subst hrel
    have hz' : p (.var z) := hnew _ _ rfl z
      ⟨_, List.mem_cons_self .., List.mem_append_right _ (List.mem_singleton.mpr rfl)⟩
    intro part hpart
    rcases List.mem_cons.mp hpart with rfl | hpart
    · exact ⟨he.1, hz'⟩
    · obtain rfl := List.mem_singleton.mp hpart
      exact ⟨he.2, hz'⟩
  | narrow v f s vars sorts news names' hrel _ _ _ hsorts hnews =>
    obtain ⟨hv, happAll⟩ := relates_all hrel he
    have hnews' : ∀ z ∈ news, p (.var z) := by
      intro z hz
      refine hnew _ _ rfl z ⟨_, List.mem_cons_self .., ?_⟩
      refine List.mem_append_right _ ?_
      dsimp only [Vocabulary.apply]
      rw [occurrences_app_vars]
      exact hz
    obtain ⟨happ', hvars⟩ := (Term.all_app_iff f _ s).mp happAll
    rw [List.forall_mem_map] at hvars
    refine List.forall_mem_cons.mpr ⟨⟨hv, ?_⟩, ?_⟩
    · rw [Vocabulary.apply, Term.all_app_iff, List.forall_mem_map]
      exact ⟨happ f _ s _ happ', hnews'⟩
    · rw [List.forall_mem_map, List.zip_map_right, List.forall_mem_map]
      intro pair hpair
      obtain ⟨hx, hz⟩ := List.of_mem_zip hpair
      exact ⟨hvars _ hx, hnews' _ hz⟩
  | _ => exact he

theorem occurrences_common {x y z w : Variable}
    (h : ∃ part ∈ [⟨.var x, .var z⟩, (⟨.var y, .var z⟩ : Equality)], w ∈ part.occurrences) :
    w = x ∨ w = y ∨ w = z := by
  simp only [List.mem_cons, List.not_mem_nil, or_false, exists_eq_or_imp, exists_eq_left,
    Equality.occurrences, Term.occurrences, List.cons_append, List.nil_append] at h
  tauto

theorem occurrences_narrowed {v w : Variable} {f : Symbol} {vars news : List Variable}
    (h : ∃ part ∈ (⟨.var v, voc.apply f (news.map .var)⟩ : Equality) ::
      (vars.zip (news.map Term.var)).map fun pair => ⟨.var pair.1, pair.2⟩,
      w ∈ part.occurrences) : w = v ∨ w ∈ vars ∨ w ∈ news := by
  obtain ⟨part, hpart, hw⟩ := h
  rcases List.mem_cons.mp hpart with rfl | hpart
  · rcases List.mem_append.mp hw with hw | hw
    · exact Or.inl (List.mem_singleton.mp hw)
    · dsimp only [Vocabulary.apply] at hw
      rw [occurrences_app_vars] at hw
      exact Or.inr (Or.inr hw)
  · rw [List.zip_map_right, List.map_map] at hpart
    obtain ⟨pair, hpair, rfl⟩ := List.mem_map.mp hpart
    obtain ⟨hx, hz⟩ := List.of_mem_zip hpair
    rcases List.mem_append.mp hw with hw | hw
    · exact Or.inr (Or.inl (List.mem_singleton.mp hw ▸ hx))
    · exact Or.inr (Or.inr (List.mem_singleton.mp hw ▸ hz))

/-- A variable is bound only to a term that does not contain it. -/
theorem not_occurs_of_classify {v : Variable} {t : Term}
    (h : classify voc Unifier.structural mode names e = .ok (.bind v t)) : v ∉ t.occurrences := by
  have hlist := classified voc mode names e
  rw [h] at hlist
  cases hlist with
  | bind _ _ _ hoccurs => exact hoccurs

/-- The variables that a step introduces. -/
theorem introduced {X : Variable → Prop} {parts : List Equality} {names' : FreshNames}
    (hX : ∀ v, v ∈ e.occurrences → X v)
    (h : classify voc Unifier.structural mode names e = .ok (.introduce parts names')) :
    (∀ n ∈ names.taken, n ∈ names'.taken) ∧ ∀ v, (∃ part ∈ parts, v ∈ part.occurrences) →
      X v ∨ (v.name ∉ names.taken ∧ v.isFresh = true ∧ v.name ∈ names'.taken) := by
  have hlist := classified voc mode names e
  rw [h] at hlist
  cases hlist with
  | common x y s z _ hrel _ hz =>
    obtain ⟨_, hname, hfresh, htaken⟩ := FreshNames.derive_spec hz
    rw [htaken]
    refine ⟨fun n hn => List.mem_cons_of_mem _ hn, fun v hv => ?_⟩
    subst hrel
    rcases occurrences_common hv with rfl | rfl | rfl
    · exact Or.inl (hX v (List.mem_append_left _ (List.mem_singleton.mpr rfl)))
    · exact Or.inl (hX v (List.mem_append_right _ (List.mem_singleton.mpr rfl)))
    · exact Or.inr ⟨hname, hfresh, List.mem_cons_self ..⟩
  | narrow u f s vars sorts news _ hrel _ _ _ _ hnews =>
    obtain ⟨_, hnames, hkept⟩ := FreshNames.deriveEach_spec hnews
    have huvars : X u ∧ ∀ x ∈ vars, X x := by
      have hocc (s : SortName) : ∀ x ∈ vars, x ∈ (Term.app f (vars.map .var) s).occurrences := by
        rw [occurrences_app_vars]
        exact fun x hx => hx
      rcases hrel with rfl | rfl
      · exact ⟨hX u (List.mem_append_left _ (List.mem_singleton.mpr rfl)),
          fun x hx => hX x (List.mem_append_right _ (hocc s x hx))⟩
      · exact ⟨hX u (List.mem_append_right _ (List.mem_singleton.mpr rfl)),
          fun x hx => hX x (List.mem_append_left _ (hocc s x hx))⟩
    refine ⟨hkept, fun v hv => ?_⟩
    rcases occurrences_narrowed hv with rfl | hv | hv
    · exact Or.inl huvars.1
    · exact Or.inl (huvars.2 v hv)
    · exact Or.inr (hnames v hv)

/-- A step brings in new variables only. -/
theorem extends_scope {X : Variable → Prop} {step : Step} (hX : ∀ v, v ∈ e.occurrences → X v)
    (hnames : ∀ v, X v → v.name ∈ names.taken)
    (h : classify voc Unifier.structural mode names e = .ok step) :
    Extends X (step.scope X) names (step.namesAfter names) := by
  cases step with
  | introduce parts names' =>
    obtain ⟨hkept, hnew⟩ := introduced hX h
    refine ⟨fun v hv => Or.inl hv, hkept, fun v hv => ?_, fun v hv => ?_⟩
    · rcases hv with hv | hv
      · exact hkept _ (hnames v hv)
      · rcases hnew v hv with hv | hv
        · exact hkept _ (hnames v hv)
        · exact hv.2.2
    · rcases hv with hv | hv
      · exact Or.inl hv
      · exact (hnew v hv).imp_right fun hv => ⟨hv.1, hv.2.1⟩
  | _ => exact Extends.refl hnames

/-- What a step mentions stays within its variables and the symbols of the equality. -/
theorem within_scope {X : Variable → Prop} {Q : Symbol → Prop} {step : Step}
    (he : e.All (Term.WithinHead X Q))
    (h : classify voc Unifier.structural mode names e = .ok step) :
    step.Each (Term.WithinHead (step.scope X) Q) := by
  have hold : ∀ v, X v → step.scope X v := by
    intro v hv
    cases step with
    | introduce parts names' => exact Or.inl hv
    | _ => exact hv
  refine each_of_classify (Term.plain_within _ Q) ⟨Term.Within.mono hold he.1,
    Term.Within.mono hold he.2⟩ h (fun parts names' hstep v hv => ?_) fun f xs s ys hf => hf
  subst hstep
  exact Or.inr hv

/-- Parts have no other variables. -/
theorem occurrences_split {parts : List Equality} {ds : List Disjunction}
    (h : classify voc Unifier.structural mode names e = .ok (.split parts ds)) :
    ∀ part ∈ parts, ∀ v ∈ part.occurrences, v ∈ e.occurrences := by
  have hocc : e.All (Term.WithinHead (· ∈ e.occurrences) fun _ => True) :=
    ⟨Term.within_occurrences (Term.within_any _) fun v hv => List.mem_append_left _ hv,
      Term.within_occurrences (Term.within_any _) fun v hv => List.mem_append_right _ hv⟩
  have hwithin := (within_scope hocc h).1
  intro part hpart v hv
  rcases List.mem_append.mp hv with hv | hv
  · exact Term.Within.occurrences (hwithin part hpart).1 v hv
  · exact Term.Within.occurrences (hwithin part hpart).2 v hv

/-! ## Solutions of a step -/

section Solutions

variable {M : Model V} {X : Variable → Prop} {Q : Symbol → Prop} {D : SortName → Prop}
  {ρ : Variable → V}

theorem respects_new {parts : List Equality} {names names' : FreshNames} {ρ' : Variable → V}
    (hnames : ∀ v, X v → v.name ∈ names.taken) (hρ : M.Respects X ρ)
    (hkept : ∀ w, w.name ∈ names.taken → ρ' w = ρ w)
    (hnew : ∀ v, (∃ part ∈ parts, v ∈ part.occurrences) → ¬X v → M.mem v.sort (ρ' v)) :
    M.Respects ((Step.introduce parts names').scope X) ρ' := by
  intro v hv
  by_cases hX : X v
  · rw [hkept v (hnames v hX)]
    exact hρ v hX
  · exact hnew v (hv.resolve_left hX) hX

/-- The sorts of the variables that narrowing replaces are those of `D` still. -/
theorem narrow_spec (hM : M.Lossless voc Q D) (hleast : e.All (Term.LeastHead voc))
    (hwithin : e.All (Term.WithinHead X Q)) (hD : ∀ v, X v → D v.sort) {v : Variable} {f : Symbol}
    {s : SortName} {vars news : List Variable} {sorts : List SortName} {names' : FreshNames}
    (hrel : e.Relates v (.app f (vars.map .var) s)) (hconstructor : f.isConstructor = true)
    (hoverloaded : f.isOverloaded = true) (hsort : voc.lattice.isSubsortEq v.sort s = false)
    (hsorts : narrowedSorts? voc v.sort f (vars.map (·.sort)) = some sorts)
    (hnews : names.deriveEach (vars.zip sorts) = (news, names')) :
    X v ∧ (∀ x ∈ vars, X x) ∧ news.map (·.sort) = sorts ∧ sorts.length = vars.length ∧
      (∀ t ∈ sorts, D t) ∧ ∀ vs, List.Forall₂ M.mem (vars.map (·.sort)) vs →
        M.mem v.sort (M.apply f vs) → List.Forall₂ M.mem sorts vs := by
  obtain ⟨hv, happ⟩ := relates_all hrel hwithin
  obtain ⟨_, hleastApp⟩ := relates_all hrel hleast
  obtain ⟨hf, hvars⟩ := (Term.all_app_iff f _ s).mp happ
  rw [List.forall_mem_map] at hvars
  have hs : s = voc.leastSort f (vars.map (·.sort)) := by
    have hhead := hleastApp.head
    rwa [Term.LeastHead, List.map_map] at hhead
  rw [hs] at hsort
  have hlen := narrowed_length hsorts
  rw [List.length_map] at hlen
  have hnewSorts : news.map (·.sort) = sorts := by
    rw [(FreshNames.deriveEach_spec hnews).1]
    exact List.map_snd_zip hlen.le
  exact ⟨hv, hvars, hnewSorts, hlen, hM.narrow f v.sort _ sorts hf hconstructor hoverloaded
    (List.forall_mem_map.mpr fun x hx => hD x (hvars x hx)) hsort hsorts⟩

/-- The sorts of the variables in use stay in `D`. -/
theorem sorts_of_classify (hM : M.Lossless voc Q D) (hleast : e.All (Term.LeastHead voc))
    (hwithin : e.All (Term.WithinHead X Q)) (hD : ∀ v, X v → D v.sort) {step : Step}
    (h : classify voc Unifier.structural mode names e = .ok step) :
    ∀ v, step.scope X v → D v.sort := by
  have hlist := classified voc mode names e
  rw [h] at hlist
  cases hlist with
  | common x y s z names' hrel hglb hz =>
    subst hrel
    intro v hv
    rcases hv with hv | hv
    · exact hD v hv
    · rcases occurrences_common hv with rfl | rfl | rfl
      · exact hD v hwithin.1
      · exact hD v hwithin.2
      · rw [(FreshNames.derive_spec hz).1]
        exact (hM.glb x.sort y.sort s (hD x hwithin.1) (hD y hwithin.2) hglb).1
  | narrow v f s vars sorts news names' hrel hconstructor hoverloaded hsort hsorts hnews =>
    obtain ⟨hv, hvars, hnewSorts, _, hDs, _⟩ :=
      narrow_spec hM hleast hwithin hD hrel hconstructor hoverloaded hsort hsorts hnews
    intro w hw
    rcases hw with hw | hw
    · exact hD w hw
    · rcases occurrences_narrowed hw with rfl | hw | hw
      · exact hD w hv
      · exact hD w (hvars w hw)
      · exact hDs _ (hnewSorts ▸ List.mem_map_of_mem hw)
  | _ => exact hD

/-- Where an equality between flat terms holds, so does what it comes down to, if no variables are
    introduced. -/
theorem holds_of_flat {A : Algebra V} (hfolds : A.Folds mode) (hflat : e.All Term.FlatHead)
    (he : e.Holds A ρ) {step : Step}
    (h : classify voc Unifier.structural mode names e = .ok step)
    (hnone : ∀ parts names', step ≠ .introduce parts names') : step.Holds A ρ := by
  have hlist := classified voc mode names e
  rw [h] at hlist
  cases hlist with
  | drop htruth => trivial
  | split s es ds hunify =>
    obtain ⟨φ, hφ, hholds⟩ := Unifier.exists_decompose hfolds hflat.1 hflat.2
      (Formula.holds_top A ρ) he
    rw [Unifier.structural, hφ] at hunify
    obtain rfl := Except.ok.inj hunify
    exact (structural_holds_iff s es ds).mp hholds
  | bind v t hrel => exact (relates_holds_iff hrel).mp he
  | common x y s z names' => exact absurd rfl (hnone _ _)
  | narrow v f s vars sorts news names' => exact absurd rfl (hnone _ _)
  | _ => exact he

/-- A solution of the equality gives one of the step, with values for the new variables. -/
theorem exists_of_classify (hM : M.Lossless voc Q D) (hfolds : M.Folds mode)
    (hflat : e.All Term.FlatHead) (hleast : e.All (Term.LeastHead voc))
    (hwithin : e.All (Term.WithinHead X Q)) (hnames : ∀ v, X v → v.name ∈ names.taken)
    (hD : ∀ v, X v → D v.sort) (hρ : M.Respects X ρ) (he : e.Holds M.toAlgebra ρ) {step : Step}
    (h : classify voc Unifier.structural mode names e = .ok step) :
    ∃ ρ' : Variable → V, (∀ w, w.name ∈ names.taken → ρ' w = ρ w) ∧
      M.Respects (step.scope X) ρ' ∧ step.Holds M.toAlgebra ρ' := by
  have hkept (hnone : ∀ parts names', step ≠ .introduce parts names') :=
    holds_of_flat hfolds hflat he h hnone
  have hlist := classified voc mode names e
  rw [h] at hlist
  cases hlist with
  | common x y s z names' hrel hglb hz =>
    subst hrel
    obtain ⟨hsort, hname, _, _⟩ := FreshNames.derive_spec hz
    have hx : X x := hwithin.1
    have hy : X y := hwithin.2
    have hne {w : Variable} (hw : w.name ∈ names.taken) : w ≠ z := by
      rintro rfl
      exact hname hw
    have hmem := (hM.glb x.sort y.sort s (hD x hx) (hD y hy) hglb).2
    refine ⟨Function.update ρ z (ρ x), fun w hw => Function.update_of_ne (hne hw) ..,
      respects_new hnames hρ (fun w hw => Function.update_of_ne (hne hw) ..) fun v hv hX => ?_, ?_⟩
    · rcases occurrences_common hv with rfl | rfl | rfl
      · exact absurd hx hX
      · exact absurd hy hX
      · rw [hsort, Function.update_self]
        refine hmem _ (hρ x hx) ?_
        rw [show ρ x = ρ y from he]
        exact hρ y hy
    · intro part hpart
      simp only [List.mem_cons, List.not_mem_nil, or_false] at hpart
      rcases hpart with rfl | rfl
      · rw [Equality.Holds, Term.eval, Term.eval, Function.update_self,
          Function.update_of_ne (hne (hnames x hx))]
      · rw [Equality.Holds, Term.eval, Term.eval, Function.update_self,
          Function.update_of_ne (hne (hnames y hy))]
        exact Eq.symm he
  | narrow v f s vars sorts news names' hrel hconstructor hoverloaded hsort hsorts hnews =>
    obtain ⟨hv, hargs, hnewSorts, hlen, _, hmem⟩ :=
      narrow_spec hM hleast hwithin hD hrel hconstructor hoverloaded hsort hsorts hnews
    have hvalue := (relates_holds_iff hrel).mp he
    rw [eval_app_vars] at hvalue
    have hvs : List.Forall₂ M.mem sorts (vars.map ρ) := by
      refine hmem _ ?_ (hvalue ▸ hρ v hv)
      rw [List.forall₂_map_left_iff, List.forall₂_map_right_iff, List.forall₂_same]
      exact fun x hx => hρ x (hargs x hx)
    have hcount : (vars.map ρ).length = (vars.zip sorts).length := by
      rw [List.length_map, List.length_zip, hlen, Nat.min_self]
    obtain ⟨ρ', hkept, hvalues⟩ := FreshNames.exists_values hnews ρ hcount
    have hsame : vars.map ρ' = vars.map ρ :=
      List.map_congr_left fun x hx => hkept x (hnames x (hargs x hx))
    have hnewMem : ∀ z ∈ news, M.mem z.sort (ρ' z) := by
      rw [← hvalues, ← hnewSorts, List.forall₂_map_left_iff, List.forall₂_map_right_iff,
        List.forall₂_same] at hvs
      exact hvs
    refine ⟨ρ', hkept, respects_new hnames hρ hkept fun w hw hX => ?_, ?_⟩
    · rcases occurrences_narrowed hw with rfl | hw | hw
      · exact absurd hv hX
      · exact absurd (hargs w hw) hX
      · exact hnewMem w hw
    · refine List.forall_mem_cons.mpr
        ⟨?_, (renamed_hold_iff (news_length hsorts hnews)).mpr (hsame.trans hvalues.symm)⟩
      rw [Equality.Holds, Vocabulary.apply, eval_app_vars, hvalues, ← hvalue, Term.eval,
        hkept v (hnames v hv)]
  | _ => exact ⟨ρ, fun _ _ => rfl, hρ, hkept (by simp)⟩

/-- An equality between flat terms that holds is refuted by the test of the two sorts alone. -/
theorem refuted_of_classify (hfolds : M.Folds mode) (hflat : e.All Term.FlatHead)
    (he : e.Holds M.toAlgebra ρ) {r : Refutation}
    (h : classify voc Unifier.structural mode names e = .error r) :
    r = .ofEquality e ∧ e.truth = .unknown ∧
      voc.lattice.haveCommonSubsort e.lhs.sort e.rhs.sort = false := by
  obtain ⟨φ, hφ, hholds⟩ := Unifier.exists_decompose hfolds hflat.1 hflat.2
    (Formula.holds_top M.toAlgebra ρ) he
  have hlist := classified voc mode names e
  rw [h] at hlist
  cases hlist with
  | clash htruth => exact absurd he (Equality.not_holds_of_truth hflat.1 hflat.2 htruth)
  | apart htruth hsorts => exact ⟨rfl, htruth, hsorts⟩
  | mismatch m hunify =>
    rw [Unifier.structural, hφ] at hunify
    exact absurd hunify nofun
  | falsified w hunify =>
    rw [Unifier.structural, hφ] at hunify
    obtain rfl := Except.ok.inj hunify
    exact absurd hholds (Formula.not_holds_falsified _ _ w)
  | contained v t hrel hvar hoccurs hnormal =>
    obtain ⟨_, hflatTerm⟩ := relates_all hrel hflat
    have hne : t ≠ .var v := by
      rintro rfl
      exact absurd hvar nofun
    have hvalue := (relates_holds_iff hrel).mp he
    exact absurd hvalue (Term.eval_ne_of_occurs M.toAlgebra ρ hflatTerm hnormal hne hoccurs)

end Solutions

end Step

end Entail
