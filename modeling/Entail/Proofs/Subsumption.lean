import Entail.Proofs.Typing

set_option autoImplicit false

/-! # Having a sort

A term has every sort above one that it has, and an application has the least sort for whatever
sorts its arguments have. The sort that a term is written with may grow where a variable is replaced
by one of a smaller sort, since two signatures may then fit of which neither is the least. The sorts
that a term has are not lost that way. Neither are they lost where a fact is used that does not hold:
a fact gives a truth value for a term of sort `Bool`, and such a term has no sort that is not above
`Bool`. -/

namespace Entail

variable {V : Type}

/-- The sorts of the values that operations and conditions are about. -/
def SortName.IsBasic (s : SortName) : Prop := s = .bool ∨ s = .int

namespace Term

mutual

/-- The term has the sort. -/
def Has (voc : Vocabulary) : Term → SortName → Prop
  | .var v, s => voc.lattice.isSubsortEq s v.sort = true
  | .bool _, s => voc.lattice.isSubsortEq s .bool = true
  | .int _, s => voc.lattice.isSubsortEq s .int = true
  | .str _, s => voc.lattice.isSubsortEq s .string = true
  | .app f xs _, s =>
    ∃ sorts, HasAll voc xs sorts ∧ voc.lattice.isSubsortEq s (voc.leastSort f sorts) = true
  | .builtin op _, s => voc.lattice.isSubsortEq s op.resultSort = true
  | .list [] (some frame), s => Has voc frame s
  | .list _ _, s => voc.lattice.isSubsortEq s .list = true
  | .ite _ t e, s => Has voc t s ∧ Has voc e s
termination_by structural t => t

def HasAll (voc : Vocabulary) : List Term → List SortName → Prop
  | [], sorts => sorts = []
  | t :: ts, sorts => ∃ s rest, sorts = s :: rest ∧ Has voc t s ∧ HasAll voc ts rest
termination_by structural ts => ts

end

/-- What relates two lists relates them still if it follows for the members of the first. -/
theorem forall₂_of_mem {α β : Type} {R S : α → β → Prop} {xs : List α} {ys : List β}
    (hRS : ∀ x ∈ xs, ∀ y, R x y → S x y) (h : List.Forall₂ R xs ys) : List.Forall₂ S xs ys :=
  ((List.forall₂_and_left xs ys).mpr ⟨hRS, h⟩).imp fun _ y h => h.1 y h.2

variable {voc : Vocabulary}

theorem hasAll_iff (ts : List Term) (sorts : List SortName) :
    HasAll voc ts sorts ↔ List.Forall₂ (Has voc) ts sorts := by
  induction ts generalizing sorts with
  | nil => rw [HasAll, List.forall₂_nil_left_iff]
  | cons t ts ih =>
    rw [HasAll, List.forall₂_cons_left_iff]
    simp only [ih]
    constructor
    · rintro ⟨s, rest, rfl, ht, hts⟩
      exact ⟨s, rest, ht, hts, rfl⟩
    · rintro ⟨s, rest, ht, hts, rfl⟩
      exact ⟨s, rest, rfl, ht, hts⟩

theorem has_app_iff (f : Symbol) (xs : List Term) (s r : SortName) :
    (app f xs s).Has voc r ↔ ∃ sorts, List.Forall₂ (Has voc) xs sorts ∧
      voc.lattice.isSubsortEq r (voc.leastSort f sorts) = true := by
  rw [Has]
  simp only [hasAll_iff]

theorem has_closed_iff (xs : List Term) (s : SortName) :
    (list xs none).Has voc s ↔ voc.lattice.isSubsortEq s .list = true := by
  cases xs <;> exact Iff.rfl

/-- Elements before the frame make it a list. -/
theorem has_framed_iff {xs : List Term} (hne : xs ≠ []) (frame : Term) (s : SortName) :
    (list xs (some frame)).Has voc s ↔ voc.lattice.isSubsortEq s .list = true := by
  cases xs with
  | nil => exact absurd rfl hne
  | cons x xs => exact Iff.rfl

/-- A term has all sorts above one that it has. -/
theorem Has.mono (hl : voc.lattice.Closed) (hacyclic : voc.lattice.Acyclic) {t : Term}
    {s r : SortName} (hrs : voc.lattice.isSubsortEq r s = true) (ht : t.Has voc s) :
    t.Has voc r := by
  induction t using Term.ind with
  | app f xs a _ =>
    rw [has_app_iff] at ht ⊢
    obtain ⟨sorts, hsorts, hs⟩ := ht
    exact ⟨sorts, hsorts, hacyclic.trans hl hrs hs⟩
  | closed xs _ =>
    rw [has_closed_iff] at ht ⊢
    exact hacyclic.trans hl hrs ht
  | framed xs frame _ ihframe =>
    cases xs with
    | nil => exact ihframe ht
    | cons x xs => exact hacyclic.trans hl hrs ht
  | ite c t e _ iht ihe => exact ⟨iht ht.1, ihe ht.2⟩
  | _ => exact hacyclic.trans hl hrs ht

/-- Joining a frame that is a list to the elements before it keeps sorts. -/
theorem has_consFrame {xs : List Term} {frame : Term} {s : SortName}
    (h : (list xs (some frame)).Has voc s) : (consFrame xs frame).Has voc s := by
  induction frame using Term.ind generalizing xs with
  | closed ys _ =>
    rw [consFrame, has_closed_iff]
    cases xs with
    | nil => exact (has_closed_iff ys s).mp h
    | cons x xs => exact h
  | framed ys frame _ ih =>
    rw [consFrame]
    refine ih ?_
    cases xs with
    | nil => exact h
    | cons x xs => exact h
  | _ =>
    rw [consFrame]
    · cases xs with
      | nil => exact h
      | cons x xs => exact h
    all_goals simp

/-- Terms that fit the variables they replace keep the sorts of a term. -/
theorem has_substitute (hl : voc.lattice.Closed) (hacyclic : voc.lattice.Acyclic)
    {f : Variable → Option Term} (hf : ∀ v u, f v = some u → u.Has voc v.sort) {t : Term}
    {s : SortName} (ht : t.Has voc s) : (t.substitute f).Has voc s := by
  induction t using Term.ind generalizing s with
  | var v =>
    rw [substitute]
    cases hv : f v with
    | none => exact ht
    | some u => exact (hf v u hv).mono hl hacyclic ht
  | app g xs a ih =>
    obtain ⟨sorts, hsorts, hs⟩ := (has_app_iff g xs a s).mp ht
    rw [substitute, substituteAll_eq, has_app_iff]
    refine ⟨sorts, List.forall₂_map_left_iff.mpr ?_, hs⟩
    exact forall₂_of_mem (fun x hx _ hr => ih x hx hr) hsorts
  | closed xs _ =>
    rw [has_closed_iff] at ht
    rw [substitute, has_closed_iff]
    exact ht
  | framed xs frame _ ihframe =>
    rw [substitute, mkList, substituteAll_eq]
    refine has_consFrame ?_
    cases xs with
    | nil => exact ihframe ht
    | cons x xs => exact ht
  | ite c t e _ iht ihe => exact ⟨iht ht.1, ihe ht.2⟩
  | _ => exact ht

/-! ## Sortable terms -/

/-- Connectives are applied to truth values; the condition of a conditional is a truth value, and
    its branches are both integers or both truth values. -/
def SortableHead (voc : Vocabulary) (Q : Symbol → Prop) : Term → Prop
  | .app f _ _ => Q f
  | .builtin op xs => op.isConnective = true → ∀ x ∈ xs, x.Has voc .bool
  | .ite c t e => c.Has voc .bool ∧ ∃ s : SortName, s.IsBasic ∧ t.Has voc s ∧ e.Has voc s
  | _ => True

abbrev Sortable (voc : Vocabulary) (Q : Symbol → Prop) (t : Term) : Prop := t.All (SortableHead voc Q)

variable {M : Model V} {Q : Symbol → Prop} {X : Variable → Prop} {ρ : Variable → V}

theorem plain_sortable (voc : Vocabulary) (Q : Symbol → Prop) : Plain (SortableHead voc Q) where
  bool _ := trivial
  closed _ := trivial
  framed _ _ _ _ := trivial

theorem Sortable.within {t : Term} (h : t.Sortable voc Q) : t.Within (fun _ => True) Q := by
  refine All.mono (fun u hu => ?_) h
  cases u with
  | app f xs s => exact hu
  | _ => exact trivial

/-- Terms that fit the variables they replace keep a term sortable. -/
theorem sortable_substitute (hl : voc.lattice.Closed) (hacyclic : voc.lattice.Acyclic)
    {f : Variable → Option Term}
    (hf : ∀ v u, f v = some u → u.Has voc v.sort ∧ u.Sortable voc Q) {t : Term}
    (ht : t.Sortable voc Q) : (t.substitute f).Sortable voc Q := by
  have hkept {u : Term} {s : SortName} (hu : u.Has voc s) : (u.substitute f).Has voc s :=
    has_substitute hl hacyclic (fun v t hv => (hf v t hv).1) hu
  refine all_substitute
    { token := fun t ht => ?_
      var := fun v _ => ?_
      app := fun _ _ _ hg => hg
      builtin := fun op xs hxs hop => ?_
      closed := fun _ => trivial
      framed := fun _ _ _ _ => trivial
      ite := fun c t e ⟨hc, s, hs, ht, he⟩ => ⟨hkept hc, s, hs, hkept ht, hkept he⟩ } ht
  · cases t <;> trivial
  · cases hv : f v with
    | none => trivial
    | some u => exact (hf v u hv).2
  · rw [List.forall_mem_map]
    exact fun x hx => hkept (hxs hop x hx)

/-- The value of a sortable term lies in every sort that the term has. -/
theorem mem_of_has (hordered : M.Ordered voc.lattice) (hsorted : M.Sorted voc Q)
    (hρ : M.Respects X ρ) {t : Term} (ht : t.Within X Q) (hsortable : t.Sortable voc Q) {s : SortName}
    (hs : t.Has voc s) : M.mem s (t.eval M.toAlgebra ρ) := by
  induction t using Term.ind generalizing s with
  | var v => exact hordered.mono _ _ _ hs (hρ v ht)
  | bool b => exact hordered.mono _ _ _ hs (hsorted.bool b)
  | int n => exact hordered.mono _ _ _ hs (hsorted.int n)
  | str a => exact hordered.mono _ _ _ hs (hsorted.str a)
  | app f xs a ih =>
    obtain ⟨hf, hxs⟩ := (all_app_iff f xs a).mp ht
    have hsortableXs := ((all_app_iff f xs a).mp hsortable).2
    obtain ⟨sorts, hsorts, hle⟩ := (has_app_iff f xs a s).mp hs
    rw [eval_app]
    refine hordered.mono _ _ _ hle (hsorted.app f hf sorts _ ?_)
    rw [List.forall₂_map_right_iff]
    exact (forall₂_of_mem (fun x hx r hr => ih x hx (hxs x hx) (hsortableXs x hx) hr) hsorts).flip
  | builtin op xs ih =>
    have hxs := ((all_builtin_iff op xs).mp ht).2
    obtain ⟨hhead, hsortableXs⟩ := (all_builtin_iff op xs).mp hsortable
    rw [eval_builtin]
    refine hordered.mono _ _ _ hs (operate_mem hsorted.bool hsorted.int op fun hop => ?_)
    rw [List.forall_mem_map]
    exact fun x hx => ih x hx (hxs x hx) (hsortableXs x hx) (hhead hop x hx)
  | closed xs _ =>
    rw [eval_list]
    refine hordered.mono _ _ _ ((has_closed_iff xs s).mp hs) ?_
    cases xs with
    | nil => exact hsorted.nil
    | cons x xs => exact hsorted.cons _ _
  | framed xs frame _ ihframe =>
    rw [eval_list]
    cases xs with
    | nil =>
      exact ihframe (((all_list_iff [] (some frame)).mp ht).2.2 frame rfl)
        (((all_list_iff [] (some frame)).mp hsortable).2.2 frame rfl) hs
    | cons x xs => exact hordered.mono _ _ _ hs (hsorted.cons _ _)
  | ite c t e _ iht ihe =>
    obtain ⟨_, _, ht, he⟩ := (all_ite_iff c t e).mp ht
    obtain ⟨_, _, htSortable, heSortable⟩ := (all_ite_iff c t e).mp hsortable
    rw [eval_ite, Algebra.choose]
    split_ifs
    · exact iht ht htSortable hs.1
    · exact ihe he heSortable hs.2

/-- Connectives in sortable terms are applied to truth values. -/
theorem typedHead_of_sortable (hordered : M.Ordered voc.lattice) (hsorted : M.Sorted voc Q)
    (hρ : M.Respects X ρ) {t : Term}
    (ht : t.All fun u => u.WithinHead X Q ∧ u.SortableHead voc Q) : t.TypedHead M ρ := by
  cases t with
  | builtin op xs =>
    obtain ⟨hhead, hxs⟩ := (all_builtin_iff op xs).mp ht
    intro hop x hx
    exact mem_of_has hordered hsorted hρ (All.mono (fun _ h => h.1) (hxs x hx))
      (All.mono (fun _ h => h.2) (hxs x hx)) (hhead.2 hop x hx)
  | _ => trivial

theorem typed_of_sortable (hordered : M.Ordered voc.lattice) (hsorted : M.Sorted voc Q)
    (hρ : M.Respects X ρ) {t : Term} (ht : t.Within X Q) (hsortable : t.Sortable voc Q) :
    t.All (TypedHead M ρ) :=
  All.imp (fun _ hu _ => typedHead_of_sortable hordered hsorted hρ hu) (ht.and hsortable) ht

end Term

/-! ## Sorts that are compared by their values -/

/-- A model by which sorts are compared: every variable can be given a value, and no sort lies below
    those of truth values and integers. -/
structure Model.Compares (M : Model V) (voc : Vocabulary) (Q : Symbol → Prop) : Prop where
  closed : voc.lattice.Closed
  acyclic : voc.lattice.Acyclic
  ordered : M.Ordered voc.lattice
  sorted : M.Sorted voc Q
  inhabited : ∃ ρ : Variable → V, M.Respects (fun _ => True) ρ
  minimal : ∀ s : SortName, s.IsBasic → ∀ r, voc.lattice.isSubsortEq s r = true → r = s

namespace Term

variable {voc : Vocabulary} {M : Model V} {Q : Symbol → Prop} {facts : Facts}

/-- A term that has the sort of truth values or integers has no sorts but those above it. -/
theorem Has.least (hM : M.Compares voc Q) {t : Term} (ht : t.Sortable voc Q) {s r : SortName}
    (hbasic : s.IsBasic) (hs : t.Has voc s) (hr : t.Has voc r) :
    voc.lattice.isSubsortEq r s = true := by
  obtain ⟨ρ, hρ⟩ := hM.inhabited
  have hvalue {a : SortName} (ha : t.Has voc a) : M.mem a (t.eval M.toAlgebra ρ) :=
    mem_of_has hM.ordered hM.sorted hρ ht.within ht ha
  obtain ⟨common, hsc, hrc, _⟩ := hM.ordered.meet s r _ (hvalue hs) (hvalue hr)
  obtain rfl := hM.minimal s hbasic common hsc
  exact hrc

/-! ## Evaluation -/

/-- A sortable term is written with a sort that it has. -/
def AptHead (voc : Vocabulary) (Q : Symbol → Prop) (t : Term) : Prop :=
  t.SortableHead voc Q ∧ t.Has voc t.sort

abbrev Apt (voc : Vocabulary) (Q : Symbol → Prop) (t : Term) : Prop :=
  t.All (AptHead voc Q)

theorem Apt.sortable {t : Term} (h : t.Apt voc Q) : t.Sortable voc Q :=
  All.mono (fun _ hu => hu.1) h

theorem Apt.has {t : Term} (h : t.Apt voc Q) : t.Has voc t.sort := (All.head h).2

theorem aptHead_token {t : Term} (ht : t.isToken = true) : AptHead voc Q t := by
  cases t with
  | bool b => exact ⟨trivial, voc.lattice.isSubsortEq_refl _⟩
  | int n => exact ⟨trivial, voc.lattice.isSubsortEq_refl _⟩
  | str a => exact ⟨trivial, voc.lattice.isSubsortEq_refl _⟩
  | _ => exact absurd ht nofun

theorem aptHead_closed (xs : List Term) : AptHead voc Q (.list xs none) :=
  ⟨trivial, (has_closed_iff xs _).mpr (voc.lattice.isSubsortEq_refl _)⟩

theorem aptHead_framed {xs : List Term} (hne : xs ≠ []) (frame : Term) :
    AptHead voc Q (.list xs (some frame)) :=
  ⟨trivial, (has_framed_iff hne frame _).mpr (voc.lattice.isSubsortEq_refl _)⟩

/-- `u` is written with a sort that it has, and has the sorts of `t`. -/
structure Refines (voc : Vocabulary) (Q : Symbol → Prop) (t u : Term) : Prop where
  apt : u.Apt voc Q
  has : ∀ s, t.Has voc s → u.Has voc s

/-- A fact, right or wrong, takes no sort from a term. -/
theorem Refines.decide (hM : M.Compares voc Q) {t u : Term} (h : Refines voc Q t u) :
    Refines voc Q t (facts.decide u) where
  apt := all_decide (fun _ => aptHead_token rfl) h.apt
  has s hs := by
    have hu := h.has s hs
    rcases decide_cases facts u with hsame | ⟨b, _, hbool, htold⟩
    · rwa [hsame]
    · -- the term has the sort `Bool`, so all its sorts are above it
      have hleast := h.apt.has
      rw [hbool] at hleast
      rw [htold]
      exact hleast.least hM h.apt.sortable (Or.inl rfl) hu

/-- Applying an operation as far as its arguments are known takes no sort from it. -/
theorem has_reduceBuiltin (hl : voc.lattice.Closed) (hacyclic : voc.lattice.Acyclic)
    {op : Builtin} {xs : List Term} (h : (builtin op xs).Sortable voc Q) {s : SortName}
    (hs : voc.lattice.isSubsortEq s op.resultSort = true) : (reduceBuiltin op xs).Has voc s := by
  obtain ⟨hhead, hxs⟩ := (all_builtin_iff op xs).mp h
  have hreduces := reducesTo_reduceBuiltin op xs
  generalize reduceBuiltin op xs = t at hreduces ⊢
  cases hreduces with
  | token htoken hsort =>
    rw [← hsort] at hs
    cases t <;> first | exact hs | cases htoken
  | argument hop hx =>
    rcases hop with rfl | rfl <;> exact (hhead rfl t hx).mono hl hacyclic hs
  | negated hop hinner =>
    subst hop hinner
    -- the argument of the inner negation is a truth value
    have hx := ((all_builtin_iff _ _).mp (hxs _ (List.mem_singleton.mpr rfl))).1
    exact (hx rfl t (List.mem_singleton.mpr rfl)).mono hl hacyclic hs
  | stuck hself =>
    subst hself
    exact hs

/-- Evaluation, with facts that may be wrong, leaves a term written with a sort that it has, and
    takes no sort from it. -/
theorem refines_evaluate (hM : M.Compares voc Q) (facts : Facts) {t : Term}
    (ht : t.Sortable voc Q) : Refines voc Q t (t.evaluate voc facts) := by
  have hapt {xs : List Term} (hxs : ∀ x ∈ xs, x.Sortable voc Q)
      (ih : ∀ x ∈ xs, x.Sortable voc Q → Refines voc Q x (x.evaluate voc facts)) :
      ∀ x ∈ xs.map (evaluate voc facts), x.Apt voc Q := by
    rw [List.forall_mem_map]
    exact fun x hx => (ih x hx (hxs x hx)).apt
  induction t using Term.ind with
  | var v =>
    rw [evaluate]
    exact Refines.decide hM ⟨⟨trivial, voc.lattice.isSubsortEq_refl _⟩, fun _ hs => hs⟩
  | app f xs a ih =>
    obtain ⟨hf, hxs⟩ := (all_app_iff f xs a).mp ht
    have hnew := hapt hxs ih
    rw [evaluate, evaluateAll_eq]
    refine Refines.decide hM ⟨(all_app_iff _ _ _).mpr ⟨⟨hf, ?_⟩, hnew⟩, fun s hs => ?_⟩
    · -- the sorts that the arguments are written with
      refine (has_app_iff _ _ _ _).mpr ⟨_, ?_, voc.lattice.isSubsortEq_refl _⟩
      rw [List.forall₂_map_right_iff, List.forall₂_same]
      exact fun x hx => Apt.has (hnew x hx)
    · obtain ⟨sorts, hsorts, hle⟩ := (has_app_iff f xs a s).mp hs
      refine (has_app_iff _ _ _ _).mpr ⟨sorts, List.forall₂_map_left_iff.mpr ?_, hle⟩
      exact forall₂_of_mem (fun x hx r hr => (ih x hx (hxs x hx)).has r hr) hsorts
  | builtin op xs ih =>
    obtain ⟨hhead, hxs⟩ := (all_builtin_iff op xs).mp ht
    have hnew := hapt hxs ih
    have hhead' : AptHead voc Q (.builtin op (xs.map (evaluate voc facts))) := by
      refine ⟨fun hop => ?_, voc.lattice.isSubsortEq_refl _⟩
      rw [List.forall_mem_map]
      exact fun x hx => (ih x hx (hxs x hx)).has _ (hhead hop x hx)
    have hself : (builtin op (xs.map (evaluate voc facts))).Apt voc Q :=
      (all_builtin_iff _ _).mpr ⟨hhead', hnew⟩
    rw [evaluate, evaluateAll_eq]
    exact Refines.decide hM
      ⟨all_reduceBuiltin (fun _ ht => aptHead_token ht) op hnew fun _ => hhead', fun s hs =>
        has_reduceBuiltin hM.closed hM.acyclic hself.sortable hs⟩
  | closed xs ih =>
    rw [evaluate, evaluateAll_eq]
    refine ⟨(all_list_iff _ _).mpr ⟨aptHead_closed _,
      hapt ((all_list_iff xs none).mp ht).2.1 ih, by simp⟩, fun s hs => ?_⟩
    rw [has_closed_iff] at hs ⊢
    exact hs
  | framed xs frame ih ihframe =>
    obtain ⟨_, hxs, hframe⟩ := (all_list_iff xs (some frame)).mp ht
    have hnew := ihframe (hframe frame rfl)
    rw [evaluate, evaluateAll_eq]
    refine ⟨all_mkList aptHead_closed (fun _ frame hne _ => aptHead_framed hne frame)
      (hapt hxs ih) fun u hu => ?_, fun s hs => has_consFrame ?_⟩
    · obtain rfl := Option.mem_some_iff.mp hu
      exact hnew.apt
    · cases xs with
      | nil => exact hnew.has s hs
      | cons x xs => exact hs
  | ite c t e ihc iht ihe =>
    obtain ⟨⟨hcond, s, hbasic, hthen, helse⟩, hc, ht, he⟩ := (all_ite_iff c t e).mp ht
    have hcNew := ihc hc
    have htNew := iht ht
    have heNew := ihe he
    rw [evaluate]
    split
    · exact ⟨htNew.apt, fun r hr => htNew.has r hr.1⟩
    · exact ⟨heNew.apt, fun r hr => heNew.has r hr.2⟩
    rw [mergeBranches]
    split
    · exact ⟨htNew.apt, fun r hr => htNew.has r hr.1⟩
    -- the second branch has the sort that the first one is written with, which is above `s`
    have hle : voc.lattice.isSubsortEq (t.evaluate voc facts).sort s = true :=
      (htNew.has s hthen).least hM htNew.apt.sortable hbasic htNew.apt.has
    have hhead : AptHead voc Q
        (.ite (c.evaluate voc facts) (t.evaluate voc facts) (e.evaluate voc facts)) :=
      ⟨⟨hcNew.has _ hcond, s, hbasic, htNew.has s hthen, heNew.has s helse⟩, htNew.apt.has,
        (heNew.has s helse).mono hM.closed hM.acyclic hle⟩
    exact Refines.decide hM ⟨(all_ite_iff _ _ _).mpr ⟨hhead, hcNew.apt, htNew.apt,
      heNew.apt⟩, fun r hr => ⟨htNew.has r hr.1, heNew.has r hr.2⟩⟩
  | bool b => exact ⟨aptHead_token rfl, fun _ hs => hs⟩
  | int n => exact ⟨aptHead_token rfl, fun _ hs => hs⟩
  | str a => exact ⟨aptHead_token rfl, fun _ hs => hs⟩

/-- Rewriting with bindings that fit leaves a term written with a sort that it has, and takes no
    sort from it. -/
theorem refines_rewrite (hM : M.Compares voc Q) (facts : Facts) {f : Variable → Option Term}
    (hf : ∀ v u, f v = some u → u.Has voc v.sort ∧ u.Sortable voc Q) {t : Term}
    (ht : t.Sortable voc Q) : Refines voc Q t (t.rewrite voc facts f) := by
  have hnew := refines_evaluate hM facts (sortable_substitute hM.closed hM.acyclic hf ht)
  exact ⟨hnew.apt, fun s hs => hnew.has s
    (has_substitute hM.closed hM.acyclic (fun v u hv => (hf v u hv).1) hs)⟩

/-! ## Checked terms -/

/-- What is asked of a term by the sorts that it and its parts are written with: an application
    stands at the least sort for its arguments, operations are applied to as many terms as they take,
    of the sorts that they take, a frame is a list, a condition is a truth value, and branches are
    two integers or two truth values. -/
def CheckedHead (voc : Vocabulary) : Term → Prop
  | .app f xs s => s = voc.leastSort f (xs.map sort)
  | .builtin op xs => xs.length = op.arity ∧
      ∀ x ∈ xs, voc.lattice.isSubsortEq op.argumentSort x.sort = true
  | .list _ (some frame) => voc.lattice.isSubsortEq .list frame.sort = true
  | .ite c t e => voc.lattice.isSubsortEq .bool c.sort = true ∧
      ∃ s : SortName, s.IsBasic ∧ t.sort = s ∧ e.sort = s
  | _ => True

/-- Checked terms are sortable, and have the sorts that they are written with. -/
theorem apt_of_checked (hl : voc.lattice.Closed) (hacyclic : voc.lattice.Acyclic)
    {X : Variable → Prop} {t : Term} (ht : t.Within X Q) (hchecked : t.All (CheckedHead voc)) :
    t.Apt voc Q := by
  induction t using Term.ind with
  | var v => exact ⟨trivial, voc.lattice.isSubsortEq_refl _⟩
  | app f xs s ih =>
    obtain ⟨hf, hxs⟩ := (all_app_iff f xs s).mp ht
    obtain ⟨rfl, hcheckedXs⟩ := (all_app_iff f xs s).mp hchecked
    have hapt := fun x hx => ih x hx (hxs x hx) (hcheckedXs x hx)
    refine (all_app_iff f xs _).mpr ⟨⟨hf, ?_⟩, hapt⟩
    refine (has_app_iff f xs _ _).mpr ⟨xs.map sort, ?_, voc.lattice.isSubsortEq_refl _⟩
    rw [List.forall₂_map_right_iff, List.forall₂_same]
    exact fun x hx => Apt.has (hapt x hx)
  | builtin op xs ih =>
    have hxs := ((all_builtin_iff op xs).mp ht).2
    obtain ⟨⟨_, hargs⟩, hcheckedXs⟩ := (all_builtin_iff op xs).mp hchecked
    have hapt := fun x hx => ih x hx (hxs x hx) (hcheckedXs x hx)
    refine (all_builtin_iff op xs).mpr
      ⟨⟨fun hop x hx => ?_, voc.lattice.isSubsortEq_refl _⟩, hapt⟩
    have hle := hargs x hx
    rw [argumentSort_of_isConnective hop] at hle
    exact (Apt.has (hapt x hx)).mono hl hacyclic hle
  | closed xs ih =>
    have hxs := ((all_list_iff xs none).mp ht).2.1
    have hcheckedXs := ((all_list_iff xs none).mp hchecked).2.1
    exact (all_list_iff xs none).mpr
      ⟨aptHead_closed xs, fun x hx => ih x hx (hxs x hx) (hcheckedXs x hx), nofun⟩
  | framed xs frame ih ihframe =>
    obtain ⟨_, hxs, hframe⟩ := (all_list_iff xs (some frame)).mp ht
    obtain ⟨hle, hcheckedXs, hcheckedFrame⟩ := (all_list_iff xs (some frame)).mp hchecked
    have hapt := ihframe (hframe frame rfl) (hcheckedFrame frame rfl)
    refine (all_list_iff xs (some frame)).mpr ⟨⟨trivial, ?_⟩,
      fun x hx => ih x hx (hxs x hx) (hcheckedXs x hx), fun u hu => ?_⟩
    · cases xs with
      | nil => exact (Apt.has hapt).mono hl hacyclic hle
      | cons x xs => exact voc.lattice.isSubsortEq_refl _
    · obtain rfl := Option.mem_some_iff.mp hu
      exact hapt
  | ite c t e ihc iht ihe =>
    obtain ⟨_, hc, ht, he⟩ := (all_ite_iff c t e).mp ht
    obtain ⟨⟨hle, s, hbasic, hthen, helse⟩, hcChecked, htChecked, heChecked⟩ :=
      (all_ite_iff c t e).mp hchecked
    have hcApt := ihc hc hcChecked
    have htApt := iht ht htChecked
    have heApt := ihe he heChecked
    have htHas : t.Has voc s := hthen ▸ htApt.has
    have heHas : e.Has voc s := helse ▸ heApt.has
    refine (all_ite_iff c t e).mpr ⟨⟨⟨hcApt.has.mono hl hacyclic hle, s, hbasic, htHas, heHas⟩,
      htApt.has, ?_⟩, hcApt, htApt, heApt⟩
    exact hthen.symm ▸ heHas
  | bool b => exact aptHead_token rfl
  | int n => exact aptHead_token rfl
  | str a => exact aptHead_token rfl

end Term

end Entail
