import Entail.Proofs.Evaluation
import Entail.Formula.Rewrite

set_option autoImplicit false

/-! # What building formulas states

A formula that was added to states no less than the formula and the addition. With flat terms it
also states no more; bindings in the addition are the exception, since a second binding of a
variable is compared with the first as a term and not by its value. -/

namespace Entail

variable {V : Type}

/-! ## Properties of all parts -/

/-- `p` holds of every subterm of both sides. -/
def Equality.All (p : Term → Prop) (e : Equality) : Prop := e.lhs.All p ∧ e.rhs.All p

namespace Formula

mutual

/-- `S` holds of the bindings and `E` of the equalities, of the formula and of all alternatives in
    it. -/
def Everywhere (S : Substitution → Prop) (E : Equality → Prop) : Formula → Prop
  | .falsified _ => True
  | .all s es ds => S s ∧ (∀ e ∈ es, E e) ∧ EverywhereIn S E ds
termination_by structural φ => φ

def EverywhereIn (S : Substitution → Prop) (E : Equality → Prop) : List (List Formula) → Prop
  | [] => True
  | d :: ds => EverywhereOf S E d ∧ EverywhereIn S E ds
termination_by structural ds => ds

def EverywhereOf (S : Substitution → Prop) (E : Equality → Prop) : List Formula → Prop
  | [] => True
  | φ :: φs => φ.Everywhere S E ∧ EverywhereOf S E φs
termination_by structural φs => φs

end

variable {S : Substitution → Prop} {E : Equality → Prop}

theorem everywhereOf_iff (d : Disjunction) :
    EverywhereOf S E d ↔ ∀ φ ∈ d, Formula.Everywhere S E φ := by
  induction d with
  | nil => simp [EverywhereOf]
  | cons φ d ih => rw [EverywhereOf, ih, List.forall_mem_cons]

theorem everywhereIn_iff (ds : List Disjunction) :
    EverywhereIn S E ds ↔ ∀ d ∈ ds, ∀ φ ∈ d, Formula.Everywhere S E φ := by
  induction ds with
  | nil => simp [EverywhereIn]
  | cons d ds ih => rw [EverywhereIn, ih, everywhereOf_iff, List.forall_mem_cons]

theorem everywhere_all_iff (s : Substitution) (es : List Equality) (ds : List Disjunction) :
    (all s es ds).Everywhere S E ↔
      S s ∧ (∀ e ∈ es, E e) ∧ ∀ d ∈ ds, ∀ φ ∈ d, Formula.Everywhere S E φ := by
  rw [Everywhere, everywhereIn_iff]

/-- `p` holds of all subterms of a formula, bound variables included. -/
def Each (p : Term → Prop) : Formula → Prop :=
  Everywhere (fun s => ∀ entry ∈ s.entries, p (.var entry.1) ∧ entry.2.All p) (Equality.All p)

theorem Everywhere.mono {S' : Substitution → Prop} {E' : Equality → Prop}
    (hS : ∀ s, S s → S' s) (hE : ∀ e, E e → E' e) {φ : Formula} (h : φ.Everywhere S E) :
    φ.Everywhere S' E' := by
  induction φ using Formula.ind with
  | falsified w => trivial
  | all s es ds ih =>
    rw [everywhere_all_iff] at h ⊢
    exact ⟨hS s h.1, fun e he => hE e (h.2.1 e he), fun d hd φ hφ => ih d hd φ hφ (h.2.2 d hd φ hφ)⟩

theorem everywhere_top {S : Substitution → Prop} {E : Equality → Prop} (hS : S .empty) :
    top.Everywhere S E := by
  rw [top, everywhere_all_iff]
  exact ⟨hS, by simp, by simp⟩

/-- Nothing is bound, at any depth, and `E` holds of every equality. -/
abbrev Unbound (E : Equality → Prop) : Formula → Prop := Everywhere (fun s => s.entries = []) E

theorem Unbound.each {p : Term → Prop} {φ : Formula} (h : φ.Unbound (Equality.All p)) :
    φ.Each p :=
  Everywhere.mono (fun s hs entry hentry => by rw [hs] at hentry; exact absurd hentry nofun)
    (fun _ he => he) h

/-- What holds of all subterms of a formula holds of those of its conditionals. -/
theorem Each.exists_conditional {p : Term → Prop} {φ : Formula} (h : φ.Each p) {c : Term}
    (hc : c ∈ φ.conditions) : ∃ u w, (Term.ite c u w).All p := by
  replace hc : c ∈ φ.allConditions := Sorted.mem_dedup hc
  induction φ using Formula.ind with
  | falsified w => exact absurd hc List.not_mem_nil
  | all s es ds ih =>
    obtain ⟨hs, hes, hds⟩ := (everywhere_all_iff s es ds).mp h
    simp only [allConditions, allConditionsIn_eq, List.mem_append, List.mem_flatMap] at hc
    rcases hc with ⟨entry, hentry, hc⟩ | ⟨e, he, hc⟩ | ⟨d, hd, φ, hφ, hc⟩
    · exact Term.All.exists_conditional (hs entry hentry).2 hc
    · rcases List.mem_append.mp hc with hc | hc
      · exact Term.All.exists_conditional (hes e he).1 hc
      · exact Term.All.exists_conditional (hes e he).2 hc
    · exact ih d hd φ hφ (hds d hd φ hφ) hc

theorem Each.of_mem_conditions {p : Term → Prop} {φ : Formula} (h : φ.Each p) {c : Term}
    (hc : c ∈ φ.conditions) : c.All p := by
  obtain ⟨u, w, hconditional⟩ := h.exists_conditional hc
  exact ((Term.all_ite_iff c u w).mp hconditional).2.1

/-- What follows for a term from what is known of it and of all that is below it. -/
theorem Each.imp {p q r : Term → Prop} (hpq : ∀ t : Term, t.All r → p t → q t) {φ : Formula}
    (hr : φ.Each r) (h : φ.Each p) : φ.Each q := by
  induction φ using Formula.ind with
  | falsified w => trivial
  | all s es ds ih =>
    obtain ⟨hrs, hres, hrds⟩ := (everywhere_all_iff s es ds).mp hr
    obtain ⟨hs, hes, hds⟩ := (everywhere_all_iff s es ds).mp h
    refine (everywhere_all_iff s es ds).mpr ⟨fun entry hentry => ?_, fun e he => ?_,
      fun d hd φ hφ => ih d hd φ hφ (hrds d hd φ hφ) (hds d hd φ hφ)⟩
    · exact ⟨hpq _ (hrs entry hentry).1 (hs entry hentry).1,
        Term.All.imp hpq (hrs entry hentry).2 (hs entry hentry).2⟩
    · exact ⟨Term.All.imp hpq (hres e he).1 (hes e he).1,
        Term.All.imp hpq (hres e he).2 (hes e he).2⟩

end Formula

/-! ## Comparing equal -/

namespace Formula

variable {A : Algebra V} {ρ : Variable → V}

theorem holds_bare_iff (φ : Formula) : φ.bare.Holds A ρ ↔ φ.Holds A ρ := by
  induction φ using Formula.ind with
  | falsified w => rfl
  | all s es ds ih =>
    rw [bare, bareIn_eq, holds_all_iff, holds_all_iff, Substitution.bare, Substitution.Holds,
      List.forall_mem_map, List.forall_mem_map, List.forall_mem_map]
    refine and_congr (forall₂_congr fun entry _ => ?_)
      (and_congr (forall₂_congr fun e _ => ?_) (forall₂_congr fun d hd => ?_))
    · rw [Term.eval_bare]
    · rw [Equality.Holds, Equality.bare, Term.eval_bare, Term.eval_bare, Equality.Holds]
    · simp only [Disjunction.Holds, List.mem_map, exists_exists_and_eq_and]
      exact exists_congr fun φ => and_congr_right fun hφ => ih d hd φ hφ

theorem each_bare_iff {p : Term → Prop} (hp : ∀ t, p (Term.bare t) ↔ p t) (φ : Formula) :
    φ.bare.Each p ↔ φ.Each p := by
  induction φ using Formula.ind with
  | falsified w => rfl
  | all s es ds ih =>
    rw [bare, bareIn_eq, Each, everywhere_all_iff, everywhere_all_iff, Substitution.bare,
      List.forall_mem_map, List.forall_mem_map, List.forall_mem_map]
    refine and_congr (forall₂_congr fun entry _ => ?_)
      (and_congr (forall₂_congr fun e _ => ?_) (forall₂_congr fun d hd => ?_))
    · rw [Term.all_bare_iff hp]
    · rw [Equality.All, Equality.bare, Term.all_bare_iff hp, Term.all_bare_iff hp, Equality.All]
    · rw [List.forall_mem_map]
      exact forall₂_congr (ih d hd)

theorem holds_congr {φ ψ : Formula} (h : φ.cmp ψ = .eq) : φ.Holds A ρ ↔ ψ.Holds A ρ := by
  rw [← holds_bare_iff φ, (cmp_eq_iff φ ψ).mp h, holds_bare_iff]

end Formula

namespace Disjunction

variable {A : Algebra V} {ρ : Variable → V}

theorem holds_congr {d d' : Disjunction} (h : Disjunction.cmp d d' = .eq) :
    d.Holds A ρ ↔ d'.Holds A ρ := by
  have bare (d : Disjunction) : d.Holds A ρ ↔ ∃ ψ ∈ d.map Formula.bare, ψ.Holds A ρ := by
    simp only [List.mem_map, exists_exists_and_eq_and]
    exact exists_congr fun φ => and_congr_right fun _ => (Formula.holds_bare_iff φ).symm
  rw [bare, (cmp_eq_iff d d').mp h, ← bare]

theorem holds_ofList_iff (φs : List Formula) :
    (ofList φs).Holds A ρ ↔ ∃ φ ∈ φs, φ.Holds A ρ :=
  Sorted.exists_mem_dedup (P := Formula.Holds A ρ) (fun _ _ => Formula.holds_congr) φs

end Disjunction

/-! ## Parts of an equality -/

namespace Equality

variable {p : Term → Prop}

theorem literals_all (hp : ∀ b, p (.bool b)) {t : Term} (ht : t.All p) (b : Bool) :
    ∀ e ∈ literals t b, e.All p := by
  induction t using Term.ind generalizing b with
  | builtin op xs ih =>
    have hxs := ((Term.all_builtin_iff op xs).mp ht).2
    rw [literals.eq_def]
    split
    · rename_i x y heq
      obtain ⟨rfl, rfl⟩ := Term.builtin.inj heq
      rw [List.forall_mem_append]
      exact ⟨ih x (by simp) (hxs x (by simp)) true, ih y (by simp) (hxs y (by simp)) true⟩
    · rename_i x y heq
      obtain ⟨rfl, rfl⟩ := Term.builtin.inj heq
      rw [List.forall_mem_append]
      exact ⟨ih x (by simp) (hxs x (by simp)) false, ih y (by simp) (hxs y (by simp)) false⟩
    · rename_i b x heq
      obtain ⟨rfl, rfl⟩ := Term.builtin.inj heq
      exact ih x (by simp) (hxs x (by simp)) _
    · exact List.forall_mem_singleton.mpr ⟨ht, hp _⟩
  | _ =>
    rw [literals]
    · exact List.forall_mem_singleton.mpr ⟨ht, hp _⟩
    all_goals simp

theorem parts_all (hp : ∀ b, p (.bool b)) {e : Equality} (he : e.All p) :
    ∀ q ∈ e.parts, q.All p := by
  have split {t : Term} (ht : t.All p) (b : Bool) {e : Equality} (he : e.All p) :
      ∀ q ∈ if splits t b then literals t b else [e], q.All p := by
    split
    · exact literals_all hp ht b
    · exact List.forall_mem_singleton.mpr he
  obtain ⟨lhs, rhs⟩ := e
  dsimp only [parts]
  split
  · exact split he.1 _ he
  · exact split he.2 _ he
  · exact List.forall_mem_singleton.mpr he

end Equality

namespace Formula

/-! ## Adding equalities -/

section Equalities

variable {S : Substitution → Prop} {p : Term → Prop}

theorem everywhere_addPart {E : Equality → Prop} {φ : Formula} (hφ : φ.Everywhere S E)
    {e : Equality} (he : E e) : (φ.addPart e).Everywhere S E := by
  cases φ with
  | falsified w => trivial
  | all s es ds =>
    rw [everywhere_all_iff] at hφ
    unfold addPart
    dsimp only
    split
    · exact (everywhere_all_iff s es ds).mpr hφ
    · trivial
    · split
      · exact (everywhere_all_iff s es ds).mpr hφ
      · rw [everywhere_all_iff]
        refine ⟨hφ.1, fun e' he' => ?_, hφ.2.2⟩
        rcases Sorted.mem_put _ he' with rfl | he'
        · exact he
        · exact hφ.2.1 e' he'

theorem everywhere_addEquality_of_parts {E : Equality → Prop} {φ : Formula}
    (hφ : φ.Everywhere S E) {e : Equality} (he : ∀ q ∈ e.parts, E q) :
    (φ.addEquality e).Everywhere S E := by
  unfold addEquality
  generalize e.parts = es at he
  induction es generalizing φ with
  | nil => exact hφ
  | cons e es ih =>
    rw [List.forall_mem_cons] at he
    exact ih (everywhere_addPart hφ he.1) he.2

theorem everywhere_addEquality (hp : ∀ b, p (.bool b)) {φ : Formula}
    (hφ : φ.Everywhere S (Equality.All p)) {e : Equality} (he : e.All p) :
    (φ.addEquality e).Everywhere S (Equality.All p) :=
  everywhere_addEquality_of_parts hφ (Equality.parts_all hp he)

/-- Equalities are added without binding variables. -/
theorem subset_addEquality (φ : Formula) (e : Equality) :
    ∀ entry ∈ (φ.addEquality e).bindings.entries, entry ∈ φ.bindings.entries := by
  have part (φ : Formula) (e : Equality) :
      ∀ entry ∈ (φ.addPart e).bindings.entries, entry ∈ φ.bindings.entries := by
    intro entry hentry
    cases φ with
    | falsified w => exact hentry
    | all s es ds =>
      unfold addPart at hentry
      dsimp only at hentry
      split at hentry
      · exact hentry
      · exact absurd hentry List.not_mem_nil
      · split at hentry <;> exact hentry
  have fold (es : List Equality) (φ : Formula) :
      ∀ entry ∈ (es.foldl addPart φ).bindings.entries, entry ∈ φ.bindings.entries := by
    induction es generalizing φ with
    | nil => exact fun _ hentry => hentry
    | cons e es ih => exact fun entry hentry => part φ e entry (ih _ entry hentry)
  exact fold e.parts φ

theorem everywhere_addEqualities (hp : ∀ b, p (.bool b)) {es : List Equality}
    (hes : ∀ e ∈ es, e.All p) {φ : Formula} (hφ : φ.Everywhere S (Equality.All p)) :
    (φ.addEqualities es).Everywhere S (Equality.All p) := by
  unfold addEqualities
  induction es generalizing φ with
  | nil => exact hφ
  | cons e es ih =>
    rw [List.forall_mem_cons] at hes
    exact ih hes.2 (everywhere_addEquality hp hφ hes.1)

variable {A : Algebra V} {ρ : Variable → V}

theorem holds_of_addPart {φ : Formula} {e : Equality} (h : (φ.addPart e).Holds A ρ) :
    φ.Holds A ρ ∧ e.Holds A ρ := by
  cases φ with
  | falsified w => exact absurd h (not_holds_falsified A ρ w)
  | all s es ds =>
    unfold addPart at h
    dsimp only at h
    split at h
    · rename_i htruth
      exact ⟨h, Equality.holds_of_truth htruth⟩
    · exact absurd h (not_holds_falsified A ρ e)
    · split at h
      · rename_i hmem
        obtain ⟨e', he', heq⟩ := (Sorted.contains_iff _ _ _).mp hmem
        have hes := ((holds_all_iff A ρ s es ds).mp h).2.1
        have hrev := (Equality.holds_congr (Ordering.isEq_iff_eq_eq.mp heq)).mpr (hes e' he')
        exact ⟨h, (Equality.holds_reversed_iff e).mp hrev⟩
      · rw [holds_all_iff,
          Sorted.forall_mem_put (P := Equality.Holds A ρ) fun _ _ => Equality.holds_congr] at h
        exact ⟨(holds_all_iff A ρ s es ds).mpr ⟨h.1, h.2.1.2, h.2.2⟩, h.2.1.1⟩

/-- An equality that holds can be added unless it is found false. -/
theorem holds_addPart_of_truth {φ : Formula} (hφ : φ.Holds A ρ) {e : Equality}
    (htruth : e.truth ≠ .false) (he : e.Holds A ρ) : (φ.addPart e).Holds A ρ := by
  cases φ with
  | falsified w => exact absurd hφ (not_holds_falsified A ρ w)
  | all s es ds =>
    unfold addPart
    dsimp only
    split
    · exact hφ
    · rename_i hfalse
      exact absurd hfalse htruth
    · split
      · exact hφ
      · rw [holds_all_iff] at hφ ⊢
        rw [Sorted.forall_mem_put (P := Equality.Holds A ρ) fun _ _ => Equality.holds_congr]
        exact ⟨hφ.1, ⟨he, hφ.2.1⟩, hφ.2.2⟩

theorem holds_addPart {φ : Formula} (hφ : φ.Holds A ρ) {e : Equality}
    (hflat : e.All Term.FlatHead) (he : e.Holds A ρ) : (φ.addPart e).Holds A ρ :=
  holds_addPart_of_truth hφ
    (fun hfalse => Equality.not_holds_of_truth hflat.1 hflat.2 hfalse he) he

theorem holds_of_addEquality {φ : Formula} {e : Equality} (h : (φ.addEquality e).Holds A ρ) :
    φ.Holds A ρ ∧ e.Holds A ρ := by
  have fold (es : List Equality) (φ : Formula) (h : (es.foldl addPart φ).Holds A ρ) :
      φ.Holds A ρ ∧ ∀ e ∈ es, e.Holds A ρ := by
    induction es generalizing φ with
    | nil => exact ⟨h, nofun⟩
    | cons e es ih =>
      obtain ⟨hφ, hes⟩ := ih (φ.addPart e) h
      obtain ⟨hφ, he⟩ := holds_of_addPart hφ
      exact ⟨hφ, List.forall_mem_cons.mpr ⟨he, hes⟩⟩
  rw [← Equality.parts_hold_iff e]
  exact fold e.parts φ h

theorem holds_addEquality {φ : Formula} (hφ : φ.Holds A ρ) {e : Equality}
    (hflat : e.All Term.FlatHead) (he : e.Holds A ρ) : (φ.addEquality e).Holds A ρ := by
  have fold (es : List Equality) (hflat : ∀ e ∈ es, e.All Term.FlatHead)
      (hes : ∀ e ∈ es, e.Holds A ρ) {φ : Formula} (hφ : φ.Holds A ρ) :
      (es.foldl addPart φ).Holds A ρ := by
    induction es generalizing φ with
    | nil => exact hφ
    | cons e es ih =>
      rw [List.forall_mem_cons] at hflat hes
      exact ih hflat.2 hes.2 (holds_addPart hφ hflat.1 hes.1)
  exact fold e.parts (Equality.parts_all (fun _ => trivial) hflat)
    ((Equality.parts_hold_iff e).mpr he) hφ

theorem holds_of_addEqualities {es : List Equality} {φ : Formula}
    (h : (φ.addEqualities es).Holds A ρ) : φ.Holds A ρ ∧ ∀ e ∈ es, e.Holds A ρ := by
  unfold addEqualities at h
  induction es generalizing φ with
  | nil => exact ⟨h, nofun⟩
  | cons e es ih =>
    obtain ⟨hφ, hes⟩ := ih h
    obtain ⟨hφ, he⟩ := holds_of_addEquality hφ
    exact ⟨hφ, List.forall_mem_cons.mpr ⟨he, hes⟩⟩

theorem holds_addEqualities {es : List Equality} (hflat : ∀ e ∈ es, e.All Term.FlatHead)
    (hes : ∀ e ∈ es, e.Holds A ρ) {φ : Formula} (hφ : φ.Holds A ρ) :
    (φ.addEqualities es).Holds A ρ := by
  unfold addEqualities
  induction es generalizing φ with
  | nil => exact hφ
  | cons e es ih =>
    rw [List.forall_mem_cons] at hflat hes
    exact ih hflat.2 hes.2 (holds_addEquality hφ hflat.1 hes.1)

end Equalities

end Formula

/-! ## Adding bindings -/

namespace Substitution

variable {A : Algebra V} {ρ : Variable → V}

theorem get?_eq_none_iff {s : Substitution} {v : Variable} :
    s.get? v = none ↔ ∀ entry ∈ s.entries, entry.1 ≠ v := by
  rw [get?, List.lookup_eq_none_iff]
  refine forall₂_congr fun entry _ => ?_
  rw [bne_iff_ne]
  exact ne_comm

theorem mem_put_iff {s : Substitution} {v : Variable} (h : s.get? v = none) (t : Term)
    (entry : Variable × Term) :
    entry ∈ (s.put v t).entries ↔ entry = (v, t) ∨ entry ∈ s.entries := by
  refine Sorted.mem_put_iff (fun other hother heq => ?_) entry
  exact get?_eq_none_iff.mp h other hother ((Variable.cmp_eq_iff _ _).mp heq).symm

/-- Where the result of binding a variable holds, the variable has the value of the term. -/
theorem holds_of_bind {s s' : Substitution} {v : Variable} {t : Term} (h : s.bind v t = .ok s')
    (hs' : s'.Holds A ρ) : s.Holds A ρ ∧ ρ v = t.eval A ρ := by
  unfold bind at h
  split at h
  · rename_i bound hbound
    split at h
    · rename_i heq
      obtain rfl := Except.ok.inj h
      refine ⟨hs', ?_⟩
      rw [← Term.eval_eq_of_beq A ρ heq]
      exact hs'.get? v bound hbound
    · exact absurd h nofun
  · rename_i hnone
    obtain rfl := Except.ok.inj h
    exact ⟨fun entry hentry => hs' entry ((mem_put_iff hnone t entry).mpr (Or.inr hentry)),
      hs' (v, t) ((mem_put_iff hnone t (v, t)).mpr (Or.inl rfl))⟩

theorem mem_of_bind {s s' : Substitution} {v : Variable} {t : Term} (h : s.bind v t = .ok s')
    {entry : Variable × Term} (hentry : entry ∈ s'.entries) :
    entry = (v, t) ∨ entry ∈ s.entries := by
  unfold bind at h
  split at h
  · split at h
    · obtain rfl := Except.ok.inj h
      exact Or.inr hentry
    · exact absurd h nofun
  · rename_i hnone
    obtain rfl := Except.ok.inj h
    exact (mem_put_iff hnone t entry).mp hentry

end Substitution

namespace Formula

section Bindings

variable {A : Algebra V} {ρ : Variable → V}

theorem holds_of_addBinding {φ : Formula} {v : Variable} {t : Term}
    (h : (φ.addBinding v t).Holds A ρ) : φ.Holds A ρ ∧ ρ v = t.eval A ρ := by
  cases φ with
  | falsified w => exact absurd h (not_holds_falsified A ρ w)
  | all s es ds =>
    unfold addBinding at h
    dsimp only at h
    split at h
    · rename_i s' hs'
      rw [holds_all_iff] at h ⊢
      obtain ⟨hs, hv⟩ := Substitution.holds_of_bind hs' h.1
      exact ⟨⟨hs, h.2⟩, hv⟩
    · exact absurd h (not_holds_falsified A ρ _)

theorem holds_of_addBindings {entries : List (Variable × Term)} {φ : Formula}
    (h : (φ.addBindings entries).Holds A ρ) :
    φ.Holds A ρ ∧ ∀ entry ∈ entries, ρ entry.1 = entry.2.eval A ρ := by
  unfold addBindings at h
  induction entries generalizing φ with
  | nil => exact ⟨h, nofun⟩
  | cons entry entries ih =>
    obtain ⟨hφ, hentries⟩ := ih h
    obtain ⟨hφ, hentry⟩ := holds_of_addBinding hφ
    exact ⟨hφ, List.forall_mem_cons.mpr ⟨hentry, hentries⟩⟩

theorem everywhere_addBindings {S : Substitution → Prop} {E : Equality → Prop}
    {entries : List (Variable × Term)}
    (hS : ∀ s s' v t, (v, t) ∈ entries → S s → s.bind v t = .ok s' → S s') {φ : Formula}
    (hφ : φ.Everywhere S E) : (φ.addBindings entries).Everywhere S E := by
  unfold addBindings
  induction entries generalizing φ with
  | nil => exact hφ
  | cons entry entries ih =>
    refine ih (fun s s' v t hmem => hS s s' v t (List.mem_cons_of_mem _ hmem)) ?_
    cases φ with
    | falsified w => trivial
    | all s es ds =>
      rw [everywhere_all_iff] at hφ
      unfold addBinding
      dsimp only
      split
      · rename_i s' hs'
        rw [everywhere_all_iff]
        exact ⟨hS s s' _ _ (List.mem_cons_self ..) hφ.1 hs', hφ.2⟩
      · trivial

end Bindings

/-! ## Adding disjunctions and formulas -/

section Merging

variable {S : Substitution → Prop} {E : Equality → Prop}

theorem isFalse_iff (φ : Formula) : φ.isFalse = true ↔ ∃ w, φ = .falsified w := by
  cases φ <;> simp [isFalse, witness?]

theorem mem_filter_notFalse {d : Disjunction} {ψ : Formula} :
    ψ ∈ d.filter (!·.isFalse) ↔ ψ ∈ d ∧ ψ.isFalse = false := by
  rw [List.mem_filter, Bool.not_eq_true']

theorem everywhere_addAlternatives {φ : Formula} (hφ : φ.Everywhere S E) {d : Disjunction}
    (hd : ∀ ψ ∈ d, ψ.Everywhere S E) {mergeOnly : Formula → Formula}
    (hmerge : (mergeOnly φ).Everywhere S E) :
    (φ.addAlternatives d mergeOnly).Everywhere S E := by
  cases φ with
  | falsified w => trivial
  | all s es ds =>
    rw [everywhere_all_iff] at hφ
    unfold addAlternatives
    dsimp only
    split
    · trivial
    · exact hmerge
    · split
      · exact (everywhere_all_iff s es ds).mpr hφ
      · rw [everywhere_all_iff]
        refine ⟨hφ.1, hφ.2.1, fun d' hd' ψ hψ => ?_⟩
        rcases Sorted.mem_put _ hd' with rfl | hd'
        · exact hd ψ (mem_filter_notFalse.mp (Sorted.mem_dedup hψ)).1
        · exact hφ.2.2 d' hd' ψ hψ

variable {A : Algebra V} {ρ : Variable → V}

theorem not_isFalse_of_holds {φ : Formula} (h : φ.Holds A ρ) : φ.isFalse = false := by
  cases φ with
  | falsified w => exact absurd h (not_holds_falsified A ρ w)
  | all s es ds => rfl

theorem eq_top_of_isTrue {φ : Formula} (h : φ.isTrue = true) : φ = top := by
  cases φ with
  | falsified w => exact absurd h nofun
  | all s es ds =>
    simp only [isTrue, Bool.and_eq_true, List.isEmpty_iff, Substitution.isEmpty] at h
    obtain ⟨⟨hs, rfl⟩, rfl⟩ := h
    exact congrArg (all · [] []) (congrArg Substitution.mk hs)

theorem holds_of_isTrue {φ : Formula} (h : φ.isTrue = true) : φ.Holds A ρ := by
  rw [eq_top_of_isTrue h]
  exact holds_top A ρ

theorem holds_of_addAlternatives {φ : Formula} {d : Disjunction} {mergeOnly : Formula → Formula}
    (hmerge : (∃ ψ ∈ d, ψ.isFalse = false) → (mergeOnly φ).Holds A ρ → φ.Holds A ρ ∧ d.Holds A ρ)
    (h : (φ.addAlternatives d mergeOnly).Holds A ρ) : φ.Holds A ρ ∧ d.Holds A ρ := by
  cases φ with
  | falsified w => exact absurd h (not_holds_falsified A ρ w)
  | all s es ds =>
    unfold addAlternatives at h
    dsimp only at h
    split at h
    · exact absurd h (not_holds_falsified A ρ _)
    · rename_i ψ hmembers
      have hψ : ψ ∈ d.filter (!·.isFalse) := by rw [hmembers]; exact List.mem_singleton.mpr rfl
      exact hmerge ⟨ψ, mem_filter_notFalse.mp hψ⟩ h
    · split at h
      · rename_i hany
        obtain ⟨ψ, hψ, htrue⟩ := List.any_eq_true.mp hany
        exact ⟨h, ψ, (mem_filter_notFalse.mp hψ).1, holds_of_isTrue htrue⟩
      · rw [holds_all_iff,
          Sorted.forall_mem_put (P := Disjunction.Holds A ρ) fun _ _ => Disjunction.holds_congr,
          Disjunction.holds_ofList_iff] at h
        obtain ⟨hs, hes, ⟨ψ, hψ, hholds⟩, hds⟩ := h
        exact ⟨(holds_all_iff A ρ s es ds).mpr ⟨hs, hes, hds⟩, ψ, (mem_filter_notFalse.mp hψ).1,
          hholds⟩

theorem holds_addAlternatives {φ : Formula} {d : Disjunction} {mergeOnly : Formula → Formula}
    (hmerge : ∀ ψ, ψ.Holds A ρ → d.filter (!·.isFalse) = [ψ] → (mergeOnly φ).Holds A ρ)
    (hφ : φ.Holds A ρ) (hd : d.Holds A ρ) : (φ.addAlternatives d mergeOnly).Holds A ρ := by
  obtain ⟨ψ, hψ, hholds⟩ := hd
  have hmem := mem_filter_notFalse.mpr ⟨hψ, not_isFalse_of_holds hholds⟩
  cases φ with
  | falsified w => exact absurd hφ (not_holds_falsified A ρ w)
  | all s es ds =>
    unfold addAlternatives
    dsimp only
    split
    · rename_i hmembers
      rw [hmembers] at hmem
      exact absurd hmem List.not_mem_nil
    · rename_i ψ' hmembers
      rw [hmembers, List.mem_singleton] at hmem
      subst hmem
      exact hmerge ψ hholds hmembers
    · split
      · exact hφ
      · rw [holds_all_iff,
          Sorted.forall_mem_put (P := Disjunction.Holds A ρ) fun _ _ => Disjunction.holds_congr,
          Disjunction.holds_ofList_iff]
        rw [holds_all_iff] at hφ
        exact ⟨hφ.1, hφ.2.1, ⟨ψ, hmem, hholds⟩, hφ.2.2⟩

/-! The functions that merge call each other through the disjunctions of the formula that is added,
so each fact is shown of lists first, given the same fact for the alternatives in them. -/

theorem holds_of_mergeFirst {d : Disjunction} (hd : ∃ ψ ∈ d, ψ.isFalse = false)
    (ih : ∀ ψ ∈ d, ∀ φ, (merge ψ φ).Holds A ρ → φ.Holds A ρ ∧ ψ.Holds A ρ) {φ : Formula}
    (h : (mergeFirst d φ).Holds A ρ) : φ.Holds A ρ ∧ d.Holds A ρ := by
  induction d with
  | nil =>
    obtain ⟨ψ, hψ, _⟩ := hd
    exact absurd hψ List.not_mem_nil
  | cons ψ d ihd =>
    rw [List.forall_mem_cons] at ih
    rw [mergeFirst] at h
    split at h
    · rename_i hfalse
      obtain ⟨ψ', hψ', hne⟩ := hd
      rcases List.mem_cons.mp hψ' with rfl | hψ'
      · exact absurd hfalse (by rw [hne]; exact Bool.false_ne_true)
      · obtain ⟨hφ, ψ'', hmem, hholds⟩ := ihd ⟨ψ', hψ', hne⟩ ih.2 h
        exact ⟨hφ, ψ'', List.mem_cons_of_mem _ hmem, hholds⟩
    · obtain ⟨hφ, hψ⟩ := ih.1 φ h
      exact ⟨hφ, ψ, List.mem_cons_self .., hψ⟩

theorem holds_of_mergeDisjunctions {ds : List Disjunction}
    (ih : ∀ d ∈ ds, ∀ ψ ∈ d, ∀ φ, (merge ψ φ).Holds A ρ → φ.Holds A ρ ∧ ψ.Holds A ρ) {φ : Formula}
    (h : (mergeDisjunctions ds φ).Holds A ρ) : φ.Holds A ρ ∧ ∀ d ∈ ds, d.Holds A ρ := by
  induction ds generalizing φ with
  | nil => exact ⟨h, nofun⟩
  | cons d ds ihds =>
    rw [List.forall_mem_cons] at ih
    rw [mergeDisjunctions] at h
    obtain ⟨hφ, hds⟩ := ihds ih.2 h
    obtain ⟨hφ, hd⟩ := holds_of_addAlternatives (fun hne => holds_of_mergeFirst hne ih.1) hφ
    exact ⟨hφ, List.forall_mem_cons.mpr ⟨hd, hds⟩⟩

/-- Where the result of a merge holds, both formulas do. -/
theorem holds_of_merge {ψ φ : Formula} (h : (merge ψ φ).Holds A ρ) :
    φ.Holds A ρ ∧ ψ.Holds A ρ := by
  induction ψ using Formula.ind generalizing φ with
  | falsified w =>
    rw [merge] at h
    split at h
    · rename_i hfalse
      obtain ⟨w', rfl⟩ := (isFalse_iff φ).mp hfalse
      exact absurd h (not_holds_falsified A ρ w')
    · exact absurd h (not_holds_falsified A ρ w)
  | all s es ds ih =>
    rw [merge] at h
    obtain ⟨h, hds⟩ := holds_of_mergeDisjunctions (fun d hd ψ hψ φ => ih d hd ψ hψ) h
    obtain ⟨h, hes⟩ := holds_of_addEqualities h
    obtain ⟨hφ, hs⟩ := holds_of_addBindings h
    exact ⟨hφ, (holds_all_iff A ρ s es ds).mpr ⟨hs, hes, hds⟩⟩

/-- The one alternative that is not false is merged. -/
theorem mergeFirst_eq {d : Disjunction} {ψ : Formula} (hd : d.filter (!·.isFalse) = [ψ])
    (φ : Formula) : mergeFirst d φ = merge ψ φ := by
  induction d with
  | nil => exact absurd hd nofun
  | cons ψ' d ih =>
    rw [List.filter_cons] at hd
    rw [mergeFirst]
    split
    · rename_i hfalse
      rw [hfalse] at hd
      exact ih hd
    · rename_i hfalse
      rw [Bool.not_eq_true] at hfalse
      rw [hfalse] at hd
      obtain ⟨rfl, _⟩ := List.cons.inj hd
      rfl

theorem holds_mergeDisjunctions {ds : List Disjunction}
    (ih : ∀ d ∈ ds, ∀ ψ ∈ d, ∀ φ : Formula, φ.Holds A ρ → ψ.Holds A ρ → (merge ψ φ).Holds A ρ)
    {φ : Formula} (hφ : φ.Holds A ρ) (hds : ∀ d ∈ ds, d.Holds A ρ) :
    (mergeDisjunctions ds φ).Holds A ρ := by
  induction ds generalizing φ with
  | nil => exact hφ
  | cons d ds ihds =>
    rw [List.forall_mem_cons] at ih hds
    rw [mergeDisjunctions]
    refine ihds ih.2 (holds_addAlternatives (fun ψ hψ hmembers => ?_) hφ hds.1) hds.2
    have hmem : ψ ∈ d.filter (!·.isFalse) := by
      rw [hmembers]
      exact List.mem_singleton.mpr rfl
    rw [mergeFirst_eq hmembers]
    exact ih.1 ψ (mem_filter_notFalse.mp hmem).1 φ hφ hψ

/-- Where two formulas hold, the result of merging one without bindings into the other does. -/
theorem holds_merge {ψ φ : Formula} (hunbound : ψ.Unbound (Equality.All Term.FlatHead))
    (hφ : φ.Holds A ρ) (hψ : ψ.Holds A ρ) : (merge ψ φ).Holds A ρ := by
  induction ψ using Formula.ind generalizing φ with
  | falsified w => exact absurd hψ (not_holds_falsified A ρ w)
  | all s es ds ih =>
    obtain ⟨hs, hes, hds⟩ := (everywhere_all_iff s es ds).mp hunbound
    obtain ⟨_, hesHold, hdsHold⟩ := (holds_all_iff A ρ s es ds).mp hψ
    rw [merge, hs]
    exact holds_mergeDisjunctions (fun d hd ψ hψ φ => ih d hd ψ hψ (hds d hd ψ hψ))
      (holds_addEqualities hes hesHold hφ) hdsHold

theorem everywhere_mergeFirst {d : Disjunction} {φ : Formula} (hφ : φ.Everywhere S E)
    (ih : ∀ ψ ∈ d, (merge ψ φ).Everywhere S E) : (mergeFirst d φ).Everywhere S E := by
  induction d with
  | nil => exact hφ
  | cons ψ d ihd =>
    rw [List.forall_mem_cons] at ih
    rw [mergeFirst]
    split
    · exact ihd ih.2
    · exact ih.1

theorem everywhere_mergeDisjunctions {ds : List Disjunction}
    (hds : ∀ d ∈ ds, ∀ ψ ∈ d, ψ.Everywhere S E)
    (ih : ∀ d ∈ ds, ∀ ψ ∈ d, ∀ φ : Formula, φ.Everywhere S E → (merge ψ φ).Everywhere S E)
    {φ : Formula} (hφ : φ.Everywhere S E) : (mergeDisjunctions ds φ).Everywhere S E := by
  induction ds generalizing φ with
  | nil => exact hφ
  | cons d ds ihds =>
    rw [List.forall_mem_cons] at hds ih
    rw [mergeDisjunctions]
    exact ihds hds.2 ih.2 (everywhere_addAlternatives hφ hds.1
      (everywhere_mergeFirst hφ fun ψ hψ => ih.1 ψ hψ φ hφ))

/-- Merging a formula without bindings keeps what holds of all parts. -/
theorem everywhere_merge {p : Term → Prop} (hp : ∀ b, p (.bool b))
    (hS : ∀ s : Substitution, s.entries = [] → S s) {ψ φ : Formula}
    (hψ : ψ.Unbound (Equality.All p)) (hφ : φ.Everywhere S (Equality.All p)) :
    (merge ψ φ).Everywhere S (Equality.All p) := by
  induction ψ using Formula.ind generalizing φ with
  | falsified w =>
    rw [merge]
    split
    · exact hφ
    · trivial
  | all s es ds ih =>
    obtain ⟨hs, hes, hds⟩ := (everywhere_all_iff s es ds).mp hψ
    rw [merge, hs]
    exact everywhere_mergeDisjunctions
      (fun d hd ψ hψ => Everywhere.mono hS (fun _ he => he) (hds d hd ψ hψ))
      (fun d hd ψ hψ φ hφ => ih d hd ψ hψ (hds d hd ψ hψ) hφ) (everywhere_addEqualities hp hes hφ)

/-- Adding disjunctions without bindings adds just what they state. -/
theorem holds_addDisjunctions_iff {ds : List Disjunction}
    (hds : ∀ d ∈ ds, ∀ ψ ∈ d, ψ.Unbound (Equality.All Term.FlatHead)) (φ : Formula) :
    (φ.addDisjunctions ds).Holds A ρ ↔ φ.Holds A ρ ∧ ∀ d ∈ ds, d.Holds A ρ :=
  ⟨holds_of_mergeDisjunctions fun _ _ _ _ _ => holds_of_merge, fun h =>
    holds_mergeDisjunctions (fun d hd ψ hψ _ => holds_merge (hds d hd ψ hψ)) h.1 h.2⟩

/-- Adding disjunctions without bindings keeps what holds of all parts. -/
theorem everywhere_addDisjunctions {p : Term → Prop} (hp : ∀ b, p (.bool b))
    (hS : ∀ s : Substitution, s.entries = [] → S s) {ds : List Disjunction}
    (hds : ∀ d ∈ ds, ∀ ψ ∈ d, ψ.Unbound (Equality.All p)) {φ : Formula}
    (hφ : φ.Everywhere S (Equality.All p)) :
    (φ.addDisjunctions ds).Everywhere S (Equality.All p) :=
  everywhere_mergeDisjunctions (fun d hd ψ hψ => (hds d hd ψ hψ).mono hS fun _ he => he)
    (fun d hd ψ hψ _ hφ => everywhere_merge hp hS (hds d hd ψ hψ) hφ) hφ

theorem unbound_addDisjunctions {p : Term → Prop} (hp : ∀ b, p (.bool b)) {ds : List Disjunction}
    (hds : ∀ d ∈ ds, ∀ ψ ∈ d, ψ.Unbound (Equality.All p)) {φ : Formula}
    (hφ : φ.Unbound (Equality.All p)) : (φ.addDisjunctions ds).Unbound (Equality.All p) :=
  everywhere_addDisjunctions hp (fun _ hs => hs) hds hφ

theorem holds_ofParts_iff (s : Substitution) (es : List Equality) (ds : List Disjunction) :
    (ofParts s es ds).Holds A ρ ↔
      s.Holds A ρ ∧ (∀ e ∈ es, e.Holds A ρ) ∧ ∀ d ∈ ds, d.Holds A ρ := by
  rw [ofParts, holds_all_iff,
    Sorted.forall_mem_ofListLast (P := Equality.Holds A ρ) fun _ _ => Equality.holds_congr,
    Sorted.forall_mem_ofListLast (P := Disjunction.Holds A ρ) fun _ _ => Disjunction.holds_congr]

end Merging

end Formula

end Entail
