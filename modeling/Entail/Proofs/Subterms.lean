import Entail.Proofs.Equivalence
import Mathlib.Tactic.SplitIfs

set_option autoImplicit false

/-! # Properties of all subterms

Much of what is kept true of terms is a property of every subterm on its own: lists are flat,
applications stand at their least sort, variables and symbols come from given sets. Such a property
needs one proof for each way of building terms: substituting, flattening lists, evaluating. -/

namespace Entail

namespace Term

mutual

/-- `P` holds of every subterm. -/
def All (P : Term → Prop) : Term → Prop
  | .var v => P (.var v)
  | .bool b => P (.bool b)
  | .int n => P (.int n)
  | .str s => P (.str s)
  | .app f xs s => P (.app f xs s) ∧ AllIn P xs
  | .builtin op xs => P (.builtin op xs) ∧ AllIn P xs
  | .list xs none => P (.list xs none) ∧ AllIn P xs
  | .list xs (some frame) => P (.list xs (some frame)) ∧ AllIn P xs ∧ All P frame
  | .ite c t e => P (.ite c t e) ∧ All P c ∧ All P t ∧ All P e
termination_by structural t => t

def AllIn (P : Term → Prop) : List Term → Prop
  | [] => True
  | t :: ts => All P t ∧ AllIn P ts
termination_by structural ts => ts

end

variable {P R : Term → Prop}

theorem allIn_iff (ts : List Term) : AllIn P ts ↔ ∀ t ∈ ts, t.All P := by
  induction ts with
  | nil => simp [AllIn]
  | cons t ts ih => rw [AllIn, ih, List.forall_mem_cons]

theorem all_app_iff (f : Symbol) (xs : List Term) (s : SortName) :
    (app f xs s).All P ↔ P (.app f xs s) ∧ ∀ x ∈ xs, x.All P := by
  rw [All, allIn_iff]

theorem all_builtin_iff (op : Builtin) (xs : List Term) :
    (builtin op xs).All P ↔ P (.builtin op xs) ∧ ∀ x ∈ xs, x.All P := by
  rw [All, allIn_iff]

theorem all_list_iff (xs : List Term) (frame : Option Term) :
    (list xs frame).All P ↔
      P (.list xs frame) ∧ (∀ x ∈ xs, x.All P) ∧ ∀ t ∈ frame, t.All P := by
  cases frame <;> simp [All, allIn_iff]

theorem all_ite_iff (c t e : Term) :
    (ite c t e).All P ↔ P (.ite c t e) ∧ c.All P ∧ t.All P ∧ e.All P := by
  rw [All]

theorem All.head {t : Term} (h : t.All P) : P t := by
  cases t with
  | app f xs s => exact ((all_app_iff f xs s).mp h).1
  | builtin op xs => exact ((all_builtin_iff op xs).mp h).1
  | list xs frame => exact ((all_list_iff xs frame).mp h).1
  | ite c t e => exact ((all_ite_iff c t e).mp h).1
  | _ => exact h

/-- What follows for a head from what is known of the head and of all that is below it. -/
theorem All.imp {S : Term → Prop} (hPS : ∀ t, t.All R → P t → S t) {t : Term} (hR : t.All R)
    (hP : t.All P) : t.All S := by
  have hhead := hPS t hR hP.head
  induction t using Term.ind with
  | app f xs s ih =>
    rw [all_app_iff] at hR hP ⊢
    exact ⟨hhead, fun x hx => ih x hx (hR.2 x hx) (hP.2 x hx)
      (hPS x (hR.2 x hx) (hP.2 x hx).head)⟩
  | builtin op xs ih =>
    rw [all_builtin_iff] at hR hP ⊢
    exact ⟨hhead, fun x hx => ih x hx (hR.2 x hx) (hP.2 x hx)
      (hPS x (hR.2 x hx) (hP.2 x hx).head)⟩
  | closed xs ih =>
    rw [all_list_iff] at hR hP ⊢
    exact ⟨hhead, fun x hx => ih x hx (hR.2.1 x hx) (hP.2.1 x hx)
      (hPS x (hR.2.1 x hx) (hP.2.1 x hx).head), nofun⟩
  | framed xs frame ih ihframe =>
    rw [all_list_iff] at hR hP ⊢
    refine ⟨hhead, fun x hx => ih x hx (hR.2.1 x hx) (hP.2.1 x hx)
      (hPS x (hR.2.1 x hx) (hP.2.1 x hx).head), fun t ht => ?_⟩
    obtain rfl := Option.mem_some_iff.mp ht
    have hframe := hR.2.2 _ rfl
    have hframe' := hP.2.2 _ rfl
    exact ihframe hframe hframe' (hPS _ hframe hframe'.head)
  | ite c t e ihc iht ihe =>
    rw [all_ite_iff] at hR hP ⊢
    exact ⟨hhead, ihc hR.2.1 hP.2.1 (hPS c hR.2.1 hP.2.1.head),
      iht hR.2.2.1 hP.2.2.1 (hPS t hR.2.2.1 hP.2.2.1.head),
      ihe hR.2.2.2 hP.2.2.2 (hPS e hR.2.2.2 hP.2.2.2.head)⟩
  | _ => exact hhead

theorem All.mono (hPR : ∀ t, P t → R t) {t : Term} (h : t.All P) : t.All R :=
  All.imp (fun t _ ht => hPR t ht) h h

theorem All.and {t : Term} (hP : t.All P) (hR : t.All R) : t.All fun u => P u ∧ R u :=
  All.imp (fun _ hu hhead => ⟨hu.head, hhead⟩) hP hR

/-- A property of heads that does not look at signatures. -/
theorem all_bare_iff (hP : ∀ t, P (bare t) ↔ P t) (t : Term) : t.bare.All P ↔ t.All P := by
  have members {xs : List Term} (ih : ∀ x ∈ xs, x.bare.All P ↔ x.All P) :
      (∀ x ∈ xs.map bare, x.All P) ↔ ∀ x ∈ xs, x.All P := by
    rw [List.forall_mem_map]
    exact forall₂_congr ih
  have hhead := hP t
  induction t using Term.ind with
  | app f xs s ih =>
    rw [bare, bareAll_eq] at hhead ⊢
    rw [all_app_iff, all_app_iff, hhead, members fun x hx => ih x hx (hP x)]
  | builtin op xs ih =>
    rw [bare, bareAll_eq] at hhead ⊢
    rw [all_builtin_iff, all_builtin_iff, hhead, members fun x hx => ih x hx (hP x)]
  | closed xs ih =>
    rw [bare_list] at hhead ⊢
    rw [all_list_iff, all_list_iff, ← hhead, members fun x hx => ih x hx (hP x)]
    simp
  | framed xs frame ih ihframe =>
    rw [bare_list] at hhead ⊢
    rw [all_list_iff, all_list_iff, ← hhead, members fun x hx => ih x hx (hP x)]
    simp [ihframe (hP frame)]
  | ite c t e ihc iht ihe =>
    rw [bare] at hhead ⊢
    have hc : c.bare.All P ↔ c.All P := ihc (hP c)
    have ht : t.bare.All P ↔ t.All P := iht (hP t)
    have he : e.bare.All P ↔ e.All P := ihe (hP e)
    rw [all_ite_iff, all_ite_iff, hhead, hc, ht, he]
  | _ => exact hhead

/-- What holds of all subterms holds of those of the conditionals. -/
theorem All.exists_conditional {t c : Term} (h : t.All P) (hc : c ∈ t.conditions) :
    ∃ u w, (ite c u w).All P := by
  have members {xs : List Term} (hxs : ∀ x ∈ xs, x.All P)
      (ih : ∀ x ∈ xs, x.All P → c ∈ x.conditions → ∃ u w, (ite c u w).All P)
      (hc : c ∈ allConditions xs) : ∃ u w, (ite c u w).All P := by
    rw [allConditions_eq, List.mem_flatMap] at hc
    obtain ⟨x, hx, hc⟩ := hc
    exact ih x hx (hxs x hx) hc
  induction t using Term.ind with
  | app f xs s ih => exact members ((all_app_iff f xs s).mp h).2 ih hc
  | builtin op xs ih => exact members ((all_builtin_iff op xs).mp h).2 ih hc
  | closed xs ih => exact members ((all_list_iff xs none).mp h).2.1 ih hc
  | framed xs frame ih ihframe =>
    obtain ⟨_, hxs, hframe⟩ := (all_list_iff xs (some frame)).mp h
    rcases List.mem_append.mp hc with hc | hc
    · exact members hxs ih hc
    · exact ihframe (hframe frame rfl) hc
  | ite b t e ihb iht ihe =>
    obtain ⟨_, hb, ht, he⟩ := (all_ite_iff b t e).mp h
    simp only [conditions, List.mem_cons, List.mem_append] at hc
    rcases hc with rfl | hc | hc | hc
    · exact ⟨t, e, h⟩
    · exact ihb hb hc
    · exact iht ht hc
    · exact ihe he hc
  | _ => exact absurd hc List.not_mem_nil

/-! ## Flat lists -/

def isList : Term → Bool
  | .list _ _ => true
  | _ => false

/-- A list with a frame has elements in its prefix, and its frame is not a list. -/
def FlatHead : Term → Prop
  | .list xs (some frame) => xs ≠ [] ∧ frame.isList = false
  | _ => True

/-- Every list in the term is flat. -/
abbrev Flat (t : Term) : Prop := t.All FlatHead

/-- Flattening lists keeps a property that flat lists have. -/
theorem all_consFrame (hclosed : ∀ xs, P (.list xs none))
    (hframed : ∀ xs frame, xs ≠ [] → frame.isList = false → P (.list xs (some frame)))
    {xs : List Term} {frame : Term} (hxs : ∀ x ∈ xs, x.All P) (hframe : frame.All P) :
    (consFrame xs frame).All P := by
  induction frame using Term.ind generalizing xs with
  | closed ys _ =>
    rw [all_list_iff] at hframe
    rw [consFrame, all_list_iff]
    refine ⟨hclosed _, fun x hx => ?_, nofun⟩
    rcases List.mem_append.mp hx with hx | hx
    · exact hxs x hx
    · exact hframe.2.1 x hx
  | framed ys frame _ ih =>
    rw [all_list_iff] at hframe
    rw [consFrame]
    refine ih (fun x hx => ?_) (hframe.2.2 frame rfl)
    rcases List.mem_append.mp hx with hx | hx
    · exact hxs x hx
    · exact hframe.2.1 x hx
  | _ =>
    rw [consFrame]
    · split
      · exact hframe
      · rename_i hne
        rw [all_list_iff]
        refine ⟨hframed _ _ (by simpa using hne) rfl, hxs, fun t ht => ?_⟩
        obtain rfl := Option.mem_some_iff.mp ht
        exact hframe
    all_goals nofun

theorem all_mkList (hclosed : ∀ xs, P (.list xs none))
    (hframed : ∀ xs frame, xs ≠ [] → frame.isList = false → P (.list xs (some frame)))
    {xs : List Term} {frame : Option Term} (hxs : ∀ x ∈ xs, x.All P)
    (hframe : ∀ t ∈ frame, t.All P) : (mkList xs frame).All P := by
  cases frame with
  | none =>
    rw [mkList, all_list_iff]
    exact ⟨hclosed xs, hxs, hframe⟩
  | some t => exact all_consFrame hclosed hframed hxs (hframe t rfl)

/-- `p` allows truth values and flat lists. -/
structure Plain (p : Term → Prop) : Prop where
  bool : ∀ b, p (.bool b)
  closed : ∀ xs, p (.list xs none)
  framed : ∀ xs frame, xs ≠ [] → frame.isList = false → p (.list xs (some frame))

theorem plain_flatHead : Plain FlatHead where
  bool _ := trivial
  closed _ := trivial
  framed _ _ hne hframe := ⟨hne, hframe⟩

/-- What is left of a list after some of its elements. -/
theorem all_rest (hP : Plain P) {xs : List Term} {frame : Option Term} (h : (list xs frame).All P)
    (n : Nat) : (mkList (xs.drop n) frame).All P := by
  obtain ⟨_, hxs, hframe⟩ := (all_list_iff xs frame).mp h
  exact all_mkList hP.closed hP.framed (fun x hx => hxs x (List.mem_of_mem_drop hx)) hframe

/-! ## Variables and symbols -/

/-- A variable is in `X`, the symbol of an application in `Q`. -/
def WithinHead (X : Variable → Prop) (Q : Symbol → Prop) : Term → Prop
  | .var v => X v
  | .app f _ _ => Q f
  | _ => True

/-- The variables are in `X` and the symbols in `Q`. -/
abbrev Within (X : Variable → Prop) (Q : Symbol → Prop) (t : Term) : Prop :=
  t.All (WithinHead X Q)

theorem plain_within (X : Variable → Prop) (Q : Symbol → Prop) : Plain (WithinHead X Q) where
  bool _ := trivial
  closed _ := trivial
  framed _ _ _ _ := trivial

variable {X X' : Variable → Prop} {Q : Symbol → Prop}

theorem Within.mono (hX : ∀ v, X v → X' v) {t : Term} (h : t.Within X Q) : t.Within X' Q := by
  refine All.mono (fun u hu => ?_) h
  cases u with
  | var v => exact hX v hu
  | _ => exact hu

/-- Only the variables that occur matter. -/
theorem within_occurrences {t : Term} (h : t.Within X Q) (hX : ∀ v ∈ t.occurrences, X' v) :
    t.Within X' Q := by
  have members {xs : List Term} (hxs : ∀ x ∈ xs, x.Within X Q)
      (hX : ∀ v ∈ allOccurrences xs, X' v)
      (ih : ∀ x ∈ xs, x.Within X Q → (∀ v ∈ x.occurrences, X' v) → x.Within X' Q) :
      ∀ x ∈ xs, x.Within X' Q := by
    intro x hx
    rw [allOccurrences_eq] at hX
    exact ih x hx (hxs x hx) fun v hv => hX v (List.mem_flatMap.mpr ⟨x, hx, hv⟩)
  induction t using Term.ind with
  | var v => exact hX v (List.mem_singleton.mpr rfl)
  | app f xs s ih =>
    rw [Within, all_app_iff] at h ⊢
    exact ⟨h.1, members h.2 hX ih⟩
  | builtin op xs ih =>
    rw [Within, all_builtin_iff] at h ⊢
    exact ⟨trivial, members h.2 hX ih⟩
  | closed xs ih =>
    rw [Within, all_list_iff] at h ⊢
    exact ⟨trivial, members h.2.1 hX ih, nofun⟩
  | framed xs frame ih ihframe =>
    rw [Within, all_list_iff] at h ⊢
    rw [occurrences] at hX
    refine ⟨trivial, members h.2.1 (fun v hv => hX v (List.mem_append_left _ hv)) ih, fun t ht => ?_⟩
    obtain rfl := Option.mem_some_iff.mp ht
    exact ihframe (h.2.2 _ rfl) fun v hv => hX v (List.mem_append_right _ hv)
  | ite c t e ihc iht ihe =>
    rw [Within, all_ite_iff] at h ⊢
    simp only [occurrences, List.mem_append] at hX
    exact ⟨trivial, ihc h.2.1 fun v hv => hX v (Or.inl hv),
      iht h.2.2.1 fun v hv => hX v (Or.inr (Or.inl hv)),
      ihe h.2.2.2 fun v hv => hX v (Or.inr (Or.inr hv))⟩
  | _ => exact trivial

theorem Within.occurrences {t : Term} (h : t.Within X Q) : ∀ v ∈ t.occurrences, X v := by
  have members {xs : List Term} (hxs : ∀ x ∈ xs, x.Within X Q)
      (ih : ∀ x ∈ xs, x.Within X Q → ∀ v ∈ x.occurrences, X v) :
      ∀ v ∈ allOccurrences xs, X v := by
    intro v hv
    rw [allOccurrences_eq, List.mem_flatMap] at hv
    obtain ⟨x, hx, hv⟩ := hv
    exact ih x hx (hxs x hx) v hv
  induction t using Term.ind with
  | var v =>
    intro w hw
    obtain rfl := List.mem_singleton.mp hw
    exact h
  | app f xs s ih => exact members ((all_app_iff f xs s).mp h).2 ih
  | builtin op xs ih => exact members ((all_builtin_iff op xs).mp h).2 ih
  | closed xs ih => exact members ((all_list_iff xs none).mp h).2.1 ih
  | framed xs frame ih ihframe =>
    obtain ⟨_, hxs, hframe⟩ := (all_list_iff xs (some frame)).mp h
    intro v hv
    rcases List.mem_append.mp hv with hv | hv
    · exact members hxs ih v hv
    · exact ihframe (hframe frame rfl) v hv
  | ite c t e ihc iht ihe =>
    obtain ⟨_, hc, ht, he⟩ := (all_ite_iff c t e).mp h
    intro v hv
    simp only [Term.occurrences, List.mem_append] at hv
    rcases hv with hv | hv | hv
    · exact ihc hc v hv
    · exact iht ht v hv
    · exact ihe he v hv
  | _ => simp [Term.occurrences]

/-! ## Substitution -/

/-- `R` holds of every head that substitution builds where `P` held. -/
structure Substituted (f : Variable → Option Term) (P R : Term → Prop) : Prop where
  token : ∀ t, t.isToken = true → R t
  var : ∀ v, P (.var v) → ((f v).getD (.var v)).All R
  app : ∀ g xs s, P (.app g xs s) → R (.app g (xs.map (substitute f)) s)
  builtin : ∀ op xs, P (.builtin op xs) → R (.builtin op (xs.map (substitute f)))
  closed : ∀ xs, R (.list xs none)
  framed : ∀ xs frame, xs ≠ [] → frame.isList = false → R (.list xs (some frame))
  ite : ∀ c t e, P (.ite c t e) → R (.ite (c.substitute f) (t.substitute f) (e.substitute f))

theorem all_substitute {f : Variable → Option Term} (hf : Substituted f P R) {t : Term}
    (ht : t.All P) : (t.substitute f).All R := by
  have members {xs : List Term} (hxs : ∀ x ∈ xs, x.All P)
      (ih : ∀ x ∈ xs, x.All P → (x.substitute f).All R) : ∀ x ∈ xs.map (substitute f), x.All R := by
    rw [List.forall_mem_map]
    exact fun x hx => ih x hx (hxs x hx)
  induction t using Term.ind with
  | var v => exact hf.var v ht
  | app g xs s ih =>
    obtain ⟨hhead, hxs⟩ := (all_app_iff g xs s).mp ht
    rw [substitute, substituteAll_eq, all_app_iff]
    exact ⟨hf.app g xs s hhead, members hxs ih⟩
  | builtin op xs ih =>
    obtain ⟨hhead, hxs⟩ := (all_builtin_iff op xs).mp ht
    rw [substitute, substituteAll_eq, all_builtin_iff]
    exact ⟨hf.builtin op xs hhead, members hxs ih⟩
  | closed xs ih =>
    rw [substitute, substituteAll_eq, all_list_iff]
    exact ⟨hf.closed _, members ((all_list_iff xs none).mp ht).2.1 ih, nofun⟩
  | framed xs frame ih ihframe =>
    obtain ⟨_, hxs, hframe⟩ := (all_list_iff xs (some frame)).mp ht
    rw [substitute, substituteAll_eq]
    refine all_mkList hf.closed hf.framed (members hxs ih) fun u hu => ?_
    obtain rfl := Option.mem_some_iff.mp hu
    exact ihframe (hframe frame rfl)
  | ite c t e ihc iht ihe =>
    obtain ⟨hhead, hc, ht, he⟩ := (all_ite_iff c t e).mp ht
    rw [substitute, all_ite_iff]
    exact ⟨hf.ite c t e hhead, ihc hc, iht ht, ihe he⟩
  | _ => exact hf.token _ rfl

theorem within_substitute {f : Variable → Option Term} {t : Term} (h : t.Within X Q)
    (hf : ∀ v, X v → ((f v).getD (.var v)).Within X' Q) : (t.substitute f).Within X' Q := by
  refine all_substitute
    { token := fun t ht => ?_
      var := hf
      app := fun _ _ _ hg => hg
      builtin := fun _ _ _ => trivial
      closed := fun _ => trivial
      framed := fun _ _ _ _ => trivial
      ite := fun _ _ _ _ => trivial } h
  cases t <;> trivial

/-! ## Evaluation -/

variable {voc : Vocabulary} {facts : Facts}

/-- `R` holds of every head that evaluation builds where `P` held. -/
structure Rebuilt (voc : Vocabulary) (facts : Facts) (P R : Term → Prop) : Prop where
  token : ∀ t, t.isToken = true → R t
  var : ∀ v, P (.var v) → facts.decide (.var v) = .var v → R (.var v)
  app : ∀ f xs s, P (.app f xs s) → R (voc.apply f (xs.map (evaluate voc facts)))
  builtin : ∀ op xs, P (.builtin op xs) → R (.builtin op (xs.map (evaluate voc facts)))
  closed : ∀ xs, R (.list xs none)
  framed : ∀ xs frame, xs ≠ [] → frame.isList = false → R (.list xs (some frame))
  ite : ∀ c t e, P (.ite c t e) →
    R (.ite (c.evaluate voc facts) (t.evaluate voc facts) (e.evaluate voc facts))

/-- A term is left alone, or is of sort `Bool` and gives its truth value. -/
theorem decide_cases (facts : Facts) (t : Term) : facts.decide t = t ∨
    ∃ b, facts t = some b ∧ t.sort = .bool ∧ facts.decide t = .bool b := by
  unfold Facts.decide
  split
  · exact Or.inl rfl
  · rename_i hopen
    simp only [Bool.or_eq_true, Bool.not_eq_true', not_or, Bool.not_eq_false, SortName.isBool,
      beq_iff_eq] at hopen
    cases h : facts t with
    | none => exact Or.inl rfl
    | some b => exact Or.inr ⟨b, rfl, hopen.2, rfl⟩

theorem all_decide (hbool : ∀ b, R (.bool b)) {t : Term} (ht : t.All R) :
    (facts.decide t).All R := by
  rcases decide_cases facts t with hsame | ⟨b, _, _, htold⟩
  · rwa [hsame]
  · rw [htold]
    exact hbool b

/-- What applying an operation gives: a token of its sort, an argument of a conjunction or a
    disjunction, what is negated twice, or the operation itself. -/
inductive ReducesTo (op : Builtin) (xs : List Term) (t : Term) : Prop
  | token (ht : t.isToken = true) (hsort : t.sort = op.resultSort)
  | argument (hop : op = .and ∨ op = .or) (hx : t ∈ xs)
  | negated (hop : op = .not) (hxs : xs = [.builtin .not [t]])
  | stuck (ht : t = .builtin op xs)

theorem reducesTo_reduceBuiltin (op : Builtin) (xs : List Term) :
    ReducesTo op xs (reduceBuiltin op xs) := by
  unfold reduceBuiltin
  split
  · rename_i x y
    unfold conj
    split_ifs
    · exact .argument (Or.inl rfl) (by simp)
    · exact .argument (Or.inl rfl) (by simp)
    · exact .token rfl rfl
    · exact .stuck rfl
  · rename_i x y
    unfold disj
    split_ifs
    · exact .argument (Or.inr rfl) (by simp)
    · exact .argument (Or.inr rfl) (by simp)
    · exact .token rfl rfl
    · exact .stuck rfl
  · unfold neg
    split
    · exact .token rfl rfl
    · exact .negated rfl rfl
    · exact .stuck rfl
  · unfold equal
    split_ifs
    · exact .token rfl rfl
    · exact .token rfl rfl
    · exact .stuck rfl
  · exact .token rfl rfl
  · exact .token rfl rfl
  · exact .token rfl rfl
  · exact .token rfl rfl
  · exact .stuck rfl

/-- An operation gives a token, one of its arguments or part of it, or is left as it is. -/
theorem all_reduceBuiltin (htoken : ∀ t, t.isToken = true → R t) (op : Builtin) {xs : List Term}
    (hxs : ∀ x ∈ xs, x.All R)
    (hhead : reduceBuiltin op xs = .builtin op xs → R (.builtin op xs)) :
    (reduceBuiltin op xs).All R := by
  have hreduces := reducesTo_reduceBuiltin op xs
  generalize reduceBuiltin op xs = t at hhead hreduces ⊢
  cases hreduces with
  | token ht _ => cases t <;> first | exact htoken _ rfl | cases ht
  | argument _ hx => exact hxs t hx
  | negated _ h =>
    have hinner := hxs (.builtin .not [t]) (h ▸ List.mem_singleton.mpr rfl)
    exact ((all_builtin_iff _ _).mp hinner).2 t (List.mem_singleton.mpr rfl)
  | stuck h =>
    subst h
    exact (all_builtin_iff op xs).mpr ⟨hhead rfl, hxs⟩

/-- Every head of an evaluated term is one that evaluation builds. -/
theorem all_evaluate (hR : Rebuilt voc facts P R) {t : Term} (ht : t.All P) :
    (t.evaluate voc facts).All R := by
  have members {xs : List Term} (hxs : ∀ x ∈ xs, x.All P)
      (ih : ∀ x ∈ xs, x.All P → (x.evaluate voc facts).All R) :
      ∀ x ∈ xs.map (evaluate voc facts), x.All R := by
    rw [List.forall_mem_map]
    exact fun x hx => ih x hx (hxs x hx)
  have decided {t : Term} (ht : t.All R) : (facts.decide t).All R :=
    all_decide (fun b => hR.token (.bool b) rfl) ht
  induction t using Term.ind with
  | var v =>
    rw [evaluate]
    rcases decide_cases facts (.var v) with hleft | ⟨b, _, _, hb⟩
    · rw [hleft]
      exact hR.var v ht hleft
    · rw [hb]
      exact hR.token (.bool b) rfl
  | app f xs s ih =>
    obtain ⟨hhead, hxs⟩ := (all_app_iff f xs s).mp ht
    rw [evaluate, evaluateAll_eq]
    refine decided ?_
    rw [Vocabulary.apply, all_app_iff]
    exact ⟨hR.app f xs s hhead, members hxs ih⟩
  | builtin op xs ih =>
    obtain ⟨hhead, hxs⟩ := (all_builtin_iff op xs).mp ht
    rw [evaluate, evaluateAll_eq]
    exact decided (all_reduceBuiltin hR.token op (members hxs ih) fun _ => hR.builtin op xs hhead)
  | closed xs ih =>
    rw [evaluate, evaluateAll_eq, all_list_iff]
    exact ⟨hR.closed _, members ((all_list_iff xs none).mp ht).2.1 ih, nofun⟩
  | framed xs frame ih ihframe =>
    obtain ⟨_, hxs, hframe⟩ := (all_list_iff xs (some frame)).mp ht
    rw [evaluate, evaluateAll_eq]
    refine all_mkList hR.closed hR.framed (members hxs ih) fun u hu => ?_
    obtain rfl := Option.mem_some_iff.mp hu
    exact ihframe (hframe frame rfl)
  | ite c t e ihc iht ihe =>
    obtain ⟨hhead, hc, ht, he⟩ := (all_ite_iff c t e).mp ht
    have hrebuilt := hR.ite c t e hhead
    rw [evaluate]
    split
    · exact iht ht
    · exact ihe he
    · rw [mergeBranches]
      split
      · exact iht ht
      · exact decided ((all_ite_iff _ _ _).mpr ⟨hrebuilt, ihc hc, iht ht, ihe he⟩)
  | _ => exact hR.token _ rfl

theorem within_any (t : Term) : t.Within (fun _ => True) (fun _ => True) := by
  induction t using Term.ind with
  | app f xs s ih => exact (all_app_iff f xs s).mpr ⟨trivial, ih⟩
  | builtin op xs ih => exact (all_builtin_iff op xs).mpr ⟨trivial, ih⟩
  | closed xs ih => exact (all_list_iff xs none).mpr ⟨trivial, ih, nofun⟩
  | framed xs frame ih ihframe =>
    refine (all_list_iff xs (some frame)).mpr ⟨trivial, ih, fun t ht => ?_⟩
    obtain rfl := Option.mem_some_iff.mp ht
    exact ihframe
  | ite c t e ihc iht ihe => exact (all_ite_iff c t e).mpr ⟨trivial, ihc, iht, ihe⟩
  | _ => exact trivial

/-- Evaluation leaves only flat lists. -/
theorem flat_evaluate (voc : Vocabulary) (facts : Facts) (t : Term) :
    (t.evaluate voc facts).Flat := by
  refine all_evaluate
    { token := fun t ht => ?_
      var := fun _ _ _ => trivial
      app := fun _ _ _ _ => trivial
      builtin := fun _ _ _ => trivial
      closed := fun _ => trivial
      framed := fun _ _ hne hframe => ⟨hne, hframe⟩
      ite := fun _ _ _ _ => trivial } (within_any t)
  cases t <;> trivial

/-- An application stands at the least sort for its arguments. -/
def LeastHead (voc : Vocabulary) : Term → Prop
  | .app f xs s => s = voc.leastSort f (xs.map sort)
  | _ => True

/-- Evaluation leaves every application at its least sort. -/
theorem least_evaluate (voc : Vocabulary) (facts : Facts) (t : Term) :
    (t.evaluate voc facts).All (LeastHead voc) := by
  refine all_evaluate
    { token := fun t ht => ?_
      var := fun _ _ _ => trivial
      app := fun _ _ _ _ => rfl
      builtin := fun _ _ _ => trivial
      closed := fun _ => trivial
      framed := fun _ _ _ _ => trivial
      ite := fun _ _ _ _ => trivial } (within_any t)
  cases t <;> trivial

/-- Whether `p` holds of a head does not depend on what is below it. -/
structure Shallow (voc : Vocabulary) (p : Term → Prop) : Prop where
  token : ∀ t, t.isToken = true → p t
  app : ∀ f xs s ys, p (.app f xs s) → p (.app f ys s)
  apply : ∀ f xs s ys, p (.app f xs s) → p (voc.apply f ys)
  builtin : ∀ op xs ys, p (.builtin op xs) → p (.builtin op ys)
  list : ∀ xs frame, p (.list xs frame)
  ite : ∀ c t e c' t' e', p (.ite c t e) → p (.ite c' t' e')

theorem Shallow.substitute (hp : Shallow voc P) {f : Variable → Option Term} {t : Term}
    (ht : t.All P) (hf : ∀ v, P (.var v) → ((f v).getD (.var v)).All P) :
    (t.substitute f).All P :=
  all_substitute
    { token := hp.token
      var := hf
      app := fun _ _ _ => hp.app _ _ _ _
      builtin := fun _ _ => hp.builtin _ _ _
      closed := fun xs => hp.list xs none
      framed := fun xs frame _ _ => hp.list xs (some frame)
      ite := fun _ _ _ => hp.ite _ _ _ _ _ _ } ht

theorem Shallow.evaluate (hp : Shallow voc P) (facts : Facts) {t : Term} (ht : t.All P) :
    (t.evaluate voc facts).All P :=
  all_evaluate
    { token := hp.token
      var := fun _ hv _ => hv
      app := fun _ _ _ => hp.apply _ _ _ _
      builtin := fun _ _ => hp.builtin _ _ _
      closed := fun xs => hp.list xs none
      framed := fun xs frame _ _ => hp.list xs (some frame)
      ite := fun _ _ _ => hp.ite _ _ _ _ _ _ } ht

theorem Shallow.and (hP : Shallow voc P) (hR : Shallow voc R) : Shallow voc fun t => P t ∧ R t where
  token t ht := ⟨hP.token t ht, hR.token t ht⟩
  app _ _ _ _ h := h.imp (hP.app _ _ _ _) (hR.app _ _ _ _)
  apply _ _ _ _ h := h.imp (hP.apply _ _ _ _) (hR.apply _ _ _ _)
  builtin _ _ _ h := h.imp (hP.builtin _ _ _) (hR.builtin _ _ _)
  list xs frame := ⟨hP.list xs frame, hR.list xs frame⟩
  ite _ _ _ _ _ _ h := h.imp (hP.ite _ _ _ _ _ _) (hR.ite _ _ _ _ _ _)

theorem shallow_within (voc : Vocabulary) (X : Variable → Prop) (Q : Symbol → Prop) :
    Shallow voc (WithinHead X Q) where
  token t _ := by cases t <;> trivial
  app _ _ _ _ hf := hf
  apply _ _ _ _ hf := hf
  builtin _ _ _ _ := trivial
  list _ _ := trivial
  ite _ _ _ _ _ _ _ := trivial

/-- Evaluation brings in no variables or symbols. -/
theorem within_evaluate (voc : Vocabulary) (facts : Facts) {t : Term} (h : t.Within X Q) :
    (t.evaluate voc facts).Within X Q :=
  (shallow_within voc X Q).evaluate facts h

end Term

end Entail
