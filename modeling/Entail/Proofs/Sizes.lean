import Entail.Proofs.Steps
import Mathlib.Algebra.GroupWithZero.Nat

set_option autoImplicit false

/-! # Sizes

Evaluation does not make terms larger, and what an equality is taken apart into is smaller than the
equality. These are the sizes by which the passes of simplification come to an end. -/

namespace Entail

namespace Term

/-! ## Terms -/

theorem sizeAll_eq (ts : List Term) : sizeAll ts = (ts.map size).sum := by
  induction ts with
  | nil => rfl
  | cons t ts ih => rw [sizeAll, ih, List.map_cons, List.sum_cons]

theorem size_app (f : Symbol) (xs : List Term) (s : SortName) :
    (app f xs s).size = (xs.map size).sum + 1 := by
  rw [size, sizeAll_eq]

theorem size_builtin (op : Builtin) (xs : List Term) :
    (builtin op xs).size = (xs.map size).sum + 1 := by
  rw [size, sizeAll_eq]

/-- The size of a frame; there may be none. -/
def frameSize (frame : Option Term) : Nat := (frame.map size).getD 0

theorem size_list (xs : List Term) (frame : Option Term) :
    (list xs frame).size = (xs.map size).sum + frameSize frame + 1 := by
  cases frame with
  | none => rw [size, sizeAll_eq]; rfl
  | some u => rw [size, sizeAll_eq]; rfl

theorem size_pos (t : Term) : 0 < t.size := by
  cases t with
  | var v => exact Nat.one_pos
  | bool b => exact Nat.one_pos
  | int n => exact Nat.one_pos
  | str s => exact Nat.one_pos
  | app f xs s => rw [size_app]; omega
  | builtin op xs => rw [size_builtin]; omega
  | list xs frame => rw [size_list]; omega
  | ite c t e => rw [size]; omega

theorem size_bare (t : Term) : t.bare.size = t.size := by
  induction t using Term.ind with
  | app f xs s ih => rw [bare, bareAll_eq, size_app, size_app, map_map_congr ih]
  | builtin op xs ih => rw [bare, bareAll_eq, size_builtin, size_builtin, map_map_congr ih]
  | closed xs ih => rw [bare_list, size_list, size_list, map_map_congr ih]; rfl
  | framed xs frame ih ihframe =>
    rw [bare_list, size_list, size_list, map_map_congr ih]
    simp only [frameSize, Option.map_some, Option.getD_some, ihframe]
  | ite c t e ihc iht ihe => rw [bare, size, size, ihc, iht, ihe]
  | _ => rfl

theorem sum_size_le {f : Term → Term} {xs : List Term} (h : ∀ x ∈ xs, (f x).size ≤ x.size) :
    ((xs.map f).map size).sum ≤ (xs.map size).sum := by
  induction xs with
  | nil => exact Nat.le_refl _
  | cons x xs ih =>
    rw [List.forall_mem_cons] at h
    have hrest := ih h.2
    have hx := h.1
    simp only [List.map_cons, List.sum_cons]
    omega

/-- Flattening a list removes nodes, and the node of the list itself if its prefix is empty. -/
theorem size_consFrame (xs : List Term) (frame : Term) :
    (consFrame xs frame).size ≤ (xs.map size).sum + frame.size + 1 ∧
      (xs = [] → (consFrame xs frame).size ≤ frame.size) := by
  induction frame using Term.ind generalizing xs with
  | closed ys _ =>
    have hsize : (consFrame xs (list ys none)).size = (xs.map size).sum + (list ys none).size := by
      rw [consFrame, size_list, size_list, List.map_append, List.sum_append]
      omega
    refine ⟨by omega, fun hnil => ?_⟩
    subst hnil
    rw [hsize, List.map_nil, List.sum_nil]
    omega
  | framed ys frame _ ih =>
    obtain ⟨hle, hnil⟩ := ih (xs ++ ys)
    have hframe : (list ys (some frame)).size = (ys.map size).sum + frame.size + 1 := size_list _ _
    rw [List.map_append, List.sum_append] at hle
    rw [consFrame, hframe]
    refine ⟨by omega, fun hxs => ?_⟩
    subst hxs
    simp only [List.map_nil, List.sum_nil] at hle
    omega
  | _ => cases xs <;> simp [consFrame, size_list, frameSize]

theorem size_mkList (xs : List Term) (frame : Option Term) :
    (mkList xs frame).size ≤ (xs.map size).sum + frameSize frame + 1 := by
  cases frame with
  | none => exact Nat.le_of_eq (size_list xs none)
  | some u => exact (size_consFrame xs u).1

/-- Where a list has no elements left but a frame, the node of the list is gone. -/
theorem size_mkList_nil (frame : Term) : (mkList [] (some frame)).size ≤ frame.size :=
  (size_consFrame [] frame).2 rfl

/-- A list with an element in front has one after flattening. -/
theorem exists_mkList_cons (x : Term) (xs : List Term) (frame : Option Term) :
    ∃ ys frame', mkList (x :: xs) frame = list (x :: ys) frame' := by
  cases frame with
  | none => exact ⟨xs, none, rfl⟩
  | some u =>
    rw [mkList]
    induction u using Term.ind generalizing xs with
    | closed ys _ => exact ⟨xs ++ ys, none, rfl⟩
    | framed ys inner _ ih => exact ih (xs ++ ys)
    | _ => exact ⟨xs, some _, rfl⟩

/-- Substituting for variables that do not occur adds nothing. -/
theorem size_substitute_le {f : Variable → Option Term} {t : Term}
    (h : ∀ v ∈ t.occurrences, f v = none) : (t.substitute f).size ≤ t.size := by
  have members {xs : List Term} (hxs : ∀ v ∈ allOccurrences xs, f v = none)
      (ih : ∀ x ∈ xs, (∀ v ∈ x.occurrences, f v = none) → (x.substitute f).size ≤ x.size) :
      ((xs.map (substitute f)).map size).sum ≤ (xs.map size).sum := by
    rw [allOccurrences_eq] at hxs
    exact sum_size_le fun x hx => ih x hx fun v hv => hxs v (List.mem_flatMap.mpr ⟨x, hx, hv⟩)
  induction t using Term.ind with
  | var v =>
    rw [substitute, h v (List.mem_singleton.mpr rfl)]
    exact Nat.le_refl _
  | app g xs s ih =>
    have hxs := members h ih
    rw [substitute, substituteAll_eq, size_app, size_app]
    omega
  | builtin op xs ih =>
    have hxs := members h ih
    rw [substitute, substituteAll_eq, size_builtin, size_builtin]
    omega
  | closed xs ih =>
    have hxs := members h ih
    rw [substitute, substituteAll_eq, size_list, size_list]
    omega
  | framed xs frame ih ihframe =>
    have hxs := members (fun v hv => h v (List.mem_append_left _ hv)) ih
    have hframe := ihframe fun v hv => h v (List.mem_append_right _ hv)
    have hlist := size_mkList (xs.map (substitute f)) (some (frame.substitute f))
    rw [substitute, substituteAll_eq, size_list]
    simp only [frameSize, Option.map_some, Option.getD_some] at hlist ⊢
    omega
  | ite c t e ihc iht ihe =>
    simp only [occurrences, List.mem_append] at h
    have hc := ihc fun v hv => h v (Or.inl hv)
    have ht := iht fun v hv => h v (Or.inr (Or.inl hv))
    have he := ihe fun v hv => h v (Or.inr (Or.inr hv))
    rw [substitute, size, size]
    omega
  | _ => exact Nat.le_refl _

/-! ## Evaluation -/

theorem size_decide (facts : Facts) (t : Term) : (facts.decide t).size ≤ t.size := by
  rcases decide_cases facts t with hsame | ⟨b, _, _, htold⟩
  · rw [hsame]
  · rw [htold]
    exact size_pos t

theorem size_reduceBuiltin (op : Builtin) (xs : List Term) :
    (reduceBuiltin op xs).size ≤ (xs.map size).sum + 1 := by
  have hmember {x : Term} (hx : x ∈ xs) : x.size ≤ (xs.map size).sum :=
    List.single_le_sum (fun _ _ => Nat.zero_le _) _ (List.mem_map_of_mem hx)
  have hreduces := reducesTo_reduceBuiltin op xs
  generalize reduceBuiltin op xs = t at hreduces ⊢
  cases hreduces with
  | token ht _ =>
    have hsize : t.size = 1 := by cases t <;> first | rfl | cases ht
    omega
  | argument _ hx => exact Nat.le_succ_of_le (hmember hx)
  | negated _ h =>
    have hinner := hmember (x := .builtin .not [t]) (h ▸ List.mem_singleton.mpr rfl)
    rw [size_builtin, List.map_singleton, List.sum_singleton] at hinner
    omega
  | stuck h =>
    rw [h]
    exact Nat.le_of_eq (size_builtin op xs)

/-- Evaluation does not make a term larger. -/
theorem size_evaluate (voc : Vocabulary) (facts : Facts) (t : Term) :
    (t.evaluate voc facts).size ≤ t.size := by
  induction t using Term.ind with
  | var v => exact size_decide facts _
  | app f xs s ih =>
    have hxs := sum_size_le ih
    have hdecide := size_decide facts (voc.apply f (xs.map (evaluate voc facts)))
    rw [Vocabulary.apply, size_app] at hdecide
    rw [evaluate, evaluateAll_eq, size_app]
    exact Nat.le_trans hdecide (Nat.succ_le_succ hxs)
  | builtin op xs ih =>
    have hxs := sum_size_le ih
    have hreduce := size_reduceBuiltin op (xs.map (evaluate voc facts))
    have hdecide := size_decide facts (reduceBuiltin op (xs.map (evaluate voc facts)))
    rw [evaluate, evaluateAll_eq, size_builtin]
    omega
  | closed xs ih =>
    have hxs := sum_size_le ih
    rw [evaluate, evaluateAll_eq, size_list, size_list]
    omega
  | framed xs frame ih ihframe =>
    have hxs := sum_size_le ih
    have hlist := size_mkList (xs.map (evaluate voc facts)) (some (frame.evaluate voc facts))
    rw [evaluate, evaluateAll_eq, size_list]
    simp only [frameSize, Option.map_some, Option.getD_some] at hlist ⊢
    omega
  | ite c t e ihc iht ihe =>
    rw [evaluate, size]
    split
    · omega
    · omega
    · rw [mergeBranches]
      split
      · omega
      · refine Nat.le_trans (size_decide facts _) ?_
        rw [size]
        omega
  | _ => exact Nat.le_refl _

end Term

/-! ## Equalities and formulas -/

namespace Equality

theorem size_rewrite (voc : Vocabulary) (facts : Facts) (f : Variable → Option Term)
    (e : Equality) :
    (e.rewrite voc facts f).size ≤ (e.lhs.substitute f).size + (e.rhs.substitute f).size :=
  Nat.add_le_add (Term.size_evaluate voc facts _) (Term.size_evaluate voc facts _)

/-- The literals of a connective are no larger than the statement about it. -/
theorem sum_literals (t : Term) (b : Bool) : ((literals t b).map size).sum ≤ t.size + 1 := by
  have other {t : Term} {b : Bool} (h : literals t b = [⟨t, .bool b⟩]) :
      ((literals t b).map size).sum ≤ t.size + 1 := by
    rw [h]
    simp [size, Term.size]
  fun_induction literals t b with
  | case1 x y ihx ihy =>
    rw [List.map_append, List.sum_append, Term.size_builtin]
    simp only [List.map_cons, List.map_nil, List.sum_cons, List.sum_nil]
    omega
  | case2 x y ihx ihy =>
    rw [List.map_append, List.sum_append, Term.size_builtin]
    simp only [List.map_cons, List.map_nil, List.sum_cons, List.sum_nil]
    omega
  | case3 x b ih =>
    rw [Term.size_builtin]
    simp only [List.map_cons, List.map_nil, List.sum_cons, List.sum_nil]
    omega
  | case4 t b => simp [size, Term.size]

theorem sum_parts (e : Equality) : ((parts e).map size).sum ≤ e.size := by
  have stated (t : Term) (b : Bool) (d : Equality) (hd : d.size = t.size + 1) :
      ((if splits t b then literals t b else [d]).map size).sum ≤ t.size + 1 := by
    split
    · exact sum_literals t b
    · simp [hd]
  obtain ⟨lhs, rhs⟩ := e
  dsimp only [parts]
  split
  · rename_i b
    exact stated lhs b _ rfl
  · rename_i b _
    have h := stated rhs b ⟨.bool b, rhs⟩ (Nat.add_comm _ _)
    rw [size, Nat.add_comm]
    exact h
  · simp

end Equality

namespace Formula

/-- No bindings and no disjunctions, and equalities of no more than `n` nodes together. -/
def Light (n : Nat) : Formula → Prop
  | .falsified _ => True
  | .all s es ds => s.entries = [] ∧ ds = [] ∧ (es.map Equality.size).sum ≤ n

theorem Light.mono {n m : Nat} (hnm : n ≤ m) {φ : Formula} (h : φ.Light n) : φ.Light m := by
  cases φ with
  | falsified w => trivial
  | all s es ds => exact ⟨h.1, h.2.1, Nat.le_trans h.2.2 hnm⟩

theorem light_top : top.Light 0 := ⟨rfl, rfl, Nat.le_refl _⟩

theorem sum_put (e : Equality) (es : List Equality) :
    ((Sorted.put Equality.cmp e es).map Equality.size).sum ≤
      (es.map Equality.size).sum + e.size := by
  induction es with
  | nil => simp [Sorted.put]
  | cons d es ih =>
    unfold Sorted.put
    split
    · simp only [List.map_cons, List.sum_cons]
      omega
    · simp only [List.map_cons, List.sum_cons]
      omega
    · simp only [List.map_cons, List.sum_cons]
      omega

theorem light_addPart {n : Nat} {φ : Formula} (h : φ.Light n) (e : Equality) :
    (φ.addPart e).Light (n + e.size) := by
  cases φ with
  | falsified w => trivial
  | all s es ds =>
    obtain ⟨hs, hds, hes⟩ := h
    unfold addPart
    dsimp only
    split
    · exact ⟨hs, hds, by omega⟩
    · trivial
    · split
      · exact ⟨hs, hds, by omega⟩
      · have hput := sum_put e es
        exact ⟨hs, hds, by omega⟩

theorem light_addEquality {n : Nat} {φ : Formula} (h : φ.Light n) (e : Equality) :
    (φ.addEquality e).Light (n + e.size) := by
  have fold (es : List Equality) {n : Nat} {φ : Formula} (h : φ.Light n) :
      (es.foldl addPart φ).Light (n + (es.map Equality.size).sum) := by
    induction es generalizing n φ with
    | nil => exact h
    | cons e es ih =>
      have hnext := ih (light_addPart h e)
      rw [List.map_cons, List.sum_cons, ← Nat.add_assoc]
      exact hnext
  exact (fold e.parts h).mono (Nat.add_le_add_left e.sum_parts n)

theorem light_addEqualities {n : Nat} {φ : Formula} (h : φ.Light n) (es : List Equality) :
    (φ.addEqualities es).Light (n + (es.map Equality.size).sum) := by
  unfold addEqualities
  induction es generalizing n φ with
  | nil => exact h
  | cons e es ih =>
    have hnext := ih (light_addEquality h e)
    rw [List.map_cons, List.sum_cons, ← Nat.add_assoc]
    exact hnext

theorem light_addFormula {n m : Nat} {φ ψ : Formula} (hφ : φ.Light n) (hψ : ψ.Light m) :
    (φ.addFormula ψ).Light (n + m) := by
  cases ψ with
  | falsified w =>
    rw [addFormula, merge]
    split
    · exact hφ.mono (Nat.le_add_right n m)
    · trivial
  | all s es ds =>
    obtain ⟨hs, rfl, hes⟩ := hψ
    rw [addFormula, merge, hs]
    exact (light_addEqualities hφ es).mono (Nat.add_le_add_left hes n)

end Formula

/-! ## Taking equalities apart -/

namespace Unifier

variable {mode : SimplifyMode}

/-- Of the remainders of two lists, if they are neither equal nor clash, one is a frame. -/
theorem frame_of_rests {xs ys : List Term} {frame frame' : Option Term}
    (hne : (Term.mkList (xs.drop ys.length) frame == Term.mkList (ys.drop xs.length) frame') = false)
    (hclash : (Term.mkList (xs.drop ys.length) frame).clashes
      (Term.mkList (ys.drop xs.length) frame') = false) :
    (∃ u, frame = some u ∧ xs.drop ys.length = []) ∨
      ∃ u, frame' = some u ∧ ys.drop xs.length = [] := by
  -- the empty list clashes with a list that has elements
  have closed {zs : List Term} {fr : Option Term} (hzs : zs ≠ []) :
      Term.emptyList.clashes (.mkList zs fr) = true ∧
        (Term.mkList zs fr).clashes .emptyList = true := by
    obtain ⟨z, zs, rfl⟩ := List.exists_cons_of_ne_nil hzs
    obtain ⟨zs', fr', hlist⟩ := Term.exists_mkList_cons z zs fr
    rw [hlist, Term.emptyList, Term.clashes, Term.clashes]
    simp [Term.shorterIsClosed]
  by_cases hlen : xs.length ≤ ys.length
  · have hnil : xs.drop ys.length = [] := List.drop_eq_nil_of_le hlen
    cases frame with
    | some u => exact Or.inl ⟨u, rfl, hnil⟩
    | none =>
      rw [hnil] at hne hclash
      by_cases hrest : ys.drop xs.length = []
      · cases frame' with
        | some u => exact Or.inr ⟨u, rfl, hrest⟩
        | none =>
          rw [hrest, Term.beq_self] at hne
          exact absurd hne (by simp)
      · rw [show Term.mkList [] none = Term.emptyList from rfl, (closed hrest).1] at hclash
        exact absurd hclash (by simp)
  · have hnil : ys.drop xs.length = [] := List.drop_eq_nil_of_le (by omega)
    cases frame' with
    | some u => exact Or.inr ⟨u, rfl, hnil⟩
    | none =>
      have hrest : xs.drop ys.length ≠ [] := fun hdrop => hlen (List.drop_eq_nil_iff.mp hdrop)
      rw [hnil, show Term.mkList [] none = Term.emptyList from rfl, (closed hrest).2] at hclash
      exact absurd hclash (by simp)

/-- The remainders of two lists, if they are neither equal nor clash, have lost a node besides the
    common positions. -/
theorem size_rests {xs ys : List Term} {frame frame' : Option Term}
    (hne : (Term.mkList (xs.drop ys.length) frame == Term.mkList (ys.drop xs.length) frame') = false)
    (hclash : (Term.mkList (xs.drop ys.length) frame).clashes
      (Term.mkList (ys.drop xs.length) frame') = false) :
    ((xs.take ys.length).map Term.size).sum + ((ys.take xs.length).map Term.size).sum +
        ((Term.mkList (xs.drop ys.length) frame).size +
          (Term.mkList (ys.drop xs.length) frame').size) <
      (Term.list xs frame).size + (Term.list ys frame').size := by
  have split (zs : List Term) (n : Nat) : ((zs.take n).map Term.size).sum +
      ((zs.drop n).map Term.size).sum = (zs.map Term.size).sum := by
    rw [← List.sum_append, ← List.map_append, List.take_append_drop]
  have hxs := split xs ys.length
  have hys := split ys xs.length
  have hlrest := Term.size_mkList (xs.drop ys.length) frame
  have hrrest := Term.size_mkList (ys.drop xs.length) frame'
  rw [Term.size_list, Term.size_list]
  -- the node of a list goes with the last of its elements
  have used (u : Term) : (Term.mkList [] (some u)).size ≤ Term.frameSize (some u) :=
    Term.size_mkList_nil u
  rcases frame_of_rests hne hclash with ⟨u, rfl, hnil⟩ | ⟨u, rfl, hnil⟩
  · have hu := used u
    rw [← hnil] at hu
    omega
  · have hu := used u
    rw [← hnil] at hu
    omega

/-- An equality that is kept adds its own size, one that got smaller adds less. -/
theorem light_of_cases {t u : Term} {n : Nat} {out φ : Formula} (hout : out.Light n)
    (h : (φ = out.addTerms t u ∧ Stuck mode t u) ∨ φ.Light (n + (t.size + u.size - 1))) :
    φ.Light (n + (t.size + u.size)) := by
  rcases h with ⟨rfl, _⟩ | hlight
  · exact Formula.light_addEquality hout ⟨t, u⟩
  · exact hlight.mono (by omega)

theorem Threaded.light {xs ys : List Term} {n : Nat} {out φ : Formula}
    (h : Threaded (fun t u out φ => ∀ n, Formula.Light n out →
      (φ = out.addTerms t u ∧ Stuck mode t u) ∨ φ.Light (n + (t.size + u.size - 1))) xs ys out φ)
    (hout : out.Light n) : φ.Light (n + (((xs.take ys.length).map Term.size).sum +
      ((ys.take xs.length).map Term.size).sum)) := by
  induction h generalizing n with
  | left ys out => exact hout.mono (Nat.le_add_right ..)
  | right xs out => exact hout.mono (Nat.le_add_right ..)
  | cons head _ ih =>
    refine (ih (light_of_cases hout (head n hout))).mono ?_
    simp only [List.length_cons, List.take_succ_cons, List.map_cons, List.sum_cons]
    omega

/-- The elements at common positions are no larger than the two lists without their own nodes. -/
theorem size_elements (xs ys : List Term) (frame frame' : Option Term) :
    ((xs.take ys.length).map Term.size).sum + ((ys.take xs.length).map Term.size).sum ≤
      (Term.list xs frame).size + (Term.list ys frame').size - 1 := by
  have htake (zs : List Term) (k : Nat) :
      ((zs.take k).map Term.size).sum ≤ (zs.map Term.size).sum := by
    conv_rhs => rw [← List.take_append_drop k zs, List.map_append, List.sum_append]
    exact Nat.le_add_right ..
  have hxs := htake xs ys.length
  have hys := htake ys xs.length
  rw [Term.size_list, Term.size_list]
  omega

theorem ways_light (mode : SimplifyMode) : Ways mode fun t u out φ => ∀ n, Formula.Light n out →
    (φ = out.addTerms t u ∧ Stuck mode t u) ∨ φ.Light (n + (t.size + u.size - 1)) where
  equal t u out _ n hout := Or.inr (hout.mono (Nat.le_add_right ..))
  stuck t u out hstuck n _ := Or.inl ⟨rfl, hstuck⟩
  apps f g xs ys s s' out φ _ hlen hargs n hout := by
    have hlight := hargs.light hout
    rw [← hlen, List.take_length, hlen, List.take_length] at hlight
    refine Or.inr (hlight.mono ?_)
    rw [Term.size_app, Term.size_app]
    omega
  elements xs ys frame frame' out elements helements _ n hout := by
    have hels := helements.light Formula.light_top
    have hsize := size_elements xs ys frame frame'
    exact Or.inr ((Formula.light_addFormula hout hels).mono (by omega))
  rests xs ys frame frame' out elements helements hne hclash n hout := by
    have hels := helements.light Formula.light_top
    have hrests := size_rests hne hclash
    have hjoined := Formula.light_addEquality hels
      ⟨.mkList (xs.drop ys.length) frame, .mkList (ys.drop xs.length) frame'⟩
    refine Or.inr ((Formula.light_addFormula hout hjoined).mono ?_)
    rw [Equality.size]
    dsimp only
    omega

/-- Taking an equality apart keeps it as it is, or makes it smaller. -/
theorem decompose_cases {t u : Term} {n : Nat} {out φ : Formula} (hout : out.Light n)
    (h : decompose mode t u out = .ok φ) :
    (φ = out.addTerms t u ∧ Stuck mode t u) ∨ φ.Light (n + (t.size + u.size - 1)) :=
  (ways_light mode).decompose h n hout

end Unifier

/-! ## Splitting -/

namespace Step

variable {voc : Vocabulary} {unifier : Unifier} {mode : SimplifyMode} {names : FreshNames}
  {e : Equality} {parts : List Equality} {ds : List Disjunction}

/-- Only taking two rigid terms apart splits an equality. -/
theorem unify_of_classify (h : classify voc unifier mode names e = .ok (.split parts ds)) :
    e.truth = .unknown ∧ e.isSimplifiable mode.patternFolding = true ∧
      unify unifier mode e = .ok (.split parts ds) := by
  have hterm (v : Variable) (t : Term) : bindTerm voc names v t e ≠ .ok (.split parts ds) := by
    unfold bindTerm Step.narrow
    intro hsplit
    repeat' split at hsplit
    all_goals simp at hsplit
  have hvars (x y : Variable) : bindVariables voc names x y e ≠ .split parts ds := by
    unfold bindVariables
    intro hsplit
    repeat' split at hsplit
    all_goals simp at hsplit
  unfold classify at h
  split at h
  · exact absurd (Except.ok.inj h) nofun
  · exact absurd h nofun
  · rename_i htruth
    split_ifs at h with hsorts hrigid
    · exact ⟨htruth, hrigid, h⟩
    · split at h
      · exact absurd (Except.ok.inj h) (hvars _ _)
      · exact absurd h (hterm _ _)
      · exact absurd h (hterm _ _)
      · exact absurd (Except.ok.inj h) nofun

/-- A variable is bound to a term of a sort below its own, if nothing is wrong with the sorts. -/
theorem classify_term {v : Variable} {t : Term} (he : e.Relates v t) (hvar : t.isVar = false)
    (hoccurs : v ∉ t.occurrences) (hsort : voc.lattice.isSubsortEq v.sort t.sort = true)
    {step : Step} (h : classify voc Unifier.structural mode names e = .ok step) :
    step = .bind v t := by
  -- which side is the variable is clear, since the term is none
  have only {x : Variable} {u : Term} (he' : e.Relates x u) : x = v ∧ u = t := by
    rcases he with rfl | rfl <;> rcases he' with heq | heq <;> obtain ⟨hl, hr⟩ := Equality.mk.inj heq
    · exact ⟨(Term.var.inj hl).symm, hr.symm⟩
    · exact absurd hvar (by rw [hr]; nofun)
    · exact absurd hvar (by rw [hl]; nofun)
    · exact ⟨(Term.var.inj hr).symm, hl.symm⟩
  have hrigid : e.isSimplifiable mode.patternFolding = false := by
    rcases he with rfl | rfl
    · rfl
    · exact Bool.and_false _
  have hlist := classified voc mode names e
  rw [h] at hlist
  cases hlist with
  | drop htruth =>
    have hsides : v ∈ t.occurrences := by
      have hsame := Term.occurrences_eq_of_beq ((Equality.truth_true_iff _).mp htruth)
      rcases he with rfl | rfl
      · exact hsame ▸ List.mem_singleton.mpr rfl
      · exact hsame.symm ▸ List.mem_singleton.mpr rfl
    exact absurd hsides hoccurs
  | returned s es hrigid' => exact absurd (hrigid.symm.trans hrigid') nofun
  | split s es ds => exact absurd (hrigid.symm.trans (unify_of_classify h).2.1) nofun
  | bind x u he' =>
    obtain ⟨rfl, rfl⟩ := only he'
    rfl
  | common x y s z names' he' =>
    obtain ⟨rfl, rfl⟩ := only (.inl he')
    cases hvar
  | incomparable x y he' =>
    obtain ⟨rfl, rfl⟩ := only (.inl he')
    cases hvar
  | narrow x f s vars sorts news names' he' _ _ hbelow =>
    obtain ⟨rfl, rfl⟩ := only he'
    exact absurd (hbelow.symm.trans hsort) nofun
  | unbound x u he' _ hbelow =>
    obtain ⟨rfl, rfl⟩ := only he'
    exact absurd (hbelow.symm.trans hsort) nofun
  | cyclic x u he' _ hmem =>
    obtain ⟨rfl, rfl⟩ := only he'
    exact absurd hmem hoccurs
  | flexible _ hlhs hrhs =>
    rcases he with rfl | rfl
    · cases hlhs
    · cases hrhs

/-- An open equality between rigid terms has no parts but itself. -/
theorem addTerms_of_rigid (htruth : e.truth = .unknown)
    (hrigid : e.isSimplifiable mode.patternFolding = true) :
    Formula.top.addTerms e.lhs e.rhs = .all .empty [e] [] := by
  have hsplits (t : Term) (ht : t.isRigid mode.patternFolding = true) (b : Bool) :
      Equality.splits t b = false := by
    cases t with
    | builtin op xs => exact absurd ht nofun
    | _ => rfl
  rw [Equality.isSimplifiable, Bool.and_eq_true] at hrigid
  have hparts : e.parts = [e] := by
    obtain ⟨lhs, rhs⟩ := e
    dsimp only [Equality.parts]
    split
    · rw [hsplits lhs hrigid.1, if_neg Bool.false_ne_true]
    · rw [hsplits rhs hrigid.2, if_neg Bool.false_ne_true]
    · rfl
  change e.parts.foldl Formula.addPart Formula.top = _
  rw [hparts, List.foldl_cons, List.foldl_nil, Formula.top, Formula.addPart, htruth]
  rfl

/-- The parts of an equality are together smaller than it, and there are no disjunctions. -/
theorem size_split (h : classify voc Unifier.structural mode names e = .ok (.split parts ds)) :
    ds = [] ∧ (parts.map Equality.size).sum < e.size := by
  obtain ⟨htruth, hrigid, hunify⟩ := unify_of_classify h
  unfold unify at hunify
  split at hunify
  · exact absurd hunify nofun
  · exact absurd hunify nofun
  · rename_i s es ds' hall
    dsimp only at hunify
    split_ifs at hunify with hreturned
    · exact absurd (Except.ok.inj hunify) nofun
    obtain ⟨rfl, rfl⟩ := Step.split.inj (Except.ok.inj hunify)
    have hpos : 2 ≤ e.size := Nat.add_le_add e.lhs.size_pos e.rhs.size_pos
    have hsize : e.size = e.lhs.size + e.rhs.size := rfl
    rcases Unifier.decompose_cases Formula.light_top hall with ⟨hkept, _⟩ | ⟨hs, hds, hes⟩
    · -- an equality that is given back as it is would have been kept
      rw [addTerms_of_rigid htruth hrigid, Formula.all.injEq] at hkept
      obtain ⟨rfl, rfl, rfl⟩ := hkept
      refine absurd ?_ hreturned
      simp [(Equality.beq_iff e e).mpr rfl]
    · refine ⟨hds, ?_⟩
      rw [Substitution.equalities, hs, List.map_nil, List.nil_append]
      omega

end Step

end Entail
