import Entail.Proofs.Agreement
import Entail.Proofs.Cells
import Entail.Proofs.Values

set_option autoImplicit false

/-! # Evaluating early

Without facts it makes no difference whether a term is evaluated before a substitution or only
after it. Units, absorbing arguments, double negations and conditionals with a known condition or
equal branches stay what they are under a substitution, and so do the lists that were flattened and
the terms that clash; least sorts are computed anew. Equal branches and equal sides are recognized
by name and kind of their symbols, so these have to determine the signatures. -/

namespace Entail

@[simp]
theorem Facts.decide_unknown (t : Term) : Facts.unknown.decide t = t := by
  unfold Facts.decide
  split <;> rfl

namespace Term

/-! ## Joining lists -/

@[simp]
theorem consFrame_closed (xs ys : List Term) :
    consFrame xs (.list ys none) = .list (xs ++ ys) none := by
  simp [consFrame]

@[simp]
theorem consFrame_framed (xs ys : List Term) (frame : Term) :
    consFrame xs (.list ys (some frame)) = consFrame (xs ++ ys) frame := by
  simp [consFrame]

theorem consFrame_nil_of_not_list {t : Term} (ht : t.isList = false) : consFrame [] t = t := by
  cases t with
  | list xs frame => simp [isList] at ht
  | _ => simp [consFrame]

theorem consFrame_nil {t : Term} (ht : t.FlatHead) : consFrame [] t = t := by
  cases t with
  | list xs frame =>
    cases frame with
    | none => simp
    | some u => simp [consFrame_of_not_list ht.1 ht.2]
  | _ => simp [consFrame]

theorem consFrame_consFrame (xs ys : List Term) (t : Term) :
    consFrame xs (consFrame ys t) = consFrame (xs ++ ys) t := by
  have frames (ys : List Term) {u : Term} (hu : u.isList = false) :
      consFrame xs (consFrame ys u) = consFrame (xs ++ ys) u := by
    by_cases hys : ys = []
    · rw [hys, consFrame_nil_of_not_list hu, List.append_nil]
    · rw [consFrame_of_not_list hys hu, consFrame_framed]
  induction t using Term.ind generalizing ys with
  | closed zs _ => simp
  | framed zs frame _ ih => simp [ih]
  | _ => exact frames ys rfl

/-- A list with elements stays one whatever its frame becomes. -/
theorem consFrame_eq_list {xs : List Term} (hne : xs ≠ []) (t : Term) :
    ∃ more frame, consFrame xs t = .list (xs ++ more) frame := by
  induction t using Term.ind generalizing xs with
  | closed ys _ => exact ⟨ys, none, by simp⟩
  | framed ys frame _ ih =>
    have hjoined : xs ++ ys ≠ [] := by simp [hne]
    obtain ⟨more, frame', h⟩ := ih hjoined
    exact ⟨ys ++ more, frame', by simp [h]⟩
  | _ => exact ⟨[], some _, by rw [consFrame_of_not_list hne rfl, List.append_nil]⟩

/-- What walks over lists and flattens them may as well walk over what was joined. -/
theorem map_consFrame {F : Term → Term} (hclosed : ∀ xs, F (.list xs none) = .list (xs.map F) none)
    (hframed : ∀ xs frame, F (.list xs (some frame)) = consFrame (xs.map F) (F frame))
    (hflat : ∀ t, (F t).FlatHead) (xs : List Term) (t : Term) :
    F (consFrame xs t) = consFrame (xs.map F) (F t) := by
  have frames (xs : List Term) {u : Term} (hu : u.isList = false) :
      F (consFrame xs u) = consFrame (xs.map F) (F u) := by
    by_cases hxs : xs = []
    · rw [hxs, consFrame_nil_of_not_list hu, List.map_nil, consFrame_nil (hflat u)]
    · rw [consFrame_of_not_list hxs hu, hframed]
  induction t using Term.ind generalizing xs with
  | closed ys _ => simp [hclosed]
  | framed ys frame _ ih => simp [hframed, consFrame_consFrame, ih]
  | _ => exact frames xs rfl

/-! ## Evaluation without facts -/

/-- A conditional, as far as its condition is known or its branches are the same. -/
def conditional (c t e : Term) : Term :=
  if c.isTrue then t else if c.isFalse then e else if t == e then t else .ite c t e

variable (voc : Vocabulary)

theorem evaluate_app (g : Symbol) (xs : List Term) (s : SortName) :
    (app g xs s).evaluate voc .unknown = voc.apply g (xs.map (evaluate voc .unknown)) := by
  simp [evaluate, evaluateAll_eq]

theorem evaluate_builtin (op : Builtin) (xs : List Term) :
    (builtin op xs).evaluate voc .unknown =
      reduceBuiltin op (xs.map (evaluate voc .unknown)) := by
  simp [evaluate, evaluateAll_eq]

theorem evaluate_closed (xs : List Term) :
    (list xs none).evaluate voc .unknown = .list (xs.map (evaluate voc .unknown)) none := by
  simp [evaluate, evaluateAll_eq]

theorem evaluate_framed (xs : List Term) (frame : Term) :
    (list xs (some frame)).evaluate voc .unknown =
      consFrame (xs.map (evaluate voc .unknown)) (frame.evaluate voc .unknown) := by
  simp [evaluate, evaluateAll_eq, mkList]

theorem evaluate_ite (c t e : Term) :
    (ite c t e).evaluate voc .unknown = conditional (c.evaluate voc .unknown)
      (t.evaluate voc .unknown) (e.evaluate voc .unknown) := by
  rw [evaluate, conditional]
  split
  · next hc => simp [hc, isTrue, asBool?]
  · next hc => simp [hc, isTrue, isFalse, asBool?]
  · next htrue hfalse =>
    have htrue : (c.evaluate voc .unknown).isTrue = false := by
      rw [← Bool.not_eq_true]
      exact fun h => htrue (isTrue_eq h)
    have hfalse : (c.evaluate voc .unknown).isFalse = false := by
      rw [← Bool.not_eq_true]
      exact fun h => hfalse (isFalse_eq h)
    simp [htrue, hfalse, mergeBranches]

theorem evaluate_consFrame (xs : List Term) (t : Term) :
    (consFrame xs t).evaluate voc .unknown =
      consFrame (xs.map (evaluate voc .unknown)) (t.evaluate voc .unknown) :=
  map_consFrame (evaluate_closed voc) (evaluate_framed voc)
    (fun t => (flat_evaluate voc .unknown t).head) xs t

/-! ## Rewriting without facts -/

variable (f : Variable → Option Term)

theorem rewrite_app (g : Symbol) (xs : List Term) (s : SortName) :
    (app g xs s).rewrite voc .unknown f = voc.apply g (xs.map (rewrite voc .unknown f)) := by
  rw [rewrite, substitute, evaluate_app, substituteAll_eq, List.map_map]
  rfl

theorem rewrite_builtin (op : Builtin) (xs : List Term) :
    (builtin op xs).rewrite voc .unknown f =
      reduceBuiltin op (xs.map (rewrite voc .unknown f)) := by
  rw [rewrite, substitute, evaluate_builtin, substituteAll_eq, List.map_map]
  rfl

theorem rewrite_closed (xs : List Term) :
    (list xs none).rewrite voc .unknown f = .list (xs.map (rewrite voc .unknown f)) none := by
  rw [rewrite, substitute, evaluate_closed, substituteAll_eq, List.map_map]
  rfl

theorem rewrite_framed (xs : List Term) (frame : Term) :
    (list xs (some frame)).rewrite voc .unknown f =
      consFrame (xs.map (rewrite voc .unknown f)) (frame.rewrite voc .unknown f) := by
  rw [rewrite, substitute, mkList, evaluate_consFrame, substituteAll_eq, List.map_map]
  rfl

theorem rewrite_ite (c t e : Term) :
    (ite c t e).rewrite voc .unknown f = conditional (c.rewrite voc .unknown f)
      (t.rewrite voc .unknown f) (e.rewrite voc .unknown f) := by
  rw [rewrite, substitute, evaluate_ite]
  rfl

theorem rewrite_consFrame (xs : List Term) (t : Term) :
    (consFrame xs t).rewrite voc .unknown f =
      consFrame (xs.map (rewrite voc .unknown f)) (t.rewrite voc .unknown f) :=
  map_consFrame (rewrite_closed voc f) (rewrite_framed voc f)
    (fun _ => (flat_evaluate voc .unknown _).head) xs t

/-- A flat list keeps its prefix and, if it is closed, its end. -/
theorem rewrite_list {xs : List Term} {frame : Option Term} (hflat : FlatHead (.list xs frame)) :
    ∃ more frame', (list xs frame).rewrite voc .unknown f =
        .list (xs.map (rewrite voc .unknown f) ++ more) frame' ∧
      (frame = none → more = [] ∧ frame' = none) := by
  cases frame with
  | none => exact ⟨[], none, by simp [rewrite_closed]⟩
  | some u =>
    have hne : xs.map (rewrite voc .unknown f) ≠ [] := by simpa using hflat.1
    obtain ⟨more, frame', h⟩ := consFrame_eq_list hne (u.rewrite voc .unknown f)
    exact ⟨more, frame', by rw [rewrite_framed, h], by simp⟩

/-! ## Clashes -/

variable {voc f}

theorem clashesSomewhere_append {xs ys : List Term} (h : clashesSomewhere xs ys = true)
    (more more' : List Term) : clashesSomewhere (xs ++ more) (ys ++ more') = true := by
  induction xs generalizing ys with
  | nil => simp [clashesSomewhere] at h
  | cons x xs ih =>
    cases ys with
    | nil => simp [clashesSomewhere] at h
    | cons y ys =>
      simp only [clashesSomewhere, Bool.or_eq_true, List.cons_append] at h ⊢
      exact h.imp_right ih

theorem clashesSomewhere_map {F : Term → Term} {xs ys : List Term}
    (hF : ∀ x ∈ xs, ∀ y ∈ ys, x.clashes y = true → (F x).clashes (F y) = true)
    (h : clashesSomewhere xs ys = true) : clashesSomewhere (xs.map F) (ys.map F) = true := by
  obtain ⟨p, hp, hclash⟩ := (clashesSomewhere_iff xs ys).mp h
  obtain ⟨hx, hy⟩ := List.of_mem_zip hp
  refine (clashesSomewhere_iff _ _).mpr ⟨(F p.1, F p.2), ?_, hF _ hx _ hy hclash⟩
  rw [List.zip_map]
  exact List.mem_map_of_mem hp

theorem rewrite_token {t : Term} (ht : t.isToken = true) : t.rewrite voc .unknown f = t := by
  cases t <;> simp [isToken] at ht <;> rfl

theorem freeTag_rewrite {t : Term} (hflat : t.FlatHead) {n : Nat} (h : t.freeTag = some n) :
    (t.rewrite voc .unknown f).freeTag = some n := by
  cases t with
  | app g xs s => rwa [rewrite_app]
  | list xs frame =>
    obtain ⟨more, frame', hlist, _⟩ := rewrite_list voc f hflat
    rwa [hlist]
  | bool b => exact h
  | int n => exact h
  | str s => exact h
  | _ => simp [freeTag] at h

/-- Heads of different kinds clash. -/
theorem clashes_of_freeTag {t u : Term} {m n : Nat} (ht : t.freeTag = some m)
    (hu : u.freeTag = some n) (hne : m ≠ n) : t.clashes u = true := by
  cases t <;> cases u <;> simp_all [freeTag, clashes, isToken, bne] <;> rfl

theorem clashes_rewrite_mixed {t u : Term} (ht : t.FlatHead) (hu : u.FlatHead)
    (h : t.clashes u = true) (hmixed : Mixed t u) :
    (t.rewrite voc .unknown f).clashes (u.rewrite voc .unknown f) = true := by
  rcases clashes_mixed h hmixed with ⟨httoken, hutoken, _⟩ | ⟨m, n, hm, hn, hne⟩
  · rwa [rewrite_token httoken, rewrite_token hutoken]
  · exact clashes_of_freeTag (freeTag_rewrite ht hm) (freeTag_rewrite hu hn) hne

theorem clashes_rewrite_lists {xs ys : List Term} {frame frame' : Option Term}
    (ht : FlatHead (.list xs frame)) (hu : FlatHead (.list ys frame'))
    (hmembers : ∀ x ∈ xs, ∀ y ∈ ys, x.clashes y = true →
      (x.rewrite voc .unknown f).clashes (y.rewrite voc .unknown f) = true)
    (h : (list xs frame).clashes (.list ys frame') = true) :
    ((list xs frame).rewrite voc .unknown f).clashes
      ((list ys frame').rewrite voc .unknown f) = true := by
  obtain ⟨more, rest, hxs, hclosed⟩ := rewrite_list voc f ht
  obtain ⟨more', rest', hys, hclosed'⟩ := rewrite_list voc f hu
  simp only [clashes, Bool.or_eq_true, shorterIsClosed, Bool.and_eq_true, decide_eq_true_eq,
    Option.isNone_iff_eq_none] at h
  rw [hxs, hys]
  simp only [clashes, Bool.or_eq_true, shorterIsClosed, Bool.and_eq_true, decide_eq_true_eq,
    Option.isNone_iff_eq_none, List.length_append, List.length_map]
  rcases h with (⟨hlt, hnone⟩ | ⟨hlt, hnone⟩) | h
  · obtain ⟨rfl, rfl⟩ := hclosed hnone
    exact Or.inl (Or.inl ⟨by simp; omega, rfl⟩)
  · obtain ⟨rfl, rfl⟩ := hclosed' hnone
    exact Or.inl (Or.inr ⟨by simp; omega, rfl⟩)
  · exact Or.inr (clashesSomewhere_append (clashesSomewhere_map hmembers h) more more')

/-- Terms that clash do so after any substitution. -/
theorem clashes_rewrite {t u : Term} (ht : t.Flat) (hu : u.Flat) (h : t.clashes u = true) :
    (t.rewrite voc .unknown f).clashes (u.rewrite voc .unknown f) = true := by
  induction t using Term.ind generalizing u with
  | app g xs s ih =>
    cases u with
    | app g' ys s' =>
      have hxs := ((all_app_iff g xs s).mp ht).2
      have hys := ((all_app_iff g' ys s').mp hu).2
      simp only [rewrite_app, Vocabulary.apply, clashes, Bool.and_eq_true, Bool.or_eq_true,
        List.length_map] at h ⊢
      refine ⟨h.1, h.2.imp_right fun hsome => ?_⟩
      exact clashesSomewhere_map (fun x hx y hy => ih x hx (hxs x hx) (hys y hy)) hsome
    | _ => exact clashes_rewrite_mixed ht.head hu.head h (by simp [Mixed, rank])
  | closed xs ih =>
    cases u with
    | list ys frame =>
      have hxs := ((all_list_iff xs none).mp ht).2.1
      have hys := ((all_list_iff ys frame).mp hu).2.1
      exact clashes_rewrite_lists ht.head hu.head
        (fun x hx y hy => ih x hx (hxs x hx) (hys y hy)) h
    | _ => exact clashes_rewrite_mixed ht.head hu.head h (by simp [Mixed, rank])
  | framed xs frame ih _ =>
    cases u with
    | list ys frame' =>
      have hxs := ((all_list_iff xs (some frame)).mp ht).2.1
      have hys := ((all_list_iff ys frame').mp hu).2.1
      exact clashes_rewrite_lists ht.head hu.head
        (fun x hx y hy => ih x hx (hxs x hx) (hys y hy)) h
    | _ => exact clashes_rewrite_mixed ht.head hu.head h (by simp [Mixed, rank])
  | _ => exact clashes_rewrite_mixed ht.head hu.head h (by simp [Mixed, rank])

/-- Terms that compare equal do not clash, as they have the same values. -/
theorem beq_eq_false_of_clashes {t u : Term} (ht : t.Flat) (hu : u.Flat)
    (h : t.clashes u = true) : (t == u) = false := by
  rw [← Bool.not_eq_true]
  intro heq
  let A : Algebra Value := Value.algebra (fun _ _ => .nil) fun _ _ => .nil
  exact clashes_sound A .atom ht hu h (eval_eq_of_beq A .atom heq)

/-! ## Operations -/

@[simp]
theorem rewrite_bool (b : Bool) : (bool b).rewrite voc .unknown f = .bool b := rfl

@[simp]
theorem isTrue_bool (b : Bool) : (bool b).isTrue = b := by cases b <;> rfl

@[simp]
theorem isFalse_bool (b : Bool) : (bool b).isFalse = !b := by cases b <;> rfl

@[simp]
theorem conj_true_left (x : Term) : conj (.bool true) x = x := by simp [conj]

@[simp]
theorem conj_true_right (x : Term) : conj x (.bool true) = x := by
  by_cases hx : x.isTrue = true
  · simp [conj, isTrue_eq hx]
  · simp [conj, hx]

@[simp]
theorem conj_false_left (x : Term) : conj (.bool false) x = .bool false := by
  by_cases hx : x.isTrue = true <;> simp [conj, hx]

@[simp]
theorem conj_false_right (x : Term) : conj x (.bool false) = .bool false := by
  by_cases hx : x.isTrue = true <;> simp [conj, hx]

@[simp]
theorem disj_false_left (x : Term) : disj (.bool false) x = x := by simp [disj]

@[simp]
theorem disj_false_right (x : Term) : disj x (.bool false) = x := by
  by_cases hx : x.isFalse = true
  · simp [disj, isFalse_eq hx]
  · simp [disj, hx]

@[simp]
theorem disj_true_left (x : Term) : disj (.bool true) x = .bool true := by
  by_cases hx : x.isFalse = true <;> simp [disj, hx]

@[simp]
theorem disj_true_right (x : Term) : disj x (.bool true) = .bool true := by
  by_cases hx : x.isFalse = true <;> simp [disj, hx]

theorem rewrite_conj (x y : Term) : (conj x y).rewrite voc .unknown f =
    conj (x.rewrite voc .unknown f) (y.rewrite voc .unknown f) := by
  rw [conj]
  split_ifs with hx hy hfalse
  · simp [isTrue_eq hx]
  · simp [isTrue_eq hy]
  · rcases Bool.or_eq_true _ _ ▸ hfalse with h | h <;> simp [isFalse_eq h]
  · exact rewrite_builtin voc f .and [x, y]

theorem rewrite_disj (x y : Term) : (disj x y).rewrite voc .unknown f =
    disj (x.rewrite voc .unknown f) (y.rewrite voc .unknown f) := by
  rw [disj]
  split_ifs with hx hy htrue
  · simp [isFalse_eq hx]
  · simp [isFalse_eq hy]
  · rcases Bool.or_eq_true _ _ ▸ htrue with h | h <;> simp [isTrue_eq h]
  · exact rewrite_builtin voc f .or [x, y]

/-- Only of a negation another one is lost. -/
theorem neg_neg_of_ne {x : Term} (h : ∀ y, x ≠ .builtin .not [y]) : neg (neg x) = x := by
  rw [neg.eq_def x]
  split
  · simp [neg]
  · next y => exact absurd rfl (h y)
  · rfl

theorem neg_neg_reduceBuiltin (op : Builtin) {xs : List Term} (hxs : ∀ x ∈ xs, neg (neg x) = x) :
    neg (neg (reduceBuiltin op xs)) = reduceBuiltin op xs := by
  by_cases hnot : ∃ x, op = .not ∧ xs = [x]
  · obtain ⟨x, rfl, rfl⟩ := hnot
    exact congrArg neg (hxs x (List.mem_singleton.mpr rfl))
  · have hreduces := reducesTo_reduceBuiltin op xs
    generalize reduceBuiltin op xs = t at hreduces ⊢
    cases hreduces with
    | token ht _ =>
      refine neg_neg_of_ne ?_
      rintro y rfl
      cases ht
    | argument _ hx => exact hxs t hx
    | negated hop h => exact absurd ⟨_, hop, h⟩ hnot
    | stuck h =>
      subst h
      exact neg_neg_of_ne fun y h => hnot ⟨y, Term.builtin.inj h⟩

/-- Negation is undone by negation, of what evaluation gives. -/
theorem neg_neg_evaluate (voc : Vocabulary) (t : Term) :
    neg (neg (t.evaluate voc .unknown)) = t.evaluate voc .unknown := by
  induction t using Term.ind with
  | var v => simp [evaluate, neg]
  | bool b => simp [evaluate, neg]
  | int n => rfl
  | str s => rfl
  | app g xs s ih =>
    rw [evaluate_app]
    exact neg_neg_of_ne (by simp [Vocabulary.apply])
  | builtin op xs ih =>
    rw [evaluate_builtin]
    exact neg_neg_reduceBuiltin op (List.forall_mem_map.mpr ih)
  | closed xs ih =>
    rw [evaluate_closed]
    exact neg_neg_of_ne (by simp)
  | framed xs frame ih ihframe =>
    rw [evaluate_framed]
    by_cases hxs : xs = []
    · rwa [hxs, List.map_nil, consFrame_nil (flat_evaluate voc .unknown frame).head]
    · have hne : xs.map (evaluate voc .unknown) ≠ [] := by simpa using hxs
      obtain ⟨more, frame', h⟩ := consFrame_eq_list hne (frame.evaluate voc .unknown)
      rw [h]
      exact neg_neg_of_ne (by simp)
  | ite c t e ihc iht ihe =>
    rw [evaluate_ite, conditional]
    split_ifs
    · exact iht
    · exact ihe
    · exact iht
    · exact neg_neg_of_ne (by simp)

theorem rewrite_neg (x : Term) :
    (neg x).rewrite voc .unknown f = neg (x.rewrite voc .unknown f) := by
  unfold neg
  split
  · rfl
  · next y =>
    -- the negation that was dropped early is dropped again
    have hy : neg (neg (y.rewrite voc .unknown f)) = y.rewrite voc .unknown f :=
      neg_neg_evaluate voc _
    rw [rewrite_builtin]
    exact hy.symm
  · exact rewrite_builtin voc f .not [x]

variable {sigs : Signatures}

theorem rewrite_equal {x y : Term} (hx : x.Flat) (hy : y.Flat) (hx' : x.Agreed sigs)
    (hy' : y.Agreed sigs) : (equal x y).rewrite voc .unknown f =
      equal (x.rewrite voc .unknown f) (y.rewrite voc .unknown f) := by
  rw [equal.eq_def x y]
  split_ifs with heq hclash
  · obtain rfl := eq_of_bare hx' hy' ((beq_iff x y).mp heq)
    simp [equal]
  · have hclash' : (x.rewrite voc .unknown f).clashes (y.rewrite voc .unknown f) = true :=
      clashes_rewrite hx hy hclash
    have hne : (x.rewrite voc .unknown f == y.rewrite voc .unknown f) = false :=
      beq_eq_false_of_clashes (flat_evaluate voc .unknown _) (flat_evaluate voc .unknown _) hclash'
    simp [equal, hne, hclash']
  · exact rewrite_builtin voc f .eq [x, y]

/-- An operation may be applied before a substitution. -/
theorem rewrite_reduceBuiltin (op : Builtin) {xs : List Term} (hflat : ∀ x ∈ xs, x.Flat)
    (hagreed : ∀ x ∈ xs, x.Agreed sigs) : (reduceBuiltin op xs).rewrite voc .unknown f =
      reduceBuiltin op (xs.map (rewrite voc .unknown f)) := by
  rw [reduceBuiltin.eq_def op xs]
  split
  · exact rewrite_conj _ _
  · exact rewrite_disj _ _
  · exact rewrite_neg _
  · exact rewrite_equal (hflat _ (by simp)) (hflat _ (by simp)) (hagreed _ (by simp))
      (hagreed _ (by simp))
  · rfl
  · rfl
  · rfl
  · rfl
  · exact rewrite_builtin voc f _ _

theorem rewrite_conditional (c : Term) {t e : Term} (ht : t.Agreed sigs) (he : e.Agreed sigs) :
    (conditional c t e).rewrite voc .unknown f = conditional (c.rewrite voc .unknown f)
      (t.rewrite voc .unknown f) (e.rewrite voc .unknown f) := by
  rw [conditional.eq_def c t e]
  split_ifs with htrue hfalse heq
  · simp [isTrue_eq htrue, conditional]
  · simp [isFalse_eq hfalse, conditional]
  · obtain rfl := eq_of_bare ht he ((beq_iff t e).mp heq)
    simp [conditional]
  · exact rewrite_ite voc f c t e

/-- A term may be evaluated before a substitution. -/
theorem rewrite_evaluate {t : Term} (ht : t.Agreed sigs) :
    (t.evaluate voc .unknown).rewrite voc .unknown f = t.rewrite voc .unknown f := by
  induction t using Term.ind with
  | var v => simp [evaluate]
  | app g xs s ih =>
    have hxs := ((all_app_iff g xs s).mp ht).2
    rw [evaluate_app, Vocabulary.apply, rewrite_app, rewrite_app,
      map_map_congr fun x hx => ih x hx (hxs x hx)]
  | builtin op xs ih =>
    have hxs := ((all_builtin_iff op xs).mp ht).2
    rw [evaluate_builtin, rewrite_builtin, rewrite_reduceBuiltin,
      map_map_congr fun x hx => ih x hx (hxs x hx)]
    · exact List.forall_mem_map.mpr fun x _ => flat_evaluate voc .unknown x
    · exact List.forall_mem_map.mpr fun x hx => within_evaluate voc .unknown (hxs x hx)
  | closed xs ih =>
    have hxs := ((all_list_iff xs none).mp ht).2.1
    rw [evaluate_closed, rewrite_closed, rewrite_closed,
      map_map_congr fun x hx => ih x hx (hxs x hx)]
  | framed xs frame ih ihframe =>
    obtain ⟨_, hxs, hframe⟩ := (all_list_iff xs (some frame)).mp ht
    rw [evaluate_framed, rewrite_consFrame, rewrite_framed, ihframe (hframe frame rfl),
      map_map_congr fun x hx => ih x hx (hxs x hx)]
  | ite c t e ihc iht ihe =>
    obtain ⟨_, hc, ht, he⟩ := (all_ite_iff c t e).mp ht
    rw [evaluate_ite, rewrite_conditional _ (within_evaluate voc .unknown ht)
      (within_evaluate voc .unknown he), rewrite_ite, ihc hc, iht ht, ihe he]
  | _ => rfl

/-- Evaluation is rewriting with nothing to substitute. -/
theorem rewrite_nothing (t : Term) :
    t.rewrite voc .unknown (fun _ => none) = t.evaluate voc .unknown := by
  induction t using Term.ind with
  | app g xs s ih => rw [rewrite_app, evaluate_app, List.map_congr_left ih]
  | builtin op xs ih => rw [rewrite_builtin, evaluate_builtin, List.map_congr_left ih]
  | closed xs ih => rw [rewrite_closed, evaluate_closed, List.map_congr_left ih]
  | framed xs frame ih ihframe =>
    rw [rewrite_framed, evaluate_framed, List.map_congr_left ih, ihframe]
  | ite c t e ihc iht ihe => rw [rewrite_ite, evaluate_ite, ihc, iht, ihe]
  | _ => rfl

theorem evaluate_evaluate {t : Term} (ht : t.Agreed sigs) :
    (t.evaluate voc .unknown).evaluate voc .unknown = t.evaluate voc .unknown := by
  rw [← rewrite_nothing (t.evaluate voc .unknown), rewrite_evaluate ht, rewrite_nothing]

/-- Two substitutions in sequence are a third one, if they are for each variable. -/
theorem rewrite_substitute {f g h : Variable → Option Term}
    (hvar : ∀ v, ((f v).getD (.var v)).rewrite voc .unknown g =
      ((h v).getD (.var v)).evaluate voc .unknown) (t : Term) :
    (t.substitute f).rewrite voc .unknown g = t.rewrite voc .unknown h := by
  induction t using Term.ind with
  | var v => exact hvar v
  | app k xs s ih =>
    rw [substitute, substituteAll_eq, rewrite_app, rewrite_app, map_map_congr ih]
  | builtin op xs ih =>
    rw [substitute, substituteAll_eq, rewrite_builtin, rewrite_builtin, map_map_congr ih]
  | closed xs ih =>
    rw [substitute, substituteAll_eq, rewrite_closed, rewrite_closed, map_map_congr ih]
  | framed xs frame ih ihframe =>
    rw [substitute, substituteAll_eq, mkList, rewrite_consFrame, rewrite_framed, ihframe,
      map_map_congr ih]
  | ite c t e ihc iht ihe => rw [substitute, rewrite_ite, rewrite_ite, ihc, iht, ihe]
  | _ => rfl

/-- **Evaluating early is not seen in the end**: whatever is substituted, a term gives the same
    result if it was evaluated before. Nothing is left to evaluate a second time, and lists come out
    flat even where they were not. -/
theorem rewrite_of_evaluated (voc : Vocabulary) (f : Variable → Option Term) (t : Term)
    (ht : t.Agreed sigs) :
    (t.evaluate voc .unknown).rewrite voc .unknown f = t.rewrite voc .unknown f ∧
    (t.evaluate voc .unknown).evaluate voc .unknown = t.evaluate voc .unknown ∧
    (t.evaluate voc .unknown).Flat :=
  ⟨rewrite_evaluate ht, evaluate_evaluate ht, flat_evaluate voc .unknown t⟩

end Term

namespace Early

def x : Variable := ⟨"X", .k⟩

def y : Variable := ⟨"Y", .int⟩

def b : Variable := ⟨"B", .bool⟩

def frame : Variable := ⟨"F", .list⟩

/-- `f` gives an integer for an integer, and something of sort `S` for anything else. -/
def f : Symbol := ⟨"f", .constructor, [⟨[.int], .int⟩, ⟨[.k], ⟨"S"⟩⟩]⟩

def vocabulary : Vocabulary := Vocabulary.initial.addSubsort ⟨"S"⟩ .int

/-- `#if B #then f(X) #else f(X) #fi`, `notBool notBool B` and `X ==K f(Y)` before `F`; the list is
    the frame of an empty prefix, and its frame is a list. -/
def term : Term :=
  .list [] (some (.list [.ite (.var b) (.app f [.var x] ⟨"S"⟩) (.app f [.var x] ⟨"S"⟩)]
    (some (.list [.builtin .not [.builtin .not [.var b]],
      .builtin .eq [.var x, .app f [.var y] .int]] (some (.var frame))))))

def evaluated : Term :=
  .list [.app f [.var x] ⟨"S"⟩, .var b, .builtin .eq [.var x, .app f [.var y] .int]]
    (some (.var frame))

/-- `X` is bound to `1`, `B` to `notBool (Y <Int 2)`, and `F` to the list of `Y` only. -/
def bindings (v : Variable) : Option Term :=
  [(x, .int 1), (b, .builtin .not [.builtin .lt [.var y, .int 2]]),
    (frame, .list [.var y] none)].lookup v

/-- The sort of `f(1)` is lower than that of `f(X)`, and `1` clashes with `f(Y)`. -/
theorem rewrite_of_evaluated_term :
    term.evaluate vocabulary .unknown = evaluated ∧
    evaluated.rewrite vocabulary .unknown bindings =
      .list [.app f [.int 1] .int, .builtin .not [.builtin .lt [.var y, .int 2]], .bool false,
        .var y] none ∧
    evaluated.evaluate vocabulary .unknown = evaluated ∧ evaluated.Flat := by
  have hagreed : term.Agreed fun _ _ => f.signatures := by
    simp [term, Term.Agreed, Term.All, Term.AllIn, Term.WithinHead, Symbol.Agrees]
  have hevaluate : term.evaluate vocabulary .unknown = evaluated := by cbv
  have hresult := Term.rewrite_of_evaluated vocabulary bindings term hagreed
  rw [hevaluate] at hresult
  obtain ⟨hrewrite, hagain, hflat⟩ := hresult
  refine ⟨hevaluate, ?_, hagain, hflat⟩
  rw [hrewrite]
  cbv

end Early

end Entail
