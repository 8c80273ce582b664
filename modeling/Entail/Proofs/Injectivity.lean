import Entail.Proofs.Adding
import Entail.Proofs.Evaluation
import Entail.Proofs.Values

set_option autoImplicit false

/-! # Injective symbols

Where symbols are injective, an equation between two applications of one of them comes down to the
equations of the arguments, and these may come down to further ones. The equations wait on a stack:
the one on top is either replaced by what it comes down to or added to the formula, so every step
leaves less on the stack. No step changes what is stated altogether, also when an addition refutes
the formula while others still wait. -/

namespace Entail

variable {V : Type}

/-- A symbol with one of these names, applied to equally many values, gives one value only if it is
    applied to the same ones. -/
def Algebra.Separates (A : Algebra V) (names : List String) : Prop :=
  ∀ f : Symbol, f.name ∈ names → ∀ vs ws : List V, vs.length = ws.length →
    A.apply f vs = A.apply f ws → vs = ws

variable {names : List String}

/-! ## One equation -/

namespace Equality

/-- The equations of the arguments, if both sides apply one of the named symbols to equally many
    arguments. -/
def matched? (names : List String) (e : Equality) : Option (List Equality) :=
  match e.lhs, e.rhs with
  | .app f xs _, .app g ys _ =>
    if f.same g && xs.length == ys.length && names.contains f.name then
      some ((xs.zip ys).map fun p => ⟨p.1, p.2⟩)
    else none
  | _, _ => none

variable {e : Equality} {qs : List Equality}

theorem matched_cases (h : e.matched? names = some qs) :
    ∃ f g xs ys s s', e = ⟨.app f xs s, .app g ys s'⟩ ∧ f.same g = true ∧
      xs.length = ys.length ∧ f.name ∈ names ∧ qs = (xs.zip ys).map fun p => ⟨p.1, p.2⟩ := by
  obtain ⟨lhs, rhs⟩ := e
  unfold matched? at h
  split at h
  · rename_i f xs s g ys s' hlhs hrhs
    obtain rfl : lhs = .app f xs s := hlhs
    obtain rfl : rhs = .app g ys s' := hrhs
    split_ifs at h with hmatch
    obtain rfl := Option.some.inj h
    simp only [Bool.and_eq_true, beq_iff_eq, List.contains_iff_mem] at hmatch
    exact ⟨f, g, xs, ys, s, s', rfl, hmatch.1.1, hmatch.1.2, hmatch.2, rfl⟩
  · cases h

theorem matched_app {f g : Symbol} {xs ys : List Term} {s s' : SortName} (hsame : f.same g = true)
    (hlen : xs.length = ys.length) (hname : f.name ∈ names) :
    matched? names ⟨.app f xs s, .app g ys s'⟩ = some ((xs.zip ys).map fun p => ⟨p.1, p.2⟩) := by
  simp [matched?, hsame, hlen, hname]

/-- No matched applications have a truth value on the right. -/
theorem matched_stated (t : Term) (b : Bool) : matched? names ⟨t, .bool b⟩ = none := by
  cases t <;> rfl

/-- Where the symbols are injective, the equations of the arguments say the same. -/
theorem holds_matched_iff {A : Algebra V} {ρ : Variable → V} (hA : A.Separates names)
    (h : e.matched? names = some qs) : (∀ q ∈ qs, q.Holds A ρ) ↔ e.Holds A ρ := by
  obtain ⟨f, g, xs, ys, s, s', rfl, hsame, hlen, hname, rfl⟩ := matched_cases h
  obtain ⟨hnames, hkinds⟩ := (Symbol.same_iff f g).mp hsame
  have happly (vs : List V) : A.apply g vs = A.apply f vs := by
    rw [Algebra.apply, Algebra.apply, hnames, hkinds]
  have hargs := map_eq_map_iff_zip (Term.eval A ρ) xs ys
  simp only [List.forall_mem_map, Equality.Holds, Term.eval_app, happly]
  constructor
  · intro hqs
    rw [hargs.mpr ⟨hlen, hqs⟩]
  · intro heq
    refine (hargs.mp (hA f hname _ _ ?_ heq)).2
    rw [List.length_map, List.length_map, hlen]

theorem all_matched {p : Term → Prop} (he : e.All p) (h : e.matched? names = some qs) :
    ∀ q ∈ qs, q.All p := by
  obtain ⟨f, g, xs, ys, s, s', rfl, -, -, -, rfl⟩ := matched_cases h
  have hxs := ((Term.all_app_iff f xs s).mp he.1).2
  have hys := ((Term.all_app_iff g ys s').mp he.2).2
  refine List.forall_mem_map.mpr fun pair hpair => ?_
  exact ⟨hxs _ (List.of_mem_zip hpair).1, hys _ (List.of_mem_zip hpair).2⟩

theorem sum_size_zip (xs ys : List Term) :
    ((xs.zip ys).map fun p => Equality.size ⟨p.1, p.2⟩).sum ≤
      Term.sizeAll xs + Term.sizeAll ys := by
  induction xs generalizing ys with
  | nil => simp
  | cons x xs ih =>
    cases ys with
    | nil => simp
    | cons y ys =>
      have hrest := ih ys
      simp only [List.zip_cons_cons, List.map_cons, List.sum_cons, size, Term.sizeAll] at hrest ⊢
      omega

theorem sum_size_matched (h : e.matched? names = some qs) : (qs.map size).sum < e.size := by
  obtain ⟨f, g, xs, ys, s, s', rfl, -, -, -, rfl⟩ := matched_cases h
  have hargs := sum_size_zip xs ys
  rw [List.map_map]
  simp only [Function.comp_def, size, Term.size] at hargs ⊢
  omega

end Equality

namespace Formula

/-- Equations resolved one after the other, the last one first. -/
theorem addResolvedAll_eq (names : List String) (xs ys : List Term) (φ : Formula) :
    addResolvedAll names xs ys φ =
      ((xs.zip ys).map fun p => Equality.mk p.1 p.2).foldr
        (fun q φ => addResolved names q.lhs q.rhs φ) φ := by
  induction xs generalizing ys with
  | nil => rfl
  | cons x xs ih =>
    cases ys with
    | nil => rfl
    | cons y ys => rw [addResolvedAll, ih, List.zip_cons_cons, List.map_cons, List.foldr_cons]

theorem addResolved_eq (names : List String) (e : Equality) (φ : Formula) :
    addResolved names e.lhs e.rhs φ = match e.matched? names with
      | some qs => qs.foldr (fun q φ => addResolved names q.lhs q.rhs φ) φ
      | none => φ.addEquality e := by
  obtain ⟨lhs, rhs⟩ := e
  cases lhs with
  | app f xs s =>
    cases rhs with
    | app g ys s' =>
      rw [addResolved, addResolvedAll_eq]
      dsimp only [Equality.matched?]
      split <;> rfl
    | _ => rfl
  | _ => rfl

/-- What is added states nothing of two matched applications. -/
theorem matched_addEquality {φ : Formula} {e q : Equality} (he : e.matched? names = none)
    (hφ : ∀ q ∈ φ.equalities, q.matched? names = none) (hq : q ∈ (φ.addEquality e).equalities) :
    q.matched? names = none := by
  rcases mem_addEquality hq with hq | hq
  · exact hφ q hq
  · rcases e.parts_cases with hparts | ⟨t, b, hparts⟩
    · rw [hparts, List.mem_singleton] at hq
      rw [hq, he]
    · rw [hparts] at hq
      obtain ⟨u, c, rfl, -⟩ := Equality.splits_of_mem_literals q hq
      exact Equality.matched_stated u c

end Formula

/-! ## The stack -/

/-- The equations on a stack, the topmost one first, and the formula that is built. -/
structure Resolving where
  waiting : List Equality
  formula : Formula

namespace Resolving

/-- Take the topmost equation: its matched arguments are put on the stack, the last ones on top, and
    any other equation is added. -/
def next? (names : List String) (r : Resolving) : Option Resolving :=
  match r.waiting with
  | [] => none
  | e :: rest =>
    match e.matched? names with
    | some qs => some ⟨qs.reverse ++ rest, r.formula⟩
    | none => some ⟨rest, r.formula.addEquality e⟩

/-- All equalities wait, the last one on top. In a false formula nothing waits. -/
def start : Formula → Resolving
  | .falsified w => ⟨[], .falsified w⟩
  | .all s es ds => ⟨es.reverse, .all s [] ds⟩

/-- One step. -/
def Leads (names : List String) (r r' : Resolving) : Prop := r.next? names = some r'

variable {r r' : Resolving}

theorem leads_cases (h : Leads names r r') :
    ∃ e rest, r.waiting = e :: rest ∧
      ((∃ qs, e.matched? names = some qs ∧ r' = ⟨qs.reverse ++ rest, r.formula⟩) ∨
        (e.matched? names = none ∧ r' = ⟨rest, r.formula.addEquality e⟩)) := by
  unfold Leads next? at h
  split at h
  · cases h
  · rename_i e rest hwaiting
    refine ⟨e, rest, hwaiting, ?_⟩
    split at h
    · rename_i qs hqs
      exact .inl ⟨qs, hqs, (Option.some.inj h).symm⟩
    · rename_i hnone
      exact .inr ⟨hnone, (Option.some.inj h).symm⟩

/-- As long as an equation waits there is a next step. -/
theorem exists_leads (names : List String) {e : Equality} {rest : List Equality}
    (h : r.waiting = e :: rest) : ∃ r', Leads names r r' := by
  unfold Leads next?
  rw [h]
  dsimp only
  split
  · exact ⟨_, rfl⟩
  · exact ⟨_, rfl⟩

/-! ### The end -/

/-- The number of nodes on the stack. -/
def size (r : Resolving) : Nat := (r.waiting.map Equality.size).sum

theorem Leads.size_lt (h : Leads names r r') : r'.size < r.size := by
  obtain ⟨e, rest, hwaiting, ⟨qs, hqs, rfl⟩ | ⟨-, rfl⟩⟩ := leads_cases h
  · have hlt := Equality.sum_size_matched hqs
    rw [size, size, hwaiting, List.map_append, List.sum_append, List.map_reverse,
      List.sum_reverse, List.map_cons, List.sum_cons]
    omega
  · have hpos := e.lhs.size_pos
    rw [size, size, hwaiting, List.map_cons, List.sum_cons, Equality.size]
    dsimp only
    omega

/-- Every run ends. -/
theorem wellFounded_leads (names : List String) :
    WellFounded fun r' r : Resolving => Leads names r r' :=
  Subrelation.wf Leads.size_lt (measure size).wf

/-- The formula with all waiting equations resolved. -/
def result (names : List String) (r : Resolving) : Formula :=
  r.waiting.foldl (fun φ e => Formula.addResolved names e.lhs e.rhs φ) r.formula

theorem Leads.result_eq (h : Leads names r r') : r'.result names = r.result names := by
  obtain ⟨e, rest, hwaiting, ⟨qs, hqs, rfl⟩ | ⟨hnone, rfl⟩⟩ := leads_cases h
  · rw [result, result, hwaiting, List.foldl_append, List.foldl_reverse, List.foldl_cons,
      Formula.addResolved_eq, hqs]
  · rw [result, result, hwaiting, List.foldl_cons, Formula.addResolved_eq, hnone]

theorem reaches_result (names : List String) (r : Resolving) :
    Relation.ReflTransGen (Leads names) r ⟨[], r.result names⟩ := by
  induction r using (wellFounded_leads names).induction with
  | _ r ih =>
    cases hwaiting : r.waiting with
    | nil =>
      have hend : r = ⟨[], r.result names⟩ := by
        obtain ⟨waiting, formula⟩ := r
        obtain rfl : waiting = [] := hwaiting
        rfl
      rw [← hend]
    | cons e rest =>
      obtain ⟨r', hstep⟩ := exists_leads names hwaiting
      have hrest := ih r' hstep
      rw [hstep.result_eq] at hrest
      exact Relation.ReflTransGen.head hstep hrest

theorem result_start (names : List String) (φ : Formula) :
    (start φ).result names = φ.resolve names := by
  cases φ with
  | falsified w => rfl
  | all s es ds => rw [start, result, List.foldl_reverse, Formula.resolve]

/-! ### What is kept -/

/-- What is added and what waits, all of it holds. -/
def Holds (A : Algebra V) (ρ : Variable → V) (r : Resolving) : Prop :=
  r.formula.Holds A ρ ∧ ∀ e ∈ r.waiting, e.Holds A ρ

/-- Lists in waiting equations are flat. -/
def Flat (r : Resolving) : Prop := ∀ e ∈ r.waiting, e.All Term.FlatHead

/-- No stored equality is between matched applications. -/
def Unmatched (names : List String) (r : Resolving) : Prop :=
  ∀ e ∈ r.formula.equalities, e.matched? names = none

theorem Flat.leads (hr : r.Flat) (h : Leads names r r') : r'.Flat := by
  obtain ⟨e, rest, hwaiting, hcases⟩ := leads_cases h
  rw [Flat, hwaiting, List.forall_mem_cons] at hr
  obtain ⟨qs, hqs, rfl⟩ | ⟨-, rfl⟩ := hcases
  · refine List.forall_mem_append.mpr ⟨fun q hq => ?_, hr.2⟩
    exact Equality.all_matched hr.1 hqs q (List.mem_reverse.mp hq)
  · exact hr.2

theorem Unmatched.leads (hr : r.Unmatched names) (h : Leads names r r') : r'.Unmatched names := by
  obtain ⟨e, rest, -, ⟨qs, -, rfl⟩ | ⟨hnone, rfl⟩⟩ := leads_cases h
  · exact hr
  · exact fun q hq => Formula.matched_addEquality hnone hr hq

theorem holds_leads_iff {A : Algebra V} {ρ : Variable → V} (hA : A.Separates names)
    (hr : r.Flat) (h : Leads names r r') : r'.Holds A ρ ↔ r.Holds A ρ := by
  obtain ⟨e, rest, hwaiting, hcases⟩ := leads_cases h
  rw [Flat, hwaiting, List.forall_mem_cons] at hr
  unfold Holds
  rw [hwaiting, List.forall_mem_cons]
  obtain ⟨qs, hqs, rfl⟩ | ⟨-, rfl⟩ := hcases
  · simp only [List.forall_mem_append, List.mem_reverse, Equality.holds_matched_iff hA hqs]
  · constructor
    · rintro ⟨hformula, hrest⟩
      obtain ⟨hformula, he⟩ := Formula.holds_of_addEquality hformula
      exact ⟨hformula, he, hrest⟩
    · rintro ⟨hformula, he, hrest⟩
      exact ⟨Formula.holds_addEquality hformula hr.1 he, hrest⟩

theorem Unmatched.run (hr : r.Unmatched names) (h : Relation.ReflTransGen (Leads names) r r') :
    r'.Unmatched names := by
  induction h with
  | refl => exact hr
  | tail _ hstep ih => exact ih.leads hstep

theorem Flat.run (hr : r.Flat) (h : Relation.ReflTransGen (Leads names) r r') : r'.Flat := by
  induction h with
  | refl => exact hr
  | tail _ hstep ih => exact ih.leads hstep

theorem holds_run_iff {A : Algebra V} {ρ : Variable → V} (hA : A.Separates names) (hr : r.Flat)
    (h : Relation.ReflTransGen (Leads names) r r') : r'.Holds A ρ ↔ r.Holds A ρ := by
  induction h with
  | refl => rfl
  | tail hsteps hstep ih => rw [holds_leads_iff hA (hr.run hsteps) hstep, ih]

theorem holds_start_iff (A : Algebra V) (ρ : Variable → V) (φ : Formula) :
    (start φ).Holds A ρ ↔ φ.Holds A ρ := by
  cases φ with
  | falsified w => simp [start, Holds]
  | all s es ds =>
    simp only [start, Holds, Formula.holds_all_iff, List.mem_reverse]
    tauto

theorem flat_start {φ : Formula} (h : ∀ e ∈ φ.equalities, e.All Term.FlatHead) :
    (start φ).Flat := by
  cases φ with
  | falsified w => exact fun _ => nofun
  | all s es ds => exact fun e he => h e (List.mem_reverse.mp he)

theorem unmatched_start (names : List String) (φ : Formula) : (start φ).Unmatched names := by
  cases φ <;> exact fun _ => nofun

end Resolving

/-! ## The whole formula -/

/-- **Resolving injective symbols is exact and complete.** Every run over the stack ends, and from
    the equalities of a formula it ends with the resolved formula, in which no equality is left
    between applications of one named symbol to equally many arguments. Where the named symbols are
    injective, the resolved formula has the solutions of the formula. -/
theorem Formula.resolve_exact (names : List String) (φ : Formula) :
    (WellFounded fun r' r : Resolving => Resolving.Leads names r r') ∧
    Relation.ReflTransGen (Resolving.Leads names) (.start φ) ⟨[], φ.resolve names⟩ ∧
    (∀ f xs s g ys s', ⟨.app f xs s, .app g ys s'⟩ ∈ (φ.resolve names).equalities →
      f.same g = true → f.name ∈ names → xs.length ≠ ys.length) ∧
    ((∀ e ∈ φ.equalities, e.All Term.FlatHead) →
      ∀ {V : Type} (A : Algebra V) (ρ : Variable → V), A.Separates names →
        ((φ.resolve names).Holds A ρ ↔ φ.Holds A ρ)) := by
  have hrun := Resolving.reaches_result names (.start φ)
  rw [Resolving.result_start] at hrun
  refine ⟨Resolving.wellFounded_leads names, hrun, ?_, ?_⟩
  · intro f xs s g ys s' hmem hsame hname hlen
    have hnone := (Resolving.unmatched_start names φ).run hrun _ hmem
    rw [Equality.matched_app hsame hlen hname] at hnone
    cases hnone
  · intro hflat V A ρ hA
    have hholds := Resolving.holds_run_iff (ρ := ρ) hA (Resolving.flat_start hflat) hrun
    rw [Resolving.holds_start_iff] at hholds
    exact ⟨fun h => hholds.mp ⟨h, fun _ => nofun⟩, fun h => (hholds.mpr h).1⟩

/-! ### A pattern taken as injective -/

namespace Folded

def abs (xs : List Term) : Term := .app ⟨"#abs", .pattern, []⟩ xs .int

def g (x : Term) : Term := .app ⟨"g", .function, []⟩ [x] .int

def x : Variable := ⟨"X", .int⟩

def y : Variable := ⟨"Y", .int⟩

def z : Variable := ⟨"Z", .int⟩

/-- `#abs(#abs(X, Y), g(Z)) = #abs(#abs(1, 2), g(3))` -/
def formula : Formula :=
  .all .empty [⟨abs [abs [.var x, .var y], g (.var z)], abs [abs [.int 1, .int 2], g (.int 3)]⟩] []

/-- `#abs(1, X) = #abs(2, 3)` -/
def refuted : Formula := .all .empty [⟨abs [.int 1, .var x], abs [.int 2, .int 3]⟩] []

/-- Applications are kept as they are. -/
noncomputable def algebra : Algebra Value := Value.algebra .con .con

theorem separates_algebra (names : List String) : algebra.Separates names := by
  intro f _ vs ws _ h
  have happly (us : List Value) : algebra.apply f us = .con f.name us := by
    unfold Algebra.apply
    cases f.kind <;> rfl
  rw [happly, happly, Value.con.injEq] at h
  exact h.2

theorem flat_formula : ∀ e ∈ formula.equalities, e.All Term.FlatHead := by
  simp [formula, Formula.equalities, Equality.All, abs, g, Term.All, Term.AllIn, Term.FlatHead]

theorem flat_refuted : ∀ e ∈ refuted.equalities, e.All Term.FlatHead := by
  simp [refuted, Formula.equalities, Equality.All, abs, Term.All, Term.AllIn, Term.FlatHead]

/-- What is left of the first equation -/
def resolved : Formula :=
  .all .empty [⟨.var x, .int 1⟩, ⟨.var y, .int 2⟩, ⟨g (.var z), g (.int 3)⟩] []

def solution (v : Variable) : Value :=
  if v = x then .int 1 else if v = y then .int 2 else .int 3

theorem holds_resolved : resolved.Holds algebra solution := by
  refine (Formula.holds_all_iff _ _ _ _ _).mpr ⟨fun _ => nofun, ?_, fun _ => nofun⟩
  exact List.forall_mem_cons.mpr ⟨rfl, List.forall_mem_cons.mpr
    ⟨rfl, List.forall_mem_singleton.mpr rfl⟩⟩

/-- `X = 1`, `Y = 2` and `g(Z) = g(3)` are left of the first equation, so that their solutions are
    solutions of it. The second one is refuted by `1 = 2`, after `X = 3` was added, and has no
    solution. -/
theorem resolve_exact_pattern :
    formula.resolve ["#abs"] = resolved ∧ formula.Holds algebra solution ∧
    refuted.resolve ["#abs"] = .falsified ⟨.int 1, .int 2⟩ ∧
    ∀ ρ, ¬refuted.Holds algebra ρ := by
  have hformula : formula.resolve ["#abs"] = resolved := by cbv
  have hrefuted : refuted.resolve ["#abs"] = .falsified ⟨.int 1, .int 2⟩ := by cbv
  obtain ⟨-, -, -, hsolutions⟩ := Formula.resolve_exact ["#abs"] formula
  obtain ⟨-, -, -, hnone⟩ := Formula.resolve_exact ["#abs"] refuted
  refine ⟨hformula, ?_, hrefuted, fun ρ hρ => ?_⟩
  · refine (hsolutions flat_formula algebra solution (separates_algebra _)).mp ?_
    rw [hformula]
    exact holds_resolved
  · have hfalse := (hnone flat_refuted algebra ρ (separates_algebra _)).mpr hρ
    rw [hrefuted] at hfalse
    exact hfalse

end Folded

end Entail
