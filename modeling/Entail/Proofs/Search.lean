import Entail.Proofs.Oracles
import Mathlib.Tactic.Ring

set_option autoImplicit false

/-! # How far goals are split

Every case split takes a condition that was not split on before on the way to its goal, and adds it to
the conditions of the goals it leaves. The limit on these bounds the tree of goals: it is at most
binary, no higher than the limit, and only its leaves ask the oracle. A goal that may still be split
is a leaf only if no condition of its right side is open. -/

namespace Entail

variable {σ α β : Type}

/-! ## Goals in a queue -/

namespace Engine

/-- Work on a goal, that is split if it is split on fewer conditions than the options allow. -/
def attempt (e : Engine σ) (existentials : VarSet) (goal : Goal) : Inquiry σ GoalResult :=
  e.proveGoal existentials (decide (goal.splits.length < e.options.maxCaseSplits)) goal

/-- Work on a queue of goals: the first one is taken, and what is left of it is put at the end. There
    is no answer if that takes more than `budget` goals. -/
def proveQueue (e : Engine σ) (existentials : VarSet) (budget : Nat) (goals : List Goal) :
    Inquiry σ (Option Bool) :=
  match budget, goals with
  | _, [] => pure (some true)
  | 0, _ :: _ => pure none
  | budget + 1, goal :: goals => do
    match ← e.attempt existentials goal with
    | .failed => return some false
    | .reduced next => e.proveQueue existentials budget (goals ++ next)

/-- Entailment by a queue of goals, with an answer if that takes no more than `budget` goals. -/
def impliesQueue (e : Engine σ) (budget : Nat) (left right : Formula) (existentials : VarSet) :
    Inquiry σ (Option Bool) := do
  Inquiry.emit (.implicationAttempted left right)
  match ← e.simplify .default false left with
  | .error (.refuted _) => return some true
  | .error .exhausted => return some false
  | .ok left => e.proveQueue existentials budget [⟨left, right, []⟩]

end Engine

/-! ## Paths -/

/-- The condition of a case split. -/
def Diagnostic.condition? : Diagnostic → Option Term
  | .event (.caseSplit condition) => some condition
  | _ => none

namespace Engine

/-- In some session a goal leaves the goals `next`, and splits on `conditions` are reported. -/
def Leaves (e : Engine σ) (existentials : VarSet) (goal : Goal) (conditions : List Term)
    (next : List Goal) : Prop :=
  ∃ s ds, ((e.attempt existentials goal).run s).1 = .ok (.reduced next) ∧
    ((e.attempt existentials goal).run s).2.diagnostics = s.diagnostics ++ ds ∧
    ds.filterMap Diagnostic.condition? = conditions

/-- From the goal to show that `left` implies `right` one comes to a goal by splits on `conditions`,
    the last one first. -/
inductive Path (e : Engine σ) (existentials : VarSet) (left right : Formula) :
    List Term → Goal → Prop where
  | root {s : Session σ} {S : Formula} (h : (e.simplify .default false left s).1 = .ok S) :
    Path e existentials left right [] ⟨S, right, []⟩
  | child {conditions more : List Term} {goal child : Goal} {next : List Goal}
    (path : Path e existentials left right conditions goal)
    (leaves : e.Leaves existentials goal more next) (mem : child ∈ next) :
    Path e existentials left right (more ++ conditions) child

end Engine

/-! ## Questions -/

/-- The oracle, with its questions noted, the last one first. -/
def Oracle.noting (o : Oracle σ) : Oracle (σ × List Question) where
  checkUnsat φ request s :=
    let answer := o.checkUnsat φ request s.1
    (answer.1, answer.2, .checkUnsat request φ :: s.2)
  implies left right existentials request s :=
    let answer := o.implies left right existentials request s.1
    (answer.1, answer.2, .implies request left right existentials :: s.2)

/-- The session without the noted questions. -/
def Session.unnoted (s : Session (σ × List Question)) : Session σ :=
  ⟨s.simplifications, s.implications, s.phase, s.oracle.1, s.diagnostics⟩

/-- Every condition of the right side is one of `splits`. -/
def Question.Decided (splits : List Term) : Question → Prop
  | .checkUnsat _ _ => True
  | .implies _ _ right _ => ∀ c ∈ right.conditions, splits.contains c = true

namespace Engine

/-- The engine, with the questions to its oracle noted. -/
def noting (e : Engine σ) : Engine (σ × List Question) := e.withOracle e.oracle.noting

/-- In some session working on a goal asks a question. -/
def Asks (e : Engine (σ × List Question)) (existentials : VarSet) (goal : Goal) (q : Question) :
    Prop :=
  ∃ s qs, ((e.attempt existentials goal).run s).2.oracle.2 = qs ++ s.oracle.2 ∧ q ∈ qs

/-- Noting the questions changes no answer. -/
theorem implies_noting (e : Engine σ) (left right : Formula) (existentials : VarSet)
    (s : Session (σ × List Question)) :
    ((e.noting.implies left right existentials).run s).1 =
      ((e.implies left right existentials).run s.unnoted).1 := by
  have horacle : Oracle.Follows (fun _ => True) (fun t (p : σ × List Question) => p.1 = t) e.oracle
      e.oracle.noting :=
    { unsat := fun φ request t p hp _ => by subst hp; exact ⟨rfl, rfl⟩
      implies := fun left right existentials request t p hp _ => by subst hp; exact ⟨rfl, rfl⟩ }
  have hfollows := follows_implies trivial horacle left right existentials
  exact (hfollows s.unnoted s ⟨rfl, rfl, rfl, rfl⟩ trivial).1

end Engine

/-! ## What work asks and reports -/

/-- Every question to the oracle is noted, or not noted. -/
structure Oracle.Notes (o : Oracle σ) (asked : σ → List Question) : Prop where
  unsat : ∀ φ request s, ∃ qs : List Question, qs.Sublist [.checkUnsat request φ] ∧
    asked (o.checkUnsat φ request s).2 = qs ++ asked s
  implies : ∀ left right existentials request s, ∃ qs : List Question,
    qs.Sublist [.implies request left right existentials] ∧
      asked (o.implies left right existentials request s).2 = qs ++ asked s

theorem Oracle.notes_noting (o : Oracle σ) : o.noting.Notes Prod.snd where
  unsat φ request _ := ⟨[.checkUnsat request φ], .refl _, rfl⟩
  implies left right existentials request _ :=
    ⟨[.implies request left right existentials], .refl _, rfl⟩

theorem Oracle.notes_nothing (o : Oracle σ) : o.Notes fun _ => [] where
  unsat _ _ _ := ⟨[], List.nil_sublist _, rfl⟩
  implies _ _ _ _ _ := ⟨[], List.nil_sublist _, rfl⟩

/-- From `s` to `t` the questions `qs` are noted, and splits on `conditions` are reported. -/
structure Session.Moves (asked : σ → List Question) (s t : Session σ) (qs : List Question)
    (conditions : List Term) : Prop where
  asked : asked t.oracle = qs ++ asked s.oracle
  reported : ∃ ds, t.diagnostics = s.diagnostics ++ ds ∧
    ds.filterMap Diagnostic.condition? = conditions

variable {asked : σ → List Question}

theorem Session.Moves.trans {s t u : Session σ} {qs qs' : List Question} {cs cs' : List Term}
    (h : Session.Moves asked s t qs cs) (h' : Session.Moves asked t u qs' cs') :
    Session.Moves asked s u (qs' ++ qs) (cs ++ cs') := by
  obtain ⟨ds, hds, hcs⟩ := h.reported
  obtain ⟨ds', hds', hcs'⟩ := h'.reported
  refine ⟨?_, ds ++ ds', ?_, ?_⟩
  · rw [h'.asked, h.asked, List.append_assoc]
  · rw [hds', hds, List.append_assoc]
  · rw [List.filterMap_append, hcs, hcs']

/-- `P` is true of what work asks and reports, and of its answer. -/
def Work.Logs (asked : σ → List Question) (x : Work σ α)
    (P : List Question → List Term → α → Prop) : Prop :=
  ∀ s, ∃ qs cs, Session.Moves asked s (x s).2 qs cs ∧ P qs cs (x s).1

namespace Work

variable {x : Work σ α} {P P' : List Question → List Term → α → Prop}
  {R : List Question → List Term → β → Prop} {Q : α → Prop}

theorem Logs.pure {a : α} (h : P [] [] a) : Logs asked (Pure.pure a) P :=
  fun _ => ⟨[], [], ⟨rfl, [], (List.append_nil _).symm, rfl⟩, h⟩

theorem Logs.bind {f : α → Work σ β} (hx : Logs asked x P)
    (hf : ∀ qs cs a, P qs cs a → Logs asked (f a) fun qs' cs' b => R (qs' ++ qs) (cs ++ cs') b) :
    Logs asked (x >>= f) R := by
  intro s
  obtain ⟨qs, cs, hmoves, ha⟩ := hx s
  obtain ⟨qs', cs', hmoves', hb⟩ := hf qs cs _ ha (x s).2
  exact ⟨_, _, hmoves.trans hmoves', hb⟩

theorem Logs.mono (h : Logs asked x P) (hP : ∀ qs cs a, P qs cs a → P' qs cs a) :
    Logs asked x P' := by
  intro s
  obtain ⟨qs, cs, hmoves, ha⟩ := h s
  exact ⟨qs, cs, hmoves, hP _ _ _ ha⟩

/-- Work that asks nothing, reports no split and gives an answer of which `Q` is true. -/
def Quiet (asked : σ → List Question) (x : Work σ α) (Q : α → Prop) : Prop :=
  Logs asked x fun qs cs a => qs = [] ∧ cs = [] ∧ Q a

theorem Quiet.pure {a : α} (h : Q a) : Quiet asked (Pure.pure a) Q :=
  Logs.pure ⟨rfl, rfl, h⟩

theorem Quiet.logs_bind {f : α → Work σ β} (hx : Quiet asked x Q)
    (hf : ∀ a, Q a → Logs asked (f a) R) : Logs asked (x >>= f) R := by
  refine Logs.bind hx fun qs cs a ⟨hqs, hcs, ha⟩ => (hf a ha).mono fun qs' cs' b hb => ?_
  rw [hqs, hcs, List.append_nil]
  exact hb

theorem Quiet.bind {f : α → Work σ β} {Q' : β → Prop} (hx : Quiet asked x Q)
    (hf : ∀ a, Q a → Quiet asked (f a) Q') : Quiet asked (x >>= f) Q' :=
  hx.logs_bind hf

theorem Quiet.get_bind {f : Session σ → Work σ α} (h : ∀ s, Quiet asked (f s) Q) :
    Quiet asked (get >>= f) Q :=
  fun s => h s s

theorem Quiet.modify_bind {m : Session σ → Session σ} {f : Unit → Work σ α}
    (horacle : ∀ s, (m s).oracle = s.oracle)
    (hdiagnostics : ∀ s, (m s).diagnostics = s.diagnostics) (h : Quiet asked (f ()) Q) :
    Quiet asked (modify m >>= f) Q := by
  intro s
  obtain ⟨qs, cs, ⟨hasked, ds, hds, hcs⟩, ha⟩ := h (m s)
  refine ⟨qs, cs, ⟨?_, ds, ?_, hcs⟩, ha⟩
  · rw [← horacle s]
    exact hasked
  · rw [← hdiagnostics s]
    exact hds

theorem logs_report (ds : List Diagnostic) :
    Logs asked (report ds) fun qs cs _ => qs = [] ∧ cs = ds.filterMap Diagnostic.condition? :=
  fun _ => ⟨[], _, ⟨rfl, ds, rfl, rfl⟩, rfl, rfl⟩

theorem quiet_report {ds : List Diagnostic} (h : ds.filterMap Diagnostic.condition? = []) :
    Quiet asked (report ds) fun _ => True :=
  (logs_report ds).mono fun _ _ _ ⟨hqs, hcs⟩ => ⟨hqs, hcs.trans h, trivial⟩

end Work

/-- The same for work that may be refused, with `P` also of refusals. -/
def Inquiry.Logs (asked : σ → List Question) (x : Inquiry σ α)
    (P : List Question → List Term → Except Refusal α → Prop) : Prop :=
  Work.Logs asked x.run P

namespace Inquiry

variable {x : Inquiry σ α} {P P' : List Question → List Term → Except Refusal α → Prop}
  {R : List Question → List Term → Except Refusal β → Prop}

theorem Logs.pure {a : α} (h : P [] [] (.ok a)) : Logs asked (Pure.pure a) P :=
  Work.Logs.pure h

theorem Logs.mono (h : Logs asked x P) (hP : ∀ qs cs a, P qs cs a → P' qs cs a) :
    Logs asked x P' :=
  Work.Logs.mono h hP

theorem Logs.bind {f : α → Inquiry σ β} (hx : Logs asked x P)
    (hf : ∀ qs cs a, P qs cs (.ok a) →
      Logs asked (f a) fun qs' cs' b => R (qs' ++ qs) (cs ++ cs') b)
    (hrefused : ∀ qs cs r, P qs cs (.error r) → R qs cs (.error r)) :
    Logs asked (x >>= f) R := by
  change Work.Logs asked (x.run >>= ExceptT.bindCont f) _
  refine Work.Logs.bind hx fun qs cs answer hanswer => ?_
  cases answer with
  | error r =>
    refine Work.Logs.pure ?_
    rw [List.nil_append, List.append_nil]
    exact hrefused qs cs r hanswer
  | ok a => exact hf qs cs a hanswer

/-- Quiet work may come first. -/
theorem Logs.lift_bind {y : Work σ β} {Q : β → Prop} {f : β → Inquiry σ α}
    (hy : Work.Quiet asked y Q) (hf : ∀ b, Q b → Logs asked (f b) P) :
    Logs asked (liftM y >>= f) P := by
  have hlift : Work.Quiet asked (liftM y : Inquiry σ β).run fun answer => ∃ b, answer = .ok b ∧ Q b :=
    hy.bind fun b hb => .pure ⟨b, rfl, hb⟩
  refine Logs.bind hlift (fun qs cs b ⟨hqs, hcs, b', heq, hb⟩ => ?_)
    fun _ _ r ⟨_, _, _, heq, _⟩ => by simp at heq
  obtain rfl := Except.ok.inj heq
  refine (hf b hb).mono fun qs' cs' a ha => ?_
  rw [hqs, hcs, List.append_nil]
  exact ha

theorem Logs.debug_bind (message : String) {f : Unit → Inquiry σ α} (h : Logs asked (f ()) P) :
    Logs asked (debug message >>= f) P :=
  .lift_bind (Work.quiet_report rfl) fun _ _ => h

/-- What is reported of a split. -/
theorem Logs.caseSplit_bind (c : Term) {f : Unit → Inquiry σ α}
    (h : Logs asked (f ()) fun qs cs a => P qs (c :: cs) a) :
    Logs asked (emit (.caseSplit c) >>= f) P := by
  have hemit : Logs asked (emit (.caseSplit c)) fun qs cs answer =>
      qs = [] ∧ cs = [c] ∧ answer = .ok () := by
    intro s
    exact ⟨[], [c], ⟨rfl, _, rfl, rfl⟩, rfl, rfl, rfl⟩
  refine Logs.bind hemit (fun qs cs _ ⟨hqs, hcs, _⟩ => ?_) fun _ _ r ⟨_, _, hr⟩ => by simp at hr
  rw [hqs, hcs]
  refine h.mono fun qs' cs' a ha => ?_
  rw [List.append_nil]
  exact ha

theorem Logs.emit_bind {event : Event} (hevent : Diagnostic.condition? (.event event) = none)
    {f : Unit → Inquiry σ α} (h : Logs asked (f ()) P) :
    Logs asked (emit event >>= f) P :=
  .lift_bind (Work.quiet_report (by simp [hevent])) fun _ _ => h

/-- What is known of all answers can be used by what comes next. -/
theorem Logs.bind_congr (hx : Logs asked x P) {f g : α → Inquiry σ β}
    (h : ∀ qs cs a, P qs cs (.ok a) → f a = g a) : x >>= f = x >>= g := by
  refine ExceptT.ext (funext fun s => ?_)
  obtain ⟨qs, cs, _, ha⟩ := hx s
  rw [run_bind, run_bind]
  cases hrun : x.run s with
  | mk answer t =>
    cases answer with
    | error r => rfl
    | ok a =>
      have ha' : (x.run s).1 = .ok a := congrArg Prod.fst hrun
      rw [ha'] at ha
      exact congrArg (fun y : Inquiry σ β => y.run t) (h qs cs a ha)

end Inquiry

/-! ## Work on a goal -/

namespace Engine

variable {e : Engine σ}

theorem quiet_computeSimplified (mode : SimplifyMode) (logFailures : Bool) (φ : Formula) :
    Work.Quiet asked (e.computeSimplified mode logFailures φ) fun _ => True := by
  unfold computeSimplified
  dsimp only
  generalize φ.simplifyWithin e.vocabulary e.unifier mode φ.stepBound = answer
  have hreport (r : Refutation) :
      (refutationReport logFailures r).filterMap Diagnostic.condition? = [] := by
    unfold refutationReport
    cases r.mismatch <;> cases logFailures <;> rfl
  split
  · exact (Work.quiet_report (hreport _)).bind fun _ _ => .pure trivial
  · exact .pure trivial

theorem quiet_simplify (mode : SimplifyMode) (logFailures : Bool) (φ : Formula) :
    Work.Quiet asked (e.simplify mode logFailures φ) fun _ => True := by
  have hcompute : Work.Quiet asked (e.computeSimplified mode logFailures φ) fun _ => True :=
    quiet_computeSimplified mode logFailures φ
  unfold simplify
  split
  · exact .pure trivial
  split
  · exact .pure trivial
  split
  · exact hcompute
  refine .get_bind fun s => ?_
  split
  · exact .modify_bind (fun _ => rfl) (fun _ => rfl) (.pure trivial)
  · refine .modify_bind (fun _ => rfl) (fun _ => rfl) (hcompute.bind fun _ _ => ?_)
    exact .get_bind fun _ => .modify_bind (fun _ => rfl) (fun _ => rfl) (.pure trivial)

theorem quiet_reduce (left right : Formula) (existentials : VarSet) :
    Work.Quiet asked (e.reduce left right existentials) fun _ => True := by
  unfold reduce
  refine (quiet_simplify .default false _).bind fun answer _ => ?_
  cases answer <;> exact .pure trivial

/-- There is one goal at most for each value, with the conditions that are given. -/
theorem quiet_branches (left right : Formula) (c : Term) (splits : List Term) (values : List Bool) :
    Work.Quiet asked (e.branches left right c splits values) fun goals =>
      goals.length ≤ values.length ∧ ∀ goal ∈ goals, goal.splits = splits := by
  induction values with
  | nil => exact .pure ⟨Nat.le_refl 0, by simp⟩
  | cons value values ih =>
    unfold branches
    refine (quiet_simplify .default false _).bind fun answer _ => ih.bind fun rest hih => ?_
    obtain ⟨hle, hrest⟩ := hih
    have hcons (φ : Formula) : ((⟨φ, right, splits⟩ : Goal) :: rest).length ≤ values.length + 1 ∧
        ∀ goal ∈ (⟨φ, right, splits⟩ : Goal) :: rest, goal.splits = splits :=
      ⟨Nat.succ_le_succ hle, List.forall_mem_cons.mpr ⟨rfl, hrest⟩⟩
    split
    · exact .pure (hcons _)
    · exact .pure ⟨Nat.le_succ_of_le hle, hrest⟩
    · exact .pure (hcons _)

/-- One question at most is noted. -/
theorem logs_ask {question : Session σ → Verdict × σ} {q : Session σ → Question}
    (h : ∀ s, ∃ qs : List Question, qs.Sublist [q s] ∧
      asked (question s).2 = qs ++ asked s.oracle) :
    Inquiry.Logs asked (ask question) fun qs cs _ => (∃ s, qs.Sublist [q s]) ∧ cs = [] := by
  intro s
  obtain ⟨qs, hqs, hasked⟩ := h s
  refine ⟨qs, [], ⟨hasked, _, rfl, ?_⟩, ⟨s, hqs⟩, rfl⟩
  rw [List.filterMap_map, List.filterMap_eq_nil_iff]
  exact fun _ _ => rfl

/-- What working on a goal comes to: a leaf, or a split on a new condition. -/
inductive Attempted (maySplit : Bool) (goal : Goal) :
    List Question → List Term → Except Refusal GoalResult → Prop where
  | leaf {qs : List Question} {answer : Except Refusal GoalResult} (few : qs.length ≤ 1)
    (decided : maySplit = true → ∀ q ∈ qs, q.Decided goal.splits)
    (done : ∀ next, answer = .ok (.reduced next) → next = []) : Attempted maySplit goal qs [] answer
  | split {condition : Term} {next : List Goal} (allowed : maySplit = true)
    (new : goal.splits.contains condition = false) (few : next.length ≤ 2)
    (splits : ∀ child ∈ next, child.splits = condition :: goal.splits) :
    Attempted maySplit goal [] [condition] (.ok (.reduced next))

theorem Attempted.decided {maySplit : Bool} {goal : Goal} {qs : List Question} {cs : List Term}
    {answer : Except Refusal GoalResult} (h : Attempted maySplit goal qs cs answer)
    (hmay : maySplit = true) : ∀ q ∈ qs, q.Decided goal.splits := by
  cases h with
  | leaf _ decided _ => exact decided hmay
  | split => simp

theorem Attempted.of_mem {maySplit : Bool} {goal child : Goal} {qs : List Question}
    {cs : List Term} {next : List Goal} (h : Attempted maySplit goal qs cs (.ok (.reduced next)))
    (mem : child ∈ next) : maySplit = true ∧ ∃ c, cs = [c] ∧ goal.splits.contains c = false ∧
      child.splits = c :: goal.splits := by
  cases h with
  | leaf _ _ done =>
    rw [done next rfl] at mem
    simp at mem
  | split allowed new _ splits => exact ⟨allowed, _, rfl, new, splits child mem⟩

variable (horacle : e.oracle.Notes asked)
include horacle

theorem logs_checkUnsat (φ : Formula) :
    Inquiry.Logs asked (e.checkUnsat φ) fun qs cs _ =>
      (∃ request, qs.Sublist [.checkUnsat request φ]) ∧ cs = [] := by
  unfold checkUnsat
  split
  · exact .pure ⟨⟨⟨.execution, 0⟩, List.nil_sublist _⟩, rfl⟩
  · refine (logs_ask fun s => horacle.unsat φ (e.constraintRequest s) s.oracle).mono ?_
    exact fun qs cs _ ⟨⟨s, hqs⟩, hcs⟩ => ⟨⟨_, hqs⟩, hcs⟩

theorem logs_askImpliesCached (left right : Formula) (existentials : VarSet) :
    Inquiry.Logs asked (e.askImpliesCached left right existentials) fun qs cs _ =>
      (∃ request, qs.Sublist [.implies request left right existentials]) ∧ cs = [] := by
  have hask : Inquiry.Logs asked (e.askImplies left right existentials) fun qs cs _ =>
      (∃ request, qs.Sublist [.implies request left right existentials]) ∧ cs = [] := by
    refine (logs_ask fun s => horacle.implies left right existentials
      (e.implicationRequest s) s.oracle).mono ?_
    exact fun qs cs _ ⟨⟨s, hqs⟩, hcs⟩ => ⟨⟨_, hqs⟩, hcs⟩
  by_cases hcache : e.options.cacheImplications = true
  · intro s
    cases hget : s.implications.get? ⟨left, right, existentials⟩ with
    | some stored =>
      rw [askImpliesCached_hit hcache hget]
      exact ⟨[], [], ⟨rfl, [], (List.append_nil _).symm, rfl⟩,
        ⟨e.implicationRequest s, List.nil_sublist _⟩, rfl⟩
    | none =>
      obtain ⟨qs, cs, hmoves, hP⟩ := hask { s with implications := s.implications.miss }
      obtain ⟨answer, t, hrun⟩ : ∃ answer t, (e.askImplies left right existentials).run
          { s with implications := s.implications.miss } = (answer, t) := ⟨_, _, rfl⟩
      rw [hrun] at hmoves
      rw [askImpliesCached_miss hcache hget hrun]
      refine ⟨qs, cs, ?_, hP⟩
      cases answer <;> exact ⟨hmoves.asked, hmoves.reported⟩
  · unfold askImpliesCached
    rw [if_pos (by simpa using hcache)]
    exact hask

theorem logs_proveWithOracle (left right : Formula) (existentials : VarSet) :
    Inquiry.Logs asked (e.proveWithOracle left right existentials) fun qs cs _ =>
      (∃ request left, qs.Sublist [.implies request left right existentials]) ∧ cs = [] := by
  unfold proveWithOracle
  refine .bind (logs_askImpliesCached horacle _ right existentials)
    (fun qs cs proved ⟨⟨request, hqs⟩, hcs⟩ => ?_)
    fun qs cs _ ⟨⟨request, hqs⟩, hcs⟩ => ⟨⟨request, _, hqs⟩, hcs⟩
  have hpure (b : Bool) : Inquiry.Logs asked (pure b) fun qs' cs' _ =>
      (∃ request left, (qs' ++ qs).Sublist [.implies request left right existentials]) ∧
        cs ++ cs' = [] := .pure ⟨⟨request, _, hqs⟩, by rw [hcs, List.append_nil]⟩
  cases proved with
  | true => exact .emit_bind rfl (hpure true)
  | false =>
    refine .emit_bind rfl ?_
    dsimp only
    split
    · exact .debug_bind _ (hpure false)
    · exact hpure false

theorem logs_proveReduced (existentials : VarSet) (maySplit : Bool) (right : Formula) (goal : Goal) :
    Inquiry.Logs asked (e.proveReduced existentials maySplit goal.left right goal.splits)
      (Attempted maySplit goal) := by
  unfold proveReduced
  split
  · exact .emit_bind rfl (.pure (.leaf (by simp) (by simp) (by simp)))
  split
  · next condition hopen =>
    cases maySplit with
    | false => simp at hopen
    | true =>
      have hnew : goal.splits.contains condition = false := by
        simpa using List.find?_some hopen
      refine .caseSplit_bind condition (.lift_bind (quiet_branches goal.left right condition _ _) ?_)
      exact fun next ⟨hle, hsplits⟩ => .pure (.split rfl hnew hle hsplits)
  · next hclosed =>
    have hdecided (qs : List Question) (request : Request) (left : Formula)
        (hqs : qs.Sublist [.implies request left right existentials]) (hmay : maySplit = true) :
        ∀ q ∈ qs, q.Decided goal.splits := by
      intro q hq
      obtain rfl := List.mem_singleton.mp (hqs.subset hq)
      intro c hc
      rw [if_pos hmay, List.find?_eq_none] at hclosed
      simpa using hclosed c hc
    refine .bind (logs_proveWithOracle horacle goal.left right existentials)
      (fun qs cs proved ⟨⟨request, left, hqs⟩, hcs⟩ => ?_)
      fun qs cs r ⟨⟨request, left, hqs⟩, hcs⟩ => ?_
    · subst hcs
      have hleaf (result : GoalResult) (hdone : ∀ next, result = .reduced next → next = []) :
          Attempted maySplit goal ([] ++ qs) ([] ++ []) (.ok result) :=
        .leaf hqs.length_le (hdecided qs request left hqs) fun next h => hdone next (Except.ok.inj h)
      cases proved with
      | true => exact .pure (hleaf _ fun next h => (GoalResult.reduced.inj h).symm)
      | false => exact .pure (hleaf _ fun next h => by simp at h)
    · subst hcs
      exact .leaf hqs.length_le (hdecided qs request left hqs) fun next h => by simp at h

/-- Working on a goal asks one question at most, or splits the goal. -/
theorem logs_proveGoal (existentials : VarSet) (maySplit : Bool) (goal : Goal) :
    Inquiry.Logs asked (e.proveGoal existentials maySplit goal) (Attempted maySplit goal) := by
  have hdecided (qs : List Question) (request : Request)
      (hqs : qs.Sublist [.checkUnsat request goal.left]) : ∀ q ∈ qs, q.Decided goal.splits := by
    intro q hq
    obtain rfl := List.mem_singleton.mp (hqs.subset hq)
    trivial
  unfold proveGoal
  split
  · exact .pure (.leaf (by simp) (by simp) (by simp))
  refine .lift_bind (quiet_reduce _ _ _) fun answer _ => ?_
  match answer with
  | .error (.refuted r) =>
    refine .debug_bind _ (.bind (logs_checkUnsat horacle goal.left)
      (fun qs cs unsat ⟨⟨request, hqs⟩, hcs⟩ => ?_) fun qs cs r ⟨⟨request, hqs⟩, hcs⟩ => ?_)
    · subst hcs
      cases unsat with
      | true => exact .pure (.leaf hqs.length_le (fun _ => hdecided qs request hqs) (by simp))
      | false => exact .pure (.leaf hqs.length_le (fun _ => hdecided qs request hqs) (by simp))
    · subst hcs
      exact .leaf hqs.length_le (fun _ => hdecided qs request hqs) (by simp)
  | .error .exhausted => exact .pure (.leaf (by simp) (by simp) (by simp))
  | .ok right => exact logs_proveReduced horacle existentials maySplit right goal

omit horacle

/-! ## Paths -/

variable {existentials : VarSet} {left right : Formula} {conditions : List Term} {goal : Goal}

theorem Leaves.attempted {more : List Term} {next : List Goal}
    (h : e.Leaves existentials goal more next) :
    Attempted (decide (goal.splits.length < e.options.maxCaseSplits)) goal [] more
      (.ok (.reduced next)) := by
  obtain ⟨s, ds, hanswer, hds, rfl⟩ := h
  obtain ⟨qs, cs, ⟨hasked, ds', hds', rfl⟩, hattempted⟩ :=
    logs_proveGoal e.oracle.notes_nothing existentials _ goal s
  obtain rfl : qs = [] := by simpa using hasked.symm
  obtain rfl : ds = ds' := List.append_cancel_left (hds.symm.trans hds')
  rw [← hanswer]
  exact hattempted

/-- Every split on a path is on a new condition, and there is one only below the limit. -/
theorem Path.spec (path : e.Path existentials left right conditions goal) :
    goal.splits = conditions ∧ conditions.Pairwise (fun c c' => (c == c') = false) ∧
      conditions.length ≤ e.options.maxCaseSplits := by
  induction path with
  | root _ => exact ⟨rfl, .nil, Nat.zero_le _⟩
  | @child conditions more goal child next _ leaves mem ih =>
    obtain ⟨hsplits, hdistinct, hle⟩ := ih
    obtain ⟨allowed, c, rfl, hnew, hchild⟩ := leaves.attempted.of_mem mem
    have hlt : goal.splits.length < e.options.maxCaseSplits := of_decide_eq_true allowed
    rw [hsplits] at hlt hnew
    rw [List.contains_eq_any_beq, List.any_eq_false] at hnew
    refine ⟨by rw [hchild, hsplits]; rfl, List.pairwise_cons.mpr ⟨?_, hdistinct⟩, hlt⟩
    exact fun c' hc' => Bool.eq_false_iff.mpr (hnew c' hc')

/-- A goal that may still be split asks about a right side only if no condition in it is open. -/
theorem Path.decided {e : Engine (σ × List Question)} (horacle : e.oracle.Notes Prod.snd)
    (path : e.Path existentials left right conditions goal)
    (hlt : conditions.length < e.options.maxCaseSplits) {q : Question}
    (hasks : e.Asks existentials goal q) : q.Decided conditions := by
  obtain ⟨hsplits, _, _⟩ := path.spec
  obtain ⟨s, qs, hqs, hq⟩ := hasks
  obtain ⟨qs', cs, ⟨hasked, _⟩, hattempted⟩ := logs_proveGoal horacle existentials _ goal s
  obtain rfl : qs = qs' := List.append_cancel_right (hqs.symm.trans hasked)
  rw [← hsplits] at hlt ⊢
  exact hattempted.decided (decide_eq_true hlt) q hq

end Engine

/-! ## Levels -/

/-- What is left of a goal, unless it fails. -/
def GoalResult.next? : GoalResult → Option (List Goal)
  | .failed => none
  | .reduced next => some next

/-- What the work on `n` goals comes to: all questions are `J`, and all goals that are left are `I`.
    No goal both asks a question and is split. -/
structure Descent (n : Nat) (maySplit : Bool) (I : Goal → Prop) (J : Question → Prop)
    (qs : List Question) (answer : Except Refusal (Option (List Goal))) : Prop where
  few : qs.length ≤ n
  asked : ∀ q ∈ qs, J q
  next : ∀ goals, answer = .ok (some goals) →
    2 * qs.length + goals.length ≤ 2 * n ∧ (maySplit = false → goals = []) ∧ ∀ goal ∈ goals, I goal

namespace Engine

variable {e : Engine σ} {existentials : VarSet} {maySplit : Bool} {I I' : Goal → Prop}
  {J : Question → Prop}

theorem Attempted.descent {goal : Goal} {qs : List Question} {cs : List Term}
    {answer : Except Refusal GoalResult} (h : Attempted maySplit goal qs cs answer)
    (hJ : ∀ q ∈ qs, J q)
    (hI : ∀ next, answer = .ok (.reduced next) → ∀ child ∈ next, I child) :
    Descent 1 maySplit I J qs (answer.map GoalResult.next?) := by
  have hnext {goals : List Goal} (hgoals : answer.map GoalResult.next? = .ok (some goals)) :
      answer = .ok (.reduced goals) := by
    match answer, hgoals with
    | .ok (.reduced next), hgoals =>
      obtain rfl : next = goals := Option.some.inj (Except.ok.inj hgoals)
      rfl
  cases h with
  | leaf few _ done =>
    refine ⟨few, hJ, fun goals hgoals => ?_⟩
    obtain rfl := done goals (hnext hgoals)
    exact ⟨by rw [List.length_nil]; omega, fun _ => rfl, by simp⟩
  | split allowed _ few _ =>
    refine ⟨by simp, hJ, fun goals hgoals => ?_⟩
    obtain rfl := GoalResult.reduced.inj (Except.ok.inj (hnext hgoals))
    exact ⟨by simpa using few, fun hmay => absurd (hmay.symm.trans allowed) (by simp), hI _ rfl⟩

theorem logs_proveLevel
    (hgoal : ∀ goal, I goal → Inquiry.Logs asked (e.proveGoal existentials maySplit goal)
      fun qs _ answer => Descent 1 maySplit I' J qs (answer.map GoalResult.next?))
    {goals : List Goal} (hgoals : ∀ goal ∈ goals, I goal) :
    Inquiry.Logs asked (e.proveLevel existentials maySplit goals)
      fun qs _ answer => Descent goals.length maySplit I' J qs answer := by
  induction goals with
  | nil => exact .pure ⟨Nat.le_refl 0, by simp, by simp⟩
  | cons goal goals ih =>
    obtain ⟨hI, hrest⟩ := List.forall_mem_cons.mp hgoals
    unfold proveLevel
    refine .bind (hgoal goal hI) (fun qs cs result hfirst => ?_) fun qs cs r hfirst => ?_
    · cases result with
      | failed =>
        exact .pure ⟨hfirst.few.trans (by simp), hfirst.asked, by simp⟩
      | reduced next =>
        obtain ⟨hle, hend, hnext⟩ := hfirst.next next rfl
        have hasked {qs' : List Question} (hqs' : ∀ q ∈ qs', J q) : ∀ q ∈ qs' ++ qs, J q :=
          List.forall_mem_append.mpr ⟨hqs', hfirst.asked⟩
        refine .bind (ih hrest) (fun qs' cs' later hlater => ?_) fun qs' cs' r hlater => ?_
        · have hfew : (qs' ++ qs).length ≤ (goal :: goals).length := by
            rw [List.length_append, List.length_cons]
            exact Nat.add_le_add hlater.few hfirst.few
          cases later with
          | none => exact .pure ⟨hfew, hasked hlater.asked, by simp⟩
          | some later =>
            refine .pure ⟨hfew, hasked hlater.asked, fun all hall => ?_⟩
            obtain rfl := Option.some.inj (Except.ok.inj hall)
            obtain ⟨hle', hend', hnext'⟩ := hlater.next later rfl
            refine ⟨?_, fun hmay => by rw [hend hmay, hend' hmay]; rfl,
              List.forall_mem_append.mpr ⟨hnext, hnext'⟩⟩
            simp only [List.nil_append, List.length_append, List.length_cons]
            omega
        · refine ⟨?_, hasked hlater.asked, by simp⟩
          rw [List.length_append, List.length_cons]
          exact Nat.add_le_add hlater.few hfirst.few
    · exact ⟨hfirst.few.trans (by simp), hfirst.asked, by simp⟩

/-- The goals of which `n` more splits are allowed are `I n`, what is left of them is `I (n - 1)`, and
    their questions are `J`. -/
def Tracks (e : Engine σ) (asked : σ → List Question) (existentials : VarSet) (I : Nat → Goal → Prop)
    (J : Question → Prop) : Prop :=
  ∀ n goal, I n goal → Inquiry.Logs asked (e.proveGoal existentials (decide (0 < n)) goal)
    fun qs _ answer => Descent 1 (decide (0 < n)) (I (n - 1)) J qs (answer.map GoalResult.next?)

variable {I : Nat → Goal → Prop}

/-- The questions of a run: each level doubles the goals at most. -/
theorem logs_proveLevels (h : e.Tracks asked existentials I J) (n : Nat) {goals : List Goal}
    (hgoals : ∀ goal ∈ goals, I n goal) :
    Inquiry.Logs asked (e.proveLevels existentials n goals)
      fun qs _ _ => qs.length ≤ goals.length * 2 ^ n ∧ ∀ q ∈ qs, J q := by
  induction n generalizing goals with
  | zero =>
    unfold proveLevels
    have hlevel := logs_proveLevel (h 0) hgoals
    refine .bind hlevel (fun qs cs next hnext => ?_) fun qs cs r hnext => ?_
    · cases next <;> exact .pure ⟨by simpa using hnext.few, hnext.asked⟩
    · exact ⟨by simpa using hnext.few, hnext.asked⟩
  | succ n ih =>
    unfold proveLevels
    have hlevel := logs_proveLevel (h (n + 1)) hgoals
    have hpow : goals.length ≤ goals.length * 2 ^ (n + 1) :=
      Nat.le_mul_of_pos_right _ (Nat.two_pow_pos _)
    refine .bind hlevel (fun qs cs next hnext => ?_) fun qs cs r hnext => ?_
    · rcases next with _ | _ | ⟨goal, rest⟩
      · exact .pure ⟨hnext.few.trans hpow, hnext.asked⟩
      · exact .pure ⟨hnext.few.trans hpow, hnext.asked⟩
      · obtain ⟨hle, _, hrest⟩ := hnext.next (goal :: rest) rfl
        refine (ih hrest).mono fun qs' cs' answer hlater => ?_
        obtain ⟨hqs', hJ⟩ := hlater
        refine ⟨?_, ?_⟩
        · calc (qs' ++ qs).length
              = qs'.length + qs.length := List.length_append
            _ ≤ (goal :: rest).length * 2 ^ n + 2 * qs.length * 2 ^ n := by
                refine Nat.add_le_add hqs' ?_
                exact (Nat.le_mul_of_pos_left _ Nat.two_pos).trans
                  (Nat.le_mul_of_pos_right _ (Nat.two_pow_pos n))
            _ = (2 * qs.length + (goal :: rest).length) * 2 ^ n := by ring
            _ ≤ 2 * goals.length * 2 ^ n := Nat.mul_le_mul_right _ hle
            _ = goals.length * 2 ^ (n + 1) := by ring
        · exact List.forall_mem_append.mpr ⟨hJ, hnext.asked⟩
    · exact ⟨hnext.few.trans hpow, hnext.asked⟩

/-! ## The queue -/

theorem attempt_eq {n : Nat} {goal : Goal} (h : goal.splits.length + n = e.options.maxCaseSplits) :
    e.attempt existentials goal = e.proveGoal existentials (decide (0 < n)) goal := by
  have hiff : goal.splits.length < e.options.maxCaseSplits ↔ 0 < n := by omega
  rw [attempt, decide_eq_decide.mpr hiff]

theorem proveQueue_nil (budget : Nat) : e.proveQueue existentials budget [] = pure (some true) := by
  cases budget <;> rfl

/-- The queue takes the goals of a level before what is left of them. -/
theorem proveQueue_append {goals : List Goal}
    (hgoals : ∀ goal ∈ goals, e.attempt existentials goal = e.proveGoal existentials maySplit goal)
    (budget : Nat) (later : List Goal) :
    e.proveQueue existentials (goals.length + budget) (goals ++ later) = (do
      match ← e.proveLevel existentials maySplit goals with
      | none => return some false
      | some next => e.proveQueue existentials budget (later ++ next)) := by
  induction goals generalizing later with
  | nil =>
    rw [proveLevel, pure_bind, List.length_nil, Nat.zero_add, List.nil_append]
    dsimp only
    rw [List.append_nil]
  | cons goal goals ih =>
    obtain ⟨hfirst, hrest⟩ := List.forall_mem_cons.mp hgoals
    have hlength : (goal :: goals).length + budget = goals.length + budget + 1 := by
      rw [List.length_cons]
      omega
    rw [hlength, List.cons_append, proveQueue, proveLevel, bind_assoc, hfirst]
    refine bind_congr fun result => ?_
    cases result with
    | failed => rw [pure_bind]
    | reduced next =>
      dsimp only
      rw [List.append_assoc, ih hrest (later ++ next), bind_assoc]
      refine bind_congr fun rest => ?_
      cases rest with
      | none => rw [pure_bind]
      | some rest =>
        dsimp only
        rw [pure_bind, List.append_assoc]

theorem tracks_splits (e : Engine σ) (existentials : VarSet) :
    e.Tracks (fun _ => []) existentials
      (fun n goal => goal.splits.length + n = e.options.maxCaseSplits) fun _ => True := by
  intro n goal hn
  refine (logs_proveGoal e.oracle.notes_nothing existentials _ goal).mono
    fun qs cs answer hattempted => hattempted.descent (fun _ _ => trivial) ?_
  rintro next rfl child hchild
  obtain ⟨allowed, c, _, _, hsplits⟩ := hattempted.of_mem hchild
  have hpos : 0 < n := of_decide_eq_true allowed
  rw [hsplits, List.length_cons]
  omega

theorem proveQueue_level {n : Nat} {goals : List Goal}
    (hgoals : ∀ goal ∈ goals, goal.splits.length + n = e.options.maxCaseSplits) (budget : Nat) :
    e.proveQueue existentials (goals.length + budget) goals = (do
      match ← e.proveLevel existentials (decide (0 < n)) goals with
      | none => return some false
      | some next => e.proveQueue existentials budget next) := by
  have hattempt : ∀ goal ∈ goals, e.attempt existentials goal =
      e.proveGoal existentials (decide (0 < n)) goal :=
    fun goal hgoal => attempt_eq (hgoals goal hgoal)
  have happend := proveQueue_append hattempt budget []
  rw [List.append_nil] at happend
  exact happend

/-- A queue of goals of which `n` more splits are allowed is a run over `n` levels. -/
theorem proveQueue_eq {n : Nat} {goals : List Goal}
    (hgoals : ∀ goal ∈ goals, goal.splits.length + n = e.options.maxCaseSplits) {budget : Nat}
    (hbudget : goals.length * (2 ^ (n + 1) - 1) ≤ budget) :
    e.proveQueue existentials budget goals = some <$> e.proveLevels existentials n goals := by
  have hone (k : Nat) : 1 ≤ 2 ^ (k + 1) - 1 := by
    have hpos := Nat.two_pow_pos k
    omega
  induction n generalizing goals budget with
  | zero =>
    obtain ⟨rest, rfl⟩ : ∃ rest, budget = goals.length + rest :=
      Nat.exists_eq_add_of_le ((Nat.le_mul_of_pos_right _ (hone 0)).trans hbudget)
    rw [proveQueue_level hgoals, proveLevels, map_bind]
    refine (logs_proveLevel (tracks_splits e existentials 0) hgoals).bind_congr
      fun qs cs next hnext => ?_
    cases next with
    | none => rw [map_pure]
    | some next =>
      obtain ⟨_, hend, _⟩ := hnext.next next rfl
      obtain rfl := hend rfl
      rw [map_pure]
      exact proveQueue_nil rest
  | succ n ih =>
    obtain ⟨rest, rfl⟩ : ∃ rest, budget = goals.length + rest :=
      Nat.exists_eq_add_of_le ((Nat.le_mul_of_pos_right _ (hone (n + 1))).trans hbudget)
    rw [proveQueue_level hgoals, proveLevels, map_bind]
    refine (logs_proveLevel (tracks_splits e existentials (n + 1)) hgoals).bind_congr
      fun qs cs next hnext => ?_
    rcases next with _ | _ | ⟨goal, later⟩
    · rw [map_pure]
    · rw [map_pure]
      exact proveQueue_nil rest
    · obtain ⟨hle, _, hrest⟩ := hnext.next (goal :: later) rfl
      refine ih hrest ?_
      -- what is left of twice the goals and one, once the goals are taken, is twice the goals
      obtain ⟨k, hk⟩ : ∃ k, 2 ^ (n + 1) = k + 1 := Nat.exists_eq_add_one.mpr (Nat.two_pow_pos _)
      rw [Nat.pow_succ, hk, show (k + 1) * 2 - 1 = 2 * k + 1 by omega, Nat.mul_add,
        Nat.mul_one, Nat.add_comm] at hbudget
      rw [hk, Nat.add_sub_cancel]
      calc (goal :: later).length * k
          ≤ 2 * goals.length * k := Nat.mul_le_mul_right k (by omega)
        _ = goals.length * (2 * k) := by ring
        _ ≤ rest := Nat.le_of_add_le_add_left hbudget

/-! ## The bounds -/

/-- Every goal that is worked on is on a path, and so is every goal that asks a question. -/
theorem tracks_path {e : Engine (σ × List Question)} (horacle : e.oracle.Notes Prod.snd)
    (existentials : VarSet) (left right : Formula) :
    e.Tracks Prod.snd existentials
      (fun n goal => ∃ conditions, e.Path existentials left right conditions goal ∧
        conditions.length + n = e.options.maxCaseSplits)
      fun q => ∃ conditions goal, e.Path existentials left right conditions goal ∧
        e.Asks existentials goal q := by
  rintro n goal ⟨conditions, path, hlength⟩ s
  obtain ⟨hsplits, _, _⟩ := path.spec
  have hattempt : e.attempt existentials goal = e.proveGoal existentials (decide (0 < n)) goal :=
    attempt_eq (by rw [hsplits, hlength])
  obtain ⟨qs, cs, ⟨hasked, ds, hds, hcs⟩, hattempted⟩ :=
    logs_proveGoal horacle existentials (decide (0 < n)) goal s
  refine ⟨qs, cs, ⟨hasked, ds, hds, hcs⟩, hattempted.descent
    (fun q hq => ⟨conditions, goal, path, s, qs, by rw [hattempt]; exact hasked, hq⟩)
    fun next hnext child hchild => ?_⟩
  rw [hnext] at hattempted
  obtain ⟨allowed, c, rfl, _, _⟩ := hattempted.of_mem hchild
  refine ⟨[c] ++ conditions, path.child ⟨s, ds, ?_, ?_, hcs⟩ hchild, ?_⟩
  · rw [hattempt]
    exact hnext
  · rw [hattempt]
    exact hds
  · have hpos : 0 < n := of_decide_eq_true allowed
    rw [List.length_append, List.length_singleton]
    omega

/-- The questions of a whole run. -/
theorem logs_implies {e : Engine (σ × List Question)} (horacle : e.oracle.Notes Prod.snd)
    (left right : Formula) (existentials : VarSet) :
    Inquiry.Logs Prod.snd (e.implies left right existentials) fun qs _ _ =>
      qs.length ≤ 2 ^ e.options.maxCaseSplits ∧
        ∀ q ∈ qs, ∃ conditions goal, e.Path existentials left right conditions goal ∧
          e.Asks existentials goal q := by
  have hsimplify : Work.Quiet Prod.snd (e.simplify .default false left) fun answer =>
      ∃ s, (e.simplify .default false left s).1 = answer := by
    intro s
    obtain ⟨qs, cs, hmoves, hqs, hcs, _⟩ := quiet_simplify .default false left s
    exact ⟨qs, cs, hmoves, hqs, hcs, s, rfl⟩
  unfold implies
  refine .emit_bind rfl (.lift_bind hsimplify fun answer hanswer => ?_)
  match answer with
  | .error (.refuted _) => exact .pure (by simp)
  | .error .exhausted => exact .pure (by simp)
  | .ok S =>
    obtain ⟨s, hs⟩ := hanswer
    refine (logs_proveLevels (tracks_path horacle existentials left right) _ ?_).mono
      fun qs _ _ ⟨hqs, hasks⟩ => ⟨by simpa using hqs, hasks⟩
    exact List.forall_mem_singleton.mpr ⟨[], .root hs, Nat.zero_add _⟩

theorem impliesQueue_eq (e : Engine σ) (left right : Formula) (existentials : VarSet) :
    e.impliesQueue (2 ^ (e.options.maxCaseSplits + 1) - 1) left right existentials =
      some <$> e.implies left right existentials := by
  unfold impliesQueue implies
  rw [map_bind]
  refine bind_congr fun _ => ?_
  rw [map_bind]
  refine bind_congr fun answer => ?_
  match answer with
  | .error (.refuted _) => rw [map_pure]
  | .error .exhausted => rw [map_pure]
  | .ok S => exact proveQueue_eq (by simp) (by simp)

/-- **Case splits are bounded, and the oracle is asked last.** With at most `m` splits the queue of
    goals is empty or fails after `2 ^ (m + 1) - 1` goals. On every path the splits are on at most `m`
    conditions that differ. The oracle is asked `2 ^ m` questions at most, each for a goal on a path;
    and a goal with fewer than `m` splits asks only about a right side all of whose conditions it was
    split on. -/
theorem case_splits_bounded (e : Engine σ) (left right : Formula) (existentials : VarSet) :
    e.impliesQueue (2 ^ (e.options.maxCaseSplits + 1) - 1) left right existentials =
      some <$> e.implies left right existentials ∧
    (∀ conditions goal, e.Path existentials left right conditions goal →
      goal.splits = conditions ∧ conditions.Pairwise (fun c c' => (c == c') = false) ∧
        conditions.length ≤ e.options.maxCaseSplits) ∧
    (∀ s, ((e.noting.implies left right existentials).run s).1 =
        ((e.implies left right existentials).run s.unnoted).1 ∧
      ∃ qs, ((e.noting.implies left right existentials).run s).2.oracle.2 = qs ++ s.oracle.2 ∧
        qs.length ≤ 2 ^ e.options.maxCaseSplits ∧
        ∀ q ∈ qs, ∃ conditions goal, e.noting.Path existentials left right conditions goal ∧
          e.noting.Asks existentials goal q) ∧
    (∀ conditions goal q, e.noting.Path existentials left right conditions goal →
      conditions.length < e.options.maxCaseSplits → e.noting.Asks existentials goal q →
        q.Decided conditions) := by
  have hnotes : e.noting.oracle.Notes Prod.snd := e.oracle.notes_noting
  refine ⟨impliesQueue_eq e left right existentials, fun _ _ path => path.spec, fun s => ?_,
    fun _ _ _ path hlt hasks => path.decided hnotes hlt hasks⟩
  obtain ⟨qs, cs, hmoves, hle, hasks⟩ := logs_implies hnotes left right existentials s
  exact ⟨implies_noting e left right existentials s, qs, hmoves.asked, hle, hasks⟩

end Engine

/-! ### A split and the question after it -/

namespace Known

/-- What is left to show when `B` is true. -/
def whenTrue : Goal := ⟨.all ⟨[(b, .bool true)]⟩ [] [], less bound, [.var b]⟩

/-- What is left to show when `B` is false. -/
def whenFalse : Goal := ⟨.all ⟨[(b, .bool false)]⟩ [] [], less bound, [.var b]⟩

/-- Whether `1 <Int X` -/
def question : Question := .implies ⟨.initialization, 5000⟩ .top (less (.int 1)) []

/-- The bound holds if it does in both cases, and in the first one a question is left without a
    condition. -/
theorem case_splits_bounded_whenTrue :
    engine.noting.Path [] .top (less bound) [.var b] whenTrue ∧
      engine.noting.Asks [] whenTrue question ∧ question.Decided [.var b] ∧
        [Term.var b].length ≤ engine.options.maxCaseSplits := by
  let start : Session (Unit × List Question) := .fresh engine.options ((), [])
  have hroot : engine.noting.Path [] .top (less bound) [] ⟨.top, less bound, []⟩ :=
    .root (s := start) (by cbv)
  have hleaves : engine.noting.Leaves [] ⟨.top, less bound, []⟩ [.var b] [whenTrue, whenFalse] :=
    ⟨start, [.event (.caseSplit (.var b))], by cbv, by cbv, by cbv⟩
  have hpath : engine.noting.Path [] .top (less bound) [.var b] whenTrue :=
    .child hroot hleaves (by simp)
  have hasks : engine.noting.Asks [] whenTrue question := ⟨start, [question], by cbv, by simp⟩
  obtain ⟨_, _, _, hdecided⟩ := engine.case_splits_bounded .top (less bound) []
  obtain ⟨_, hpaths, _⟩ := engine.noting.case_splits_bounded .top (less bound) []
  obtain ⟨_, _, hle⟩ := hpaths _ _ hpath
  exact ⟨hpath, hasks, hdecided _ _ _ hpath (by decide) hasks, hle⟩

end Known

end Entail
