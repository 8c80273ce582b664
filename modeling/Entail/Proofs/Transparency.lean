import Entail.Proofs.Agreement
import Entail.Proofs.Entailment
import Entail.Proofs.Matching

set_option autoImplicit false

/-! # Transparent caches

What is found in a cache was computed before, for a formula that compares equal. Where symbols have
agreed signatures that is the same formula, so an engine with caches answers every sequence of
questions as one without them does. -/

namespace Entail

variable {σ : Type}

/-! ## Faithful caches -/

/-- What the oracle answers depends on nothing but the formulas and the existential variables. -/
structure Oracle.Steady (o : Oracle σ) : Prop where
  unsat : ∀ φ request request' s s',
    (o.checkUnsat φ request s).1.answer = (o.checkUnsat φ request' s').1.answer
  implies : ∀ left right existentials request request' s s',
    (o.implies left right existentials request s).1.answer =
      (o.implies left right existentials request' s').1.answer

theorem Oracle.steady_disabled : (Oracle.disabled σ).Steady where
  unsat _ _ _ _ _ := rfl
  implies _ _ _ _ _ _ _ := rfl

namespace Engine

variable (e : Engine σ)

/-- The engine without its caches. -/
def uncached : Engine σ :=
  { e with options := { e.options with cacheSimplifications := false, cacheImplications := false } }

/-- A result of simplification, of the formula or of a coherent one that compares equal. -/
def Computed (sigs : Signatures) (mode : SimplifyMode) (φ : Formula) (answer : Simplified) : Prop :=
  ∃ ψ : Formula, ψ.bare = φ.bare ∧ ψ.Coherent sigs ∧
    ψ.simplify e.vocabulary e.unifier mode = answer

/-- What the oracle says of an implication between coherent formulas that are not false. -/
structure Decides (sigs : Signatures) (key : ImplicationKey) (answer : Bool) : Prop where
  left : key.left.Coherent sigs ∧ key.left.isFalse = false
  right : key.right.Coherent sigs ∧ key.right.isFalse = false
  answer : ∀ request s,
    (e.oracle.implies key.left key.right key.existentials request s).1.answer = .ok answer

/-- The caches hold what would be computed again. -/
abbrev Faithful (sigs : Signatures) : Session σ → Prop :=
  Session.Holding (e.Computed sigs) (e.Decides sigs)

variable {e : Engine σ} {sigs : Signatures}

theorem Decides.unique {key : ImplicationKey} {answer answer' : Bool}
    (h : e.Decides sigs key answer) (h' : e.Decides sigs key answer') (request : Request)
    (s : σ) : answer = answer' :=
  Except.ok.inj ((h.answer request s).symm.trans (h'.answer request s))

theorem faithful_fresh (options : EngineOptions) (s : σ) :
    e.Faithful sigs (.fresh options s) := ⟨nofun, nofun⟩

theorem faithful_report (s : Session σ) (ds : List Diagnostic) (hs : e.Faithful sigs s) :
    e.Faithful sigs { s with diagnostics := s.diagnostics ++ ds } :=
  ⟨hs.simplifications, hs.implications⟩

theorem answers_computed (J : Diagnostic → Prop) :
    e.Answers J (fun φ => φ.Coherent sigs) (e.Computed sigs) where
  congr h heq := by
    obtain ⟨ψ, hψ, hrest⟩ := h
    exact ⟨ψ, hψ.trans heq, hrest⟩
  self hφ hanswer _ := ⟨_, rfl, hφ, hanswer⟩

/-! ## Simplification -/

variable {φ : Formula}

theorem computeSimplified_fst (e : Engine σ) (mode : SimplifyMode) (logFailures : Bool)
    (φ : Formula) (s : Session σ) : (e.computeSimplified mode logFailures φ s).1 =
      φ.simplifyWithin e.vocabulary e.unifier mode φ.stepBound := by
  unfold computeSimplified
  generalize φ.simplifyWithin e.vocabulary e.unifier mode φ.stepBound = answer
  match answer with
  | .ok _ | .error .exhausted | .error (.refuted _) => rfl

/-- Without a cache the answer is computed. -/
theorem simplify_uncached (mode : SimplifyMode) (logFailures : Bool) (φ : Formula) (s : Session σ) :
    (e.uncached.simplify mode logFailures φ s).1 = φ.simplify e.vocabulary e.unifier mode := by
  cases φ with
  | falsified w => rfl
  | all b es ds =>
    unfold simplify Formula.simplify
    dsimp only
    split
    · rfl
    · rw [if_pos (show (!e.uncached.options.cacheSimplifications) = true from rfl)]
      exact e.uncached.computeSimplified_fst mode logFailures _ s

theorem matches_simplify (hunifier : e.unifier.Keeps sigs) (mode : SimplifyMode)
    (logFailures : Bool) (hφ : φ.Coherent sigs) :
    Work.Matches (e.Faithful sigs) (e.simplify mode logFailures φ)
      (e.uncached.simplify mode logFailures φ) fun answer =>
        ∀ S, answer = .ok S → S.Coherent sigs := by
  intro s s' hs
  obtain ⟨hkeeps, ψ, hψ, hcoherent, hcomputed⟩ :=
    (holding_simplify (B := e.Decides sigs) (answers_computed fun _ => True) mode logFailures
      φ).holds hφ s hs fun _ _ => trivial
  refine ⟨hkeeps, ?_, fun S hS => ?_⟩
  · rw [simplify_uncached]
    cases φ with
    | falsified w => rfl
    | all b es ds =>
      rw [← hcomputed, Formula.eq_of_bare hφ hcoherent rfl hψ.symm]
  · rw [hS] at hcomputed
    exact Formula.coherent_simplify hunifier hcoherent.agreed hcomputed

/-! ## The oracle -/

theorem matches_ask {question question' : Session σ → Verdict × σ}
    (h : ∀ s s', (question s).1.answer = (question' s').1.answer) :
    Inquiry.Matches (e.Faithful sigs) (ask question) (ask question') fun _ => True :=
  fun s s' hs => ⟨⟨hs.simplifications, hs.implications⟩, h s s', fun _ _ => trivial⟩

theorem matches_checkUnsat (horacle : e.oracle.Steady) (φ : Formula) :
    Inquiry.Matches (e.Faithful sigs) (e.checkUnsat φ) (e.uncached.checkUnsat φ) fun _ => True := by
  unfold checkUnsat
  split
  · exact .pure trivial
  · exact matches_ask fun s s' => horacle.unsat φ _ _ s.oracle s'.oracle

variable {left right : Formula} {existentials : VarSet}

/-- What is found of an implication between coherent formulas is what the oracle says. -/
theorem decided_of_get? {s : Session σ} (hs : e.Faithful sigs s) {key : ImplicationKey}
    (hleft : key.left.Coherent sigs) (hright : key.right.Coherent sigs) {stored : Bool}
    (h : s.implications.get? key = some stored) : e.Decides sigs key stored := by
  obtain ⟨⟨key', answer⟩, hentry, hl, hr, hexistentials, rfl⟩ := ImplicationCache.mem_of_get? h
  have hdecided := hs.implications _ hentry
  obtain ⟨l, r, vars⟩ := key'
  obtain rfl := Formula.eq_of_bare hdecided.left.1 hleft hdecided.left.2 hl
  obtain rfl := Formula.eq_of_bare hdecided.right.1 hright hdecided.right.2 hr
  obtain rfl : vars = key.existentials := hexistentials
  exact hdecided

theorem matches_askImpliesCached (horacle : e.oracle.Steady)
    (hleft : left.Coherent sigs ∧ left.isFalse = false)
    (hright : right.Coherent sigs ∧ right.isFalse = false) :
    Inquiry.Matches (e.Faithful sigs) (e.askImpliesCached left right existentials)
      (e.uncached.askImpliesCached left right existentials) fun _ => True := by
  have hasks : e.uncached.askImpliesCached left right existentials =
      e.uncached.askImplies left right existentials := rfl
  rw [hasks]
  have hask : Inquiry.Matches (e.Faithful sigs) (e.askImplies left right existentials)
      (e.uncached.askImplies left right existentials)
      (e.Decides sigs ⟨left, right, existentials⟩) := by
    intro s s' hs
    exact ⟨⟨hs.simplifications, hs.implications⟩, horacle.implies left right existentials _ _ _ _,
      fun answer hanswer => ⟨hleft, hright, fun request t =>
        (horacle.implies left right existentials _ _ _ _).trans hanswer⟩⟩
  unfold askImpliesCached
  split
  · exact hask.imp fun _ _ => trivial
  refine .get_bind fun s hs => ?_
  split
  · -- what is found is what the oracle would say
    rename_i stored hget
    have hdecided := decided_of_get? hs hleft.1 hright.1 hget
    refine .modify_bind (fun t ht => ⟨ht.simplifications, ht.implications⟩) ?_
    exact fun t t' ht => ⟨ht, (hdecided.answer _ _).symm, fun _ _ => trivial⟩
  · refine .modify_bind (fun t ht => ⟨ht.simplifications, ht.implications⟩) ?_
    rw [← bind_pure (e.uncached.askImplies left right existentials)]
    refine .bind hask fun answer hdecided => .get_bind fun t ht => ?_
    dsimp only
    obtain ⟨hstored, hentries⟩ := t.implications.insert_spec ⟨left, right, existentials⟩ answer
    refine .modify_bind (fun t' ht' => ⟨ht'.simplifications, fun entry hentry => ?_⟩) ?_
    · rcases hentries entry hentry with rfl | hentry
      · exact hdecided
      · exact ht.implications entry hentry
    · have hsame : (t.implications.insert ⟨left, right, existentials⟩ answer).1 = answer := by
        rcases hstored with hstored | hget
        · exact hstored
        · have hstored := decided_of_get? ht hleft.1 hright.1 hget
          exact hstored.unique hdecided (e.implicationRequest t) t.oracle
      rw [hsame]
      exact .pure trivial

end Engine

/-! ## Goals -/

namespace Formula

variable {sigs : Signatures} {φ ψ : Formula}

theorem coherent_rewrite (voc : Vocabulary) (facts : Facts) (hψ : ψ.Agreed sigs)
    (hφ : φ.Agreed sigs) : (φ.rewrite voc facts ψ.bindings.get?).Coherent sigs :=
  ⟨within_rewritten (Within.bindings hψ) hφ, grows_tidy.rewrite voc facts _ φ⟩

theorem Coherent.orient (hφ : φ.Coherent sigs) (voc : Vocabulary) (vars : VarSet) :
    (φ.orient voc .unknown vars).Coherent sigs :=
  ⟨within_orient hφ.agreed, kept_tidy.orient voc .unknown hφ.tidy vars⟩

theorem Coherent.without (hφ : φ.Coherent sigs) (ψ : Formula) : (ψ.without φ).Coherent sigs :=
  ⟨each_without hφ.agreed, kept_tidy.without ψ hφ.tidy⟩

theorem Coherent.addTerms (hφ : φ.Coherent sigs) {t u : Term} (ht : t.Agreed sigs)
    (hu : u.Agreed sigs) : (φ.addTerms t u).Coherent sigs :=
  ⟨everywhere_addEquality (fun _ => trivial) hφ.agreed ⟨ht, hu⟩, grows_tidy.addEquality hφ.tidy _⟩

theorem Coherent.unbound (hφ : φ.Coherent sigs) :
    (all .empty φ.equalities φ.disjunctions).Coherent sigs := by
  cases φ with
  | falsified w => exact ⟨(everywhere_all_iff _ _ _).mpr ⟨nofun, nofun, nofun⟩, tidy_top⟩
  | all s es ds =>
    obtain ⟨_, hes, hds⟩ := (everywhere_all_iff s es ds).mp hφ.agreed
    exact ⟨(everywhere_all_iff _ es ds).mpr ⟨nofun, hes, hds⟩,
      tidy_of_subset hφ.tidy (List.Subset.refl es) (List.Subset.refl ds)⟩

end Formula

/-- Both sides of a goal are coherent. -/
structure Goal.Coherent (sigs : Signatures) (goal : Goal) : Prop where
  left : goal.left.Coherent sigs
  right : goal.right.Coherent sigs

/-- The goals that are left of a goal are coherent. -/
def GoalResult.Coherent (sigs : Signatures) : GoalResult → Prop
  | .failed => True
  | .reduced goals => ∀ goal ∈ goals, goal.Coherent sigs

namespace Engine

variable {e : Engine σ} {sigs : Signatures} {left right : Formula} {existentials : VarSet}

theorem matches_reduce (hunifier : e.unifier.Keeps sigs) (hleft : left.Coherent sigs)
    (hright : right.Coherent sigs) :
    Work.Matches (e.Faithful sigs) (e.reduce left right existentials)
      (e.uncached.reduce left right existentials) fun answer =>
        ∀ S, answer = .ok S → S.Coherent sigs := by
  unfold reduce
  refine .bind (matches_simplify hunifier .default false (Formula.coherent_rewrite e.vocabulary _
    hleft.agreed (hright.orient e.vocabulary existentials).agreed)) fun answer hanswer => ?_
  cases answer with
  | error halt => exact .pure fun S hS => absurd hS nofun
  | ok S =>
    refine .pure fun S' hS' => ?_
    obtain rfl := Except.ok.inj hS'
    exact ((hanswer S rfl).without left).orient e.vocabulary existentials

theorem matches_branches (hunifier : e.unifier.Keeps sigs) (hleft : left.Coherent sigs)
    (hright : right.Coherent sigs) {c : Term} (hc : c.Agreed sigs) (splits : List Term)
    (values : List Bool) :
    Work.Matches (e.Faithful sigs) (e.branches left right c splits values)
      (e.uncached.branches left right c splits values) fun goals =>
        ∀ goal ∈ goals, goal.Coherent sigs := by
  induction values with
  | nil => exact .pure (by simp)
  | cons value values ih =>
    unfold branches
    have hassumed : (left.addTerms c (.bool value)).Coherent sigs := hleft.addTerms hc trivial
    refine .bind (matches_simplify hunifier .default false hassumed) fun branch hbranch => ?_
    refine .bind ih fun rest hrest => ?_
    cases branch with
    | ok branch => exact .pure (List.forall_mem_cons.mpr ⟨⟨hbranch branch rfl, hright⟩, hrest⟩)
    | error halt =>
      cases halt with
      | refuted _ => exact .pure hrest
      | exhausted => exact .pure (List.forall_mem_cons.mpr ⟨⟨hassumed, hright⟩, hrest⟩)

theorem matches_proveWithOracle (horacle : e.oracle.Steady) (hleft : left.Coherent sigs)
    (hright : right.Coherent sigs) (hopen : right.isFalse = false) :
    Inquiry.Matches (e.Faithful sigs) (e.proveWithOracle left right existentials)
      (e.uncached.proveWithOracle left right existentials) fun _ => True := by
  unfold proveWithOracle
  refine .bind (matches_askImpliesCached horacle ⟨hleft.unbound, rfl⟩ ⟨hright, hopen⟩)
    fun proved _ => ?_
  cases proved with
  | true => exact .bind (Inquiry.matches_emit faithful_report _) fun _ _ => .pure trivial
  | false =>
    refine .bind (Inquiry.matches_emit faithful_report _) fun _ _ => ?_
    change Inquiry.Matches _ (if e.options.debugFormulas then _ else _)
      (if e.options.debugFormulas then _ else _) _
    split
    · exact .bind (Inquiry.matches_debug faithful_report _) fun _ _ => .pure trivial
    · exact .pure trivial

/-- A false formula has nothing left to show. -/
theorem isFalse_of_not_discharged {φ : Formula} (h : isDischarged φ existentials = false) :
    φ.isFalse = false := by
  cases φ with
  | falsified w => exact absurd h nofun
  | all s es ds => rfl

theorem matches_proveReduced (hunifier : e.unifier.Keeps sigs) (horacle : e.oracle.Steady)
    (hleft : left.Coherent sigs) (hright : right.Coherent sigs) (maySplit : Bool)
    (splits : List Term) :
    Inquiry.Matches (e.Faithful sigs) (e.proveReduced existentials maySplit left right splits)
      (e.uncached.proveReduced existentials maySplit left right splits)
      (GoalResult.Coherent sigs) := by
  unfold proveReduced
  cases hdischarged : isDischarged right existentials with
  | true => exact .bind (Inquiry.matches_emit faithful_report _) fun _ _ => .pure nofun
  | false =>
    have hopen := isFalse_of_not_discharged hdischarged
    have hconditions (c : Term) (hfound : (if maySplit then
        right.conditions.find? (fun c => !splits.contains c) else none) = some c) :
        c ∈ right.conditions := by
      split at hfound
      · exact List.mem_of_find?_eq_some hfound
      · exact absurd hfound nofun
    generalize (if maySplit then right.conditions.find? (fun c => !splits.contains c) else none) =
      found at hconditions
    cases found with
    | some c =>
      have hc := Formula.Each.of_mem_conditions hright.agreed (hconditions c rfl)
      refine .bind (Inquiry.matches_emit faithful_report _) fun _ _ => ?_
      exact .bind (Inquiry.matches_lift (matches_branches hunifier hleft hright hc _ _))
        fun goals hgoals => .pure hgoals
    | none =>
      refine .bind (matches_proveWithOracle horacle hleft hright hopen) fun proved _ => ?_
      cases proved with
      | true => exact .pure nofun
      | false => exact .pure trivial

theorem matches_proveGoal (hunifier : e.unifier.Keeps sigs) (horacle : e.oracle.Steady)
    (maySplit : Bool) {goal : Goal} (hgoal : goal.Coherent sigs) :
    Inquiry.Matches (e.Faithful sigs) (e.proveGoal existentials maySplit goal)
      (e.uncached.proveGoal existentials maySplit goal) (GoalResult.Coherent sigs) := by
  unfold proveGoal
  cases goal.left.isFalseExtended with
  | true => exact .pure nofun
  | false =>
    refine .bind (Inquiry.matches_lift (matches_reduce hunifier hgoal.left hgoal.right))
      fun answer hanswer => ?_
    match answer with
    | .error (.refuted r) =>
      refine .bind (Inquiry.matches_debug faithful_report _) fun _ _ => ?_
      refine .bind (matches_checkUnsat horacle goal.left) fun unsat _ => ?_
      cases unsat with
      | true => exact .pure nofun
      | false => exact .pure trivial
    | .error .exhausted => exact .pure trivial
    | .ok S =>
      exact matches_proveReduced hunifier horacle hgoal.left (hanswer S rfl) maySplit goal.splits

theorem matches_proveLevel (hunifier : e.unifier.Keeps sigs) (horacle : e.oracle.Steady)
    (maySplit : Bool) {goals : List Goal} (hgoals : ∀ goal ∈ goals, goal.Coherent sigs) :
    Inquiry.Matches (e.Faithful sigs) (e.proveLevel existentials maySplit goals)
      (e.uncached.proveLevel existentials maySplit goals) fun answer =>
        ∀ next, answer = some next → ∀ goal ∈ next, goal.Coherent sigs := by
  induction goals with
  | nil => exact .pure (by simp)
  | cons goal goals ih =>
    rw [List.forall_mem_cons] at hgoals
    unfold proveLevel
    refine .bind (matches_proveGoal hunifier horacle maySplit hgoals.1) fun result hresult => ?_
    cases result with
    | failed => exact .pure fun next hnext => absurd hnext (by simp)
    | reduced first =>
      refine .bind (ih hgoals.2) fun answer hanswer => ?_
      cases answer with
      | none => exact .pure fun next hnext => absurd hnext (by simp)
      | some later =>
        refine .pure fun next hnext => ?_
        obtain rfl := Option.some.inj hnext
        exact List.forall_mem_append.mpr ⟨hresult, hanswer later rfl⟩

theorem matches_proveLevels (hunifier : e.unifier.Keeps sigs) (horacle : e.oracle.Steady)
    (n : Nat) {goals : List Goal} (hgoals : ∀ goal ∈ goals, goal.Coherent sigs) :
    Inquiry.Matches (e.Faithful sigs) (e.proveLevels existentials n goals)
      (e.uncached.proveLevels existentials n goals) fun _ => True := by
  induction n generalizing goals with
  | zero =>
    unfold proveLevels
    refine .bind (matches_proveLevel hunifier horacle false hgoals) fun answer _ => ?_
    cases answer with
    | none => exact .pure trivial
    | some next => exact .pure trivial
  | succ n ih =>
    unfold proveLevels
    refine .bind (matches_proveLevel hunifier horacle true hgoals) fun answer hanswer => ?_
    rcases answer with _ | _ | ⟨goal, rest⟩
    · exact .pure trivial
    · exact .pure trivial
    · exact ih (hanswer _ rfl)

theorem matches_implies (hunifier : e.unifier.Keeps sigs) (horacle : e.oracle.Steady)
    (hleft : left.Coherent sigs) (hright : right.Coherent sigs) (existentials : VarSet) :
    Inquiry.Matches (e.Faithful sigs) (e.implies left right existentials)
      (e.uncached.implies left right existentials) fun _ => True := by
  unfold implies
  refine .bind (Inquiry.matches_emit faithful_report _) fun _ _ => ?_
  refine .bind (Inquiry.matches_lift (matches_simplify hunifier .default false hleft))
    fun answer hanswer => ?_
  match answer with
  | .error (.refuted _) => exact .pure trivial
  | .error .exhausted => exact .pure trivial
  | .ok S =>
    exact matches_proveLevels hunifier horacle _
      (List.forall_mem_singleton.mpr ⟨hanswer S rfl, hright⟩)

end Engine

/-! ## Sequences of questions -/

/-- A question to an engine. -/
inductive Call where
  | simplify (mode : SimplifyMode) (logFailures : Bool) (φ : Formula)
  | implies (left right : Formula) (existentials : VarSet)
  | smartImplies (left right : Formula)
  | checkUnsat (φ : Formula)

/-- The formulas a question is about. -/
def Call.formulas : Call → List Formula
  | .simplify _ _ φ => [φ]
  | .implies left right _ => [left, right]
  | .smartImplies left right => [left, right]
  | .checkUnsat φ => [φ]

/-- The answer to a question. -/
inductive Reply where
  | simplified (answer : Simplified)
  | decided (answer : Except Refusal Bool)

namespace Engine

/-- Answer a question. -/
def call (e : Engine σ) : Call → Work σ Reply
  | .simplify mode logFailures φ => return .simplified (← e.simplify mode logFailures φ)
  | .implies left right existentials => return .decided (← (e.implies left right existentials).run)
  | .smartImplies left right => return .decided (← (e.smartImplies left right).run)
  | .checkUnsat φ => return .decided (← (e.checkUnsat φ).run)

variable {e : Engine σ} {sigs : Signatures}

theorem matches_call (hunifier : e.unifier.Keeps sigs) (horacle : e.oracle.Steady) {c : Call}
    (hc : ∀ φ ∈ c.formulas, φ.Coherent sigs) :
    Work.Matches (e.Faithful sigs) (e.call c) (e.uncached.call c) fun _ => True := by
  cases c with
  | simplify mode logFailures φ =>
    exact .bind (matches_simplify hunifier mode logFailures (hc φ (List.mem_singleton.mpr rfl)))
      fun _ _ => .pure trivial
  | implies left right existentials =>
    have hright := hc right (List.mem_cons_of_mem _ (List.mem_singleton.mpr rfl))
    exact .bind (matches_implies hunifier horacle (hc left (List.mem_cons_self ..)) hright
      existentials) fun _ _ => .pure trivial
  | smartImplies left right =>
    have hleft := hc left (List.mem_cons_self ..)
    have hright := hc right (List.mem_cons_of_mem _ (List.mem_singleton.mpr rfl))
    exact .bind (matches_implies hunifier horacle hleft
      (Formula.coherent_rewrite e.vocabulary .unknown hleft.agreed hright.agreed) [])
      fun _ _ => .pure trivial
  | checkUnsat φ => exact .bind (matches_checkUnsat horacle φ) fun _ _ => .pure trivial

/-- Question after question, an engine answers as one without caches does that starts afresh. -/
theorem replies_eq (hunifier : e.unifier.Keeps sigs) (horacle : e.oracle.Steady) {calls : List Call}
    (hcalls : ∀ c ∈ calls, ∀ φ ∈ c.formulas, φ.Coherent sigs) {s : Session σ}
    (hs : e.Faithful sigs s) (fresh : Session σ) :
    (calls.mapM e.call s).1 = calls.map fun c => (e.uncached.call c fresh).1 := by
  induction calls generalizing s with
  | nil => rfl
  | cons c calls ih =>
    rw [List.forall_mem_cons] at hcalls
    obtain ⟨hkeeps, hsame, _⟩ := matches_call hunifier horacle hcalls.1 s fresh hs
    rw [List.mapM_cons]
    exact congrArg₂ List.cons hsame (ih hcalls.2 hkeeps)

/-- **Caches are transparent.** Whatever is kept of earlier answers, and however much of it, every
    question in a sequence is answered as by a new engine without caches, if the oracle is steady
    and symbols of one name and kind have one list of signatures. -/
theorem caches_transparent (hunifier : e.unifier.Keeps sigs) (horacle : e.oracle.Steady)
    (calls : List Call) (hcalls : ∀ c ∈ calls, ∀ φ ∈ c.formulas, φ.Built ∧ φ.Agreed sigs)
    (oracle oracle' : σ) :
    ((calls.mapM e.call).run (.fresh e.options oracle)).1 =
      calls.map fun c => ((e.uncached.call c).run (.fresh e.uncached.options oracle')).1 :=
  replies_eq hunifier horacle (fun c hc φ hφ => ⟨(hcalls c hc φ hφ).2, (hcalls c hc φ hφ).1.tidy⟩)
    (faithful_fresh e.options oracle) _

end Engine

/-! ### Two symbols of one name -/

namespace Homonyms

/-- `B` lies below `A`. -/
def vocabulary : Vocabulary := Vocabulary.initial.addSubsort ⟨"A"⟩ ⟨"B"⟩

/-- From `A` to `S`. -/
def f : Symbol := ⟨"f", .function, [⟨[⟨"A"⟩], ⟨"S"⟩⟩]⟩

/-- From `A` to `S`, and from `B` to `T`. -/
def overloaded : Symbol := ⟨"f", .function, [⟨[⟨"A"⟩], ⟨"S"⟩⟩, ⟨[⟨"B"⟩], ⟨"T"⟩⟩]⟩

def x : Variable := ⟨"X", ⟨"S"⟩⟩

def y : Variable := ⟨"Y", ⟨"A"⟩⟩

def z : Variable := ⟨"Z", ⟨"B"⟩⟩

/-- `X = f(Y)` and `Y = Z` -/
def formula (f : Symbol) : Formula :=
  .ofEqualities [⟨.var x, .app f [.var y] ⟨"S"⟩⟩, ⟨.var y, .var z⟩]

/-- `X` is bound to an application of the symbol, which has the sort `s`. -/
def simple (f : Symbol) (s : SortName) : Formula :=
  .all ⟨[(x, .app f [.var z] s), (y, .var z)]⟩ [] []

theorem agreed_formula {sigs : Signatures} {f : Symbol} (hf : f.Agrees sigs) :
    (formula f).Agreed sigs := by
  have hformula : formula f =
      .all .empty [⟨.var x, .app f [.var y] ⟨"S"⟩⟩, ⟨.var y, .var z⟩] [] := by
    cbv
  rw [hformula]
  have happlied : (Term.app f [.var y] ⟨"S"⟩).Agreed sigs :=
    (Term.all_app_iff f _ _).mpr ⟨hf, List.forall_mem_singleton.mpr trivial⟩
  refine (Formula.everywhere_all_iff _ _ _).mpr ⟨List.forall_mem_nil _, ?_, by simp⟩
  exact List.forall_mem_cons.mpr
    ⟨⟨trivial, happlied⟩, List.forall_mem_singleton.mpr ⟨trivial, trivial⟩⟩

/-- An engine that keeps one result. -/
def engine : Engine Unit :=
  ⟨vocabulary, { cacheCapacity := some 1 }, Unifier.structural, Oracle.disabled Unit⟩

/-- Questions about one formula in a row. -/
def calls : List Call :=
  [.simplify .default false (formula f), .implies (formula f) .top [], .checkUnsat (formula f),
    .smartImplies .top (formula f), .simplify .default true (formula f)]

theorem transparent_calls :
    ((calls.mapM engine.call).run (.fresh engine.options ())).2.simplifications.hits = 3 ∧
    ((calls.mapM engine.call).run (.fresh engine.options ())).1 =
      calls.map fun c => ((engine.uncached.call c).run (.fresh engine.uncached.options ())).1 := by
  have hhits : ((calls.mapM engine.call).run
      (.fresh engine.options ())).2.simplifications.hits = 3 := by
    decide +kernel
  have hformula : (formula f).Built ∧ (formula f).Agreed fun _ _ => f.signatures :=
    ⟨.ofEqualities _, agreed_formula rfl⟩
  have htop : Formula.top.Built ∧ Formula.top.Agreed fun _ _ => f.signatures :=
    ⟨.top, (Formula.everywhere_all_iff _ _ _).mpr ⟨nofun, nofun, nofun⟩⟩
  have hcalls : ∀ c ∈ calls, ∀ φ ∈ c.formulas, φ.Built ∧ φ.Agreed fun _ _ => f.signatures := by
    simp [calls, Call.formulas, hformula, htop]
  exact ⟨hhits, Engine.caches_transparent (Unifier.keeps_structural _) Oracle.steady_disabled calls
    hcalls () ()⟩

/-- The same question about two symbols. -/
def confusing : List Call :=
  [.simplify .default false (formula f), .simplify .default false (formula overloaded)]

/-- What is found for one symbol is taken for another of the same name and kind. -/
theorem homonyms_confused :
    (∀ c ∈ confusing, ∀ φ ∈ c.formulas, φ.Built) ∧ engine.oracle.Steady ∧
      ((confusing.mapM engine.call).run (.fresh engine.options ())).1 ≠
        confusing.map fun c =>
          ((engine.uncached.call c).run (.fresh engine.uncached.options ())).1 := by
  have hbuilt : ∀ c ∈ confusing, ∀ φ ∈ c.formulas, φ.Built := by
    simp [confusing, Call.formulas, formula, Formula.Built.ofEqualities]
  have hcached : ((confusing.mapM engine.call).run (.fresh engine.options ())).1 =
      [.simplified (.ok (simple f ⟨"S"⟩)), .simplified (.ok (simple f ⟨"S"⟩))] := by
    cbv
  have huncached : (confusing.map fun c =>
      ((engine.uncached.call c).run (.fresh engine.uncached.options ())).1) =
      [.simplified (.ok (simple f ⟨"S"⟩)), .simplified (.ok (simple overloaded .k))] := by
    cbv
  refine ⟨hbuilt, Oracle.steady_disabled, fun hsame => ?_⟩
  rw [hcached, huncached] at hsame
  obtain ⟨_, hsecond⟩ := List.cons.inj hsame
  have hsimple := Except.ok.inj (Reply.simplified.inj (List.cons.inj hsecond).1)
  have hentries := congrArg (fun φ => φ.bindings.entries) hsimple
  -- the value of `X` has another sort
  have hvalue := (Prod.mk.inj (List.cons.inj hentries).1).2
  exact absurd (Term.app.inj hvalue).2.2 (by decide)

end Homonyms

end Entail
