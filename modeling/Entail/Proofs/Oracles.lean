import Entail.Entailment
import Mathlib

set_option autoImplicit false

/-! # The same work with another oracle

Two engines that differ in their oracles do the same work as long as the oracles agree. What a goal
leaves to its oracle decides only whether the search goes on: so two runs can be compared question
by question, and they stay together up to an answer in which they differ. A search that succeeds
uses no answer but yes, so it succeeds with every oracle that says yes wherever the first one
does. -/

namespace Entail

variable {σ σ' α β : Type}

/-- The engine with another oracle. -/
def Engine.withOracle (e : Engine σ) (oracle : Oracle σ') : Engine σ' :=
  ⟨e.vocabulary, e.options, e.unifier, oracle⟩

/-! ## Two sessions -/

/-- What answers depend on is the same, and the states of the oracles are related. -/
structure Session.Alike (O : σ → σ' → Prop) (s : Session σ) (s' : Session σ') : Prop where
  simplifications : s.simplifications = s'.simplifications
  implications : s.implications = s'.implications
  phase : s.phase = s'.phase
  oracle : O s.oracle s'.oracle

variable {O : σ → σ' → Prop}

/-- Where `x` gives an answer of which `P` is true, `y` gives the same one in a session that is
    alike, and the sessions stay alike. -/
def Work.Follows (O : σ → σ' → Prop) (x : Work σ α) (y : Work σ' α) (P : α → Prop) : Prop :=
  ∀ s s', Session.Alike O s s' → P (x s).1 →
    (y s').1 = (x s).1 ∧ Session.Alike O (x s).2 (y s').2

namespace Work

variable {x : Work σ α} {y : Work σ' α} {P : α → Prop} {R : β → Prop}

theorem Follows.pure (a : α) (P : α → Prop) :
    Follows O (Pure.pure a : Work σ α) (Pure.pure a : Work σ' α) P :=
  fun _ _ hs _ => ⟨rfl, hs⟩

/-- `P` has to be true of every answer after which the rest can give one of which `R` is true. -/
theorem Follows.bind {f : α → Work σ β} {g : α → Work σ' β} (hx : Follows O x y P)
    (hf : ∀ a, P a → Follows O (f a) (g a) R) (hP : ∀ a s, R (f a s).1 → P a) :
    Follows O (x >>= f) (y >>= g) R := by
  intro s s' hs hR
  have ha : P (x s).1 := hP _ _ hR
  obtain ⟨hsame, hs⟩ := hx s s' hs ha
  have hrest := hf (x s).1 ha (x s).2 (y s').2 hs hR
  change (g (y s').1 (y s').2).1 = _ ∧ Session.Alike O _ (g (y s').1 (y s').2).2
  rw [hsame]
  exact hrest

theorem Follows.get_bind {f : Session σ → Work σ α} {g : Session σ' → Work σ' α}
    (h : ∀ s s', Session.Alike O s s' → Follows O (f s) (g s') P) :
    Follows O (get >>= f) (get >>= g) P :=
  fun s s' hs => h s s' hs s s' hs

theorem Follows.modify_bind {m : Session σ → Session σ} {m' : Session σ' → Session σ'}
    {f : Unit → Work σ α} {g : Unit → Work σ' α}
    (hm : ∀ s s', Session.Alike O s s' → Session.Alike O (m s) (m' s'))
    (h : Follows O (f ()) (g ()) P) : Follows O (modify m >>= f) (modify m' >>= g) P :=
  fun s s' hs => h (m s) (m' s') (hm s s' hs)

theorem follows_report (ds : List Diagnostic) (P : Unit → Prop) :
    Follows O (report ds : Work σ Unit) (report ds : Work σ' Unit) P :=
  fun _ _ hs _ => ⟨rfl, ⟨hs.simplifications, hs.implications, hs.phase, hs.oracle⟩⟩

end Work

/-- The same for work that may be refused, with `P` also of refusals. -/
def Inquiry.Follows (O : σ → σ' → Prop) (x : Inquiry σ α) (y : Inquiry σ' α)
    (P : Except Refusal α → Prop) : Prop :=
  Work.Follows O x.run y.run P

namespace Inquiry

variable {x : Inquiry σ α} {y : Inquiry σ' α} {P : Except Refusal α → Prop}
  {R : Except Refusal β → Prop}

theorem run_bind (x : Inquiry σ α) (f : α → Inquiry σ β) (s : Session σ) :
    (x >>= f).run s =
      match x.run s with
      | (.ok a, t) => (f a).run t
      | (.error r, t) => (.error r, t) := by
  rw [ExceptT.run_bind]
  simp only [bind, StateT.bind]
  cases x.run s with
  | mk answer t => cases answer <;> rfl

theorem run_pure (a : α) (s : Session σ) : (Pure.pure a : Inquiry σ α).run s = (.ok a, s) := rfl

theorem run_get (s : Session σ) : (get : Inquiry σ (Session σ)).run s = (.ok s, s) := rfl

theorem run_modify (f : Session σ → Session σ) (s : Session σ) :
    (modify f : Inquiry σ Unit).run s = (.ok (), f s) := rfl

theorem Follows.pure (a : α) (P : Except Refusal α → Prop) :
    Follows O (Pure.pure a : Inquiry σ α) (Pure.pure a : Inquiry σ' α) P :=
  Work.Follows.pure _ P

theorem Follows.bind {f : α → Inquiry σ β} {g : α → Inquiry σ' β} (hx : Follows O x y P)
    (hf : ∀ a, P (.ok a) → Follows O (f a) (g a) R)
    (hP : ∀ a s, R ((f a).run s).1 → P (.ok a)) (hrefused : ∀ r, R (.error r) → P (.error r)) :
    Follows O (x >>= f) (y >>= g) R := by
  refine Work.Follows.bind (f := ExceptT.bindCont f) (g := ExceptT.bindCont g) hx
    (fun answer hanswer => ?_) (fun answer s hR => ?_)
  · cases answer with
    | error r => exact Work.Follows.pure _ R
    | ok a => exact hf a hanswer
  · cases answer with
    | error r => exact hrefused r hR
    | ok a => exact hP a s hR

/-- What is done first answers alike in any case. -/
theorem Follows.lift_bind {x : Work σ α} {y : Work σ' α} {f : α → Inquiry σ β}
    {g : α → Inquiry σ' β} (hx : Work.Follows O x y fun _ => True)
    (hf : ∀ a, Follows O (f a) (g a) R) :
    Follows O (liftM x >>= f) (liftM y >>= g) R := by
  have hlift : Follows O (liftM x : Inquiry σ α) (liftM y : Inquiry σ' α) fun _ => True :=
    Work.Follows.bind hx (fun a _ => Work.Follows.pure _ _) fun _ _ _ => trivial
  exact hlift.bind (fun a _ => hf a) (fun _ _ _ => trivial) fun _ _ => trivial

theorem Follows.emit_bind (event : Event) {f : Unit → Inquiry σ α} {g : Unit → Inquiry σ' α}
    (h : Follows O (f ()) (g ()) P) : Follows O (emit event >>= f) (emit event >>= g) P :=
  .lift_bind (Work.follows_report _ _) fun _ => h

theorem Follows.debug_bind (message : String) {f : Unit → Inquiry σ α} {g : Unit → Inquiry σ' α}
    (h : Follows O (f ()) (g ()) P) : Follows O (debug message >>= f) (debug message >>= g) P :=
  .lift_bind (Work.follows_report _ _) fun _ => h

end Inquiry

/-! ## Simplification -/

namespace Engine

variable (e : Engine σ) (o' : Oracle σ')

theorem follows_computeSimplified (mode : SimplifyMode) (logFailures : Bool) (φ : Formula) :
    Work.Follows O (e.computeSimplified mode logFailures φ)
      ((e.withOracle o').computeSimplified mode logFailures φ) fun _ => True := by
  unfold computeSimplified
  dsimp only [withOracle]
  generalize φ.simplifyWithin e.vocabulary e.unifier mode φ.stepBound = answer
  split
  · exact (Work.follows_report _ fun _ => True).bind (fun _ _ => .pure _ _) fun _ _ _ => trivial
  · exact .pure _ _

/-- Simplification does not look at the oracle. -/
theorem follows_simplify (mode : SimplifyMode) (logFailures : Bool) (φ : Formula) :
    Work.Follows O (e.simplify mode logFailures φ)
      ((e.withOracle o').simplify mode logFailures φ) fun _ => True := by
  have hcompute := follows_computeSimplified (O := O) e o' mode logFailures φ
  unfold simplify
  split
  · exact .pure _ _
  split
  · exact .pure _ _
  change Work.Follows O (if _ then _ else _) (if !e.options.cacheSimplifications then _ else _) _
  split
  · exact hcompute
  refine .get_bind fun s s' hs => ?_
  rw [← hs.simplifications]
  split
  · exact .modify_bind (fun t t' ht => ⟨congrArg SimplificationCache.hit ht.simplifications,
      ht.implications, ht.phase, ht.oracle⟩) (.pure _ _)
  · refine .modify_bind (fun t t' ht => ⟨congrArg SimplificationCache.miss ht.simplifications,
      ht.implications, ht.phase, ht.oracle⟩) ?_
    refine hcompute.bind (fun answer _ => .get_bind fun t t' ht => ?_) fun _ _ _ => trivial
    rw [← ht.simplifications]
    exact .modify_bind (fun u u' hu => ⟨rfl, hu.implications, hu.phase, hu.oracle⟩) (.pure _ _)

theorem follows_reduce (left right : Formula) (existentials : VarSet) :
    Work.Follows O (e.reduce left right existentials)
      ((e.withOracle o').reduce left right existentials) fun _ => True := by
  unfold reduce
  refine .bind (follows_simplify e o' .default false _) (fun answer _ => ?_) fun _ _ _ => trivial
  cases answer <;> exact .pure _ _

theorem follows_branches (left right : Formula) (c : Term) (splits : List Term)
    (values : List Bool) :
    Work.Follows O (e.branches left right c splits values)
      ((e.withOracle o').branches left right c splits values) fun _ => True := by
  induction values with
  | nil => exact .pure _ _
  | cons value values ih =>
    unfold branches
    refine .bind (follows_simplify e o' .default false _) (fun answer _ => ?_) fun _ _ _ => trivial
    refine ih.bind (fun rest _ => ?_) fun _ _ _ => trivial
    split <;> exact .pure _ _

end Engine

/-! ## Questions -/

/-- Where an answer of `o` is in `B`, `o'` gives the same one, and related states stay related. -/
structure Oracle.Follows (B : Except Refusal Bool → Prop) (O : σ → σ' → Prop) (o : Oracle σ)
    (o' : Oracle σ') : Prop where
  unsat : ∀ φ request s s', O s s' → B (o.checkUnsat φ request s).1.answer →
    (o'.checkUnsat φ request s').1.answer = (o.checkUnsat φ request s).1.answer ∧
      O (o.checkUnsat φ request s).2 (o'.checkUnsat φ request s').2
  implies : ∀ left right existentials request s s', O s s' →
    B (o.implies left right existentials request s).1.answer →
    (o'.implies left right existentials request s').1.answer =
        (o.implies left right existentials request s).1.answer ∧
      O (o.implies left right existentials request s).2
        (o'.implies left right existentials request s').2

namespace Engine

variable {e : Engine σ} {o' : Oracle σ'} {B : Except Refusal Bool → Prop}

theorem follows_ask {question : Session σ → Verdict × σ} {question' : Session σ' → Verdict × σ'}
    (h : ∀ s s', Session.Alike O s s' → B (question s).1.answer →
      (question' s').1.answer = (question s).1.answer ∧ O (question s).2 (question' s').2) :
    Inquiry.Follows O (ask question) (ask question') B := by
  intro s s' hs hB
  obtain ⟨hsame, hstate⟩ := h s s' hs hB
  exact ⟨hsame, ⟨hs.simplifications, hs.implications, hs.phase, hstate⟩⟩

theorem follows_checkUnsat (horacle : Oracle.Follows B O e.oracle o') (φ : Formula) :
    Inquiry.Follows O (e.checkUnsat φ) ((e.withOracle o').checkUnsat φ) B := by
  unfold checkUnsat
  split
  · exact .pure _ _
  · refine follows_ask fun s s' hs hB => ?_
    have hrequest : (e.withOracle o').constraintRequest s' = e.constraintRequest s :=
      congrArg (Request.mk · _) hs.phase.symm
    rw [hrequest]
    exact horacle.unsat φ _ _ _ hs.oracle hB

variable {left right : Formula} {existentials : VarSet}

theorem follows_askImplies (horacle : Oracle.Follows B O e.oracle o') :
    Inquiry.Follows O (e.askImplies left right existentials)
      ((e.withOracle o').askImplies left right existentials) B := by
  refine follows_ask fun s s' hs hB => ?_
  have hrequest : (e.withOracle o').implicationRequest s' = e.implicationRequest s :=
    congrArg (Request.mk · _) hs.phase.symm
  rw [hrequest]
  exact horacle.implies left right existentials _ _ _ hs.oracle hB

theorem askImpliesCached_hit (hcache : e.options.cacheImplications = true) {s : Session σ}
    {stored : Bool} (hget : s.implications.get? ⟨left, right, existentials⟩ = some stored) :
    (e.askImpliesCached left right existentials).run s =
      (.ok stored, { s with implications := s.implications.hit }) := by
  unfold askImpliesCached
  rw [if_neg (by simp [hcache])]
  simp only [Inquiry.run_bind, Inquiry.run_get, hget, Inquiry.run_modify, Inquiry.run_pure]

/-- An answer that was not found is stored as it is. -/
theorem askImpliesCached_miss (hcache : e.options.cacheImplications = true) {s t : Session σ}
    {answer : Except Refusal Bool}
    (hget : s.implications.get? ⟨left, right, existentials⟩ = none)
    (hask : (e.askImplies left right existentials).run
      { s with implications := s.implications.miss } = (answer, t)) :
    (e.askImpliesCached left right existentials).run s =
      match answer with
      | .ok b => (.ok b, { t with implications :=
          (t.implications.insert ⟨left, right, existentials⟩ b).2 })
      | .error r => (.error r, t) := by
  have hinsert (b : Bool) : (t.implications.insert ⟨left, right, existentials⟩ b).1 = b := by
    have ht : s.implications.miss = t.implications := congrArg (·.2.implications) hask
    have hmiss : s.implications.miss.get? ⟨left, right, existentials⟩ = none := hget
    rw [← ht, ImplicationCache.insert, hmiss]
  unfold askImpliesCached
  rw [if_neg (by simp [hcache])]
  simp only [Inquiry.run_bind, Inquiry.run_get, hget, Inquiry.run_modify, Inquiry.run_pure, hask]
  cases answer <;> simp only [hinsert]

theorem follows_askImpliesCached (horacle : Oracle.Follows B O e.oracle o') :
    Inquiry.Follows O (e.askImpliesCached left right existentials)
      ((e.withOracle o').askImpliesCached left right existentials) B := by
  have hask : Inquiry.Follows O (e.askImplies left right existentials)
      ((e.withOracle o').askImplies left right existentials) B := follows_askImplies horacle
  by_cases hcache : e.options.cacheImplications = true
  · intro s s' hs hB
    cases hget : s.implications.get? ⟨left, right, existentials⟩ with
    | some stored =>
      have hrun := askImpliesCached_hit hcache hget
      rw [hs.implications] at hget
      have hrun' := askImpliesCached_hit (e := e.withOracle o') hcache hget
      rw [hrun, hrun']
      exact ⟨rfl, ⟨hs.simplifications, congrArg ImplicationCache.hit hs.implications, hs.phase,
        hs.oracle⟩⟩
    | none =>
      have hmiss : Session.Alike O { s with implications := s.implications.miss }
          { s' with implications := s'.implications.miss } :=
        ⟨hs.simplifications, congrArg ImplicationCache.miss hs.implications, hs.phase, hs.oracle⟩
      obtain ⟨answer, t, hr⟩ : ∃ answer t, (e.askImplies left right existentials).run
          { s with implications := s.implications.miss } = (answer, t) := ⟨_, _, rfl⟩
      obtain ⟨answer', t', hr'⟩ : ∃ answer t, ((e.withOracle o').askImplies left right
          existentials).run { s' with implications := s'.implications.miss } = (answer, t) :=
        ⟨_, _, rfl⟩
      have hrun := askImpliesCached_miss hcache hget hr
      rw [hs.implications] at hget
      have hrun' := askImpliesCached_miss (e := e.withOracle o') hcache hget hr'
      rw [hrun] at hB ⊢
      rw [hrun']
      have hsame := hask _ _ hmiss
      rw [hr, hr'] at hsame
      cases answer with
      | error r =>
        obtain ⟨rfl, halike⟩ := hsame hB
        exact ⟨rfl, halike⟩
      | ok b =>
        obtain ⟨rfl, halike⟩ := hsame hB
        exact ⟨rfl, ⟨halike.simplifications, by rw [halike.implications], halike.phase,
          halike.oracle⟩⟩
  · have hcache' : (!e.options.cacheImplications) = true := by simpa using hcache
    unfold askImpliesCached
    rw [if_pos hcache', if_pos (show (!(e.withOracle o').options.cacheImplications) = true from
      hcache')]
    exact hask

theorem follows_proveWithOracle (horacle : Oracle.Follows B O e.oracle o') :
    Inquiry.Follows O (e.proveWithOracle left right existentials)
      ((e.withOracle o').proveWithOracle left right existentials) B := by
  unfold proveWithOracle
  refine .bind (follows_askImpliesCached horacle) (fun proved _ => ?_) (fun proved s hB => ?_)
    fun _ hB => hB
  · cases proved with
    | true => exact .emit_bind _ (.pure _ _)
    | false =>
      refine .emit_bind _ ?_
      change Inquiry.Follows O (if e.options.debugFormulas then _ else _)
        (if e.options.debugFormulas then _ else _) _
      split
      · exact .debug_bind _ (.pure _ _)
      · exact .pure _ _
  · -- whatever is reported, the answer is the one that was found
    cases proved with
    | true => exact hB
    | false =>
      cases hdebug : e.options.debugFormulas <;> simp only [hdebug] at hB <;> exact hB

end Engine

/-! ## Goals -/

/-- The goal is proved, if what is left of it is. -/
def GoalResult.isReduced : GoalResult → Bool
  | .failed => false
  | .reduced _ => true

namespace Engine

variable {e : Engine σ} {o' : Oracle σ'} {B : Except Refusal Bool → Prop} {left right : Formula}
  {existentials : VarSet}

theorem follows_proveReduced (horacle : Oracle.Follows B O e.oracle o') (maySplit : Bool)
    (splits : List Term) :
    Inquiry.Follows O (e.proveReduced existentials maySplit left right splits)
      ((e.withOracle o').proveReduced existentials maySplit left right splits)
      fun answer => B (answer.map GoalResult.isReduced) := by
  unfold proveReduced
  split
  · exact .emit_bind _ (.pure _ _)
  split
  · exact .emit_bind _ (.lift_bind (follows_branches e o' _ _ _ _ _) fun _ => .pure _ _)
  · refine .bind (follows_proveWithOracle horacle) (fun proved _ => ?_) (fun proved s hB => ?_)
      fun _ hB => hB
    · cases proved <;> exact .pure _ _
    · cases proved <;> exact hB

theorem follows_proveGoal (horacle : Oracle.Follows B O e.oracle o') (maySplit : Bool)
    (goal : Goal) :
    Inquiry.Follows O (e.proveGoal existentials maySplit goal)
      ((e.withOracle o').proveGoal existentials maySplit goal)
      fun answer => B (answer.map GoalResult.isReduced) := by
  unfold proveGoal
  split
  · exact .pure _ _
  refine .lift_bind (follows_reduce e o' _ _ _) fun answer => ?_
  match answer with
  | .error (.refuted r) =>
    refine .debug_bind _ (.bind (follows_checkUnsat horacle goal.left) (fun unsat _ => ?_)
      (fun unsat s hB => ?_) fun _ hB => hB)
    · cases unsat <;> exact .pure _ _
    · cases unsat <;> exact hB
  | .error .exhausted => exact .pure _ _
  | .ok S => exact follows_proveReduced horacle maySplit goal.splits

/-- A level is followed up to the first goal that fails. -/
theorem follows_proveLevel (hB : B (.ok true)) (horacle : Oracle.Follows B O e.oracle o')
    (maySplit : Bool) (goals : List Goal) :
    Inquiry.Follows O (e.proveLevel existentials maySplit goals)
      ((e.withOracle o').proveLevel existentials maySplit goals)
      fun answer => B (answer.map Option.isSome) := by
  induction goals with
  | nil => exact .pure _ _
  | cons goal goals ih =>
    unfold proveLevel
    refine .bind (follows_proveGoal horacle maySplit goal) (fun result _ => ?_)
      (fun result s hresult => ?_) fun _ hB => hB
    · cases result with
      | failed => exact .pure _ _
      | reduced next =>
        refine .bind ih (fun later _ => ?_) (fun later s hlater => ?_) fun _ hB => hB
        · cases later <;> exact .pure _ _
        · cases later with
          | none => exact hlater
          | some later => exact hB
    · cases result with
      | failed => exact hresult
      | reduced next => exact hB

theorem follows_proveLevels (hB : B (.ok true)) (horacle : Oracle.Follows B O e.oracle o') (n : Nat)
    (goals : List Goal) :
    Inquiry.Follows O (e.proveLevels existentials n goals)
      ((e.withOracle o').proveLevels existentials n goals) B := by
  induction n generalizing goals with
  | zero =>
    unfold proveLevels
    refine .bind (follows_proveLevel hB horacle false goals) (fun next _ => ?_)
      (fun next s hnext => ?_) fun _ hB => hB
    · cases next <;> exact .pure _ _
    · cases next with
      | none => exact hnext
      | some next => exact hB
  | succ n ih =>
    unfold proveLevels
    refine .bind (follows_proveLevel hB horacle true goals) (fun next _ => ?_)
      (fun next s hnext => ?_) fun _ hB => hB
    · match next with
      | none => exact .pure _ _
      | some [] => exact .pure _ _
      | some (goal :: rest) => exact ih (goal :: rest)
    · cases next with
      | none => exact hnext
      | some next => exact hB

theorem follows_implies (hB : B (.ok true)) (horacle : Oracle.Follows B O e.oracle o')
    (left right : Formula) (existentials : VarSet) :
    Inquiry.Follows O (e.implies left right existentials)
      ((e.withOracle o').implies left right existentials) B := by
  unfold implies
  refine .emit_bind _ (.lift_bind (follows_simplify e o' _ _ _) fun answer => ?_)
  match answer with
  | .error (.refuted _) => exact .pure _ _
  | .error .exhausted => exact .pure _ _
  | .ok S => exact follows_proveLevels hB horacle _ _

end Engine

/-! ## Stronger oracles -/

/-- Whatever `o` proves, `o'` proves as well, in whatever states the two are. -/
structure Oracle.Weaker (o : Oracle σ) (o' : Oracle σ') : Prop where
  unsat : ∀ φ request s s', (o.checkUnsat φ request s).1.answer = .ok true →
    (o'.checkUnsat φ request s').1.answer = .ok true
  implies : ∀ left right existentials request s s',
    (o.implies left right existentials request s).1.answer = .ok true →
      (o'.implies left right existentials request s').1.answer = .ok true

/-- An oracle that proves nothing: it says no, or refuses the question. -/
structure Oracle.Mute (o : Oracle σ) : Prop where
  unsat : ∀ φ request s, (o.checkUnsat φ request s).1.answer ≠ .ok true
  implies : ∀ left right existentials request s,
    (o.implies left right existentials request s).1.answer ≠ .ok true

theorem Oracle.mute_disabled : (Oracle.disabled σ).Mute where
  unsat _ _ _ := by simp [disabled, disabledVerdict]
  implies _ _ _ _ _ := by simp [disabled, disabledVerdict]

theorem Oracle.Mute.weaker {o : Oracle σ} (h : o.Mute) (o' : Oracle σ') : o.Weaker o' where
  unsat φ request s _ hproved := absurd hproved (h.unsat φ request s)
  implies left right existentials request s _ hproved :=
    absurd hproved (h.implies left right existentials request s)

/-- The oracle, where some questions fail: a failure reads as no. -/
def Oracle.failing (o : Oracle σ) (fails : Question → Bool) : Oracle σ where
  checkUnsat φ request s :=
    if fails (.checkUnsat request φ) then (⟨.ok false, []⟩, s) else o.checkUnsat φ request s
  implies left right existentials request s :=
    if fails (.implies request left right existentials) then (⟨.ok false, []⟩, s)
    else o.implies left right existentials request s

/-- Failures make an oracle weaker, if what it proves does not depend on its state. -/
theorem Oracle.weaker_failing {o : Oracle σ} (h : o.Weaker o) (fails : Question → Bool) :
    (o.failing fails).Weaker o where
  unsat φ request s s' hproved := by
    dsimp only [failing] at hproved
    split at hproved
    · simp at hproved
    · exact h.unsat φ request s s' hproved
  implies left right existentials request s s' hproved := by
    dsimp only [failing] at hproved
    split at hproved
    · simp at hproved
    · exact h.implies left right existentials request s s' hproved

theorem Oracle.Weaker.follows {o : Oracle σ} {o' : Oracle σ'} (h : o.Weaker o') :
    Oracle.Follows (· = .ok true) (fun _ _ => True) o o' where
  unsat φ request s s' _ hproved := ⟨(h.unsat φ request s s' hproved).trans hproved.symm, trivial⟩
  implies left right existentials request s s' _ hproved :=
    ⟨(h.implies left right existentials request s s' hproved).trans hproved.symm, trivial⟩

namespace Engine

/-- In a new session the engine finds that `left` implies `right`. -/
def Proves (e : Engine σ) (left right : Formula) (existentials : VarSet) (state : σ) : Prop :=
  ((e.implies left right existentials).run (.fresh e.options state)).1 = .ok true

variable {e : Engine σ} {left right : Formula} {existentials : VarSet} {state : σ}

theorem Proves.of_weaker (h : e.Proves left right existentials state) {o' : Oracle σ'}
    (horacle : e.oracle.Weaker o') (state' : σ') :
    (e.withOracle o').Proves left right existentials state' := by
  have hfresh : Session.Alike (fun _ _ => True) (.fresh e.options state)
      (.fresh e.options state') := ⟨rfl, rfl, rfl, trivial⟩
  have hfollows : Inquiry.Follows (fun _ _ => True) (e.implies left right existentials)
      ((e.withOracle o').implies left right existentials) (· = .ok true) :=
    follows_implies (by rfl) horacle.follows left right existentials
  exact (hfollows _ _ hfresh h).1.trans h

/-- **A stronger oracle loses no proof.** What is found to be implied is found with every oracle that
    proves at least as much, in whatever states the oracles are. So what is found without any help of
    the oracle is found with every other one; and where some questions fail no more is found. -/
theorem proofs_kept_by_stronger_oracles (e : Engine σ) (left right : Formula)
    (existentials : VarSet) (state : σ) :
    (e.Proves left right existentials state → ∀ {σ' : Type} (o' : Oracle σ') (state' : σ'),
      e.oracle.Weaker o' → (e.withOracle o').Proves left right existentials state') ∧
    (e.oracle.Mute → e.Proves left right existentials state →
      ∀ {σ' : Type} (o' : Oracle σ') (state' : σ'),
        (e.withOracle o').Proves left right existentials state') ∧
    (e.oracle.Weaker e.oracle → ∀ (fails : Question → Bool) (state' : σ),
      (e.withOracle (e.oracle.failing fails)).Proves left right existentials state' →
        e.Proves left right existentials state) := by
  refine ⟨fun h _ o' state' hweaker => h.of_weaker hweaker state', fun hmute h _ o' state' => ?_,
    fun hself fails state' h => ?_⟩
  · exact h.of_weaker (hmute.weaker o') state'
  · exact Proves.of_weaker h (Oracle.weaker_failing hself fails) state

end Engine

/-! ### An oracle that knows two facts -/

namespace Known

/-- An oracle that knows some formulas to be true, and nothing else. -/
def oracle (known : List Formula) : Oracle Unit where
  checkUnsat _ _ s := (⟨.ok false, []⟩, s)
  implies _ right _ _ s := (⟨.ok (known.any (· == right)), []⟩, s)

def b : Variable := ⟨"B", .bool⟩

def x : Variable := ⟨"X", .int⟩

/-- `n <Int X` -/
def less (n : Term) : Formula := .ofEqualities [⟨.builtin .lt [n, .var x], .bool true⟩]

/-- `1` or `5`, by the value of `B` -/
def bound : Term := .ite (.var b) (.int 1) (.int 5)

/-- An engine that knows two of the facts. -/
def engine : Engine Unit :=
  ⟨.initial, {}, Unifier.structural, oracle [less (.int 1), less (.int 5)]⟩

theorem weaker_oracle {known more : List Formula} (h : ∀ φ ∈ known, φ ∈ more) :
    (oracle known).Weaker (oracle more) where
  unsat _ _ _ _ hproved := by simp [oracle] at hproved
  implies _ right _ _ _ _ hproved := by
    simp only [oracle, Except.ok.injEq, List.any_eq_true] at hproved ⊢
    obtain ⟨φ, hφ, heq⟩ := hproved
    exact ⟨φ, h φ hφ, heq⟩

/-- The two facts are what the two cases leave; knowing more does no harm. -/
theorem proofs_kept_bound : engine.Proves .top (less bound) [] () ∧
    ∀ known, (engine.withOracle
      (oracle (less (.int 1) :: less (.int 5) :: known))).Proves .top (less bound) [] () := by
  have hproved : engine.Proves .top (less bound) [] () := by
    rw [Engine.Proves]
    cbv
  obtain ⟨hstronger, _⟩ := engine.proofs_kept_by_stronger_oracles .top (less bound) [] ()
  refine ⟨hproved, fun known => hstronger hproved _ () (weaker_oracle fun φ hφ => ?_)⟩
  rw [List.mem_cons, List.mem_singleton] at hφ
  rcases hφ with rfl | rfl <;> simp

end Known

end Entail
