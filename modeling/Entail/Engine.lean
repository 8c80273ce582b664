import Entail.Cache
import Entail.Options.Basic
import Entail.Oracle

set_option autoImplicit false

/-! # The engine

An engine is what reasoning is done with: a vocabulary, options, a unifier and an oracle. A session
is what changes while it works: the caches, the phase, the state of the oracle and the diagnostics.
Every question is a function from one session to an answer and the next session. -/

namespace Entail

/-- What reasoning is done with. -/
structure Engine (σ : Type) where
  vocabulary : Vocabulary
  options : EngineOptions
  unifier : Unifier
  oracle : Oracle σ

/-- What changes while an engine works. -/
structure Session (σ : Type) where
  simplifications : SimplificationCache
  implications : ImplicationCache
  phase : Phase
  oracle : σ
  /-- what was reported so far, in order -/
  diagnostics : List Diagnostic

/-- A session with empty caches. -/
def Session.fresh {σ : Type} (options : EngineOptions) (oracle : σ) : Session σ where
  simplifications := .empty options.cacheCapacity
  implications := .empty
  phase := .initialization
  oracle := oracle
  diagnostics := []

/-- A piece of work in a session. -/
abbrev Work (σ : Type) := StateM (Session σ)

/-- Work that ends where the oracle refuses a question. What was done before stays done. -/
abbrev Inquiry (σ : Type) := ExceptT Refusal (Work σ)

namespace Work

variable {σ : Type}

/-- Report something. -/
def report (ds : List Diagnostic) : Work σ Unit :=
  modify fun s => { s with diagnostics := s.diagnostics ++ ds }

/-- All that follows is execution. -/
def enterExecution : Work σ Unit := modify fun s => { s with phase := .execution }

end Work

namespace Inquiry

variable {σ : Type}

/-- Report an event. -/
def emit (e : Event) : Inquiry σ Unit := ExceptT.lift (Work.report [.event e])

/-- Report a message at debug level. -/
def debug (message : String) : Inquiry σ Unit :=
  ExceptT.lift (Work.report [.log ⟨.debug, message⟩])

end Inquiry

namespace Engine

variable {σ : Type} (e : Engine σ)

/-! ## Asking the oracle -/

/-- What goes with the question whether a formula is unsatisfiable. -/
def constraintRequest (s : Session σ) : Request := ⟨s.phase, e.options.smt.constraintTimeoutMs⟩

/-- What goes with the question whether a formula implies another. -/
def implicationRequest (s : Session σ) : Request := ⟨s.phase, e.options.smt.implicationTimeoutMs⟩

/-- Let the oracle answer, and report its messages. -/
def ask (question : Session σ → Verdict × σ) : Inquiry σ Bool := fun s =>
  let (verdict, oracle) := question s
  (verdict.answer,
    { s with oracle, diagnostics := s.diagnostics ++ verdict.messages.map .log })

/-- Ask the oracle whether a formula is unsatisfiable. -/
def askUnsat (φ : Formula) : Inquiry σ Bool :=
  ask fun s => e.oracle.checkUnsat φ (e.constraintRequest s) s.oracle

/-- Ask the oracle whether a formula implies another. -/
def askImplies (left right : Formula) (existentials : VarSet) : Inquiry σ Bool :=
  ask fun s => e.oracle.implies left right existentials (e.implicationRequest s) s.oracle

/-- Whether a formula is known, or proved by the oracle, to be unsatisfiable. -/
def checkUnsat (φ : Formula) : Inquiry σ Bool :=
  if φ.isFalse then pure true else e.askUnsat φ

/-! ## Simplification -/

/-- What is reported when a formula is refuted. -/
def refutationReport (logFailures : Bool) (r : Refutation) : List Diagnostic :=
  (match r.mismatch with
    | some m => [.event (.unificationFailure m)]
    | none => []) ++
  (if logFailures then [.log ⟨.debug, "simplification failed on " ++ r.witness.text⟩] else []) ++
  [.event (.falsified r.witness)]

/-- Simplify and report a refutation. -/
def computeSimplified (mode : SimplifyMode) (logFailures : Bool) (φ : Formula) :
    Work σ Simplified := do
  let result := φ.simplifyWithin e.vocabulary e.unifier mode φ.stepBound
  match result with
  | .error (.refuted r) => Work.report (refutationReport logFailures r)
  | _ => pure ()
  return result

/-- Simplify a formula, by the cache if it is in use. A false formula is refuted by its witness and
    a true one is simple; neither is looked up. -/
def simplify (mode : SimplifyMode) (logFailures : Bool) (φ : Formula) : Work σ Simplified :=
  match φ with
  | .falsified w => pure (.error (.refuted (.ofEquality w)))
  | φ =>
    if φ.isTrue then pure (.ok φ)
    else if !e.options.cacheSimplifications then e.computeSimplified mode logFailures φ
    else do
      match (← get).simplifications.get? ⟨φ, mode⟩ with
      | some stored =>
        modify fun s => { s with simplifications := s.simplifications.hit }
        return stored
      | none =>
        modify fun s => { s with simplifications := s.simplifications.miss }
        let value ← e.computeSimplified mode logFailures φ
        let (stored, cache) := (← get).simplifications.insert ⟨φ, mode⟩ value
        modify fun s => { s with simplifications := cache }
        return stored

end Engine

end Entail
