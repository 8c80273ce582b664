import Entail.Files
import Entail.Options.Basic
import Entail.Oracle
import Entail.Text.Blank

set_option autoImplicit false

/-! # The solver process

A question is written as a query, with a prelude in front, and one process is run for it. Its answer
is the first line of what it prints. A process that prints nothing is started again a few times. The
question counts as proved only if the answer is `unsat`. A question whose soft limit leaves no hard
limit is refused.

The prelude is read for the first query, and again for every query until it could be read. -/

namespace Entail

/-- What comes of running the solver once. -/
inductive ProcessOutcome where
  /-- it ended, having printed this -/
  | output (stdout : String)
  /-- it was stopped -/
  | timedOut
  /-- it could not be started or talked to -/
  | failed (message : String)
  deriving DecidableEq, Inhabited

/-- How often a solver was asked, and how that ended. -/
structure Profiler where
  requests : Nat
  queryBuildFailures : Nat
  timeouts : Nat
  unsatAnswers : Nat
  deriving DecidableEq, Inhabited

namespace Profiler

def zero : Profiler := ⟨0, 0, 0, 0⟩

def text (p : Profiler) : String :=
  "smt requests: " ++ toString p.requests ++ ", query build failures: " ++
    toString p.queryBuildFailures ++ ", timeouts: " ++ toString p.timeouts ++ ", unsat: " ++
    toString p.unsatAnswers

end Profiler

/-- The text in front of every query, with what its readings will come to. -/
structure Prelude where
  /-- the text, once it was read -/
  text? : Option String
  /-- the text, or why it cannot be read, at the next readings -/
  readings : List (Except String String)
  /-- the same at every reading after these -/
  afterwards : Except String String

namespace Prelude

/-- A prelude that was not read yet, and of which every reading comes to the same. -/
def unread (reading : Except String String) : Prelude := ⟨none, [], reading⟩

/-- A prelude with a known text. -/
def ok (text : String) : Prelude := unread (.ok text)

/-- The text, read unless that was done. A reading that fails is not kept. -/
def read (p : Prelude) : Except String String × Prelude :=
  match p.text? with
  | some text => (.ok text, p)
  | none =>
    let reading := p.readings.headD p.afterwards
    (reading, { p with text? := reading.toOption, readings := p.readings.tail })

end Prelude

/-- A solver process with what its runs will come to. -/
structure Solver where
  options : SmtOptions
  prelude : Prelude
  /-- the outcomes of the next runs -/
  outcomes : List ProcessOutcome
  /-- the outcome of every run after these, by its command line and input -/
  afterwards : List String → String → ProcessOutcome
  profiler : Profiler

namespace Solver

/-- The prelude when none is configured. -/
def defaultPrelude : String := "(set-option :auto-config false)\n(set-option :smt.mbqi false)\n"

/-- The prelude in a file, or the default one if none is named. -/
def readPrelude (files : Files) : Option String → Prelude
  | none => .ok defaultPrelude
  | some path => .unread ((files.read path).mapError fun e => path ++ ": " ++ e.text)

/-- How often a query is sent again after an empty answer. -/
def restartLimit : Nat := 3

/-- What comes of a question. -/
inductive Reply where
  /-- the solver tells whether the query is unsatisfiable -/
  | answered (unsat : Bool)
  | failed (e : SmtError)
  | refused (r : Refusal)
  deriving DecidableEq, Inhabited

/-- What an answer that is not blank means. -/
def readAnswer (request : Request) (input response : String) : Reply :=
  match Text.trim (Text.firstLine response) with
  | "unsat" => .answered true
  | "sat" | "unknown" => .answered false
  | "timeout" => .failed (.timeout request.timeoutMs)
  | _ => .failed (.unexpected response input)

/-- What the runs for one question came to. -/
structure Run where
  reply : Reply
  messages : List LogRecord
  /-- the outcomes that are left for later runs -/
  outcomes : List ProcessOutcome

/-- Run the solver up to `n` times, until it prints something; `attempt` counts the runs. -/
def attempts (o : SmtOptions) (request : Request) (input : String) (afterwards : ProcessOutcome) :
    (n attempt : Nat) → List ProcessOutcome → Run
  | 0, _, outcomes => ⟨.failed (.unexpected "" input), [], outcomes⟩
  | n + 1, attempt, outcomes =>
    match outcomes.headD afterwards with
    | .timedOut => ⟨.failed (.timeout request.timeoutMs), [], outcomes.tail⟩
    | .failed message => ⟨.failed (.process message), [], outcomes.tail⟩
    | .output stdout =>
      let response := Text.trim stdout
      if response.isEmpty then
        let later := attempts o request input afterwards n (attempt + 1) outcomes.tail
        { later with messages :=
            ⟨.debug, request.phase.text ++ ": empty z3 answer, attempt " ++ toString attempt⟩ ::
              later.messages }
      else
        let shown :=
          if o.debugZ3Queries then
            [⟨.debug, request.phase.text ++ ": z3 answer: " ++ response⟩]
          else []
        ⟨readAnswer request input response, shown, outcomes.tail⟩

/-- Run the solver on an input, if there is a hard limit for it. -/
def send (s : Solver) (request : Request) (input : String) : Run :=
  match s.options.hardTimeoutMs? request.timeoutMs with
  | none => ⟨.refused .limitTooLong, [], s.outcomes⟩
  | some _ =>
    let afterwards := s.afterwards (s.options.command request.timeoutMs) input
    attempts s.options request input afterwards (restartLimit + 1) 0 s.outcomes

/-- Run the solver on a query, with the prelude in front of it. -/
def runQuery (s : Solver) (prelude : Except String String) (request : Request) (query : String) :
    Run :=
  match prelude with
  | .error message => ⟨.failed (.prelude message), [], s.outcomes⟩
  | .ok prelude =>
    let input := prelude ++ query
    let run := s.send request input
    if s.options.debugZ3Queries then
      { run with messages :=
          ⟨.debug, request.phase.text ++ ": z3 query:\n" ++ input⟩ :: run.messages }
    else run

/-- The message for an error. Formulas that cannot be written may be reported at debug level. -/
def report (o : SmtOptions) (request : Request) (e : SmtError) : LogRecord :=
  let message := request.phase.text ++ ": " ++ e.text
  match e with
  | .untranslatable _ =>
    if o.ignoreMissingSmtlibWarning then ⟨.debug, message⟩ else ⟨.warn, message⟩
  | _ => ⟨.warn, message⟩

/-- Count a question by what came of it. -/
def count (p : Profiler) (built : Bool) (reply : Reply) : Profiler :=
  { p with
    requests := p.requests + 1
    queryBuildFailures := if built then p.queryBuildFailures else p.queryBuildFailures + 1
    timeouts :=
      match reply with
      | .failed (.timeout _) => p.timeouts + 1
      | _ => p.timeouts
    unsatAnswers :=
      match reply with
      | .answered true => p.unsatAnswers + 1
      | _ => p.unsatAnswers }

/-- The verdict for what came of a question; an error reads as no. -/
def verdict (o : SmtOptions) (request : Request) (messages : List LogRecord) : Reply → Verdict
  | .answered unsat => ⟨.ok unsat, messages⟩
  | .failed e => ⟨.ok false, messages ++ [report o request e]⟩
  | .refused r => ⟨.error r, messages⟩

/-- Answer a question by its query, if that could be written. -/
def decide (query : Except SmtError String) (request : Request) (s : Solver) : Verdict × Solver :=
  match query with
  | .error e =>
    (verdict s.options request [] (.failed e),
      { s with profiler := count s.profiler false (.failed e) })
  | .ok query =>
    let (prelude, read) := s.prelude.read
    let run := s.runQuery prelude request query
    (verdict s.options request run.messages run.reply,
      { s with
        prelude := read, outcomes := run.outcomes, profiler := count s.profiler true run.reply })

/-- A false formula is unsatisfiable and a true one is not; every other question goes to the
    process. -/
def checkUnsat (φ : Formula) (request : Request) (s : Solver) : Verdict × Solver :=
  if φ.isFalse then (⟨.ok true, []⟩, s)
  else if φ.isTrue then (⟨.ok false, []⟩, s)
  else s.decide (Smt.constraintQuery φ) request

/-- A false formula implies everything and everything implies a true one; every other question goes
    to the process. -/
def implies (l r : Formula) (existentials : VarSet) (request : Request) (s : Solver) :
    Verdict × Solver :=
  if l.isFalse || r.isTrue then (⟨.ok true, []⟩, s)
  else s.decide (Smt.implicationQuery l r existentials) request

/-- The oracle that asks a solver process. -/
def oracle : Oracle Solver where
  checkUnsat := checkUnsat
  implies := implies

end Solver

end Entail
