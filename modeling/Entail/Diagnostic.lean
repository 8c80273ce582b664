import Entail.Formula.Text
import Entail.Unifier

set_option autoImplicit false

/-! # Diagnostics

What the engine reports while it works: events of the search for a proof, and messages. They are
collected beside the results, so nothing that reads them can influence a result. -/

namespace Entail

/-- How serious a message is. -/
inductive LogLevel where
  | warn
  | debug
  deriving DecidableEq, Inhabited

def LogLevel.text : LogLevel → String
  | .warn => "WARN"
  | .debug => "DEBUG"

/-- A message of some level. -/
structure LogRecord where
  level : LogLevel
  message : String
  deriving DecidableEq, Inhabited

/-- A stage in the search for a proof. -/
inductive Event where
  | implicationAttempted (left right : Formula)
  | provedBySimplification (right : Formula)
  | caseSplit (condition : Term)
  | solverProved (left right : Formula)
  | solverFailed (left right : Formula)
  | falsified (witness : Equality)
  | unificationFailure (mismatch : Mismatch)

/-- The written form of an event. -/
def Event.text : Event → String
  | .implicationAttempted l r => "attempting implication: " ++ l.text ++ " => " ++ r.text
  | .provedBySimplification r => "proved by simplification, remaining " ++ r.text
  | .caseSplit c => "case split on " ++ c.text
  | .solverProved l r => "smt proved " ++ l.text ++ " => " ++ r.text
  | .solverFailed l r => "failure: cannot prove " ++ l.text ++ " => " ++ r.text
  | .falsified w => "falsified by " ++ w.text
  | .unificationFailure m => "unification failure: " ++ m.lhs.text ++ " vs " ++ m.rhs.text

/-- An event or a message. -/
inductive Diagnostic where
  | event (e : Event)
  | log (r : LogRecord)

/-- Where events go. -/
inductive Sink where
  /-- they are collected as a trace -/
  | record
  /-- they are dropped -/
  | drop
  /-- they become messages at debug level -/
  | log
  deriving DecidableEq, Inhabited

namespace Sink

/-- The trace that a sink collects. -/
def trace (sink : Sink) (ds : List Diagnostic) : List String :=
  match sink with
  | .record => ds.filterMap fun
    | .event e => some e.text
    | .log _ => none
  | _ => []

/-- The messages, with the events among them that a sink turns into messages. -/
def messages (sink : Sink) (ds : List Diagnostic) : List LogRecord :=
  ds.filterMap fun
    | .log r => some r
    | .event e =>
      match sink with
      | .log => some ⟨.debug, e.text⟩
      | _ => none

end Sink

end Entail
