set_option autoImplicit false

/-! # Options

What the engine and its solver can be told: which results are kept, how far goals are split, and how
the solver is called. -/

namespace Entail

/-- Whether a solver process is used. -/
inductive SolverChoice where
  | z3
  | none
  deriving DecidableEq, Inhabited

namespace SolverChoice

def text : SolverChoice → String
  | .z3 => "z3"
  | .none => "none"

def ofText? : String → Option SolverChoice
  | "z3" => some .z3
  | "none" => some .none
  | _ => Option.none

end SolverChoice

/-- How the solver is called. -/
structure SmtOptions where
  solver : SolverChoice := .z3
  /-- the solver executable; the one found on the search path if empty -/
  z3Exe : String := ""
  /-- soft limit for asking whether one formula is unsatisfiable, in milliseconds -/
  constraintTimeoutMs : Nat := 50
  /-- soft limit for asking whether one formula implies another, in milliseconds -/
  implicationTimeoutMs : Nat := 5000
  /-- the process is stopped after so many seconds; zero leaves that to the soft limit -/
  hardTimeoutSecs : Nat := 0
  /-- the file whose content replaces the default prelude -/
  smtPrelude : Option String := Option.none
  /-- report formulas that cannot be written as a query at debug level -/
  ignoreMissingSmtlibWarning : Bool := false
  /-- log queries and answers -/
  debugZ3Queries : Bool := false
  deriving DecidableEq, Inhabited

/-- What the engine can be told. -/
structure EngineOptions where
  /-- keep the results of simplification -/
  cacheSimplifications : Bool := true
  /-- keep the answers of the solver about implications -/
  cacheImplications : Bool := true
  /-- how many results of simplification are kept before all are dropped -/
  cacheCapacity : Option Nat := Option.none
  /-- how many case splits may follow one another on the way to one goal -/
  maxCaseSplits : Nat := 16
  /-- log formulas that could not be proved in full -/
  debugFormulas : Bool := false
  smt : SmtOptions := {}
  deriving DecidableEq, Inhabited

namespace SmtOptions

/-- The command line that starts the solver with a soft limit. -/
def command (o : SmtOptions) (timeoutMs : Nat) : List String :=
  [if o.z3Exe.isEmpty then "z3" else o.z3Exe, "-in", "-smt2", "-t:" ++ toString timeoutMs]

-- powers are the core library's, whatever else is imported
attribute [local instance (high)] instPowNat

/-- After how many milliseconds the process is stopped: as configured, or twice the soft limit and a
    second. A soft limit for which this does not fit into 64 bits has none. -/
def hardTimeoutMs? (o : SmtOptions) (timeoutMs : Nat) : Option Nat :=
  if o.hardTimeoutSecs > 0 then some (o.hardTimeoutSecs * 1000)
  else if 2 * timeoutMs + 1000 < 2 ^ (64 : Nat) then some (2 * timeoutMs + 1000)
  else Option.none

end SmtOptions

end Entail
