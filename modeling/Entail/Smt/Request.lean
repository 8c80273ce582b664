set_option autoImplicit false

/-! # Questions to a solver

Every question carries the phase in which it is asked and a soft limit. A question that cannot be
answered gives an error; none of them is fatal. -/

namespace Entail

/-- The engine first sets up and then executes. -/
inductive Phase where
  | initialization
  | execution
  deriving DecidableEq, Inhabited

def Phase.text : Phase → String
  | .initialization => "init phase"
  | .execution => "execution phase"

/-- What goes with a question. -/
structure Request where
  phase : Phase
  timeoutMs : Nat
  deriving DecidableEq, Inhabited

/-- Why a question has no answer. -/
inductive SmtError where
  /-- a term or sort has no counterpart -/
  | untranslatable (what : String)
  /-- there is no solver -/
  | disabled
  /-- no answer within the soft limit -/
  | timeout (ms : Nat)
  /-- the process could not be started or talked to -/
  | process (message : String)
  /-- the answer is neither of the known ones -/
  | unexpected (response query : String)
  /-- the prelude could not be read -/
  | prelude (message : String)
  deriving DecidableEq, Inhabited

/-- The message of an error. -/
def SmtError.text : SmtError → String
  | .untranslatable what => "cannot translate to SMT-LIB: " ++ what
  | .disabled => "SMT solver is disabled"
  | .timeout ms => "SMT solver timed out after " ++ toString ms ++ "ms"
  | .process message => "SMT solver process error: " ++ message
  | .unexpected response query =>
    "unexpected solver response `" ++ response ++ "` to query:\n" ++ query
  | .prelude message => "cannot read SMT prelude: " ++ message

end Entail
