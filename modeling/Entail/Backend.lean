import Entail.Smt.Solver

set_option autoImplicit false

/-! # The choice of an oracle

A session works without a solver, with prepared answers, or with a solver process. -/

namespace Entail

/-- What stands behind the questions of a session. -/
inductive Backend where
  | disabled
  | prepared (script : Script)
  | process (solver : Solver)

namespace Backend

def checkUnsat (φ : Formula) (request : Request) : Backend → Verdict × Backend
  | .disabled => (Oracle.disabledVerdict request, .disabled)
  | .prepared script =>
    let (verdict, script) := Script.oracle.checkUnsat φ request script
    (verdict, .prepared script)
  | .process solver =>
    let (verdict, solver) := Solver.oracle.checkUnsat φ request solver
    (verdict, .process solver)

def implies (l r : Formula) (existentials : VarSet) (request : Request) :
    Backend → Verdict × Backend
  | .disabled => (Oracle.disabledVerdict request, .disabled)
  | .prepared script =>
    let (verdict, script) := Script.oracle.implies l r existentials request script
    (verdict, .prepared script)
  | .process solver =>
    let (verdict, solver) := Solver.oracle.implies l r existentials request solver
    (verdict, .process solver)

/-- The oracle that asks what stands behind a session. -/
def oracle : Oracle Backend where
  checkUnsat φ request backend := checkUnsat φ request backend
  implies l r existentials request backend := implies l r existentials request backend

/-- The questions that prepared answers were given to, the first one first. -/
def asked : Backend → List Question
  | .prepared script => script.asked.reverse
  | _ => []

/-- The counters of a solver process. -/
def profiler? : Backend → Option Profiler
  | .process solver => some solver.profiler
  | _ => none

end Backend

end Entail
