import Entail.Engine

set_option autoImplicit false

/-! # Entailment

Whether one formula implies another. A goal is first reduced: the right side is rewritten with what
the left side knows, and what the left side states is removed from it. A right side that still holds
a conditional is split on its condition, and only goals without open conditions, or at the limit of
case splits, are left to the oracle.

All goals that are reached by the same number of case splits are taken together, one level after the
other. -/

namespace Entail

/-- To show that `left` implies `right`. `splits` are the conditions that were split on. -/
structure Goal where
  left : Formula
  right : Formula
  splits : List Term

/-- What becomes of a goal. -/
inductive GoalResult where
  | failed
  /-- the goal is proved if these are; none are left of a goal that is proved -/
  | reduced (goals : List Goal)

namespace Engine

variable {σ : Type} (e : Engine σ)

/-- Rewrite the right side with the bindings and facts of the left side, and drop what the left side
    states. -/
def reduce (left right : Formula) (existentials : VarSet) : Work σ Simplified := do
  let voc := e.vocabulary
  let right := right.orient voc .unknown existentials
  match ← e.simplify .default false (right.rewrite voc left.facts left.bindings.get?) with
  | .error halt => return .error halt
  | .ok right => return .ok ((left.without right).orient voc .unknown existentials)

/-- Nothing is left to show: no equality and no disjunction is stated, and only existential
    variables are bound. -/
def isDischarged (right : Formula) (existentials : VarSet) : Bool :=
  right.isTrue ||
    (right.equalities.isEmpty && right.disjunctions.isEmpty &&
      right.bindings.keys.all existentials.contains)

/-- Ask the oracle whether `left` implies `right`, by the cache if it is in use. -/
def askImpliesCached (left right : Formula) (existentials : VarSet) : Inquiry σ Bool := do
  if !e.options.cacheImplications then e.askImplies left right existentials
  else
    let key : ImplicationKey := ⟨left, right, existentials⟩
    match (← get).implications.get? key with
    | some stored =>
      modify fun s => { s with implications := s.implications.hit }
      return stored
    | none =>
      modify fun s => { s with implications := s.implications.miss }
      let answer ← e.askImplies left right existentials
      let (stored, cache) := (← get).implications.insert key answer
      modify fun s => { s with implications := cache }
      return stored

/-- Leave a goal to the oracle. The bindings of the left side are already applied to the right
    side, so they are left out. -/
def proveWithOracle (left right : Formula) (existentials : VarSet) : Inquiry σ Bool := do
  let left := Formula.all .empty left.equalities left.disjunctions
  let proved ← e.askImpliesCached left right existentials
  if proved then Inquiry.emit (.solverProved left right)
  else
    Inquiry.emit (.solverFailed left right)
    if e.options.debugFormulas then
      Inquiry.debug ("cannot prove\n" ++ left.multilineText ++ "\n=>\n" ++ right.multilineText)
  return proved

/-- The goals for the two values of a condition. A value that the left side excludes gives none. -/
def branches (left right : Formula) (condition : Term) (splits : List Term) :
    List Bool → Work σ (List Goal)
  | [] => pure []
  | value :: values => do
    let assumed := left.addTerms condition (.bool value)
    let branch ← e.simplify .default false assumed
    let rest ← branches left right condition splits values
    match branch with
    | .ok branch => return ⟨branch, right, splits⟩ :: rest
    | .error (.refuted _) => return rest
    | .error .exhausted => return ⟨assumed, right, splits⟩ :: rest

/-- Work on a reduced goal: it is discharged, split on its first open condition, or left to the
    oracle. -/
def proveReduced (existentials : VarSet) (maySplit : Bool) (left right : Formula)
    (splits : List Term) : Inquiry σ GoalResult := do
  if isDischarged right existentials then
    Inquiry.emit (.provedBySimplification right)
    return .reduced []
  match if maySplit then right.conditions.find? (fun c => !splits.contains c) else none with
  | some condition =>
    Inquiry.emit (.caseSplit condition)
    return .reduced (← e.branches left right condition (condition :: splits) [true, false])
  | none =>
    if ← e.proveWithOracle left right existentials then return .reduced [] else return .failed

/-- Work on a goal. A left side that is seen to be false proves it; a right side that is found false
    leaves the question whether the left side is unsatisfiable. -/
def proveGoal (existentials : VarSet) (maySplit : Bool) (goal : Goal) : Inquiry σ GoalResult := do
  if goal.left.isFalseExtended then return .reduced []
  match ← e.reduce goal.left goal.right existentials with
  | .error (.refuted r) =>
    Inquiry.debug ("right side falsified by " ++ r.witness.text)
    if ← e.checkUnsat goal.left then return .reduced [] else return .failed
  | .error .exhausted => return .failed
  | .ok right => e.proveReduced existentials maySplit goal.left right goal.splits

/-- Work on the goals of one level in order, up to the first that fails. The answer holds the goals
    of the next level. -/
def proveLevel (existentials : VarSet) (maySplit : Bool) :
    List Goal → Inquiry σ (Option (List Goal))
  | [] => pure (some [])
  | goal :: goals => do
    match ← e.proveGoal existentials maySplit goal with
    | .failed => return none
    | .reduced next =>
      match ← proveLevel existentials maySplit goals with
      | none => return none
      | some later => return some (next ++ later)

/-- Work on one level after the other, with at most `n` more case splits. -/
def proveLevels (existentials : VarSet) : Nat → List Goal → Inquiry σ Bool
  | 0, goals => do
    match ← e.proveLevel existentials false goals with
    | none => return false
    | some next => return next.isEmpty
  | n + 1, goals => do
    match ← e.proveLevel existentials true goals with
    | none => return false
    | some [] => return true
    | some next => proveLevels existentials n next

/-- Whether every solution of `left` is a solution of `right`, with `existentials` quantified
    existentially in `right`. -/
def implies (left right : Formula) (existentials : VarSet) : Inquiry σ Bool := do
  Inquiry.emit (.implicationAttempted left right)
  match ← e.simplify .default false left with
  | .error (.refuted _) => return true
  | .error .exhausted => return false
  | .ok left => e.proveLevels existentials e.options.maxCaseSplits [⟨left, right, []⟩]

/-- Entailment without existential variables, after the bindings of `left` are applied to
    `right`. -/
def smartImplies (left right : Formula) : Inquiry σ Bool :=
  e.implies left (right.rewrite e.vocabulary .unknown left.bindings.get?) []

end Engine

end Entail
