import Entail.Diagnostic
import Entail.Smt.Query

set_option autoImplicit false

/-! # Oracles

An oracle is asked whether a formula is unsatisfiable or implies another one. It says yes only when
that is proved; every failure reads as no. A question that cannot even be put is refused. An oracle
has a state of its own, such as what it was asked so far, and may leave messages. -/

namespace Entail

/-- Why a question is refused. -/
inductive Refusal where
  /-- no hard limit fits the soft limit of the question -/
  | limitTooLong
  deriving DecidableEq, Inhabited

/-- What an oracle says, whether that is proved or not, and its messages. -/
structure Verdict where
  answer : Except Refusal Bool
  messages : List LogRecord

/-- Answers questions about formulas, with a state of type `σ`. -/
structure Oracle (σ : Type) where
  /-- the formula is unsatisfiable -/
  checkUnsat : Formula → Request → σ → Verdict × σ
  /-- the first formula implies the second, where the variables are quantified existentially in the
      second -/
  implies : Formula → Formula → VarSet → Request → σ → Verdict × σ

namespace Oracle

/-- The answer when there is no solver. -/
def disabledVerdict (request : Request) : Verdict :=
  ⟨.ok false, [⟨.debug, request.phase.text ++ ": " ++ SmtError.disabled.text⟩]⟩

/-- There is no solver: nothing is proved. -/
def disabled (σ : Type) : Oracle σ where
  checkUnsat _ request s := (disabledVerdict request, s)
  implies _ _ _ request s := (disabledVerdict request, s)

end Oracle

/-! ## Prepared answers -/

/-- A question to an oracle. -/
inductive Question where
  | checkUnsat (request : Request) (constraint : Formula)
  | implies (request : Request) (left right : Formula) (existentials : VarSet)

/-- The SMT-LIB text of a question. -/
def Question.query : Question → Except SmtError String
  | .checkUnsat _ φ => Smt.constraintQuery φ
  | .implies _ l r existentials => Smt.implicationQuery l r existentials

/-- Answers prepared in advance. -/
structure Script where
  /-- the next answers -/
  answers : List Bool
  /-- the answer when there are no more -/
  fallback : Bool
  /-- the questions so far, the last one first -/
  asked : List Question

namespace Script

/-- Give the next answer and note the question. -/
def answer (q : Question) (s : Script) : Verdict × Script :=
  match s.answers with
  | [] => (⟨.ok s.fallback, []⟩, { s with asked := q :: s.asked })
  | b :: rest => (⟨.ok b, []⟩, { s with answers := rest, asked := q :: s.asked })

/-- An oracle that gives prepared answers to all questions. -/
def oracle : Oracle Script where
  checkUnsat φ request := answer (.checkUnsat request φ)
  implies l r existentials request := answer (.implies request l r existentials)

end Script

end Entail
