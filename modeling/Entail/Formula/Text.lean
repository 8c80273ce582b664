import Entail.Formula.Basic

set_option autoImplicit false

/-! # Written formulas

The parts of a formula are written with `/\` between them, bindings first, and the alternatives of a
disjunction with `\/` between them, inside parentheses. -/

namespace Entail

namespace Formula

/-- The written bindings and equalities. -/
def equationTexts (s : Substitution) (es : List Equality) : List String :=
  s.entries.map (fun (v, t) => v.name ++ " = " ++ t.text) ++ es.map Equality.text

/-- Alternatives in their written form; none at all is false. -/
def joinAlternatives (texts : List String) : String :=
  if texts.isEmpty then "false" else Text.joinWith " \\/ " texts

mutual

/-- The written form of a formula, on one line. -/
def text : Formula → String
  | .falsified _ => "false"
  | .all s es ds =>
    if s.isEmpty && es.isEmpty && ds.isEmpty then "true"
    else Text.joinWith " /\\ " (equationTexts s es ++ disjunctionTexts ds)
termination_by structural φ => φ

def disjunctionTexts : List (List Formula) → List String
  | [] => []
  | d :: ds => ("(" ++ joinAlternatives (texts d) ++ ")") :: disjunctionTexts ds
termination_by structural ds => ds

def texts : List Formula → List String
  | [] => []
  | φ :: φs => φ.text :: texts φs
termination_by structural φs => φs

end

/-- The written form of a formula with every part on a line of its own. -/
def multilineText : Formula → String
  | .falsified w => "false\n  witness: " ++ w.text
  | .all s es ds =>
    if s.isEmpty && es.isEmpty && ds.isEmpty then "true"
    else
      Text.joinWith "\n/\\\n"
        ((equationTexts s es ++ disjunctionTexts ds).map fun part => "  " ++ part)

end Formula

/-- The written form of a disjunction. -/
def Disjunction.text (d : Disjunction) : String := Formula.joinAlternatives (Formula.texts d)

end Entail
