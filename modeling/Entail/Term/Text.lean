import Entail.Term.Basic
import Entail.Text.Quoted

set_option autoImplicit false

/-! # Written terms

Variables are written by name alone and tokens plainly, strings in quotes. A builtin operation on
two arguments stands between them in parentheses; every other application is written with its
arguments in parentheses. -/

namespace Entail

namespace Term

mutual

/-- The written form of a term. -/
def text : Term → String
  | .var v => v.name
  | .bool true => "true"
  | .bool false => "false"
  | .int n => toString n
  | .str s => Text.quote s
  | .app f args _ => f.name ++ "(" ++ Text.joinWith ", " (texts args) ++ ")"
  | .builtin op [a, b] => "(" ++ a.text ++ " " ++ op.text ++ " " ++ b.text ++ ")"
  | .builtin op args => op.text ++ "(" ++ Text.joinWith ", " (texts args) ++ ")"
  | .list elements none => "[" ++ Text.joinWith ", " (texts elements) ++ "]"
  | .list elements (some frame) =>
    "[" ++ Text.joinWith ", " (texts elements) ++ " | " ++ frame.text ++ "]"
  | .ite c t e => "#if " ++ c.text ++ " #then " ++ t.text ++ " #else " ++ e.text ++ " #fi"
termination_by structural t => t

def texts : List Term → List String
  | [] => []
  | t :: ts => t.text :: texts ts
termination_by structural ts => ts

end

end Term

end Entail
