import Entail.Symbol
import Entail.Variable.Basic

set_option autoImplicit false

/-! # Terms

Terms are variables, tokens (truth values, integers, strings), applications of symbols at a sort,
builtin operations, lists and conditionals. A list is a prefix of elements and possibly a frame,
the term that stands for the rest of the list.

Every walk over terms comes with a companion that walks the terms of a list. -/

namespace Entail

/-- The operations that evaluation knows. -/
inductive Builtin where
  | and
  | or
  | not
  | eq
  | add
  | sub
  | lt
  | le
  deriving DecidableEq, Inhabited

namespace Builtin

/-- The written name of an operation. -/
def text : Builtin → String
  | .and => "andBool"
  | .or => "orBool"
  | .not => "notBool"
  | .eq => "==K"
  | .add => "+Int"
  | .sub => "-Int"
  | .lt => "<Int"
  | .le => "<=Int"

def ofText? : String → Option Builtin
  | "andBool" => some .and
  | "orBool" => some .or
  | "notBool" => some .not
  | "==K" => some .eq
  | "+Int" => some .add
  | "-Int" => some .sub
  | "<Int" => some .lt
  | "<=Int" => some .le
  | _ => none

theorem ofText?_text (op : Builtin) : ofText? op.text = some op := by
  cases op <;> rfl

/-- Negation takes one argument, every other operation two. -/
def arity : Builtin → Nat
  | .not => 1
  | _ => 2

/-- Sums and differences are integers, everything else is a truth value. -/
def resultSort : Builtin → SortName
  | .add | .sub => .int
  | _ => .bool

/-- Operations are ordered as they are listed. -/
def rank : Builtin → Nat
  | .and => 0
  | .or => 1
  | .not => 2
  | .eq => 3
  | .add => 4
  | .sub => 5
  | .lt => 6
  | .le => 7

end Builtin

/-- Order-sorted terms. -/
inductive Term where
  | var (v : Variable)
  | bool (value : Bool)
  | int (value : Int)
  | str (value : String)
  /-- a symbol applied to arguments, at a sort -/
  | app (symbol : Symbol) (args : List Term) (sort : SortName)
  | builtin (op : Builtin) (args : List Term)
  /-- a prefix of elements and, for an open list, the frame that stands for the rest -/
  | list (elements : List Term) (frame : Option Term)
  | ite (cond thenBranch elseBranch : Term)

namespace Term

instance : Inhabited Term := ⟨.bool true⟩

/-! ## Building terms -/

/-- A builtin operation on the right number of arguments. -/
def builtin? (op : Builtin) (args : List Term) : Option Term :=
  if args.length = op.arity then some (.builtin op args) else none

def eqK (lhs rhs : Term) : Term := .builtin .eq [lhs, rhs]

def emptyList : Term := .list [] none

/-- A list of `elements` followed by the elements and the frame of `frame`, if that is a list. -/
def consFrame (elements : List Term) : Term → Term
  | .list rest none => .list (elements ++ rest) none
  | .list rest (some inner) => consFrame (elements ++ rest) inner
  | frame => if elements.isEmpty then frame else .list elements (some frame)

/-- A list with its frame flattened: a frame that is a list is joined to the prefix, and no prefix
    before a frame is the frame itself. -/
def mkList (elements : List Term) : Option Term → Term
  | none => .list elements none
  | some frame => consFrame elements frame

/-! ## Looking at the top of a term -/

/-- The sort of a term; a conditional has the sort of its first branch. -/
def sort : Term → SortName
  | .var v => v.sort
  | .bool _ => .bool
  | .int _ => .int
  | .str _ => .string
  | .app _ _ s => s
  | .builtin op _ => op.resultSort
  | .list _ _ => .list
  | .ite _ t _ => t.sort

def asVar? : Term → Option Variable
  | .var v => some v
  | _ => none

def isVar (t : Term) : Bool := t.asVar?.isSome

def asBool? : Term → Option Bool
  | .bool b => some b
  | _ => none

def isTrue (t : Term) : Bool := t.asBool? == some true

def isFalse (t : Term) : Bool := t.asBool? == some false

/-- Tokens: truth values, integers and strings. -/
def isToken : Term → Bool
  | .bool _ | .int _ | .str _ => true
  | _ => false

/-- The head can be taken apart by unification: tokens, lists, constructors, and under pattern
    folding the applications of pattern symbols. -/
def isRigid (patternFolding : Bool) : Term → Bool
  | .bool _ | .int _ | .str _ | .list _ _ => true
  | .app symbol _ _ =>
    match symbol.kind with
    | .constructor => true
    | .pattern => patternFolding
    | .function => false
  | .var _ | .builtin _ _ | .ite _ _ _ => false

def isEmptyList : Term → Bool
  | .list [] none => true
  | _ => false

/-- A list with at least one element in its prefix. -/
def isNonEmptyList : Term → Bool
  | .list (_ :: _) _ => true
  | _ => false

/-! ## Walking over a term -/

mutual

/-- No variable occurs. -/
def isGround : Term → Bool
  | .var _ => false
  | .bool _ | .int _ | .str _ => true
  | .app _ args _ => allGround args
  | .builtin _ args => allGround args
  | .list elements none => allGround elements
  | .list elements (some frame) => allGround elements && frame.isGround
  | .ite c t e => c.isGround && t.isGround && e.isGround
termination_by structural t => t

def allGround : List Term → Bool
  | [] => true
  | t :: ts => t.isGround && allGround ts
termination_by structural ts => ts

end

mutual

/-- Built from variables, tokens, constructors and lists only. Such a term is never equal to a
    proper subterm of itself. -/
def isNormal : Term → Bool
  | .var _ | .bool _ | .int _ | .str _ => true
  | .app symbol args _ => symbol.isConstructor && allNormal args
  | .list elements none => allNormal elements
  | .list elements (some frame) => allNormal elements && frame.isNormal
  | .builtin _ _ | .ite _ _ _ => false
termination_by structural t => t

def allNormal : List Term → Bool
  | [] => true
  | t :: ts => t.isNormal && allNormal ts
termination_by structural ts => ts

end

mutual

/-- The variables of a term as they occur, from left to right. -/
def occurrences : Term → List Variable
  | .var v => [v]
  | .bool _ | .int _ | .str _ => []
  | .app _ args _ => allOccurrences args
  | .builtin _ args => allOccurrences args
  | .list elements none => allOccurrences elements
  | .list elements (some frame) => allOccurrences elements ++ frame.occurrences
  | .ite c t e => c.occurrences ++ (t.occurrences ++ e.occurrences)
termination_by structural t => t

def allOccurrences : List Term → List Variable
  | [] => []
  | t :: ts => t.occurrences ++ allOccurrences ts
termination_by structural ts => ts

end

/-- The set of variables of a term. -/
def vars (t : Term) : VarSet := VarSet.ofList t.occurrences

/-- Whether a variable occurs in a term. -/
def occurs (v : Variable) (t : Term) : Bool := t.occurrences.contains v

mutual

/-- The conditions of the conditionals in a term, outermost first. -/
def conditions : Term → List Term
  | .var _ | .bool _ | .int _ | .str _ => []
  | .app _ args _ => allConditions args
  | .builtin _ args => allConditions args
  | .list elements none => allConditions elements
  | .list elements (some frame) => allConditions elements ++ frame.conditions
  | .ite c t e => c :: (c.conditions ++ (t.conditions ++ e.conditions))
termination_by structural t => t

def allConditions : List Term → List Term
  | [] => []
  | t :: ts => t.conditions ++ allConditions ts
termination_by structural ts => ts

end

mutual

/-- The number of nodes of a term. -/
def size : Term → Nat
  | .var _ | .bool _ | .int _ | .str _ => 1
  | .app _ args _ => sizeAll args + 1
  | .builtin _ args => sizeAll args + 1
  | .list elements none => sizeAll elements + 1
  | .list elements (some frame) => sizeAll elements + frame.size + 1
  | .ite c t e => c.size + t.size + e.size + 1
termination_by structural t => t

def sizeAll : List Term → Nat
  | [] => 0
  | t :: ts => t.size + sizeAll ts
termination_by structural ts => ts

end

theorem isVar_eq_true_iff (t : Term) : t.isVar = true ↔ ∃ v, t = .var v := by
  cases t <;> simp [isVar, asVar?]

theorem asBool?_eq_some_iff (t : Term) (b : Bool) : t.asBool? = some b ↔ t = .bool b := by
  cases t <;> simp [asBool?]

theorem occurs_iff (v : Variable) (t : Term) : t.occurs v = true ↔ v ∈ t.occurrences := by
  simp [occurs]

end Term

end Entail
