import Entail.Formula.Basic
import Entail.Smt.Request

set_option autoImplicit false

/-! # SMT-LIB queries

Formulas are written as SMT-LIB 2 text. Integers and truth values are those of the builtin theories;
every other sort becomes an uninterpreted sort and every symbol an uninterpreted function. Strings
and lists cannot be written. What has to be declared is collected on the way, so that a query is put
together once all its formulas are written. -/

namespace Entail.Smt

/-! ## Identifiers -/

/-- Letters, digits and the underscore are written as they are. -/
def isPlain (c : Char) : Bool := c.isAlphanum || c == '_'

/-- Every other character becomes a dollar sign and its code point in hexadecimal. -/
def mangleChar (c : Char) : List Char :=
  if isPlain c then [c] else '$' :: Nat.toDigits 16 c.toNat

/-- The identifier for a name; `kind` tells the kinds of names apart. -/
def mangle (kind name : String) : String :=
  kind ++ String.ofList (name.toList.flatMap mangleChar)

def variableName (v : Variable) : String := mangle "v_" v.name

def functionName (f : Symbol) : String := mangle "f_" f.name

def sortName (s : SortName) : String := mangle "S_" s.name

/-! ## Declarations -/

/-- What is declared so far, in order of identifiers. -/
structure Declarations where
  sorts : List String
  constants : List (String × String)
  functions : List (String × List String × String)
  deriving DecidableEq, Inhabited

namespace Declarations

def empty : Declarations := ⟨[], [], []⟩

/-- The declarations as they stand in front of a query. -/
def text (d : Declarations) : String :=
  String.join (d.sorts.map fun s => "(declare-sort " ++ s ++ " 0)\n") ++
    String.join (d.constants.map fun (c, s) => "(declare-fun " ++ c ++ " () " ++ s ++ ")\n") ++
    String.join (d.functions.map fun (f, params, s) =>
      "(declare-fun " ++ f ++ " (" ++ Text.joinWith " " params ++ ") " ++ s ++ ")\n")

end Declarations

/-- Writing keeps what was declared even if it fails. -/
abbrev Writer := ExceptT SmtError (StateM Declarations)

/-- The identifier of a sort, declared unless it is builtin. -/
def writeSort (s : SortName) : Writer String :=
  if s.isInt then pure "Int"
  else if s.isBool then pure "Bool"
  else if s == .string || s == .list then throw (.untranslatable ("sort " ++ s.name))
  else do
    let name := sortName s
    modify fun d => { d with sorts := Sorted.insert compare name d.sorts }
    return name

/-- Declare a constant. One identifier cannot stand at two sorts. -/
def declareConstant (v : Variable) (sort : String) : Writer Unit := do
  let name := variableName v
  match (← get).constants.lookup name with
  | some declared =>
    if declared == sort then pure ()
    else throw (.untranslatable ("variable " ++ v.name ++ " used at different sorts"))
  | none =>
    modify fun d => { d with
      constants := Sorted.insert (fun a b => compare a.1 b.1) (name, sort) d.constants }

/-- Declare a function. One identifier cannot stand at two signatures. -/
def declareFunction (f : Symbol) (params : List String) (sort : String) : Writer Unit := do
  let name := functionName f
  match (← get).functions.lookup name with
  | some declared =>
    if declared == (params, sort) then pure ()
    else throw (.untranslatable ("symbol " ++ f.name ++ " used at different sorts"))
  | none =>
    modify fun d => { d with
      functions := Sorted.insert (fun a b => compare a.1 b.1) (name, params, sort) d.functions }

/-! ## Terms and formulas -/

/-- The operator for a builtin operation. -/
def operator : Builtin → String
  | .and => "and"
  | .or => "or"
  | .not => "not"
  | .eq => "="
  | .add => "+"
  | .sub => "-"
  | .lt => "<"
  | .le => "<="

/-- An integer; a negative one as the negation of a numeral. -/
def integer (n : Int) : String :=
  if n < 0 then "(- " ++ toString (-n) ++ ")" else toString n

/-- An operator in front of its arguments. -/
def applied (operator : String) (args : List String) : String :=
  "(" ++ operator ++ " " ++ Text.joinWith " " args ++ ")"

mutual

/-- Write a term. The variables in `bound` are not declared. -/
def writeTerm (bound : VarSet) : Term → Writer String
  | .var v =>
    if bound.contains v then pure (variableName v)
    else do
      declareConstant v (← writeSort v.sort)
      return variableName v
  | .bool true => pure "true"
  | .bool false => pure "false"
  | .int n => pure (integer n)
  | .str s => throw (.untranslatable ("term " ++ (Term.str s).text))
  | .list elements frame => throw (.untranslatable ("term " ++ (Term.list elements frame).text))
  | .app f args s => do
    let params ← args.mapM fun arg => writeSort arg.sort
    let result ← writeSort s
    declareFunction f params result
    if args.isEmpty then return functionName f
    return applied (functionName f) (← writeTerms bound args)
  | .builtin op args => do
    return applied (operator op) (← writeTerms bound args)
  | .ite c t e => do
    let c ← writeTerm bound c
    let t ← writeTerm bound t
    let e ← writeTerm bound e
    return applied "ite" [c, t, e]
termination_by structural t => t

def writeTerms (bound : VarSet) : List Term → Writer (List String)
  | [] => pure []
  | t :: ts => do
    let t ← writeTerm bound t
    return t :: (← writeTerms bound ts)
termination_by structural ts => ts

end

def writeEquality (bound : VarSet) (e : Equality) : Writer String := do
  let lhs ← writeTerm bound e.lhs
  let rhs ← writeTerm bound e.rhs
  return applied "=" [lhs, rhs]

/-- Several statements joined by an operator: none of them is `neutral`, and one stands alone. -/
def joined (operator neutral : String) : List String → String
  | [] => neutral
  | [only] => only
  | parts => applied operator parts

mutual

/-- Write a formula. -/
def writeFormula (bound : VarSet) : Formula → Writer String
  | .falsified _ => pure "false"
  | .all s es ds => do
    let equalities ← (s.equalities ++ es).mapM (writeEquality bound)
    let disjunctions ← writeDisjunctions bound ds
    return joined "and" "true" (equalities ++ disjunctions)
termination_by structural φ => φ

def writeDisjunctions (bound : VarSet) : List (List Formula) → Writer (List String)
  | [] => pure []
  | d :: ds => do
    let alternatives ← writeAlternatives bound d
    return joined "or" "false" alternatives :: (← writeDisjunctions bound ds)
termination_by structural ds => ds

def writeAlternatives (bound : VarSet) : List Formula → Writer (List String)
  | [] => pure []
  | φ :: φs => do
    let φ ← writeFormula bound φ
    return φ :: (← writeAlternatives bound φs)
termination_by structural φs => φs

end

/-! ## Queries -/

/-- Run a writer from no declarations. -/
def Writer.query (w : Writer String) : Except SmtError String :=
  match ExceptT.run w Declarations.empty with
  | (.ok body, declarations) => .ok (declarations.text ++ body)
  | (.error e, _) => .error e

/-- The query that is answered `unsat` if the formula is unsatisfiable. -/
def constraintQuery (φ : Formula) : Except SmtError String :=
  Writer.query do
    let formula ← writeFormula [] φ
    return "(assert " ++ formula ++ ")\n(check-sat)\n"

/-- A binder of a quantifier. -/
def writeBinder (v : Variable) : Writer String := do
  let s ← writeSort v.sort
  return "(" ++ variableName v ++ " " ++ s ++ ")"

/-- The query that is answered `unsat` if `left` implies `right`, where `existentials` are
    quantified existentially in `right`. Only those that occur in `right` are bound. -/
def implicationQuery (left right : Formula) (existentials : VarSet) : Except SmtError String :=
  let bound := right.vars.filter existentials.contains
  Writer.query do
    let premise ← writeFormula [] left
    let conclusion ← writeFormula bound right
    let goal ←
      if bound.isEmpty then pure conclusion
      else do
        let binders ← bound.mapM writeBinder
        pure ("(exists (" ++ Text.joinWith " " binders ++ ") " ++ conclusion ++ ")")
    return "(assert " ++ premise ++ ")\n(assert (not " ++ goal ++ "))\n(check-sat)\n"

end Entail.Smt
