import Entail.Command.Format
import Entail.Command.Word

set_option autoImplicit false

/-! # Arithmetic of the shell

Expressions over integers of 64 bits with a sign, which wrap around. Names stand for the numbers in
variables, and may be assigned to. -/

namespace Entail.Command

/-- An expression. -/
inductive Arithmetic where
  | number (n : Int)
  | name (s : String)
  | unary (op : Char) (a : Arithmetic)
  | binary (op : String) (a b : Arithmetic)
  | both (a b : Arithmetic)
  | either (a b : Arithmetic)
  | choose (c a b : Arithmetic)
  /-- give a name the value of an expression, or of an operation on its old value and this one -/
  | assign (s : String) (op : Option String) (a : Arithmetic)
  deriving Inhabited

/-- Why an expression has no value. -/
inductive ArithmeticFault where
  | expectsPrimary
  | expectsEnd
  | divisionByZero
  /-- the value of a name is no number -/
  | notNumber (s : String)
  deriving DecidableEq, Inhabited

/-- How a fault of an expression is reported. -/
def ArithmeticFault.text (expression : String) : ArithmeticFault → String
  | .expectsPrimary => "arithmetic expression: expecting primary: \"" ++ expression ++ "\""
  | .expectsEnd => "arithmetic expression: expecting EOF: \"" ++ expression ++ "\""
  | .divisionByZero => "arithmetic expression: division by zero: \"" ++ expression ++ "\""
  | .notNumber s => "Illegal number: " ++ s

namespace Arithmetic

/-! ## Reading -/

def skipBlanks (cs : List Char) : List Char :=
  cs.dropWhile fun c => c == ' ' || c == '\t' || c == '\n'

/-- The operators between two operands, with how tight they are; of two that begin alike the longer
    one stands first. -/
def operators : List (String × Nat) :=
  [("||", 1), ("&&", 2), ("==", 6), ("!=", 6), ("<<", 8), (">>", 8), ("<=", 7), (">=", 7), ("|", 3),
    ("^", 4), ("&", 5), ("<", 7), (">", 7), ("+", 9), ("-", 9), ("*", 10), ("/", 10), ("%", 10)]

/-- The operator at the start, with how tight it is. -/
def operator? (cs : List Char) : Option (String × Nat × List Char) :=
  (operators.find? fun op => op.1.toList.isPrefixOf cs).map fun (op, level) =>
    (op, level, cs.drop op.length)

/-- The operators that may stand in an assignment before its sign. -/
def assignment? (cs : List Char) : Option (Option String × List Char) :=
  match cs with
  | '=' :: '=' :: _ => none
  | '=' :: rest => some (none, rest)
  | _ =>
    (["<<", ">>", "+", "-", "*", "/", "%", "&", "|", "^"].find? fun op =>
      (op ++ "=").toList.isPrefixOf cs).map fun op => (some op, cs.drop (op.length + 1))

/-- What is being read: a whole expression, an operand with what binds tighter than a level, or what
    follows one. -/
inductive Part where
  | whole
  | operand
  | climbing (level : Nat) (left : Arithmetic)

/-- Read a part in at most `n` steps. -/
def readPart (n : Nat) (part : Part) (cs : List Char) : Option (Arithmetic × List Char) :=
  match n with
  | 0 => none
  | n + 1 =>
    match part with
    | .whole => do
      let (first, cs) ← readPart n .operand cs
      let (c, cs) ← readPart n (.climbing 1 first) cs
      match skipBlanks cs with
      | '?' :: cs =>
        let (a, cs) ← readPart n .whole cs
        match skipBlanks cs with
        | ':' :: cs =>
          let (b, cs) ← readPart n .whole cs
          return (.choose c a b, cs)
        | _ => none
      | cs => return (c, cs)
    | .operand =>
      match skipBlanks cs with
      | '(' :: cs => do
        let (a, cs) ← readPart n .whole cs
        match skipBlanks cs with
        | ')' :: cs => return (a, cs)
        | _ => none
      | c :: rest =>
        if c == '+' || c == '-' || c == '!' || c == '~' then
          (readPart n .operand rest).map fun (a, cs) => (.unary c a, cs)
        else if isNameStart c then
          let name := (c :: rest).takeWhile isNameChar
          let after := (c :: rest).drop name.length
          match assignment? (skipBlanks after) with
          | some (op, cs) =>
            (readPart n .whole cs).map fun (a, cs) => (.assign (String.ofList name) op a, cs)
          | none => some (.name (String.ofList name), after)
        else (readUnsigned (c :: rest)).map fun (k, cs) => (.number k, cs)
      | [] => none
    | .climbing level left =>
      match operator? (skipBlanks cs) with
      | none => some (left, cs)
      | some (op, tight, rest) =>
        if tight < level then some (left, cs)
        else do
          let (first, rest) ← readPart n .operand rest
          let (right, rest) ← readPart n (.climbing (tight + 1) first) rest
          let joined :=
            match op with
            | "&&" => .both left right
            | "||" => .either left right
            | op => .binary op left right
          readPart n (.climbing level joined) rest

/-- Read an expression. -/
def read (cs : List Char) : Except ArithmeticFault Arithmetic :=
  match readPart (4 * cs.length + 4) .whole cs with
  | none => .error .expectsPrimary
  | some (a, rest) => if (skipBlanks rest).isEmpty then .ok a else .error .expectsEnd

/-! ## Evaluating -/

-- powers are the core library's, whatever else is imported
attribute [local instance (high)] instPowNat

/-- The number of 64 bits that an integer wraps around to. -/
def wrap (n : Int) : Int := Int.bmod n (2 ^ (64 : Nat))

def ofBool (b : Bool) : Int := if b then 1 else 0

/-- Do an operation between two numbers. -/
def operate (op : String) (a b : Int) : Except ArithmeticFault Int :=
  let bits (f : Nat → Nat → Nat) : Int :=
    wrap (f (a % 2 ^ (64 : Nat)).toNat (b % 2 ^ (64 : Nat)).toNat)
  match op with
  | "+" => .ok (wrap (a + b))
  | "-" => .ok (wrap (a - b))
  | "*" => .ok (wrap (a * b))
  | "/" => if b == 0 then .error .divisionByZero else .ok (wrap (a.tdiv b))
  | "%" => if b == 0 then .error .divisionByZero else .ok (wrap (a.tmod b))
  | "<<" => .ok (wrap (a * 2 ^ (b % 64).toNat))
  | ">>" => .ok (a.fdiv (2 ^ (b % 64).toNat))
  | "&" => .ok (bits Nat.land)
  | "|" => .ok (bits Nat.lor)
  | "^" => .ok (bits Nat.xor)
  | "==" => .ok (ofBool (a == b))
  | "!=" => .ok (ofBool (a != b))
  | "<" => .ok (ofBool (decide (a < b)))
  | "<=" => .ok (ofBool (decide (a ≤ b)))
  | ">" => .ok (ofBool (decide (b < a)))
  | _ => .ok (ofBool (decide (b ≤ a)))

/-- The number in a variable; an empty one holds zero. -/
def valueOf (values : List (String × String)) (name : String) : Except ArithmeticFault Int :=
  let s := (values.lookup name).getD ""
  match integerArgument s with
  | (n, none) => .ok (wrap n)
  | (_, some _) => .error (.notNumber s)

/-- The value of an expression, and the variables after it. -/
def eval (values : List (String × String)) :
    Arithmetic → Except ArithmeticFault (Int × List (String × String))
  | .number n => .ok (wrap n, values)
  | .name s => do return (← valueOf values s, values)
  | .unary op a => do
    let (n, values) ← eval values a
    match op with
    | '-' => return (wrap (-n), values)
    | '!' => return (ofBool (n == 0), values)
    | '~' => return (-n - 1, values)
    | _ => return (n, values)
  | .binary op a b => do
    let (m, values) ← eval values a
    let (n, values) ← eval values b
    return (← operate op m n, values)
  | .both a b => do
    let (m, values) ← eval values a
    if m == 0 then return (0, values)
    let (n, values) ← eval values b
    return (ofBool (n != 0), values)
  | .either a b => do
    let (m, values) ← eval values a
    if m != 0 then return (1, values)
    let (n, values) ← eval values b
    return (ofBool (n != 0), values)
  | .choose c a b => do
    let (m, values) ← eval values c
    if m != 0 then eval values a else eval values b
  | .assign s op a => do
    let (n, values) ← eval values a
    let n ←
      match op with
      | none => pure n
      | some op => operate op (← valueOf values s) n
    return (n, (s, toString n) :: values)

end Arithmetic

end Entail.Command
