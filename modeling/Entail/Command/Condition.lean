import Entail.Command.Effect
import Entail.Command.Format

set_option autoImplicit false

/-! # Conditions

The conditions on texts, numbers and files that the command `test` decides. -/

namespace Entail.Command

/-- Why a condition cannot be decided. -/
inductive ConditionFault where
  /-- after a word that ends the condition there is one more -/
  | unexpected (last extra : String)
  | notNumber (s : String)
  /-- there is nothing behind an operator, or behind a parenthesis -/
  | lacksOperand (op : String)
  | notUnary (s : String)
  | notBinary (s : String)
  deriving DecidableEq, Inhabited

namespace Condition

/-- An integer, with blanks around it. -/
def integer? (s : String) : Option Int :=
  match (s.toList.dropWhile (· == ' ')).reverse.dropWhile (· == ' ') |>.reverse with
  | '-' :: cs => (decimal? (String.ofList cs)).map fun n => -(n : Int)
  | '+' :: cs => (decimal? (String.ofList cs)).map Int.ofNat
  | cs => (decimal? (String.ofList cs)).map Int.ofNat

/-- Compare two integers. -/
def compareIntegers (test : Int → Int → Bool) (a b : String) : Except ConditionFault Bool :=
  match integer? a, integer? b with
  | some x, some y => .ok (test x y)
  | none, _ => .error (.notNumber a)
  | _, none => .error (.notNumber b)

/-- Decide a condition with an operator between two operands; nothing if it is no operator. -/
def binary? (dialect : Dialect) (a op b : String) : Option (Except ConditionFault Bool) :=
  match op with
  | "=" => some (.ok (a == b))
  | "==" => if dialect == .program then some (.ok (a == b)) else none
  | "!=" => some (.ok (a != b))
  | "<" => some (.ok (decide (a < b)))
  | ">" => some (.ok (decide (b < a)))
  | "-eq" => some (compareIntegers (· == ·) a b)
  | "-ne" => some (compareIntegers (· != ·) a b)
  | "-lt" => some (compareIntegers (fun x y => decide (x < y)) a b)
  | "-le" => some (compareIntegers (fun x y => decide (x ≤ y)) a b)
  | "-gt" => some (compareIntegers (fun x y => decide (y < x)) a b)
  | "-ge" => some (compareIntegers (fun x y => decide (y ≤ x)) a b)
  | _ => none

/-- Decide a condition with an operator in front of one operand; nothing if it is no operator. -/
def unary? (files : Files) (op a : String) : Option Bool :=
  let node := (files.find a).toOption
  match op with
  | "-n" => some (!a.isEmpty)
  | "-z" => some a.isEmpty
  | "-e" | "-r" | "-w" => some node.isSome
  | "-f" =>
    some (match node with
      | some (.text _) | some .program => true
      | _ => false)
  | "-d" => some (node == some .directory)
  | "-x" => some (node == some .directory || node == some .program)
  | "-s" =>
    some (match node with
      | some (.text content) => !content.isEmpty
      | some .null | none => false
      | _ => true)
  | "-c" => some (node == some .null)
  | "-b" | "-p" | "-S" | "-L" | "-h" | "-u" | "-g" | "-k" | "-t" => some false
  | "-O" | "-G" => some node.isSome
  | _ => none

/-- What is being decided: alternatives, joint conditions, or a single one. -/
inductive Level where
  | either
  | both
  | single

/-- Decide the condition at the start of some words in at most `n` steps, with the words after
    it. -/
def decideAt (dialect : Dialect) (files : Files) (n : Nat) (level : Level) (words : List String) :
    Except ConditionFault (Bool × List String) :=
  match n with
  | 0 => .error (.lacksOperand "")
  | n + 1 =>
    match level with
    | .either => do
      let (a, rest) ← decideAt dialect files n .both words
      match rest with
      | "-o" :: rest =>
        let (b, rest) ← decideAt dialect files n .either rest
        return (a || b, rest)
      | rest => return (a, rest)
    | .both => do
      let (a, rest) ← decideAt dialect files n .single words
      match rest with
      | "-a" :: rest =>
        let (b, rest) ← decideAt dialect files n .both rest
        return (a && b, rest)
      | rest => return (a, rest)
    | .single =>
      let lone (a : String) (rest : List String) : Except ConditionFault (Bool × List String) :=
        match rest with
        | op :: b :: later =>
          match binary? dialect a op b with
          | some result => result.map (·, later)
          | none => .ok (!a.isEmpty, rest)
        | [op] =>
          if (binary? dialect "0" op "0").isSome then .error (.lacksOperand op)
          else .ok (!a.isEmpty, rest)
        | [] => .ok (!a.isEmpty, [])
      match words with
      | [] => .ok (false, [])
      | "!" :: a :: rest =>
        if rest.isEmpty || (binary? dialect "!" a (rest.headD "")).isNone then do
          let (b, rest) ← decideAt dialect files n .single (a :: rest)
          return (!b, rest)
        else lone "!" (a :: rest)
      | "(" :: a :: rest =>
        if !rest.isEmpty && (binary? dialect "(" a (rest.headD "")).isSome then
          lone "(" (a :: rest)
        else do
          let (b, rest) ← decideAt dialect files n .either (a :: rest)
          match rest with
          | ")" :: rest => return (b, rest)
          | _ => throw (.lacksOperand "(")
      | a :: b :: rest =>
        if !rest.isEmpty && (binary? dialect a b (rest.headD "")).isSome then lone a (b :: rest)
        else
          match unary? files a b with
          | some result => .ok (result, rest)
          | none => lone a (b :: rest)
      | [a] => .ok (!a.isEmpty, [])

/-- Decide a condition. No words at all are false, and a single word is true unless it is empty. -/
def decide (dialect : Dialect) (files : Files) (words : List String) : Except ConditionFault Bool :=
  match words with
  | [] => .ok false
  | [a] => .ok (!a.isEmpty)
  | ["!", a] => .ok a.isEmpty
  | words => do
    let (result, rest) ← decideAt dialect files (3 * words.length + 3) .either words
    match rest with
    | [] => return result
    | extra :: _ => throw (.unexpected ((words[words.length - rest.length - 1]?).getD "") extra)

end Condition

/-- The condition of a call by name: a bracket needs another one at the end. -/
def conditionWords (name : String) (args : List String) : Option (List String) :=
  if name.endsWith "[" then
    if args.getLast? == some "]" then some args.dropLast else none
  else some args

/-- What is wrong with two or three words that make no condition. -/
def shortFault? (files : Files) (words : List String) : Option ConditionFault :=
  match words with
  | [a, b] =>
    if a == "!" || (Condition.unary? files a b).isSome then none
    else if a.startsWith "-" && a.length == 2 then some (.notUnary a)
    else some (.lacksOperand b)
  | [a, b, c] =>
    if a == "!" || (a == "(" && c == ")") || b == "-a" || b == "-o" ||
      (Condition.binary? .program a b c).isSome then none
    else some (.notBinary b)
  | _ => none

/-- Decide a condition by the exit code. -/
def test : Program := fun inv =>
  match conditionWords inv.name inv.args with
  | none => inv.fail "missing ']'" 2
  | some words =>
    let result : Except ConditionFault Bool :=
      match shortFault? inv.files words with
      | some fault => .error fault
      | none => Condition.decide .program inv.files words
    match result with
    | .ok b => .exit inv.input (if b then 0 else 1)
    | .error (.unexpected _ extra) => inv.fail ("extra argument '" ++ extra ++ "'") 2
    | .error (.notNumber s) => inv.fail ("invalid integer '" ++ s ++ "'") 2
    | .error (.lacksOperand op) => inv.fail ("missing argument after '" ++ op ++ "'") 2
    | .error (.notUnary s) => inv.fail ("'" ++ s ++ "': unary operator expected") 2
    | .error (.notBinary s) => inv.fail ("'" ++ s ++ "': binary operator expected") 2

end Entail.Command
