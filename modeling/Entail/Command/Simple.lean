import Entail.Command.Condition
import Entail.Command.Format
import Entail.Command.Search

set_option autoImplicit false

/-! # Simple programs

Programs that write what their arguments say, or wait. With the filters they make the table of
programs that are installed. -/

namespace Entail.Command

-- powers and sums are the core library's, whatever else is imported
attribute [local instance (high)] instPowNat Zero.ofOfNat0

/-! ## Writing the arguments -/

/-- Print arguments, with escapes if they are wanted, and a line feed unless an escape ends all
    output. -/
def echoText (dialect : Dialect) (escapes newline : Bool) (args : List String) : String :=
  let text := " ".intercalate args
  if escapes then
    let (cs, ended) := unescape dialect (text.length + 1) text.toList
    String.ofList cs ++ if newline && !ended then "\n" else ""
  else text ++ if newline then "\n" else ""

/-- Letters after a dash that the program `echo` takes as options. -/
def isEchoOption (arg : String) : Bool :=
  match arg.toList with
  | '-' :: c :: cs => (c :: cs).all fun c => c == 'n' || c == 'e' || c == 'E'
  | _ => false

/-- Print the arguments on a line. -/
def echo : Program := fun inv =>
  let options := (inv.args.takeWhile isEchoOption).flatMap fun o => o.toList.drop 1
  let escapes := (options.filter (· != 'n')).getLast? == some 'e'
  .finish (echoText .program escapes (!options.contains 'n') (inv.args.dropWhile isEchoOption)) ""
    inv.input 0

/-- Print a format with arguments. -/
def printf : Program := fun inv =>
  match inv.args with
  | [] => inv.misuse "missing operand" 1
  | f :: args =>
    let out := formatAll .program f.toList (args.length + 1) args
    let complaints := out.complaints.map fun c => inv.name ++ ": " ++ c ++ "\n"
    let excess :=
      match out.ended, out.rest with
      | false, extra :: _ =>
        inv.name ++ ": warning: ignoring excess arguments, starting with '" ++ extra ++ "'\n"
      | _, _ => ""
    .finish (String.ofList out.text) (String.join complaints ++ excess) inv.input
      (if complaints.isEmpty then 0 else 1)

/-- The numbers from one to another in equal steps, at most `n` of them. -/
def countUp (step last : Int) : (n : Nat) → Int → List Int
  | 0, _ => []
  | n + 1, k =>
    if (0 < step && last < k) || (step < 0 && k < last) || step == 0 then []
    else k :: countUp step last n (k + step)

/-- Print numbers in equal steps. -/
def seq : Program := fun inv =>
  let rec options : List String → (String × Bool) → (String × Bool) × List String
    | "-s" :: s :: args, (_, wide) => options args (s, wide)
    | arg :: args, (separator, wide) =>
      match arg.toList with
      | ['-', 'w'] => options args (separator, true)
      | '-' :: 's' :: s => options args (String.ofList s, wide)
      | _ => ((separator, wide), arg :: args)
    | args, chosen => (chosen, args)
  let ((separator, wide), operands) := options inv.args ("\n", false)
  let numbers := operands.map fun arg => (arg, decimalArgument arg)
  match numbers.find? fun n => n.2.2.isSome || n.1.isEmpty with
  | some (arg, _) => inv.misuse ("invalid floating point argument: '" ++ arg ++ "'") 1
  | none =>
    let places := (numbers.map fun n => n.2.1.2).foldl max 0
    let value (n : Int × Nat) : Int := n.1 * 10 ^ (places - n.2)
    let print (first step last : Int) : Effect :=
      let ks := countUp step last (((last - first).natAbs / step.natAbs) + 1) first
      let shown (k : Int) : List Char := writeFixed [] 0 places (k, places)
      let width := (ks.map fun k => (shown k).length).foldl max 0
      let texts := ks.map fun k =>
        String.ofList (if wide then writeFixed ['0'] width places (k, places) else shown k)
      .finish (if texts.isEmpty then "" else separator.intercalate texts ++ "\n") "" inv.input 0
    let one : Int := 10 ^ places
    match numbers.map fun n => value n.2.1 with
    | [] => inv.misuse "missing operand" 1
    | [last] => print one one last
    | [first, last] => print first one last
    | [first, step, last] =>
      if step == 0 then inv.misuse "invalid Zero increment value: '0'" 1 else print first step last
    | _ => inv.misuse ("extra operand '" ++ operands.getD 3 "" ++ "'") 1

/-- How many lines of an endless output are written out. -/
def endlessLines : Nat := 100000

/-- Print a line for ever. -/
def yes : Program := fun inv =>
  let line := (if inv.args.isEmpty then "y" else " ".intercalate inv.args) ++ "\n"
  { Effect.finish (String.join (List.replicate endlessLines line)) "" inv.input 0 with
    duration := none }

/-! ## Names of files -/

/-- The names in a path. -/
def pathNames (path : String) : List String := (path.splitOn "/").filter (!·.isEmpty)

/-- Print the last name of a path, without a suffix if one is given. -/
def basename : Program := fun inv =>
  match inv.args with
  | [] => inv.misuse "missing operand" 1
  | path :: rest =>
    let name := (pathNames path).getLast?.getD (if path.startsWith "/" then "/" else "")
    let suffix := rest.headD ""
    let name :=
      if name.endsWith suffix && name != suffix then
        String.ofList (name.toList.take (name.length - suffix.length))
      else name
    .finish (name ++ "\n") "" inv.input 0

/-- Print a path without its last name. -/
def dirname : Program := fun inv =>
  match inv.args with
  | [] => inv.misuse "missing operand" 1
  | paths =>
    let directory (path : String) : String :=
      let names := (pathNames path).dropLast
      if path.startsWith "/" then "/" ++ "/".intercalate names
      else if names.isEmpty then "."
      else "/".intercalate names
    .finish (String.join (paths.map fun p => directory p ++ "\n")) "" inv.input 0

/-- List the names in directories, and files by their own names. -/
def ls : Program :=
  withArguments "1aAdFl" "" 2 fun inv a =>
    let show_ (path : String) : Except String (List String) :=
      match inv.files.resolve path, inv.files.find path with
      | .ok place, .ok .directory =>
        let names := inv.files.nodes.filterMap fun (p, _) =>
          if p.dropLast == place && !p.isEmpty then p.getLast? else none
        .ok (if a.has 'd' then [path] else names.mergeSort fun x y => decide (x ≤ y))
      | .ok _, .ok _ => .ok [path]
      | .error e, _ | _, .error e =>
        .error (inv.name ++ ": cannot access '" ++ path ++ "': " ++ e.reason ++ "\n")
    let results := (if a.operands.isEmpty then ["."] else a.operands).map show_
    let output := results.flatMap fun
      | .ok names => names.map (· ++ "\n")
      | .error _ => []
    let complaints := results.filterMap fun
      | .ok _ => none
      | .error message => some message
    .finish (String.join output) (String.join complaints) inv.input
      (if complaints.isEmpty then 0 else 2)

/-- Change the files at each of some paths, and report the paths where that fails. -/
def changeFiles (inv : Invocation) (what : String) (paths : List String)
    (change : Files → String → Except FileError Files) : Effect :=
  let (files, complaints) := paths.foldl (fun (files, complaints) path =>
    match change files path with
    | .ok files => (files, complaints)
    | .error e =>
      (files, complaints ++ inv.name ++ ": " ++ what ++ " '" ++ path ++ "': " ++ e.reason ++ "\n"))
    (inv.files, "")
  { Effect.finish "" complaints inv.input (if complaints.isEmpty then 0 else 1) with
    changed := some files }

/-- Remove files, and directories if that is wanted. -/
def rm : Program :=
  withArguments "frRv" "" 1 fun inv a =>
    let force := a.has 'f'
    let deep := a.has 'r' || a.has 'R'
    if a.operands.isEmpty && !force then inv.misuse "missing operand" 1
    else
      changeFiles inv "cannot remove" a.operands fun files path => do
        let place ← files.resolve path
        match files.node? place with
        | none => if force then return files else throw .missing
        | some .directory => if deep then return files.remove place else throw .isDirectory
        | some _ => return files.remove place

/-- Make empty files where there are none. -/
def touch : Program :=
  withArguments "acm" "" 1 fun inv a =>
    if a.operands.isEmpty then inv.misuse "missing file operand" 1
    else
      changeFiles inv "cannot touch" a.operands fun files path => do
        let place ← files.resolve path
        if (files.node? place).isSome then return files else files.write path false ""

/-- Make directories. -/
def mkdir : Program :=
  withArguments "pv" "m" 1 fun inv a =>
    if a.operands.isEmpty then inv.misuse "missing operand" 1
    else
      let (files, complaints) := a.operands.foldl (fun (files, complaints) path =>
        let complain (reason : String) :=
          (files, complaints ++ inv.name ++ ": cannot create directory '" ++ path ++ "': " ++
            reason ++ "\n")
        match files.resolve path with
        | .error e => complain e.reason
        | .ok place =>
          match files.node? place with
          | some _ => if a.has 'p' then (files, complaints) else complain "File exists"
          | none => (files.putNode place .directory, complaints)) (inv.files, "")
      { Effect.finish "" complaints inv.input (if complaints.isEmpty then 0 else 1) with
        changed := some files }

/-- The place that a copy goes to: inside of a directory, or the place itself. -/
def copyPlace (files : Files) (source target : String) : Except FileError FilePath := do
  let place ← files.resolve target
  if files.node? place == some .directory then
    return place ++ ((pathNames source).getLast?).toList
  else return place

/-- Copy a file; `moves` takes the old one away. -/
def copyAs (moves : Bool) : Program :=
  withArguments "fprRav" "" 1 fun inv a =>
    match a.operands with
    | [] => inv.misuse "missing file operand" 1
    | [source] => inv.misuse ("missing destination file operand after '" ++ source ++ "'") 1
    | operands =>
      let target := operands.getLastD ""
      changeFiles inv "cannot stat" operands.dropLast fun files source => do
        let node ← files.find source
        let place ← copyPlace files source target
        let copied := files.putNode place node
        if moves then return copied.remove (← files.resolve source) else return copied

/-- Print the name of the system. -/
def uname : Program :=
  withArguments "snrvmpioa" "" 1 fun inv a =>
    .finish ((if a.has 'm' then "x86_64" else "Linux") ++ "\n") "" inv.input 0

/-! ## Waiting -/

/-- Milliseconds from a decimal number with a letter for its unit. -/
def milliseconds? (s : String) : Option Nat :=
  let cs := s.toList
  let (digits, unit) : List Char × Option Nat :=
    match cs.getLast? with
    | some 's' => (cs.dropLast, some 1)
    | some 'm' => (cs.dropLast, some 60)
    | some 'h' => (cs.dropLast, some 3600)
    | some 'd' => (cs.dropLast, some 86400)
    | _ => (cs, some 1)
  match unit, decimalArgument (String.ofList digits) with
  | some unit, ((n, places), none) =>
    if digits.isEmpty || n < 0 then none else some (n.toNat * unit * 1000 / 10 ^ places)
  | _, _ => none

/-- Wait for the times that are named, together. -/
def sleep : Program := fun inv =>
  let endless (arg : String) : Bool := arg == "infinity" || arg == "inf"
  match Arguments.read "" "" inv.args with
  | .error message => inv.misuse message 1
  | .ok a =>
    match a.operands.find? fun arg => !endless arg && (milliseconds? arg).isNone with
    | some arg => inv.misuse ("invalid time interval '" ++ arg ++ "'") 1
    | none =>
      if a.operands.isEmpty then inv.misuse "missing operand" 1
      else
        { Effect.exit inv.input 0 with
          duration := (a.operands.mapM milliseconds?).map List.sum }

/-! ## Expressions -/

namespace Expression

/-- The operators between two words, from the loosest to the tightest. -/
def level? : String → Option Nat
  | "|" => some 1
  | "&" => some 2
  | "<" | "<=" | "=" | "==" | "!=" | ">=" | ">" => some 3
  | "+" | "-" => some 4
  | "*" | "/" | "%" => some 5
  | ":" => some 6
  | _ => none

/-- A word that counts as no: empty or zero. -/
def isNull (s : String) : Bool := s.isEmpty || Condition.integer? s == some 0

/-- What a text matches from its start: the first group, or how many characters. -/
def matchStart (text pattern : String) : Except String String :=
  match Regex.read? false pattern with
  | none => .error "syntax error"
  | some r =>
    let grouped := (pattern.splitOn "\\(").length != 1
    match r.matchAt 0 text.toList with
    | none => .ok (if grouped then "" else "0")
    | some p =>
      .ok (if grouped then String.ofList ((p.groups.lookup 1).getD [])
        else toString (text.length - p.rest.length))

/-- Do an operation between two words. -/
def operate (op a b : String) : Except String String :=
  let integers (f : Int → Int → Except String Int) : Except String String :=
    match Condition.integer? a, Condition.integer? b with
    | some m, some n => (f m n).map toString
    | _, _ => .error "non-integer argument"
  let order : Ordering :=
    match Condition.integer? a, Condition.integer? b with
    | some m, some n => compare m n
    | _, _ => compareOfLessAndEq a b
  let truth (b : Bool) : Except String String := .ok (if b then "1" else "0")
  match op with
  | "|" => .ok (if !isNull a then a else if !isNull b then b else "0")
  | "&" => .ok (if isNull a || isNull b then "0" else a)
  | "<" => truth (order == .lt)
  | "<=" => truth (order != .gt)
  | "=" | "==" => truth (order == .eq)
  | "!=" => truth (order != .eq)
  | ">=" => truth (order != .lt)
  | ">" => truth (order == .gt)
  | "+" => integers fun m n => .ok (m + n)
  | "-" => integers fun m n => .ok (m - n)
  | "*" => integers fun m n => .ok (m * n)
  | "/" => integers fun m n => if n == 0 then .error "division by zero" else .ok (m.tdiv n)
  | "%" => integers fun m n => if n == 0 then .error "division by zero" else .ok (m.tmod n)
  | _ => matchStart a b

/-- What is being read: an operand with what binds tighter than a level, or what follows a value. -/
inductive Part where
  /-- after this word -/
  | operand (after : String)
  | climbing (level : Nat) (left : String)

/-- The value of the expression at the start of some words, in at most `n` steps. -/
def eval (n : Nat) (part : Part) (words : List String) : Except String (String × List String) :=
  match n with
  | 0 => .error "syntax error"
  | n + 1 =>
    match part with
    | .operand after =>
      match words with
      | [] => .error ("syntax error: missing argument after '" ++ after ++ "'")
      | "(" :: words => do
        let (first, words) ← eval n (.operand "(") words
        let (value, words) ← eval n (.climbing 1 first) words
        match words with
        | ")" :: words => return (value, words)
        | _ => throw "syntax error: expecting ')'"
      | "length" :: s :: words => return (toString s.length, words)
      | "substr" :: s :: start :: count :: words =>
        let text :=
          match decimal? start, decimal? count with
          | some i, some k => if i == 0 then [] else (s.toList.drop (i - 1)).take k
          | _, _ => []
        return (String.ofList text, words)
      | "index" :: s :: chars :: words =>
        return (toString (((s.toList.findIdx? chars.toList.contains).map (· + 1)).getD 0), words)
      | word :: words => return (word, words)
    | .climbing level left =>
      match words with
      | [] => return (left, [])
      | op :: rest =>
        match level? op with
        | none => return (left, words)
        | some tight =>
          if tight < level then return (left, words)
          else do
            let (first, rest) ← eval n (.operand op) rest
            let (right, rest) ← eval n (.climbing (tight + 1) first) rest
            eval n (.climbing level (← operate op left right)) rest

end Expression

/-- Print the value of an expression. -/
def expr : Program := fun inv =>
  let n := 4 * inv.args.length + 4
  let result := do
    let (first, words) ← Expression.eval n (.operand "") inv.args
    Expression.eval n (.climbing 1 first) words
  if inv.args.isEmpty then inv.misuse "missing operand" 2
  else
    match result with
    | .error message => inv.fail message 2
    | .ok (value, []) =>
      .finish (value ++ "\n") "" inv.input (if Expression.isNull value then 1 else 0)
    | .ok (_, extra :: _) => inv.fail ("syntax error: unexpected argument '" ++ extra ++ "'") 2

/-! ## The table -/

/-- The programs that run no other program, by name. -/
def simplePrograms : List (String × Program) :=
  [("[", test), ("basename", basename), ("cat", cat), ("cp", copyAs false), ("cut", cut),
    ("dirname", dirname),
    ("echo", echo), ("egrep", grepAs true false), ("expr", expr),
    ("false", fun inv => .exit inv.input 1), ("fgrep", grepAs false true),
    ("grep", grepAs false false), ("head", head), ("ls", ls), ("mkdir", mkdir),
    ("mv", copyAs true), ("nl", nl), ("printf", printf), ("rev", rev), ("rm", rm), ("sed", sed),
    ("seq", seq), ("sleep", sleep), ("sort", sort), ("tac", tac), ("tail", tail),
    ("tee", tee), ("test", test), ("touch", touch), ("tr", tr),
    ("true", fun inv => .exit inv.input 0), ("uname", uname), ("uniq", uniq), ("wc", wc),
    ("yes", yes)]

end Entail.Command
