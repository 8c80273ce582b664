import Entail.Command.Interpret

set_option autoImplicit false

/-! # Programs that run programs

Programs that run the command in their arguments, in another environment, for a limited time or on
arguments from their input. With the shell they complete the table of programs. -/

namespace Entail.Command

/-- Run the command in some arguments, or complain that it is not there. -/
def runCommand (lookup : Exec.Lookup) (inv : Invocation) (command : List String) : Effect :=
  match command with
  | [] => inv.misuse "missing operand" 125
  | name :: args =>
    match lookup inv.files name with
    | .ok program => program { inv with name, args }
    | .error e =>
      inv.fail ("'" ++ name ++ "': " ++ e.reason)
        (match e with
          | .missing | .notDirectory => 127
          | _ => 126)

/-- Run a command with some variables set, or show all variables. -/
def env (lookup : Exec.Lookup) : Program := fun inv =>
  let rec options : List (String × String) → List String → List (String × String) × List String
    | _, "-i" :: args | _, "-" :: args => options [] args
    | environment, "-u" :: name :: args => options (environment.filter (·.1 != name)) args
    | environment, "--" :: args => (environment, args)
    | environment, args => (environment, args)
  let (environment, args) := options inv.environment inv.args
  let assigned := args.takeWhile fun a => a.contains '=' && !a.startsWith "="
  let environment := assigned.foldl (fun environment a =>
    let (name, value) := Exec.splitAssignment a
    environment.filter (·.1 != name) ++ [(name, value.getD "")]) environment
  match args.drop assigned.length with
  | [] => Effect.finish (String.join (environment.map fun (n, v) => n ++ "=" ++ v ++ "\n")) ""
      inv.input 0
  | command => runCommand lookup { inv with environment } command

/-- Show the values of some variables, or all variables. -/
def printenv : Program := fun inv =>
  if inv.args.isEmpty then
    .finish (String.join (inv.environment.map fun (n, v) => n ++ "=" ++ v ++ "\n")) "" inv.input 0
  else
    let values := inv.args.filterMap fun name => inv.environment.lookup name
    .finish (String.join (values.map (· ++ "\n"))) "" inv.input
      (if values.length == inv.args.length then 0 else 1)

/-- Run a command for a limited time. -/
def timeout (lookup : Exec.Lookup) : Program := fun inv =>
  let rec options : List String → Bool × List String
    | "-s" :: signal :: args =>
      let (kills, rest) := options args
      (kills || signal == "KILL" || signal == "9", rest)
    | "-k" :: _ :: args => options args
    | args => (false, args)
  let (kills, args) := options inv.args
  match args with
  | limit :: command@(_ :: _) =>
    match milliseconds? limit with
    | none => inv.misuse ("invalid time interval '" ++ limit ++ "'") 125
    | some limit =>
      let e := runCommand lookup inv command
      if limit == 0 || e.duration.any (· < limit) then e
      else
        { e with
          writes := e.writes.filter (·.time < limit)
          status := if kills then .killed 9 else .exited 124
          duration := some limit }
  | _ => .finish "" ("Try '" ++ inv.name ++ " --help' for more information.\n") inv.input 125

/-- Run the command in the arguments as it is. -/
def plainly (lookup : Exec.Lookup) : Program := fun inv => runCommand lookup inv inv.args

/-- Run commands one after the other, each on no input. A failure makes the code 123, and a command
    that is not there ends all. -/
def runInTurn (lookup : Exec.Lookup) (inv : Invocation) : List (List String) → Files → Effect
  | [], _ => .exit "" 0
  | command :: commands, files =>
    match command with
    | [] => runInTurn lookup inv commands files
    | name :: args =>
      match lookup files name with
      | .error e => .finish "" (inv.name ++ ": " ++ name ++ ": " ++ e.reason ++ "\n") "" 127
      | .ok program =>
        let first := program { inv with name, args, files, input := "" }
        match first.duration with
        | none => first
        | some d =>
          let later := runInTurn lookup inv commands (first.changed.getD files)
          { writes := first.writes ++ later.writes.map fun w => { w with time := w.time + d }
            unread := ""
            status :=
              if later.status == .success && first.status != .success then .exited 123
              else later.status
            duration := later.duration.map (· + d)
            changed := later.changed.or first.changed }

/-- The words of a text, which may be quoted. -/
def inputWords (n : Nat) (cs : List Char) : List String :=
  match n with
  | 0 => []
  | n + 1 =>
    match cs.dropWhile fun c => isBlank c || c == '\n' with
    | [] => []
    | cs =>
      let rec word : List Char → List Char × List Char
        | [] => ([], [])
        | '\\' :: c :: cs =>
          let (w, rest) := word cs
          (c :: w, rest)
        | c :: cs =>
          if isBlank c || c == '\n' then ([], c :: cs)
          else
            let (w, rest) := word cs
            (c :: w, rest)
      match cs with
      | '"' :: cs =>
        String.ofList (cs.takeWhile (· != '"')) :: inputWords n (cs.dropWhile (· != '"') |>.drop 1)
      | '\'' :: cs =>
        String.ofList (cs.takeWhile (· != '\'')) ::
          inputWords n (cs.dropWhile (· != '\'') |>.drop 1)
      | cs =>
        let (w, rest) := word cs
        String.ofList w :: inputWords n rest

/-- Rows of so many words. -/
def rowsOf (size : Nat) : (n : Nat) → List String → List (List String)
  | 0, _ => []
  | n + 1, words =>
    if words.isEmpty then [] else words.take size :: rowsOf size n (words.drop size)

/-- Run a command with the words of the input as further arguments. -/
def xargs (lookup : Exec.Lookup) : Program := fun inv =>
  let rec options : List String → (Option Nat × Option String × Bool) × List String
    | "-n" :: k :: args =>
      let ((_, mark, empty), rest) := options args
      ((decimal? k, mark, empty), rest)
    | "-I" :: m :: args =>
      let ((size, _, empty), rest) := options args
      ((size, some m, empty), rest)
    | "-r" :: args =>
      let ((size, mark, _), rest) := options args
      ((size, mark, true), rest)
    | arg :: args =>
      match arg.toList with
      | '-' :: 'n' :: k =>
        let ((_, mark, empty), rest) := options args
        ((decimal? (String.ofList k), mark, empty), rest)
      | '-' :: 'I' :: m =>
        let ((size, _, empty), rest) := options args
        ((size, some (String.ofList m), empty), rest)
      | _ => ((none, none, false), arg :: args)
    | [] => ((none, none, false), [])
  let ((size, mark, unlessEmpty), command) := options inv.args
  let command := if command.isEmpty then ["echo"] else command
  match mark with
  | some mark =>
    let lines := (inv.input.splitOn "\n").filter (!·.isEmpty)
    runInTurn lookup inv (lines.map fun line =>
      command.map fun arg => line.intercalate (arg.splitOn mark)) inv.files
  | none =>
    let words := inputWords (inv.input.length + 1) inv.input.toList
    if words.isEmpty then runInTurn lookup inv (if unlessEmpty then [] else [command]) inv.files
    else
      let rows := rowsOf (max 1 (size.getD words.length)) (words.length + 1) words
      runInTurn lookup inv (rows.map (command ++ ·)) inv.files

/-- Say where programs are. -/
def which : Program := fun inv =>
  let found := inv.args.filterMap fun name =>
    match inv.files.program name with
    | .ok _ => some ((if name.contains '/' then name else "/usr/bin/" ++ name) ++ "\n")
    | .error _ => none
  .finish (String.join found) "" inv.input (if found.length == inv.args.length then 0 else 1)

/-- The programs that run others, by name. -/
def launchers (lookup : Exec.Lookup) : List (String × Program) :=
  [("bash", shell lookup), ("dash", shell lookup), ("env", env lookup), ("nice", plainly lookup),
    ("nohup", plainly lookup), ("printenv", printenv), ("setsid", plainly lookup),
    ("sh", shell lookup), ("timeout", timeout lookup), ("which", which), ("xargs", xargs lookup)]

/-- The programs that are there, which run others so many times within each other. -/
def lookupAt : (depth : Nat) → Exec.Lookup
  | 0, files, name => do
    let base ← files.program name
    match simplePrograms.lookup base with
    | some program => return program
    | none => throw .missing
  | depth + 1, files, name => do
    let base ← files.program name
    match (launchers (lookupAt depth)).lookup base with
    | some program => return program
    | none =>
      match simplePrograms.lookup base with
      | some program => return program
      | none => throw .missing

/-- The names of all programs. -/
def programNames : List String :=
  simplePrograms.map (·.1) ++ (launchers (lookupAt 0)).map (·.1)

end Entail.Command
