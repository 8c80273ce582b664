import Entail.Command.Shell

set_option autoImplicit false

/-! # The commands of the shell itself

The commands that a shell carries out without running a program or a script. Some of them are
special: when one of those fails, the shell ends. -/

namespace Entail.Command

namespace Exec

/-! ## Arguments -/

/-- The letter of an option that a command without options is given. -/
def illegalOption? (args : List String) : Option Char :=
  match args.head?.map String.toList with
  | some ('-' :: c :: _) => if c == '-' then none else some c
  | _ => none

/-! ## Leaving and repeating -/

/-- The number in the first argument, if there is one; the shell ends if it is none. -/
def countArgument (command : String) (args : List String) : Exec (Option Nat) :=
  match args with
  | [] => return none
  | arg :: _ =>
    match decimal? arg with
    | some n => return some n
    | none => fatal (command ++ ": Illegal number: " ++ arg)

/-- Leave the shell or a function with a code, or with the status of the last command. -/
def leave (command : String) (jump : Jump) (args : List String) : Exec Unit := do
  match ← countArgument command args with
  | some n => finish n
  | none => pure ()
  throw jump

/-- Leave loops, or go on with their next round. -/
def leaveLoops (command : String) (jump : Nat → Jump) (args : List String) : Exec Unit := do
  let n := (← countArgument command args).getD 1
  if n == 0 then fatal (command ++ ": Illegal number: 0")
  let s ← get
  finish 0
  if 0 < s.loops then throw (jump (min n s.loops))

/-! ## Parameters and variables -/

/-- Drop the first parameters. -/
def shift (args : List String) : Exec Unit := do
  let n := (← countArgument "shift" args).getD 1
  let s ← get
  if s.parameters.length < n then fatal "shift: can't shift that many"
  set { s with parameters := s.parameters.drop n, status := .success }

/-- The letters for the long names of flags. -/
def flagNames : List (String × Char) :=
  [("errexit", 'e'), ("noglob", 'f'), ("ignoreeof", 'I'), ("interactive", 'i'), ("monitor", 'm'),
    ("noexec", 'n'), ("stdin", 's'), ("xtrace", 'x'), ("verbose", 'v'), ("vi", 'V'), ("emacs", 'E'),
    ("noclobber", 'C'), ("allexport", 'a'), ("notify", 'b'), ("nounset", 'u'), ("nolog", 'l')]

/-- Set or clear a flag. -/
def setFlag (on : Bool) (flag : Char) : Exec Unit :=
  modify fun s =>
    let others := s.flags.filter (· != flag)
    { s with flags := if on then others ++ [flag] else others }

/-- Set flags and parameters. -/
def setOptions : List String → Exec Unit
  | [] => finish 0
  | "--" :: args => modify fun s => { s with parameters := args, status := .success }
  | "-" :: args => modify fun s => { s with parameters := args, status := .success }
  | arg :: args => do
    match arg.toList with
    | [sign, 'o'] =>
      if sign == '-' || sign == '+' then
        match args with
        | [] => finish 0
        | name :: args =>
          match flagNames.lookup name with
          | none => fatal ("set: Illegal option " ++ arg ++ " " ++ name)
          | some flag =>
            setFlag (sign == '-') flag
            setOptions args
      else modify fun s => { s with parameters := arg :: args, status := .success }
    | sign :: letters =>
      if sign == '-' || sign == '+' then
        match letters.find? fun c => !(flagNames.any (·.2 == c)) with
        | some c => fatal ("set: Illegal option " ++ sign.toString ++ c.toString)
        | none =>
          letters.forM (setFlag (sign == '-'))
          setOptions args
      else modify fun s => { s with parameters := arg :: args, status := .success }
    | [] => modify fun s => { s with parameters := arg :: args, status := .success }

/-- A text in single quotes. -/
def quote (text : String) : String :=
  "'" ++ "'\"'\"'".intercalate (text.splitOn "'") ++ "'"

/-- The name and the value in an assignment. -/
def splitAssignment (arg : String) : String × Option String :=
  match arg.splitOn "=" with
  | name :: value :: more => (name, some ("=".intercalate (value :: more)))
  | _ => (arg, none)

/-- Mark variables by `mark`, and assign to those that have a value. -/
def declare (command : String) (mark : String → Shell → Shell) (listed : Shell → List String)
    (args : List String) : Exec Unit := do
  finish 0
  if args.isEmpty || args == ["-p"] then
    let s ← get
    let lines := (listed s).eraseDups.mergeSort (fun a b => decide (a ≤ b)) |>.map fun name =>
      command ++ " " ++ name ++ ((s.values.lookup name).map fun v => "=" ++ quote v).getD "" ++ "\n"
    print command (String.join lines)
  else
    (args.filter (· != "--")).forM fun arg => do
      let (name, value) := splitAssignment arg
      if !isName name then fatal (command ++ ": " ++ name ++ ": bad variable name")
      match value with
      | some v => assign name v
      | none => pure ()
      modify (mark name)

/-- Keep the values of variables until the function ends. -/
def declareLocal (args : List String) : Exec Unit := do
  if (← get).depth == 0 then fatal "local: not in a function"
  finish 0
  args.forM fun arg => do
    let (name, value) := splitAssignment arg
    if !isName name then fatal ("local: " ++ name ++ ": bad variable name")
    modify fun s => { s with locals := (name, s.values.lookup name) :: s.locals }
    match value with
    | some v => assign name v
    | none => pure ()

/-- Forget variables or functions. -/
def unset (args : List String) : Exec Unit := do
  finish 0
  match args with
  | "-f" :: names =>
    modify fun s => { s with functions := s.functions.filter fun f => !names.contains f.1 }
  | args =>
    let names := if args.head? == some "-v" then args.tail else args
    names.forM fun name => do
      match name.toList with
      | '-' :: c :: _ => fatal ("unset: Illegal option -" ++ c.toString)
      | _ => pure ()
      if !isName name then fatal ("unset: " ++ name ++ ": bad variable name")
      let s ← get
      if s.constants.contains name then fatal ("unset: " ++ name ++ ": is read only")
      modify fun s =>
        { s.put name none with
          exported := s.exported.filter (· != name)
          functions := if s.values.any (·.1 == name) then s.functions
            else s.functions.filter (·.1 != name) }

/-! ## Reading a line -/

/-- Split a line from the rest of an input. A backslash takes the meaning from the next character,
    unless the line is `raw`; each character of the line knows whether it lost its meaning. Also
    tells whether the line has an end. -/
def splitLine (raw : Bool) (done : List (Char × Bool)) :
    List Char → List (Char × Bool) × List Char × Bool
  | [] => (done.reverse, [], false)
  | c :: cs =>
    if c == '\n' then (done.reverse, cs, true)
    else if c == '\\' && !raw then
      match cs with
      | [] => (done.reverse, [], false)
      | '\n' :: cs => splitLine raw done cs
      | d :: cs => splitLine raw ((d, true) :: done) cs
    else splitLine raw ((c, false) :: done) cs

/-- Part a line between names; the last one gets all that is left. -/
def shareLine (separators : List Char) : List String → List (Char × Bool) → List (String × String)
  | [], _ => []
  | name :: names, line =>
    let parts (c : Char × Bool) : Bool := !c.2 && separators.contains c.1
    let blank (c : Char × Bool) : Bool :=
      parts c && (c.1 == ' ' || c.1 == '\t' || c.1 == '\n')
    let text (cs : List (Char × Bool)) : String := String.ofList (cs.map (·.1))
    let line := line.dropWhile blank
    if names.isEmpty then
      let trimmed := (line.reverse.dropWhile blank).reverse
      -- a single separator at the end belongs to a field before it
      let trimmed :=
        match trimmed.reverse with
        | c :: before =>
          if parts c && !before.any parts then before.reverse else trimmed
        | [] => []
      [(name, text trimmed)]
    else
      let field := line.takeWhile (!parts ·)
      let rest := (line.drop field.length).dropWhile blank
      let rest :=
        match rest with
        | c :: more => if parts c then more else rest
        | [] => []
      (name, text field) :: shareLine separators names rest

/-- Read a line of the input into variables. -/
def readLine (args : List String) : Exec Unit := do
  let rec options : List String → Bool × List String
    | "-r" :: args => (true, (options args).2)
    | "-p" :: _ :: args => options args
    | args => (false, args)
  let (raw, names) := options args
  match names.head?.map String.toList with
  | none => complain "read: arg count" 2
  | some ('-' :: c :: _) => complain ("read: Illegal option -" ++ c.toString) 2
  | _ =>
    let s ← get
    let (line, rest, complete) := splitLine raw [] s.input.toList
    set { s with input := String.ofList rest, time := max s.time s.inputTime }
    match names.find? (!isName ·) with
    | some name => complain ("read: " ++ name ++ ": bad variable name") 2
    | none =>
      (shareLine s.separators names line).forM fun (name, value) => assign name value
      finish (if complete then 0 else 1)

/-! ## Signals and jobs -/

/-- The names of signals in the order of their numbers, from the first on. -/
def signalNames : List String :=
  ["HUP", "INT", "QUIT", "ILL", "TRAP", "ABRT", "BUS", "FPE", "KILL", "USR1", "SEGV", "USR2",
    "PIPE", "ALRM", "TERM", "STKFLT", "CHLD", "CONT", "STOP", "TSTP", "TTIN", "TTOU", "URG",
    "XCPU", "XFSZ", "VTALRM", "PROF", "WINCH", "IO", "PWR", "SYS"]

/-- The name of a signal, which is given by name or number; the number zero stands for the end of
    the shell. -/
def signalName? (s : String) : Option String :=
  match decimal? s with
  | some 0 => some "EXIT"
  | some n => signalNames[n - 1]?
  | none => if s == "EXIT" || signalNames.contains s then some s else none

/-- The number of a signal by name or number. -/
def signal? (s : String) : Option Nat :=
  match decimal? s with
  | some n => if n ≤ signalNames.length then some n else none
  | none => if s == "EXIT" then some 0 else (signalNames.findIdx? (· == s)).map (· + 1)

/-- What is said of a process that a signal killed. -/
def signalText : Nat → String
  | 1 => "Hangup"
  | 3 => "Quit"
  | 4 => "Illegal instruction"
  | 5 => "Trace/breakpoint trap"
  | 6 => "Aborted"
  | 7 => "Bus error"
  | 8 => "Floating point exception"
  | 9 => "Killed"
  | 10 => "User defined signal 1"
  | 11 => "Segmentation fault"
  | 12 => "User defined signal 2"
  | 14 => "Alarm clock"
  | 15 => "Terminated"
  | n => "Signal " ++ toString n

/-- Report that a process was killed, unless that is usual for the signal. -/
def reportKilled (status : ExitStatus) : Exec Unit :=
  match status with
  | .killed signal =>
    if signal == 2 || signal == 13 then pure ()
    else modify fun s => s.write 2 (signalText signal ++ "\n")
  | .exited _ => pure ()

/-- Say what to do on signals. -/
def setTraps (args : List String) : Exec Unit := do
  finish 0
  match illegalOption? args with
  | some c => fatal ("trap: Illegal option -" ++ c.toString)
  | none => pure ()
  let set (names : List String) (action : Option String) : Exec Unit :=
    names.forM fun given =>
      match signalName? given with
      | none =>
        modify fun s =>
          { s.write 2 ("trap: " ++ given ++ ": bad trap\n") with status := .exited 1 }
      | some name =>
        modify fun s =>
          let others := s.traps.filter (·.1 != name)
          { s with
            traps :=
              match action with
              | some a => (name, a) :: others
              | none => others }
  match (if args.head? == some "--" then args.tail else args) with
  | [] =>
    let s ← get
    let lines := ("EXIT" :: signalNames).filterMap fun name =>
      (s.traps.lookup name).map fun action => "trap -- " ++ quote action ++ " " ++ name ++ "\n"
    print "trap" (String.join lines)
  | "-" :: names => set names none
  | [name] => set [name] none
  | action :: names =>
    if (decimal? action).isSome then set (action :: names) none else set names (some action)

/-- The first shell gets a signal. -/
def receive (signal : Nat) : Exec Unit := do
  let s ← get
  finish 0
  let name := signalNames[signal - 1]?
  match name.bind fun name => s.traps.lookup name with
  | some action =>
    if signal == 9 then throw (.killed 9)
    if signal != 0 && !action.isEmpty then
      set { s with pending := s.pending ++ [action], status := .success }
  | none =>
    if [0, 17, 18, 23, 28].contains signal then pure ()
    else if 19 ≤ signal && signal ≤ 22 then throw .forever
    else throw (.killed signal)

/-- Send a signal to processes. -/
def sendSignal (args : List String) : Exec Unit := do
  let invalid (name : String) := complain ("kill: invalid signal number or name: " ++ name) 2
  let send (signal : Nat) (processes : List String) : Exec Unit :=
    processes.forM fun process => do
      let s ← get
      match decimal? process with
      | none => complain ("kill: Illegal number: " ++ process) 2
      | some n =>
        if n == firstProcess then receive signal
        else if s.jobs.any (·.process == n) then
          set { (if signal == 0 then s else s.killJob n signal) with status := .success }
        else
          set { s.say "kill: No such process\n" with status := .exited 1 }
  match args with
  | ["-l"] => print "kill" (String.join ((("0" :: signalNames).map (· ++ "\n"))))
  | "-l" :: code :: _ =>
    match decimal? code with
    | some n =>
      match signalNames[(if 128 < n then n - 128 else n) - 1]? with
      | some name => print "kill" (name ++ "\n")
      | none => invalid code
    | none => invalid code
  | "-s" :: name :: processes =>
    match signal? name with
    | some signal => send signal processes
    | none => invalid name
  | "--" :: processes => send 15 processes
  | arg :: processes =>
    match arg.toList with
    | '-' :: c :: cs =>
      match signal? (String.ofList (c :: cs)) with
      | some signal => send signal processes
      | none => complain ("kill: Illegal option -" ++ c.toString) 2
    | _ => send 15 (arg :: processes)
  | [] =>
    complain ("kill: Usage: kill [-s sigspec | -signum | -sigspec] [pid | job]... or\n" ++
      "kill -l [exitstatus]") 2

/-- Wait for a job to end. -/
def waitFor (j : Job) : Exec Unit := do
  match j.ending with
  | none => throw .forever
  | some t =>
    modify fun s =>
      { { s with time := max s.time t }.absorb (·.process == j.process) with status := j.status }

/-- Wait for all jobs, or for some of them. -/
def wait (args : List String) : Exec Unit := do
  finish 0
  if args.isEmpty then
    let s ← get
    s.children.forM waitFor
    finish 0
  else
    args.forM fun arg => do
      match decimal? arg with
      | none => complain ("wait: Illegal number: " ++ arg) 2
      | some n =>
        match (← get).children.find? (·.process == n) with
        | none => finish 127
        | some j =>
          waitFor j
          reportKilled j.status

/-! ## Directories and names -/

/-- The text of a path. -/
def pathText (path : FilePath) : String := "/" ++ "/".intercalate path

/-- Go to another directory. -/
def changeDirectory (args : List String) : Exec Unit := do
  let s ← get
  let operands := args.filter fun a => a != "-L" && a != "-P" && a != "--"
  let wanted := operands.headD ((s.values.lookup "HOME").getD "")
  let path := if wanted == "-" then (s.values.lookup "OLDPWD").getD "" else wanted
  match s.files.resolve path with
  | .ok place =>
    if s.files.node? place == some .directory then
      let old := pathText s.files.working
      set { ({ s with files := { s.files with working := place } }.put "OLDPWD" (some old)).put
        "PWD" (some (pathText place)) with status := .success }
      if wanted == "-" then print "cd" (pathText place ++ "\n")
    else complain ("cd: can't cd to " ++ path) 2
  | .error _ => complain ("cd: can't cd to " ++ path) 2

/-- Write a format with arguments. -/
def printFormat (args : List String) : Exec Unit := do
  match (if args.head? == some "--" then args.tail else args) with
  | [] => complain "printf: usage: printf format [arg ...]" 2
  | f :: more =>
    match illegalOption? args with
    | some c => return ← complain ("printf: Illegal option -" ++ c.toString) 2
    | none => pure ()
    let args := more
    let out := formatAll .shell f.toList (args.length + 1) args
    out.complaints.forM fun c => complain ("printf: " ++ c) 1
    print "printf" (String.ofList out.text)
    if out.unknown then finish 2 else if !out.complaints.isEmpty then finish 1

/-- Decide a condition. -/
def decideCondition (name : String) (args : List String) : Exec Unit := do
  match conditionWords name args with
  | none => complain (name ++ ": missing ]") 2
  | some words =>
    match Condition.decide .shell (← get).files words with
    | .ok b => finish (if b then 0 else 1)
    | .error (.unexpected s _) | .error (.notUnary s) | .error (.notBinary s) =>
      complain (name ++ ": " ++ s ++ ": unexpected operator") 2
    | .error (.notNumber s) => complain (name ++ ": Illegal number: " ++ s) 2
    | .error (.lacksOperand op) =>
      complain (name ++ ": " ++
        (if op == "(" then "closing paren expected" else op ++ ": argument expected")) 2

/-- Take the next option of a letter from the parameters or from other arguments. -/
def nextOption (args : List String) : Exec Unit := do
  match args with
  | letters :: name :: more => do
    let s ← get
    let args := if more.isEmpty then s.parameters else more
    let index := ((s.values.lookup "OPTIND").bind decimal?).getD 1
    -- how many letters of the argument are taken, kept beside the index
    let taken := ((s.values.lookup "OPTOFFSET").bind decimal?).getD 0
    let stop : Exec Unit := do
      assign name "?"
      finish 1
    match (args[index - 1]?).map String.toList with
    | some ['-', '-'] => do
      assign "OPTIND" (toString (index + 1))
      stop
    | some ('-' :: cs) =>
      match cs.drop taken with
      | [] => stop
      | c :: rest =>
        let known := letters.toList.dropWhile (· != c)
        let advance (n : Nat) : Exec Unit := do
          assign "OPTIND" (toString (index + n))
          assign "OPTOFFSET" (if n == 0 then toString (taken + 1) else "0")
        if c == ':' || known.isEmpty then
          advance (if rest.isEmpty then 1 else 0)
          if letters.startsWith ":" then assign "OPTARG" c.toString
          else modify fun s => s.write 2 ("Illegal option -" ++ c.toString ++ "\n")
          assign name "?"
          finish 0
        else if (known.drop 1).head? == some ':' then
          match rest, args[index]? with
          | [], none =>
            advance 1
            if letters.startsWith ":" then
              assign "OPTARG" c.toString
              assign name ":"
            else
              modify fun s => s.write 2 ("No arg for -" ++ c.toString ++ " option\n")
              assign name "?"
            finish 0
          | [], some value =>
            advance 2
            assign "OPTARG" value
            assign name c.toString
            finish 0
          | rest, _ =>
            advance 1
            assign "OPTARG" (String.ofList rest)
            assign name c.toString
            finish 0
        else
          advance (if rest.isEmpty then 1 else 0)
          assign name c.toString
          finish 0
    | _ => stop
  | _ => complain "getopts: Usage: getopts optstring var [arg]" 2

/-! ## The tables -/

/-- The commands that end the shell when they fail, and after which assignments in front of them
    stay. -/
def specialNames : List String :=
  [":", ".", "break", "continue", "eval", "exec", "exit", "export", "readonly", "return", "set",
    "shift", "times", "trap", "unset"]

/-- The commands that run others, and for which there is no entry in the table. -/
def runningNames : List String := [".", "command", "eval", "exec", "type"]

/-- The commands of the shell itself that run no others. -/
def builtins : List (String × (List String → Exec Unit)) :=
  [(":", fun _ => finish 0), ("[", decideCondition "["), ("alias", fun _ => finish 0),
    ("break", leaveLoops "break" .break),
    ("cd", changeDirectory), ("continue", leaveLoops "continue" .continue),
    ("echo", fun args =>
      let quiet := args.head? == some "-n"
      print "echo" (echoText .shell true (!quiet) (if quiet then args.tail else args))),
    ("exit", leave "exit" .exit),
    ("export", declare "export"
      (fun name s => { s with exported := name :: s.exported }) (·.exported)),
    ("false", fun _ => finish 1), ("getopts", nextOption), ("hash", fun _ => finish 0),
    ("jobs", fun _ => finish 0),
    ("kill", sendSignal), ("local", declareLocal), ("printf", printFormat),
    ("pwd", fun _ => do print "pwd" (pathText (← get).files.working ++ "\n")),
    ("read", readLine),
    ("readonly", declare "readonly"
      (fun name s => { s with constants := name :: s.constants }) (·.constants)),
    ("return", leave "return" .return), ("set", setOptions), ("shift", shift),
    ("test", decideCondition "test"),
    ("times", fun _ => print "times" "0m0.000000s 0m0.000000s\n0m0.000000s 0m0.000000s\n"),
    ("trap", setTraps), ("true", fun _ => finish 0), ("ulimit", fun _ => finish 0),
    ("umask", fun args => if args.isEmpty then print "umask" "0022\n" else finish 0),
    ("unset", unset), ("wait", wait)]

/-- The shell carries out a command of this name itself. -/
def isBuiltin (name : String) : Bool :=
  builtins.any (·.1 == name) || runningNames.contains name

end Exec

end Entail.Command
