import Entail.Command.Builtin

set_option autoImplicit false

/-! # Running scripts

Words become fields, and scripts are carried out. All that depends on the programs that are there
goes through a function that looks them up. -/

namespace Entail.Command

/-! ## Fields -/

/-- A part of a word whose pieces have been put in. -/
inductive Segment where
  | fixed (s : String) (quoted : Bool)
  /-- a text that is parted into fields -/
  | parted (s : String)
  | boundary
  deriving DecidableEq, Inhabited

/-- The fields so far: those that are done, the last one first, and one that may go on. -/
structure Fields where
  done : List String
  current : Option String
  /-- a blank has ended the last field -/
  afterBlank : Bool

namespace Fields

def extend (f : Fields) (s : String) : Fields :=
  { f with current := some (f.current.getD "" ++ s), afterBlank := false }

def close (f : Fields) (afterBlank : Bool) : Fields :=
  match f.current with
  | some s => ⟨s :: f.done, none, afterBlank⟩
  | none => f

/-- Go on with a character of a text that is parted. Blanks in a row count as one separator, also
    together with another one; two separators that are no blanks have an empty field between
    them. -/
def push (separators : List Char) (f : Fields) (c : Char) : Fields :=
  if !separators.contains c then
    { f with current := some ((f.current.getD "").push c), afterBlank := false }
  else if c == ' ' || c == '\t' || c == '\n' then f.close true
  else if f.current.isSome then f.close false
  else if f.afterBlank then { f with afterBlank := false }
  else { f with done := "" :: f.done }

def add (separators : List Char) (f : Fields) : Segment → Fields
  | .fixed s _ => f.extend s
  | .parted s => s.toList.foldl (push separators) f
  | .boundary => f.close false

/-- The fields of a word. -/
def ofSegments (separators : List Char) (segments : List Segment) : List String :=
  ((segments.foldl (add separators) ⟨[], none, false⟩).close false).done.reverse

end Fields

/-- The text of a word that is not parted. -/
def joinSegments (segments : List Segment) : String :=
  String.join (segments.map fun
    | .fixed s _ => s
    | .parted s => s
    | .boundary => " ")

/-- A text with a backslash in front of all that has a meaning in a pattern. -/
def escapePattern (s : String) : String :=
  String.ofList (s.toList.flatMap fun c => if "\\*?[]!-^".contains c then ['\\', c] else [c])

/-- The pattern of a word. -/
def patternOf (segments : List Segment) : List Glob :=
  Glob.ofText (String.join (segments.map fun
    | .fixed s quoted => if quoted then escapePattern s else s
    | .parted s => s
    | .boundary => " "))

/-- Put the home directory in the place of a tilde at the start of a word. -/
def Word.fromHome (home : String) : Word → Word
  | .text s false :: w =>
    if s == "~" && w.isEmpty || s.startsWith "~/" then
      .text home true :: .text (String.ofList (s.toList.drop 1)) false :: w
    else .text s false :: w
  | w => w

/-- The name and the value, if a word assigns to a variable. -/
def Word.assignment? : Word → Option (String × Word)
  | .text s false :: w =>
    match splitAssignment s with
    | (name, some value) => if isName name then some (name, .text value false :: w) else none
    | _ => none
  | _ => none
where
  splitAssignment (s : String) : String × Option String := Exec.splitAssignment s

/-- The assignments in front of a command, and its other words. -/
def splitAssignments : List Word → List (String × Word) × List Word
  | [] => ([], [])
  | w :: ws =>
    match w.assignment? with
    | some a =>
      let (more, rest) := splitAssignments ws
      (a :: more, rest)
    | none => ([], w :: ws)

/-- Where the output of a command goes, as far as its redirections tell. -/
def Redirection.applyKnown (targets : List (Nat × Target)) (r : Redirection) :
    List (Nat × Target) :=
  let others := targets.filter (·.1 != r.place)
  match r.kind with
  | .duplicate =>
    match (decimal? r.target.literal.1).bind fun place => targets.lookup place with
    | some t => (r.place, t) :: others
    | none => others
  | _ => (r.place, .lost) :: others

/-! ## Around commands -/

namespace Exec

/-- The programs that are there by name. -/
abbrev Lookup := Files → String → Except FileError Program

/-- Run something with other targets and another input, if they can be opened. -/
def withTargets (fromInput : Bool) (openAll : Exec Bool) (failed body : Exec Unit) : Exec Unit := do
  let before ← get
  always (do if ← openAll then body else failed) <|
    modify fun s =>
      { s with
        targets := before.targets
        input := if fromInput then before.input else s.input
        inputTime := if fromInput then before.inputTime else s.inputTime }

/-- Run something with some variables set, which programs see. -/
def withValues (values : List (String × String)) (body : Exec Unit) : Exec Unit := do
  let before ← get
  values.forM fun (name, value) => do
    assign name value
    modify fun s => { s with exported := name :: s.exported }
  always body <|
    modify fun s =>
      let s := values.foldl (fun s (name, _) => s.put name (before.values.lookup name)) s
      { s with
        exported := s.exported.filter fun name =>
          before.exported.contains name || !values.any (·.1 == name) }

/-- Do something for each value until it says to stop. -/
def untilStop (step : String → Exec Bool) : List String → Exec Unit
  | [] => pure ()
  | value :: values => do
    if ← step value then untilStop step values

/-- Run a program. If it is the last thing that the shell does, the shell is that program. -/
def callProgram (lookup : Lookup) (last : Bool) (name : String) (args : List String) :
    Exec Unit := do
  let s ← get
  match lookup s.files name with
  | .error e =>
    if name.isEmpty then complainHere ": Permission denied" 127
    else
      match e with
      | .missing | .notDirectory => complainHere (name ++ ": not found") 127
      | .nameTooLong => complainHere (name ++ ": " ++ e.reason) 127
      | e => complainHere (name ++ ": " ++ e.reason) 126
  | .ok program =>
    let e := program ⟨name, args, s.input, s.environment, s.files⟩
    let start :=
      if e.unread.utf8ByteSize == s.input.utf8ByteSize then s.time else max s.time s.inputTime
    let s := e.writes.foldl (fun s w => s.writeAt (start + w.time) (w.channel + 1) w.text) s
    set { s with
      input := e.unread
      status := e.status
      files := { e.changed.getD s.files with working := s.files.working } }
    match e.duration with
    | none => throw .forever
    | some d => modify fun s => { s with time := start + d }
    match e.status with
    | .killed signal =>
      if last && s.traps.isEmpty && s.process == firstProcess then throw (.killed signal)
      else reportKilled e.status
    | .exited _ => pure ()

/-- Say where a command of some name is. -/
def describe (lookup : Lookup) (full : Bool) (name : String) : Exec Unit := do
  let s ← get
  let found (short long : String) : Exec Unit :=
    modify fun s => s.write 1 ((if full then name ++ " is " ++ long else short) ++ "\n")
  if reservedWords.contains name then found name "a shell keyword"
  else if (s.functions.lookup name).isSome then found name "a shell function"
  else if specialNames.contains name then found name "a special shell builtin"
  else if isBuiltin name then found name "a shell builtin"
  else
    match lookup s.files name with
    | .ok _ =>
      let path := if name.contains '/' then name else "/usr/bin/" ++ name
      found path path
    | .error _ =>
      if full then modify fun s => s.write 1 (name ++ ": not found\n")
      modify fun s => { s with status := .exited 127 }

/-- How deep functions may be nested. -/
def depthLimit : Nat := 1000

/-! ## Expanding and running -/

mutual

/-- Put in all pieces of a word, in at most `n` steps. -/
def expand (lookup : Lookup) (n : Nat) (w : Word) : Exec (List Segment) :=
  match n with
  | 0 => throw .forever
  | n + 1 => do
    let home := ((← get).values.lookup "HOME").getD "~"
    return (← (w.fromHome home).mapM (expandPiece lookup n)).flatten

/-- The fields of some words. -/
def expandAll (lookup : Lookup) (n : Nat) (ws : List Word) : Exec (List String) :=
  match n with
  | 0 => throw .forever
  | n + 1 =>
    return (← ws.mapM fun w => do
      let segments ← expand lookup n w
      return Fields.ofSegments (← get).separators segments).flatten

/-- Put in a piece of a word. -/
def expandPiece (lookup : Lookup) (n : Nat) (p : Piece) : Exec (List Segment) :=
  match n with
  | 0 => throw .forever
  | n + 1 =>
    match p with
    | .text s quoted => return [.fixed s quoted]
    | .command script line quoted => do
      let text ← capture lookup n line script
      return [if quoted then .fixed text true else .parted text]
    | .arithmetic expression quoted => do
      let text := joinSegments (← expand lookup n expression)
      match Arithmetic.read text.toList with
      | .error fault => fatalHere (fault.text text)
      | .ok e =>
        match e.eval (← get).values with
        | .error fault => fatalHere (fault.text text)
        | .ok (value, values) =>
          modify fun s => { s with values }
          return [if quoted then .fixed (toString value) true else .parted (toString value)]
    | .parameter name treatment argument quoted => do
      let s ← get
      let shown (text : String) : List Segment :=
        [if quoted then .fixed text true else .parted text]
      let value := s.get? name
      let all : List Segment :=
        if (name == "@" || (name == "*" && !quoted)) then
          (s.parameters.map shown).intersperse [.boundary] |>.flatten
        else shown (value.getD "")
      let present (empty : Bool) : Bool := value.any fun v => !(empty && v.isEmpty)
      let given : Exec (List Segment) := do
        return (← expand lookup n argument).map fun
          | .fixed t false => .parted t
          | segment => segment
      let unsetOr (text : String) : Exec (List Segment) := fatalHere (name ++ ": " ++ text)
      match treatment with
      | .plain =>
        if value.isNone && s.flags.contains 'u' && name != "@" && name != "*" then
          unsetOr "parameter not set"
        else return all
      | .length =>
        if name == "@" || name == "*" then return shown (toString s.parameters.length)
        else return shown (toString (value.getD "").length)
      | .orElse empty => if present empty then return all else given
      | .orAssign empty =>
        if present empty then return all
        else do
          let text := joinSegments (← expand lookup n argument)
          if !isName name then fatalHere (name ++ ": bad variable name")
          assign name text
          return shown text
      | .orComplain empty =>
        if present empty then return all
        else do
          let text := joinSegments (← expand lookup n argument)
          unsetOr (if !argument.isEmpty then text
            else if empty then "parameter not set or null" else "parameter not set")
      | .andThen empty => if present empty then given else return shown ""
      | .trimStart longest => do
        let pattern := patternOf (← expand lookup n argument)
        return shown (String.ofList (Glob.trimStart pattern longest (value.getD "").toList))
      | .trimEnd longest => do
        let pattern := patternOf (← expand lookup n argument)
        return shown (String.ofList (Glob.trimEnd pattern longest (value.getD "").toList))
      | .unknown => fatalHere "Bad substitution"

/-- The output of a script, without the line feeds at its end. -/
def capture (lookup : Lookup) (n : Nat) (line : Nat) (script : String) : Exec String :=
  match n with
  | 0 => throw .forever
  | n + 1 => do
    let c ← newChannel
    let before := (← get).writes
    modify fun s => { s with writes := [] }
    isolated do
      modify (·.redirect 1 (some (.channel c)))
      untilExit lookup n (runText lookup n true line script)
    let s ← get
    match s.closing c s.time with
    | none => throw .forever
    | some time =>
      let (text, s) := s.takeChannel c
      set { s with time, writes := s.writes ++ before, captured := some s.status }
      let kept := text.toList.filter (· != '\x00')
      return String.ofList (kept.reverse.dropWhile (· == '\n')).reverse

/-- Run a script to its end, or until it leaves the shell, and then what is to be done at the
    end. -/
def untilExit (lookup : Lookup) (n : Nat) (body : Exec Unit) : Exec Unit :=
  match n with
  | 0 => throw .forever
  | n + 1 => do
    tryCatch body fun
      | .forever => throw .forever
      | .killed signal => throw (.killed signal)
      | _ => pure ()
    let s ← get
    match s.traps.lookup "EXIT" with
    | none => pure ()
    | some action => do
      set { s with traps := s.traps.filter (·.1 != "EXIT"), tested := true }
      tryCatch
        (do
          runText lookup n false s.line action
          modify fun after => { after with status := s.status })
        fun
          | .forever => throw .forever
          | .killed signal => throw (.killed signal)
          | _ => pure ()

/-- Run a text as a script. -/
def runText (lookup : Lookup) (n : Nat) (last : Bool) (line : Nat) (text : String) : Exec Unit :=
  match n with
  | 0 => throw .forever
  | n + 1 => do
    let (scripts, fault) := Script.read line text
    scripts.dropLast.forM (run lookup n false)
    match scripts.getLast?, fault with
    | some script, none => run lookup n last script
    | some script, some _ => run lookup n false script
    | none, _ => pure ()
    match fault with
    | none => pure ()
    | some (line, fault) =>
      modify fun s => { s with line }
      fatalHere fault.text

/-- Run a command with redirections around it. -/
def openAll (lookup : Lookup) (n : Nat) (redirections : List Redirection) : Exec Bool :=
  match n with
  | 0 => throw .forever
  | n + 1 =>
    match redirections with
    | [] => return true
    | r :: rest => do
      let text := joinSegments (← expand lookup n r.target)
      match (← get).openTarget r.place r.kind text with
      | .ok s =>
        set s
        openAll lookup n rest
      | .error message =>
        complainHere message 2
        return false

/-- Run a simple command. -/
def runSimple (lookup : Lookup) (n : Nat) (last : Bool) (line : Nat) (words : List Word)
    (redirections : List Redirection) : Exec Unit :=
  match n with
  | 0 => throw .forever
  | n + 1 => do
    modify fun s => { s with line, captured := none }
    let (assigned, words) := splitAssignments words
    let args ← expandAll lookup n words
    let evaluated : Exec (List (String × String)) :=
      assigned.mapM fun (name, w) => do
        return (name, joinSegments (← expand lookup n w))
    let trace (values : List (String × String)) : Exec Unit := do
      if (← get).flags.contains 'x' then
        let shown := values.map (fun (name, value) => name ++ "=" ++ value) ++ args
        modify fun s => s.write 2 ("+ " ++ " ".intercalate shown ++ "\n")
    let fromInput := redirections.any (·.place == 0)
    let special := args.head?.any specialNames.contains
    let failed : Exec Unit := if special then throw .exit else pure ()
    if args == ["exec"] then
      if !(← openAll lookup n redirections) then throw .exit
      (← evaluated).forM fun (name, value) => assign name value
      finish 0
    else
      withTargets fromInput (openAll lookup n redirections) failed do
        match args with
        | [] =>
          -- one after the other, since a value may use the ones before it
          let values ← assigned.mapM fun (name, w) => do
            let value := joinSegments (← expand lookup n w)
            assign name value
            return (name, value)
          trace values
          modify fun s => { s with status := s.captured.getD .success }
        | name :: args =>
          let values ← evaluated
          trace values
          if special then
            values.forM fun (name, value) => assign name value
            call lookup n last name args
          else withValues values (call lookup n last name args)
    runPending lookup n
    checkFailure

/-- Do what signals have asked for. -/
def runPending (lookup : Lookup) (n : Nat) : Exec Unit :=
  match n with
  | 0 => throw .forever
  | n + 1 => do
    let s ← get
    if !s.pending.isEmpty then
      set { s with pending := [] }
      s.pending.forM (runText lookup n false s.line)
      modify fun after => { after with status := s.status }

/-- Run a text as a script for a command. -/
def runFor (lookup : Lookup) (n : Nat) (command text : String) : Exec Unit :=
  match n with
  | 0 => throw .forever
  | n + 1 => do
    let s ← get
    set { s with context := command ++ ": " }
    always (runText lookup n false 1 text)
      (modify fun after => { after with context := s.context })

/-- Call a command by its name: one of the shell's own, a function or a program. -/
def call (lookup : Lookup) (n : Nat) (last : Bool) (name : String) (args : List String) :
    Exec Unit :=
  match n with
  | 0 => throw .forever
  | n + 1 => do
    let s ← get
    match name, args with
    | "eval", args => do
      if args.isEmpty then finish 0
      runFor lookup n "eval" (" ".intercalate args)
    | "exec", program :: args => do
      modify fun s => { s with context := "exec: " }
      callProgram lookup true program args
      modify fun s => { s with traps := [] }
      throw .exit
    | ".", path :: _ => do
      match s.files.read path with
      | .ok text =>
        finish 0
        runFor lookup n "." text
      | .error _ =>
        if path.contains '/' then fatal (".: cannot open " ++ path ++ ": No such file")
        else fatal (".: " ++ path ++ ": not found")
    | "command", args =>
      match args with
      | "-v" :: names => do
        finish 0
        names.head?.toList.forM (describe lookup false)
      | "-V" :: names => do
        finish 0
        names.head?.toList.forM (describe lookup true)
      | args =>
        match args.dropWhile fun a => a == "-p" || a == "--" with
        | [] => finish 0
        | name :: args =>
          if runningNames.contains name then call lookup n last name args
          else
            match builtins.lookup name with
            | some builtin => builtin args
            | none => callProgram lookup last name args
    | "type", names => do
      finish 0
      names.forM (describe lookup true)
    | name, args =>
      match s.functions.lookup name with
      | some body =>
        match (if specialNames.contains name then builtins.lookup name else none) with
        | some builtin => builtin args
        | none => callFunction lookup n body args
      | none =>
        match builtins.lookup name with
        | some builtin => builtin args
        | none => callProgram lookup last name args

/-- Run the body of a function with other parameters. -/
def callFunction (lookup : Lookup) (n : Nat) (body : Script) (args : List String) : Exec Unit :=
  match n with
  | 0 => throw .forever
  | n + 1 => do
    let s ← get
    if depthLimit ≤ s.depth then
      fatalHere ("Maximum function recursion depth (" ++ toString depthLimit ++ ") reached")
    set { s with depth := s.depth + 1, parameters := args, locals := [], loops := 0 }
    always
      (tryCatch (run lookup n false body) fun
        | .return => pure ()
        | jump => throw jump)
      (modify fun after =>
        let restored := after.locals.foldl (fun a (name, value) => a.put name value) after
        { restored with
          depth := s.depth
          parameters := s.parameters
          locals := s.locals
          loops := s.loops })

/-- Run a script. `last` says that the shell does nothing after it. -/
def run (lookup : Lookup) (n : Nat) (last : Bool) (script : Script) : Exec Unit :=
  match n with
  | 0 => throw .forever
  | n + 1 =>
    match script with
    | .skip => pure ()
    | .simple line words redirections => runSimple lookup n last line words redirections
    | .redirected line body redirections => do
      modify fun s => { s with line }
      withTargets (redirections.any (·.place == 0)) (openAll lookup n redirections) (pure ())
        (run lookup n false body)
      checkFailure
    | .enclosed body => do
      isolated (untilExit lookup n (run lookup n true body))
      checkFailure
    | .pipe left right => do
      runPipe lookup n left right
      checkFailure
    | .background body => runBeside lookup n body
    | .negated body => do
      asTest (run lookup n false body)
      modify fun s => { s with status := .exited (if s.status == .success then 1 else 0) }
    | .both a b => do
      asTest (run lookup n false a)
      if (← get).status == .success then run lookup n last b
    | .either a b => do
      asTest (run lookup n false a)
      if (← get).status != .success then run lookup n last b
    | .sequence a .skip => run lookup n last a
    | .sequence a b => do
      run lookup n false a
      run lookup n last b
    | .branch condition yes no => do
      asTest (run lookup n false condition)
      if (← get).status == .success then run lookup n last yes
      else if no matches .skip then finish 0
      else run lookup n last no
    | .loop whenTrue condition body => do
      let holds : Exec Bool := do
        let goesOn ← inLoop (asTest (run lookup n false condition))
        return goesOn && ((← get).status == .success) == whenTrue
      -- the status is that of the body, or success if the body never runs
      if ← holds then
        repeatWhile (do
          if !(← inLoop (run lookup n false body)) then return false
          let status := (← get).status
          if ← holds then return true
          modify fun s => { s with status }
          return false) repeatLimit
      else finish 0
    | .each line name words body => do
      modify fun s => { s with line }
      let values ←
        match words with
        | none => (·.parameters) <$> get
        | some words => expandAll lookup n words
      if values.isEmpty then finish 0
      untilStop (fun value => do
        assign name value
        inLoop (run lookup n false body)) values
    | .choose line subject cases => do
      modify fun s => { s with line }
      let text := joinSegments (← expand lookup n subject)
      let body ← findCase lookup n text.toList cases
      if body matches .skip then finish 0 else run lookup n last body
    | .define name body =>
      modify fun s =>
        { s with
          functions := (name, body) :: s.functions.filter (·.1 != name)
          status := .success }

/-- The first case of which a pattern matches. -/
def findCase (lookup : Lookup) (n : Nat) (text : List Char) (cases : List (List Word × Script)) :
    Exec Script :=
  match n with
  | 0 => throw .forever
  | n + 1 =>
    match cases with
    | [] => return .skip
    | ([], _) :: cases => findCase lookup n text cases
    | (w :: ws, body) :: cases => do
      let pattern := patternOf (← expand lookup n w)
      if Glob.accepts pattern text then return body
      else findCase lookup n text ((ws, body) :: cases)

/-- Run two scripts side by side, of which the second one reads what the first one writes. A first
    one that goes on for ever ends when the second one does, if that leaves something unread. -/
def runPipe (lookup : Lookup) (n : Nat) (left right : Script) : Exec Unit :=
  match n with
  | 0 => throw .forever
  | n + 1 => do
    let before ← get
    let c ← newChannel
    modify fun s => { s with writes := [] }
    let endless ← tryCatch
      (do
        isolated do
          modify (·.redirect 1 (some (.channel c)))
          untilExit lookup n (run lookup n true left)
        return false)
      fun
        | .forever => return true
        | jump => throw jump
    let s ← get
    let complete := (s.writes.filter (·.channel == c)).foldl (fun t w => max t w.time) before.time
    let leftTime := s.time
    let closing := if endless then none else s.closing c s.time
    let (text, s) := s.takeChannel c
    let rest := s.input
    set { s with
      writes := s.writes ++ before.writes
      time := before.time
      input := text
      inputTime := complete }
    isolated (untilExit lookup n (run lookup n true right))
    let s ← get
    let unread := s.input
    let s := { s with input := rest, inputTime := before.inputTime }
    if !unread.isEmpty then
      set { s with time := if endless then s.time else max s.time leftTime }
    else
      match closing with
      | some t => set { s with time := max s.time t }
      | none =>
        set s
        throw .forever

/-- Run a script beside the shell. -/
def runBeside (lookup : Lookup) (n : Nat) (script : Script) : Exec Unit :=
  match n with
  | 0 => throw .forever
  | n + 1 => do
    let s ← get
    let process := s.nextProcess
    let ended : Except Jump Unit ←
      tryCatch
        (do
          modify fun s => { s with writes := [], input := "", inputTime := s.time }
          isolated (untilExit lookup n (run lookup n true script))
          return .ok ())
        fun jump => return .error jump
    let after ← get
    let (redirections, single) : List Redirection × Bool :=
      match script with
      | .simple _ _ redirections => (redirections, true)
      | .redirected _ _ redirections => (redirections, false)
      | _ => ([], false)
    match ended with
    | .error (.killed signal) => throw (.killed signal)
    | _ => pure ()
    let ending := if ended matches .error _ then none else some after.time
    let status := after.status
    let job : Job :=
      { process, owner := s.process, writes := after.writes.reverse, ending, status
        holds := Shell.channels (redirections.foldl Redirection.applyKnown s.targets)
        release := ending, single }
    set { s with
      status := .success
      jobs := after.jobs ++ [job]
      files := after.files
      lastJob := some process
      nextChannel := after.nextChannel
      nextProcess := after.nextProcess }

end

end Exec

/-! ## The shell as a program -/

/-- How many steps deep a shell may go. -/
def shellSteps : Nat := 20000

/-- What a process does that is a shell. -/
def Exec.effect (start : Shell) (body : Exec Unit) : Effect :=
  let (result, s) := (body start : Except Jump Unit × Shell)
  let closing := (s.closing .output s.time).bind (s.closing .errors)
  { writes := s.writes.reverse ++ s.jobs.flatMap (·.writes)
    unread := s.input
    status :=
      match result with
      | .error (.killed signal) => .killed signal
      | _ => .exited (s.status.number % 256)
    duration :=
      match result with
      | .error .forever => none
      | _ => closing
    changed := some s.files }

/-- How a shell is called: flags, a script or the name of a file with one, and parameters. -/
structure ShellCall where
  flags : List Char
  script : Option String
  operands : List String

/-- Read the arguments of a shell. -/
def ShellCall.read : List String → Except String ShellCall
  | [] => .ok ⟨[], none, []⟩
  | arg :: args =>
    match arg.toList with
    | '-' :: '-' :: [] => .ok ⟨[], none, args⟩
    | '-' :: c :: cs =>
      match (c :: cs).find? fun c => !("ceuxfnvisamb".contains c) with
      | some c => .error ("Illegal option -" ++ c.toString)
      | none =>
        (read args).bind fun call =>
          let flags := (c :: cs).filter (· != 'c') ++ call.flags
          if !(c :: cs).contains 'c' then .ok { call with flags }
          else
            match call.operands with
            | script :: operands => .ok ⟨flags, some script, operands⟩
            | [] => .error "-c requires an argument"
    | _ => .ok ⟨[], none, arg :: args⟩

/-- The shell. It runs a script that it is given, or the one in a file, or its input. -/
def shell (lookup : Exec.Lookup) : Program := fun inv =>
  let complain (text : String) : Effect :=
    .finish "" (inv.name ++ ": 0: " ++ text ++ "\n") inv.input 2
  let start (name : String) (flags : List Char) (parameters : List String) : Shell :=
    { name, process := firstProcess, line := 1, context := "", time := 0, input := inv.input
      inputTime := 0, writes := []
      targets := [(1, .channel .output), (2, .channel .errors)]
      values := inv.environment, exported := inv.environment.map (·.1), constants := []
      parameters, functions := [], locals := [], depth := 0, loops := 0, traps := [], pending := []
      status := .success, captured := none, lastJob := none, jobs := [], files := inv.files, flags
      tested := false, nextChannel := 2, nextProcess := firstProcess + 1 }
  let runFrom (s : Shell) (text : String) : Effect :=
    let body := if s.flags.contains 'n' then pure () else Exec.runText lookup shellSteps true 1 text
    Exec.effect s (Exec.untilExit lookup shellSteps body)
  match ShellCall.read inv.args with
  | .error message => complain message
  | .ok call =>
    let fromInput (parameters : List String) : Effect :=
      runFrom { start inv.name call.flags parameters with input := "" } inv.input
    match call.script, call.operands with
    | some script, name :: parameters => runFrom (start name call.flags parameters) script
    | some script, [] => runFrom (start inv.name call.flags []) script
    | none, path :: parameters =>
      if call.flags.contains 's' then fromInput (path :: parameters) else
      match inv.files.read path with
      | .ok text => runFrom (start path call.flags parameters) text
      | .error _ => complain ("cannot open " ++ path ++ ": No such file")
    | none, [] => fromInput []

end Entail.Command
