import Entail.Command.Arithmetic
import Entail.Command.Script
import Entail.Command.Simple

set_option autoImplicit false

/-! # The state of a shell

What a shell knows between two commands: how far the time has gone, what was written, where its
output goes, its variables and functions, and the jobs that run beside it. Time passes only while a
program waits. -/

namespace Entail.Command

/-- Where the output of a place goes. -/
inductive Target where
  | channel (c : Channel)
  | file (path : FilePath)
  | lost
  deriving DecidableEq, Inhabited

/-- Commands that run beside the shell that started them. -/
structure Job where
  process : Nat
  /-- the process of the shell that started it -/
  owner : Nat
  /-- what it writes, unless the shell has waited for it -/
  writes : List Write
  /-- when it ends, unless it goes on for ever -/
  ending : Option Nat
  status : ExitStatus
  /-- the channels that stay open as long as the job has them -/
  holds : List Channel
  /-- when it lets go of its channels, if ever -/
  release : Option Nat
  /-- a single program, which leaves nothing behind if it is killed -/
  single : Bool
  deriving Inhabited

/-- What a shell knows. -/
structure Shell where
  name : String
  process : Nat
  line : Nat
  /-- the command that runs a text as a script, as it stands in messages -/
  context : String
  /-- milliseconds since the start -/
  time : Nat
  /-- what is left of the input -/
  input : String
  /-- when the input is complete -/
  inputTime : Nat
  /-- what was written, the last first -/
  writes : List Write
  targets : List (Nat × Target)
  values : List (String × String)
  exported : List String
  constants : List String
  parameters : List String
  functions : List (String × Script)
  /-- the values to restore when a function ends -/
  locals : List (String × Option String)
  /-- how many functions are running -/
  depth : Nat
  /-- how many loops are running -/
  loops : Nat
  /-- what to do on a signal; nothing means that it is ignored -/
  traps : List (String × String)
  /-- what signals have asked for -/
  pending : List String
  status : ExitStatus
  /-- how the commands ended whose output was asked for in the last words -/
  captured : Option ExitStatus
  lastJob : Option Nat
  jobs : List Job
  files : Files
  flags : List Char
  /-- a failure is no reason to stop now -/
  tested : Bool
  nextChannel : Channel
  nextProcess : Nat
  deriving Inhabited

/-- Why the commands that follow are not run. -/
inductive Jump where
  | exit
  | return
  | break (loops : Nat)
  | continue (loops : Nat)
  /-- the first shell is killed by a signal -/
  | killed (signal : Nat)
  /-- a command goes on for ever -/
  | forever
  deriving DecidableEq, Inhabited

/-- What a shell does. -/
abbrev Exec := ExceptT Jump (StateM Shell)

/-- The number of the process of the first shell. -/
def firstProcess : Nat := 4242

namespace Shell

/-! ## Parameters -/

/-- The characters that part fields. -/
def separators (s : Shell) : List Char :=
  ((s.values.lookup "IFS").getD " \t\n").toList

/-- All parameters in one text. -/
def joined (s : Shell) : String :=
  (match s.values.lookup "IFS" with
    | none => " "
    | some ifs => String.ofList (ifs.toList.take 1)).intercalate s.parameters

/-- The value of a parameter. -/
def get? (s : Shell) (name : String) : Option String :=
  match name with
  | "?" => some (toString s.status.number)
  | "#" => some (toString s.parameters.length)
  | "$" => some (toString firstProcess)
  | "!" => s.lastJob.map toString
  | "-" => some (String.ofList s.flags)
  | "0" => some s.name
  | "@" | "*" => if s.parameters.isEmpty then none else some s.joined
  | name =>
    match decimal? name with
    | some n => s.parameters[n - 1]?
    | none => s.values.lookup name

/-- Give a variable a value, or none. -/
def put (s : Shell) (name : String) (value : Option String) : Shell :=
  let others := s.values.filter (·.1 != name)
  { s with
    values :=
      match value with
      | some v => (name, v) :: others
      | none => others }

/-- The variables that programs see. -/
def environment (s : Shell) : List (String × String) :=
  s.values.filter fun v => s.exported.contains v.1

/-! ## Output -/

def target? (s : Shell) (place : Nat) : Option Target := s.targets.lookup place

/-- Let the output of a place go elsewhere, or nowhere. -/
def redirect (s : Shell) (place : Nat) (target : Option Target) : Shell :=
  let others := s.targets.filter (·.1 != place)
  { s with
    targets :=
      match target with
      | some t => (place, t) :: others
      | none => others }

/-- Write to a place at a time. -/
def writeAt (s : Shell) (time place : Nat) (text : String) : Shell :=
  match s.target? place with
  | some (.channel c) => { s with writes := ⟨time, c, text⟩ :: s.writes }
  | some (.file path) =>
    let old :=
      match s.files.node? path with
      | some (.text old) => old
      | _ => ""
    { s with files := s.files.put path (old ++ text) }
  | some .lost | none => s

def write (s : Shell) (place : Nat) (text : String) : Shell :=
  if text.isEmpty then s else s.writeAt s.time place text

/-- Say something about the command on the current line. -/
def say (s : Shell) (text : String) : Shell :=
  s.write 2 (s.name ++ ": " ++ toString s.line ++ ": " ++ text ++ "\n")

/-- The channels that a table of targets keeps open. -/
def channels (targets : List (Nat × Target)) : List Channel :=
  targets.filterMap fun
    | (_, .channel c) => some c
    | _ => none

/-! ## Opening files -/

/-- The place that a name in the directory of devices stands for. -/
def devicePlace? (path : String) : Option Nat :=
  if path == "/dev/stdout" then some 1
  else if path == "/dev/stderr" then some 2
  else if path.startsWith "/dev/fd/" then decimal? (String.ofList (path.toList.drop 8))
  else none

/-- Let a place go to a file, which is emptied unless the kind is to append. -/
def openOutput (s : Shell) (place : Nat) (append : Bool) (path : String) : Except String Shell :=
  match devicePlace? path with
  | some other => .ok (s.redirect place (s.target? other))
  | none =>
    match s.files.write path append "", s.files.resolve path with
    | .ok files, .ok found =>
      let target :=
        match s.files.node? found with
        | some .null => Target.lost
        | _ => .file found
      .ok ({ s with files := files }.redirect place (some target))
    | .error .missing, _ | .error .notDirectory, _ =>
      .error ("cannot create " ++ path ++ ": Directory nonexistent")
    | .error e, _ | _, .error e => .error ("cannot create " ++ path ++ ": " ++ e.reason)

/-- Read from a text instead. Only the first place is read from. -/
def openInput (s : Shell) (place : Nat) (text : String) : Shell :=
  if place == 0 then { s with input := text, inputTime := s.time } else s

/-- Apply a redirection, whose target is a text by now. -/
def openTarget (s : Shell) (place : Nat) (kind : RedirectKind) (text : String) :
    Except String Shell :=
  match kind with
  | .output => s.openOutput place false text
  | .append => s.openOutput place true text
  | .document => .ok (s.openInput place text)
  | .input =>
    if text == "/dev/stdin" || text == "/dev/fd/0" then .ok s
    else
      match s.files.read text with
      | .ok content => .ok (s.openInput place content)
      | .error .missing | .error .notDirectory =>
        .error ("cannot open " ++ text ++ ": No such file")
      | .error .isDirectory | .error .notText => .ok (s.openInput place "")
      | .error e => .error ("cannot open " ++ text ++ ": " ++ e.reason)
  | .duplicate =>
    if text == "-" then
      .ok (if place == 0 then s.openInput 0 "" else s.redirect place none)
    else
      match decimal? text with
      | none => .error "Syntax error: Bad fd number"
      | some other =>
        if other == place || other == 0 then .ok s
        else
          match s.target? other with
          | some t => .ok (s.redirect place (some t))
          | none => .error (text ++ ": Bad file descriptor")

/-! ## Jobs -/

/-- The jobs that a shell can wait for. -/
def children (s : Shell) : List Job := s.jobs.filter (·.owner == s.process)

/-- Take over what some jobs wrote. -/
def absorb (s : Shell) (done : Job → Bool) : Shell :=
  let written := (s.jobs.filter done).flatMap (·.writes)
  let written := written.mergeSort fun a b => a.time ≤ b.time
  { s with
    writes := written.reverse ++ s.writes
    jobs := s.jobs.map fun j => if done j then { j with writes := [] } else j }

/-- When all jobs have let go of a channel and a time has come, if ever. -/
def closing (s : Shell) (c : Channel) (time : Nat) : Option Nat :=
  s.jobs.foldl (fun latest j =>
    if j.holds.contains c then
      match latest, j.release with
      | some t, some r => some (max t r)
      | _, _ => none
    else latest) (some time)

/-- Kill a job by a signal. -/
def killJob (s : Shell) (process signal : Nat) : Shell :=
  { s with
    jobs := s.jobs.map fun j =>
      if j.process == process && j.ending.all (s.time < ·) then
        { j with
          ending := some s.time
          status := .killed signal
          writes := j.writes.filter (·.time ≤ s.time)
          release := if j.single then some s.time else j.release }
      else j }

/-- Take the writes on a channel out of what was written. -/
def takeChannel (s : Shell) (c : Channel) : String × Shell :=
  let onChannel (w : Write) : Bool := w.channel == c
  let text := textOn c (s.writes.reverse ++ s.jobs.flatMap (·.writes))
  (text, { s with
    writes := s.writes.filter (!onChannel ·)
    jobs := s.jobs.map fun j => { j with writes := j.writes.filter (!onChannel ·) } })

end Shell

namespace Exec

/-! ## Small steps -/

/-- End a command with a code. -/
def finish (code : Nat) : Exec Unit := modify fun s => { s with status := .exited code }

/-- Complain, and end a command with a code. -/
def complain (text : String) (code : Nat) : Exec Unit :=
  modify fun s => { s.say text with status := .exited code }

/-- Complain, and end the shell. -/
def fatal {α : Type} (text : String) : Exec α := do
  complain text 2
  throw .exit

/-- Complain about the text that is run, and end a command with a code. -/
def complainHere (text : String) (code : Nat) : Exec Unit := do
  complain ((← get).context ++ text) code

/-- Complain about the text that is run, and end the shell. -/
def fatalHere {α : Type} (text : String) : Exec α := do
  complainHere text 2
  throw .exit

/-- Give a variable a value. -/
def assign (name value : String) : Exec Unit := do
  if (← get).constants.contains name then fatal (name ++ ": is read only")
  modify fun s =>
    { s.put name (some value) with
      exported := if s.flags.contains 'a' then name :: s.exported else s.exported }

/-- Write the output of one of the shell's own commands. -/
def print (command text : String) : Exec Unit := do
  let s ← get
  if (s.target? 1).isNone && !text.isEmpty then
    complain (command ++ ": " ++ command ++ ": I/O error") 1
  else set { s.write 1 text with status := .success }

/-- Run something, and then something else even if the first does not come to its end. -/
def always (body after : Exec Unit) : Exec Unit := do
  let jump : Option Jump ← tryCatch (do body; return none) fun jump => return some jump
  after
  match jump with
  | some jump => throw jump
  | none => pure ()

/-- Repeat a step as long as it says so, at most so many times; more often is for ever. -/
def repeatWhile (step : Exec Bool) : (limit : Nat) → Exec Unit
  | 0 => throw .forever
  | limit + 1 => do
    if ← step then repeatWhile step limit

/-- How often a loop may be repeated. -/
def repeatLimit : Nat := 100000

/-- Run the body of a loop, and tell whether the loop goes on. -/
def inLoop (body : Exec Unit) : Exec Bool := do
  modify fun s => { s with loops := s.loops + 1 }
  let goesOn : Except Jump Bool ←
    tryCatch (do body; return .ok true) fun
      | .break n => return if n ≤ 1 then .ok false else .error (.break (n - 1))
      | .continue n => return if n ≤ 1 then .ok true else .error (.continue (n - 1))
      | jump => return .error jump
  modify fun s => { s with loops := s.loops - 1 }
  match goesOn with
  | .ok b => return b
  | .error jump => throw jump

/-- Run something whose failure is no reason to stop. -/
def asTest (body : Exec Unit) : Exec Unit := do
  let before := (← get).tested
  modify fun s => { s with tested := true }
  always body (modify fun s => { s with tested := before })

/-- Stop if the last command failed and that is a reason to stop. -/
def checkFailure : Exec Unit := do
  let s ← get
  if s.flags.contains 'e' && !s.tested && s.status != .success then throw .exit

/-- Run something in a shell of its own. What it writes and reads counts, and so does the time; all
    else that it changes is lost. -/
def isolated (body : Exec Unit) : Exec Unit := fun s =>
  let inner : Shell :=
    { s with
      process := s.nextProcess
      nextProcess := s.nextProcess + 1
      traps := s.traps.filter (·.2.isEmpty)
      loops := 0 }
  let (result, after) := (body inner : Except Jump Unit × Shell)
  let kept : Shell :=
    { s with
      time := after.time
      input := after.input
      writes := after.writes
      status := after.status
      jobs := after.jobs
      files := after.files
      nextChannel := after.nextChannel
      nextProcess := after.nextProcess }
  match result with
  | .error .forever => (.error .forever, kept)
  | .error (.killed signal) => (.error (.killed signal), kept)
  | _ => (.ok (), kept)

/-- A channel that is used nowhere yet. -/
def newChannel : Exec Channel :=
  modifyGet fun s => (s.nextChannel, { s with nextChannel := s.nextChannel + 1 })

end Exec

end Entail.Command
