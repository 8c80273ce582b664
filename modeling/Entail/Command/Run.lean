import Entail.Command.Launch
import Entail.Smt.Solver
import Entail.Text.Bytes

set_option autoImplicit false

/-! # Running commands

A command is a program with its arguments. It is run with some text as its input, for a limited
time; what comes of it is what it wrote and how it ended. -/

namespace Entail.Command

/-- Why running a command has no result. -/
inductive RunError where
  | emptyCommand
  /-- an argument holds the null character -/
  | nullInArgument
  /-- the program cannot be found or run -/
  | file (e : FileError)
  /-- the program ends without reading its input, which is too long to be kept for it -/
  | brokenPipe
  | timedOut
  deriving DecidableEq, Inhabited

/-- What a command that ended wrote, and its exit code unless a signal ended it. -/
structure Output where
  stdout : String
  stderr : String
  code : Option Nat
  deriving DecidableEq, Inhabited

/-- How deep programs may run programs. -/
def launchDepth : Nat := 64

/-- How much of an input is kept for a program that does not read it, in bytes. -/
def pipeCapacity : Nat := 65536

/-- The files that are there for commands. -/
def machine : Files := .machine programNames

/-- The environment of a command. -/
def environment : List (String × String) :=
  [("HOME", "/root"), ("PATH", "/usr/local/sbin:/usr/local/bin:/usr/sbin:/usr/bin:/sbin:/bin"),
    ("PWD", "/work")]

/-- What a command does, unless it cannot be run. -/
def effect (args : List String) (input : String) : Except RunError Effect :=
  match args with
  | [] => .error .emptyCommand
  | name :: rest =>
    if args.any (·.contains '\x00') then .error .nullInArgument
    else
      match lookupAt launchDepth machine name with
      | .error e => .error (.file e)
      | .ok program =>
        .ok (program ⟨name, rest.map Text.toBytes, Text.toBytes input, environment, machine⟩)

/-- Run a command on an input, for less than so many milliseconds. -/
def run (args : List String) (input : String) (timeoutMs : Nat) : Except RunError Output := do
  let e ← effect args input
  if !e.duration.any (· < timeoutMs) then throw .timedOut
  if pipeCapacity < e.unread.length then throw .brokenPipe
  return ⟨Text.ofBytes (textOn .output e.writes), Text.ofBytes (textOn .errors e.writes),
    e.status.code?⟩

theorem run_nil (input : String) (timeoutMs : Nat) :
    run [] input timeoutMs = .error .emptyCommand :=
  rfl

/-- What an error says. -/
def RunError.text : RunError → String
  | .emptyCommand => "empty command"
  | .nullInArgument => "nul byte found in provided data"
  | .file e => e.text
  | .brokenPipe => "Broken pipe (os error 32)"
  | .timedOut => "timed out"

/-- The program that is run for a command line whose first word is empty. -/
def defaultSolver : String := "z3"

/-- What comes of running a solver that is a command. -/
def solverOutcome (args : List String) (input : String) : ProcessOutcome :=
  let args :=
    match args with
    | "" :: rest => defaultSolver :: rest
    | args => args
  match effect args input with
  | .error e => .failed e.text
  | .ok e =>
    if e.duration.isNone then .timedOut
    else if pipeCapacity < e.unread.length then .failed RunError.brokenPipe.text
    else .output (Text.ofBytes (textOn .output e.writes))

end Entail.Command
