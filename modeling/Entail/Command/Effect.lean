import Entail.Files

set_option autoImplicit false

/-! # What a process does

A process is called with arguments, an input and the files that are there. What comes of it is what
it writes and when, what it leaves unread of its input, how it ends and after what time. All text
here is bytes, one character for each. -/

namespace Entail.Command

/-- How a process ended. -/
inductive ExitStatus where
  | exited (code : Nat)
  | killed (signal : Nat)
  deriving DecidableEq, Inhabited

namespace ExitStatus

def success : ExitStatus := .exited 0

/-- The exit code, if the process ended by itself. -/
def code? : ExitStatus → Option Nat
  | .exited code => some code
  | .killed _ => none

/-- The number by which a shell knows the status. -/
def number : ExitStatus → Nat
  | .exited code => code
  | .killed signal => 128 + signal

end ExitStatus

/-- Where something is written to. The first two channels are the output and the errors of a
    process; a shell makes further ones. -/
abbrev Channel := Nat

def Channel.output : Channel := 0

def Channel.errors : Channel := 1

/-- A text that is written, after so many milliseconds. -/
structure Write where
  time : Nat
  channel : Channel
  text : String
  deriving DecidableEq, Inhabited

/-- Everything that is written to one channel, in the order of time. -/
def textOn (c : Channel) (ws : List Write) : String :=
  let ws := (ws.filter (·.channel == c)).mergeSort fun a b => a.time ≤ b.time
  String.join (ws.map (·.text))

/-- How a process is called. -/
structure Invocation where
  /-- the name as the caller gives it, which is also how the process calls itself -/
  name : String
  args : List String
  input : String
  environment : List (String × String)
  files : Files

/-- What a process does. -/
structure Effect where
  writes : List Write
  /-- the part of the input that it does not read -/
  unread : String
  status : ExitStatus
  /-- after how many milliseconds it ends, unless it goes on for ever -/
  duration : Option Nat
  /-- the files after it, if they are others than before -/
  changed : Option Files := none
  deriving DecidableEq, Inhabited

/-- A program, from how it is called to what it does. -/
abbrev Program := Invocation → Effect

namespace Effect

/-- End at once, having written an output and a message. -/
def finish (output message unread : String) (code : Nat) : Effect where
  writes :=
    (if output.isEmpty then [] else [⟨0, .output, output⟩]) ++
      if message.isEmpty then [] else [⟨0, .errors, message⟩]
  unread := unread
  status := .exited code
  duration := some 0

/-- End at once and in success, having read all of the input. -/
def print (output : String) : Effect := finish output "" "" 0

/-- End at once with an exit code. -/
def exit (unread : String) (code : Nat) : Effect := finish "" "" unread code

end Effect

namespace Invocation

/-- End at once with a message and an exit code. -/
def fail (inv : Invocation) (message : String) (code : Nat) : Effect :=
  .finish "" (inv.name ++ ": " ++ message ++ "\n") inv.input code

/-- End at once with a message about wrong arguments. -/
def misuse (inv : Invocation) (message : String) (code : Nat) : Effect :=
  .finish "" (inv.name ++ ": " ++ message ++ "\nTry '" ++ inv.name ++
    " --help' for more information.\n") inv.input code

end Invocation

/-! ## Options and operands -/

/-- The number that digits stand for. -/
def decimal? (s : String) : Option Nat :=
  if s.isEmpty || !s.all Char.isDigit then none
  else some (s.foldl (fun n c => n * 10 + (c.toNat - '0'.toNat)) 0)

/-- The arguments of a program: options of one letter with their values, in order, and operands. -/
structure Arguments where
  options : List (Char × String)
  operands : List String
  deriving DecidableEq, Inhabited

namespace Arguments

def has (a : Arguments) (c : Char) : Bool := a.options.any (·.1 == c)

/-- The value of the last option of a letter. -/
def value? (a : Arguments) (c : Char) : Option String :=
  (a.options.reverse.find? (·.1 == c)).map (·.2)

/-- Read the letters after a dash, of which the ones in `valued` take a value: what is left of the
    argument, or else the next argument, which a letter is left waiting for. -/
def cluster (plain valued : String) : List Char →
    Except String (List (Char × String) × Option Char)
  | [] => .ok ([], none)
  | c :: cs =>
    if plain.contains c then
      (cluster plain valued cs).map fun (options, waiting) => ((c, "") :: options, waiting)
    else if !valued.contains c then .error ("invalid option -- '" ++ c.toString ++ "'")
    else if cs.isEmpty then .ok ([], some c)
    else .ok ([(c, String.ofList cs)], none)

/-- Read arguments. Options may stand behind operands, up to an argument of two dashes; a number
    after a dash is the value of the option `n` if there is one. -/
def read (plain valued : String) : List String → Except String Arguments
  | [] => .ok ⟨[], []⟩
  | arg :: args =>
    match arg.toList with
    | ['-', '-'] => .ok ⟨[], args⟩
    | '-' :: '-' :: _ => .error ("unrecognized option '" ++ arg ++ "'")
    | '-' :: c :: cs =>
      if valued.contains 'n' && (c :: cs).all Char.isDigit then
        (read plain valued args).map fun a =>
          { a with options := ('n', String.ofList (c :: cs)) :: a.options }
      else
        match cluster plain valued (c :: cs) with
        | .error message => .error message
        | .ok (options, none) =>
          (read plain valued args).map fun a => { a with options := options ++ a.options }
        | .ok (options, some waiting) =>
          match args with
          | [] => .error ("option requires an argument -- '" ++ waiting.toString ++ "'")
          | value :: args =>
            (read plain valued args).map fun a =>
              { a with options := options ++ (waiting, value) :: a.options }
    | _ => (read plain valued args).map fun a => { a with operands := arg :: a.operands }

end Arguments

/-- Run a program on its options and operands, or complain about them. -/
def withArguments (plain valued : String) (misuseCode : Nat)
    (f : Invocation → Arguments → Effect) : Program := fun inv =>
  match Arguments.read plain valued inv.args with
  | .error message => inv.misuse message misuseCode
  | .ok a => f inv a

end Entail.Command
