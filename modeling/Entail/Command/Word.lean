set_option autoImplicit false

/-! # Words of the shell

A word is a row of pieces: text, and what is put in the place of a parameter, of the output of
commands or of the value of an expression. Quotes are gone once a word is read; each piece knows
whether it stood in them. -/

namespace Entail.Command

/-- What is done with the value of a parameter. Where there is a choice, `empty` says that a value
    that is empty counts as none. -/
inductive Treatment where
  | plain
  | length
  /-- the argument in the place of no value -/
  | orElse (empty : Bool)
  /-- the argument in the place of no value, and from now on -/
  | orAssign (empty : Bool)
  /-- the argument is what is said if there is no value -/
  | orComplain (empty : Bool)
  /-- the argument in the place of a value -/
  | andThen (empty : Bool)
  /-- without a start that the argument matches -/
  | trimStart (longest : Bool)
  /-- without an end that the argument matches -/
  | trimEnd (longest : Bool)
  /-- there is no such treatment -/
  | unknown
  deriving DecidableEq, Inhabited

/-- A piece of a word. -/
inductive Piece where
  | text (s : String) (quoted : Bool)
  | parameter (name : String) (treatment : Treatment) (argument : List Piece) (quoted : Bool)
  /-- the output of a script that starts on a line -/
  | command (script : String) (line : Nat) (quoted : Bool)
  | arithmetic (expression : List Piece) (quoted : Bool)
  deriving Inhabited

abbrev Word := List Piece

namespace Word

/-- The text of a word that stands for itself, without quotes. -/
def bare? : Word → Option String
  | [.text s false] => some s
  | _ => none

/-- The text of a word as it is written but for the quotes, and whether it has any. -/
def literal (w : Word) : String × Bool :=
  (String.join (w.map fun
    | .text s _ => s
    | _ => ""), w.any fun
    | .text _ quoted => quoted
    | _ => false)

end Word

/-! ## Characters -/

/-- A name starts with such a character. -/
def isNameStart (c : Char) : Bool := c.isAlpha || c == '_'

def isNameChar (c : Char) : Bool := c.isAlphanum || c == '_'

/-- What can be the name of a variable. -/
def isName (s : String) : Bool :=
  match s.toList with
  | c :: cs => isNameStart c && cs.all isNameChar
  | [] => false

def isBlank (c : Char) : Bool := c == ' ' || c == '\t'

/-- A word ends in front of such a character. -/
def endsWord (c : Char) : Bool :=
  isBlank c || c == '\n' || c == ';' || c == '&' || c == '|' || c == '<' || c == '>' || c == '(' ||
    c == ')'

/-- The parameters whose name is a single sign. -/
def isSpecialParameter (c : Char) : Bool :=
  c == '@' || c == '*' || c == '#' || c == '?' || c == '$' || c == '!' || c == '-'

def lineFeeds (cs : List Char) : Nat := cs.count '\n'

/-! ## The end of a script in a word -/

/-- What is open while the end of a script is looked for. A parenthesis knows how many choices are
    open in it, since a pattern of a choice ends with a parenthesis that closes nothing. -/
inductive Opened where
  | paren (choices : Nat)
  | single
  | double
  | brace
  | backtick
  | comment
  deriving DecidableEq

namespace Opened

/-- A backslash takes its meaning from the next character. -/
def escapes : Opened → Bool
  | .single | .comment => false
  | _ => true

/-- How many choices are open after a word that `c` ends; `word` has its last character first. -/
def choicesAfter (choices : Nat) (word : List Char) (c : Char) : Nat :=
  if word.reverse == ['c', 'a', 's', 'e'] && isBlank c then choices + 1
  else if word.reverse == ['e', 's', 'a', 'c'] && endsWord c then choices - 1
  else choices

def closedBy (word : List Char) (c : Char) : Opened → Bool
  | .paren choices => c == ')' && choicesAfter choices word c == 0
  | .single => c == '\''
  | .double => c == '"'
  | .brace => c == '\x7d'
  | .backtick => c == '\x60'
  | .comment => c == '\n'

/-- What a character opens inside of something that is open. -/
def inner? (word : List Char) (c : Char) (outer : Opened) : Option Opened :=
  let afterDollar := word.head? == some '$'
  match outer with
  | .single | .backtick | .comment => none
  | _ =>
    if c == '\x60' then some .backtick
    else if c == '\x7b' && afterDollar then some .brace
    else if c == '(' && afterDollar then some (.paren 0)
    else
      match outer with
      | .double => none
      | .brace => if c == '"' then some .double else if c == '\'' then some .single else none
      | _ =>
        if c == '"' then some .double
        else if c == '\'' then some .single
        else if c == '(' then some (.paren 0)
        else if c == '#' && word.isEmpty then some .comment
        else none

/-- What is open after one more character that neither opens nor closes anything. -/
def after (word : List Char) (c : Char) : Opened → Opened
  | .paren choices => .paren (choicesAfter choices word c)
  | o => o

end Opened

/-- Split at the character that closes all that is open. `word` is what was read of a word and
    `done` what was read at all, the last character first. -/
def splitClosed (opened : List Opened) (escaped : Bool) (word done : List Char) :
    List Char → Option (List Char × List Char)
  | [] => none
  | c :: cs =>
    match opened with
    | [] => none
    | o :: outer =>
      if escaped then splitClosed opened false [c] (c :: done) cs
      else if c == '\\' && o.escapes then splitClosed opened true [] (c :: done) cs
      else if o.closedBy word c then
        if outer.isEmpty then some (done.reverse, cs)
        else splitClosed outer false [c] (c :: done) cs
      else
        match o.inner? word c with
        | some inner => splitClosed (inner :: opened) false [] (c :: done) cs
        | none =>
          splitClosed (o.after word c :: outer) false (if endsWord c then [] else c :: word)
            (c :: done) cs

/-- Split an expression from what follows its two closing parentheses; `depth` parentheses are
    open in it. -/
def splitArithmetic (depth : Nat) (done : List Char) : List Char → Option (List Char × List Char)
  | [] => none
  | '(' :: cs => splitArithmetic (depth + 1) ('(' :: done) cs
  | ')' :: cs =>
    if 0 < depth then splitArithmetic (depth - 1) (')' :: done) cs
    else
      match cs with
      | ')' :: rest => some (done.reverse, rest)
      | _ => none
  | c :: cs => splitArithmetic depth (c :: done) cs

/-- Split the script in backticks from what follows them. A backslash is dropped in front of what
    has a meaning there. -/
def splitBackticks (quoted : Bool) (done : List Char) : List Char → Option (List Char × List Char)
  | [] => none
  | '\x60' :: cs => some (done.reverse, cs)
  | '\\' :: c :: cs =>
    if c == '$' || c == '\x60' || c == '\\' || (quoted && c == '"') then
      splitBackticks quoted (c :: done) cs
    else splitBackticks quoted (c :: '\\' :: done) cs
  | c :: cs => splitBackticks quoted (c :: done) cs

/-! ## Reading -/

/-- Where a piece stands. -/
inductive Setting where
  /-- outside of quotes -/
  | plain
  /-- between double quotes -/
  | double
  /-- the argument of a parameter, which may stand between double quotes -/
  | argument (quoted : Bool)
  /-- in a text that has no quotes, up to its end -/
  | document
  deriving DecidableEq

/-- Why a word cannot be read. -/
inductive WordFault where
  | openQuote
  | openBacktick
  | openBrace
  | openArithmetic
  | openScript
  deriving DecidableEq, Inhabited

def WordFault.text : WordFault → String
  | .openQuote => "Unterminated quoted string"
  | .openBacktick => "EOF in backquote substitution"
  | .openBrace => "Missing '\x7d'"
  | .openArithmetic => "Missing '))'"
  | .openScript => "end of file unexpected (expecting \")\")"

namespace Setting

/-- What stands here counts as quoted. -/
def quoted : Setting → Bool
  | .plain => false
  | .double | .document => true
  | .argument quoted => quoted

/-- The row of pieces ends in front of this character. -/
def endsAt (c : Char) : Setting → Bool
  | .plain => endsWord c
  | .double => c == '"'
  | .argument _ => c == '\x7d'
  | .document => false

/-- What it means that there are no more characters. -/
def fault? : Setting → Option WordFault
  | .plain | .document => none
  | .double => some .openQuote
  | .argument _ => some .openBrace

/-- A backslash takes the meaning from this character. -/
def escapes (c : Char) (s : Setting) : Bool :=
  !s.quoted || c == '$' || c == '\x60' || c == '\\' || (c == '"' && s != .document) ||
    (c == '\x7d' && s == .argument true)

/-- The character stands for itself. -/
def ordinary (s : Setting) (c : Char) : Bool :=
  !(s.endsAt c || c == '\\' || c == '\x60' || c == '$' || (c == '"' && s != .document) ||
    (c == '\'' && !s.quoted))

end Setting

/-- The sign for a treatment with an argument. -/
def treatment? : List Char → Option (Treatment × List Char)
  | ':' :: '-' :: cs => some (.orElse true, cs)
  | ':' :: '=' :: cs => some (.orAssign true, cs)
  | ':' :: '?' :: cs => some (.orComplain true, cs)
  | ':' :: '+' :: cs => some (.andThen true, cs)
  | '-' :: cs => some (.orElse false, cs)
  | '=' :: cs => some (.orAssign false, cs)
  | '?' :: cs => some (.orComplain false, cs)
  | '+' :: cs => some (.andThen false, cs)
  | '%' :: '%' :: cs => some (.trimEnd true, cs)
  | '%' :: cs => some (.trimEnd false, cs)
  | '#' :: '#' :: cs => some (.trimStart true, cs)
  | '#' :: cs => some (.trimStart false, cs)
  | _ => none

/-- Patterns have quotes of their own, wherever they stand. -/
def Treatment.takesPattern : Treatment → Bool
  | .trimStart _ | .trimEnd _ => true
  | _ => false

/-- The name of a parameter between braces. -/
def parameterName? : List Char → Option (String × List Char)
  | [] => none
  | c :: cs =>
    let named (ok : Char → Bool) :=
      some (String.ofList (c :: cs.takeWhile ok), cs.dropWhile ok)
    if isNameStart c then named isNameChar
    else if c.isDigit then named Char.isDigit
    else if isSpecialParameter c then some (c.toString, cs)
    else none

mutual

/-- Read a row of pieces in at most `n` steps; it starts on a line. -/
def readPieces (n : Nat) (s : Setting) (line : Nat) (cs : List Char) :
    Except WordFault (Word × List Char) :=
  match n with
  | 0 => .error .openQuote
  | n + 1 =>
    match cs with
    | [] =>
      match s.fault? with
      | some fault => .error fault
      | none => .ok ([], [])
    | c :: _ =>
      if s.endsAt c then .ok ([], cs)
      else do
        let (pieces, rest) ← readPiece n s line cs
        let line := line + lineFeeds (cs.take (cs.length - rest.length))
        let (later, rest) ← readPieces n s line rest
        return (pieces ++ later, rest)

/-- Read one piece; quotes around nothing are an empty piece. -/
def readPiece (n : Nat) (s : Setting) (line : Nat) (cs : List Char) :
    Except WordFault (Word × List Char) :=
  match n with
  | 0 => .error .openQuote
  | n + 1 =>
    match cs with
    | [] => .ok ([], [])
    | '\\' :: '\n' :: rest => .ok ([], rest)
    | '\\' :: c :: rest =>
      if s.escapes c then .ok ([.text c.toString true], rest)
      else .ok ([.text "\\" true], c :: rest)
    | ['\\'] => .ok ([.text "\\" true], [])
    | '\x60' :: rest =>
      match splitBackticks (s == .double) [] rest with
      | none => .error .openBacktick
      | some (script, rest) => .ok ([.command (String.ofList script) line s.quoted], rest)
    | '$' :: rest => readDollar n s line rest
    | c :: rest =>
      if c == '"' && s != .document then do
        let (pieces, rest) ← readPieces n .double line rest
        return (if pieces.isEmpty then [.text "" true] else pieces, rest.drop 1)
      else if c == '\'' && !s.quoted then
        let inside := rest.takeWhile (· != '\'')
        match rest.drop inside.length with
        | [] => .error .openQuote
        | _ :: rest => .ok ([.text (String.ofList inside) true], rest)
      else
        let text := c :: rest.takeWhile s.ordinary
        .ok ([.text (String.ofList text) s.quoted], cs.drop text.length)

/-- Read what follows a dollar sign. -/
def readDollar (n : Nat) (s : Setting) (line : Nat) (cs : List Char) :
    Except WordFault (Word × List Char) :=
  match n with
  | 0 => .error .openQuote
  | n + 1 =>
    match cs with
    | '(' :: '(' :: rest =>
      match splitArithmetic 0 [] rest with
      | none => .error .openArithmetic
      | some (expression, rest) => do
        let (pieces, _) ← readPieces n .document line expression
        return ([.arithmetic pieces s.quoted], rest)
    | '(' :: rest =>
      match splitClosed [.paren 0] false [] [] rest with
      | none => .error .openScript
      | some (script, rest) => .ok ([.command (String.ofList script) line s.quoted], rest)
    | '\x7b' :: '#' :: '\x7d' :: rest => .ok ([.parameter "#" .plain [] s.quoted], rest)
    | '\x7b' :: '#' :: rest =>
      match parameterName? rest with
      | some (name, '\x7d' :: rest) => .ok ([.parameter name .length [] s.quoted], rest)
      | _ => readTreated n s line "#" rest
    | '\x7b' :: rest =>
      match parameterName? rest with
      | some (name, '\x7d' :: rest) => .ok ([.parameter name .plain [] s.quoted], rest)
      | some (name, rest) => readTreated n s line name rest
      | none => readTreated n s line "" rest
    | c :: rest =>
      if isNameStart c then
        let name := c :: rest.takeWhile isNameChar
        .ok ([.parameter (String.ofList name) .plain [] s.quoted], cs.drop name.length)
      else if c.isDigit || isSpecialParameter c then
        .ok ([.parameter c.toString .plain [] s.quoted], rest)
      else .ok ([.text "$" s.quoted], cs)
    | [] => .ok ([.text "$" s.quoted], [])

/-- Read the treatment of a parameter between braces, up to the closing one. -/
def readTreated (n : Nat) (s : Setting) (line : Nat) (name : String) (cs : List Char) :
    Except WordFault (Word × List Char) :=
  match n with
  | 0 => .error .openQuote
  | n + 1 => do
    let (treatment, rest) := (treatment? cs).getD (.unknown, cs)
    let quoted := s.quoted && !treatment.takesPattern
    let (argument, rest) ← readPieces n (.argument quoted) line rest
    return ([.parameter name treatment argument s.quoted], rest.drop 1)

end

/-- Read a word. -/
def readWord (line : Nat) (cs : List Char) : Except WordFault (Word × List Char) :=
  readPieces (4 * cs.length + 4) .plain line cs

/-- Read a text in which there are no quotes. -/
def readDocument (line : Nat) (cs : List Char) : Except WordFault Word :=
  (readPieces (4 * cs.length + 4) .document line cs).map (·.1)

end Entail.Command
