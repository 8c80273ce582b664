import Entail.Command.Word

set_option autoImplicit false

/-! # Scripts

A script is a row of commands. It is read in two steps: characters make tokens, which know the line
they are on, and tokens make commands. A fault of a line does not keep the lines before it from
being read. -/

namespace Entail.Command

/-- What a redirection does. -/
inductive RedirectKind where
  | input
  | output
  | append
  /-- to the same place as another one -/
  | duplicate
  /-- the target is the text to read -/
  | document
  deriving DecidableEq, Inhabited

/-- Where a command reads from or writes to instead. -/
structure Redirection where
  place : Nat
  kind : RedirectKind
  target : Word
  deriving Inhabited

/-- What is done, in some order and under some conditions. -/
inductive Script where
  | skip
  | simple (line : Nat) (words : List Word) (redirections : List Redirection)
  | redirected (line : Nat) (body : Script) (redirections : List Redirection)
  /-- in a shell of its own -/
  | enclosed (body : Script)
  | pipe (left right : Script)
  | background (body : Script)
  | negated (body : Script)
  | both (a b : Script)
  | either (a b : Script)
  | sequence (a b : Script)
  | branch (condition yes no : Script)
  | loop (whenTrue : Bool) (condition body : Script)
  /-- for each of the words, or of the parameters -/
  | each (line : Nat) (name : String) (words : Option (List Word)) (body : Script)
  | choose (line : Nat) (subject : Word) (cases : List (List Word × Script))
  | define (name : String) (body : Script)
  deriving Inhabited

/-! ## Tokens -/

/-- A token of a script. -/
inductive Token where
  | word (w : Word)
  | sign (s : String)
  | newline
  /-- a redirection that lacks its target -/
  | redirect (place : Nat) (kind : RedirectKind)
  /-- a redirection from a text in the script, which is numbered -/
  | document (index place : Nat) (body : Word)
  | broken (fault : WordFault)
  | finish
  deriving Inhabited

/-- A token and the line on which it ends. -/
structure Lexeme where
  line : Nat
  token : Token
  deriving Inhabited

/-- A text in the script that comes with the next line. -/
structure Awaited where
  index : Nat
  /-- the line that ends it -/
  last : List Char
  /-- the text stands for itself -/
  quoted : Bool
  /-- tabs in front of lines are dropped -/
  untabbed : Bool

/-- The lines of an awaited text, and what comes after them. -/
def splitDocument (a : Awaited) (n : Nat) (cs : List Char) : List Char × List Char :=
  match n with
  | 0 => ([], cs)
  | n + 1 =>
    if cs.isEmpty then ([], [])
    else
      let line := cs.takeWhile (· != '\n')
      let rest := cs.drop line.length
      let shown := if a.untabbed then line.dropWhile (· == '\t') else line
      if shown == a.last then ([], rest.drop 1)
      else
        let (later, after) := splitDocument a n (rest.drop 1)
        (shown ++ rest.take 1 ++ later, after)

/-- Put an awaited text where it belongs. -/
def Lexeme.supply (index : Nat) (body : Word) (l : Lexeme) : Lexeme :=
  match l.token with
  | .document i place _ =>
    if i == index then { l with token := .document i place body } else l
  | _ => l

/-- The signs, of two that begin alike the longer one first. -/
def signs : List String := ["&&", "||", ";;", "&", ";", "|", "(", ")"]

/-- The redirections, of two that begin alike the longer one first; no kind means a text in the
    script. -/
def redirectSigns : List (String × Nat × Option RedirectKind) :=
  [("<<-", 0, none), ("<<", 0, none), ("<&", 0, some .duplicate), ("<>", 0, some .input),
    ("<", 0, some .input), (">>", 1, some .append), (">&", 1, some .duplicate),
    (">|", 1, some .output), (">", 1, some .output)]

/-- The sign of a redirection, with a digit for its place in front of it or without. -/
def redirect? (cs : List Char) : Option (String × Nat × Option RedirectKind × List Char) :=
  let (place, body) : Option Nat × List Char :=
    match cs with
    | c :: rest => if c.isDigit then (some (c.toNat - '0'.toNat), rest) else (none, cs)
    | [] => (none, [])
  (redirectSigns.find? fun r => r.1.toList.isPrefixOf body).map fun (sign, usual, kind) =>
    (sign, place.getD usual, kind, body.drop sign.length)

/-- Make tokens in at most `n` steps; the last of those that are done stands first. -/
def tokensFrom (n : Nat) (line : Nat) (awaited : List Awaited) (done : List Lexeme)
    (cs : List Char) : List Lexeme :=
  match n with
  | 0 => (⟨line, .finish⟩ :: done).reverse
  | n + 1 =>
    match cs with
    | [] => (⟨line, .finish⟩ :: done).reverse
    | '\\' :: '\n' :: rest => tokensFrom n (line + 1) awaited done rest
    | '#' :: rest => tokensFrom n line awaited done (rest.dropWhile (· != '\n'))
    | '\n' :: rest =>
      let start := (line + 1, ⟨line, .newline⟩ :: done, rest)
      let (line, done, rest) := awaited.foldl (fun (line, done, rest) a =>
        let (body, after) := splitDocument a (rest.length + 1) rest
        let pieces : Word :=
          if a.quoted then [.text (String.ofList body) true]
          else ((readDocument line body).toOption).getD [.text (String.ofList body) true]
        (line + lineFeeds (rest.take (rest.length - after.length)),
          done.map (Lexeme.supply a.index pieces), after)) start
      tokensFrom n line [] done rest
    | c :: rest =>
      if isBlank c then tokensFrom n line awaited done rest
      else
        match redirect? cs with
        | some (_, place, some kind, rest) =>
          tokensFrom n line awaited (⟨line, .redirect place kind⟩ :: done) rest
        | some (sign, place, none, rest) =>
          match readWord line (rest.dropWhile isBlank) with
          | .error fault => (⟨line, .broken fault⟩ :: done).reverse
          | .ok ([], rest) =>
            tokensFrom n line awaited (⟨line, .redirect place .document⟩ :: done) rest
          | .ok (w, rest) =>
            let (last, quoted) := w.literal
            let a : Awaited := ⟨done.length, last.toList, quoted, sign == "<<-"⟩
            tokensFrom n line (awaited ++ [a]) (⟨line, .document a.index place []⟩ :: done) rest
        | none =>
          match signs.find? fun s => s.toList.isPrefixOf cs with
          | some s => tokensFrom n line awaited (⟨line, .sign s⟩ :: done) (cs.drop s.length)
          | none =>
            match readWord line cs with
            | .error fault => (⟨line + lineFeeds cs, .broken fault⟩ :: done).reverse
            | .ok (w, rest) =>
              let line := line + lineFeeds (cs.take (cs.length - rest.length))
              tokensFrom n line awaited (⟨line, .word w⟩ :: done) rest

/-- The tokens of a script that starts on a line. -/
def tokens (line : Nat) (cs : List Char) : List Lexeme :=
  tokensFrom (cs.length + 1) line [] [] cs

/-! ## Faults -/

/-- The words that have a meaning of their own where a command starts. -/
def reservedWords : List String :=
  ["!", "case", "do", "done", "elif", "else", "esac", "fi", "for", "if", "in", "then", "until",
    "while", "\x7b", "\x7d"]

/-- Why a script cannot be read. -/
inductive ScriptFault where
  | word (fault : WordFault)
  /-- this stands where it cannot stand, perhaps in the place of something else -/
  | unexpected (found : String) (expected : Option String)
  | loopName
  | functionName
  deriving DecidableEq, Inhabited

def ScriptFault.text : ScriptFault → String
  | .word fault => "Syntax error: " ++ fault.text
  | .unexpected found none => "Syntax error: " ++ found ++ " unexpected"
  | .unexpected found (some expected) =>
    "Syntax error: " ++ found ++ " unexpected (expecting \"" ++ expected ++ "\")"
  | .loopName => "Syntax error: Bad for loop variable"
  | .functionName => "Syntax error: Bad function name"

namespace Token

/-- The reserved word that a token is. -/
def reserved? : Token → Option String
  | .word w => w.bare?.filter reservedWords.contains
  | _ => none

/-- The reserved word or sign that a token is. -/
def mark? : Token → Option String
  | .sign s => some s
  | t => t.reserved?

/-- How a token is called in a message. -/
def name (t : Token) : String :=
  match t with
  | .word _ =>
    match t.reserved? with
    | some s => "\"" ++ s ++ "\""
    | none => "word"
  | .sign s => "\"" ++ s ++ "\""
  | .newline => "newline"
  | .redirect _ _ | .document _ _ _ => "redirection"
  | .broken _ | .finish => "end of file"

/-- The marks behind a row of commands. -/
def endsCommands (t : Token) : Bool :=
  t.mark?.any fun s =>
    [")", ";;", "then", "else", "elif", "fi", "do", "done", "esac", "\x7d"].contains s

end Token

/-! ## Reading -/

/-- A result of reading, or a fault and its line. -/
abbrev Reading := Except (Nat × ScriptFault)

/-- What is read of a row of tokens, with the tokens after it. -/
abbrev Taken (α : Type) := α × List Lexeme

/-- The token that comes next does not belong there. -/
def unexpected {α : Type} (ts : List Lexeme) (expected : Option String) : Reading α :=
  match ts with
  | [] => .error (0, .unexpected "end of file" expected)
  | ⟨line, .broken fault⟩ :: _ => .error (line, .word fault)
  | ⟨line, t⟩ :: _ => .error (line, .unexpected t.name expected)

/-- Take a mark that has to be there. -/
def expect (mark : String) (ts : List Lexeme) : Reading (List Lexeme) :=
  match ts with
  | l :: rest => if l.token.mark? == some mark then .ok rest else unexpected ts (some mark)
  | [] => unexpected ts (some mark)

def skipNewlines (ts : List Lexeme) : List Lexeme :=
  ts.dropWhile fun l =>
    match l.token with
    | .newline => true
    | _ => false

/-- The mark that comes next. -/
def nextMark? (ts : List Lexeme) : Option String := ts.head?.bind fun l => l.token.mark?

/-- The line of the token that comes next. -/
def nextLine (ts : List Lexeme) : Nat := (ts.head?.map (·.line)).getD 0

/-- Take words as long as there are any. -/
def takeWords : List Lexeme → List Word × List Lexeme
  | ⟨_, .word w⟩ :: ts =>
    let (ws, rest) := takeWords ts
    (w :: ws, rest)
  | ts => ([], ts)

/-- Read redirections as long as there are any. -/
def readRedirections : List Lexeme → Reading (Taken (List Redirection))
  | ⟨_, .redirect place kind⟩ :: ⟨_, .word w⟩ :: ts => do
    let (more, rest) ← readRedirections ts
    return (⟨place, kind, w⟩ :: more, rest)
  | ⟨_, .redirect _ _⟩ :: ts => unexpected ts none
  | ⟨_, .document _ place body⟩ :: ts => do
    let (more, rest) ← readRedirections ts
    return (⟨place, .document, body⟩ :: more, rest)
  | ts => .ok ([], ts)

/-- Read the words and redirections of a simple command. -/
def readSimple : List Lexeme → Reading (Taken (List Word × List Redirection))
  | ⟨_, .word w⟩ :: ts => do
    let ((ws, rs), rest) ← readSimple ts
    return ((w :: ws, rs), rest)
  | ⟨_, .redirect place kind⟩ :: ⟨_, .word w⟩ :: ts => do
    let ((ws, rs), rest) ← readSimple ts
    return ((ws, ⟨place, kind, w⟩ :: rs), rest)
  | ⟨_, .redirect _ _⟩ :: ts => unexpected ts none
  | ⟨_, .document _ place body⟩ :: ts => do
    let ((ws, rs), rest) ← readSimple ts
    return ((ws, ⟨place, .document, body⟩ :: rs), rest)
  | ts@(⟨_, .broken _⟩ :: _) => unexpected ts none
  | ts => .ok (([], []), ts)

/-- Read the patterns of a case, up to the parenthesis behind them. -/
def readPatterns : List Lexeme → Reading (Taken (List Word))
  | ⟨_, .word w⟩ :: ⟨_, .sign "|"⟩ :: ts => do
    let (ws, rest) ← readPatterns ts
    return (w :: ws, rest)
  | ⟨_, .word w⟩ :: ts => do return ([w], ← expect ")" ts)
  | ts => unexpected ts none

mutual

/-- Read commands up to a mark that ends them, in at most `n` steps. There may be none only if that
    is allowed. -/
def readCommands (n : Nat) (orNone : Bool) (ts : List Lexeme) : Reading (Taken Script) :=
  match n with
  | 0 => unexpected ts none
  | n + 1 =>
    let ts := skipNewlines ts
    match ts with
    | [] | ⟨_, .finish⟩ :: _ => .ok (.skip, ts)
    | l :: _ =>
      if orNone && l.token.endsCommands then .ok (.skip, ts)
      else do
        let (first, rest) ← readJoined n ts
        match rest with
        | ⟨_, .sign "&"⟩ :: rest =>
          let (later, rest) ← readCommands n true rest
          return (.sequence (.background first) later, rest)
        | ⟨_, .sign ";"⟩ :: rest | ⟨_, .newline⟩ :: rest =>
          let (later, rest) ← readCommands n true rest
          return (.sequence first later, rest)
        | rest => return (first, rest)

/-- Read commands that are joined by conditions. -/
def readJoined (n : Nat) (ts : List Lexeme) : Reading (Taken Script) :=
  match n with
  | 0 => unexpected ts none
  | n + 1 => do
    let (first, rest) ← readPipe n ts
    joinMore n first rest

/-- Read what is joined to a command. -/
def joinMore (n : Nat) (first : Script) (ts : List Lexeme) : Reading (Taken Script) :=
  match n with
  | 0 => unexpected ts none
  | n + 1 =>
    match ts with
    | ⟨_, .sign "&&"⟩ :: ts => do
      let (next, rest) ← readPipe n (skipNewlines ts)
      joinMore n (.both first next) rest
    | ⟨_, .sign "||"⟩ :: ts => do
      let (next, rest) ← readPipe n (skipNewlines ts)
      joinMore n (.either first next) rest
    | ts => .ok (first, ts)

/-- Read commands of which each one reads what the one before writes. -/
def readPipe (n : Nat) (ts : List Lexeme) : Reading (Taken Script) :=
  match n with
  | 0 => unexpected ts none
  | n + 1 =>
    if nextMark? ts == some "!" then do
      let (body, rest) ← readPipe n ts.tail
      return (.negated body, rest)
    else do
      let (first, rest) ← readCommand n ts
      pipeMore n first rest

/-- Read the commands behind the first one of a pipe. -/
def pipeMore (n : Nat) (first : Script) (ts : List Lexeme) : Reading (Taken Script) :=
  match n with
  | 0 => unexpected ts none
  | n + 1 =>
    match ts with
    | ⟨_, .sign "|"⟩ :: ts => do
      let (next, rest) ← readCommand n (skipNewlines ts)
      let (more, rest) ← pipeMore n next rest
      return (.pipe first more, rest)
    | ts => .ok (first, ts)

/-- Read one command. -/
def readCommand (n : Nat) (ts : List Lexeme) : Reading (Taken Script) :=
  match n with
  | 0 => unexpected ts none
  | n + 1 =>
    let line := nextLine ts
    let closed (mark : String) (result : Reading (Taken Script)) : Reading (Taken Script) := do
      let (body, rest) ← result
      let rest ← expect mark rest
      let (redirections, rest) ← readRedirections rest
      return (if redirections.isEmpty then body else .redirected line body redirections, rest)
    match nextMark? ts with
    | some "(" =>
      closed ")" do
        let (body, rest) ← readCommands n false ts.tail
        return (.enclosed body, rest)
    | some "\x7b" => closed "\x7d" (readCommands n false ts.tail)
    | some "if" => closed "fi" (readBranch n ts.tail)
    | some "while" => closed "done" (readLoop n true ts.tail)
    | some "until" => closed "done" (readLoop n false ts.tail)
    | some "for" => closed "done" (readEach n line ts.tail)
    | some "case" => closed "esac" (readChoice n line ts.tail)
    | some _ => unexpected ts none
    | none =>
      match ts with
      | ⟨_, .word w⟩ :: ⟨_, .sign "("⟩ :: rest => do
        if w.literal.1.contains '=' then unexpected ts.tail none
        let rest ← expect ")" rest
        match w.bare?.filter isName with
        | none => throw (line, .functionName)
        | some name =>
          let (body, rest) ← readCommand n (skipNewlines rest)
          return (.define name body, rest)
      | ⟨_, .word _⟩ :: _ | ⟨_, .redirect _ _⟩ :: _ | ⟨_, .document _ _ _⟩ :: _ => do
        let ((words, redirections), rest) ← readSimple ts
        return (.simple line words redirections, rest)
      | ts => unexpected ts none

/-- Read a condition and what hangs on it. -/
def readBranch (n : Nat) (ts : List Lexeme) : Reading (Taken Script) :=
  match n with
  | 0 => unexpected ts none
  | n + 1 => do
    let (condition, rest) ← readCommands n false ts
    let rest ← expect "then" rest
    let (yes, rest) ← readCommands n false rest
    match nextMark? rest with
    | some "elif" =>
      let (no, rest) ← readBranch n rest.tail
      return (.branch condition yes no, rest)
    | some "else" =>
      let (no, rest) ← readCommands n false rest.tail
      return (.branch condition yes no, rest)
    | _ => return (.branch condition yes .skip, rest)

/-- Read a loop on a condition. -/
def readLoop (n : Nat) (whenTrue : Bool) (ts : List Lexeme) : Reading (Taken Script) :=
  match n with
  | 0 => unexpected ts none
  | n + 1 => do
    let (condition, rest) ← readCommands n false ts
    let rest ← expect "do" rest
    let (body, rest) ← readCommands n false rest
    return (.loop whenTrue condition body, rest)

/-- Read a loop over words. -/
def readEach (n : Nat) (line : Nat) (ts : List Lexeme) : Reading (Taken Script) :=
  match n with
  | 0 => unexpected ts none
  | n + 1 =>
    match ts with
    | ⟨_, .word w⟩ :: rest =>
      match w.bare?.filter isName with
      | none => .error (line, .loopName)
      | some name => do
        let (words, rest) ←
          if nextMark? (skipNewlines rest) == some "in" then
            let (words, rest) := takeWords (skipNewlines rest).tail
            match rest with
            | ⟨_, .newline⟩ :: rest | ⟨_, .sign ";"⟩ :: rest => pure (some words, rest)
            | rest => unexpected rest none
          else if nextMark? rest == some ";" then pure (none, rest.tail)
          else pure (none, rest)
        let rest ← expect "do" (skipNewlines rest)
        let (body, rest) ← readCommands n false rest
        return (.each line name words body, rest)
    | ts@(⟨_, .broken _⟩ :: _) => unexpected ts none
    | _ => .error (line, .loopName)

/-- Read a choice between patterns. -/
def readChoice (n : Nat) (line : Nat) (ts : List Lexeme) : Reading (Taken Script) :=
  match n with
  | 0 => unexpected ts none
  | n + 1 =>
    match ts with
    | ⟨_, .word subject⟩ :: rest => do
      let rest ← expect "in" (skipNewlines rest)
      let (cases, rest) ← readCases n rest
      return (.choose line subject cases, rest)
    | ts => unexpected ts (some "word")

/-- Read the cases of a choice, up to its last word. -/
def readCases (n : Nat) (ts : List Lexeme) : Reading (Taken (List (List Word × Script))) :=
  match n with
  | 0 => unexpected ts none
  | n + 1 =>
    let ts := skipNewlines ts
    if nextMark? ts == some "esac" then .ok ([], ts)
    else do
      let (patterns, rest) ← readPatterns (if nextMark? ts == some "(" then ts.tail else ts)
      let (body, rest) ← readCommands n true rest
      let rest := skipNewlines rest
      match nextMark? rest with
      | some "esac" => return ([(patterns, body)], rest)
      | some ";;" =>
        let (more, rest) ← readCases n rest.tail
        return ((patterns, body) :: more, rest)
      | _ => unexpected rest (some ";;")

end

namespace Script

/-- Read the commands on a line, in at most `n` steps. -/
def readLine (steps : Nat) : (n : Nat) → List Lexeme → Reading (Taken Script)
  | 0, ts => unexpected ts none
  | n + 1, ts =>
    match ts with
    | [] | ⟨_, .finish⟩ :: _ => .ok (.skip, ts)
    | ⟨_, .newline⟩ :: rest => .ok (.skip, rest)
    | ts => do
      let (first, rest) ← readJoined steps ts
      match rest with
      | ⟨_, .sign "&"⟩ :: rest =>
        let (later, rest) ← readLine steps n rest
        return (.sequence (.background first) later, rest)
      | ⟨_, .sign ";"⟩ :: rest =>
        let (later, rest) ← readLine steps n rest
        return (.sequence first later, rest)
      | ⟨_, .newline⟩ :: rest => return (first, rest)
      | [] | ⟨_, .finish⟩ :: _ => return (first, [])
      | rest => unexpected rest none

/-- Read line after line, in at most `n` steps, up to the first fault. -/
def readLines (steps : Nat) : (n : Nat) → List Lexeme → List Script × Option (Nat × ScriptFault)
  | 0, _ => ([], none)
  | n + 1, ts =>
    match ts with
    | [] | ⟨_, .finish⟩ :: _ => ([], none)
    | ts =>
      match readLine steps (ts.length + 1) ts with
      | .error fault => ([], some fault)
      | .ok (script, rest) =>
        let (later, fault) := readLines steps n rest
        (script :: later, fault)

/-- Read a text that starts on a line. -/
def read (line : Nat) (text : String) : List Script × Option (Nat × ScriptFault) :=
  let ts := tokens line text.toList
  readLines (8 * ts.length + 8) (ts.length + 1) ts

end Script

end Entail.Command
