import Entail.Command.Filter

set_option autoImplicit false

/-! # Searching and editing lines

The programs that look for regular expressions in lines and change lines by them. -/

namespace Entail.Command

-- sums start from the core library's zero, whatever else is imported
attribute [local instance (high)] Zero.ofOfNat0

/-! ## Searching -/

/-- What lines are searched for. -/
structure Query where
  patterns : List Regex
  foldsCase : Bool
  wholeLine : Bool
  wholeWord : Bool

namespace Query

def isWordChar (c : Char) : Bool := c.isAlphanum || c == '_'

/-- A match may count, by what stands around it. -/
def admits (q : Query) (before found after : List Char) : Bool :=
  (!q.wholeLine || (before.isEmpty && after.isEmpty)) &&
    (!q.wholeWord || (!found.isEmpty && !(before.getLast?.any isWordChar) &&
      !(after.head?.any isWordChar)))

/-- The first match of a pattern that counts, in at most `n` tries from left to right. -/
def searchOne (q : Query) (r : Regex) (full : List Char) :
    (n : Nat) → (skipped rest : List Char) → Option (List Char × List Char × List Char)
  | 0, _, _ => none
  | n + 1, skipped, rest =>
    match r.search skipped rest with
    | none => none
    | some (before, found, p) =>
      if q.admits before found p.rest then some (before, found, p.rest)
      else
        match full.drop before.length with
        | [] => none
        | c :: later => searchOne q r full n (c :: before.reverse) later

/-- The first match in what is left of a line: before it, the match, and after it. Of the matches of
    several patterns the leftmost counts, and of these the longest. -/
def search (q : Query) (full skipped rest : List Char) :
    Option (List Char × List Char × List Char) :=
  let found := q.patterns.filterMap fun r => q.searchOne r full (full.length + 1) skipped rest
  found.foldl (fun best m =>
    match best with
    | none => some m
    | some b =>
      if m.1.length < b.1.length || (m.1.length == b.1.length && b.2.1.length < m.2.1.length) then
        some m
      else best) none

/-- A line as it is searched. -/
def fold (q : Query) (line : List Char) : List Char :=
  if q.foldsCase then line.map Char.toLower else line

def selects (q : Query) (line : List Char) : Bool :=
  (q.search (q.fold line) [] (q.fold line)).isSome

/-- The parts of a line that match, in at most `n` tries. -/
def parts (q : Query) (line : List Char) : (n : Nat) → (at_ : Nat) → List (List Char)
  | 0, _ => []
  | n + 1, at_ =>
    let full := q.fold line
    match q.search full (full.take at_).reverse (full.drop at_) with
    | none => []
    | some (before, found, _) =>
      if found.isEmpty then
        if at_ < full.length then parts q line n (at_ + 1) else []
      else
        let stop := before.length + found.length
        ((line.drop before.length).take found.length) :: parts q line n stop

end Query

/-- How many bytes of the input are read at least. -/
def Query.blockSize : Nat := 98304

/-- A pattern that is only text. -/
def literalRegex (cs : List Char) : Regex :=
  cs.foldr (fun c r => .seq (.char c) r) .empty

/-- Search lines. The exit code tells whether any was selected. -/
def grepAs (extended fixed : Bool) : Program :=
  withArguments "cvinqsxwoFEGhH" "em" 2 fun inv a =>
    let (texts, files) :=
      match (a.options.filter (·.1 == 'e')).map (·.2) with
      | [] => (a.operands.take 1, a.operands.drop 1)
      | given => (given, a.operands)
    if texts.isEmpty then
      .finish "" ("Usage: grep [OPTION]... PATTERNS [FILE]...\n" ++
        "Try 'grep --help' for more information.\n") inv.input 2
    else
      let texts := texts.flatMap (·.splitOn "\n")
      let texts := if a.has 'i' then texts.map String.toLower else texts
      let read (t : String) : Option Regex :=
        if fixed || a.has 'F' then some (literalRegex t.toList)
        else Regex.read? (extended || a.has 'E') t
      match texts.mapM read with
      | none => inv.fail "Invalid regular expression" 2
      | some patterns =>
        let q : Query := ⟨patterns, a.has 'i', a.has 'x', a.has 'w'⟩
        let s := Sources.ofOperands inv files
        let most := (a.value? 'm').bind decimal?
        let named := a.has 'H' || (1 < files.length && !a.has 'h')
        let search (text : String × String) : String × Nat :=
          let name := if named then text.1 ++ ":" else ""
          let lines := (bareLines text.2).zipIdx.filter fun (line, _) => q.selects line != a.has 'v'
          let lines := lines.take (most.getD lines.length)
          let shown (line : List Char × Nat) : String :=
            let front := name ++ if a.has 'n' then toString (line.2 + 1) ++ ":" else ""
            if a.has 'o' then
              if a.has 'v' then ""
              else
                String.join ((q.parts line.1 (line.1.length + 1) 0).map fun part =>
                  front ++ String.ofList part ++ "\n")
            else front ++ String.ofList line.1 ++ "\n"
          let output :=
            if a.has 'c' then name ++ toString lines.length ++ "\n"
            else String.join (lines.map shown)
          (output, lines.length)
        let results := s.texts.map search
        let selected := results.any fun r => 0 < r.2
        let output := if a.has 'q' then "" else String.join (results.map (·.1))
        let complaints := if a.has 's' then "" else String.join (s.complaints.map (· ++ "\n"))
        -- nothing is read any more once the answer is clear
        let enough := files.isEmpty && (a.has 'q' && selected || most.any fun n =>
          n ≤ (results.map (·.2)).sum)
        let unread :=
          if enough then String.ofList (inv.input.toList.drop Query.blockSize) else s.unread
        .finish output complaints unread
          (if !s.complaints.isEmpty && !(selected && a.has 'q') then 2
          else if selected then 0 else 1)

/-! ## Editing -/

/-- The lines that an edit is about. -/
inductive Address where
  | line (n : Nat)
  | last
  | regex (r : Regex)

/-- The text that takes the place of a match: characters, and the texts of groups, where the group
    of number zero is the whole match. -/
inductive Replacement where
  | char (c : Char)
  | group (index : Nat)
  deriving Inhabited

/-- What is done with a line. -/
inductive EditAction where
  | substitute (r : Regex) (by_ : List Replacement) (every print : Bool) (occurrence : Nat)
  | translate (source target : List Char)
  | delete
  | print
  | quit
  | number
  | after (text : List Char)
  | before (text : List Char)
  | change (text : List Char)

/-- An edit of the lines from one address to another. -/
structure Edit where
  addresses : List Address
  inverted : Bool
  action : EditAction

namespace Edit

/-- Read up to a separator that no backslash stands before. -/
def readPart (separator : Char) : (acc cs : List Char) → Option (List Char × List Char)
  | _, [] => none
  | acc, '\\' :: c :: cs =>
    if c == separator then readPart separator (c :: acc) cs
    else readPart separator (c :: '\\' :: acc) cs
  | acc, c :: cs =>
    if c == separator then some (acc.reverse, cs) else readPart separator (c :: acc) cs

/-- Read what takes the place of a match. -/
def readReplacement : List Char → List Replacement
  | [] => []
  | '\\' :: c :: cs =>
    if c.isDigit then .group (c.toNat - '0'.toNat) :: readReplacement cs
    else if c == 'n' then .char '\n' :: readReplacement cs
    else if c == 't' then .char '\t' :: readReplacement cs
    else .char c :: readReplacement cs
  | '&' :: cs => .group 0 :: readReplacement cs
  | c :: cs => .char c :: readReplacement cs

def readAddress? (extended : Bool) : List Char → Option (Address × List Char)
  | '$' :: cs => some (.last, cs)
  | '/' :: cs => do
    let (part, cs) ← readPart '/' [] cs
    return (.regex (← Regex.read? extended (String.ofList part)), cs)
  | cs =>
    let digits := cs.takeWhile Char.isDigit
    (decimal? (String.ofList digits)).map fun n => (.line n, cs.drop digits.length)

def isBlank (c : Char) : Bool := c == ' ' || c == '\t'

/-- The text of an action that has one, up to the end of its line. -/
def readText (cs : List Char) : List Char × List Char :=
  let cs := cs.dropWhile isBlank
  let cs := if cs.head? == some '\\' then (cs.drop 1).dropWhile fun c => c == '\n' else cs
  (cs.takeWhile (· != '\n'), cs.dropWhile (· != '\n'))

/-- Read an action. -/
def readAction? (extended : Bool) : List Char → Option (EditAction × List Char)
  | 's' :: separator :: cs => do
    let (pattern, cs) ← readPart separator [] cs
    let (text, cs) ← readPart separator [] cs
    let flags := cs.takeWhile Char.isAlphanum
    let r ← Regex.read? extended (String.ofList pattern)
    let occurrence := (decimal? (String.ofList (flags.filter Char.isDigit))).getD 1
    let replacement := readReplacement text
    return (.substitute r replacement (flags.contains 'g') (flags.contains 'p') occurrence,
      cs.drop flags.length)
  | 'y' :: separator :: cs => do
    let (source, cs) ← readPart separator [] cs
    let (target, cs) ← readPart separator [] cs
    if source.length == target.length then return (.translate source target, cs) else none
  | 'd' :: cs => some (.delete, cs)
  | 'p' :: cs => some (.print, cs)
  | 'q' :: cs => some (.quit, cs)
  | '=' :: cs => some (.number, cs)
  | 'a' :: cs =>
    let (text, cs) := readText cs
    some (.after text, cs)
  | 'i' :: cs =>
    let (text, cs) := readText cs
    some (.before text, cs)
  | 'c' :: cs =>
    let (text, cs) := readText cs
    some (.change text, cs)
  | _ => none

/-- Read edits that are separated by semicolons and line feeds, at most `n`. -/
def readAll? (extended : Bool) : (n : Nat) → List Char → Option (List Edit)
  | 0, _ => none
  | n + 1, cs => do
    let cs := cs.dropWhile fun c => isBlank c || c == ';' || c == '\n'
    if cs.isEmpty then return []
    let (addresses, cs) ←
      match readAddress? extended cs with
      | none => some ([], cs)
      | some (first, ',' :: cs) =>
        (readAddress? extended cs).map fun (second, cs) => ([first, second], cs)
      | some (first, cs) => some ([first], cs)
    let cs := cs.dropWhile isBlank
    let inverted := cs.head? == some '!'
    let cs := (if inverted then cs.drop 1 else cs).dropWhile isBlank
    let (action, cs) ← readAction? extended cs
    let cs := cs.dropWhile isBlank
    if cs.isEmpty || cs.head? == some ';' || cs.head? == some '\n' then
      return ⟨addresses, inverted, action⟩ :: (← readAll? extended n cs)
    else none

/-- The text for a match. -/
def replace (by_ : List Replacement) (found : List Char) (groups : List (Nat × List Char)) :
    List Char :=
  by_.flatMap fun
    | .char c => [c]
    | .group i => if i == 0 then found else (groups.lookup i).getD []

/-- Replace matches from a place of a line on, in at most `n` tries: the one of a number, and those
    after it if all are. Tells how many were replaced. -/
def substitute (r : Regex) (by_ : List Replacement) (every : Bool) (full : List Char) :
    (n occurrence : Nat) → (skipped rest : List Char) → (afterMatch : Bool) → List Char × Nat
  | 0, _, _, rest, _ => (rest, 0)
  | n + 1, occurrence, skipped, rest, afterMatch =>
    match r.search skipped rest with
    | none => (rest, 0)
    | some (before, found, p) =>
      let kept := before.drop skipped.length
      let step (text : List Char) (occurrence count : Nat) : List Char × Nat :=
        match found, p.rest with
        | [], [] => (kept ++ text, count)
        | [], c :: later =>
          let (text', count') :=
            substitute r by_ every full n occurrence (c :: before.reverse) later false
          (kept ++ text ++ c :: text', count + count')
        | found, later =>
          let (text', count') :=
            substitute r by_ every full n occurrence (found.reverse ++ before.reverse) later true
          (kept ++ text ++ text', count + count')
      if found.isEmpty && afterMatch && kept.isEmpty then step [] occurrence 0
      else if 1 < occurrence then step found (occurrence - 1) 0
      else if every then step (replace by_ found p.groups) 1 1
      else (kept ++ replace by_ found p.groups ++ p.rest, 1)

/-- What the edits know between lines. -/
structure Editing where
  /-- for each edit from one address to another, whether it is under way -/
  active : List Bool
  output : List Char
  line : List Char
  /-- the line is gone -/
  deleted : Bool
  quitting : Bool
  /-- what is written after the line -/
  appended : List Char

def matchesAddress (number : Nat) (isLast : Bool) (line : List Char) : Address → Bool
  | .line n => n == number
  | .last => isLast
  | .regex r => (r.search [] line).isSome

/-- Whether an edit is about a line, and whether it is under way after it. -/
def selects (e : Edit) (active : Bool) (number : Nat) (isLast : Bool) (line : List Char) :
    Bool × Bool :=
  let is (a : Address) : Bool := matchesAddress number isLast line a
  match e.addresses with
  | [] => (true, false)
  | [a] => (is a, false)
  | a :: b :: _ =>
    if active then
      match b with
      | .line n => (true, number < n)
      | b => (true, !is b)
    else if is a then
      match b with
      | .line n => (true, number < n)
      | .last => (true, !isLast)
      | .regex _ => (true, true)
    else (false, false)

/-- Do what an edit says to a line. -/
def act (number : Nat) (s : Editing) : EditAction → Editing
  | .substitute r by_ every print occurrence =>
    let (line, count) :=
      substitute r by_ every s.line (2 * s.line.length + 2) occurrence [] s.line false
    let s := { s with line }
    if print && 0 < count then { s with output := s.output ++ line ++ ['\n'] } else s
  | .translate source target =>
    { s with line := s.line.map fun c =>
        match source.idxOf? c with
        | some i => target.getD i c
        | none => c }
  | .delete => { s with deleted := true }
  | .print => { s with output := s.output ++ s.line ++ ['\n'] }
  | .quit => { s with quitting := true }
  | .number => { s with output := s.output ++ (toString number).toList ++ ['\n'] }
  | .after text => { s with appended := s.appended ++ text ++ ['\n'] }
  | .before text => { s with output := s.output ++ text ++ ['\n'] }
  | .change text => { s with output := s.output ++ text ++ ['\n'], deleted := true }

/-- Do all edits to a line, up to one that deletes it or ends the run. -/
def actAll (number : Nat) (isLast : Bool) : List Edit → List Bool → Editing → Editing
  | [], _, s => s
  | e :: es, active, s =>
    let rest := active.drop 1
    if s.deleted || s.quitting then
      let later := actAll number isLast es rest s
      { later with active := active.headD false :: later.active }
    else
      let (selected, active) := e.selects (active.headD false) number isLast s.line
      let s := if selected != e.inverted then act number s e.action else s
      let later := actAll number isLast es rest { s with active := [] }
      { later with active := active :: later.active }

/-- Edit the lines from a number on. Also gives the lines after the one on which the run ends. -/
def run (silent : Bool) (edits : List Edit) :
    (number : Nat) → (active : List Bool) → List (List Char) → List Char × List (List Char)
  | _, _, [] => ([], [])
  | number, active, line :: lines =>
    let s := actAll number lines.isEmpty edits active ⟨[], [], bare line, false, false, []⟩
    let ending := line.drop (bare line).length
    let text := if silent || s.deleted then [] else s.line ++ ending
    let (later, rest) :=
      if s.quitting then ([], lines) else run silent edits (number + 1) s.active lines
    (s.output ++ text ++ s.appended ++ later, rest)

end Edit

/-- What is said of a script that cannot be read: a text that is not closed, or a letter that stands
    for nothing. -/
def Edit.faultText (script : String) : String :=
  let at_ (n : Nat) (what : String) : String :=
    "-e expression #1, char " ++ toString n ++ ": " ++ what
  match script.toList with
  | c :: _ =>
    if c == 's' || c == 'y' then
      at_ script.length ("unterminated \x60" ++ c.toString ++ "' command")
    else at_ 1 ("unknown command: \x60" ++ c.toString ++ "'")
  | [] => at_ 0 "no previous regular expression"

/-- How many bytes of the input are read at once. -/
def Edit.blockSize : Nat := 4096

/-- Edit lines by a script. -/
def sed : Program :=
  withArguments "nEru" "e" 1 fun inv a =>
    let extended := a.has 'E' || a.has 'r'
    let (scripts, files) :=
      match (a.options.filter (·.1 == 'e')).map (·.2) with
      | [] => (a.operands.take 1, a.operands.drop 1)
      | given => (given, a.operands)
    let script := "\n".intercalate scripts
    if scripts.isEmpty then
      .finish "" "Usage: sed [OPTION]... \x7bscript-only-if-no-other-script\x7d [input-file]...\n"
        inv.input 1
    else
      match Edit.readAll? extended (script.length + 2) script.toList with
      | none =>
        inv.fail (Edit.faultText script) 1
      | some edits =>
        let s := Sources.ofOperands inv files
        let (output, rest) := Edit.run (a.has 'n') edits 1 [] (linesOf s.all.toList)
        let used := inv.input.length - rest.flatten.length
        let unread :=
          if files.isEmpty then inv.input.toList.drop (readAhead Edit.blockSize used)
          else s.unread.toList
        { s.finish (String.ofList output) 2 with unread := String.ofList unread }

end Entail.Command
