import Entail.Command.Effect
import Entail.Command.Pattern

set_option autoImplicit false

/-! # Filters

Programs that read the files they are given, or else their input, and write what they make of the
text. -/

namespace Entail.Command

-- sums start from the core library's zero, whatever else is imported
attribute [local instance (high)] Zero.ofOfNat0

/-! ## Sources and lines -/

/-- What was read from some files, in order, with the messages about those that cannot be read and
    what is left of the input. -/
structure Sources where
  texts : List (String × String)
  complaints : List String
  unread : String

namespace Sources

def isInput (file : String) : Bool := file == "-" || file == "/dev/stdin"

/-- Read files; a dash is the input, of which a second reader gets nothing. -/
def read (inv : Invocation) : List String → (input : String) → Sources
  | [], input => ⟨[], [], input⟩
  | file :: files, input =>
    if isInput file then
      let later := read inv files ""
      { later with texts := (file, input) :: later.texts }
    else
      let later := read inv files input
      match inv.files.read file with
      | .ok text => { later with texts := (file, text) :: later.texts }
      | .error e =>
        let complaint := inv.name ++ ": " ++ file ++ ": " ++ e.reason
        { later with complaints := complaint :: later.complaints }

/-- The operands as files, or the input if there are none. -/
def ofOperands (inv : Invocation) (operands : List String) : Sources :=
  read inv (if operands.isEmpty then ["-"] else operands) inv.input

def all (s : Sources) : String := String.join (s.texts.map (·.2))

/-- Write an output, then the complaints; there is an exit code for these. -/
def finish (s : Sources) (output : String) (complaintCode : Nat) : Effect :=
  .finish output (String.join (s.complaints.map (· ++ "\n"))) s.unread
    (if s.complaints.isEmpty then 0 else complaintCode)

end Sources

/-- The lines of a text, each with the line feed that ends it. -/
def linesOf (cs : List Char) : List (List Char) :=
  cs.foldr (fun c lines =>
    match lines with
    | line :: lines => if c == '\n' then [c] :: line :: lines else (c :: line) :: lines
    | [] => [[c]]) []

/-- A line without its line feed. -/
def bare (line : List Char) : List Char :=
  if line.getLast? == some '\n' then line.dropLast else line

def bareLines (s : String) : List (List Char) := (linesOf s.toList).map bare

/-- Lines with a line feed after each. -/
def unlines (lines : List (List Char)) : String :=
  String.ofList (lines.flatMap (· ++ ['\n']))

/-- A number in a field of some width. -/
def padLeft (width : Nat) (n : Nat) : String :=
  let digits := toString n
  "".pushn ' ' (width - digits.length) ++ digits

/-! ## Copying -/

/-- A byte as it is shown by a program that shows all of them. -/
def visibleByte (c : Char) : List Char :=
  let shown (n : Nat) : List Char :=
    if n < 32 then ['^', Char.ofNat (n + 64)] else if n == 127 then ['^', '?'] else [Char.ofNat n]
  if c == '\n' || c == '\t' then [c]
  else if c.toNat < 128 then shown c.toNat
  else 'M' :: '-' :: shown (c.toNat - 128)

/-- Number lines from one on; blank ones only if all are numbered. -/
def numberLines (blankToo : Bool) : (next : Nat) → List (List Char) → List (List Char)
  | _, [] => []
  | next, line :: lines =>
    if !blankToo && line == ['\n'] then line :: numberLines blankToo next lines
    else ((padLeft 6 next ++ "\t").toList ++ line) :: numberLines blankToo (next + 1) lines

/-- Keep one of several blank lines in a row. -/
def squeezeBlank : (afterBlank : Bool) → List (List Char) → List (List Char)
  | _, [] => []
  | afterBlank, line :: lines =>
    if line == ['\n'] then
      if afterBlank then squeezeBlank true lines else line :: squeezeBlank true lines
    else line :: squeezeBlank false lines

/-- Copy files. -/
def cat : Program :=
  withArguments "AbEensTtuv" "" 1 fun inv a =>
    let s := Sources.ofOperands inv a.operands
    if a.options.isEmpty then s.finish s.all 1 else
    let lines := linesOf s.all.toList
    let lines := if a.has 's' then squeezeBlank false lines else lines
    let all := a.has 'A'
    let lines :=
      if all || a.has 'v' || a.has 'e' || a.has 't' then lines.map (·.flatMap visibleByte)
      else lines
    let lines :=
      if all || a.has 'T' || a.has 't' then
        lines.map (·.flatMap fun c => if c == '\t' then ['^', 'I'] else [c])
      else lines
    let lines :=
      if all || a.has 'E' || a.has 'e' then
        lines.map (·.flatMap fun c => if c == '\n' then ['$', '\n'] else [c])
      else lines
    let lines :=
      if a.has 'b' then numberLines false 1 lines
      else if a.has 'n' then numberLines true 1 lines
      else lines
    s.finish (String.ofList lines.flatten) 1

/-- Write lines with their numbers; blank ones have none. -/
def nl : Program :=
  withArguments "" "b" 1 fun inv a =>
    let s := Sources.ofOperands inv a.operands
    let all := a.value? 'b' == some "a"
    let numbered := numberLines all 1 (linesOf s.all.toList)
    let lines := numbered.map fun line => if line == ['\n'] then "       \n".toList else line
    let ended := lines.map fun line => bare line ++ ['\n']
    s.finish (String.ofList ended.flatten) 1

/-- Copy the input to the output and to files. -/
def tee : Program :=
  withArguments "ai" "" 1 fun inv a =>
    let (files, complaints) := a.operands.foldl (fun (files, complaints) file =>
      match files.write file (a.has 'a') inv.input with
      | .ok files => (files, complaints)
      | .error e => (files, complaints ++ inv.name ++ ": " ++ file ++ ": " ++ e.reason ++ "\n"))
      (inv.files, "")
    { Effect.finish inv.input complaints "" (if complaints.isEmpty then 0 else 1) with
      changed := some files }

/-- Write the lines from the last to the first. -/
def tac : Program :=
  withArguments "" "" 1 fun inv a =>
    let s := Sources.ofOperands inv a.operands
    s.finish (String.ofList (linesOf s.all.toList).reverse.flatten) 1

/-- Write every line backwards. -/
def rev : Program :=
  withArguments "" "" 1 fun inv a =>
    let s := Sources.ofOperands inv a.operands
    let lines := (linesOf s.all.toList).map fun line =>
      (bare line).reverse ++ line.drop (bare line).length
    s.finish (String.ofList lines.flatten) 1

/-! ## Starts and ends -/

/-- A number of lines or bytes, and the sign in front of it. -/
def signedCount? (s : String) : Option (Option Char × Nat) :=
  match s.toList with
  | '-' :: cs => (decimal? (String.ofList cs)).map (some '-', ·)
  | '+' :: cs => (decimal? (String.ofList cs)).map (some '+', ·)
  | _ => (decimal? s).map (none, ·)

/-- Write what `select` takes of every text, under its name if there are several. -/
def selectEach (select : String → String) (s : Sources) (quiet verbose : Bool) : String :=
  let named := verbose || (1 < s.texts.length && !quiet)
  let shown (first : Bool) (text : String × String) : String :=
    if named then
      (if first then "" else "\n") ++ "==> " ++
        (if text.1 == "-" then "standard input" else text.1) ++ " <==\n" ++ select text.2
    else select text.2
  match s.texts with
  | [] => ""
  | text :: texts => String.join (shown true text :: texts.map (shown false))

/-- How much of a text has been read once so much of it is used, if it is read in blocks. -/
def readAhead (block used : Nat) : Nat := (used + block - 1) / block * block

/-- How many bytes are read at once where lines are looked for. -/
def blockSize : Nat := 8192

/-- Write the first lines or bytes; after a minus, all but the last. Of the input only that many
    bytes are read, or blocks up to the end of the last line. -/
def head : Program :=
  withArguments "qv" "nc" 1 fun inv a =>
    let bytes := (a.value? 'c').isSome
    let count := if bytes then a.value? 'c' else a.value? 'n'
    match signedCount? (count.getD "10") with
    | none =>
      inv.fail ("invalid number of " ++ (if bytes then "bytes" else "lines") ++ ": '" ++
        count.getD "" ++ "'") 1
    | some (sign, n) =>
      let s := Sources.ofOperands inv a.operands
      let select (text : String) : String :=
        if bytes then
          String.ofList
            (text.toList.take (if sign == some '-' then text.length - n else n))
        else
          let lines := linesOf text.toList
          String.ofList
            (lines.take (if sign == some '-' then lines.length - n else n)).flatten
      let e := s.finish (selectEach select s (a.has 'q') (a.has 'v')) 1
      if sign == some '-' then e
      else
        match s.texts.find? fun text => Sources.isInput text.1 with
        | some (_, text) =>
          let used := (select text).length
          let used := if bytes then used else readAhead blockSize used
          { e with unread := String.ofList (text.toList.drop used) }
        | none => e

/-- Write the last lines or bytes; after a plus, all from a place on. -/
def tail : Program := fun inv =>
  let args :=
    match inv.args with
    | first :: rest =>
      if first.startsWith "+" && (decimal? (String.ofList (first.toList.drop 1))).isSome then
        "-n" :: first :: rest
      else inv.args
    | [] => []
  withArguments "qvfF" "nc" 1 (fun inv a =>
    let bytes := (a.value? 'c').isSome
    let count := if bytes then a.value? 'c' else a.value? 'n'
    match signedCount? (count.getD "10") with
    | none =>
      inv.fail ("invalid number of " ++ (if bytes then "bytes" else "lines") ++ ": '" ++
        count.getD "" ++ "'") 1
    | some (sign, n) =>
      let s := Sources.ofOperands inv a.operands
      let select (text : String) : String :=
        if bytes then
          String.ofList
            (text.toList.drop (if sign == some '+' then n - 1 else text.length - n))
        else
          let lines := linesOf text.toList
          String.ofList
            (lines.drop (if sign == some '+' then n - 1 else lines.length - n)).flatten
      let e := s.finish (selectEach select s (a.has 'q') (a.has 'v')) 1
      if (a.has 'f' || a.has 'F') && s.texts.any (fun text => !Sources.isInput text.1) then
        { e with duration := none }
      else e) { inv with args }

/-! ## Counting -/

/-- The number of words between blanks. A word begins with a printable byte. -/
def countWords (cs : List Char) : Nat :=
  (cs.foldl (fun (inside, n) c =>
    if c == ' ' || ('\t' ≤ c && c ≤ '\r') then (false, n)
    else if inside || c < '!' || '~' < c then (inside, n)
    else (true, n + 1)) (false, 0)).2

/-- The length of the longest line. -/
def longestLine (s : String) : Nat := ((bareLines s).map List.length).foldl max 0

/-- Count lines, words, bytes, or the bytes of the longest line. The counts of several files are
    added up at the end. -/
def wc : Program :=
  withArguments "lwcmL" "" 1 fun inv a =>
    let s := Sources.ofOperands inv a.operands
    let chosen := if a.options.isEmpty then ['l', 'w', 'c'] else a.options.map (·.1)
    let kinds := ['l', 'w', 'm', 'c', 'L'].filter chosen.contains
    let count (text : String) : Char → Nat
      | 'l' => text.toList.count '\n'
      | 'w' => countWords text.toList
      | 'L' => longestLine text
      | _ => text.length
    let rows := s.texts.map fun (name, text) => (kinds.map (count text), name)
    let total := kinds.map fun k =>
      let counts := s.texts.map fun text => count text.2 k
      if k == 'L' then counts.foldl max 0 else counts.sum
    let rows := if 1 < a.operands.length then rows ++ [(total, "total")] else rows
    let width :=
      if rows.length ≤ 1 && kinds.length == 1 then 1
      else if s.texts.any (fun text => Sources.isInput text.1) then 7
      else (toString (s.texts.map (·.2.length)).sum).length
    let row (counts : List Nat) (name : String) : String :=
      " ".intercalate (counts.map (padLeft width)) ++
        (if a.operands.isEmpty then "" else " " ++ name) ++ "\n"
    s.finish (String.join (rows.map fun (counts, name) => row counts name)) 1

/-! ## Translating -/

/-- A byte of a set of `tr`: itself or, after a backslash, the one that is meant. -/
def readSetChar : List Char → Option (Char × List Char)
  | [] => none
  | '\\' :: c :: cs =>
    if '0' ≤ c && c ≤ '7' then
      let digits := ((c :: cs).takeWhile fun d => '0' ≤ d && d ≤ '7').take 3
      let n := digits.foldl (fun n d => n * 8 + (d.toNat - '0'.toNat)) 0
      some (Char.ofNat (n % 256), (c :: cs).drop digits.length)
    else
      match c with
      | 'a' => some ('\x07', cs)
      | 'b' => some ('\x08', cs)
      | 'f' => some ('\x0c', cs)
      | 'n' => some ('\n', cs)
      | 'r' => some ('\r', cs)
      | 't' => some ('\t', cs)
      | 'v' => some ('\x0b', cs)
      | c => some (c, cs)
  | c :: cs => some (c, cs)

/-- The bytes from one to another. -/
def byteRange (low high : Char) : List Char :=
  (List.range (high.toNat + 1 - low.toNat)).map fun i => Char.ofNat (low.toNat + i)

/-- The bytes of a set, in order, in at most `n` steps; a message if a range runs backwards. -/
def readSet (n : Nat) (cs : List Char) : Except String (List Char) :=
  match n with
  | 0 => .ok []
  | n + 1 =>
    let single (cs : List Char) : Except String (List Char) :=
      match readSetChar cs with
      | none => .ok []
      | some (low, '-' :: d :: rest) =>
        match readSetChar (d :: rest) with
        | some (high, rest) =>
          if high < low then
            .error ("range-endpoints of '" ++ low.toString ++ "-" ++ high.toString ++
              "' are in reverse collating sequence order")
          else (readSet n rest).map (byteRange low high ++ ·)
        | none => .ok [low]
      | some (c, rest) => (readSet n rest).map (c :: ·)
    match cs with
    | '[' :: ':' :: rest =>
      match CharSet.readClass? rest with
      | some (ranges, rest) =>
        (readSet n rest).map (ranges.flatMap (fun (low, high) => byteRange low high) ++ ·)
      | none => single cs
    | cs => single cs

/-- Replace, drop or squeeze bytes one after the other. -/
def translate (replace : Char → Char) (drop squeeze : Char → Bool) :
    (last : Option Char) → List Char → List Char
  | _, [] => []
  | last, c :: cs =>
    if drop c then translate replace drop squeeze last cs
    else
      let d := replace c
      if squeeze d && last == some d then translate replace drop squeeze last cs
      else d :: translate replace drop squeeze (some d) cs

/-- The byte in the second list at the place of one in the first; the last one goes on for ever. -/
def mapped (source target : List Char) (c : Char) : Char :=
  match source.reverse.idxOf? c with
  | some i => target.getD (source.length - 1 - i) (target.getLastD c)
  | none => c

/-- Translate or delete bytes. -/
def tr : Program :=
  withArguments "cCdst" "" 1 fun inv a =>
    let complement := a.has 'c' || a.has 'C'
    let deletes := a.has 'd'
    let squeezes := a.has 's'
    let read (s : String) : Except String (List Char) := readSet (s.length + 1) s.toList
    let source (s : String) : Except String (List Char) :=
      (read s).map fun set =>
        if complement then (byteRange '\x00' '\xff').filter fun c => !set.contains c else set
    let write (replace : Char → Char) (drop squeeze : Char → Bool) : Effect :=
      .print (String.ofList (translate replace drop squeeze none inv.input.toList))
    match a.operands with
    | [] => inv.misuse "missing operand" 1
    | [one] =>
      if deletes == squeezes then
        inv.misuse ("missing operand after '" ++ one ++ "'\n" ++
          (if deletes then "Two strings must be given when both deleting and squeezing repeats."
          else "Two strings must be given when translating.")) 1
      else
        match source one with
        | .error message => inv.fail message 1
        | .ok set =>
          if deletes then write id set.contains (fun _ => false)
          else write id (fun _ => false) set.contains
    | [one, two] =>
      if deletes && !squeezes then
        inv.misuse ("extra operand '" ++ two ++
          "'\nOnly one string may be given when deleting without squeezing repeats.") 1
      else
        match source one, read two with
        | .error message, _ | _, .error message => inv.fail message 1
        | .ok set, .ok target =>
          if deletes then write id set.contains target.contains
          else if target.isEmpty then
            inv.fail "when not truncating set1, string2 must be non-empty" 1
          else
            write (mapped set target) (fun _ => false)
              (fun c => squeezes && target.contains c)
    | _ :: _ :: extra :: _ => inv.misuse ("extra operand '" ++ extra ++ "'") 1

/-! ## Ordering -/

/-- The number at the start of a line, in thousandths. -/
def leadingNumber (cs : List Char) : Int :=
  let cs := cs.dropWhile fun c => c == ' ' || c == '\t'
  let (negative, cs) :=
    match cs with
    | '-' :: cs => (true, cs)
    | cs => (false, cs)
  let whole := cs.takeWhile Char.isDigit
  let fraction :=
    match cs.drop whole.length with
    | '.' :: cs => cs.takeWhile Char.isDigit
    | _ => []
  let digits := whole ++ (fraction ++ ['0', '0', '0']).take 3
  let n : Nat := digits.foldl (fun n c => n * 10 + (c.toNat - '0'.toNat)) 0
  if negative then -(n : Int) else n

/-- The fields of a line between separators; without one, each field takes the blanks before it. -/
def fieldsOf (separator : Option Char) (line : List Char) : List (List Char) :=
  let blank (c : Char) : Bool := c == ' ' || c == '\t'
  match line with
  | [] => [[]]
  | c :: cs =>
    match fieldsOf separator cs with
    | [] => [[c]]
    | field :: fields =>
      match separator with
      | some s => if c == s then [] :: field :: fields else (c :: field) :: fields
      | none =>
        let next := cs.headD 'x'
        if !blank c && blank next && !cs.isEmpty then [c] :: field :: fields
        else (c :: field) :: fields

/-- The text from one field to another, by their numbers. -/
def keyOf (separator : Option Char) (first : Nat) (last : Option Nat) (line : List Char) :
    List Char :=
  let fields := (fieldsOf separator line).drop (first - 1)
  let fields :=
    match last with
    | some n => fields.take (n + 1 - first)
    | none => fields
  List.intercalate separator.toList fields

/-- The field numbers and the letters of a sort key. -/
def readKey (s : String) : Option (Nat × Option Nat × List Char) :=
  let parse (cs : List Char) : Option (Nat × List Char) :=
    let digits := cs.takeWhile Char.isDigit
    (decimal? (String.ofList digits)).map fun n =>
      (n, (cs.drop digits.length).filter Char.isAlpha)
  match s.toList.splitOn ',' with
  | [first] => (parse first).map fun (n, letters) => (n, none, letters)
  | [first, last] => do
    let (n, letters) ← parse first
    let (m, more) ← parse last
    return (n, some m, letters ++ more)
  | _ => none

/-- Which of two lines comes first by a key: as numbers, without case, or by bytes. -/
def compareKeys (numeric folded : Bool) (a b : List Char) : Ordering :=
  if numeric then compare (leadingNumber a) (leadingNumber b)
  else
    let (a, b) := if folded then (a.map Char.toUpper, b.map Char.toUpper) else (a, b)
    compareOfLessAndEq (String.ofList a) (String.ofList b)

/-- Keep the first of equal lines in a row. -/
def dropRepeats (same : List Char → List Char → Bool) : List (List Char) → List (List Char)
  | [] => []
  | [line] => [line]
  | a :: b :: lines =>
    if same a b then dropRepeats same (a :: lines) else a :: dropRepeats same (b :: lines)
termination_by lines => lines.length

/-- Sort the lines, by a key if there is one and then by all of their bytes. -/
def sort : Program :=
  withArguments "rnufsb" "kto" 2 fun inv a =>
    let s := Sources.ofOperands inv a.operands
    let separator := (a.value? 't').bind fun t => t.toList.head?
    let key := (a.value? 'k').bind readKey
    let letters := a.options.map (·.1) ++ ((key.map fun k => k.2.2).getD [])
    let numeric := letters.contains 'n'
    let folded := letters.contains 'f'
    let reversed := letters.contains 'r'
    let part (line : List Char) : List Char :=
      match key with
      | some (first, last, _) => keyOf separator first last line
      | none => line
    let byKey (a b : List Char) : Ordering := compareKeys numeric folded (part a) (part b)
    let plain (a b : List Char) : Ordering :=
      compareOfLessAndEq (String.ofList a) (String.ofList b)
    let order (x y : List Char) : Ordering :=
      let o := (byKey x y).then (if a.has 's' || a.has 'u' then .eq else plain x y)
      if reversed then o.swap else o
    let lines := (bareLines s.all).mergeSort fun x y => (order x y).isLE
    let lines := if a.has 'u' then dropRepeats (fun x y => byKey x y == .eq) lines else lines
    s.finish (unlines lines) 2

/-- Lines that stand together in a row as equal, with their number. -/
def countRepeats (same : List Char → List Char → Bool) :
    List (List Char) → List (Nat × List Char)
  | [] => []
  | line :: lines =>
    match countRepeats same lines with
    | [] => [(1, line)]
    | (n, next) :: groups =>
      if same line next then (n + 1, line) :: groups else (1, line) :: (n, next) :: groups

/-- Write one of equal lines in a row. -/
def uniq : Program :=
  withArguments "cdui" "" 1 fun inv a =>
    let s := Sources.ofOperands inv (a.operands.take 1)
    let same (x y : List Char) : Bool :=
      if a.has 'i' then x.map Char.toLower == y.map Char.toLower else x == y
    let groups := countRepeats same (bareLines s.all)
    let groups := if a.has 'd' then groups.filter (1 < ·.1) else groups
    let groups := if a.has 'u' then groups.filter (·.1 == 1) else groups
    let shown (group : Nat × List Char) : List Char :=
      if a.has 'c' then (padLeft 7 group.1 ++ " ").toList ++ group.2 else group.2
    s.finish (unlines (groups.map shown)) 1

/-! ## Cutting -/

/-- The ranges of numbers in a list such as `1,3-5,7-`. -/
def readRanges (s : String) : Option (List (Nat × Option Nat)) :=
  (s.splitOn ",").mapM fun item =>
    match item.splitOn "-" with
    | [one] => (decimal? one).map fun n => (n, some n)
    | ["", high] => (decimal? high).map fun n => (1, some n)
    | [low, ""] => (decimal? low).map fun n => (n, none)
    | [low, high] => do
      let n ← decimal? low
      return (n, some (← decimal? high))
    | _ => none

def inRanges (ranges : List (Nat × Option Nat)) (n : Nat) : Bool :=
  ranges.any fun (low, high) => low ≤ n && high.all (n ≤ ·)

/-- The items at the places in the ranges, from one on. -/
def pick {α : Type} (ranges : List (Nat × Option Nat)) (items : List α) : List α :=
  (items.zipIdx.filter fun (_, i) => inRanges ranges (i + 1)).map (·.1)

/-- Write parts of every line: bytes, or fields between separators. -/
def cut : Program :=
  withArguments "s" "bcdf" 1 fun inv a =>
    let bytes := (a.value? 'b').or (a.value? 'c')
    match bytes.or (a.value? 'f') with
    | none => inv.misuse "you must specify a list of bytes, characters, or fields" 1
    | some list =>
      match readRanges list with
      | none => inv.misuse ("invalid field value '" ++ list ++ "'") 1
      | some ranges =>
        let s := Sources.ofOperands inv a.operands
        let separator := (a.value? 'd').getD "\t" |>.toList.headD '\t'
        let cutLine (line : List Char) : Option (List Char) :=
          if bytes.isSome then some (pick ranges line)
          else if !line.contains separator then if a.has 's' then none else some line
          else some (List.intercalate [separator] (pick ranges (fieldsOf (some separator) line)))
        s.finish (unlines ((bareLines s.all).filterMap cutLine)) 1

end Entail.Command
