import Entail.Toml.Scalar

set_option autoImplicit false

/-! # Reading TOML

A document is a sequence of lines: blank ones, headers, and keys with values; a comment may end each
of them. Every reader takes the characters that are left and gives a result with the characters
after it, or nothing if the text is not well formed. -/

namespace Entail.Toml

/-- The characters that may stand in a comment or a string on one line. -/
def isInline (c : Char) : Bool := c == '\t' || (0x20 ≤ c.toNat && c.toNat != 0x7F)

def isSpace (c : Char) : Bool := c == ' ' || c == '\t'

def skipSpaces (cs : List Char) : List Char := cs.dropWhile isSpace

/-- Skip a comment up to the end of its line. -/
def skipComment : List Char → List Char
  | '#' :: cs => cs.dropWhile isInline
  | cs => cs

/-- The end of a line after spaces and a comment: the characters of the lines after it. -/
def endLine (cs : List Char) : Option (List Char) :=
  match skipComment (skipSpaces cs) with
  | [] => some []
  | '\n' :: cs => some cs
  | '\r' :: '\n' :: cs => some cs
  | _ => none

/-- Skip spaces, comments and line ends, at most `n` of them. -/
def skipLines : Nat → List Char → List Char
  | 0, cs => cs
  | n + 1, cs =>
    match skipComment (skipSpaces cs) with
    | '\n' :: cs => skipLines n cs
    | '\r' :: '\n' :: cs => skipLines n cs
    | cs => cs

/-! ## Strings -/

/-- The character with a code point given in hexadecimal. -/
def codePoint? (digits : List Char) : Option Char := do
  let n ← digits.foldlM (fun n c => (hexDigit? c).map (n * 16 + ·)) 0
  if n.isValidChar then some (Char.ofNat n) else none

/-- The character for a letter after a backslash. -/
def escaped? : Char → Option Char
  | 'b' => some '\x08'
  | 't' => some '\t'
  | 'n' => some '\n'
  | 'f' => some '\x0c'
  | 'r' => some '\r'
  | '"' => some '"'
  | '\\' => some '\\'
  | _ => none

/-- A string in double quotes, after the first quote. -/
def basicString (acc : List Char) : List Char → Option (String × List Char)
  | [] => none
  | '"' :: cs => some (String.ofList acc.reverse, cs)
  | '\\' :: 'u' :: a :: b :: c :: d :: cs =>
    match codePoint? [a, b, c, d] with
    | some x => basicString (x :: acc) cs
    | none => none
  | '\\' :: 'U' :: a :: b :: c :: d :: e :: f :: g :: h :: cs =>
    match codePoint? [a, b, c, d, e, f, g, h] with
    | some x => basicString (x :: acc) cs
    | none => none
  | '\\' :: c :: cs =>
    match escaped? c with
    | some x => basicString (x :: acc) cs
    | none => none
  | c :: cs => if isInline c then basicString (c :: acc) cs else none

/-- A string in single quotes, after the first quote. -/
def literalString (acc : List Char) : List Char → Option (String × List Char)
  | [] => none
  | '\'' :: cs => some (String.ofList acc.reverse, cs)
  | c :: cs => if isInline c then literalString (c :: acc) cs else none

/-- Only spaces stand before the end of the line. -/
def endsLine (cs : List Char) : Bool :=
  match skipSpaces cs with
  | '\n' :: _ => true
  | '\r' :: '\n' :: _ => true
  | _ => false

/-- The quotes that close a string over several lines: up to two more belong to the string. -/
def closing (quote : Char) (acc cs : List Char) : String × List Char :=
  let extra := (cs.takeWhile (· == quote)).take 2
  (String.ofList (acc.reverse ++ extra), cs.drop extra.length)

/-- A string in three double quotes, after these. A backslash at the end of a line skips all white
    space up to the next character; `skipping` tells that this is going on. -/
def basicLines (acc : List Char) (skipping : Bool) : List Char → Option (String × List Char)
  | [] => none
  | '"' :: '"' :: '"' :: cs => some (closing '"' acc cs)
  | '\r' :: '\n' :: cs => basicLines (if skipping then acc else '\n' :: acc) skipping cs
  | '\n' :: cs => basicLines (if skipping then acc else '\n' :: acc) skipping cs
  | '\\' :: 'u' :: a :: b :: c :: d :: cs =>
    match codePoint? [a, b, c, d] with
    | some x => basicLines (x :: acc) false cs
    | none => none
  | '\\' :: 'U' :: a :: b :: c :: d :: e :: f :: g :: h :: cs =>
    match codePoint? [a, b, c, d, e, f, g, h] with
    | some x => basicLines (x :: acc) false cs
    | none => none
  | '\\' :: c :: cs =>
    match escaped? c with
    | some x => basicLines (x :: acc) false cs
    | none => if endsLine (c :: cs) then basicLines acc true (c :: cs) else none
  | c :: cs =>
    if skipping && isSpace c then basicLines acc true cs
    else if isInline c then basicLines (c :: acc) false cs
    else none

/-- A string in three single quotes, after these. -/
def literalLines (acc : List Char) : List Char → Option (String × List Char)
  | [] => none
  | '\'' :: '\'' :: '\'' :: cs => some (closing '\'' acc cs)
  | '\r' :: '\n' :: cs => literalLines ('\n' :: acc) cs
  | '\n' :: cs => literalLines ('\n' :: acc) cs
  | c :: cs => if isInline c then literalLines (c :: acc) cs else none

/-- A line end right after the opening quotes does not belong to the string. -/
def dropLineEnd : List Char → List Char
  | '\n' :: cs => cs
  | '\r' :: '\n' :: cs => cs
  | cs => cs

/-- A string in any of the four forms. -/
def stringValue? : List Char → Option (String × List Char)
  | '"' :: '"' :: '"' :: cs => basicLines [] false (dropLineEnd cs)
  | '"' :: cs => basicString [] cs
  | '\'' :: '\'' :: '\'' :: cs => literalLines [] (dropLineEnd cs)
  | '\'' :: cs => literalString [] cs
  | _ => none

/-! ## Keys -/

/-- The characters of a key without quotes. -/
def isBareKey (c : Char) : Bool := c.isAlphanum || c == '_' || c == '-'

/-- A key between dots. -/
def simpleKey? : List Char → Option (String × List Char)
  | '"' :: cs => basicString [] cs
  | '\'' :: cs => literalString [] cs
  | cs =>
    let key := cs.takeWhile isBareKey
    if key.isEmpty then none else some (String.ofList key, cs.drop key.length)

/-- How many keys a dotted key may have, and how deep brackets and braces may stand in one
    another. -/
def depthLimit : Nat := 127

/-- A dotted key of at most `n` more keys: those before the last dot, and the last one. -/
def dottedKey? : Nat → List Char → Option (List String × String × List Char)
  | 0, _ => none
  | n + 1, cs =>
    match simpleKey? (skipSpaces cs) with
    | none => none
    | some (key, cs) =>
      match skipSpaces cs with
      | '.' :: cs =>
        (dottedKey? n cs).map fun (path, last, cs) => (key :: path, last, cs)
      | cs => some ([], key, cs)

/-! ## Values -/

/-- What is being read: a value, the items of an array, or the entries of a table in braces. -/
inductive Part where
  | value
  | items (done : List Toml)
  | pairs (done : Entries)

/-- Read a part in at most `n` steps, with brackets and braces at most `room` deep. Items and
    entries are read up to the closing bracket, which is still to come; a comma may stand before it
    in an array only. -/
def read (n room : Nat) (part : Part) (cs : List Char) : Option (Toml × List Char) :=
  match n with
  | 0 => none
  | n + 1 =>
    match part with
    | .value =>
      match cs with
      | '[' :: cs => if room == 0 then none else read n (room - 1) (.items []) cs
      | '\x7b' :: cs =>
        if room == 0 then none
        else
          match skipSpaces cs with
          | '\x7d' :: cs => some (.table .braces [], cs)
          | cs => read n (room - 1) (.pairs []) cs
      | '"' :: _ | '\'' :: _ => (stringValue? cs).map fun (s, cs) => (.string s, cs)
      | cs => (tokenValue? (token cs)).map fun v => (v, cs.drop (token cs).length)
    | .items done =>
      match skipLines (cs.length + 1) cs with
      | ']' :: cs => some (.array done, cs)
      | cs =>
        match read n room .value cs with
        | none => none
        | some (v, cs) =>
          match skipLines (cs.length + 1) cs with
          | ']' :: cs => some (.array (done ++ [v]), cs)
          | ',' :: cs => read n room (.items (done ++ [v])) cs
          | _ => none
    | .pairs done =>
      match dottedKey? depthLimit cs with
      | some (path, key, '=' :: cs) =>
        match read n room .value (skipSpaces cs) with
        | none => none
        | some (v, cs) =>
          match addInside key v path done with
          | none => none
          | some done =>
            match skipSpaces cs with
            | '\x7d' :: cs => some (.table .braces done, cs)
            | ',' :: cs => read n room (.pairs done) cs
            | _ => none
      | _ => none

/-! ## Documents -/

/-- What was read so far, and the header whose table is being filled. -/
structure Reading where
  root : Entries
  current : List String

/-- A header, after its opening bracket; two brackets open another table of a shared header. -/
def readHeader (r : Reading) (cs : List Char) : Option (Reading × List Char) :=
  match cs with
  | '[' :: cs =>
    match dottedKey? depthLimit cs with
    | some (path, key, ']' :: ']' :: cs) =>
      (openShared path key r.root).map fun root => (⟨root, path ++ [key]⟩, cs)
    | _ => none
  | cs =>
    match dottedKey? depthLimit cs with
    | some (path, key, ']' :: cs) =>
      (openTable path key r.root).map fun root => (⟨root, path ++ [key]⟩, cs)
    | _ => none

/-- A key with its value. -/
def readPair (r : Reading) (cs : List Char) : Option (Reading × List Char) :=
  match dottedKey? depthLimit cs with
  | some (path, key, '=' :: cs) =>
    match read (cs.length + 1) depthLimit .value (skipSpaces cs) with
    | none => none
    | some (v, cs) =>
      (modify false (fun _ entries => addPair path key v entries) r.current .header
        r.root).map fun root => ({ r with root := root }, cs)
  | _ => none

/-- At most `n` lines with something on them. -/
def readLines : Nat → Reading → List Char → Option Entries
  | 0, _, _ => none
  | n + 1, r, cs =>
    match skipLines (cs.length + 1) cs with
    | [] => some r.root
    | '[' :: cs =>
      match readHeader r cs with
      | none => none
      | some (r, cs) =>
        match endLine cs with
        | none => none
        | some cs => readLines n r cs
    | cs =>
      match readPair r cs with
      | none => none
      | some (r, cs) =>
        match endLine cs with
        | none => none
        | some cs => readLines n r cs

/-- The entries of a document. A byte order mark may stand before it. -/
def document? (text : String) : Option Entries :=
  let cs :=
    match text.toList with
    | '\ufeff' :: cs => cs
    | cs => cs
  readLines (cs.length + 1) ⟨[], []⟩ cs

end Entail.Toml
