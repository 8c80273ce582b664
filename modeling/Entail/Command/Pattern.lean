set_option autoImplicit false

/-! # Patterns

Sets of characters between brackets; the patterns of the shell, in which a star stands for any text;
and regular expressions in their two notations. -/

namespace Entail.Command

/-! ## Sets of characters -/

/-- The characters of a named class, as ranges. -/
def charClass? : String → Option (List (Char × Char))
  | "upper" => some [('A', 'Z')]
  | "lower" => some [('a', 'z')]
  | "alpha" => some [('A', 'Z'), ('a', 'z')]
  | "digit" => some [('0', '9')]
  | "alnum" => some [('0', '9'), ('A', 'Z'), ('a', 'z')]
  | "xdigit" => some [('0', '9'), ('A', 'F'), ('a', 'f')]
  | "space" => some [('\t', '\r'), (' ', ' ')]
  | "blank" => some [('\t', '\t'), (' ', ' ')]
  | "punct" => some [('!', '/'), (':', '@'), ('[', '\x60'), ('\x7b', '~')]
  | "print" => some [(' ', '~')]
  | "graph" => some [('!', '~')]
  | "cntrl" => some [('\x00', '\x1f'), ('\x7f', '\x7f')]
  | _ => none

/-- The characters in some ranges, or all others. -/
structure CharSet where
  negated : Bool
  ranges : List (Char × Char)
  deriving DecidableEq, Inhabited

namespace CharSet

def contains (s : CharSet) (c : Char) : Bool :=
  s.ranges.any (fun (low, high) => low ≤ c && c ≤ high) != s.negated

/-- Read a named class after its opening bracket and colon. -/
def readClass? (cs : List Char) : Option (List (Char × Char) × List Char) :=
  let name := cs.takeWhile Char.isAlpha
  match cs.drop name.length with
  | ':' :: ']' :: rest => (charClass? (String.ofList name)).map fun ranges => (ranges, rest)
  | _ => none

/-- Read the items of a set up to its closing bracket, which counts as an item if it is the first,
    in at most `n` steps. -/
def readItems (n : Nat) (first : Bool) (ranges : List (Char × Char)) (cs : List Char) :
    Option (List (Char × Char) × List Char) :=
  match n with
  | 0 => none
  | n + 1 =>
    match cs with
    | [] => none
    | '[' :: ':' :: rest =>
      match readClass? rest with
      | some (more, rest) => readItems n false (ranges ++ more) rest
      | none => readItems n false (ranges ++ [('[', '[')]) (':' :: rest)
    | c :: rest =>
      if c == ']' && !first then some (ranges, rest)
      else
        match rest with
        | '-' :: d :: later =>
          if d == ']' then readItems n false (ranges ++ [(c, c)]) rest
          else readItems n false (ranges ++ [(c, d)]) later
        | _ => readItems n false (ranges ++ [(c, c)]) rest

/-- Read a set after its opening bracket. -/
def read? (cs : List Char) : Option (CharSet × List Char) :=
  match cs with
  | '!' :: rest | '^' :: rest =>
    (readItems (rest.length + 1) true [] rest).map fun (ranges, rest) => (⟨true, ranges⟩, rest)
  | rest =>
    (readItems (rest.length + 1) true [] rest).map fun (ranges, rest) => (⟨false, ranges⟩, rest)

end CharSet

/-! ## Patterns of the shell -/

/-- A piece of a pattern. -/
inductive Glob where
  | char (c : Char)
  | any
  | star
  | set (s : CharSet)
  deriving DecidableEq, Inhabited

namespace Glob

/-- Read a pattern in at most `n` steps; a backslash takes its meaning from the next character. -/
def read (n : Nat) (cs : List Char) : List Glob :=
  match n with
  | 0 => []
  | n + 1 =>
    match cs with
    | [] => []
    | '\\' :: c :: rest => .char c :: read n rest
    | '*' :: rest => .star :: read n rest
    | '?' :: rest => .any :: read n rest
    | '[' :: rest =>
      match CharSet.read? rest with
      | some (s, rest) => .set s :: read n rest
      | none => .char '[' :: read n rest
    | c :: rest => .char c :: read n rest

/-- A pattern matches a text as a whole. -/
def accepts : List Glob → List Char → Bool
  | [], cs => cs.isEmpty
  | .star :: ps, [] => accepts ps []
  | .star :: ps, c :: cs => accepts ps (c :: cs) || accepts (.star :: ps) cs
  | _ :: _, [] => false
  | .char d :: ps, c :: cs => c == d && accepts ps cs
  | .any :: ps, _ :: cs => accepts ps cs
  | .set s :: ps, c :: cs => s.contains c && accepts ps cs
termination_by ps cs => ps.length + cs.length

/-- The pattern that a text spells. -/
def ofText (s : String) : List Glob := read (s.length + 1) s.toList

/-- What is left of a text without the shortest or longest start that matches a pattern. -/
def trimStart (ps : List Glob) (longest : Bool) (cs : List Char) : List Char :=
  let lengths := List.range (cs.length + 1)
  match (if longest then lengths.reverse else lengths).find? fun n => accepts ps (cs.take n) with
  | some n => cs.drop n
  | none => cs

/-- What is left of a text without the shortest or longest end that matches a pattern. -/
def trimEnd (ps : List Glob) (longest : Bool) (cs : List Char) : List Char :=
  let lengths := List.range (cs.length + 1)
  match (if longest then lengths else lengths.reverse).find? fun n => accepts ps (cs.drop n) with
  | some n => cs.take n
  | none => cs

end Glob

/-! ## Regular expressions -/

/-- A regular expression. -/
inductive Regex where
  | empty
  | set (s : CharSet)
  | start
  | finish
  | seq (a b : Regex)
  | either (a b : Regex)
  /-- so many times, without an end if there is no highest number -/
  | repeated (a : Regex) (least : Nat) (most : Option Nat)
  | group (index : Nat) (a : Regex)
  /-- the text that a group matched -/
  | back (index : Nat)
  deriving Inhabited

namespace Regex

def char (c : Char) : Regex := .set ⟨false, [(c, c)]⟩

def anyChar : Regex := .set ⟨true, []⟩

/-- Where a match goes on: how much of the line is behind, what is left of it, and what the groups
    matched. -/
structure Position where
  offset : Nat
  rest : List Char
  groups : List (Nat × List Char)

namespace Position

/-- Go on behind so many characters, which leave this. -/
def advance (p : Position) (count : Nat) (rest : List Char) : Position :=
  { p with offset := p.offset + count, rest }

end Position

/-- Match an expression in at most `n` steps, as much as can be, and go on with `next`. -/
def run (n : Nat) (r : Regex) (p : Position) (next : Position → Option Position) :
    Option Position :=
  match n with
  | 0 => none
  | n + 1 =>
    match r with
    | .empty => next p
    | .set s =>
      match p.rest with
      | [] => none
      | c :: cs => if s.contains c then next (p.advance 1 cs) else none
    | .start => if p.offset == 0 then next p else none
    | .finish => if p.rest.isEmpty then next p else none
    | .seq a b => run n a p fun p => run n b p next
    | .either a b => (run n a p next).or (run n b p next)
    | .repeated a least most =>
      let once :=
        if most == some 0 then none
        else
          run n a p fun q =>
            if q.offset == p.offset && least == 0 then none
            else run n (.repeated a (least - 1) (most.map (· - 1))) q next
      once.or (if least == 0 then next p else none)
    | .group i a =>
      run n a p fun q =>
        next { q with groups := (i, p.rest.take (q.offset - p.offset)) :: q.groups }
    | .back i =>
      let text := (p.groups.lookup i).getD []
      if text.isPrefixOf p.rest then next (p.advance text.length (p.rest.drop text.length))
      else none

/-- How many steps a match may have. -/
def stepLimit : Nat := 20000

/-- Where a match ends that starts at a place of a line. -/
def matchAt (r : Regex) (offset : Nat) (rest : List Char) : Option Position :=
  run stepLimit r ⟨offset, rest, []⟩ some

/-- The first match in what is left of a line behind the `offset` characters that were skipped, of
    which the last one stands first: what stands before it, what it matches, and where it ends. -/
def searchFrom (r : Regex) (offset : Nat) (skipped : List Char) :
    List Char → Option (List Char × List Char × Position)
  | [] => (r.matchAt offset []).map fun p => (skipped.reverse, [], p)
  | c :: cs =>
    match r.matchAt offset (c :: cs) with
    | some p => some (skipped.reverse, (c :: cs).take (p.offset - offset), p)
    | none => searchFrom r (offset + 1) (c :: skipped) cs

/-- The first match in what is left of a line behind the characters that were skipped. -/
def search (r : Regex) (skipped rest : List Char) :
    Option (List Char × List Char × Position) :=
  searchFrom r skipped.length skipped rest

/-! ### Reading -/

/-- Read the numbers of a repetition up to the closing sign. -/
def readBounds (cs : List Char) : Option ((Nat × Option Nat) × List Char) :=
  let value (ds : List Char) : Nat := ds.foldl (fun n c => n * 10 + (c.toNat - '0'.toNat)) 0
  let low := cs.takeWhile Char.isDigit
  match cs.drop low.length with
  | ',' :: rest =>
    let high := rest.takeWhile Char.isDigit
    some ((value low, if high.isEmpty then none else some (value high)), rest.drop high.length)
  | rest => if low.isEmpty then none else some ((value low, some (value low)), rest)

/-- The sign at the start of an expression, in one notation for both: in the basic one a sign has
    its meaning with a backslash, in the extended one without. -/
def sign? (extended : Bool) : List Char → Option (Char × List Char)
  | '\\' :: c :: cs =>
    if !extended && ['(', ')', '\x7b', '\x7d', '|', '+', '?'].contains c then some (c, cs) else none
  | c :: cs =>
    if extended && ['(', ')', '\x7b', '\x7d', '|', '+', '?'].contains c then some (c, cs) else none
  | [] => none

/-- Read the repetitions behind an expression, in at most `n` steps. -/
def readRepeats (extended : Bool) (n : Nat) (r : Regex) (cs : List Char) :
    Option (Regex × List Char) :=
  match n with
  | 0 => none
  | n + 1 =>
    match cs with
    | '*' :: rest => readRepeats extended n (.repeated r 0 none) rest
    | _ =>
      match sign? extended cs with
      | some ('+', rest) => readRepeats extended n (.repeated r 1 none) rest
      | some ('?', rest) => readRepeats extended n (.repeated r 0 (some 1)) rest
      | some ('\x7b', rest) =>
        match readBounds rest with
        | some ((least, most), rest) =>
          match sign? extended rest with
          | some ('\x7d', rest) => readRepeats extended n (.repeated r least most) rest
          | _ => none
        | none => none
      | _ => some (r, cs)

/-- What is being read: alternatives, or a sequence of which a part is done. -/
inductive Part where
  | alternatives
  | sequence (done : Regex) (first : Bool)

/-- Read a part in at most `n` steps; `groups` are the groups that were opened before. -/
def readPart (extended : Bool) (n : Nat) (part : Part) (groups : Nat) (cs : List Char) :
    Option (Regex × Nat × List Char) :=
  match n with
  | 0 => none
  | n + 1 =>
    match part with
    | .alternatives =>
      match readPart extended n (.sequence .empty true) groups cs with
      | none => none
      | some (a, groups, rest) =>
        match sign? extended rest with
        | some ('|', rest) =>
          (readPart extended n .alternatives groups rest).map fun (b, groups, rest) =>
            (.either a b, groups, rest)
        | _ => some (a, groups, rest)
    | .sequence done first =>
      let go (r : Regex) (groups : Nat) (rest : List Char) :=
        match readRepeats extended (rest.length + 1) r rest with
        | none => none
        | some (r, rest) => readPart extended n (.sequence (.seq done r) false) groups rest
      match sign? extended cs with
      | some ('(', rest) =>
        match readPart extended n .alternatives (groups + 1) rest with
        | none => none
        | some (r, later, rest) =>
          match sign? extended rest with
          | some (')', rest) => go (.group (groups + 1) r) later rest
          | _ => none
      | some (')', _) | some ('|', _) => some (done, groups, cs)
      | _ =>
        match cs with
        | [] => some (done, groups, [])
        | '\\' :: c :: rest =>
          if c.isDigit && c != '0' then go (.back (c.toNat - '0'.toNat)) groups rest
          else if c == 'n' then go (char '\n') groups rest
          else if c == 't' then go (char '\t') groups rest
          else go (char c) groups rest
        | '.' :: rest => go anyChar groups rest
        | '[' :: rest =>
          match CharSet.read? rest with
          | some (s, rest) => go (.set s) groups rest
          | none => none
        | '^' :: rest =>
          if extended || first then
            readPart extended n (.sequence (.seq done .start) true) groups rest
          else go (char '^') groups rest
        | '$' :: rest =>
          let last := rest.isEmpty || (sign? extended rest).any fun s => s.1 == ')' || s.1 == '|'
          if extended || last then
            readPart extended n (.sequence (.seq done .finish) false) groups rest
          else go (char '$') groups rest
        | c :: rest => go (char c) groups rest

/-- Read an expression. -/
def read? (extended : Bool) (s : String) : Option Regex :=
  match readPart extended (4 * s.length + 4) .alternatives 0 s.toList with
  | some (r, _, []) => some r
  | _ => none

end Regex

end Entail.Command
