set_option autoImplicit false

/-! # Escapes and formats

Backslash escapes, and formats whose directives take arguments. There are two dialects: the one of
the shell itself and the one of programs, which knows more escapes and quotes what it complains
about. -/

namespace Entail.Command

-- powers are the core library's, whatever else is imported
attribute [local instance (high)] instPowNat

/-- Who writes a text. -/
inductive Dialect where
  | shell
  | program
  deriving DecidableEq, Inhabited

/-! ## Escapes -/

def isOctal (c : Char) : Bool := '0' ≤ c && c ≤ '7'

def digitValue (c : Char) : Nat :=
  if c.isDigit then c.toNat - '0'.toNat else c.toLower.toNat - 'a'.toNat + 10

def isHexDigit (c : Char) : Bool :=
  c.isDigit || ('a' ≤ c && c ≤ 'f') || ('A' ≤ c && c ≤ 'F')

/-- The number that digits in a base make. -/
def numeral (base : Nat) (digits : List Char) : Nat :=
  digits.foldl (fun n c => n * base + digitValue c) 0

/-- The byte with a number, of which only the last eight bits count. -/
def byte (n : Nat) : Char := Char.ofNat (n % 256)

/-- The byte for a letter after a backslash in both dialects. -/
def letterEscape? : Char → Option Char
  | 'a' => some '\x07'
  | 'b' => some '\x08'
  | 'f' => some '\x0c'
  | 'n' => some '\n'
  | 'r' => some '\r'
  | 't' => some '\t'
  | 'v' => some '\x0b'
  | '\\' => some '\\'
  | _ => none

/-- Read what follows a backslash: the byte that it stands for, or nothing if it ends all output,
    and what comes after it. In an argument an octal number may have a zero in front of its three
    digits; a backslash that escapes nothing stands for itself. -/
def readEscape (dialect : Dialect) (argument : Bool) : List Char → Option Char × List Char
  | [] => (some '\\', [])
  | c :: cs =>
    if isOctal c then
      let digits := if argument && c == '0' && (cs.headD ' ' |> isOctal) then cs else c :: cs
      let number := (digits.takeWhile isOctal).take 3
      (some (byte (numeral 8 number)), digits.drop number.length)
    else
      match letterEscape? c with
      | some x => (some x, cs)
      | none =>
        if c == 'c' && (argument || dialect == .program) then (none, [])
        else if dialect == .shell then (some '\\', c :: cs)
        else if c == 'e' then (some '\x1b', cs)
        else if c == '"' && !argument then (some '"', cs)
        else if c == 'x' && isHexDigit (cs.headD ' ') then
          let number := (cs.takeWhile isHexDigit).take 2
          (some (byte (numeral 16 number)), cs.drop number.length)
        else (some '\\', c :: cs)

/-- Replace the escapes in an argument, in at most `n` steps, and tell whether they end all
    output. -/
def unescape (dialect : Dialect) : (n : Nat) → List Char → List Char × Bool
  | 0, _ => ([], false)
  | _, [] => ([], false)
  | n + 1, '\\' :: cs =>
    match readEscape dialect true cs with
    | (none, _) => ([], true)
    | (some x, rest) =>
      let (text, ended) := unescape dialect n rest
      (x :: text, ended)
  | n + 1, c :: cs =>
    let (text, ended) := unescape dialect n cs
    (c :: text, ended)

/-! ## Directives -/

/-- A width or precision: a number, or the next argument. -/
inductive Amount where
  | given (n : Nat)
  | argument
  deriving DecidableEq, Inhabited

/-- How an argument is written. -/
structure Directive where
  flags : List Char
  width : Option Amount
  precision : Option Amount
  conversion : Char
  deriving DecidableEq, Inhabited

def isFormatFlag (c : Char) : Bool :=
  c == '-' || c == '+' || c == ' ' || c == '0' || c == '#'

/-- Read a width or a precision. -/
def readAmount : List Char → Option Amount × List Char
  | '*' :: cs => (some .argument, cs)
  | cs =>
    let digits := cs.takeWhile Char.isDigit
    (if digits.isEmpty then none else some (.given (numeral 10 digits)), cs.drop digits.length)

/-- Read what follows a percent sign, up to the letter of the conversion. -/
def readDirective? (cs : List Char) : Option (Directive × List Char) :=
  let flags := cs.takeWhile isFormatFlag
  let (width, cs) := readAmount (cs.drop flags.length)
  let (precision, cs) :=
    match cs with
    | '.' :: cs =>
      let (amount, cs) := readAmount cs
      (some (amount.getD (.given 0)), cs)
    | cs => (none, cs)
  match cs.dropWhile (fun c => c == 'l' || c == 'h' || c == 'j' || c == 'z') with
  | [] => none
  | c :: rest => some (⟨flags, width, precision, c⟩, rest)

/-! ## Numbers -/

/-- Why an argument is not the number that it should be. -/
inductive NumberFault where
  | notNumeric
  /-- a number, but not up to its end -/
  | trailing
  deriving DecidableEq, Inhabited

/-- The digits at the start of a text in the base that its first characters tell. -/
def readUnsigned (cs : List Char) : Option (Nat × List Char) :=
  let digits (base : Nat) (isDigit : Char → Bool) (cs : List Char) :=
    let number := cs.takeWhile isDigit
    if number.isEmpty then none else some (numeral base number, cs.drop number.length)
  match cs with
  | '0' :: x :: c :: rest =>
    if (x == 'x' || x == 'X') && isHexDigit c then digits 16 isHexDigit (c :: rest)
    else digits 8 isOctal cs
  | '0' :: _ => digits 8 isOctal cs
  | _ => digits 10 Char.isDigit cs

/-- An argument as an integer. A quote in front of a character gives its number. -/
def integerArgument (s : String) : Int × Option NumberFault :=
  match s.toList.dropWhile (fun c => c == ' ' || c == '\t' || c == '\n') with
  | [] => (0, if s.isEmpty then none else some .notNumeric)
  | '\'' :: c :: _ | '"' :: c :: _ => (c.toNat, none)
  | cs =>
    let (negative, body) :=
      match cs with
      | '-' :: cs => (true, cs)
      | '+' :: cs => (false, cs)
      | cs => (false, cs)
    match readUnsigned body with
    | none => (0, some .notNumeric)
    | some (n, rest) =>
      (if negative then -(n : Int) else n, if rest.isEmpty then none else some .trailing)

/-- A number as an integer and a power of ten, from a decimal with a fraction and an exponent. -/
def decimalArgument (s : String) : (Int × Nat) × Option NumberFault :=
  let (negative, cs) :=
    match s.toList with
    | '-' :: cs => (true, cs)
    | '+' :: cs => (false, cs)
    | cs => (false, cs)
  let whole := cs.takeWhile Char.isDigit
  let (fraction, rest) :=
    match cs.drop whole.length with
    | '.' :: cs => (cs.takeWhile Char.isDigit, cs.dropWhile Char.isDigit)
    | cs => ([], cs)
  let n : Nat := numeral 10 (whole ++ fraction)
  if whole.isEmpty && fraction.isEmpty then
    ((0, 0), if s.isEmpty then none else some .notNumeric)
  else
    ((if negative then -(n : Int) else n, fraction.length),
      if rest.isEmpty then none else some .trailing)

/-- Round `n / 10 ^ places` to fewer or more places; a half goes to the even neighbour. -/
def roundPlaces (n places wanted : Nat) : Nat :=
  if places ≤ wanted then n * 10 ^ (wanted - places)
  else
    let unit := 10 ^ (places - wanted)
    let below := n / unit
    let twice := 2 * (n % unit)
    if twice < unit || (twice == unit && below % 2 == 0) then below else below + 1

/-- The digits of a number in a base, at least so many. -/
def digitsAtLeast (least base n : Nat) : List Char :=
  let digits := if n == 0 && least == 0 then [] else Nat.toDigits base n
  List.replicate (least - digits.length) '0' ++ digits

/-- The sign that is written in front of a number. -/
def signText (flags : List Char) (negative : Bool) : List Char :=
  if negative then ['-'] else if flags.contains '+' then ['+']
  else if flags.contains ' ' then [' '] else []

/-- Fill a text up to a width. Zeros stand after the sign or the mark of the base. -/
def fill (flags : List Char) (width : Nat) (zeros : Bool) (front body : List Char) : List Char :=
  let missing := width - (front.length + body.length)
  if flags.contains '-' then front ++ body ++ List.replicate missing ' '
  else if zeros && flags.contains '0' then front ++ List.replicate missing '0' ++ body
  else List.replicate missing ' ' ++ front ++ body

/-! ## Writing -/

/-- What a format wrote with some of the arguments. -/
structure Formatted where
  text : List Char
  rest : List String
  /-- an escape or an unknown directive ended all output -/
  ended : Bool
  complaints : List String
  /-- a directive is unknown -/
  unknown : Bool
  deriving Inhabited

/-- How a wrong number is reported. -/
def NumberFault.text (dialect : Dialect) (arg : String) : NumberFault → String
  | .notNumeric =>
    match dialect with
    | .shell => arg ++ ": expected numeric value"
    | .program => "'" ++ arg ++ "': expected a numeric value"
  | .trailing =>
    match dialect with
    | .shell => arg ++ ": not completely converted"
    | .program => "'" ++ arg ++ "': value not completely converted"

/-- Take an amount, from the arguments if it says so. -/
def takeAmount (args : List String) : Option Amount → Option Int × List String
  | none => (none, args)
  | some (.given n) => (some n, args)
  | some .argument => (some (integerArgument (args.headD "0")).1, args.tail)

/-- Write an integer by a conversion. Negative numbers are taken to 64 bits where there is no
    sign. -/
def writeInteger (flags : List Char) (width : Nat) (precision : Option Nat) (conversion : Char)
    (n : Int) : List Char :=
  let unsigned : Nat := (n % 2 ^ (64 : Nat)).toNat
  let zeros := precision.isNone
  let least := precision.getD 1
  match conversion with
  | 'o' =>
    let digits := digitsAtLeast least 8 unsigned
    let front := if flags.contains '#' && digits.headD ' ' != '0' then ['0'] else []
    fill flags width zeros front digits
  | 'x' =>
    fill flags width zeros (if flags.contains '#' && unsigned != 0 then ['0', 'x'] else [])
      (digitsAtLeast least 16 unsigned)
  | 'X' =>
    fill flags width zeros (if flags.contains '#' && unsigned != 0 then ['0', 'X'] else [])
      ((digitsAtLeast least 16 unsigned).map Char.toUpper)
  | 'u' => fill flags width zeros [] (digitsAtLeast least 10 unsigned)
  | _ => fill flags width zeros (signText flags (n < 0)) (digitsAtLeast least 10 n.natAbs)

/-- Write a number with so many places. -/
def writeFixed (flags : List Char) (width places : Nat) (n : Int × Nat) : List Char :=
  let digits := digitsAtLeast (places + 1) 10 (roundPlaces n.1.natAbs n.2 places)
  let whole := digits.take (digits.length - places)
  let fraction := digits.drop (digits.length - places)
  let point := if places == 0 && !flags.contains '#' then [] else ['.']
  fill flags width true (signText flags (n.1 < 0)) (whole ++ point ++ fraction)

/-- Write one argument. -/
def writeArgument (dialect : Dialect) (d : Directive) (flags : List Char) (width : Nat)
    (precision : Option Nat) (args : List String) : Formatted :=
  let complaint (arg : String) (fault : Option NumberFault) : List String :=
    (fault.map fun f => f.text dialect arg).toList
  let nothing : Formatted := ⟨[], args.tail, false, [], false⟩
  match d.conversion with
  | 's' =>
    let text := (args.headD "").toList
    { nothing with text := fill flags width false [] (text.take (precision.getD text.length)) }
  | 'b' =>
    let arg := (args.headD "").toList
    let (text, ended) := unescape dialect (arg.length + 1) arg
    { nothing with
      text := fill flags width false [] (text.take (precision.getD text.length))
      ended }
  | 'c' => { nothing with text := fill flags width false [] ((args.headD "").toList.take 1) }
  | 'f' | 'F' =>
    let arg := args.headD ""
    let (n, fault) := decimalArgument arg
    { nothing with
      text := writeFixed flags width (precision.getD 6) n
      complaints := complaint arg fault }
  | c =>
    let arg := args.headD ""
    let (n, fault) := integerArgument arg
    { nothing with
      text := writeInteger flags width precision c n
      complaints := complaint arg fault }

/-- The conversions that are known. -/
def conversions : List Char := ['s', 'b', 'c', 'd', 'i', 'o', 'u', 'x', 'X', 'f', 'F']

/-- Write a format once, in at most `n` steps. -/
def format (dialect : Dialect) : (n : Nat) → List Char → List String → Formatted
  | 0, _, args => ⟨[], args, false, [], false⟩
  | _, [], args => ⟨[], args, false, [], false⟩
  | n + 1, '\\' :: cs, args =>
    match readEscape dialect false cs with
    | (none, _) => ⟨[], args, true, [], false⟩
    | (some x, rest) =>
      let later := format dialect n rest args
      { later with text := x :: later.text }
  | n + 1, '%' :: '%' :: cs, args =>
    let later := format dialect n cs args
    { later with text := '%' :: later.text }
  | n + 1, '%' :: cs, args =>
    let unknown (shown : List Char) : Formatted :=
      let what :=
        match dialect with
        | .shell => ": invalid directive"
        | .program => ": invalid conversion specification"
      ⟨[], args, true, ["%" ++ String.ofList shown ++ what], true⟩
    match readDirective? cs with
    | none => unknown cs
    | some (d, rest) =>
      if !conversions.contains d.conversion then unknown (cs.take (cs.length - rest.length))
      else
        let (width, args) := takeAmount args d.width
        let (precision, args) := takeAmount args d.precision
        let flags := if width.getD 0 < 0 then '-' :: d.flags else d.flags
        let precision := (precision.filter (0 ≤ ·)).map Int.toNat
        let now := writeArgument dialect d flags (width.getD 0).natAbs precision args
        if now.ended then now
        else
          let later := format dialect n rest now.rest
          { later with
            text := now.text ++ later.text
            complaints := now.complaints ++ later.complaints }
  | n + 1, c :: cs, args =>
    let later := format dialect n cs args
    { later with text := c :: later.text }

/-- Write a format again and again, at most `n` times, until the arguments are used up or it uses
    none of them. -/
def formatAll (dialect : Dialect) (cs : List Char) : (n : Nat) → List String → Formatted
  | 0, args => ⟨[], args, false, [], false⟩
  | n + 1, args =>
    let now := format dialect (cs.length + 1) cs args
    if now.ended || now.rest.isEmpty || now.rest.length == args.length then now
    else
      let later := formatAll dialect cs n now.rest
      { later with
        text := now.text ++ later.text
        complaints := now.complaints ++ later.complaints }

end Entail.Command
