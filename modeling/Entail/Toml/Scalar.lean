import Entail.Toml.Value

set_option autoImplicit false

/-! # Scalars of TOML

The values that are written without quotes or brackets: truth values, integers, numbers with a
fraction or an exponent, dates and times. A scalar is read from its token as a whole. -/

namespace Entail.Toml

-- powers are the core library's, whatever else is imported
attribute [local instance (high)] instPowNat

def hexDigit? (c : Char) : Option Nat :=
  if c.isDigit then some (c.toNat - '0'.toNat)
  else if 'a' ≤ c && c ≤ 'f' then some (c.toNat - 'a'.toNat + 10)
  else if 'A' ≤ c && c ≤ 'F' then some (c.toNat - 'A'.toNat + 10)
  else none

/-! ## Integers -/

/-- Digits in a base below 17, with single underscores between them. -/
def digits? (base : Nat) : (afterDigit : Bool) → (value : Nat) → List Char → Option Nat
  | afterDigit, value, [] => if afterDigit then some value else none
  | afterDigit, value, '_' :: cs => if afterDigit then digits? base false value cs else none
  | _, value, c :: cs =>
    match hexDigit? c with
    | some d => if d < base then digits? base true (value * base + d) cs else none
    | none => none

/-- A decimal number without leading zeros. -/
def decimal? : List Char → Option Nat
  | ['0'] => some 0
  | '0' :: _ => none
  | cs => digits? 10 false 0 cs

/-- An integer that fits into 64 bits with a sign. -/
def integer? (token : List Char) : Option Int :=
  let n : Option Int :=
    match token with
    | '0' :: 'x' :: cs => (digits? 16 false 0 cs).map Int.ofNat
    | '0' :: 'o' :: cs => (digits? 8 false 0 cs).map Int.ofNat
    | '0' :: 'b' :: cs => (digits? 2 false 0 cs).map Int.ofNat
    | '-' :: cs => (decimal? cs).map fun n => -(n : Int)
    | '+' :: cs => (decimal? cs).map Int.ofNat
    | cs => (decimal? cs).map Int.ofNat
  n.filter fun n => decide (-(2 ^ (63 : Nat)) ≤ n) && decide (n < 2 ^ (63 : Nat))

/-! ## Numbers with a fraction or an exponent -/

/-- A number without a sign: `coefficient * 10 ^ exponent`. -/
structure Magnitude where
  coefficient : Nat
  exponent : Int
  deriving DecidableEq, Inhabited

/-- The number is nearer to `2 ^ 1024` than to the largest double, or as near. The number of its
    digits decides, but for numbers of 309 digits. -/
def Magnitude.overflows (m : Magnitude) : Bool :=
  let limit := 2 ^ (1024 : Nat) - 2 ^ (970 : Nat)
  let size := (Nat.toDigits 10 m.coefficient).length + m.exponent
  if m.coefficient == 0 || size < 309 then false
  else if 309 < size then true
  else decide (limit * 10 ^ (-m.exponent).toNat ≤ m.coefficient * 10 ^ m.exponent.toNat)

/-- Digits, of which the first may be zero, and how many they are. -/
def fraction? (cs : List Char) : Option (Nat × Nat) :=
  (digits? 10 false 0 cs).map fun n => (n, cs.countP (·.isDigit))

/-- What may follow the digits of a number: an exponent. -/
def exponent? : List Char → Option Int
  | [] => some 0
  | e :: cs =>
    if e == 'e' || e == 'E' then
      match cs with
      | '-' :: cs => (digits? 10 false 0 cs).map fun n => -(n : Int)
      | '+' :: cs => (digits? 10 false 0 cs).map Int.ofNat
      | cs => (digits? 10 false 0 cs).map Int.ofNat
    else none

def isFractionChar (c : Char) : Bool := c.isDigit || c == '_'

/-- A number without a sign that has a fraction, an exponent or both. -/
def magnitude? (token : List Char) : Option Magnitude := do
  let whole ← decimal? (token.takeWhile isFractionChar)
  match token.dropWhile isFractionChar with
  | [] => none
  | '.' :: cs =>
    let (fraction, places) ← fraction? (cs.takeWhile isFractionChar)
    let exponent ← exponent? (cs.dropWhile isFractionChar)
    return ⟨whole * 10 ^ places + fraction, exponent - places⟩
  | cs => return ⟨whole, ← exponent? cs⟩

/-- A token is a number with a fraction or an exponent, an infinity or no number at all. A positive
    number that is too large for a double is none of these, and a negative one is an infinity. -/
def isFloat : List Char → Bool
  | '-' :: cs => isMagnitude cs false
  | '+' :: cs => isMagnitude cs true
  | cs => isMagnitude cs true
where
  isMagnitude (cs : List Char) (bounded : Bool) : Bool :=
    cs == "inf".toList || cs == "nan".toList ||
      match magnitude? cs with
      | some m => !(bounded && m.overflows)
      | none => false

/-! ## Dates and times -/

/-- Skip so many digits, if the number that they make is in the range. -/
def skipNumber (count low high : Nat) (cs : List Char) : Option (List Char) :=
  let digits := cs.take count
  match digits? 10 false 0 digits with
  | some n =>
    if digits.length == count && digits.all Char.isDigit && low ≤ n && n ≤ high then
      some (cs.drop count)
    else none
  | none => none

def skipChar (c : Char) : List Char → Option (List Char)
  | [] => none
  | d :: cs => if d == c then some cs else none

/-- Skip a date; a month may have any day up to the 31st. -/
def skipDate (cs : List Char) : Option (List Char) := do
  let cs ← skipChar '-' (← skipNumber 4 0 9999 cs)
  let cs ← skipChar '-' (← skipNumber 2 1 12 cs)
  skipNumber 2 1 31 cs

/-- Skip hours and minutes. -/
def skipMinutes (cs : List Char) : Option (List Char) := do
  skipNumber 2 0 59 (← skipChar ':' (← skipNumber 2 0 23 cs))

/-- Skip a time, which may have a fraction of a second. -/
def skipTime (cs : List Char) : Option (List Char) := do
  match ← skipNumber 2 0 60 (← skipChar ':' (← skipMinutes cs)) with
  | '.' :: cs =>
    let rest := cs.dropWhile Char.isDigit
    if rest.length == cs.length then none else return rest
  | cs => return cs

/-- Skip the offset of a time from the universal one. -/
def skipOffset : List Char → Option (List Char)
  | 'Z' :: cs | 'z' :: cs => some cs
  | '+' :: cs | '-' :: cs => skipMinutes cs
  | cs => some cs

/-- What may stand between a date and a time. -/
def isTimeMark (c : Char) : Bool := c == 'T' || c == 't' || c == ' '

def isDate (token : List Char) : Bool := skipDate token == some []

/-- A token is a time, a date, or a date with a time. -/
def isMoment (token : List Char) : Bool :=
  skipTime token == some [] ||
    match skipDate token with
    | some [] => true
    | some (c :: cs) => isTimeMark c && (skipTime cs).bind skipOffset == some []
    | none => false

/-! ## Tokens -/

/-- The characters of numbers, dates and names of values. -/
def isTokenChar (c : Char) : Bool :=
  c.isAlphanum || c == '_' || c == '+' || c == '-' || c == '.' || c == ':'

/-- The token at the start. A time may follow a date after a space. -/
def token (cs : List Char) : List Char :=
  let first := cs.takeWhile isTokenChar
  match cs.drop first.length with
  | ' ' :: c :: rest =>
    if isDate first && c.isDigit then first ++ ' ' :: c :: rest.takeWhile isTokenChar else first
  | _ => first

/-- The value that a token stands for. -/
def tokenValue? (token : List Char) : Option Toml :=
  if token == "true".toList then some (.boolean true)
  else if token == "false".toList then some (.boolean false)
  else if isMoment token then some (.moment (String.ofList token))
  else if isFloat token then some (.float (String.ofList token))
  else (integer? token).map .integer

end Entail.Toml
