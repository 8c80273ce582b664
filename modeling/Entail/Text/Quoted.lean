import Entail.Text.Printable

set_option autoImplicit false

/-! # Quoted text

A string is written between double quotes. A quote and a backslash are escaped with a backslash, as
are line feed, carriage return, tab and the null character by a letter; every other character that
is unprintable or extends a grapheme is written as its code point in lower-case hexadecimal between
braces. -/

namespace Entail.Text

/-- A number in lower-case hexadecimal. -/
def hex (n : Nat) : String := String.ofList (Nat.toDigits 16 n)

/-- The written form of one character inside quotes. -/
def escape (c : Char) : String :=
  match c with
  | '\x00' => "\\0"
  | '\t' => "\\t"
  | '\r' => "\\r"
  | '\n' => "\\n"
  | '\\' => "\\\\"
  | '"' => "\\\""
  | c =>
    if c.toNat < 0x7F && 0x20 ≤ c.toNat then String.singleton c
    else if extendsGrapheme c || isUnprintable c then "\\u\x7b" ++ hex c.toNat ++ "\x7d"
    else String.singleton c

/-- A string between quotes. -/
def quote (s : String) : String :=
  "\"" ++ String.join (s.toList.map escape) ++ "\""

/-- The items with `sep` between them. -/
def joinWith (sep : String) (items : List String) : String := sep.intercalate items

end Entail.Text
