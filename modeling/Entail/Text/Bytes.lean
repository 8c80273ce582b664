set_option autoImplicit false

/-! # Bytes and text

Programs read and write bytes. Here a byte is the character with its number, so that text in the
range of ASCII looks the same in both forms, and a sequence of bytes is a string whose characters
are below 256. -/

namespace Entail.Text

/-- The bytes of the UTF-8 form of a text. -/
def toBytes (s : String) : String :=
  String.ofList (s.toUTF8.toList.map fun b => Char.ofNat b.toNat)

/-- What a byte can start in UTF-8. -/
inductive ByteRole where
  /-- a character of one byte -/
  | whole
  /-- a character with so many more bytes, the next of which lies in the range; the byte carries the
      highest bits -/
  | lead (bits more low high : Nat)
  | invalid

def byteRole (b : Nat) : ByteRole :=
  if b < 0x80 then .whole
  else if b < 0xC2 then .invalid
  else if b < 0xE0 then .lead (b - 0xC0) 1 0x80 0xBF
  else if b == 0xE0 then .lead 0 2 0xA0 0xBF
  else if b == 0xED then .lead 0xD 2 0x80 0x9F
  else if b < 0xF0 then .lead (b - 0xE0) 2 0x80 0xBF
  else if b == 0xF0 then .lead 0 3 0x90 0xBF
  else if b < 0xF4 then .lead (b - 0xF0) 3 0x80 0xBF
  else if b == 0xF4 then .lead 4 3 0x80 0x8F
  else .invalid

/-- A character that lacks bytes: the bits so far, how many more bytes it has, and the range of the
    next one. -/
structure Unfinished where
  bits : Nat
  more : Nat
  low : Nat
  high : Nat

/-- What stands for bytes that are no character. -/
def replacement : Char := '\ufffd'

/-- What was read so far: characters, the last one first, and one that lacks bytes. -/
structure Decoding where
  done : List Char
  unfinished : Option Unfinished

namespace Decoding

/-- Begin a character with a byte. -/
def start (done : List Char) (b : Char) : Decoding :=
  match byteRole b.toNat with
  | .whole => ⟨b :: done, none⟩
  | .lead bits more low high => ⟨done, some ⟨bits, more, low, high⟩⟩
  | .invalid => ⟨replacement :: done, none⟩

/-- Read one more byte. The longest start of a character that does not go on becomes one replacement
    character, as does every byte that starts none. -/
def push (d : Decoding) (b : Char) : Decoding :=
  match d.unfinished with
  | none => start d.done b
  | some u =>
    if u.low ≤ b.toNat && b.toNat ≤ u.high then
      let bits := u.bits * 64 + b.toNat % 64
      if u.more ≤ 1 then ⟨Char.ofNat bits :: d.done, none⟩
      else ⟨d.done, some ⟨bits, u.more - 1, 0x80, 0xBF⟩⟩
    else start (replacement :: d.done) b

/-- All characters, in order. -/
def finish (d : Decoding) : List Char :=
  (if d.unfinished.isSome then replacement :: d.done else d.done).reverse

end Decoding

/-- The text of bytes that are read as UTF-8. -/
def ofBytes (s : String) : String :=
  String.ofList (s.toList.foldl Decoding.push ⟨[], none⟩).finish

end Entail.Text
