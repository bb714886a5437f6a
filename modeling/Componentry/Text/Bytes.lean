/-!
# Bytes and hexadecimal text

Texts as UTF-8 bytes, places counted in bytes, the forgiving reading of bytes that may not be UTF-8, and hexadecimal
digits.
-/

namespace Componentry.Text

def utf8 (s : List Char) : List UInt8 :=
  s.flatMap String.utf8EncodeChar

/-- How many bytes a text takes. -/
def byteLength (s : List Char) : Nat :=
  s.foldr (fun c n => c.utf8Size + n) 0

/-- A text cut in two after a number of bytes, unless it is shorter or a character is cut. -/
def cutBytes? : Nat → List Char → Option (List Char × List Char)
  | 0, s => some ([], s)
  | _ + 1, [] => none
  | n + 1, c :: cs =>
    if c.utf8Size ≤ n + 1 then
      (cutBytes? (n + 1 - c.utf8Size) cs).map fun (before, after) => (c :: before, after)
    else none

variable (bytes : List UInt8)

/-- The bytes read strictly: a text only if they are UTF-8 throughout. -/
def ofUtf8? : Option String :=
  String.fromUTF8? ⟨bytes.toArray⟩

def charOrReplacement (n : Nat) : Char :=
  if n.isValidChar then Char.ofNat n else Char.ofNat 0xFFFD

/-- A continuation byte between two bounds. -/
def inBounds (lo hi : Nat) (b : UInt8) : Bool :=
  lo ≤ b.toNat && b.toNat ≤ hi

/-- For a first byte of a longer sequence: how many bytes follow, the bits it carries and the
bounds of the second byte. -/
def leadByte (b : UInt8) : Option (Nat × Nat × Nat × Nat) :=
  let n := b.toNat
  if 0xC2 ≤ n && n ≤ 0xDF then some (1, n - 0xC0, 0x80, 0xBF)
  else if n == 0xE0 then some (2, 0, 0xA0, 0xBF)
  else if n == 0xED then some (2, n - 0xE0, 0x80, 0x9F)
  else if 0xE1 ≤ n && n ≤ 0xEF then some (2, n - 0xE0, 0x80, 0xBF)
  else if n == 0xF0 then some (3, 0, 0x90, 0xBF)
  else if 0xF1 ≤ n && n ≤ 0xF3 then some (3, n - 0xF0, 0x80, 0xBF)
  else if n == 0xF4 then some (3, n - 0xF0, 0x80, 0x8F)
  else none

/-- The continuation bytes of a sequence: the character when all are there, and how many bytes
were used. -/
def tailBytes : Nat → Nat → Nat → Nat → List UInt8 → Option Nat × Nat
  | 0, acc, _, _, _ => (some acc, 0)
  | _ + 1, _, _, _, [] => (none, 0)
  | n + 1, acc, lo, hi, b :: bs =>
    if inBounds lo hi b then
      let r := tailBytes n (acc * 64 + (b.toNat - 0x80)) 0x80 0xBF bs
      (r.1, r.2 + 1)
    else (none, 0)

/-- The bytes read forgivingly: each longest broken start of a sequence becomes one replacement
character. -/
def ofUtf8Lossy : List Char :=
  go bytes.length bytes
where
  go : Nat → List UInt8 → List Char
    | 0, _ => []
    | _ + 1, [] => []
    | fuel + 1, b :: bs =>
      if b.toNat < 0x80 then Char.ofNat b.toNat :: go fuel bs
      else match leadByte b with
        | none => Char.ofNat 0xFFFD :: go fuel bs
        | some (n, acc, lo, hi) =>
          let r := tailBytes n acc lo hi bs
          match r.1 with
          | some code => charOrReplacement code :: go fuel (bs.drop r.2)
          | none => Char.ofNat 0xFFFD :: go fuel (bs.drop r.2)

/-- The lower-case hexadecimal digit of a value below sixteen. -/
def hexDigit (n : Nat) : Char :=
  if n < 10 then Char.ofNat (48 + n) else Char.ofNat (87 + n)

def hexByte (b : UInt8) : List Char :=
  [hexDigit (b.toNat / 16), hexDigit (b.toNat % 16)]

/-- Lower-case hexadecimal text of bytes. -/
def hexEncode : List Char :=
  bytes.flatMap hexByte

/-- The value of a hexadecimal digit in either case. -/
def hexValue? (c : Char) : Option Nat :=
  if c.isDigit then some (c.toNat - 48)
  else if 'a' ≤ c && c ≤ 'f' then some (c.toNat - 87)
  else if 'A' ≤ c && c ≤ 'F' then some (c.toNat - 55)
  else none

/-- The value of exactly `n` hexadecimal digits, after what was read before them. -/
def hexDigits? : Nat → Nat → List Char → Option (Nat × List Char)
  | 0, v, s => some (v, s)
  | n + 1, v, c :: s => do hexDigits? n (v * 16 + (← hexValue? c)) s
  | _ + 1, _, [] => none

/-- The bytes of hexadecimal text with an even number of digits. -/
def hexDecode? : List Char → Option (List UInt8)
  | [] => some []
  | [_] => none
  | a :: b :: rest => do
    let x ← hexValue? a
    let y ← hexValue? b
    let tail ← hexDecode? rest
    return UInt8.ofNat (x * 16 + y) :: tail

end Componentry.Text
