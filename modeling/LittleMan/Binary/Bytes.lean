import LittleMan.Word

/-!
# Bytes

The parts that binary forms are made of.  Natural numbers are written seven bits
to a byte, the lowest first, and every byte but the last has its high bit set.
Words are folded onto the natural numbers so that small magnitudes stay short.
Texts and lists have their length in front.

A decoder takes what it needs from the front of the bytes and hands on the rest.
It fails at the first byte that cannot be right.
-/

namespace LittleMan

inductive DecodeError where
  | unexpectedEnd
  | badVarint
  | badOption
  | badUtf8
  | badVariant
deriving DecidableEq, Repr

abbrev Bytes := List UInt8

abbrev Decoder (α : Type) := StateT Bytes (Except DecodeError) α

namespace Varint

/-- Writes a number in at most `more + 1` bytes. -/
def encodeWithin : Nat → Nat → Bytes
  | 0, n => [UInt8.ofNat n]
  | more + 1, n =>
      if n < 128 then [UInt8.ofNat n]
      else UInt8.ofNat (n % 128 + 128) :: encodeWithin more (n / 128)

/-- Reads a number of at most `size` bytes, the last of which is at most `top`. -/
def decodeWithin (top : Nat) : Nat → Decoder Nat
  | 0, _ => .error .badVarint
  | _ + 1, [] => .error .unexpectedEnd
  | size + 1, byte :: rest =>
      if byte.toNat < 128 then
        if size = 0 ∧ top < byte.toNat then .error .badVarint
        else .ok (byte.toNat, rest)
      else
        (decodeWithin top size rest).map fun (high, rest) =>
          (byte.toNat - 128 + 128 * high, rest)

end Varint

namespace Bytes

/-- Numbers of 64 bits: lengths, addresses and line numbers. -/
def ofNat (n : Nat) : Bytes :=
  Varint.encodeWithin 9 n

/-- Counts the words as zero, one below it, one above it, two below it, and so on. -/
def zigzag (w : Word) : Nat :=
  if 0 ≤ w.toInt then 2 * w.toInt.toNat else 2 * (-w.toInt).toNat - 1

def ofZigzag (n : Nat) : Word :=
  if n % 2 = 0 then Int64.ofInt (n / 2 : Nat) else Int64.ofInt (-((n / 2 : Nat) + 1 : Int))

def ofWord (w : Word) : Bytes :=
  ofNat (zigzag w)

def ofString (text : String) : Bytes :=
  let bytes := text.toUTF8.data.toList
  ofNat bytes.length ++ bytes

def ofList {α : Type} (item : α → Bytes) (items : List α) : Bytes :=
  ofNat items.length ++ items.flatMap item

def ofOption {α : Type} (item : α → Bytes) : Option α → Bytes
  | none => [0]
  | some a => 1 :: item a

end Bytes

namespace Decoder

def nat : Decoder Nat :=
  Varint.decodeWithin 1 10

/-- The number of a constructor, which has 32 bits. -/
def index : Decoder Nat :=
  Varint.decodeWithin 15 5

def word : Decoder Word :=
  Bytes.ofZigzag <$> nat

def byte : Decoder UInt8
  | [] => .error .unexpectedEnd
  | byte :: rest => .ok (byte, rest)

def take (count : Nat) : Decoder Bytes := fun bytes =>
  if count ≤ bytes.length then .ok (bytes.take count, bytes.drop count)
  else .error .unexpectedEnd

def string : Decoder String := do
  let bytes ← take (← nat)
  match String.fromUTF8? { data := bytes.toArray } with
  | some text => return text
  | none => throw .badUtf8

def times {α : Type} (item : Decoder α) : Nat → Decoder (List α)
  | 0 => return []
  | count + 1 => do
      let first ← item
      return first :: (← times item count)

def list {α : Type} (item : Decoder α) : Decoder (List α) := do
  times item (← nat)

def option {α : Type} (item : Decoder α) : Decoder (Option α) := do
  match (← byte).toNat with
  | 0 => return none
  | 1 => some <$> item
  | _ => throw .badOption

/-- A constructor without fields, by its number. -/
def variant {α : Type} (all : List α) : Decoder α := do
  match all[← index]? with
  | some a => return a
  | none => throw .badVariant

end Decoder
end LittleMan
