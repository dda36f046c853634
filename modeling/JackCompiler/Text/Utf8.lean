/-!
UTF-8 read byte by byte. Decoding gives the characters, or points at the first sequence that is not
well formed and tells a sequence that the input breaks off from one that a byte interrupts.
-/

namespace JackCompiler.Utf8

/-- The first sequence that is not well formed: its offset, and how many of its bytes could start
a character, at least one. The length is absent where the input ends inside the sequence. -/
structure Fault where
  index : Nat
  length : Option Nat
deriving DecidableEq

def Fault.message (fault : Fault) : String :=
  match fault.length with
  | some n =>
    "invalid utf-8 sequence of " ++ toString n ++ " bytes from index " ++ toString fault.index
  | none => "incomplete utf-8 byte sequence from index " ++ toString fault.index

/-- An unfinished sequence: where it starts, how many bytes it still owes, the range of the next
one, and the bits read so far. -/
structure Pending where
  start : Nat
  owed : Nat
  low : UInt8 := 0x80
  high : UInt8 := 0xBF
  bits : Nat

/-- What a byte at offset `start` begins: a character, a longer sequence, or nothing. The second
byte is restricted where shorter forms, surrogates or values past U+10FFFF would be encoded. -/
def lead (start : Nat) (b : UInt8) : Option (Char ⊕ Pending) :=
  let n := b.toNat
  if b ≤ 0x7F then some (.inl (Char.ofNat n))
  else if b < 0xC2 then none
  else if b ≤ 0xDF then some (.inr { start, owed := 1, bits := n - 0xC0 })
  else if b = 0xE0 then some (.inr { start, owed := 2, low := 0xA0, bits := 0 })
  else if b = 0xED then some (.inr { start, owed := 2, high := 0x9F, bits := n - 0xE0 })
  else if b ≤ 0xEF then some (.inr { start, owed := 2, bits := n - 0xE0 })
  else if b = 0xF0 then some (.inr { start, owed := 3, low := 0x90, bits := 0 })
  else if b ≤ 0xF3 then some (.inr { start, owed := 3, bits := n - 0xF0 })
  else if b = 0xF4 then some (.inr { start, owed := 3, high := 0x8F, bits := n - 0xF0 })
  else none

/-- Decodes from offset `index` on; `read` holds the characters so far, latest first. -/
def decodeFrom (read : List Char) (pending : Option Pending) (index : Nat) :
    List UInt8 → Except Fault (List Char)
  | [] =>
    match pending with
    | none => .ok read.reverse
    | some p => .error ⟨p.start, none⟩
  | b :: rest =>
    match pending with
    | none =>
      match lead index b with
      | some (.inl c) => decodeFrom (c :: read) none (index + 1) rest
      | some (.inr p) => decodeFrom read (some p) (index + 1) rest
      | none => .error ⟨index, some 1⟩
    | some p =>
      if p.low ≤ b ∧ b ≤ p.high then
        let bits := p.bits * 64 + (b.toNat - 0x80)
        if p.owed ≤ 1 then decodeFrom (Char.ofNat bits :: read) none (index + 1) rest
        else decodeFrom read (some { start := p.start, owed := p.owed - 1, bits }) (index + 1) rest
      else .error ⟨p.start, some (index - p.start)⟩

def decode (bytes : ByteArray) : Except Fault String :=
  (decodeFrom [] none 0 bytes.toList).map String.ofList

end JackCompiler.Utf8
