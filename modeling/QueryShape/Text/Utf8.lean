/-!
# Reading bytes as UTF-8

## What this module delivers

- `decode`: the characters that a sequence of bytes encodes, or the first fault.
- `Fault`: where decoding stopped, and whether a sequence is wrong or cut short.
- `encode`: the bytes of a text.

A faulty sequence is reported with the number of its bytes that could still have
begun a character, and with the index of the first of them.
-/

set_option autoImplicit false

namespace QueryShape.Text.Utf8

/-- Why a sequence of bytes is no text. -/
inductive Fault where
  /-- The `length` bytes from `start` begin no character. -/
  | invalid (start length : Nat)
  /-- The bytes from `start` to the end begin a character and do not finish it. -/
  | incomplete (start : Nat)
deriving DecidableEq, Repr

/-- The wording of a fault. -/
def Fault.message : Fault → String
  | invalid start length =>
      "invalid utf-8 sequence of " ++ toString length ++ " bytes from index " ++ toString start
  | incomplete start => "incomplete utf-8 byte sequence from index " ++ toString start

/-- A character of which some bytes have been read. -/
structure Unfinished where
  /-- Index of its first byte. -/
  start : Nat
  /-- Number of bytes read. -/
  taken : Nat
  /-- Number of bytes to come, at least one. -/
  missing : Nat
  /-- The bounds of the next byte, which are narrower after some first bytes. -/
  low : Nat
  high : Nat
  /-- The bits read so far. -/
  bits : Nat

/-- What a first byte starts: a character of its own, or a longer one. -/
inductive Lead where
  | single (code : Nat)
  | longer (state : Unfinished)
  | none

/-- Classifies the first byte of a character at an index. -/
def lead (index byte : Nat) : Lead :=
  if byte < 0x80 then .single byte
  else if 0xC2 ≤ byte && byte ≤ 0xDF then .longer ⟨index, 1, 1, 0x80, 0xBF, byte - 0xC0⟩
  else if byte = 0xE0 then .longer ⟨index, 1, 2, 0xA0, 0xBF, 0⟩
  else if byte = 0xED then .longer ⟨index, 1, 2, 0x80, 0x9F, 0xD⟩
  else if 0xE1 ≤ byte && byte ≤ 0xEF then .longer ⟨index, 1, 2, 0x80, 0xBF, byte - 0xE0⟩
  else if byte = 0xF0 then .longer ⟨index, 1, 3, 0x90, 0xBF, 0⟩
  else if 0xF1 ≤ byte && byte ≤ 0xF3 then .longer ⟨index, 1, 3, 0x80, 0xBF, byte - 0xF0⟩
  else if byte = 0xF4 then .longer ⟨index, 1, 3, 0x80, 0x8F, 4⟩
  else .none

/-- Reads bytes from an index on. `read` holds the characters before, last first. -/
def decodeFrom (index : Nat) (state : Option Unfinished) (read : List Char) :
    List UInt8 → Except Fault (List Char)
  | [] =>
      match state with
      | none => .ok read.reverse
      | some s => .error (.incomplete s.start)
  | byte :: rest =>
      let b := byte.toNat
      match state with
      | none =>
          match lead index b with
          | .single code => decodeFrom (index + 1) none (Char.ofNat code :: read) rest
          | .longer s => decodeFrom (index + 1) (some s) read rest
          | .none => .error (.invalid index 1)
      | some s =>
          if s.low ≤ b && b ≤ s.high then
            let bits := s.bits * 64 + (b - 0x80)
            if s.missing ≤ 1 then decodeFrom (index + 1) none (Char.ofNat bits :: read) rest
            else
              decodeFrom (index + 1)
                (some ⟨s.start, s.taken + 1, s.missing - 1, 0x80, 0xBF, bits⟩) read rest
          else .error (.invalid s.start s.taken)

/-- The text that the bytes encode. -/
def decode (bytes : List UInt8) : Except Fault String :=
  (decodeFrom 0 none [] bytes).map String.ofList

/-- The bytes of a text. -/
def encode (text : String) : List UInt8 :=
  text.toUTF8.toList

end QueryShape.Text.Utf8
