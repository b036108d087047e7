import Reckon.Text.Quoted

/-!
# Decoding bytes

Bytes are decoded as UTF-8, one at a time.  Decoding stops at the first sequence that is not well
formed: at a byte that starts none, or behind the longest beginning of one that the bytes allow.
-/

namespace Reckon.Utf8

/-- A sequence whose first bytes have been read. -/
structure Sequence where
  /-- The place of the first byte. -/
  start : Nat
  /-- The first byte. -/
  lead : UInt8
  /-- The bits read so far. -/
  bits : Nat
  /-- The number of bytes still due. -/
  due : Nat
  /-- The least and the greatest value of the next byte. -/
  low : Nat := 0x80
  high : Nat := 0xBF

/-- What is wrong with a sequence. -/
inductive Reason where
  | startByte
  | continuationByte
  | endOfData
  deriving DecidableEq

/-- A sequence that is not well formed: its first byte, its place and its last place. -/
structure Malformed where
  lead : UInt8
  first : Nat
  last : Nat
  reason : Reason
  deriving DecidableEq

/-- The sequence that a byte beyond ASCII starts. -/
def begin? (place : Nat) (b : UInt8) : Option Sequence :=
  let n := b.toNat
  if 0xC2 ≤ n ∧ n ≤ 0xDF then some { start := place, lead := b, bits := n - 0xC0, due := 1 }
  else if n = 0xE0 then some { start := place, lead := b, bits := 0, due := 2, low := 0xA0 }
  else if n = 0xED then some { start := place, lead := b, bits := 0xD, due := 2, high := 0x9F }
  else if 0xE1 ≤ n ∧ n ≤ 0xEF then some { start := place, lead := b, bits := n - 0xE0, due := 2 }
  else if n = 0xF0 then some { start := place, lead := b, bits := 0, due := 3, low := 0x90 }
  else if n = 0xF4 then some { start := place, lead := b, bits := 4, due := 3, high := 0x8F }
  else if 0xF1 ≤ n ∧ n ≤ 0xF3 then some { start := place, lead := b, bits := n - 0xF0, due := 3 }
  else none

/-- Decode the bytes from a place on, inside the given sequence if there is one. -/
def decodeFrom (place : Nat) : Option Sequence → List UInt8 → Except Malformed (List Char)
  | none, [] => .ok []
  | some s, [] => .error ⟨s.lead, s.start, place - 1, .endOfData⟩
  | none, b :: rest =>
    if b.toNat < 0x80 then
      (decodeFrom (place + 1) none rest).map (Char.ofNat b.toNat :: ·)
    else
      match begin? place b with
      | some s => decodeFrom (place + 1) (some s) rest
      | none => .error ⟨b, place, place, .startByte⟩
  | some s, b :: rest =>
    if s.low ≤ b.toNat ∧ b.toNat ≤ s.high then
      let bits := s.bits * 64 + (b.toNat - 0x80)
      if s.due = 1 then (decodeFrom (place + 1) none rest).map (Char.ofNat bits :: ·)
      else
        decodeFrom (place + 1)
          (some { start := s.start, lead := s.lead, bits := bits, due := s.due - 1 }) rest
    else .error ⟨s.lead, s.start, place - 1, .continuationByte⟩

/-- Decode bytes. -/
def decode (bytes : List UInt8) : Except Malformed (List Char) := decodeFrom 0 none bytes

/-- The wording of a reason. -/
def Reason.message : Reason → String
  | .startByte => "invalid start byte"
  | .continuationByte => "invalid continuation byte"
  | .endOfData => "unexpected end of data"

/-- The wording of a malformed sequence. -/
def Malformed.message (m : Malformed) : String :=
  let place :=
    if m.first = m.last then
      "byte 0x" ++ String.ofList (Quoted.hex 2 m.lead.toNat) ++ " in position " ++ m.first.repr
    else "bytes in position " ++ m.first.repr ++ "-" ++ m.last.repr
  "'utf-8' codec can't decode " ++ place ++ ": " ++ m.reason.message

end Reckon.Utf8
