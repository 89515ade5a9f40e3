import EnvScript.Text

/-!
# UTF-8

Strict decoding. A byte that cannot be decoded is reported with its place and with the number of
bytes that belong together there: the lead byte and the continuation bytes that fit it.
-/

namespace EnvScript.Utf8

inductive Cause where
  | invalidStart
  | invalidContinuation
  | unexpectedEnd
  deriving DecidableEq, Repr

structure DecodeError where
  cause : Cause
  lead : UInt8
  index : Nat
  length : Nat
  deriving DecidableEq, Repr

def hexByte (b : UInt8) : Text :=
  [Nat.digitChar (b.toNat / 16), Nat.digitChar (b.toNat % 16)]

def Cause.reason : Cause → String
  | .invalidStart => "invalid start byte"
  | .invalidContinuation => "invalid continuation byte"
  | .unexpectedEnd => "unexpected end of data"

def DecodeError.message (e : DecodeError) : String :=
  "'utf-8' codec can't decode " ++
    (if e.length = 1 then s!"byte 0x{String.ofList (hexByte e.lead)} in position {e.index}"
    else s!"bytes in position {e.index}-{e.index + e.length - 1}") ++
    ": " ++ e.cause.reason

/-- What a lead byte asks for: the number of continuation bytes and the least and the greatest value
of the first of them. -/
def leadOf? (b : UInt8) : Option (Nat × UInt8 × UInt8) :=
  if b < 0xc2 then none
  else if b < 0xe0 then some (1, 0x80, 0xbf)
  else if b = 0xe0 then some (2, 0xa0, 0xbf)
  else if b = 0xed then some (2, 0x80, 0x9f)
  else if b < 0xf0 then some (2, 0x80, 0xbf)
  else if b = 0xf0 then some (3, 0x90, 0xbf)
  else if b < 0xf4 then some (3, 0x80, 0xbf)
  else if b = 0xf4 then some (3, 0x80, 0x8f)
  else none

/-- How many of the first `n` bytes continue a character. -/
def continuing (low high : UInt8) : Nat → List UInt8 → Nat
  | n + 1, b :: t => if low ≤ b ∧ b ≤ high then continuing 0x80 0xbf n t + 1 else 0
  | _, _ => 0

/-- The character of a lead byte and its continuation bytes. -/
def charOf (lead : UInt8) (continuation : List UInt8) : Char :=
  let high := lead.toNat % (64 >>> continuation.length)
  Char.ofNat (continuation.foldl (fun n b => 64 * n + b.toNat % 64) high)

/-- Decodes the bytes from `index` on, after the characters `done`, which are the latest first. -/
def decodeFrom (done : Text) (index : Nat) (bytes : List UInt8) : Except DecodeError Text :=
  match bytes with
  | [] => .ok done.reverse
  | b :: t =>
    if b < 0x80 then decodeFrom (Char.ofNat b.toNat :: done) (index + 1) t
    else
      match leadOf? b with
      | none => .error ⟨.invalidStart, b, index, 1⟩
      | some (n, low, high) =>
        let good := continuing low high n t
        if good = n then
          decodeFrom (charOf b (t.take n) :: done) (index + n + 1) (t.drop n)
        else
          let cause : Cause := if t.length = good then .unexpectedEnd else .invalidContinuation
          .error ⟨cause, b, index, good + 1⟩
termination_by bytes.length
decreasing_by
  · simp
  · simp only [List.length_drop, List.length_cons]
    omega

def decode (bytes : List UInt8) : Except DecodeError Text := decodeFrom [] 0 bytes

end EnvScript.Utf8
