import DynamicLisp.Text.Quoted

/-!
Reading bytes as UTF-8. The first byte of a character announces how many bytes follow and bounds
the second, which rules out surrogates, overlong forms and code points past the last. A row of bytes
that is not UTF-8 is refused with the place and kind of its first defect.
-/
namespace DynamicLisp.Text.Utf8

/-- The ways in which a row of bytes fails to be UTF-8. -/
inductive Flaw where
  | start
  | continuation
  | ending
  deriving DecidableEq, Repr

/-- The name of a flaw. -/
def Flaw.name : Flaw → String
  | start => "invalid start byte"
  | continuation => "invalid continuation byte"
  | ending => "unexpected end of data"

/-- The first defect of a row of bytes: the flaw, where it starts, how many bytes it spans, and the
first of them. -/
structure Defect where
  flaw : Flaw
  position : Nat
  width : Nat
  byte : UInt8
  deriving DecidableEq, Repr

/-- The bytes that a defect spans, by value if there is only one. -/
def Defect.place (d : Defect) : String :=
  if d.width = 1 then
    "byte 0x" ++ String.ofList (hexDigits 2 d.byte.toNat) ++ s!" in position {d.position}"
  else s!"bytes in position {d.position}-{d.position + d.width - 1}"

/-- The report of a defect. -/
def Defect.message (d : Defect) : String :=
  "'utf-8' codec can't decode " ++ d.place ++ ": " ++ d.flaw.name

/-- A character of which `read` bytes have been read and `missing` have not; the next one must lie
between `low` and `high`. -/
structure Pending where
  first : UInt8
  read : Nat
  missing : Nat
  low : Nat
  high : Nat
  code : Nat

/-- What a first byte announces, unless it can start no character. -/
def Pending.ofFirst? (b : UInt8) : Option Pending :=
  let n := b.toNat
  if n < 0x80 then some ⟨b, 1, 0, 0, 0, n⟩
  else if n < 0xC2 then none
  else if n < 0xE0 then some ⟨b, 1, 1, 0x80, 0xBF, n - 0xC0⟩
  else if n < 0xF0 then
    some ⟨b, 1, 2, if n = 0xE0 then 0xA0 else 0x80, if n = 0xED then 0x9F else 0xBF, n - 0xE0⟩
  else if n < 0xF5 then
    some ⟨b, 1, 3, if n = 0xF0 then 0x90 else 0x80, if n = 0xF4 then 0x8F else 0xBF, n - 0xF0⟩
  else none

/-- The character with one more of its bytes read, if that byte can stand there. -/
def Pending.next? (p : Pending) (b : UInt8) : Option Pending :=
  if p.low ≤ b.toNat && b.toNat ≤ p.high then
    some ⟨p.first, p.read + 1, p.missing - 1, 0x80, 0xBF, 64 * p.code + (b.toNat - 0x80)⟩
  else none

/-- Reads bytes from `position` on, after the characters `done` (last first) and perhaps a part of
the next one. -/
def readFrom (position : Nat) (done : List Char) :
    (pending : Option Pending) → List UInt8 → Except Defect (List Char)
  | none, [] => .ok done.reverse
  | some p, [] => .error ⟨.ending, position - p.read, p.read, p.first⟩
  | none, b :: bs =>
    match Pending.ofFirst? b with
    | none => .error ⟨.start, position, 1, b⟩
    | some p =>
      if p.missing = 0 then readFrom (position + 1) (Char.ofNat p.code :: done) none bs
      else readFrom (position + 1) done (some p) bs
  | some p, b :: bs =>
    match p.next? b with
    | none => .error ⟨.continuation, position - p.read, p.read, p.first⟩
    | some q =>
      if q.missing = 0 then readFrom (position + 1) (Char.ofNat q.code :: done) none bs
      else readFrom (position + 1) done (some q) bs

/-- The text that a row of bytes spells, or the first defect. -/
def decode (bytes : List UInt8) : Except Defect String :=
  (readFrom 0 [] none bytes).map String.ofList

end DynamicLisp.Text.Utf8
