import ParitySplit.Text.Bytes

/-!
UTF-8 read one byte at a time. The input falls into pieces, each a whole scalar or a broken
beginning of one, and a broken piece ends before the first byte that cannot continue it. The valid
length, the scalars and the repaired text are three views of the same pieces.
-/

namespace ParitySplit.Utf8

/-- A stretch of the input with the scalar it spells, if it spells one. -/
structure Piece where
  bytes : Bytes
  scalar? : Option Char
  deriving DecidableEq, Repr

/-- A scalar under way: the bytes so far, how many are owed, and the range of the next one. -/
structure Sequence where
  bytes : Bytes
  owed : Nat
  low : UInt8
  high : UInt8
  value : Nat
  deriving DecidableEq, Repr

/-- The sequence a first byte opens. The narrowed ranges rule out overlong forms, surrogates and
values past `0x10ffff`. -/
def Sequence.open? (b : UInt8) : Option Sequence :=
  if b < 0xc2 then none
  else if b < 0xe0 then some ⟨[b], 1, 0x80, 0xbf, b.toNat - 0xc0⟩
  else if b = 0xe0 then some ⟨[b], 2, 0xa0, 0xbf, 0⟩
  else if b = 0xed then some ⟨[b], 2, 0x80, 0x9f, 0xd⟩
  else if b < 0xf0 then some ⟨[b], 2, 0x80, 0xbf, b.toNat - 0xe0⟩
  else if b = 0xf0 then some ⟨[b], 3, 0x90, 0xbf, 0⟩
  else if b < 0xf4 then some ⟨[b], 3, 0x80, 0xbf, b.toNat - 0xf0⟩
  else if b = 0xf4 then some ⟨[b], 3, 0x80, 0x8f, 4⟩
  else none

def Sequence.admits (s : Sequence) (b : UInt8) : Bool := s.low ≤ b && b ≤ s.high

/-- After its second byte a sequence takes any continuation byte. -/
def Sequence.extend (s : Sequence) (b : UInt8) : Sequence :=
  ⟨s.bytes ++ [b], s.owed - 1, 0x80, 0xbf, s.value * 64 + (b.toNat - 0x80)⟩

/-- The pieces so far, newest first, and the scalar under way. -/
structure Decoder where
  done : List Piece
  pending : Option Sequence
  deriving DecidableEq, Repr

namespace Decoder

def start : Decoder := ⟨[], none⟩

def begin (done : List Piece) (b : UInt8) : Decoder :=
  if b < 0x80 then ⟨⟨[b], some (Char.ofNat b.toNat)⟩ :: done, none⟩
  else match Sequence.open? b with
    | some s => ⟨done, some s⟩
    | none => ⟨⟨[b], none⟩ :: done, none⟩

/-- A byte that cannot continue the scalar under way breaks it off and is looked at afresh. -/
def step (d : Decoder) (b : UInt8) : Decoder :=
  match d.pending with
  | none => begin d.done b
  | some s =>
    if s.admits b then
      let t := s.extend b
      if t.owed = 0 then ⟨⟨t.bytes, some (Char.ofNat t.value)⟩ :: d.done, none⟩
      else ⟨d.done, some t⟩
    else begin (⟨s.bytes, none⟩ :: d.done) b

def finish (d : Decoder) : List Piece :=
  match d.pending with
  | none => d.done.reverse
  | some s => (⟨s.bytes, none⟩ :: d.done).reverse

end Decoder

def pieces (input : Bytes) : List Piece := (input.foldl Decoder.step Decoder.start).finish

def isValid (input : Bytes) : Bool := (pieces input).all (·.scalar?.isSome)

def validLength (input : Bytes) : Nat :=
  (((pieces input).takeWhile (·.scalar?.isSome)).flatMap (·.bytes)).length

/-- The scalars, with U+FFFD for each broken piece. -/
def scalars (input : Bytes) : List Char := (pieces input).map (·.scalar?.getD '\ufffd')

/-- The text, with U+FFFD for each broken piece. -/
def repair (input : Bytes) : String := String.ofList (scalars input)

end ParitySplit.Utf8
