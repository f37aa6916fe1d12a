import ParitySplit.Address.Schema
import ParitySplit.Text.Utf8

/-!
The parity of the last hexadecimal digit of a hash picks the shard of its row. A row without a
usable digit is skipped, and a tally counts the skipped rows by reason.
-/

namespace ParitySplit

/-- The two outputs, by the parity of the last digit. -/
inductive Shard where
  | even
  | odd
  deriving DecidableEq, Repr

namespace Shard

def all : List Shard := [even, odd]

def index : Shard → Nat
  | even => 0
  | odd => 1

def fileName : Shard → String
  | even => "shard_0_data.csv"
  | odd => "shard_1_data.csv"

def ofDigit (value : Nat) : Shard := if value % 2 = 0 then even else odd

end Shard

inductive Skip where
  | missingHash
  | invalidHexDigit (last : Char)
  deriving DecidableEq, Repr

def hexDigits : List Char := "0123456789abcdef".toList

def hexValue? (c : Char) : Option Nat := hexDigits.findIdx? (· == c.toLower)

/-- Only the last character of a hash is looked at. -/
def classifyHash (hash : Bytes) : Except Skip Shard :=
  match (Utf8.scalars hash).getLast? with
  | none => .error .missingHash
  | some c =>
    match hexValue? c with
    | some v => .ok (Shard.ofDigit v)
    | none => .error (.invalidHexDigit c)

/-- A row too short to have a hash counts as one whose hash is missing. -/
def classifyRow (fields : List Bytes) : Except Skip Shard :=
  match Schema.hash? fields with
  | none => .error .missingHash
  | some hash => classifyHash hash

structure Tally where
  missingHash : Nat := 0
  invalidHex : Nat := 0
  deriving DecidableEq, Repr

namespace Tally

def add (t : Tally) : Skip → Tally
  | .missingHash => { t with missingHash := t.missingHash + 1 }
  | .invalidHexDigit _ => { t with invalidHex := t.invalidHex + 1 }

def total (t : Tally) : Nat := t.missingHash + t.invalidHex

theorem total_add (t : Tally) (s : Skip) : (t.add s).total = t.total + 1 := by
  cases s <;> simp only [add, total] <;> omega

end Tally

end ParitySplit
