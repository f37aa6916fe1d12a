import ParitySplit.Text.Bytes

/-!
Output goes to a file in blocks. A block takes atoms while they fit whole and is written out when the
next atom does not.
-/

namespace ParitySplit.Table

def blockSize : Nat := 8192

/-- Atoms laid into blocks, `room` bytes of the first one being free: what the block under way takes,
and the blocks opened after it. -/
def blocks : Nat → List Bytes → Bytes × List Bytes
  | _, [] => ([], [])
  | room, a :: atoms =>
    if a.length ≤ room then
      let (first, later) := blocks (room - a.length) atoms
      (a ++ first, later)
    else
      let (first, later) := blocks (blockSize - a.length) atoms
      ([], (a ++ first) :: later)

theorem flatten_blocks (room : Nat) (atoms : List Bytes) :
    (blocks room atoms).1 ++ (blocks room atoms).2.flatten = atoms.flatten := by
  induction atoms generalizing room with
  | nil => rfl
  | cons a atoms ih =>
    simp only [blocks]
    split
    · simpa using ih (room - a.length)
    · simpa using ih (blockSize - a.length)

end ParitySplit.Table
