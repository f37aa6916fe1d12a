import ParitySplit.Store.Resolve

/-!
Files opened for reading, as a whole or from an offset on, and files opened for writing at an offset of
their own.
-/

namespace ParitySplit

/-- An open file: where it was opened, which file that was, and the next byte's place. -/
structure Handle where
  location : Location
  stamp : Nat
  offset : Nat
  deriving DecidableEq, Repr

/-- What a file holds once `data` is laid over it from `offset` on. A gap before it fills with zeros. -/
def overlay (old : Array UInt8) (offset : Nat) (data : Array UInt8) : Array UInt8 :=
  old.extract 0 offset ++
    (Array.replicate (offset - old.size) 0 ++ (data ++ old.extract (offset + data.size) old.size))

theorem overlay_size (old data : Array UInt8) : overlay old old.size data = old ++ data := by
  simp [overlay, Array.extract_empty_of_stop_le_start]

namespace Store

/-- The bytes of a file, and the file itself to be read further. A directory can be opened but not read. -/
def read (s : Store) (p : Path) : Except StoreError (Bytes × Handle) :=
  match s.find p with
  | .error e => .error e
  | .ok (_, .directory) => .error .isDirectory
  | .ok (l, .file stamp bytes) => .ok (bytes.toList, ⟨l, stamp, 0⟩)
  | .ok (l, _) => .ok ([], ⟨l, 0, 0⟩)

/-- At most so many of the bytes that an open file now has from the handle's offset on. -/
def readSome (s : Store) (h : Handle) (limit : Nat) : Bytes :=
  match s.get? h.location with
  | some (.file stamp bytes) =>
    if stamp = h.stamp then (bytes.extract h.offset (h.offset + limit)).toList else []
  | _ => []

/-- Opens a file for writing, emptied if it is there and created if not. A dangling link has its target
created. -/
def create (s : Store) (p : Path) : Except StoreError (Store × Handle) :=
  match s.locate .create p with
  | .error e => .error e
  | .ok l =>
    match s.get? l with
    | some .directory => .error .isDirectory
    | some (.file stamp _) => .ok (s.put l (.file stamp #[]), ⟨l, stamp, 0⟩)
    | some _ => .ok (s, ⟨l, 0, 0⟩)
    | none =>
      let stamp := s.stamps + 1
      .ok ({ s with stamps := stamp }.put l (.file stamp #[]), ⟨l, stamp, 0⟩)

/-- Writes at the handle's offset. Only a device refuses, and bytes for a file that was removed go
nowhere. -/
def write (s : Store) (h : Handle) (data : Array UInt8) : Except StoreError (Store × Handle) :=
  let moved := { h with offset := h.offset + data.size }
  if data.size = 0 then .ok (s, h)
  else match s.get? h.location with
    | some .device => .error .noSpace
    | some (.file stamp old) =>
      if stamp = h.stamp then
        .ok (s.put h.location (.file stamp (overlay old h.offset data)), moved)
      else .ok (s, moved)
    | _ => .ok (s, moved)

def writeFile (s : Store) (p : Path) (data : Bytes) : Except StoreError Store :=
  match s.create p with
  | .error e => .error e
  | .ok (t, h) => (t.write h data.toArray).map (·.1)

end Store

end ParitySplit
