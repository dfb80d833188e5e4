import RubixDb.Wal.Format

/-!
# The handle of one segment file

`SegmentIo` of `src/wal/file_io.rs`: the bytes of the file, the length the handle records
and whether it is poisoned. How a write ends, and how each step of the rollback of a failed
one does, is an argument of `append`. A file stays far below `u64::MAX` bytes, so the sum of
the recorded length is not bounded here.
-/

namespace RubixDb

structure SegmentIo where
  file : Bytes
  size : Nat
  poisoned : Bool

namespace SegmentIo

/-- `File::set_len`: what is missing reads as zeros. -/
def setLen (file : Bytes) (len : Nat) : Bytes :=
  file.take len ++ List.replicate (len - file.length) 0

/-- The bytes of `buf` at `offset`. -/
def writeAt (file buf : Bytes) (offset : Nat) : Bytes :=
  setLen file offset ++ buf ++ file.drop (offset + buf.length)

/-- How the rollback of a failed write ends. -/
inductive Rollback where
  | done
  /-- `set_len` fails; nothing is known about the file it leaves. -/
  | setLenFails (left : Bytes)
  | syncFails

/-- How `write_all_at` ends. -/
inductive WriteOutcome where
  | written
  /-- It fails with the first `landed` bytes of the frame in the file. -/
  | fails (landed : Nat) (rollback : Rollback)

inductive AppendError where
  /-- `poisoned_error`: nothing was tried. -/
  | poisoned
  | write
  /-- The write and its rollback failed. -/
  | rollback
deriving DecidableEq, Repr

def new (file : Bytes) (initialSize : Nat) : SegmentIo := ⟨file, initialSize, false⟩

/-- `SegmentIo::append`, which returns the offset of the frame. -/
def append (s : SegmentIo) (frame : Bytes) (out : WriteOutcome) :
    SegmentIo × Except AppendError Nat :=
  if s.poisoned then (s, .error .poisoned)
  else
    match out with
    | .written =>
        ({ s with file := writeAt s.file frame s.size, size := s.size + frame.length }, .ok s.size)
    | .fails landed rollback =>
        let file := writeAt s.file (frame.take landed) s.size
        match rollback with
        | .done => ({ s with file := setLen file s.size }, .error .write)
        | .setLenFails left => ({ s with file := left, poisoned := true }, .error .rollback)
        | .syncFails => ({ s with file := setLen file s.size, poisoned := true }, .error .rollback)

/-- The handle after the calls, and the frames of those that returned an offset. -/
def appends (s : SegmentIo) : List (Bytes × WriteOutcome) → SegmentIo × List Bytes
  | [] => (s, [])
  | (frame, out) :: calls =>
      match s.append frame out with
      | (s, .ok _) => ((appends s calls).1, frame :: (appends s calls).2)
      | (s, .error _) => appends s calls

end SegmentIo

end RubixDb
