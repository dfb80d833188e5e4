import RubixDb.Wal.Format

/-!
# Walking a segment

`src/wal/recovery.rs`: `walk_segment` reads a segment frame by frame and calls the end of
the walk clean, a torn tail (to be cut off) or corruption (to be escalated). All it has
to find the next frame is the length field of the one it stands at.

`bs` are always the bytes from `offset` to the end of the file.
-/

namespace RubixDb

open Lib

/-- What `corruption_detail` reports. -/
inductive WalkFault where
  | oversized (len offset maxRecordLen : Nat)
  | crcMismatch (offset stored computed : Nat)
  | undecodable (offset : Nat) (err : WalError)
deriving DecidableEq, Repr

structure WalkOutcome where
  records : List WalRecord := []
  validEndOffset : Nat
  truncated : Bool := false
  corrupted : Bool := false
  corruptionOffset : Option Nat := none
  corruptionDetail : Option WalkFault := none
deriving DecidableEq, Repr

def lostSectorCrcBudget : Nat := 64 * 1024 * 1024

section Walk

variable (crc : Bytes → UInt32) (maxRecordLen : Nat)

/-- `lost_first_sector_tail`. -/
def lostFirstSectorTail (offset : Nat) (bs : Bytes) : Bool :=
  lostFirstSector crc (fun b => (decodeWalBody b).isOk) maxRecordLen (some lostSectorCrcBudget)
    offset bs

def tornAt (offset : Nat) : WalkOutcome := { validEndOffset := offset, truncated := true }

/-- `classify_failure`. -/
def classifyFailure (offset : Nat) (isTailFrame : Bool) (detail : WalkFault) : WalkOutcome :=
  if isTailFrame then tornAt offset
  else { validEndOffset := offset, corrupted := true, corruptionOffset := some offset
         corruptionDetail := some detail }

def classifyFailureOrLostSector (offset : Nat) (bs : Bytes) (isTailFrame : Bool)
    (detail : WalkFault) : WalkOutcome :=
  if !isTailFrame && lostFirstSectorTail crc maxRecordLen offset bs then tornAt offset
  else classifyFailure offset isTailFrame detail

/-- The loop of `walk_segment`. The end a frame announces cannot overflow: a body that is
all there ends inside the file. -/
def walkLoop : Nat → Nat → Bytes → WalkOutcome
  | 0, offset, _ => { validEndOffset := offset }
  | fuel + 1, offset, bs =>
    match frameHead crc maxRecordLen bs with
    | .done => { validEndOffset := offset }
    | .shortHeader => tornAt offset
    | .zeroTail => tornAt offset
    | .oversized len =>
      -- the length is not trusted to say where the frame ends
      classifyFailureOrLostSector crc maxRecordLen offset bs
        (decide (bs.length = frameHeaderLen)) (.oversized len offset maxRecordLen)
    | .shortBody _ => tornAt offset
    | .badCrc len =>
      classifyFailureOrLostSector crc maxRecordLen offset bs
        (decide (frameHeaderLen + len = bs.length))
        (.crcMismatch offset (leNat ((bs.drop 4).take 4)) (crc ((bs.drop 8).take len)).toNat)
    | .intact body rest =>
      match decodeWalBody body with
      | .ok r =>
        let out := walkLoop fuel (offset + frameHeaderLen + body.length) rest
        { out with records := r :: out.records }
      | .error e =>
        classifyFailureOrLostSector crc maxRecordLen offset bs (decide (rest = []))
          (.undecodable offset e)

def walkSegment (file : Bytes) : WalkOutcome :=
  walkLoop crc maxRecordLen (file.length + 1) segmentHeaderLen (file.drop segmentHeaderLen)

end Walk

end RubixDb
