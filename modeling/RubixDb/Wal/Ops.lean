import RubixDb.Storage.MemTable

/-!
# WAL operations

`src/wal/ops.rs`: what one WAL record carries. A batch is one record: all members
share the record's sequence number.
-/

namespace RubixDb

inductive GroupMember where
  | put (key : Key) (value : Bytes)
  | delete (key : Key)
deriving DecidableEq, Repr

inductive WalOp where
  | put (key : Key) (value : Bytes)
  | delete (key : Key)
  | checkpointMarker (flushedThroughSeq : Nat)
  | group (members : List GroupMember)
deriving DecidableEq, Repr

structure WalRecord where
  seq : Nat
  op : WalOp
deriving DecidableEq, Repr

end RubixDb
