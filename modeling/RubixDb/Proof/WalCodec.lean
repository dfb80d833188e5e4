import RubixDb.Lib.Run
import RubixDb.Wal.Recovery

/-!
# What the WAL writes it reads back

The codec of `src/wal/ops.rs`, field by field and then as a whole: the body of an encoded
frame decodes to the record it was made of (`encodeWalFrame_ok`), so the frame is read
back whatever follows it (`readFrame_bytes`).
-/

namespace RubixDb.Proof

open Lib

variable {maxRecordLen : Nat} {bytes written opBody : Bytes} {tag : UInt8}

theorem readLenPrefixed_write (h : writeLenPrefixed maxRecordLen bytes = .ok written)
    (rest : Bytes) : readLenPrefixed (written ++ rest) = .ok (bytes, rest) := by
  unfold writeLenPrefixed checkedU32Len at h
  split at h
  · rename_i hle
    obtain rfl : leBytes 4 bytes.length ++ bytes = written := Except.ok.inj h
    have hlt : bytes.length < 256 ^ 4 := by
      unfold u32Max at hle
      omega
    have htake : ((leBytes 4 bytes.length ++ bytes) ++ rest).take 4 = leBytes 4 bytes.length := by
      exact List.take_left' (length_leBytes 4 _)
    have hdrop : ((leBytes 4 bytes.length ++ bytes) ++ rest).drop 4 = bytes ++ rest := by
      exact List.drop_left' (length_leBytes 4 _)
    unfold readLenPrefixed
    simp only [htake, hdrop, leNat_leBytes hlt]
    rw [if_neg (by simp), if_neg (by simp), List.take_left, List.drop_left]
  · cases h

theorem decodeMember_encode {m : GroupMember} (h : encodeMember maxRecordLen m = .ok written)
    (rest : Bytes) :
    ∃ tag tail, written ++ rest = tag :: tail ∧ decodeMember tag tail = .ok (m, rest) := by
  cases m with
  | put key value =>
    obtain ⟨k, hk, h⟩ := bind_eq_ok.mp h
    obtain ⟨v, hv, h⟩ := bind_eq_ok.mp h
    cases h
    refine ⟨opPut, k ++ (v ++ rest), by simp, ?_⟩
    unfold decodeMember
    rw [readLenPrefixed_write hk, ok_bind]
    dsimp only
    rw [readLenPrefixed_write hv]
    rfl
  | delete key =>
    obtain ⟨k, hk, h⟩ := bind_eq_ok.mp h
    cases h
    refine ⟨opDelete, k ++ rest, by simp, ?_⟩
    unfold decodeMember
    rw [if_pos rfl, readLenPrefixed_write hk]
    rfl

theorem decodeMembers_encode {declared : Nat} (rest : Bytes) {ms : List GroupMember}
    {written : Bytes} (h : encodeMembers maxRecordLen ms = .ok written) :
    decodeMembers declared ms.length (written ++ rest) = .ok (ms, rest) := by
  induction ms generalizing written with
  | nil =>
    cases h
    rfl
  | cons m ms ih =>
    obtain ⟨b, hb, h⟩ := bind_eq_ok.mp h
    obtain ⟨bs, hbs, h⟩ := bind_eq_ok.mp h
    cases h
    obtain ⟨tag, tail, heq, hm⟩ := decodeMember_encode hb (bs ++ rest)
    rw [List.append_assoc, heq, List.length_cons, decodeMembers, hm, ok_bind]
    simp only [ih hbs]
    rfl

/-- The op byte is looked up once; what follows is the op's own. -/
theorem decodeOp_encode {op : WalOp} (hfits : op.Fits)
    (h : encodeOpBody maxRecordLen op = .ok (tag, opBody)) : decodeOp tag opBody = .ok op := by
  cases op with
  | put key value =>
    obtain ⟨k, hk, h⟩ := bind_eq_ok.mp h
    obtain ⟨v, hv, h⟩ := bind_eq_ok.mp h
    obtain ⟨rfl, rfl⟩ := Prod.mk.inj (Except.ok.inj h)
    have hv' : readLenPrefixed v = .ok (value, []) := by simpa using readLenPrefixed_write hv []
    unfold decodeOp
    rw [readLenPrefixed_write hk, ok_bind]
    dsimp only
    rw [hv']
    rfl
  | delete key =>
    obtain ⟨k, hk, h⟩ := bind_eq_ok.mp h
    obtain ⟨rfl, rfl⟩ := Prod.mk.inj (Except.ok.inj h)
    have hk' : readLenPrefixed k = .ok (key, []) := by simpa using readLenPrefixed_write hk []
    unfold decodeOp
    rw [if_pos rfl, hk']
    rfl
  | checkpointMarker n =>
    obtain ⟨rfl, rfl⟩ := Prod.mk.inj (Except.ok.inj h)
    have hn : n < 256 ^ 8 := by
      have : n ≤ u64Max := hfits
      unfold u64Max at this
      omega
    have htake : (leBytes 8 n).take 8 = leBytes 8 n := List.take_of_length_le (by simp)
    unfold decodeOp readU64Le
    rw [if_neg (by decide), if_neg (by decide), if_pos rfl, if_neg (by simp),
      htake, leNat_leBytes hn]
    rfl
  | group members =>
    simp only [encodeOpBody] at h
    split_ifs at h with hcount
    obtain ⟨bs, hbs, h⟩ := bind_eq_ok.mp h
    obtain ⟨rfl, rfl⟩ := Prod.mk.inj (Except.ok.inj h)
    have hlt : members.length < 256 ^ 4 := by
      unfold u32Max at hcount
      omega
    have htake : (leBytes 4 members.length ++ bs).take 4 = leBytes 4 members.length :=
      List.take_left' (length_leBytes 4 _)
    have hdrop : (leBytes 4 members.length ++ bs).drop 4 = bs :=
      List.drop_left' (length_leBytes 4 _)
    have hms : decodeMembers members.length members.length bs = .ok (members, []) := by
      simpa using decodeMembers_encode [] hbs
    unfold decodeOp readU32Le
    rw [if_neg (by decide), if_neg (by decide), if_neg (by decide), if_pos rfl,
      if_neg (by simp), htake, leNat_leBytes hlt, ok_bind, hdrop, hms]
    rfl

theorem decodeWalBody_eq {seq : Nat} (hseq : seq ≤ u64Max) :
    decodeWalBody (leBytes 8 seq ++ tag :: opBody) =
      (decodeOp tag opBody).map (fun op => ⟨seq, op⟩) := by
  have hlt : seq < 256 ^ 8 := by
    unfold u64Max at hseq
    omega
  have htake : (leBytes 8 seq ++ tag :: opBody).take 8 = leBytes 8 seq :=
    List.take_left' (length_leBytes 8 _)
  have hdrop : (leBytes 8 seq ++ tag :: opBody).drop 8 = tag :: opBody :=
    List.drop_left' (length_leBytes 8 _)
  have hdrop9 : (leBytes 8 seq ++ tag :: opBody).drop 9 = opBody := by
    rfl
  unfold decodeWalBody readU64Le
  rw [if_neg (by simp; omega), if_neg (by simp), htake, hdrop, hdrop9, leNat_leBytes hlt,
    List.headD_cons]
  cases decodeOp tag opBody <;> rfl

section Frames

variable {crc : Bytes → UInt32} {r : WalRecord}

/-- **What `encode_wal_frame` produces:** the frame of a body within the limits that
decodes to the record. -/
theorem encodeWalFrame_ok (hfits : r.Fits)
    (h : encodeWalFrame crc r.seq r.op maxRecordLen = .ok bytes) :
    ∃ body, bytes = frame crc body ∧ 9 ≤ body.length ∧ body.length ≤ maxRecordLen ∧
      body.length < 2 ^ 32 ∧ decodeWalBody body = .ok r := by
  obtain ⟨⟨tag, opBody⟩, hop, h⟩ := bind_eq_ok.mp h
  dsimp only at h
  split_ifs at h with hmax
  cases h
  have hlen : (leBytes 8 r.seq ++ tag :: opBody).length = 8 + 1 + opBody.length := by
    simp
    omega
  refine ⟨_, rfl, by omega, by omega, ?_, ?_⟩
  · unfold u32Max at hmax
    omega
  · rw [decodeWalBody_eq hfits.1, decodeOp_encode hfits.2 hop]
    rfl

/-- The frame at the front of `bs`, if there is one that is in range, matches its checksum
and decodes, and what follows it. -/
def readFrame (crc : Bytes → UInt32) (maxRecordLen : Nat) (bs : Bytes) :
    Option (WalRecord × Bytes) :=
  match frameHead crc maxRecordLen bs with
  | .intact body rest => (decodeWalBody body).toOption.map fun r => (r, rest)
  | _ => none

variable (f : WalFrame crc maxRecordLen)

theorem exists_body : ∃ body, f.bytes = frame crc body ∧ 9 ≤ body.length ∧
    body.length ≤ maxRecordLen ∧ body.length < 2 ^ 32 ∧ decodeWalBody body = .ok f.record :=
  encodeWalFrame_ok f.fits f.encoded

theorem length_bytes : 17 ≤ f.bytes.length := by
  obtain ⟨body, hbytes, h9, _⟩ := exists_body f
  rw [hbytes, length_frame]
  omega

/-- **A written frame is read back,** whatever follows it. -/
theorem readFrame_bytes (rest : Bytes) :
    readFrame crc maxRecordLen (f.bytes ++ rest) = some (f.record, rest) := by
  obtain ⟨body, hbytes, h9, hmax, hlt, hdec⟩ := exists_body f
  unfold readFrame
  rw [hbytes, frameHead_frame (by omega) hmax hlt]
  simp [hdec, Except.toOption]

/-- A frame that is read is shorter than what it is read from. -/
theorem readFrame_shrinks {bs rest : Bytes}
    (h : readFrame crc maxRecordLen bs = some (r, rest)) : rest.length + 8 ≤ bs.length := by
  unfold readFrame at h
  split at h
  · rename_i body rest' hhead
    obtain ⟨r', _, heq⟩ := Option.map_eq_some_iff.mp h
    obtain ⟨-, rfl⟩ := Prod.mk.inj heq
    rw [frameHead_intact hhead, List.length_append, length_frame]
    omega
  · cases h

end Frames

end RubixDb.Proof
