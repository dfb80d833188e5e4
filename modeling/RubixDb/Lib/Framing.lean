import Mathlib

/-!
# Checksummed, length-prefixed frames

A framed log is a byte string made of frames `length ‖ checksum ‖ body`, both
integers four bytes little-endian. `frameHead` looks at the front of what is left to
read and says what is there: an intact body, or in which way the bytes fall short of
one. The checksum is a parameter.

Only two facts are needed by a reader of such a log. `frameHead_frame`: an intact
frame is recognised whatever follows it. `frameHead_torn`: a frame cut short anywhere
is never mistaken for an intact one, nor for damage in the middle of the file.
-/

namespace Lib

open List

/-! ## Little-endian integers -/

variable {n : Nat} {bs rest : List UInt8}

/-- `n` in `width` bytes, least significant first. -/
def leBytes : Nat → Nat → List UInt8
  | 0, _ => []
  | width + 1, n => UInt8.ofNat (n % 256) :: leBytes width (n / 256)

/-- The number a little-endian byte string denotes. -/
def leNat : List UInt8 → Nat
  | [] => 0
  | b :: bs => b.toNat + 256 * leNat bs

@[simp] theorem length_leBytes (width n : Nat) : (leBytes width n).length = width := by
  induction width generalizing n with
  | zero => rfl
  | succ width ih => simp [leBytes, ih]

theorem leNat_leBytes {width n : Nat} (h : n < 256 ^ width) : leNat (leBytes width n) = n := by
  induction width generalizing n with
  | zero => simp at h; simp [leBytes, leNat, h]
  | succ width ih =>
    have hdiv : n / 256 < 256 ^ width := by
      rw [Nat.div_lt_iff_lt_mul (by decide)]
      simpa [Nat.pow_succ] using h
    have hmod : (UInt8.ofNat (n % 256)).toNat = n % 256 := by
      simp [UInt8.toNat_ofNat']
    simp only [leBytes, leNat, ih hdiv, hmod]
    omega

theorem leBytes_leNat (bs : List UInt8) : leBytes bs.length (leNat bs) = bs := by
  induction bs with
  | nil => rfl
  | cons b bs ih =>
    have hb : b.toNat < 256 := b.toNat_lt
    have hmod : (b.toNat + 256 * leNat bs) % 256 = b.toNat := by omega
    have hdiv : (b.toNat + 256 * leNat bs) / 256 = leNat bs := by omega
    rw [length_cons, leNat, leBytes, hmod, hdiv, ih, UInt8.ofNat_toNat]

theorem leNat_lt (bs : List UInt8) : leNat bs < 256 ^ bs.length := by
  induction bs with
  | nil => decide
  | cons b bs ih =>
    have hb : b.toNat < 256 := b.toNat_lt
    rw [length_cons, leNat]
    omega

theorem leNat_eq_zero_of_all_zero (h : ∀ b ∈ bs, b = 0) : leNat bs = 0 := by
  induction bs with
  | nil => rfl
  | cons b bs ih =>
    have hb := h b (by simp)
    rw [leNat, ih fun x hx => h x (mem_cons_of_mem _ hx), hb]
    rfl

theorem leNat_append (as bs : List UInt8) :
    leNat (as ++ bs) = leNat as + 256 ^ as.length * leNat bs := by
  induction as with
  | nil => simp [leNat]
  | cons a as ih =>
    rw [cons_append, leNat, leNat, ih, length_cons]
    ring

/-! ## Frames -/

variable (crc : List UInt8 → UInt32)

/-- `length ‖ checksum ‖ body`. -/
def frame (body : List UInt8) : List UInt8 :=
  leBytes 4 body.length ++ (leBytes 4 (crc body).toNat ++ body)

/-- The body length the header at the front of `bs` announces. -/
def announced (bs : List UInt8) : Nat := leNat (bs.take 4)

/-- What the front of the remaining bytes is. -/
inductive FrameHead where
  /-- Nothing left. -/
  | done
  /-- Fewer bytes than a header. -/
  | shortHeader
  /-- Nothing but zero bytes up to the end. -/
  | zeroTail
  /-- The header announces a body longer than any that is written. -/
  | oversized (len : Nat)
  /-- The body ends before its announced length. -/
  | shortBody (len : Nat)
  /-- The body is there but does not match its checksum. -/
  | badCrc (len : Nat)
  /-- An intact body and what follows it. -/
  | intact (body rest : List UInt8)
deriving DecidableEq, Repr

/-- Classify the front of `bs`, in the order a reader checks it. -/
def frameHead (maxLen : Nat) (bs : List UInt8) : FrameHead :=
  let len := leNat (bs.take 4)
  let stored := leNat ((bs.drop 4).take 4)
  let after := bs.drop 8
  if bs = [] then .done
  else if bs.length < 8 then .shortHeader
  else if ∀ b ∈ bs, b = 0 then .zeroTail
  else if maxLen < len then .oversized len
  else if after.length < len then .shortBody len
  else if (crc (after.take len)).toNat ≠ stored then .badCrc len
  else .intact (after.take len) (after.drop len)

/-- No frame that checks out and decodes starts anywhere in `bs`. The search gives up,
answering no, when it has checksummed more than `budget` bytes. -/
def noFrameIn (decodes : List UInt8 → Bool) (maxLen : Nat) :
    Option Nat → List UInt8 → Bool
  | _, [] => true
  | budget, b :: bs =>
    let tail := b :: bs
    let len := leNat (tail.take 4)
    if tail.length ≤ 8 then true
    else if 0 < len ∧ len ≤ maxLen ∧ 8 + len ≤ tail.length then
      if budget.any (· < len) then false
      else if (crc ((tail.drop 8).take len)).toNat = leNat ((tail.drop 4).take 4) ∧
          decodes ((tail.drop 8).take len) then false
      else noFrameIn decodes maxLen (budget.map (· - len)) bs
    else noFrameIn decodes maxLen budget bs

/-- The bytes `tail` from `pos` to the end of the file look like one frame whose first
512-byte sector was never written: zeros up to the sector boundary and no readable frame
behind them. -/
def lostFirstSector (decodes : List UInt8 → Bool) (maxLen : Nat) (budget : Option Nat)
    (pos : Nat) (tail : List UInt8) : Bool :=
  let hole := (pos / 512 + 1) * 512 - pos
  decide (tail.length ≤ 8 + maxLen) && decide (hole < tail.length) &&
    (tail.take hole).all (· == 0) && noFrameIn crc decodes maxLen budget (tail.drop hole)

@[simp] theorem length_frame (body : List UInt8) : (frame crc body).length = 8 + body.length := by
  simp [frame]; omega

variable {crc}

section Parsing

variable {maxLen : Nat} {body : List UInt8}

theorem take_four_frame (body rest : List UInt8) :
    (frame crc body ++ rest).take 4 = leBytes 4 body.length := by
  exact take_left' (length_leBytes 4 _)

/-- A header announces its body's length. -/
theorem leNat_length_field (hlt : body.length < 2 ^ 32) (rest : List UInt8) :
    leNat ((frame crc body ++ rest).take 4) = body.length := by
  rw [take_four_frame]
  exact leNat_leBytes (by simpa using hlt)

theorem leNat_crc_field (body rest : List UInt8) :
    leNat (((frame crc body ++ rest).drop 4).take 4) = (crc body).toNat := by
  have hdrop : (frame crc body ++ rest).drop 4 =
      leBytes 4 (crc body).toNat ++ (body ++ rest) := by
    exact drop_left' (length_leBytes 4 _)
  rw [hdrop, take_left' (length_leBytes 4 _)]
  exact leNat_leBytes (by simpa using (crc body).toNat_lt)

theorem drop_eight_frame (body rest : List UInt8) :
    (frame crc body ++ rest).drop 8 = body ++ rest := by
  rw [frame, ← append_assoc, append_assoc]
  exact drop_left' (by simp)

/-- A frame with a body is not all zeros: its length field is not. -/
theorem frame_not_zero (hpos : 0 < body.length) (hlt : body.length < 2 ^ 32)
    (hpre : bs.take 4 = (frame crc body).take 4) : ¬ ∀ b ∈ bs, b = 0 := by
  intro hz
  have hlen : leNat ((frame crc body ++ []).take 4) = body.length := leNat_length_field hlt []
  rw [append_nil, ← hpre,
    leNat_eq_zero_of_all_zero fun b hb => hz b (take_subset _ _ hb)] at hlen
  omega

/-- **An intact frame is read back,** whatever follows it. -/
theorem frameHead_frame (hpos : 0 < body.length) (hmax : body.length ≤ maxLen)
    (hlt : body.length < 2 ^ 32) (rest : List UInt8) :
    frameHead crc maxLen (frame crc body ++ rest) = .intact body rest := by
  have hzero : ¬ ∀ b ∈ frame crc body ++ rest, b = 0 := by
    refine frame_not_zero hpos hlt (?_ : _ = (frame crc body).take 4)
    rw [take_append_of_le_length (by simp; omega)]
  unfold frameHead
  simp only [leNat_length_field hlt, leNat_crc_field, drop_eight_frame]
  rw [if_neg (by simp [← length_eq_zero_iff]), if_neg (by simp; omega), if_neg hzero,
    if_neg (by omega), if_neg (by simp)]
  simp

@[simp] theorem frameHead_nil : frameHead crc maxLen [] = .done := rfl

theorem frameHead_short (hne : bs ≠ []) (h : bs.length < 8) :
    frameHead crc maxLen bs = .shortHeader := by
  unfold frameHead
  rw [if_neg hne, if_pos h]

theorem frameHead_zero (h8 : 8 ≤ bs.length) (h : ∀ b ∈ bs, b = 0) :
    frameHead crc maxLen bs = .zeroTail := by
  have hne : bs ≠ [] := by
    rintro rfl
    simp at h8
  unfold frameHead
  rw [if_neg hne, if_neg (by omega), if_pos h]

/-- A header that is there and says something. -/
theorem frameHead_long (h8 : 8 ≤ bs.length) (hnz : ¬ ∀ b ∈ bs, b = 0) :
    frameHead crc maxLen bs =
      if maxLen < announced bs then .oversized (announced bs)
      else if bs.length < 8 + announced bs then .shortBody (announced bs)
      else if (crc ((bs.drop 8).take (announced bs))).toNat ≠ leNat ((bs.drop 4).take 4) then
        .badCrc (announced bs)
      else .intact ((bs.drop 8).take (announced bs)) ((bs.drop 8).drop (announced bs)) := by
  have hne : bs ≠ [] := by
    rintro rfl
    simp at h8
  have hbody : (bs.drop 8).length < leNat (bs.take 4) ↔ bs.length < 8 + leNat (bs.take 4) := by
    rw [length_drop]
    omega
  unfold frameHead announced
  rw [if_neg hne, if_neg (by omega), if_neg hnz]
  simp only [hbody]

theorem eq_nil_of_frameHead_done (h : frameHead crc maxLen bs = .done) : bs = [] := by
  by_contra hne
  unfold frameHead at h
  rw [if_neg hne] at h
  split_ifs at h

/-- **What reads as intact is a frame.** -/
theorem frameHead_intact (h : frameHead crc maxLen bs = .intact body rest) :
    bs = frame crc body ++ rest := by
  unfold frameHead at h
  dsimp only at h
  split at h; · cases h
  split at h; · cases h
  split at h; · cases h
  split at h; · cases h
  split at h; · cases h
  split at h; · cases h
  rename_i _ h8 _ _ hbody hcrc
  obtain ⟨rfl, rfl⟩ := FrameHead.intact.inj h
  -- the two header fields are the bytes they were read from
  have hlen : ((bs.drop 8).take (leNat (bs.take 4))).length = leNat (bs.take 4) := by
    rw [length_take]
    omega
  have hfield : leBytes 4 (leNat (bs.take 4)) = bs.take 4 := by
    have := leBytes_leNat (bs.take 4)
    rwa [length_take, Nat.min_eq_left (by omega)] at this
  have hstored : leBytes 4 (leNat ((bs.drop 4).take 4)) = (bs.drop 4).take 4 := by
    have := leBytes_leNat ((bs.drop 4).take 4)
    rwa [length_take, length_drop, Nat.min_eq_left (by omega)] at this
  rw [frame, hlen, hfield, not_not.mp hcrc, hstored, append_assoc, append_assoc,
    take_append_drop]
  have hrest : (bs.drop 4).drop 4 = bs.drop 8 := by rw [drop_drop]
  rw [← hrest, take_append_drop, take_append_drop]

/-- **A frame cut short** reads as the end, a short header or a short body. -/
theorem frameHead_torn (hpos : 0 < body.length) (hmax : body.length ≤ maxLen)
    (hlt : body.length < 2 ^ 32) (hn : n < (frame crc body).length) :
    frameHead crc maxLen ((frame crc body).take n) =
      if n = 0 then .done else if n < 8 then .shortHeader else .shortBody body.length := by
  have hlen : ((frame crc body).take n).length = n := by
    rw [length_take]; omega
  unfold frameHead
  by_cases h0 : n = 0
  · simp [h0]
  · rw [if_neg h0, if_neg (by rw [← length_eq_zero_iff]; omega)]
    by_cases h8 : n < 8
    · rw [if_pos h8, if_pos (by omega)]
    · have hpre : ((frame crc body).take n).take 4 = (frame crc body).take 4 := by
        rw [take_take]; congr 1; omega
      have hl : leNat (((frame crc body).take n).take 4) = body.length := by
        rw [hpre, ← append_nil (frame crc body)]
        exact leNat_length_field hlt []
      rw [length_frame] at hn
      simp only [hl]
      rw [if_neg h8, if_neg (by omega), if_neg (frame_not_zero hpos hlt hpre),
        if_neg (by omega), if_pos (by rw [length_drop]; omega)]

end Parsing

end Lib
