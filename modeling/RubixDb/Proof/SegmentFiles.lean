import RubixDb.Wal.SegmentIo

/-!
# A segment file is the frames it acknowledged

Whatever part of a frame a failed write leaves, and wherever its rollback fails: unless the
handle is poisoned its file is what it was opened with, followed by the frames of the calls
of `append` that returned an offset. A poisoned handle accepts nothing more.
-/

namespace RubixDb.Proof

open SegmentIo (WriteOutcome new writeAt setLen)

variable {s : SegmentIo} {content : Bytes}

/-- The handle knows its file. -/
def HoldsExactly (content : Bytes) (s : SegmentIo) : Prop :=
  s.poisoned = false ∧ s.file = content ∧ s.size = content.length

theorem writeAt_end (file buf : Bytes) : writeAt file buf file.length = file ++ buf := by
  simp [writeAt, setLen]

theorem setLen_append (file buf : Bytes) : setLen (file ++ buf) file.length = file := by
  simp [setLen]

theorem append_poisoned (h : s.poisoned = true) (frame : Bytes)
    (out : WriteOutcome) : s.append frame out = (s, .error .poisoned) := by
  unfold SegmentIo.append
  rw [if_pos h]

/-- A call takes up the whole frame, leaves the file as it was, or poisons the handle. -/
theorem append_holds (h : HoldsExactly content s) (frame : Bytes) (out : WriteOutcome) :
    (∃ offset, (s.append frame out).2 = .ok offset ∧
        HoldsExactly (content ++ frame) (s.append frame out).1) ∨
      ∃ e, (s.append frame out).2 = .error e ∧
        ((s.append frame out).1.poisoned = true ∨ HoldsExactly content (s.append frame out).1) := by
  obtain ⟨hp, rfl, hsize⟩ := h
  unfold SegmentIo.append
  rw [if_neg (by simp [hp]), hsize]
  cases out with
  | written =>
    refine .inl ⟨_, rfl, hp, writeAt_end .., ?_⟩
    rw [List.length_append]
  | fails landed rollback =>
    refine .inr ?_
    dsimp only
    rw [writeAt_end, setLen_append]
    cases rollback with
    | done => exact ⟨_, rfl, .inr ⟨hp, rfl, rfl⟩⟩
    | setLenFails left => exact ⟨_, rfl, .inl rfl⟩
    | syncFails => exact ⟨_, rfl, .inl rfl⟩

theorem appends_poisoned (h : s.poisoned = true)
    (calls : List (Bytes × WriteOutcome)) : s.appends calls = (s, []) := by
  induction calls with
  | nil => rfl
  | cons call calls ih =>
    rw [SegmentIo.appends, append_poisoned h]
    exact ih

theorem appends_holds (h : HoldsExactly content s) (calls : List (Bytes × WriteOutcome)) :
    (s.appends calls).1.poisoned = true ∨
      HoldsExactly (content ++ (s.appends calls).2.flatten) (s.appends calls).1 := by
  induction calls generalizing content s with
  | nil => exact .inr (by simpa [SegmentIo.appends] using h)
  | cons call calls ih =>
    obtain ⟨frame, out⟩ := call
    have hcall := append_holds h frame out
    rw [SegmentIo.appends]
    generalize s.append frame out = r at hcall
    obtain ⟨s, result⟩ := r
    rcases hcall with ⟨offset, rfl, hs⟩ | ⟨e, rfl, hp | hs⟩
    · rw [List.flatten_cons, ← List.append_assoc]
      exact ih hs
    · -- from here on nothing is acknowledged
      dsimp only
      rw [appends_poisoned hp]
      exact .inl hp
    · exact ih hs

/-- **At every point** of every run the handle is poisoned, and then every later call fails
and changes nothing, or its file is what it was opened with and the acknowledged frames
behind it, and the recorded length is that of the file. -/
theorem segment_holds_acknowledged_frames (file : Bytes) (calls : List (Bytes × WriteOutcome)) :
    (((new file file.length).appends calls).1.poisoned = true ∧
        ∀ frame out, ((new file file.length).appends calls).1.append frame out =
          (((new file file.length).appends calls).1, .error .poisoned)) ∨
      (((new file file.length).appends calls).1.file =
          file ++ ((new file file.length).appends calls).2.flatten ∧
        ((new file file.length).appends calls).1.size =
          ((new file file.length).appends calls).1.file.length) := by
  have hnew : HoldsExactly file (new file file.length) := ⟨rfl, rfl, rfl⟩
  rcases appends_holds hnew calls with hp | ⟨-, hfile, hsize⟩
  · exact .inl ⟨hp, append_poisoned hp⟩
  · exact .inr ⟨hfile, by rw [hsize, hfile]⟩

end RubixDb.Proof
