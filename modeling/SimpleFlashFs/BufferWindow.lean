import SimpleFlashFs.LineReader

namespace SimpleFlashFs

open Lib

namespace FileBuffer

def truncate (b : FileBuffer) (newSize : ℕ) : Bool × FileBuffer :=
  let r := b.discardBuffer
  if ¬ r.1 then (false, r.2)
  else
    let f := r.2.file.truncate newSize
    (f.1, { r.2 with file := f.2 })

inductive BufferOp
  | readSpan (size : ℕ)
  | read (size : ℕ)
  | write (data : List UInt8)
  | seek (p : ℕ)
  | truncate (newSize : ℕ)
  | getLine (capacity left : ℕ)
  | flush
deriving DecidableEq, Repr

-- get_line leaves the buffer behind when it throws, and each round of its loop is one value of left
def applyBuffer (b : FileBuffer) : BufferOp → Except Fault FileBuffer
  | .readSpan size => (b.readSpan size).map (·.2)
  | .read size => (b.read size).map (·.2)
  | .write data => (b.write data).map (·.2)
  | .seek p => .ok (b.seek p).2
  | .truncate newSize => .ok (b.truncate newSize).2
  | .getLine capacity left =>
    let r := b.getLine capacity left
    if r.1 = .error .undefined then .error .undefined else .ok r.2
  | .flush => .ok b.flush.2

-- buffer.size() and pos + 1 where write subtracts them
def capacityOperands (b : FileBuffer) (data : List UInt8) : Option (ℕ × ℕ) :=
  if data.length > b.buffer.length then none
  else
    let r := if b.currentSize ≠ 0 ∧ ¬ b.currentBufferModified ∧ b.file.append then b.discardBuffer else (true, b)
    if ¬ r.1 then none
    else if r.2.currentSize ≠ 0 then some (r.2.buffer.length, r.2.pos + 1)
    else none

def BufferOp.NoWrap (b : FileBuffer) : BufferOp → Prop
  | .write data => ∀ x ∈ b.capacityOperands data, x.2 ≤ x.1
  | _ => True

-- current_buffer is a part of a buffer of n bytes, the cursor a place in it
structure Window (n : ℕ) (b : FileBuffer) : Prop where
  length : b.buffer.length = n
  current_le : b.currentSize ≤ n
  pos_le : b.currentSize ≠ 0 → b.pos ≤ b.currentSize

-- a write that finds bytes in current_buffer finds room behind the cursor
def BufferOp.Fits (b : FileBuffer) : BufferOp → Prop
  | .write data => data.length ≤ b.buffer.length → b.currentSize ≠ 0 →
      b.currentBufferModified = true ∨ b.file.append = false → b.pos < b.buffer.length
  | _ => True

section Step

variable {b : FileBuffer} {n : ℕ}

-- what discard_buffer leaves
structure Emptied (b u : FileBuffer) : Prop where
  buffer : u.buffer = b.buffer
  current : u.currentSize = 0

theorem Emptied.window {u : FileBuffer} (h : Emptied b u) (hl : b.buffer.length = n) : u.Window n :=
  ⟨by rw [h.buffer, hl], by rw [h.current]; exact Nat.zero_le _, fun hc => absurd h.current hc⟩

theorem Window.current_le_length (hw : b.Window n) : b.currentSize ≤ b.buffer.length := hw.current_le.trans_eq hw.length.symm

theorem flushBuffer_true (hc : b.currentSize ≤ b.buffer.length) : b.flushBuffer.1 = true := by
  have hlen : b.currentBuffer.length = b.currentSize := by
    rw [currentBuffer, List.length_take]
    omega
  unfold flushBuffer
  split
  · simp [ByteFile.write, hlen]
  · rfl

theorem flushBuffer_same (b : FileBuffer) : b.flushBuffer.2.buffer = b.buffer ∧
    b.flushBuffer.2.currentSize = b.currentSize ∧ b.flushBuffer.2.pos = b.pos := by
  unfold flushBuffer
  split
  · dsimp only
    split <;> exact ⟨rfl, rfl, rfl⟩
  · exact ⟨rfl, rfl, rfl⟩

theorem discardBuffer_emptied (hc : b.currentSize ≤ b.buffer.length) :
    ∃ u, b.discardBuffer = (true, u) ∧ Emptied b u := by
  rw [discardBuffer, flushBuffer_true hc]
  exact ⟨_, rfl, (flushBuffer_same b).1, rfl⟩

theorem readSome_window (h0 : b.currentSize = 0) (hl : b.buffer.length = n) (size : ℕ) {k : ℕ} (hk : k ≤ n) :
    (b.readSome size k).2.Window n := by
  have hbytes : (b.file.read k).1.length ≤ k := by
    simp only [ByteFile.read, slice_length]
    omega
  have hlen : (overwrite b.buffer 0 (b.file.read k).1).length = n := by
    rw [overwrite_length (by omega), hl]
  unfold readSome
  by_cases hz : k = 0
  · rw [if_pos hz]
    exact ⟨hl, h0.trans_le (Nat.zero_le _), fun h => absurd h0 h⟩
  · rw [if_neg hz]
    dsimp only
    by_cases hr : (b.file.read k).1.length ≠ k
    · rw [if_pos hr]
      obtain ⟨u, hd, hu⟩ := discardBuffer_emptied (b := { b with
        currentBufferStart := b.file.pos, currentSize := k, buffer := overwrite b.buffer 0 (b.file.read k).1,
        file := (b.file.read k).2 }) (hk.trans_eq hlen.symm)
      rw [hd]
      exact hu.window hlen
    · rw [if_neg hr]
      refine ⟨hlen, hk, fun _ => ?_⟩
      dsimp only
      split <;> omega

theorem readToBuffer_window (h0 : b.currentSize = 0) (hl : b.buffer.length = n) (size : ℕ) :
    (b.readToBuffer size).2.Window n := by
  rw [readToBuffer_eq_readSome rfl rfl hl]
  apply readSome_window h0 hl
  exact Nat.min_le_right _ _

theorem refill_window (h0 : b.currentSize = 0) (hl : b.buffer.length = n) (size : ℕ) : (b.refill size).2.Window n := by
  have hw := readToBuffer_window h0 hl size
  rw [refill]
  generalize b.readToBuffer size = r at hw ⊢
  obtain ⟨full, u⟩ := r
  cases full <;> exact hw

theorem readSpan_window (hw : b.Window n) (size : ℕ) : ∃ r, b.readSpan size = .ok r ∧ r.2.Window n := by
  unfold readSpan
  by_cases hbig : size > b.buffer.length
  · rw [if_pos hbig]
    exact ⟨_, rfl, hw⟩
  rw [if_neg hbig]
  by_cases hin : b.currentSize ≠ 0 ∧ b.pos + size < b.currentSize
  · rw [if_pos hin]
    exact ⟨_, rfl, hw.length, hw.current_le, fun _ => hin.2.le⟩
  rw [if_neg hin]
  by_cases hend : b.currentSize ≠ 0 ∧ b.currentBufferStart + b.currentSize ≥ b.fileSize
  · have hp := hw.pos_le hend.1
    rw [if_pos hend, if_neg (by omega)]
    refine ⟨_, rfl, hw.length, hw.current_le, fun _ => ?_⟩
    dsimp only
    omega
  rw [if_neg hend]
  by_cases hc : b.currentSize ≠ 0
  · obtain ⟨u, hd, hu⟩ := discardBuffer_emptied hw.current_le_length
    rw [if_pos hc, hd]
    dsimp only
    rw [if_neg (by simp)]
    refine ⟨_, rfl, ?_⟩
    apply refill_window
    · exact hu.current
    · exact (congrArg List.length hu.buffer).trans hw.length
  · rw [if_neg hc]
    exact ⟨_, rfl, refill_window (not_not.mp hc) hw.length size⟩

theorem read_window (hw : b.Window n) (size : ℕ) : ∃ r, b.read size = .ok r ∧ r.2.Window n := by
  unfold read
  split
  · obtain ⟨u, hd, hu⟩ := discardBuffer_emptied hw.current_le_length
    have hu := hu.window hw.length
    rw [hd]
    dsimp only
    rw [if_neg (by simp)]
    exact ⟨_, rfl, hu.length, hu.current_le, hu.pos_le⟩
  · exact readSpan_window hw size

theorem seek_window (hw : b.Window n) (p : ℕ) : (b.seek p).2.Window n := by
  unfold seek
  split
  · next hin =>
    refine ⟨hw.length, hw.current_le, fun _ => ?_⟩
    dsimp only
    omega
  · split
    · exact hw
    · obtain ⟨u, hd, hu⟩ := discardBuffer_emptied hw.current_le_length
      have hu := hu.window hw.length
      rw [hd]
      exact ⟨hu.length, hu.current_le, hu.pos_le⟩

theorem truncate_window (hw : b.Window n) (newSize : ℕ) : (b.truncate newSize).2.Window n := by
  obtain ⟨u, hd, hu⟩ := discardBuffer_emptied hw.current_le_length
  have hu := hu.window hw.length
  rw [truncate, hd]
  exact ⟨hu.length, hu.current_le, hu.pos_le⟩

theorem flush_window (hw : b.Window n) : b.flush.2.Window n := by
  obtain ⟨h1, h2, h3⟩ := flushBuffer_same b
  exact ⟨by rw [flush, h1, hw.length], by rw [flush, h2]; exact hw.current_le, by rw [flush, h2, h3]; exact hw.pos_le⟩

theorem getLineLoop_window (capacity left : ℕ) (ret : List UInt8) (hw : b.Window n) :
    (getLineLoop capacity left ret b).1 ≠ .error .undefined ∧ (getLineLoop capacity left ret b).2.Window n := by
  induction left generalizing ret b with
  | zero =>
    rw [getLineLoop]
    exact ⟨by simp, hw⟩
  | succ left ih =>
    rw [getLineLoop]
    generalize (if capacity > 0 then min capacity b.buffer.length else b.buffer.length) = m
    split
    · exact ⟨by simp, hw⟩
    dsimp only
    split
    · exact ⟨by simp, hw⟩
    obtain ⟨⟨bytes, u⟩, hr, hu⟩ := readSpan_window hw m
    rw [hr]
    dsimp only at hu ⊢
    split
    · exact ⟨by simp, hu⟩
    split
    · exact ⟨by simp, hu⟩
    split
    · exact ⟨by simp, seek_window hu _⟩
    · exact ih _ hu

theorem writeEmpty_window (hl : b.buffer.length = n) {data : List UInt8} (hd : data.length ≤ n) :
    (b.writeEmpty data).2.Window n := by
  refine ⟨?_, hd, fun _ => le_rfl⟩
  rw [writeEmpty]
  exact (overwrite_length (by omega)).trans hl

-- with room behind the cursor the test does not wrap
theorem writeCurrent_window (hn : n < addressSpace) (hw : b.Window n) (hp : b.pos < n)
    {data : List UInt8} (hd : data.length ≤ n) : ∃ r, b.writeCurrent data = .ok r ∧ r.2.Window n := by
  have hl := hw.length
  have hroom : subU64 b.buffer.length (b.pos + 1) = n - (b.pos + 1) := by
    rw [hl, subU64_eq (by omega) hn]
  have hlen : b.pos + data.length ≤ n → (overwrite b.buffer b.pos data).length = n := by
    intro h
    rw [overwrite_length (by omega), hl]
  unfold writeCurrent
  rw [hroom]
  dsimp only
  rw [if_neg (by omega)]
  by_cases hg : n - (b.pos + 1) > data.length
  · rw [if_pos hg, if_pos le_rfl]
    exact ⟨_, rfl, hlen (by omega), by dsimp only; omega, fun _ => le_rfl⟩
  · have hcur := hw.current_le
    rw [if_neg hg]
    by_cases hfit : b.pos + data.length ≤ b.currentSize
    · rw [if_pos hfit]
      exact ⟨_, rfl, hlen (by omega), hcur, fun _ => hfit⟩
    · obtain ⟨u, hu, he⟩ := discardBuffer_emptied hw.current_le_length
      have hwu := he.window hw.length
      rw [if_neg hfit, hu]
      dsimp only
      rw [if_neg (by simp)]
      split
      · exact ⟨_, rfl, hwu.length, hwu.current_le, hwu.pos_le⟩
      · refine ⟨_, rfl, ?_⟩
        apply writeEmpty_window
        · exact hwu.length
        · exact hd

theorem fits_of_noWrap {op : BufferOp} (h : op.NoWrap b) : op.Fits b := by
  cases op with
  | write data =>
    intro hd hc hm
    have hstay : ¬ (b.currentSize ≠ 0 ∧ ¬ b.currentBufferModified ∧ b.file.append) := by
      rintro ⟨-, h1, h2⟩
      rcases hm with hm | hm
      · exact h1 hm
      · exact absurd h2 (by rw [hm]; decide)
    have hx : b.capacityOperands data = some (b.buffer.length, b.pos + 1) := by
      rw [capacityOperands, if_neg (by omega), if_neg hstay]
      dsimp only
      rw [if_neg (by simp), if_pos hc]
    exact h _ hx
  | _ => trivial

theorem noWrap_of_fits (hw : b.Window n) {op : BufferOp} (h : op.Fits b) : op.NoWrap b := by
  cases op with
  | write data =>
    intro x hx
    unfold capacityOperands at hx
    by_cases hbig : data.length > b.buffer.length
    · rw [if_pos hbig] at hx
      cases hx
    · rw [if_neg hbig] at hx
      by_cases ha : b.currentSize ≠ 0 ∧ ¬ b.currentBufferModified ∧ b.file.append
      · obtain ⟨u, hu, he⟩ := discardBuffer_emptied hw.current_le_length
        rw [if_pos ha, hu] at hx
        dsimp only at hx
        rw [if_neg (by simp), if_neg (by simp [he.current])] at hx
        cases hx
      · rw [if_neg ha] at hx
        dsimp only at hx
        rw [if_neg (by simp)] at hx
        by_cases hc : b.currentSize ≠ 0
        · rw [if_pos hc] at hx
          rw [← Option.some_inj.mp hx]
          apply h (by omega) hc
          by_cases hm : b.currentBufferModified = true
          · exact Or.inl hm
          · right
            by_contra hf
            exact ha ⟨hc, hm, by simpa using hf⟩
        · rw [if_neg hc] at hx
          cases hx
  | _ => trivial

theorem write_window (hn : n < addressSpace) (hw : b.Window n) {data : List UInt8} (h : (BufferOp.write data).Fits b) :
    ∃ r, b.write data = .ok r ∧ r.2.Window n := by
  unfold write
  by_cases hbig : data.length > b.buffer.length
  · obtain ⟨u, hu, he⟩ := discardBuffer_emptied hw.current_le_length
    have hwu := he.window hw.length
    rw [if_pos hbig, hu]
    dsimp only
    rw [if_neg (by simp)]
    split
    · exact ⟨_, rfl, hwu.length, hwu.current_le, hwu.pos_le⟩
    · exact ⟨_, rfl, hwu.length, hwu.current_le, hwu.pos_le⟩
  · have hd : data.length ≤ n := by
      rw [← hw.length]
      omega
    rw [if_neg hbig]
    by_cases ha : b.currentSize ≠ 0 ∧ ¬ b.currentBufferModified ∧ b.file.append
    · obtain ⟨u, hu, he⟩ := discardBuffer_emptied hw.current_le_length
      rw [if_pos ha, hu]
      dsimp only
      rw [if_neg (by simp), if_neg (by simp [he.current])]
      exact ⟨_, rfl, writeEmpty_window (he.window hw.length).length hd⟩
    · rw [if_neg ha]
      dsimp only
      rw [if_neg (by simp)]
      by_cases hc : b.currentSize ≠ 0
      · have hp := noWrap_of_fits hw h (b.buffer.length, b.pos + 1) (by
          rw [capacityOperands, if_neg hbig, if_neg ha]
          dsimp only
          rw [if_neg (by simp), if_pos hc]
          rfl)
        rw [if_pos hc]
        apply writeCurrent_window hn hw _ hd
        rw [← hw.length]
        exact hp
      · rw [if_neg hc]
        exact ⟨_, rfl, writeEmpty_window hw.length hd⟩

theorem applyBuffer_window (hn : n < addressSpace) (hw : b.Window n) {op : BufferOp} (h : op.Fits b) :
    ∃ u, b.applyBuffer op = .ok u ∧ u.Window n := by
  cases op with
  | readSpan size =>
    obtain ⟨r, hr, hu⟩ := readSpan_window hw size
    exact ⟨r.2, by rw [applyBuffer, hr]; rfl, hu⟩
  | read size =>
    obtain ⟨r, hr, hu⟩ := read_window hw size
    exact ⟨r.2, by rw [applyBuffer, hr]; rfl, hu⟩
  | write data =>
    obtain ⟨r, hr, hu⟩ := write_window hn hw h
    exact ⟨r.2, by rw [applyBuffer, hr]; rfl, hu⟩
  | seek p => exact ⟨_, rfl, seek_window hw p⟩
  | truncate newSize => exact ⟨_, rfl, truncate_window hw newSize⟩
  | getLine capacity left =>
    obtain ⟨h1, h2⟩ := getLineLoop_window capacity left [] hw
    refine ⟨(b.getLine capacity left).2, ?_, h2⟩
    rw [applyBuffer]
    exact if_neg h1
  | flush => exact ⟨_, rfl, flush_window hw⟩

end Step

section Run

-- every access of the run stays inside of the buffer and no capacity test wraps
def BoundedRun (n : ℕ) : FileBuffer → List BufferOp → Prop
  | b, [] => b.Window n
  | b, op :: ops => b.Window n ∧ op.NoWrap b ∧ ∃ u, b.applyBuffer op = .ok u ∧ BoundedRun n u ops

def FitsWhile : FileBuffer → List BufferOp → Prop
  | _, [] => True
  | b, op :: ops => op.Fits b ∧ ∀ u, b.applyBuffer op = .ok u → FitsWhile u ops

theorem boundedRun_iff_of_window {b : FileBuffer} {n : ℕ} (hn : n < addressSpace) (hw : b.Window n)
    (ops : List BufferOp) : b.BoundedRun n ops ↔ b.FitsWhile ops := by
  induction ops generalizing b with
  | nil => exact ⟨fun _ => trivial, fun _ => hw⟩
  | cons op ops ih =>
    constructor
    · rintro ⟨-, hwrap, u, hu, hrun⟩
      have hfits := fits_of_noWrap hwrap
      obtain ⟨v, hv, hwv⟩ := applyBuffer_window hn hw hfits
      refine ⟨hfits, fun w hx => ?_⟩
      obtain rfl := Except.ok.inj (hu.symm.trans hx)
      obtain rfl := Except.ok.inj (hu.symm.trans hv)
      exact (ih hwv).mp hrun
    · rintro ⟨hfits, hrest⟩
      obtain ⟨u, hu, hwu⟩ := applyBuffer_window hn hw hfits
      exact ⟨hw, noWrap_of_fits hw hfits, u, hu, (ih hwu).mpr (hrest u hu)⟩

theorem boundedRun_iff (f : ByteFile) (buffer : List UInt8) (ops : List BufferOp) (hb : buffer.length < addressSpace) :
    BoundedRun buffer.length { file := f, buffer := buffer } ops ↔ FitsWhile { file := f, buffer := buffer } ops :=
  boundedRun_iff_of_window hb ⟨rfl, Nat.zero_le _, fun h => absurd rfl h⟩ ops

def afterExactFit : FileBuffer :=
  { file := { content := [] }, buffer := [1, 2, 3, 4], currentSize := 4, currentBufferModified := true, pos := 4 }

-- a write that fills the buffer leaves the cursor behind its last byte
theorem boundedRun_exactFit :
    ¬ BoundedRun 4 { file := { content := [] }, buffer := [0, 0, 0, 0] } [.write [1, 2, 3, 4], .write [5]] ∧
      applyBuffer { file := { content := [] }, buffer := [0, 0, 0, 0] } (.write [1, 2, 3, 4]) = .ok afterExactFit ∧
      afterExactFit.applyBuffer (.write [5]) = .error .undefined := by
  refine ⟨?_, by decide, by decide⟩
  rintro ⟨-, -, u, hu, hrun⟩
  have hfull : applyBuffer { file := { content := [] }, buffer := [0, 0, 0, 0] } (.write [1, 2, 3, 4]) =
      .ok afterExactFit := by decide
  obtain rfl := Except.ok.inj (hu.symm.trans hfull)
  have hle : 5 ≤ 4 := hrun.2.1 (4, 5) rfl
  omega

-- the second write goes into the window of the first one
theorem boundedRun_iff_growing :
    BoundedRun 4 { file := { content := [] }, buffer := [0, 0, 0, 0] } [.write [1], .write [2], .getLine 3 9, .flush] := by
  apply (boundedRun_iff { content := [] } [0, 0, 0, 0] _ four_lt_addressSpace).mpr
  have hfirst : applyBuffer { file := { content := [] }, buffer := [0, 0, 0, 0] } (.write [1]) =
      .ok { file := { content := [] }, buffer := [1, 0, 0, 0], currentSize := 1, currentBufferModified := true, pos := 1 } := by
    decide
  refine ⟨fun _ hzero => absurd rfl hzero, fun u hu => ?_⟩
  obtain rfl := Except.ok.inj (hfirst.symm.trans hu)
  exact ⟨fun _ _ _ => by decide, fun _ _ => ⟨trivial, fun _ _ => ⟨trivial, fun _ _ => trivial⟩⟩⟩

end Run

end FileBuffer

end SimpleFlashFs
