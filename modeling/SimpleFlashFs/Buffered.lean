import SimpleFlashFs.FileBuffer

namespace SimpleFlashFs

open Lib

-- std::size_t
@[irreducible] def addressSpace : ℕ := 2 ^ 64

namespace FileBuffer

-- the bytes that the file will hold after flush
def contents (b : FileBuffer) : List UInt8 :=
  if b.currentBufferModified then overwrite b.file.content b.currentBufferStart b.currentBuffer
  else b.file.content

structure Sound (b : FileBuffer) : Prop where
  size_lt : b.buffer.length < addressSpace
  current_le : b.currentSize ≤ b.buffer.length
  pos_le : b.pos ≤ b.currentSize
  filePos_le : b.file.pos ≤ b.file.content.length
  notAppend : b.file.append = false
  start_le : b.currentBufferStart ≤ b.file.content.length
  clean : b.currentBufferModified = false → b.currentSize ≠ 0 →
    b.currentBufferStart + b.currentSize ≤ b.file.content.length ∧
      b.currentBuffer = slice b.file.content b.currentBufferStart b.currentSize
  idle : b.currentSize = 0 → b.currentBufferModified = true → b.currentBufferStart = b.file.pos

-- an unbuffered file that went through the same steps
structure Agrees (b : FileBuffer) (f : ByteFile) : Prop where
  content : b.contents = f.content
  pos : b.tellg = f.pos

section Flush

variable {b : FileBuffer}

theorem currentBuffer_length (hs : b.Sound) : b.currentBuffer.length = b.currentSize := by
  have := hs.current_le
  rw [currentBuffer, List.length_take]
  omega

theorem contents_eq (hs : b.Sound) :
    b.contents = overwrite b.file.content b.currentBufferStart b.currentBuffer := by
  unfold contents
  split
  · rfl
  · next hm =>
    have hm : b.currentBufferModified = false := by simpa using hm
    by_cases hc : b.currentSize = 0
    · rw [currentBuffer, hc, List.take_zero, overwrite_nil]
    · obtain ⟨h1, h2⟩ := hs.clean hm hc
      rw [h2, overwrite_slice h1]

theorem contents_of_current_zero (hs : b.Sound) (hc : b.currentSize = 0) : b.contents = b.file.content := by
  rw [contents_eq hs, currentBuffer, hc, List.take_zero, overwrite_nil]

theorem contents_length (hs : b.Sound) :
    b.contents.length = max b.file.content.length (b.currentBufferStart + b.currentSize) := by
  rw [contents_eq hs, overwrite_length_max hs.start_le, currentBuffer_length hs]

theorem fileSize_eq (hs : b.Sound) : b.fileSize = b.contents.length := by
  have hp := hs.pos_le
  have hl := hs.start_le
  rw [contents_length hs]
  unfold fileSize ByteFile.size
  split
  · exact Nat.max_comm _ _
  · next hn =>
    by_cases hc : b.currentSize = 0
    · rw [hc] at hp ⊢
      omega
    · have hm : b.currentBufferModified = false := by simpa [hc] using hn
      have := (hs.clean hm hc).1
      omega

theorem flushBuffer_eq (hs : b.Sound) : b.flushBuffer = (true, { b with
    file := { b.file with
      content := b.contents,
      pos := if b.currentBufferModified then b.currentBufferStart + b.currentSize else b.file.pos },
    currentBufferModified := false }) := by
  unfold flushBuffer
  by_cases hm : b.currentBufferModified = true
  · have hlen := currentBuffer_length hs
    have hw := ByteFile.write_of_not_append (f := { b.file with pos := b.currentBufferStart }) hs.notAppend
      b.currentBuffer
    rw [if_pos hm, ByteFile.seek_of_le hs.start_le]
    simp only [hw, hlen, ne_eq, not_true_eq_false, if_false, contents, hm, if_true]
  · rw [if_neg hm, contents, if_neg hm, if_neg hm]

-- the file behind the buffer after the buffered bytes were written
def flushed (b : FileBuffer) : FileBuffer := { b with
  file := { b.file with
    content := b.contents,
    pos := if b.currentBufferModified then b.currentBufferStart + b.currentSize else b.file.pos },
  currentSize := 0, currentBufferStart := 0, pos := 0, currentBufferModified := false }

theorem discardBuffer_eq (hs : b.Sound) : b.discardBuffer = (true, b.flushed) := by
  rw [discardBuffer, flushBuffer_eq hs]
  rfl

theorem flushed_sound (hs : b.Sound) : b.flushed.Sound := by
  have hlen := contents_length hs
  refine ⟨hs.size_lt, Nat.zero_le _, le_rfl, ?_, hs.notAppend, Nat.zero_le _, fun _ h => absurd rfl h,
    fun _ h => nomatch h⟩
  simp only [flushed, hlen]
  have := hs.filePos_le
  split <;> omega

end Flush

section Write

variable {b : FileBuffer} {f : ByteFile}

-- the window keeps what was buffered behind the written bytes, the write stays inside of the buffer, and
-- a write around the buffer begins where the file's own cursor is
def WriteInOrder (b : FileBuffer) (data : List UInt8) : Prop :=
  if data.length > b.buffer.length then b.currentSize ≠ 0 → b.file.pos = b.tellg
  else b.currentSize ≠ 0 →
    (b.pos < b.buffer.length ∨ data = []) ∧
      (b.pos + 1 + data.length < b.buffer.length → b.currentSize ≤ b.pos + data.length)

theorem tellg_le (hs : b.Sound) : b.tellg ≤ b.contents.length := by
  have h1 := hs.pos_le
  have h2 := hs.filePos_le
  rw [contents_length hs]
  unfold tellg
  split <;> omega

theorem writeEmpty_sound (hs : b.Sound) {data : List UInt8} (hd : data.length ≤ b.buffer.length) : (b.writeEmpty data).2.Sound := by
  have hlen : (overwrite b.buffer 0 data).length = b.buffer.length := overwrite_length (by omega)
  refine ⟨by rw [writeEmpty]; exact hlen.trans_lt hs.size_lt, ?_, le_rfl, hs.filePos_le, hs.notAppend,
    hs.filePos_le, (fun h => nomatch h), fun _ _ => rfl⟩
  simp only [writeEmpty, hlen]
  exact hd

theorem writeEmpty_agrees (hs : b.Sound) (hc : b.currentSize = 0) (ha : b.Agrees f) (hf : f.append = false)
    (data : List UInt8) :
    (b.writeEmpty data).2.Agrees (f.write data).2 := by
  have hpos : b.file.pos = f.pos := by
    rw [← ha.pos, tellg, if_neg (by simp [hc])]
  have hcontent : b.file.content = f.content := by rw [← ha.content, contents_of_current_zero hs hc]
  rw [ByteFile.write_of_not_append hf]
  constructor
  · have htake : (overwrite b.buffer 0 data).take data.length = data := by simp [overwrite]
    simp only [writeEmpty, contents, currentBuffer, if_true, htake, hpos, hcontent]
  · simp only [writeEmpty, tellg, hpos]
    split
    · rfl
    · next h0 => rw [not_not.mp h0, Nat.add_zero]

theorem subU64_eq {n k : ℕ} (h : k ≤ n) (hn : n < addressSpace) : subU64 n k = n - k := by
  unfold addressSpace at hn
  rw [subU64, show n + 2 ^ 64 - k = (n - k) + 2 ^ 64 by omega, Nat.add_mod_right, Nat.mod_eq_of_lt (by omega)]

-- the result of a write into the window, which then ends at byte n
def written (b : FileBuffer) (data : List UInt8) (n : ℕ) : FileBuffer := { b with
  currentSize := n,
  buffer := overwrite b.buffer b.pos data,
  currentBufferModified := true,
  pos := b.pos + data.length }

theorem written_sound (hs : b.Sound) (hc : b.currentSize ≠ 0) {data : List UInt8} {n : ℕ}
    (hn : n ≤ b.buffer.length) (hd : b.pos + data.length ≤ n) (hw : b.currentSize ≤ n) :
    (b.written data n).Sound := by
  have hlen : (overwrite b.buffer b.pos data).length = b.buffer.length := overwrite_length (by omega)
  refine ⟨by rw [written]; exact hlen.trans_lt hs.size_lt, ?_, hd, hs.filePos_le, hs.notAppend,
    hs.start_le, (fun h => nomatch h), fun h _ => ?_⟩
  · simp only [written, hlen]
    exact hn
  · have h : n = 0 := h
    omega

theorem written_agrees (hs : b.Sound) (hc : b.currentSize ≠ 0) {data : List UInt8} {n : ℕ}
    (hn : n = max b.currentSize (b.pos + data.length)) (hb : n ≤ b.buffer.length) (ha : b.Agrees f)
    (hf : f.append = false) : (b.written data n).Agrees (f.write data).2 := by
  have hp := hs.pos_le
  have hl := currentBuffer_length hs
  have hpos : b.currentBufferStart + b.pos = f.pos := by rw [← ha.pos, tellg, if_pos hc]
  have hnew : (overwrite b.buffer b.pos data).take n = overwrite b.currentBuffer b.pos data := by
    apply List.ext_getElem?
    intro i
    rw [List.getElem?_take, getElem?_overwrite_of_le (by omega), getElem?_overwrite_of_le (by omega),
      currentBuffer, List.getElem?_take]
    by_cases h1 : i < b.pos
    · rw [if_pos (by omega), if_pos h1, if_pos h1, if_pos (by omega)]
    · rw [if_neg h1, if_neg h1]
      by_cases h2 : i < b.pos + data.length
      · rw [if_pos (by omega), if_pos h2, if_pos h2]
      · rw [if_neg h2, if_neg h2]
        by_cases h3 : i < b.currentSize
        · rw [if_pos (by omega), if_pos h3]
        · rw [if_neg (by omega), if_neg h3]
  rw [ByteFile.write_of_not_append hf]
  constructor
  · have hcontents := contents_eq hs
    change overwrite b.file.content b.currentBufferStart ((overwrite b.buffer b.pos data).take n) = _
    rw [hnew, ← overwrite_overwrite_inside hs.start_le (by omega), ← hcontents, ha.content, hpos]
  · have h0 : n ≠ 0 := by omega
    simp only [written, tellg]
    rw [← hpos, Nat.add_assoc]
    exact if_pos h0

theorem flushed_agrees_seek (hs : b.Sound) (ha : b.Agrees f) {p : ℕ} (hp : p ≤ b.contents.length) :
    b.flushed.file.seek p = (true, { b.flushed.file with pos := p }) ∧
      ({ b.flushed with file := { b.flushed.file with pos := p } } : FileBuffer).Sound ∧
      ({ b.flushed with file := { b.flushed.file with pos := p } } : FileBuffer).Agrees { f with pos := p } := by
  have hfs := flushed_sound hs
  refine ⟨ByteFile.seek_of_le hp, ⟨hfs.size_lt, hfs.current_le, hfs.pos_le, hp, hfs.notAppend, hfs.start_le,
    fun _ h => absurd rfl h, fun _ h => nomatch h⟩, ha.content, rfl⟩

theorem writeCurrent_spec (hs : b.Sound) (hc : b.currentSize ≠ 0) {data : List UInt8}
    (hd : data.length ≤ b.buffer.length) (ha : b.Agrees f) (hf : f.append = false)
    (hw : b.WriteInOrder data) : ∃ u, b.writeCurrent data = .ok (data.length, u) ∧ u.Sound ∧
      u.Agrees (f.write data).2 ∧ (u.currentSize ≠ 0 → u.currentBufferModified = true) := by
  have hp := hs.pos_le
  have hcur := hs.current_le
  have hsize := hs.size_lt
  rw [WriteInOrder, if_neg (by omega)] at hw
  obtain ⟨hin, hkeep⟩ := hw hc
  -- the unsigned room behind the cursor
  have hroom : subU64 b.buffer.length (b.pos + 1) > data.length →
      b.pos + data.length ≤ b.buffer.length ∧ b.currentSize ≤ b.pos + data.length := by
    intro hg
    by_cases hlt : b.pos < b.buffer.length
    · rw [subU64_eq (by omega) hsize] at hg
      exact ⟨by omega, hkeep (by omega)⟩
    · have hnil := hin.resolve_left hlt
      rw [hnil, List.length_nil]
      omega
  unfold writeCurrent
  dsimp only
  rw [if_neg (fun h => by have := (hroom h.1).1; omega)]
  by_cases hg : subU64 b.buffer.length (b.pos + 1) > data.length
  · obtain ⟨h1, h2⟩ := hroom hg
    rw [if_pos hg, if_pos le_rfl]
    exact ⟨b.written data (b.pos + data.length), rfl, written_sound hs hc h1 le_rfl h2,
      written_agrees hs hc (by omega) h1 ha hf, fun _ => rfl⟩
  · rw [if_neg hg]
    by_cases hfit : b.pos + data.length ≤ b.currentSize
    · rw [if_pos hfit]
      exact ⟨b.written data b.currentSize, rfl, written_sound hs hc hcur hfit le_rfl,
        written_agrees hs hc (by omega) hcur ha hf, fun _ => rfl⟩
    · have hle : b.currentBufferStart + b.pos ≤ b.contents.length := by
        rw [contents_length hs]
        omega
      obtain ⟨h1, h2, h3⟩ := flushed_agrees_seek hs ha hle
      have hpos : b.currentBufferStart + b.pos = f.pos := by rw [← ha.pos, tellg, if_pos hc]
      rw [hpos] at h1 h2 h3
      rw [if_neg hfit, discardBuffer_eq hs, hpos, h1]
      exact ⟨_, rfl, writeEmpty_sound h2 hd, writeEmpty_agrees h2 rfl h3 hf data, fun _ => rfl⟩

theorem write_spec (hs : b.Sound) (ha : b.Agrees f) (hf : f.append = false) {data : List UInt8}
    (hw : b.WriteInOrder data) : ∃ u, b.write data = .ok (data.length, u) ∧ u.Sound ∧
      u.Agrees (f.write data).2 ∧ (u.currentSize ≠ 0 → u.currentBufferModified = true) := by
  unfold write
  by_cases hbig : data.length > b.buffer.length
  · rw [WriteInOrder, if_pos hbig] at hw
    have hpos : b.file.pos = f.pos := by
      rw [← ha.pos]
      by_cases hc : b.currentSize = 0
      · rw [tellg, if_neg (by simp [hc])]
      · exact hw hc
    have hle : b.file.pos ≤ b.contents.length := by
      rw [contents_length hs]
      have := hs.filePos_le
      omega
    obtain ⟨h1, h2, h3⟩ := flushed_agrees_seek hs ha hle
    rw [hpos] at h1 h2 h3
    rw [if_pos hbig, discardBuffer_eq hs, hpos]
    dsimp only
    rw [h1]
    refine ⟨_, rfl, ?_, ?_, fun h => absurd rfl h⟩
    · have hlen := overwrite_length_max (d := data) h2.filePos_le
      refine ⟨h2.size_lt, h2.current_le, h2.pos_le, ?_, h2.notAppend, Nat.zero_le _, fun _ h => absurd rfl h,
        fun _ h => nomatch h⟩
      rw [ByteFile.write_of_not_append h2.notAppend]
      simp only [hlen]
      exact Nat.le_max_right _ _
    · rw [ByteFile.write_of_not_append h2.notAppend, ByteFile.write_of_not_append hf]
      have hcontent : b.flushed.file.content = f.content := ha.content
      exact ⟨by rw [contents, if_neg (by simp [flushed])]; exact congrArg (overwrite · f.pos data) hcontent,
        rfl⟩
  · have happend := hs.notAppend
    rw [if_neg hbig]
    simp only [happend, Bool.false_eq_true, and_false, if_false, not_true_eq_false]
    by_cases hc : b.currentSize ≠ 0
    · rw [if_pos hc]
      exact writeCurrent_spec hs hc (by omega) ha hf hw
    · rw [if_neg hc]
      exact ⟨_, rfl, writeEmpty_sound hs (by omega), writeEmpty_agrees hs (not_not.mp hc) ha hf data, fun _ => rfl⟩

end Write

section Seek

variable {b : FileBuffer} {f : ByteFile}

-- seek believes the file's own cursor when a position outside of a clean window is asked for
def SeekInOrder (b : FileBuffer) (p : ℕ) : Prop :=
  b.currentSize ≠ 0 → b.currentBufferModified = false → b.file.pos = p →
    p < b.currentBufferStart ∨ b.currentBufferStart + b.currentSize ≤ p → b.tellg = p

theorem moved_sound (hs : b.Sound) {p q : ℕ} (hp : p ≤ b.currentSize) (hq : q ≤ b.file.content.length)
    (hc : b.currentSize ≠ 0) : ({ b with pos := p, file := { b.file with pos := q } } : FileBuffer).Sound :=
  ⟨hs.size_lt, hs.current_le, hp, hq, hs.notAppend, hs.start_le, hs.clean, fun h => absurd h hc⟩

theorem seek_spec (hs : b.Sound) (ha : b.Agrees f) {p : ℕ} (hp : p ≤ b.fileSize) (ho : b.SeekInOrder p) :
    (b.seek p).2.Sound ∧ (b.seek p).2.Agrees (f.seek p).2 ∧
      ((b.currentSize ≠ 0 → b.currentBufferModified = true) →
        (b.seek p).2.currentSize ≠ 0 → (b.seek p).2.currentBufferModified = true) ∧
      (b.currentBufferModified = false → (b.seek p).2.currentBufferModified = false) ∧
      (b.seek p).2.contents = b.contents ∧ (b.seek p).2.buffer.length = b.buffer.length := by
  rw [fileSize_eq hs] at hp
  have hf : f.seek p = (true, { f with pos := p }) := ByteFile.seek_of_le (ha.content ▸ hp)
  rw [hf]
  unfold seek
  split
  · next hin =>
    obtain ⟨hc, h1, h2⟩ := hin
    have hpos : b.currentBufferStart + (p - b.currentBufferStart) = p := by omega
    have hcase : ∃ q ≤ b.file.content.length, (b.file.seek p).2 = { b.file with pos := q } := by
      unfold ByteFile.seek
      split
      · next hle => exact ⟨p, hle, rfl⟩
      · exact ⟨b.file.pos, hs.filePos_le, rfl⟩
    obtain ⟨q, hq, hseek⟩ := hcase
    dsimp only
    rw [hseek]
    refine ⟨moved_sound hs (by omega) hq hc, ⟨ha.content, ?_⟩, fun h => h, fun h => h, rfl, rfl⟩
    simp only [tellg]
    rw [hpos]
    exact if_pos hc
  · next hout =>
    split
    · next hstay =>
      obtain ⟨h1, h2⟩ := hstay
      refine ⟨hs, ⟨ha.content, ?_⟩, fun h => h, fun h => h, rfl, rfl⟩
      by_cases hc : b.currentSize = 0
      · rw [tellg, if_neg (by simp [hc]), h1]
      · have hm : b.currentBufferModified = false := by simpa [hc] using h2
        refine ho hc hm h1 ?_
        by_contra hn
        exact hout ⟨hc, by omega, by omega⟩
    · obtain ⟨h1, h2, h3⟩ := flushed_agrees_seek hs ha hp
      rw [discardBuffer_eq hs]
      dsimp only
      rw [h1]
      exact ⟨h2, h3, fun _ h => absurd rfl h, fun _ => rfl, rfl, rfl⟩

end Seek

section WriteRun

inductive WriteOp
  | write (data : List UInt8)
  | seek (p : ℕ)
deriving DecidableEq, Repr

def applyWrite (b : FileBuffer) : WriteOp → Except Fault FileBuffer
  | .write data => (b.write data).map (·.2)
  | .seek p => .ok (b.seek p).2

def runWrites : FileBuffer → List WriteOp → Except Fault FileBuffer
  | b, [] => .ok b
  | b, op :: ops => do
    let b ← b.applyWrite op
    runWrites b ops

def directWrite (f : ByteFile) : WriteOp → ByteFile
  | .write data => (f.write data).2
  | .seek p => (f.seek p).2

-- a seek goes no further than the end of the file
def WriteOp.Legal (b : FileBuffer) : WriteOp → Prop
  | .write _ => True
  | .seek p => p ≤ b.fileSize

def WriteOp.InOrder (b : FileBuffer) : WriteOp → Prop
  | .write data => b.WriteInOrder data
  | .seek _ => True

def WritesWhile (P : FileBuffer → WriteOp → Prop) : FileBuffer → List WriteOp → Prop
  | _, [] => True
  | b, op :: ops => P b op ∧ ∀ u, b.applyWrite op = .ok u → WritesWhile P u ops

-- the buffered file shows what the unbuffered one shows
structure SameFile (b : FileBuffer) (f : ByteFile) : Prop where
  flush : b.flush.1 = true
  content : b.flush.2.file.content = f.content
  tellg : b.tellg = f.pos
  fileSize : b.fileSize = f.size

theorem Agrees.sameFile {b : FileBuffer} {f : ByteFile} (hs : b.Sound) (ha : b.Agrees f) : b.SameFile f := by
  refine ⟨?_, ?_, ha.pos, ?_⟩
  · rw [flush, flushBuffer_eq hs]
  · rw [flush, flushBuffer_eq hs]
    exact ha.content
  · rw [fileSize_eq hs, ha.content]
    rfl

theorem applyWrite_spec {b : FileBuffer} {f : ByteFile} {op : WriteOp} (hs : b.Sound) (ha : b.Agrees f)
    (hf : f.append = false) (hd : b.currentSize ≠ 0 → b.currentBufferModified = true) (hl : op.Legal b)
    (ho : op.InOrder b) : ∃ u, b.applyWrite op = .ok u ∧ u.Sound ∧ u.Agrees (directWrite f op) ∧
      (directWrite f op).append = false ∧ (u.currentSize ≠ 0 → u.currentBufferModified = true) := by
  cases op with
  | write data =>
    obtain ⟨u, hu, h1, h2, h3⟩ := write_spec hs ha hf ho
    exact ⟨u, by rw [applyWrite, hu]; rfl, h1, h2, hf, h3⟩
  | seek p =>
    have ho : b.SeekInOrder p := fun hc hm => absurd (hd hc) (by rw [hm]; decide)
    obtain ⟨h1, h2, h3, -⟩ := seek_spec hs ha hl ho
    exact ⟨_, rfl, h1, h2, (ByteFile.seek_append f p).trans hf, h3 hd⟩

theorem runWrites_agrees (ops : List WriteOp) {b : FileBuffer} {f : ByteFile} (hs : b.Sound) (ha : b.Agrees f)
    (hf : f.append = false) (hd : b.currentSize ≠ 0 → b.currentBufferModified = true)
    (hl : WritesWhile (fun b op => op.Legal b) b ops) (ho : WritesWhile (fun b op => op.InOrder b) b ops) :
    ∃ u, runWrites b ops = .ok u ∧ u.Sound ∧ u.Agrees (ops.foldl directWrite f) := by
  induction ops generalizing b f with
  | nil => exact ⟨b, rfl, hs, ha⟩
  | cons op ops ih =>
    obtain ⟨u, hu, h1, h2, h3, h4⟩ := applyWrite_spec hs ha hf hd hl.1 ho.1
    obtain ⟨v, hv, h5⟩ := ih h1 h2 h3 h4 (hl.2 u hu) (ho.2 u hu)
    refine ⟨v, ?_, h5⟩
    rw [runWrites, hu]
    exact hv

theorem WritesWhile.take {P : FileBuffer → WriteOp → Prop} {b : FileBuffer} {ops : List WriteOp}
    (h : WritesWhile P b ops) (k : ℕ) : WritesWhile P b (ops.take k) := by
  induction k generalizing b ops with
  | zero => exact trivial
  | succ k ih =>
    cases ops with
    | nil => exact trivial
    | cons op ops => exact ⟨h.1, fun u hu => ih (h.2 u hu)⟩

-- a buffer over a file, before its first use
theorem fresh_sound {f : ByteFile} {buffer : List UInt8} (hb : buffer.length < addressSpace)
    (hp : f.pos ≤ f.size) (hf : f.append = false) : ({ file := f, buffer := buffer } : FileBuffer).Sound :=
  ⟨hb, Nat.zero_le _, le_rfl, hp, hf, Nat.zero_le _, fun _ h => absurd rfl h, fun _ h => nomatch h⟩

theorem runWrites_sameFile (f : ByteFile) (buffer : List UInt8) (ops : List WriteOp)
    (hb : 1 ≤ buffer.length ∧ buffer.length < addressSpace) (hp : f.pos ≤ f.size) (hf : f.append = false)
    (hl : WritesWhile (fun b op => op.Legal b) { file := f, buffer := buffer } ops)
    (ho : WritesWhile (fun b op => op.InOrder b) { file := f, buffer := buffer } ops) (k : ℕ) :
    ∃ u, runWrites { file := f, buffer := buffer } (ops.take k) = .ok u ∧
      u.SameFile ((ops.take k).foldl directWrite f) := by
  obtain ⟨u, hu, h1, h2⟩ := runWrites_agrees (ops.take k) (fresh_sound hb.2 hp hf) ⟨rfl, rfl⟩ hf
    (fun h => absurd rfl h) (hl.take k) (ho.take k)
  exact ⟨u, hu, h2.sameFile h1⟩

def shrinkingOps : List WriteOp := [.write [1, 2, 3], .seek 0, .write [9]]

-- after going back, a short write drops the bytes buffered behind it
theorem runWrites_shrinking :
    WritesWhile (fun b op => op.Legal b) { file := { content := [] }, buffer := [0, 0, 0, 0] } shrinkingOps ∧
      ¬ ∃ u, runWrites { file := { content := [] }, buffer := [0, 0, 0, 0] } shrinkingOps = .ok u ∧
        u.SameFile (shrinkingOps.foldl directWrite { content := [] }) := by
  refine ⟨⟨trivial, fun u hu => ⟨?_, fun v hv => ⟨trivial, fun _ _ => trivial⟩⟩⟩, ?_⟩
  · obtain rfl := Except.ok.inj hu
    exact Nat.zero_le _
  · rintro ⟨u, hu, h⟩
    obtain rfl := Except.ok.inj hu
    exact absurd h.content (by decide)

def growingOps : List WriteOp := [.write [1, 2], .write [3, 4, 5]]

theorem four_lt_addressSpace : 4 < addressSpace := by
  unfold addressSpace
  decide

theorem runWrites_sameFile_growing : ∃ u,
    runWrites { file := { content := [] }, buffer := [0, 0, 0, 0] } (growingOps.take 2) = .ok u ∧
      u.SameFile ((growingOps.take 2).foldl directWrite { content := [] }) := by
  refine runWrites_sameFile { content := [] } [0, 0, 0, 0] growingOps ⟨by decide, four_lt_addressSpace⟩ (by decide) rfl
    ⟨trivial, fun _ _ => ⟨trivial, fun _ _ => trivial⟩⟩ ⟨?_, fun u hu => ⟨?_, fun _ _ => trivial⟩⟩ 2
  · exact fun h => absurd rfl h
  · obtain rfl := Except.ok.inj hu
    exact fun _ => ⟨Or.inl (by decide), by decide⟩

end WriteRun

section Read

variable {b : FileBuffer} {f : ByteFile}

-- the window of a reader shows the file
structure Clean (b : FileBuffer) : Prop extends Sound b where
  unmodified : b.currentBufferModified = false
  size_pos : 1 ≤ b.buffer.length
  file_lt : b.file.content.length < addressSpace

theorem Clean.contents (hc : b.Clean) : b.contents = b.file.content := by
  rw [FileBuffer.contents, if_neg (by simp [hc.unmodified])]

theorem Clean.window (hc : b.Clean) (h0 : b.currentSize ≠ 0) :
    b.currentBufferStart + b.currentSize ≤ b.file.content.length ∧
      b.currentBuffer = slice b.file.content b.currentBufferStart b.currentSize :=
  hc.clean hc.unmodified h0

theorem slice_slice_inside {l : List UInt8} {p n q k : ℕ} :
    slice (slice l p n) q k = slice l (p + q) (min k (n - q)) := by
  simp only [slice, List.drop_take, List.drop_drop, List.take_take]

theorem slice_min {l : List UInt8} {p n k : ℕ} (h : l.length ≤ p + k) : slice l p (min n k) = slice l p n := by
  by_cases hn : n ≤ k
  · rw [Nat.min_eq_left hn]
  · rw [Nat.min_eq_right (by omega), slice, slice, List.take_of_length_le (by rw [List.length_drop]; omega),
      List.take_of_length_le (by rw [List.length_drop]; omega)]

-- what a read of the buffer gives and leaves
structure Reads (b : FileBuffer) (f : ByteFile) (size : ℕ) (r : List UInt8 × FileBuffer) : Prop where
  bytes : r.1 = (f.read size).1
  clean : r.2.Clean
  agrees : r.2.Agrees (f.read size).2
  length : r.2.buffer.length = b.buffer.length

theorem Clean.agrees (hc : b.Clean) (hcontent : b.file.content = f.content) (hpos : b.tellg = f.pos) :
    b.Agrees f := ⟨by rw [hc.contents, hcontent], hpos⟩

-- the bytes at the cursor of the window, without a change of the window
theorem Clean.inside (hc : b.Clean) (ha : b.Agrees f) (h0 : b.currentSize ≠ 0) {n size : ℕ}
    (hn : b.pos + n ≤ b.currentSize)
    (hall : n = size ∨ n ≤ size ∧ b.currentBufferStart + b.pos + n = b.file.content.length) :
    Reads b f size (slice b.currentBuffer b.pos n, { b with pos := b.pos + n }) := by
  obtain ⟨h1, h2⟩ := hc.window h0
  have hpos : b.currentBufferStart + b.pos = f.pos := by rw [← ha.pos, tellg, if_pos h0]
  have hcontent : b.file.content = f.content := by rw [← ha.content, hc.contents]
  have hbytes : slice b.currentBuffer b.pos n = slice f.content f.pos size := by
    rw [h2, slice_slice_inside, hpos, hcontent, Nat.min_eq_left (by omega)]
    rcases hall with rfl | ⟨hle, hend⟩
    · rfl
    · have := slice_min (l := f.content) (p := f.pos) (n := size) (k := n) (by rw [← hpos, ← hcontent]; omega)
      rwa [Nat.min_eq_right hle] at this
  have hlen : (slice b.currentBuffer b.pos n).length = n := by
    rw [slice_length, currentBuffer_length hc.toSound]
    omega
  have hclean : ({ b with pos := b.pos + n } : FileBuffer).Clean :=
    ⟨⟨hc.size_lt, hc.current_le, hn, hc.filePos_le, hc.notAppend, hc.start_le, hc.clean, hc.idle⟩,
      hc.unmodified, hc.size_pos, hc.file_lt⟩
  refine ⟨hbytes, hclean, hclean.agrees hcontent ?_, rfl⟩
  simp only [tellg, ByteFile.read]
  rw [← hbytes, hlen, ← hpos, ← Nat.add_assoc]
  exact if_pos h0

-- the buffer with n bytes loaded and the first of them handed out
def loaded (b : FileBuffer) (n size : ℕ) : FileBuffer := { b with
  currentBufferStart := b.file.pos
  currentSize := n
  buffer := overwrite b.buffer 0 (b.file.read n).1
  file := (b.file.read n).2
  pos := min size n }

def loadable (b : FileBuffer) : ℕ := min (b.file.content.length - b.file.pos) b.buffer.length

theorem readToBuffer_eq (hc : b.Clean) (size : ℕ) : b.readToBuffer size =
    if b.loadable = 0 then (false, { b with currentBufferStart := b.file.pos })
    else (true, b.loaded b.loadable size) := by
  have hroom : subU64 b.file.size b.file.pos = b.file.content.length - b.file.pos := by
    rw [ByteFile.size, subU64_eq hc.filePos_le hc.file_lt]
  have hlen : (b.file.read b.loadable).1.length = b.loadable := by
    simp only [ByteFile.read, slice_length, loadable]
    omega
  rw [readToBuffer]
  simp only [hroom]
  rw [← loadable]
  by_cases hz : b.loadable = 0
  · rw [if_pos hz, if_pos hz]
  · have hcur : (if b.loadable < size then b.loadable else size) = min size b.loadable := by
      split <;> omega
    rw [if_neg hz, if_neg hz, hlen, if_neg (by simp), hcur, loaded]

theorem loaded_clean (hc : b.Clean) (hz : b.loadable ≠ 0) (size : ℕ) :
    (b.loaded b.loadable size).Clean ∧
      (b.loaded b.loadable size).currentBuffer = slice b.file.content b.file.pos b.loadable ∧
      (b.loaded b.loadable size).buffer.length = b.buffer.length := by
  have hle := hc.filePos_le
  have hlen : (b.file.read b.loadable).1.length = b.loadable := by
    simp only [ByteFile.read, slice_length, loadable]
    omega
  have hfit : b.file.pos + b.loadable ≤ b.file.content.length := by
    unfold loadable
    omega
  have hroom : b.loadable ≤ b.buffer.length := Nat.min_le_right _ _
  have hload : (overwrite b.buffer 0 (b.file.read b.loadable).1).take b.loadable =
      slice b.file.content b.file.pos b.loadable := by
    have := slice_overwrite_same (l := b.buffer) (p := 0) (d := (b.file.read b.loadable).1) (by omega)
    rwa [hlen, slice, List.drop_zero] at this
  have hbuf : (overwrite b.buffer 0 (b.file.read b.loadable).1).length = b.buffer.length :=
    overwrite_length (by omega)
  refine ⟨⟨⟨hbuf.trans_lt hc.size_lt, hroom.trans_eq hbuf.symm, Nat.min_le_right _ _, ?_, hc.notAppend, hle,
    fun _ _ => ⟨hfit, hload⟩, fun h => absurd h hz⟩, hc.unmodified, hc.size_pos.trans_eq hbuf.symm,
    hc.file_lt⟩, hload, hbuf⟩
  change b.file.pos + (b.file.read b.loadable).1.length ≤ b.file.content.length
  rw [hlen]
  exact hfit

theorem Clean.refill (hc : b.Clean) (ha : b.Agrees f) (h0 : b.currentSize = 0) {size : ℕ}
    (hsize : size ≤ b.buffer.length) : Reads b f size (b.refill size) := by
  have hpos : b.file.pos = f.pos := by rw [← ha.pos, tellg, if_neg (by simp [h0])]
  have hcontent : b.file.content = f.content := by rw [← ha.content, hc.contents]
  have hle := hc.filePos_le
  have hsp := hc.size_pos
  rw [FileBuffer.refill, readToBuffer_eq hc]
  by_cases hz : b.loadable = 0
  · -- the end of the file: nothing is loaded
    have hend : b.file.pos = b.file.content.length := by
      unfold loadable at hz
      omega
    have hbytes : (f.read size).1 = [] := by
      simp only [ByteFile.read, slice]
      rw [← hpos, ← hcontent, hend, List.drop_length, List.take_nil]
    have hclean : ({ b with currentBufferStart := b.file.pos } : FileBuffer).Clean :=
      ⟨⟨hc.size_lt, hc.current_le, hc.pos_le, hc.filePos_le, hc.notAppend, hle, fun _ h => absurd h0 h,
        fun _ _ => rfl⟩, hc.unmodified, hc.size_pos, hc.file_lt⟩
    have hread : (f.read size).2.pos = f.pos := by
      change f.pos + (f.read size).1.length = f.pos
      rw [hbytes]
      rfl
    have hagrees := hclean.agrees (f := (f.read size).2) hcontent
      (by rw [hread, ← hpos]; exact if_neg (by simp [h0]))
    rw [if_pos hz]
    exact ⟨hbytes.symm, hclean, hagrees, rfl⟩
  · obtain ⟨hclean, hwindow, hlength⟩ := loaded_clean hc hz size
    have hbytes : (b.loaded b.loadable size).currentBuffer.take (min size b.loadable) =
        slice f.content f.pos size := by
      rw [hwindow, slice, List.take_take, Nat.min_eq_left (Nat.min_le_right _ _), hcontent, hpos]
      by_cases hs : size ≤ b.loadable
      · rw [Nat.min_eq_left hs]
        rfl
      · have hleft : f.content.length ≤ f.pos + b.loadable := by
          rw [← hcontent, ← hpos]
          unfold loadable at hs ⊢
          omega
        have := slice_min (n := size) hleft
        rwa [Nat.min_eq_right (by omega)] at this ⊢
    have hlen : (slice f.content f.pos size).length = min size b.loadable := by
      have := currentBuffer_length hclean.toSound
      rw [← hbytes, List.length_take, this]
      exact Nat.min_eq_left (Nat.min_le_right _ _)
    have htell : (b.loaded b.loadable size).tellg = (f.read size).2.pos := by
      change _ = f.pos + (slice f.content f.pos size).length
      rw [hlen, ← hpos]
      exact if_pos hz
    rw [if_neg hz]
    exact ⟨hbytes, hclean, hclean.agrees hcontent htell, hlength⟩

theorem Clean.flushed_seek (hc : b.Clean) (ha : b.Agrees f) {p : ℕ} (hp : p ≤ b.file.content.length) :
    ({ b.flushed with file := { b.flushed.file with pos := p } } : FileBuffer).Clean ∧
      ({ b.flushed with file := { b.flushed.file with pos := p } } : FileBuffer).Agrees { f with pos := p } := by
  have hcontent : b.contents = b.file.content := hc.contents
  obtain ⟨-, h2, h3⟩ := flushed_agrees_seek hc.toSound ha (p := p) (by rw [hcontent]; exact hp)
  refine ⟨⟨h2, rfl, hc.size_pos, ?_⟩, h3⟩
  change b.contents.length < addressSpace
  rw [hcontent]
  exact hc.file_lt

theorem readSpan_spec (hc : b.Clean) (ha : b.Agrees f) {size : ℕ} (hsize : size ≤ b.buffer.length) :
    ∃ r, b.readSpan size = .ok r ∧ Reads b f size r := by
  unfold readSpan
  rw [if_neg (by omega)]
  by_cases h0 : b.currentSize = 0
  · rw [if_neg (by simp [h0]), if_neg (by simp [h0]), if_neg (by simp [h0])]
    exact ⟨_, rfl, hc.refill ha h0 hsize⟩
  · have hp := hc.pos_le
    obtain ⟨hfit, -⟩ := hc.window h0
    have hlen : b.fileSize = b.file.content.length := by rw [fileSize_eq hc.toSound, hc.contents]
    by_cases hin : b.pos + size < b.currentSize
    · rw [if_pos ⟨h0, hin⟩]
      exact ⟨_, rfl, hc.inside ha h0 (by omega) (Or.inl rfl)⟩
    · rw [if_neg (fun h => hin h.2)]
      by_cases hend : b.currentBufferStart + b.currentSize ≥ b.fileSize
      · rw [if_pos ⟨h0, hend⟩, if_neg (by omega)]
        exact ⟨_, rfl, hc.inside ha h0 (by omega) (Or.inr ⟨by omega, by omega⟩)⟩
      · have hpos : b.currentBufferStart + b.pos = f.pos := by rw [← ha.pos, tellg, if_pos h0]
        rw [if_neg (fun h => hend h.2), if_pos h0, discardBuffer_eq hc.toSound]
        have hle : b.currentBufferStart + b.pos ≤ b.file.content.length := by omega
        obtain ⟨h1, h2⟩ := hc.flushed_seek ha hle
        have hseek : (b.flushed.file.seek (b.currentBufferStart + b.pos)).2 =
            { b.flushed.file with pos := b.currentBufferStart + b.pos } := by
          have hle' : b.currentBufferStart + b.pos ≤ b.flushed.file.content.length := by
            change _ ≤ b.contents.length
            rw [hc.contents]
            exact hle
          rw [ByteFile.seek_of_le hle']
        dsimp only
        rw [hseek]
        rw [hpos] at h1 h2 ⊢
        have hlen : size ≤ b.flushed.buffer.length := hsize
        have hr := h1.refill h2 rfl hlen
        exact ⟨_, rfl, hr.bytes, hr.clean, hr.agrees, hr.length⟩

-- a read around the buffer begins where the file's own cursor is
def ReadInOrder (b : FileBuffer) (size : ℕ) : Prop :=
  size > b.buffer.length → b.currentSize ≠ 0 → b.file.pos = b.tellg

theorem read_spec (hc : b.Clean) (ha : b.Agrees f) {size : ℕ} (ho : b.ReadInOrder size) :
    ∃ r, b.read size = .ok r ∧ Reads b f size r := by
  unfold read
  by_cases hbig : size > b.buffer.length
  · have hpos : b.file.pos = f.pos := by
      rw [← ha.pos]
      by_cases h0 : b.currentSize = 0
      · rw [tellg, if_neg (by simp [h0])]
      · exact ho hbig h0
    obtain ⟨h1, h2⟩ := hc.flushed_seek ha hc.filePos_le
    rw [if_pos hbig, discardBuffer_eq hc.toSound]
    have hfile : b.flushed.file = { b.file with pos := f.pos } := by
      simp only [flushed, hc.unmodified, hc.contents, hpos]
      rfl
    have hcontent : b.file.content = f.content := by rw [← ha.content, hc.contents]
    have hread : b.flushed.file.read size = ((f.read size).1,
        { b.file with pos := (f.read size).2.pos }) := by
      rw [hfile]
      simp only [ByteFile.read, hcontent]
    dsimp only
    rw [hread]
    have hclean : ({ b.flushed with file := { b.file with pos := (f.read size).2.pos } } : FileBuffer).Clean := by
      refine ⟨⟨hc.size_lt, Nat.zero_le _, le_rfl, ?_, hc.notAppend, Nat.zero_le _, fun _ h => absurd rfl h,
        fun _ h => nomatch h⟩, rfl, hc.size_pos, hc.file_lt⟩
      have hle := hc.filePos_le
      change f.pos + (slice f.content f.pos size).length ≤ b.file.content.length
      rw [slice_length, ← hcontent, ← hpos]
      omega
    exact ⟨_, rfl, rfl, hclean, hclean.agrees hcontent rfl, rfl⟩
  · rw [if_neg hbig]
    exact readSpan_spec hc ha (by omega)

end Read

section ReadRun

inductive ReadOp
  | readSpan (size : ℕ)
  | read (size : ℕ)
  | seek (p : ℕ)
deriving DecidableEq, Repr

def applyRead (b : FileBuffer) : ReadOp → Except Fault (List UInt8 × FileBuffer)
  | .readSpan size => b.readSpan size
  | .read size => b.read size
  | .seek p => .ok ([], (b.seek p).2)

-- the bytes of every read, and the buffer at the end
def runReads : FileBuffer → List ReadOp → Except Fault (List (List UInt8) × FileBuffer)
  | b, [] => .ok ([], b)
  | b, op :: ops => do
    let r ← b.applyRead op
    let rest ← runReads r.2 ops
    .ok (r.1 :: rest.1, rest.2)

-- a span can not be longer than the buffer it lies in
def directRead (bufferSize : ℕ) (f : ByteFile) : ReadOp → List UInt8 × ByteFile
  | .readSpan size => if size > bufferSize then ([], f) else f.read size
  | .read size => f.read size
  | .seek p => ([], (f.seek p).2)

def directReads (bufferSize : ℕ) : ByteFile → List ReadOp → List (List UInt8) × ByteFile
  | f, [] => ([], f)
  | f, op :: ops =>
    let r := directRead bufferSize f op
    let rest := directReads bufferSize r.2 ops
    (r.1 :: rest.1, rest.2)

def ReadOp.Legal (b : FileBuffer) : ReadOp → Prop
  | .seek p => p ≤ b.fileSize
  | _ => True

def ReadOp.InOrder (b : FileBuffer) : ReadOp → Prop
  | .readSpan _ => True
  | .read size => b.ReadInOrder size
  | .seek p => b.SeekInOrder p

def ReadsWhile (P : FileBuffer → ReadOp → Prop) : FileBuffer → List ReadOp → Prop
  | _, [] => True
  | b, op :: ops => P b op ∧ ∀ r, b.applyRead op = .ok r → ReadsWhile P r.2 ops

theorem readSpan_too_large {b : FileBuffer} {size : ℕ} (h : size > b.buffer.length) :
    b.readSpan size = .ok ([], b) := by
  rw [readSpan, if_pos h]

theorem applyRead_spec {b : FileBuffer} {f : ByteFile} {op : ReadOp} (hc : b.Clean) (ha : b.Agrees f)
    (hl : op.Legal b) (ho : op.InOrder b) : ∃ r, b.applyRead op = .ok r ∧
      r.1 = (directRead b.buffer.length f op).1 ∧ r.2.Clean ∧
      r.2.Agrees (directRead b.buffer.length f op).2 ∧ r.2.buffer.length = b.buffer.length := by
  cases op with
  | readSpan size =>
    by_cases hbig : size > b.buffer.length
    · refine ⟨([], b), readSpan_too_large hbig, ?_, hc, ?_, rfl⟩
      · rw [directRead, if_pos hbig]
      · rw [directRead, if_pos hbig]
        exact ha
    · obtain ⟨r, hr, h⟩ := readSpan_spec hc ha (Nat.not_lt.mp hbig)
      rw [directRead, if_neg hbig]
      exact ⟨r, hr, h.bytes, h.clean, h.agrees, h.length⟩
  | read size =>
    obtain ⟨r, hr, h⟩ := read_spec hc ha ho
    exact ⟨r, hr, h.bytes, h.clean, h.agrees, h.length⟩
  | seek p =>
    obtain ⟨h1, h2, -, h4, h5, h6⟩ := seek_spec hc.toSound ha hl ho
    have hm := h4 hc.unmodified
    have hcontent : (b.seek p).2.file.content = b.file.content := by
      have hx : (b.seek p).2.contents = (b.seek p).2.file.content := by
        rw [FileBuffer.contents, if_neg (by simp [hm])]
      rw [← hx, h5, hc.contents]
    exact ⟨_, rfl, rfl, ⟨h1, hm, hc.size_pos.trans_eq h6.symm, (congrArg List.length hcontent).trans_lt hc.file_lt⟩,
      h2, h6⟩

theorem runReads_agrees (ops : List ReadOp) {b : FileBuffer} {f : ByteFile} (hc : b.Clean) (ha : b.Agrees f)
    (hl : ReadsWhile (fun b op => op.Legal b) b ops) (ho : ReadsWhile (fun b op => op.InOrder b) b ops) :
    ∃ u, runReads b ops = .ok ((directReads b.buffer.length f ops).1, u) ∧
      u.tellg = (directReads b.buffer.length f ops).2.pos := by
  induction ops generalizing b f with
  | nil => exact ⟨b, rfl, ha.pos⟩
  | cons op ops ih =>
    obtain ⟨r, hr, h1, h2, h3, h4⟩ := applyRead_spec hc ha hl.1 ho.1
    obtain ⟨u, hu, hpos⟩ := ih h2 h3 (hl.2 r hr) (ho.2 r hr)
    rw [h4] at hu hpos
    refine ⟨u, ?_, hpos⟩
    rw [runReads, hr]
    change (do
      let rest ← runReads r.2 ops
      .ok (r.1 :: rest.1, rest.2)) = _
    rw [hu, h1]
    rfl

theorem ReadsWhile.take {P : FileBuffer → ReadOp → Prop} {b : FileBuffer} {ops : List ReadOp}
    (h : ReadsWhile P b ops) (k : ℕ) : ReadsWhile P b (ops.take k) := by
  induction k generalizing b ops with
  | zero => exact trivial
  | succ k ih =>
    cases ops with
    | nil => exact trivial
    | cons op ops => exact ⟨h.1, fun u hu => ih (h.2 u hu)⟩

theorem runReads_sameBytes (f : ByteFile) (buffer : List UInt8) (ops : List ReadOp)
    (hb : 1 ≤ buffer.length ∧ buffer.length < addressSpace) (hp : f.pos ≤ f.size)
    (hsize : f.size < addressSpace) (hf : f.append = false)
    (hl : ReadsWhile (fun b op => op.Legal b) { file := f, buffer := buffer } ops)
    (ho : ReadsWhile (fun b op => op.InOrder b) { file := f, buffer := buffer } ops) (k : ℕ) :
    ∃ u, runReads { file := f, buffer := buffer } (ops.take k) =
        .ok ((directReads buffer.length f (ops.take k)).1, u) ∧
      u.tellg = (directReads buffer.length f (ops.take k)).2.pos := by
  have hc : ({ file := f, buffer := buffer } : FileBuffer).Clean :=
    ⟨fresh_sound hb.2 hp hf, rfl, hb.1, hsize⟩
  exact runReads_agrees (ops.take k) hc ⟨rfl, rfl⟩ (hl.take k) (ho.take k)

def eightBytes : ByteFile := { content := [0, 1, 2, 3, 4, 5, 6, 7] }

-- the end of the loaded window is where the file's own cursor stands
def seekingOps : List ReadOp := [.readSpan 2, .seek 4, .readSpan 1]

theorem runReads_seeking :
    ReadsWhile (fun b op => op.Legal b) { file := eightBytes, buffer := [0, 0, 0, 0] } seekingOps ∧
      ¬ ∃ u, runReads { file := eightBytes, buffer := [0, 0, 0, 0] } seekingOps =
        .ok ((directReads 4 eightBytes seekingOps).1, u) := by
  refine ⟨⟨trivial, fun u hu => ⟨?_, fun v hv => ⟨trivial, fun _ _ => trivial⟩⟩⟩, ?_⟩
  · obtain rfl := Except.ok.inj hu
    exact (by decide : 4 ≤ 8)
  · rintro ⟨u, hu⟩
    have h : (match runReads { file := eightBytes, buffer := [0, 0, 0, 0] } seekingOps with
        | .ok x => x.1
        | .error _ => []) = (directReads 4 eightBytes seekingOps).1 := by rw [hu]
    exact absurd h (by decide)

def passingOps : List ReadOp := [.readSpan 2, .seek 1, .readSpan 4]

theorem runReads_sameBytes_passing : ∃ u,
    runReads { file := eightBytes, buffer := [0, 0, 0, 0] } (passingOps.take 3) =
        .ok ((directReads 4 eightBytes (passingOps.take 3)).1, u) ∧
      u.tellg = (directReads 4 eightBytes (passingOps.take 3)).2.pos := by
  have h8 : eightBytes.size < addressSpace := by
    unfold addressSpace
    decide
  refine runReads_sameBytes eightBytes [0, 0, 0, 0] passingOps ⟨by decide, four_lt_addressSpace⟩ (by decide)
    h8 rfl ⟨trivial, fun u hu => ⟨?_, fun _ _ => ⟨trivial, fun _ _ => trivial⟩⟩⟩
    ⟨trivial, fun u hu => ⟨?_, fun _ _ => ⟨trivial, fun _ _ => trivial⟩⟩⟩ 3
  · obtain rfl := Except.ok.inj hu
    exact (by decide : 1 ≤ 8)
  · obtain rfl := Except.ok.inj hu
    exact fun _ _ h _ => absurd h (by decide)

end ReadRun

end FileBuffer

end SimpleFlashFs
