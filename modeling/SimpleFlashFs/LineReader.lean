import SimpleFlashFs.Buffered
import SimpleFlashFs.IniScan

namespace SimpleFlashFs

open Lib

namespace FileBuffer

-- what get_line returns when it finds nothing more to read
def lineOf (ret : List UInt8) : Option (List UInt8) := if ret = [] then none else some ret

-- the loop of get_line; push_back throws when the string is full
def getLineLoop (capacity : ℕ) : ℕ → List UInt8 → FileBuffer → Except Fault (Option (List UInt8)) × FileBuffer
  | 0, _, b => (.error .diverges, b)
  | left + 1, ret, b =>
    if b.eof then (.ok (lineOf ret), b)
    else
      let sizeToRead := if capacity > 0 then min capacity b.buffer.length else b.buffer.length
      if sizeToRead = 0 then (.ok (lineOf ret), b)
      else
        let posBeforeRead := b.tellg
        match b.readSpan sizeToRead with
        | .error e => (.error e, b)
        | .ok (bytes, b) =>
          if bytes = [] then (.ok (lineOf ret), b)
          else
            let part := bytes.takeWhile (· ≠ newLine)
            if ret.length + part.length > capacity then (.error .thrown, b)
            else if newLine ∈ bytes then (.ok (some (ret ++ part)), (b.seek (posBeforeRead + part.length + 1)).2)
            else getLineLoop capacity left (ret ++ part) b

def getLine (capacity left : ℕ) (b : FileBuffer) : Except Fault (Option (List UInt8)) × FileBuffer :=
  getLineLoop capacity left [] b

-- what each of several calls returned, with tellg after it
def getLines (capacity left : ℕ) : ℕ → FileBuffer → Except Fault (List (Option (List UInt8) × ℕ) × FileBuffer)
  | 0, b => .ok ([], b)
  | k + 1, b =>
    match b.getLine capacity left with
    | (.error e, _) => .error e
    | (.ok v, u) => do
      let rest ← getLines capacity left k u
      .ok ((v, u.tellg) :: rest.1, rest.2)

def withAppend (b : FileBuffer) (append : Bool) : FileBuffer := { b with file := { b.file with append := append } }

section Append

variable {b : FileBuffer}

@[simp] theorem withAppend_tellg (b : FileBuffer) (a : Bool) : (b.withAppend a).tellg = b.tellg := rfl

@[simp] theorem withAppend_eof (b : FileBuffer) (a : Bool) : (b.withAppend a).eof = b.eof := rfl

@[simp] theorem withAppend_buffer (b : FileBuffer) (a : Bool) : (b.withAppend a).buffer = b.buffer := rfl

theorem withAppend_fileSize (b : FileBuffer) (a : Bool) : (b.withAppend a).file.size = b.file.size := rfl

theorem withAppend_filePos (b : FileBuffer) (a : Bool) : (b.withAppend a).file.pos = b.file.pos := rfl

theorem withAppend_withAppend (b : FileBuffer) (a c : Bool) : (b.withAppend a).withAppend c = b.withAppend c := rfl

theorem withAppend_self (b : FileBuffer) : b.withAppend b.file.append = b := rfl

theorem withAppend_discardBuffer (hm : b.currentBufferModified = false) (a : Bool) :
    (b.withAppend a).discardBuffer = (true, b.discardBuffer.2.withAppend a) ∧ b.discardBuffer.1 = true ∧
      b.discardBuffer.2.currentBufferModified = false := by
  simp [discardBuffer, flushBuffer, withAppend, hm]

theorem withAppend_fileSeek (f : ByteFile) (a : Bool) (p : ℕ) :
    ({ f with append := a } : ByteFile).seek p = ((f.seek p).1, { (f.seek p).2 with append := a }) := by
  unfold ByteFile.seek
  split <;> rfl

-- read_to_buffer once the number of bytes to read is known
def readSome (b : FileBuffer) (size n : ℕ) : Bool × FileBuffer :=
  if n = 0 then (false, { b with currentBufferStart := b.file.pos })
  else
    let r := b.file.read n
    let u : FileBuffer :=
      { b with currentBufferStart := b.file.pos, currentSize := n, buffer := overwrite b.buffer 0 r.1, file := r.2 }
    if r.1.length ≠ n then (false, u.discardBuffer.2) else (true, { u with pos := if n < size then n else size })

theorem readToBuffer_eq_readSome {size s p n : ℕ} (hs : b.file.size = s) (hp : b.file.pos = p)
    (hn : b.buffer.length = n) : b.readToBuffer size = b.readSome size (min (subU64 s p) n) := by
  subst hs hp hn
  rfl

theorem withAppend_readSome (hm : b.currentBufferModified = false) (a : Bool) (size n : ℕ) :
    (b.withAppend a).readSome size n = ((b.readSome size n).1, (b.readSome size n).2.withAppend a) := by
  have hr : (b.withAppend a).file.read n = ((b.file.read n).1, { (b.file.read n).2 with append := a }) := rfl
  unfold readSome
  simp only [hr]
  by_cases hn : n = 0
  · rw [if_pos hn, if_pos hn]
    rfl
  · rw [if_neg hn, if_neg hn]
    by_cases hl : (b.file.read n).1.length ≠ n
    · rw [if_pos hl, if_pos hl]
      simp [discardBuffer, flushBuffer, withAppend, hm]
    · rw [if_neg hl, if_neg hl]
      rfl

theorem withAppend_readToBuffer (hm : b.currentBufferModified = false) (a : Bool) (size : ℕ) :
    (b.withAppend a).readToBuffer size = ((b.readToBuffer size).1, (b.readToBuffer size).2.withAppend a) := by
  rw [readToBuffer_eq_readSome (b := b) rfl rfl rfl,
    readToBuffer_eq_readSome (withAppend_fileSize b a) (withAppend_filePos b a) (by rw [withAppend_buffer])]
  apply withAppend_readSome hm

theorem withAppend_refill (hm : b.currentBufferModified = false) (a : Bool) (size : ℕ) :
    (b.withAppend a).refill size = ((b.refill size).1, (b.refill size).2.withAppend a) := by
  rw [refill, refill, withAppend_readToBuffer hm]
  generalize b.readToBuffer size = r
  obtain ⟨full, u⟩ := r
  cases full <;> rfl

theorem withAppend_readSpan (hm : b.currentBufferModified = false) (a : Bool) (size : ℕ) :
    (b.withAppend a).readSpan size = (b.readSpan size).map (fun r => (r.1, r.2.withAppend a)) := by
  obtain ⟨h1, h2, h3⟩ := withAppend_discardBuffer hm a
  unfold readSpan
  rw [h1]
  simp only [h2]
  change (if size > b.buffer.length then _ else if b.currentSize ≠ 0 ∧ b.pos + size < b.currentSize then _
    else if b.currentSize ≠ 0 ∧ b.currentBufferStart + b.currentSize ≥ b.fileSize then
      (if b.pos > b.currentSize then _ else _) else if b.currentSize ≠ 0 then _ else _) = _
  split
  · rfl
  split
  · rfl
  split
  · split <;> rfl
  split
  · have hseek := withAppend_fileSeek b.discardBuffer.2.file a (b.currentBufferStart + b.pos)
    have hr := withAppend_refill (b := { b.discardBuffer.2 with
      file := (b.discardBuffer.2.file.seek (b.currentBufferStart + b.pos)).2 }) h3 a size
    simp only [not_true_eq_false, if_false, Except.map]
    rw [← hr]
    simp only [withAppend, hseek]
  · rw [withAppend_refill hm]
    rfl

theorem withAppend_seek (hm : b.currentBufferModified = false) (a : Bool) (p : ℕ) :
    (b.withAppend a).seek p = ((b.seek p).1, (b.seek p).2.withAppend a) := by
  obtain ⟨h1, h2, h3⟩ := withAppend_discardBuffer hm a
  have hseek := withAppend_fileSeek b.file a p
  have hseek' := withAppend_fileSeek b.discardBuffer.2.file a p
  unfold seek
  rw [h1]
  simp only [h2]
  change (if b.currentSize ≠ 0 ∧ b.currentBufferStart ≤ p ∧ p < b.currentBufferStart + b.currentSize then _
    else if b.file.pos = p ∧ (b.currentSize = 0 ∨ ¬ b.currentBufferModified) then _ else _) = _
  split
  · simp only [withAppend, hseek]
  split
  · rfl
  · simp only [not_true_eq_false, if_false, withAppend, hseek']

end Append

section Loop

variable {b : FileBuffer} {f : ByteFile}

theorem eof_eq (hs : b.Sound) (ha : b.Agrees f) : b.eof = f.eof := by
  have hcontent := congrArg List.length ha.content
  have hpos := ha.pos
  unfold eof ByteFile.eof
  unfold tellg at hpos
  by_cases hc : b.currentSize = 0
  · rw [if_neg (by simp [hc])] at hpos ⊢
    rw [contents_of_current_zero hs hc] at hcontent
    rw [hcontent, hpos]
  · rw [if_pos hc] at hpos ⊢
    rw [fileSize_eq hs, hcontent, hpos]

-- the window that a read leaves begins where the read began, or before
theorem refill_start (hc : b.Clean) (size : ℕ) : (b.refill size).2.currentBufferStart = b.file.pos := by
  rw [refill, readToBuffer_eq hc]
  by_cases hz : b.loadable = 0
  · rw [if_pos hz]
    rfl
  · rw [if_neg hz]
    rfl

theorem readSpan_start (hc : b.Clean) (ha : b.Agrees f) {size : ℕ} (hsize : size ≤ b.buffer.length)
    {r : List UInt8 × FileBuffer} (hr : b.readSpan size = .ok r) : r.2.currentBufferStart ≤ f.pos := by
  have hpos := ha.pos
  rw [readSpan, if_neg (by omega)] at hr
  unfold tellg at hpos
  by_cases h0 : b.currentSize = 0
  · rw [if_neg (by simp [h0])] at hpos
    rw [if_neg (by simp [h0]), if_neg (by simp [h0]), if_neg (by simp [h0])] at hr
    rw [← Except.ok.inj hr, refill_start hc, hpos]
  · rw [if_pos h0] at hpos
    by_cases hin : b.pos + size < b.currentSize
    · rw [if_pos ⟨h0, hin⟩] at hr
      rw [← Except.ok.inj hr]
      exact Nat.le.intro hpos
    · rw [if_neg (fun h => hin h.2)] at hr
      by_cases hend : b.currentBufferStart + b.currentSize ≥ b.fileSize
      · rw [if_pos ⟨h0, hend⟩, if_neg (by have := hc.pos_le; omega)] at hr
        rw [← Except.ok.inj hr]
        exact Nat.le.intro hpos
      · rw [if_neg (fun h => hend h.2), if_pos h0, discardBuffer_eq hc.toSound] at hr
        dsimp only at hr
        have hlen : b.fileSize = b.file.content.length := by rw [fileSize_eq hc.toSound, hc.contents]
        have hle : b.currentBufferStart + b.pos ≤ b.file.content.length := by
          have := hc.pos_le
          omega
        obtain ⟨h1, -⟩ := hc.flushed_seek ha hle
        have hseek : (b.flushed.file.seek (b.currentBufferStart + b.pos)).2 =
            { b.flushed.file with pos := b.currentBufferStart + b.pos } := by
          have hle' : b.currentBufferStart + b.pos ≤ b.flushed.file.content.length := by
            change _ ≤ b.contents.length
            rw [hc.contents]
            exact hle
          rw [ByteFile.seek_of_le hle']
        rw [if_neg (by simp), hseek] at hr
        rw [← Except.ok.inj hr, refill_start h1]
        exact hpos.le

-- going back to behind a newline never meets a window that lies elsewhere
theorem seek_back (hc : b.Clean) (ha : b.Agrees f) {p : ℕ} (hstart : b.currentBufferStart < p) (hp : p ≤ f.pos) :
    (b.seek p).2.Clean ∧ (b.seek p).2.Agrees (f.seek p).2 ∧ (b.seek p).2.buffer.length = b.buffer.length := by
  have htell := tellg_le hc.toSound
  have hpos := ha.pos
  have hle : p ≤ b.fileSize := by
    rw [fileSize_eq hc.toSound]
    omega
  have horder : b.SeekInOrder p := by
    intro h0 _ _ hout
    have := hc.pos_le
    have htell : b.tellg = b.currentBufferStart + b.pos := if_pos h0
    omega
  obtain ⟨h1, h2, -, h4, h5, h6⟩ := seek_spec hc.toSound ha hle horder
  have hm := h4 hc.unmodified
  have hcontent : (b.seek p).2.file.content = b.file.content := by
    have hx : (b.seek p).2.contents = (b.seek p).2.file.content := by
      rw [FileBuffer.contents, if_neg (by simp [hm])]
    rw [← hx, h5, hc.contents]
  exact ⟨⟨h1, hm, hc.size_pos.trans_eq h6.symm, (congrArg List.length hcontent).trans_lt hc.file_lt⟩, h2, h6⟩

variable {lb : LineBuffer}

-- the line reader of the ideal file, seen through a buffer of any size
theorem getLineLoop_agrees (a : Bool) {left : ℕ} {ret : List UInt8} {v : Option (List UInt8)} {g : ByteFile} (hc : b.Clean)
    (ha : b.Agrees f) (hb : b.buffer.length = lb.fileBufferSize) (hleft : f.content.length < left + f.pos)
    (h : lb.getLineLoop left ret f = .ok (v, g)) :
    ∃ u : FileBuffer, getLineLoop lb.lineBufferSize left ret (b.withAppend a) = (.ok v, u.withAppend a) ∧ u.Clean ∧ u.Agrees g ∧
      u.buffer.length = lb.fileBufferSize := by
  induction left generalizing b f ret with
  | zero =>
    have htell := tellg_le hc.toSound
    rw [ha.content, ha.pos] at htell
    omega
  | succ left ih =>
    rw [LineBuffer.getLineLoop] at h
    rw [getLineLoop, withAppend_eof, withAppend_tellg, withAppend_buffer, eof_eq hc.toSound ha, hb]
    have hsize : 0 < (if lb.lineBufferSize > 0 then min lb.lineBufferSize lb.fileBufferSize else lb.fileBufferSize) ∧
        (if lb.lineBufferSize > 0 then min lb.lineBufferSize lb.fileBufferSize else lb.fileBufferSize) ≤ b.buffer.length := by
      have := lb.buffer_pos
      rw [hb]
      split <;> omega
    generalize (if lb.lineBufferSize > 0 then min lb.lineBufferSize lb.fileBufferSize else lb.fileBufferSize) = m at h hsize ⊢
    dsimp only at h ⊢
    obtain ⟨hm, hle⟩ := hsize
    obtain ⟨⟨bytes, u⟩, hr, hbytes, hclean, hagrees, hlength⟩ := readSpan_spec hc ha hle
    have hstart := readSpan_start hc ha hle hr
    dsimp only at hbytes hclean hagrees hlength hstart
    rw [withAppend_readSpan hc.unmodified, hr, if_neg hm.ne']
    dsimp only [Except.map]
    have hret : lineOf ret = if ret = [] then none else some ret := rfl
    by_cases heof : f.eof = true
    · rw [if_pos (Or.inl heof)] at h
      obtain ⟨rfl, rfl⟩ := Prod.mk.inj (Except.ok.inj h)
      rw [if_pos heof, hret]
      exact ⟨b, rfl, hc, ha, hb⟩
    · have hne : (f.read m).1 ≠ [] := by
        intro hnil
        have hlen := congrArg List.length hnil
        simp only [ByteFile.read, slice_length, List.length_nil] at hlen
        simp only [ByteFile.eof, decide_eq_true_eq] at heof
        omega
      rw [if_neg (by simp [heof, hm.ne', hne])] at h
      rw [if_neg heof, if_neg (by rw [hbytes]; exact hne), hbytes]
      by_cases hover : ret.length + ((f.read m).1.takeWhile (· ≠ newLine)).length > lb.lineBufferSize
      · rw [if_pos hover] at h
        cases h
      · rw [if_neg hover] at h ⊢
        have hpos : (f.read m).2.pos = f.pos + (f.read m).1.length := rfl
        have htake : ((f.read m).1.takeWhile (· ≠ newLine)).length ≤ (f.read m).1.length :=
          (List.takeWhile_prefix _).length_le
        by_cases hmem : newLine ∈ (f.read m).1
        · rw [if_pos hmem] at h ⊢
          obtain ⟨rfl, rfl⟩ := Prod.mk.inj (Except.ok.inj h)
          have hlt : ((f.read m).1.takeWhile (· ≠ newLine)).length < (f.read m).1.length := by
            apply lt_of_le_of_ne htake
            intro heq
            have hall := (List.takeWhile_prefix (· ≠ newLine)).eq_of_length heq
            rw [← hall] at hmem
            have := List.mem_takeWhile_imp hmem
            simp at this
          have hback := seek_back hclean hagrees
            (p := f.pos + ((f.read m).1.takeWhile (· ≠ newLine)).length + 1) (by omega) (by omega)
          rw [withAppend_seek hclean.unmodified, ha.pos]
          exact ⟨_, rfl, hback.1, hback.2.1, hback.2.2.trans (hlength.trans hb)⟩
        · rw [if_neg hmem] at h ⊢
          have hnext : (f.read m).2.content.length < left + (f.read m).2.pos := by
            have := List.length_pos_iff.mpr hne
            have hsame : (f.read m).2.content = f.content := rfl
            rw [hpos, hsame]
            omega
          exact ih hclean hagrees (hlength.trans hb) hnext h

end Loop

section Split

variable {b : FileBuffer} {f : ByteFile} {lb : LineBuffer} {pre post l piece rest : List UInt8}

-- a buffer that only read from its file; whether the file was opened to append makes no difference then
def Reading (b : FileBuffer) : Prop := (b.withAppend false).Clean

theorem reading_fresh (f : ByteFile) {buffer : List UInt8} (hb : 1 ≤ buffer.length ∧ buffer.length < addressSpace)
    (hp : f.pos ≤ f.size) (hs : f.size < addressSpace) : ({ file := f, buffer := buffer } : FileBuffer).Reading :=
  ⟨fresh_sound hb.2 hp rfl, rfl, hb.1, hs⟩

-- the position behind line i and its newline, or the end of the file
def lineEnd (content : List UInt8) (i : ℕ) : ℕ :=
  min content.length (((lines newLine content).take (i + 1)).map (·.length + 1)).sum

theorem lineEnd_nil (i : ℕ) : lineEnd [] i = 0 := Nat.min_eq_left (Nat.zero_le _)

theorem lineEnd_zero (hcut : Cut newLine post l piece rest) : lineEnd post 0 = piece.length := by
  rw [lineEnd, hcut.lines_eq, hcut.text]
  rcases hcut.ends with rfl | ⟨rfl, -, rfl⟩
  · simp
  · simp

theorem lineEnd_succ (hcut : Cut newLine post l piece rest) (i : ℕ) :
    lineEnd post (i + 1) = piece.length + lineEnd rest i := by
  rw [lineEnd, hcut.lines_eq, hcut.text, lineEnd, List.take_succ_cons, List.map_cons, List.sum_cons, List.length_append]
  rcases hcut.ends with rfl | ⟨rfl, -, rfl⟩
  · rw [List.length_append, List.length_singleton, Nat.add_min_add_left]
  · rw [List.length_nil]
    omega

theorem getLineLoop_cut {left : ℕ} (hf : f.content = pre ++ post) (hcut : Cut newLine post l piece rest)
    (hfit : l.length ≤ lb.lineBufferSize) (hleft : post.length < left) :
    lb.getLineLoop left [] (f.moved pre.length) = .ok (some l, f.moved (pre ++ piece).length) := by
  obtain ⟨hline, hpiece⟩ := SimpleIni.cut_takeWhile hcut
  have hne : post ≠ [] := by
    rw [hcut.text]
    simp [hcut.piece_ne]
  have hfit : ([] : Line).length + (post.takeWhile (· ≠ newLine)).length ≤ lb.lineBufferSize := by
    rw [hline, List.length_nil, Nat.zero_add]
    exact hfit
  have hloop := SimpleIni.getLineLoop_eq hf hfit (Or.inr hne) hleft
  rwa [hline, hpiece, List.nil_append] at hloop

theorem getLineLoop_end {left : ℕ} (hf : f.content = pre) (hleft : 0 < left) :
    lb.getLineLoop left [] (f.moved pre.length) = .ok (none, f.moved pre.length) := by
  have heof : (f.moved pre.length).eof = true := by
    rw [← hf]
    exact decide_eq_true (le_refl _)
  obtain ⟨left, rfl⟩ := Nat.exists_eq_succ_of_ne_zero hleft.ne'
  rw [LineBuffer.getLineLoop]
  dsimp only
  rw [if_pos (Or.inl heof), if_pos rfl]

theorem getLines_cons {capacity left k : ℕ} {u : FileBuffer} {v : Option (List UInt8)}
    {rest : List (Option (List UInt8) × ℕ) × FileBuffer} (h : b.getLine capacity left = (.ok v, u))
    (hr : u.getLines capacity left k = .ok rest) :
    b.getLines capacity left (k + 1) = .ok ((v, u.tellg) :: rest.1, rest.2) := by
  rw [getLines, h]
  change (do
    let rest ← u.getLines capacity left k
    .ok ((v, u.tellg) :: rest.1, rest.2)) = _
  rw [hr]
  rfl

theorem getLines_agrees (a : Bool) {left : ℕ} (k : ℕ) (hc : b.Clean) (hf : f.content = pre ++ post)
    (ha : b.Agrees (f.moved pre.length)) (hb : b.buffer.length = lb.fileBufferSize)
    (hfit : ∀ line ∈ lines newLine post, line.length ≤ lb.lineBufferSize) (hleft : f.content.length < left) :
    ∃ u, (b.withAppend a).getLines lb.lineBufferSize left k =
      .ok ((List.range k).map fun i => ((lines newLine post)[i]?, pre.length + lineEnd post i), u) := by
  have hlen := congrArg List.length hf
  rw [List.length_append] at hlen
  have henough : (f.moved pre.length).content.length < left + (f.moved pre.length).pos := by
    rw [ByteFile.moved_content]
    omega
  induction k generalizing b pre post with
  | zero => exact ⟨_, rfl⟩
  | succ k ih =>
    rw [List.range_succ_eq_map, List.map_cons, List.map_map]
    by_cases hpost : post = []
    · subst hpost
      have hend : lb.getLineLoop left [] (f.moved pre.length) = .ok (none, f.moved pre.length) :=
        getLineLoop_end (hf.trans (List.append_nil _)) (by omega)
      obtain ⟨u, hu, h1, h2, h3⟩ := getLineLoop_agrees a hc ha hb henough hend
      obtain ⟨w, hw⟩ := ih h1 hf h2 h3 hfit hlen henough
      refine ⟨w, ?_⟩
      rw [getLines_cons hu hw, withAppend_tellg, h2.pos, lineEnd_nil]
      refine congrArg Except.ok (Prod.ext ?_ rfl)
      refine congrArg₂ List.cons rfl (List.map_congr_left fun i _ => ?_)
      simp [lines, lineEnd_nil]
    · obtain ⟨l, piece, rest, hcut⟩ := exists_cut newLine hpost
      rw [hcut.lines_eq] at hfit
      have hfirst := hfit l List.mem_cons_self
      have hget : lb.getLineLoop left [] (f.moved pre.length) = .ok (some l, f.moved (pre ++ piece).length) :=
        getLineLoop_cut hf hcut hfirst (by omega)
      obtain ⟨u, hu, h1, h2, h3⟩ := getLineLoop_agrees a hc ha hb henough hget
      have hf' : f.content = (pre ++ piece) ++ rest := by rw [hf, hcut.text, List.append_assoc]
      have hlen' := congrArg List.length hf'
      rw [List.length_append] at hlen'
      obtain ⟨w, hw⟩ := ih h1 hf' h2 h3 (fun line h => hfit line (List.mem_cons_of_mem _ h)) hlen' (by
        rw [ByteFile.moved_content]
        omega)
      refine ⟨w, ?_⟩
      rw [getLines_cons hu hw, withAppend_tellg, h2.pos, lineEnd_zero hcut, hcut.lines_eq, ByteFile.moved_pos,
        List.length_append]
      refine congrArg Except.ok (Prod.ext ?_ rfl)
      refine congrArg₂ List.cons rfl (List.map_congr_left fun i _ => ?_)
      rw [Function.comp, lineEnd_succ hcut, List.getElem?_cons_succ, Nat.add_assoc]

theorem getLines_splits (b : FileBuffer) (capacity left k : ℕ) (hb : b.Reading) (h0 : b.tellg = 0)
    (hfit : ∀ line ∈ lines newLine b.file.content, line.length < capacity) (hleft : b.file.content.length < left) :
    ∃ u, b.getLines capacity left k = .ok ((List.range k).map fun i =>
      ((lines newLine b.file.content)[i]?, lineEnd b.file.content i), u) := by
  have hagrees : (b.withAppend false).Agrees (b.file.moved ([] : List UInt8).length) :=
    hb.agrees rfl (by rw [withAppend_tellg, h0]; rfl)
  set lb : LineBuffer := ⟨capacity, b.buffer.length, hb.size_pos⟩
  have hsize : (b.withAppend false).buffer.length = lb.fileBufferSize := rfl
  obtain ⟨u, hu⟩ := getLines_agrees b.file.append k hb (List.nil_append _).symm hagrees hsize
    (fun line h => (hfit line h).le) hleft
  rw [withAppend_withAppend, withAppend_self] at hu
  refine ⟨u, hu.trans ?_⟩
  simp only [List.length_nil, Nat.zero_add]

def threeLines : ByteFile := { content := [97, 98, 99, newLine, newLine, 100], append := true }

theorem getLines_splits_three : ∃ u, getLines 4 7 4 { file := threeLines, buffer := [0, 0] } =
    .ok ((List.range 4).map fun i => ((lines newLine threeLines.content)[i]?, lineEnd threeLines.content i), u) := by
  have h6 : threeLines.size < addressSpace := by
    unfold addressSpace
    decide
  have h2 : ([0, 0] : List UInt8).length < addressSpace := by
    unfold addressSpace
    decide
  exact getLines_splits { file := threeLines, buffer := [0, 0] } 4 7 4
    (reading_fresh threeLines ⟨by decide, h2⟩ (by decide) h6) rfl (by decide) (by decide)

end Split

end FileBuffer

end SimpleFlashFs
