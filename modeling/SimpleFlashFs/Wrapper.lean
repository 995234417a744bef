import SimpleFlashFs.BankCopy
import SimpleFlashFs.SimpleIni
import SimpleFlashFs.Lib.Pieces

namespace SimpleFlashFs

open Lib

section Content

variable [Config] {s : Fs} {h : FileHandle} {content : List UInt8}

-- the bytes of an entry: a new page is not programmed yet and reads as zeros
def entryBytes (s : Fs) (m : DataPage) : Option (List UInt8) :=
  match m.state with
  | .new => some (List.replicate s.header.pageSize 0)
  | .stored => if (readPage s m.pageId).error = none then some (readPage s m.pageId).page else none
  | .deleted => none

-- the file has this content, and all of it can be read
structure HoldsContent (s : Fs) (h : FileHandle) (content : List UInt8) : Prop where
  connected : h.connected = true
  length : content.length = h.inode.fileLen
  length_lt : h.inode.fileLen < 2 ^ 64
  inline : ServedInline s.header h → h.inode.inodeData.take h.inode.fileLen = content
  paged : ¬ ServedInline s.header h → ∀ k, s.header.pageSize * k < content.length → ∃ m page,
    h.inode.dataPages[k]? = some m ∧ entryBytes s m = some page ∧
      page.take (content.length - s.header.pageSize * k) = slice content (s.header.pageSize * k) s.header.pageSize

theorem HoldsContent.congr (hi : HoldsContent s h content) {k : FileHandle} (hk : k.inode = h.inode) (hc : k.connected = h.connected) :
    HoldsContent s k content := by
  have hserved : ServedInline s.header k ↔ ServedInline s.header h := by
    rw [ServedInline, ServedInline, getInodeDataSpaceSize, getInodeDataSpaceSize, hk]
  refine ⟨by rw [hc]; exact hi.connected, by rw [hk]; exact hi.length, by rw [hk]; exact hi.length_lt, fun hs => ?_, fun hs => ?_⟩
  · rw [hk]
    exact hi.inline (hserved.mp hs)
  · rw [hk]
    exact hi.paged fun h => hs (hserved.mpr h)

-- the page k of the content: the entry, and what read does with it
structure EntryAt (s : Fs) (h : FileHandle) (content : List UInt8) (k : ℕ) (m : DataPage) (page : List UInt8) : Prop where
  entry : h.inode.dataPages[k]? = some m
  length : page.length = s.header.pageSize
  take : page.take (content.length - s.header.pageSize * k) = slice content (s.header.pageSize * k) s.header.pageSize
  bytes : m.state = .new ∧ page = List.replicate s.header.pageSize 0 ∨
    m.state = .stored ∧ (readPage s m.pageId).error = none ∧ page = (readPage s m.pageId).page

theorem HoldsContent.entryAt (hi : HoldsContent s h content) (hno : ¬ ServedInline s.header h) {k : ℕ}
    (hk : s.header.pageSize * k < content.length) : ∃ m page, EntryAt s h content k m page := by
  obtain ⟨m, page, hm, hb, htake⟩ := hi.paged hno k hk
  rw [entryBytes] at hb
  cases hs : m.state with
  | new =>
    rw [hs] at hb
    obtain rfl := Option.some_inj.mp hb
    exact ⟨m, _, hm, List.length_replicate, htake, Or.inl ⟨hs, rfl⟩⟩
  | stored =>
    simp only [hs] at hb
    split at hb
    · next hr =>
      obtain rfl := Option.some_inj.mp hb
      exact ⟨m, _, hm, readPage_length hr, htake, Or.inr ⟨hs, hr, rfl⟩⟩
    · cases hb
  | deleted =>
    rw [hs] at hb
    cases hb

omit [Config] in
theorem slice_of_take {page : List UInt8} {p ps i n : ℕ} (hpage : page.take (content.length - p) = slice content p ps)
    (hn : i + n ≤ ps) (hend : p + i + n ≤ content.length) : slice page i n = slice content (p + i) n := by
  have h1 : slice (page.take (content.length - p)) i n = slice page i n := slice_take (by omega)
  rw [← h1, hpage, slice_slice hn]

theorem readLoop_intact (hps : 0 < s.header.pageSize) (hi : HoldsContent s h content) (hno : ¬ ServedInline s.header h)
    (fuel : ℕ) {k w : ℕ} (acc : List UInt8) (hpos : h.pos = s.header.pageSize * k)
    (hend : h.pos + w ≤ content.length) (hfuel : w ≤ fuel) :
    readLoop s fuel h (acc.length + w) acc = (acc ++ slice content h.pos w, h.advance w) := by
  induction fuel generalizing h acc k w with
  | zero =>
    obtain rfl := Nat.le_zero.mp hfuel
    rw [readLoop, slice_zero, List.append_nil]
    rfl
  | succ fuel ih =>
    by_cases hwant : w = 0
    · rw [hwant, slice_zero, List.append_nil]
      exact readLoop_done _ le_rfl
    · have hidx : h.pos / s.header.pageSize = k := by rw [hpos, Nat.mul_div_cancel_left _ hps]
      obtain ⟨m, page, e⟩ := hi.entryAt hno (k := k) (by omega)
      have hslice : ∀ n, n ≤ s.header.pageSize → n ≤ w → page.take n = slice content h.pos n := by
        intro n hn hw
        have h1 := slice_of_take (i := 0) (n := n) e.take (by omega) (by omega)
        rw [slice, List.drop_zero] at h1
        rw [h1, hpos, Nat.add_zero]
      rw [readLoop]
      dsimp only
      rw [if_pos (by omega), hidx, e.entry]
      dsimp only
      rw [Nat.add_sub_cancel_left]
      by_cases hpart : acc.length + s.header.pageSize > acc.length + w
      · have hle : min w s.header.pageSize = w := by omega
        have hlen : (page.take w).length = w := by
          rw [List.length_take, e.length]
          omega
        rw [if_pos hpart, hle, ← hslice w (by omega) le_rfl]
        rcases e.bytes with ⟨hs, hp⟩ | ⟨hs, hr, hp⟩
        · rw [if_neg (by simp [hs]), if_neg (by simp [hs]), ← hp]
          apply readLoop_done
          rw [List.length_append, hlen]
        · rw [if_neg (by simp [hr]), if_pos hs, ← hp]
          apply readLoop_done
          rw [List.length_append, hlen]
      · obtain ⟨rest, rfl⟩ : ∃ rest, w = s.header.pageSize + rest := ⟨w - s.header.pageSize, by omega⟩
        have hpage : page = slice content h.pos s.header.pageSize := by
          rw [← hslice _ le_rfl (by omega), List.take_of_length_le e.length.le]
        have hnext := ih (h := h.advance s.header.pageSize) (k := k + 1) (w := rest) (hi.congr rfl rfl) hno (acc ++ page)
          (by rw [FileHandle.advance, hpos, Nat.mul_add_one]) (by rw [FileHandle.advance]; dsimp only; omega) (by omega)
        rw [List.length_append, e.length, Nat.add_assoc] at hnext
        have hres : (acc ++ page ++ slice content (h.advance s.header.pageSize).pos rest,
            (h.advance s.header.pageSize).advance rest) =
            (acc ++ slice content h.pos (s.header.pageSize + rest), h.advance (s.header.pageSize + rest)) := by
          rw [advance_advance, slice_add, List.append_assoc, hpage]
          rfl
        rw [← hres, ← hnext, if_neg hpart]
        rcases e.bytes with ⟨hs, hp⟩ | ⟨hs, hr, hp⟩
        · rw [if_pos hs, hp]
        · rw [if_neg (by simp [hs]), if_neg (by simp [hr]), hp]

theorem readDataPages_intact (hps : 0 < s.header.pageSize) (hi : HoldsContent s h content) (hno : ¬ ServedInline s.header h)
    {size : ℕ} (hsize : 0 < size) (hend : h.pos + size ≤ content.length) :
    readDataPages s h size = (slice content h.pos size, h.advance size) := by
  have hdiv := Nat.div_add_mod h.pos s.header.pageSize
  have hstart := Nat.mod_lt h.pos hps
  rw [readDataPages]
  split
  · next hmod =>
    obtain ⟨m, page, e⟩ := hi.entryAt hno (k := h.pos / s.header.pageSize) (by omega)
    obtain ⟨n, hn⟩ : ∃ n, n = min size (s.header.pageSize - h.pos % s.header.pageSize) := ⟨_, rfl⟩
    have hbytes : readUnaligned s h size = some (slice content h.pos n) := by
      have hslice := slice_of_take (i := h.pos % s.header.pageSize) (n := n) e.take (by omega) (by omega)
      rw [hdiv] at hslice
      rw [readUnaligned]
      dsimp only
      rw [e.entry, ← hn]
      dsimp only
      rcases e.bytes with ⟨hs, hp⟩ | ⟨hs, hr, hp⟩
      · rw [if_pos hs, ← hslice, hp, slice, List.drop_replicate, List.take_replicate, Nat.min_eq_left (by omega)]
      · rw [if_neg (by simp [hs]), if_neg (by simp [hr]), ← hp, hslice]
    have hlen : (slice content h.pos n).length = n := by
      rw [slice_length]
      omega
    rw [hbytes]
    dsimp only
    rw [hlen]
    obtain ⟨rest, rfl⟩ : ∃ rest, size = n + rest := ⟨size - n, by omega⟩
    by_cases hrest : rest = 0
    · rw [hrest, Nat.add_zero]
      exact readLoop_done _ hlen.ge
    · have haligned : (h.advance n).pos = s.header.pageSize * (h.pos / s.header.pageSize + 1) := by
        rw [FileHandle.advance, Nat.mul_add_one]
        dsimp only
        omega
      have hloop := readLoop_intact (h := h.advance n) hps (hi.congr rfl rfl) hno (n + rest) (w := rest)
        (slice content h.pos n) haligned (by rw [FileHandle.advance]; dsimp only; omega) (by omega)
      rw [hlen] at hloop
      rw [hloop, slice_add, advance_advance]
      rfl
  · next hmod =>
    have hloop := readLoop_intact (k := h.pos / s.header.pageSize) hps hi hno size (w := size) [] (by omega) hend le_rfl
    rw [List.length_nil, Nat.zero_add, List.nil_append] at hloop
    exact hloop

theorem read_intact (hps : 0 < s.header.pageSize) (hi : HoldsContent s h content) (hpos : h.pos ≤ content.length) (size : ℕ) :
    SimpleFlashFs.read h size s = .ok (slice content h.pos size, h.advance (slice content h.pos size).length) s := by
  have hleft := subU64_of_le (hi.length ▸ hpos) hi.length_lt
  have hlen := hi.length
  obtain ⟨n, hn⟩ : ∃ n, n = min size (content.length - h.pos) := ⟨_, rfl⟩
  have hslice : slice content h.pos size = slice content h.pos n := by
    rw [slice, slice, hn, List.take_eq_take_iff, List.length_drop]
    omega
  have hn' : (slice content h.pos n).length = n := by
    rw [slice_length]
    omega
  have hread : wp (SimpleFlashFs.read h size) (fun r t => r = (slice content h.pos n, h.advance n) ∧ t = s)
      (fun _ _ => False) s := by
    rw [SimpleFlashFs.read, if_pos hi.connected, readFs, wp_bind, wp_get]
    dsimp only
    rw [hleft]
    have hasked : (if h.inode.fileLen - h.pos < size then h.inode.fileLen - h.pos else size) = n := by
      split <;> omega
    rw [hasked, wp_ite]
    constructor
    · intro hzero
      rw [hzero, slice_zero]
      exact ⟨rfl, rfl⟩
    · intro hne
      rw [wp_ite]
      constructor
      · rintro ⟨-, hserved⟩
        have htake := hi.inline hserved
        have hlong : h.inode.fileLen ≤ h.inode.inodeData.length := by
          have hl := congrArg List.length htake
          rw [List.length_take] at hl
          omega
        have hmin : min (h.inode.fileLen - h.pos) n = n := by omega
        have hdata : slice h.inode.inodeData h.pos n = slice content h.pos n := by
          rw [← htake]
          exact (slice_take (by omega)).symm
        rw [hmin, wp_ite, hdata]
        exact ⟨fun hgt => absurd hgt (by omega), fun _ => ⟨rfl, rfl⟩⟩
      · intro hno
        have hpaged : ¬ ServedInline s.header h := fun hserved => hno ⟨lt_of_le_of_lt (by omega) hserved.1, hserved⟩
        rw [readDataPages_intact hps hi hpaged (Nat.pos_of_ne_zero hne) (by omega)]
        exact ⟨rfl, rfl⟩
  rw [hslice, hn']
  unfold wp at hread
  cases hrun : SimpleFlashFs.read h size s with
  | ok r t =>
    rw [hrun] at hread
    rw [hread.1, hread.2]
  | error e t =>
    rw [hrun] at hread
    exact hread.elim

end Content

section Fgets

variable [Config]

-- bytes stored in the memory of the caller
def storeAt (buffer : List UInt8) (index : ℕ) (bytes : List UInt8) : FsM (List UInt8) :=
  if index + bytes.length ≤ buffer.length then pure (overwrite buffer index bytes) else throw .undefined

-- the loop over the bytes that were read counts in an int
def newLineIn (bytes : List UInt8) : Option ℕ := (bytes.take (toInt32 bytes.length).toNat).findIdx? (· = newLine)

-- none: NULL; else the index of the terminator, which is the number of bytes before it
def fgets (buffer : List UInt8) (size : ℤ) (stream : FileHandle) : FsM (Option ℕ × List UInt8 × FileHandle) :=
  if size ≤ 0 then pure (none, buffer, stream)
  else if size = 1 then do
    let buffer ← storeAt buffer 0 [0]
    pure (some 0, buffer, stream)
  else do
    let maxChars := size - 1
    let currentPos := stream.pos
    let r ← SimpleFlashFs.read stream maxChars.toNat
    let lenRead := r.1.length
    let buffer ← storeAt buffer 0 r.1
    if lenRead = 0 then pure (none, buffer, r.2)
    else
      match newLineIn r.1 with
      | some i => do
        let buffer ← storeAt buffer (i + 1) [0]
        let q ← seek r.2 (currentPos + i + 1)
        pure (some (i + 1), buffer, q.2)
      | none => do
        let buffer ← storeAt buffer lenRead [0]
        pure (some lenRead, buffer, r.2)

-- the calls up to the one that returns NULL
def fgetsAll (size : ℤ) : ℕ → List UInt8 → FileHandle → FsM (List (ℕ × List UInt8) × List UInt8 × FileHandle)
  | 0, _, _ => throw .diverges
  | fuel + 1, buffer, stream => do
    let r ← fgets buffer size stream
    match r.1 with
    | none => pure ([], r.2)
    | some len =>
      let rest ← fgetsAll size fuel r.2.1 r.2.2
      pure ((len, r.2.1) :: rest.1, rest.2)

-- the bytes of a string that a call returned
def returnedBytes (call : ℕ × List UInt8) : List UInt8 := call.2.take call.1

variable {s : Fs} {h : FileHandle} {content buffer : List UInt8} {n : ℕ}

omit [Config] in
theorem wp_storeAt {index : ℕ} {bytes : List UInt8} (hlen : index + bytes.length ≤ buffer.length) {R : Fault → Fs → Prop} :
    wp (storeAt buffer index bytes) (fun r t => r = overwrite buffer index bytes ∧ t = s) R s := by
  rw [storeAt, if_pos hlen]
  exact ⟨rfl, rfl⟩

-- what a call has returned: the next piece of the file, terminated in the first n bytes of the buffer
structure ReturnsPiece (n : ℕ) (buffer : List UInt8) (h : FileHandle) (content : List UInt8)
    (r : Option ℕ × List UInt8 × FileHandle) : Prop where
  inode : r.2.2.inode = h.inode
  connected : r.2.2.connected = h.connected
  length : r.2.1.length = buffer.length
  outside : r.2.1.drop n = buffer.drop n
  null : r.1 = none ↔ h.pos = content.length
  piece : ∀ len, r.1 = some len → len < n ∧ r.2.1[len]? = some 0 ∧ r.2.2.pos = h.pos + len ∧ 0 < len ∧
    Piece newLine (n - 1) (content.drop h.pos) (r.2.1.take len) (content.drop (h.pos + len))

omit [Config] in
theorem terminated {bytes : List UInt8} {len : ℕ} (hlen : len ≤ bytes.length) (hn : bytes.length < n) (hbuf : n ≤ buffer.length) :
    (overwrite (overwrite buffer 0 bytes) len [0]).length = buffer.length ∧
    (overwrite (overwrite buffer 0 bytes) len [0]).drop n = buffer.drop n ∧
    (overwrite (overwrite buffer 0 bytes) len [0])[len]? = some 0 ∧
    (overwrite (overwrite buffer 0 bytes) len [0]).take len = bytes.take len := by
  have h0 : 0 + bytes.length ≤ buffer.length := by omega
  have h1 : len + [(0 : UInt8)].length ≤ (overwrite buffer 0 bytes).length := by
    rw [overwrite_length h0, List.length_singleton]
    omega
  refine ⟨by rw [overwrite_length h1, overwrite_length h0], ?_, ?_, ?_⟩
  · apply List.ext_getElem?
    intro i
    rw [List.getElem?_drop, List.getElem?_drop, getElem?_overwrite h1, List.length_singleton, if_neg (by omega),
      if_neg (by omega), getElem?_overwrite h0, if_neg (by omega), if_neg (by omega)]
  · rw [getElem?_overwrite h1, List.length_singleton, if_neg (by omega), if_pos (by omega), Nat.sub_self]
    rfl
  · apply List.ext_getElem?
    intro i
    by_cases hi : i < len
    · rw [List.getElem?_take_of_lt hi, List.getElem?_take_of_lt hi, getElem?_overwrite h1, if_pos hi, getElem?_overwrite h0,
        if_neg (by omega), if_pos (by omega), Nat.sub_zero]
    · rw [List.getElem?_eq_none (by rw [List.length_take]; omega), List.getElem?_eq_none (by rw [List.length_take]; omega)]

omit [Config] in
theorem newLineIn_eq {bytes : List UInt8} (hlen : bytes.length < 2 ^ 31) : newLineIn bytes = bytes.findIdx? (· = newLine) := by
  rw [newLineIn, toInt32_of_lt hlen, Int.toNat_natCast, List.take_length]

omit [Config] in
-- the terminator goes behind the piece, wherever the read stopped
theorem returnsPiece_of_stored {bytes : List UInt8} {len : ℕ} (k : FileHandle) (hbytes : bytes = (content.drop h.pos).take (n - 1))
    (hn : 2 ≤ n) (hlen : len ≤ bytes.length) (hpos : 0 < len) (hbuf : n ≤ buffer.length) (hk : k.inode = h.inode)
    (hc : k.connected = h.connected) (hat : k.pos = h.pos + len)
    (hpiece : Piece newLine (n - 1) (content.drop h.pos) ((content.drop h.pos).take len) (content.drop (h.pos + len))) :
    ReturnsPiece n buffer h content (some len, overwrite (overwrite buffer 0 bytes) len [0], k) := by
  have hshort : bytes.length ≤ n - 1 := by
    rw [hbytes]
    exact List.length_take_le _ _
  have hmore : 0 < (content.drop h.pos).length := by
    rw [hbytes, List.length_take] at hlen
    omega
  rw [List.length_drop] at hmore
  obtain ⟨hsame, houtside, hzero, htake⟩ := terminated (n := n) hlen (by omega) hbuf
  refine ⟨hk, hc, hsame, houtside, iff_of_false nofun (by omega), ?_⟩
  intro l hl
  obtain rfl := Option.some_inj.mp hl
  have hprefix : bytes.take len = (content.drop h.pos).take len := by
    rw [hbytes, List.take_take, Nat.min_eq_left (by omega)]
  dsimp only
  rw [htake, hprefix]
  exact ⟨by omega, hzero, hat, hpos, hpiece⟩

theorem wp_fgets (hps : 0 < s.header.pageSize) (hi : HoldsContent s h content) (hpos : h.pos ≤ content.length) (hn : 2 ≤ n)
    (hint : n < 2 ^ 31) (hbuf : n ≤ buffer.length) :
    wp (fgets buffer n h) (fun r t => ReturnsPiece n buffer h content r ∧ t = s) (fun _ _ => False) s := by
  have hmax : ((n : ℤ) - 1).toNat = n - 1 := by omega
  have hread := read_intact hps hi hpos (n - 1)
  obtain ⟨bytes, hbytes⟩ : ∃ bytes, bytes = (content.drop h.pos).take (n - 1) := ⟨_, rfl⟩
  have hlen : bytes.length = min (n - 1) (content.length - h.pos) := by rw [hbytes, List.length_take, List.length_drop]
  have hstore : 0 + bytes.length ≤ buffer.length := by omega
  have hfound : newLineIn bytes = bytes.findIdx? (· = newLine) := newLineIn_eq (by omega)
  have hlong := hi.length
  rw [slice, ← hbytes] at hread
  obtain ⟨r, hr⟩ : ∃ r, r = (bytes, h.advance bytes.length) := ⟨_, rfl⟩
  have hr1 : r.1 = bytes := by rw [hr]
  have hr2 : r.2 = h.advance bytes.length := by rw [hr]
  rw [← hr] at hread
  rw [fgets, if_neg (by omega), if_neg (by omega)]
  dsimp only
  rw [hmax, wp_bind]
  apply wp_of_eq hread
  rw [wp_bind, hr1, hr2]
  apply wp_mono (wp_storeAt hstore)
  · intro b u hb
    obtain ⟨hb, hu⟩ := hb
    rw [hb, hu, wp_ite, hfound]
    constructor
    · intro hzero
      refine ⟨⟨rfl, rfl, overwrite_length hstore, ?_, iff_of_true rfl (by omega), by simp⟩, rfl⟩
      dsimp only
      rw [List.eq_nil_of_length_eq_zero hzero, overwrite_nil]
    · intro hne
      cases hfind : bytes.findIdx? (· = newLine) with
      | some i =>
        obtain ⟨hlt, hpiece⟩ := piece_of_findIdx (hbytes ▸ hfind)
        rw [← hbytes] at hlt
        rw [List.drop_drop] at hpiece
        dsimp only
        rw [wp_bind]
        apply wp_mono (wp_storeAt (by rw [overwrite_length hstore, List.length_singleton]; omega))
        · intro b' u' hb'
          obtain ⟨hb', hu'⟩ := hb'
          rw [hb', hu', wp_bind, seek, if_pos (by rw [FileHandle.advance]; dsimp only; omega), wp_pure]
          refine ⟨?_, rfl⟩
          exact returnsPiece_of_stored _ hbytes hn hlt (Nat.succ_pos i) hbuf rfl rfl rfl hpiece
        · exact fun _ _ h => h
      | none =>
        have hpiece := piece_of_findIdx_none (hbytes ▸ hfind)
        have hall : (content.drop h.pos).take bytes.length = (content.drop h.pos).take (n - 1) := by
          rw [List.take_eq_take_iff, List.length_drop]
          omega
        have hdrop : (content.drop h.pos).drop bytes.length = (content.drop h.pos).drop (n - 1) := by
          rw [List.drop_eq_drop_iff, List.length_drop]
          omega
        dsimp only
        rw [wp_bind]
        apply wp_mono (wp_storeAt (by rw [overwrite_length hstore, List.length_singleton]; omega))
        · intro b' u' hb'
          obtain ⟨hb', hu'⟩ := hb'
          rw [hb', hu', wp_pure]
          refine ⟨?_, rfl⟩
          apply returnsPiece_of_stored (h.advance bytes.length) hbytes hn le_rfl (Nat.pos_of_ne_zero hne) hbuf rfl rfl rfl
          rw [← List.drop_drop, hall, hdrop]
          exact hpiece
        · exact fun _ _ h => h
  · exact fun _ _ h => h

theorem ReturnsPiece.intact {r : Option ℕ × List UInt8 × FileHandle} (hr : ReturnsPiece n buffer h content r)
    (hi : HoldsContent s h content) : HoldsContent s r.2.2 content := hi.congr hr.inode hr.connected

-- the calls from a position on return the pieces of what is left
structure ReturnsPieces (n : ℕ) (buffer : List UInt8) (text : List UInt8)
    (r : List (ℕ × List UInt8) × List UInt8 × FileHandle) : Prop where
  splits : Splits newLine (n - 1) text (r.1.map returnedBytes)
  terminated : ∀ call ∈ r.1, call.1 < n ∧ call.2[call.1]? = some 0
  inside : ∀ call ∈ r.1, call.2.length = buffer.length ∧ call.2.drop n = buffer.drop n

theorem wp_fgetsAll (hps : 0 < s.header.pageSize) (fuel : ℕ) (hi : HoldsContent s h content) (hpos : h.pos ≤ content.length)
    (hn : 2 ≤ n) (hint : n < 2 ^ 31) (hbuf : n ≤ buffer.length) (hfuel : content.length - h.pos < fuel) :
    wp (fgetsAll n fuel buffer h) (fun r t => ReturnsPieces n buffer (content.drop h.pos) r ∧ t = s) (fun _ _ => False) s := by
  induction fuel generalizing h buffer with
  | zero => exact absurd hfuel (Nat.not_lt_zero _)
  | succ fuel ih =>
    rw [fgetsAll, wp_bind]
    apply wp_mono (wp_fgets hps hi hpos hn hint hbuf)
    · intro r t hr
      obtain ⟨hr, ht⟩ := hr
      rw [ht]
      cases hlen : r.1 with
      | none =>
        rw [hr.null.mp hlen, List.drop_length]
        exact ⟨⟨.nil, nofun, nofun⟩, rfl⟩
      | some len =>
        obtain ⟨hlt, hzero, hnext, hsome, hpiece⟩ := hr.piece len hlen
        have hlong : len ≤ content.length - h.pos := by
          have hl := congrArg List.length hpiece.text
          rw [List.length_append, List.length_take, List.length_drop, List.length_drop] at hl
          have hin := (List.getElem?_eq_some_iff.mp hzero).1
          omega
        dsimp only
        rw [wp_bind]
        apply wp_mono (ih (hr.intact hi) (by omega) (by rw [hr.length]; exact hbuf) (by omega))
        · intro rest u hrest
          obtain ⟨hrest, hu⟩ := hrest
          rw [hnext] at hrest
          refine ⟨⟨.cons hpiece hrest.splits, fun call hcall => ?_, fun call hcall => ?_⟩, hu⟩
          · rcases List.mem_cons.mp hcall with rfl | hcall
            · exact ⟨hlt, hzero⟩
            · exact hrest.terminated call hcall
          · rcases List.mem_cons.mp hcall with rfl | hcall
            · exact ⟨hr.length, hr.outside⟩
            · obtain ⟨h1, h2⟩ := hrest.inside call hcall
              exact ⟨h1.trans hr.length, h2.trans hr.outside⟩
        · exact fun _ _ h => h
    · exact fun _ _ h => h

-- a string that fgets returned before those of `later`
structure LawfulString (n : ℕ) (buffer : List UInt8) (call : ℕ × List UInt8) (later : List (ℕ × List UInt8)) : Prop where
  length_le : (returnedBytes call).length = call.1 ∧ call.1 ≤ n - 1
  newLine_last : newLine ∉ (returnedBytes call).dropLast
  short : call.1 < n - 1 → (returnedBytes call).getLast? ≠ some newLine → (later.map returnedBytes).flatten = []
  terminated : call.1 < n ∧ call.2[call.1]? = some 0
  inside : call.2.length = buffer.length ∧ call.2.drop n = buffer.drop n

theorem fgetsAll_law (hps : 0 < s.header.pageSize) (hi : HoldsContent s h content) (hpos : h.pos = 0) (hn : 2 ≤ n) (hint : n < 2 ^ 31)
    (hbuf : n ≤ buffer.length) {fuel : ℕ} (hfuel : content.length < fuel) :
    ∃ calls left stream, fgetsAll n fuel buffer h s = .ok (calls, left, stream) s ∧
      (calls.map returnedBytes).flatten = content ∧
      ∀ before call later, calls = before ++ call :: later → LawfulString n buffer call later := by
  have hrun := wp_fgetsAll hps fuel hi (by omega) hn hint hbuf (by omega)
  unfold wp at hrun
  cases hall : fgetsAll n fuel buffer h s with
  | error e t =>
    rw [hall] at hrun
    exact hrun.elim
  | ok r t =>
    rw [hall] at hrun
    obtain ⟨hr, rfl⟩ := hrun
    rw [hpos, List.drop_zero] at hr
    refine ⟨r.1, r.2.1, r.2.2, rfl, hr.splits.flatten, fun before call later hcalls => ?_⟩
    have hmem : call ∈ r.1 := by
      rw [hcalls]
      exact List.mem_append_right _ List.mem_cons_self
    have hpiece := hr.splits.piece (a := before.map returnedBytes) (p := returnedBytes call) (b := later.map returnedBytes)
      (by rw [hcalls, List.map_append, List.map_cons])
    obtain ⟨hlt, hzero⟩ := hr.terminated call hmem
    have hlen : (returnedBytes call).length = call.1 := by
      rw [returnedBytes, List.length_take]
      have hin := (List.getElem?_eq_some_iff.mp hzero).1
      omega
    refine ⟨⟨hlen, hlen ▸ hpiece.length_le⟩, hpiece.inside, ?_, ⟨hlt, hzero⟩, hr.inside call hmem⟩
    rw [← hlen]
    exact hpiece.short

end Fgets

-- two lines, the last one not ended
def twoLines : FileHandle where
  inode := { inodeNumber := 1, fileNameLen := 1, fileName := [97], fileLen := 5, inodeData := [97, 98, 10, 99, 100] }
  connected := true

theorem twoLines_holds : @HoldsContent dynamicConfig erasedFs twoLines [97, 98, 10, 99, 100] := by
  have hserved : ServedInline erasedFs.header twoLines := by
    decide
  exact @HoldsContent.mk dynamicConfig _ _ _ rfl rfl (by decide) (fun _ => rfl) fun hno => absurd hserved hno

theorem fgetsAll_law_twoLines :
    ∃ calls left stream, @fgetsAll dynamicConfig 3 6 [1, 1, 1] twoLines erasedFs = .ok (calls, left, stream) erasedFs ∧
      (calls.map returnedBytes).flatten = [97, 98, 10, 99, 100] ∧
      ∀ before call later, calls = before ++ call :: later → LawfulString 3 [1, 1, 1] call later :=
  @fgetsAll_law dynamicConfig erasedFs twoLines [97, 98, 10, 99, 100] [1, 1, 1] 3 (by decide) twoLines_holds rfl (by decide)
    (by decide) (by decide) 6 (by decide)

example : (match @fgetsAll dynamicConfig 3 6 [1, 1, 1] twoLines erasedFs with
    | .ok r _ => r.1.map returnedBytes
    | .error _ _ => []) = [[97, 98], [10], [99, 100]] := by
  decide +kernel

end SimpleFlashFs
