import SimpleFlashFs.Cursor
import SimpleFlashFs.BankCopy

namespace SimpleFlashFs

open Lib

def FileHandle.eof (h : FileHandle) : Bool :=
  if h.inode.fileLen = 0 then true else decide (h.pos = h.inode.fileLen - 1)

section Reading

variable [Config] {s : Fs} {h : FileHandle} {hd : Header}

-- while( !file.eof() ) read( size ), none: not at its end after so many rounds
def readWhileNotEof (size : ℕ) : ℕ → FileHandle → FsM (Option (List UInt8 × FileHandle))
  | 0, _ => pure none
  | rounds + 1, h =>
    if h.eof then pure (some ([], h))
    else do
      let r ← SimpleFlashFs.read h size
      let rest ← readWhileNotEof size rounds r.2
      pure (rest.map fun q => (r.1 ++ q.1, q.2))

-- a page of the list that a read can use
def PageReads (s : Fs) (m : DataPage) : Prop := m.state = .new ∨ m.state = .stored ∧ (readPage s m.pageId).error = none

-- every byte before the end of the file is there to be read
structure Intact (s : Fs) (h : FileHandle) : Prop where
  length_lt : h.inode.fileLen < 2 ^ 64
  stored : h.inode.fileLen < getInodeDataSpaceSize s.header h ∧ h.inode.inodeData ≠ [] ∨
    ∀ idx, idx * s.header.pageSize < h.inode.fileLen → ∃ m, h.inode.dataPages[idx]? = some m ∧ PageReads s m

-- a read of any number of bytes returns none exactly when eof says so
def EofAgrees (s : Fs) (h : FileHandle) : Prop :=
  ∀ size, 1 ≤ size → (h.eof = true ↔ ∃ k, SimpleFlashFs.read h size s = .ok ([], k) s)

-- the loop ends, and what it has read is the rest of the file
def ReadsToEnd (s : Fs) (h : FileHandle) (size : ℕ) : Prop :=
  ∃ rounds bytes k, readWhileNotEof size rounds h s = .ok (some (bytes, k)) s ∧
    bytes.length = h.inode.fileLen - h.pos ∧ ∃ j, SimpleFlashFs.read h (h.inode.fileLen - h.pos) s = .ok (bytes, j) s

theorem readLoop_ne (hps : 0 < s.header.pageSize) {fuel size : ℕ} {m : DataPage}
    (hm : h.inode.dataPages[h.pos / s.header.pageSize]? = some m) (hu : PageReads s m) (hsize : 1 ≤ size) (hfuel : 1 ≤ fuel) :
    (readLoop s fuel h size []).1 ≠ [] := by
  obtain ⟨fuel, rfl⟩ := Nat.exists_eq_succ_of_ne_zero (Nat.one_le_iff_ne_zero.mp hfuel)
  have hnext : ∀ (k : FileHandle) (bytes : List UInt8), 1 ≤ bytes.length → bytes.length ≤ size →
      (readLoop s fuel k size ([] ++ bytes)).1 ≠ [] := by
    intro k bytes hlen hle
    have hmore := (readLoop_upTo (s := s) (h := k) fuel size ([] ++ bytes) hle).more
    rw [List.nil_append] at hmore ⊢
    exact List.length_pos_iff.mp (by omega)
  have hread : m.state = .stored → (readPage s m.pageId).error = none := by
    intro hst
    rcases hu with hu | hu
    · rw [hu] at hst
      cases hst
    · exact hu.2
  rw [readLoop]
  dsimp only
  rw [List.length_nil, if_pos (by omega), hm]
  dsimp only
  rw [Nat.zero_add, Nat.sub_zero]
  split
  · rw [if_neg (fun h => h.2 (hread h.1))]
    apply hnext
    · rw [List.length_take]
      split
      · next hst =>
        rw [readPage_length (hread hst)]
        omega
      · rw [List.length_replicate]
        omega
    · rw [List.length_take]
      omega
  · split
    · apply hnext
      · rw [List.length_replicate]
        omega
      · rw [List.length_replicate]
        omega
    · next hnew =>
      have herr := (hu.resolve_left hnew).2
      rw [if_neg (not_not.mpr herr)]
      apply hnext
      · rw [readPage_length herr]
        omega
      · rw [readPage_length herr]
        omega

theorem readDataPages_ne (hps : 0 < s.header.pageSize) {size : ℕ} {m : DataPage}
    (hm : h.inode.dataPages[h.pos / s.header.pageSize]? = some m) (hu : PageReads s m) (hsize : 1 ≤ size) :
    (readDataPages s h size).1 ≠ [] := by
  unfold readDataPages
  by_cases hstart : h.pos % s.header.pageSize ≠ 0
  · rw [if_pos hstart]
    have hmod := Nat.mod_lt h.pos hps
    have hbytes : ∃ bytes : List UInt8, readUnaligned s h size = some bytes ∧ 1 ≤ bytes.length ∧ bytes.length ≤ size := by
      rw [readUnaligned]
      simp only [hm]
      rcases hu with hnew | ⟨hst, herr⟩
      · rw [if_pos hnew]
        refine ⟨_, rfl, ?_⟩
        rw [List.length_replicate]
        omega
      · rw [if_neg (by rw [hst]; decide), if_neg (not_not.mpr herr)]
        refine ⟨_, rfl, ?_⟩
        rw [slice_length, readPage_length herr]
        omega
    obtain ⟨bytes, hb, hpos, hle⟩ := hbytes
    rw [hb]
    have hmore := (readLoop_upTo (s := s) (h := h.advance bytes.length) size size bytes hle).more
    exact List.length_pos_iff.mp (hpos.trans hmore)
  · rw [if_neg hstart]
    exact readLoop_ne hps hm hu hsize hsize

theorem wp_read_ne (hc : CursorSound hd h) (hps : 0 < hd.pageSize) (hh : s.header = hd) (hcon : h.connected = true)
    (hi : Intact s h) (hlt : h.pos < h.inode.fileLen) {size : ℕ} (hsize : 1 ≤ size) :
    wp (SimpleFlashFs.read h size) (fun r t => t = s ∧ r.1 ≠ []) (fun _ _ => False) s := by
  have hleft := subU64_of_le hc.pos hi.length_lt
  rw [SimpleFlashFs.read, if_pos hcon]
  simp only [readFs, wp_bind, wp_get]
  rw [hleft]
  generalize hn : (if h.inode.fileLen - h.pos < size then h.inode.fileLen - h.pos else size) = n
  have hbound : 1 ≤ n ∧ n ≤ h.inode.fileLen - h.pos := by
    rw [← hn]
    split <;> omega
  rw [if_neg (by omega), wp_ite]
  constructor
  · rintro ⟨-, h2, h3⟩
    have hinline := hc.inline h3 (by rw [← hh]; exact h2)
    rw [if_neg (by omega)]
    refine ⟨rfl, List.length_pos_iff.mp ?_⟩
    rw [slice_length]
    omega
  · intro hout
    have hpages := hi.stored.resolve_left fun hin => hout ⟨by omega, hin.1, hin.2⟩
    obtain ⟨m, hm, hu⟩ := hpages (h.pos / s.header.pageSize) (lt_of_le_of_lt (Nat.div_mul_le_self _ _) hlt)
    exact ⟨rfl, readDataPages_ne (by rw [hh]; exact hps) hm hu hbound.1⟩

theorem read_at_end (hcon : h.connected = true) (hpos : h.pos = h.inode.fileLen) (hlen : h.inode.fileLen < 2 ^ 64)
    (size : ℕ) : SimpleFlashFs.read h size s = .ok ([], h) s := by
  have hleft := subU64_of_le hpos.le hlen
  have hw : wp (SimpleFlashFs.read h size) (fun r t => r = ([], h) ∧ t = s) (fun _ _ => False) s := by
    rw [SimpleFlashFs.read, if_pos hcon]
    simp only [readFs, wp_bind, wp_get]
    rw [hleft, if_pos (by split <;> omega)]
    exact ⟨rfl, rfl⟩
  unfold wp at hw
  split at hw
  · next r t hr =>
    obtain ⟨rfl, rfl⟩ := hw
    exact hr
  · exact hw.elim

theorem eofAgrees_iff_of_sound (hc : CursorSound hd h) (hps : 0 < hd.pageSize) (hh : s.header = hd)
    (hcon : h.connected = true) (hi : Intact s h) : EofAgrees s h ↔ h.inode.fileLen = 0 ∨ h.pos + 1 < h.inode.fileLen := by
  have hpos := hc.pos
  have hmore : h.pos < h.inode.fileLen → ∀ size, 1 ≤ size → ¬ ∃ k, SimpleFlashFs.read h size s = .ok ([], k) s := by
    rintro hlt size hsize ⟨k, hr⟩
    have hw := wp_read_ne hc hps hh hcon hi hlt hsize
    unfold wp at hw
    rw [hr] at hw
    exact hw.2 rfl
  by_cases hzero : h.inode.fileLen = 0
  · refine iff_of_true (fun size _ => ?_) (Or.inl hzero)
    refine iff_of_true (by rw [FileHandle.eof, if_pos hzero]) ⟨h, ?_⟩
    exact read_at_end hcon (by omega) hi.length_lt size
  · have heof : h.eof = true ↔ h.pos = h.inode.fileLen - 1 := by
      rw [FileHandle.eof, if_neg hzero, decide_eq_true_eq]
    constructor
    · intro ha
      right
      have hone := ha 1 le_rfl
      rw [heof] at hone
      by_contra hlate
      by_cases hlt : h.pos < h.inode.fileLen
      · exact hmore hlt 1 le_rfl (hone.mp (by omega))
      · have := hone.mpr ⟨h, read_at_end hcon (by omega) hi.length_lt 1⟩
        omega
    · rintro (h0 | hlt) size hsize
      · exact absurd h0 hzero
      · rw [heof]
        exact iff_of_false (by omega) (hmore (by omega) size hsize)

omit [Config] in
theorem eof_handleAppendMode {mode : OpenMode} (hm : mode.ate = true) (h : FileHandle) :
    (handleAppendMode mode h).eof = true := by
  unfold FileHandle.eof
  split
  · rfl
  · next hne =>
    have hpos : h.inode.fileLen > 0 := Nat.pos_of_ne_zero hne
    simp [handleAppendMode, hm, hpos]

theorem wp_openFile_ate {mode : OpenMode} (hm : mode.ate = true) (name : List UInt8) :
    wp (openFile name mode) (fun h _ => h.eof = true) (fun _ _ => True) s := by
  rw [openFile]
  apply wp_bind_any
  intro h t
  rw [wp_ite]
  constructor
  · intro _
    rw [wp_ite]
    refine ⟨fun _ => rfl, fun _ => ?_⟩
    rw [openNew]
    apply wp_bind_any
    intro k u
    simp only [wp_bind, wp_get]
    rw [wp_ite]
    refine ⟨fun _ => rfl, fun _ => ?_⟩
    rw [wp_ite]
    exact ⟨fun _ => wp_bind_any fun _ _ => rfl, fun _ => eof_handleAppendMode hm _⟩
  · intro _
    rw [wp_ite]
    refine ⟨fun _ => ?_, fun _ => eof_handleAppendMode hm h⟩
    rw [openTrunc]
    apply wp_bind_any
    intro k u
    rw [wp_ite]
    refine ⟨fun _ => wp_bind_any fun _ _ => rfl, fun _ => ?_⟩
    apply wp_bind_any
    exact fun _ _ => rfl

omit [Config] in
theorem CursorSound.at (hc : CursorSound hd h) {p : ℕ} (hp : p ≤ h.inode.fileLen) : CursorSound hd { h with pos := p } :=
  ⟨hp, hc.inline, hc.inlineOnly, hc.deletedLast, hc.nameLen⟩

-- the loop only moves the cursor, by what it reads, and ends where eof is true
theorem wp_readWhileNotEof (hc : CursorSound hd h) (hh : s.header = hd) (size rounds : ℕ) :
    wp (readWhileNotEof size rounds h)
      (fun r _ => ∀ q, r = some q → q.2 = { h with pos := h.pos + q.1.length } ∧ q.2.eof = true) (fun _ _ => True) s := by
  induction rounds generalizing h with
  | zero =>
    intro q hq
    cases hq
  | succ rounds ih =>
    rw [readWhileNotEof, wp_ite]
    constructor
    · intro heof q hq
      obtain rfl := Option.some_inj.mp hq
      exact ⟨rfl, heof⟩
    · intro _
      rw [wp_bind]
      apply wp_mono (wp_read_sound hc hh size)
      · rintro ⟨bytes, k⟩ t ⟨rfl, hlen, hk⟩
        dsimp only at hlen hk
        have hpos := hc.pos
        have hnext : CursorSound hd { h with pos := h.pos + bytes.length } := hc.at (by omega)
        rw [wp_bind, hk]
        apply wp_mono (ih hnext)
        · intro rest _ hrest q hq
          obtain ⟨q', rfl, rfl⟩ := Option.map_eq_some_iff.mp hq
          obtain ⟨hmoved, heof⟩ := hrest q' rfl
          refine ⟨?_, heof⟩
          rw [hmoved, List.length_append, Nat.add_assoc]
        · exact fun _ _ h => h
      · exact fun _ _ _ => trivial

theorem readsToEnd_iff (hc : CursorSound hd h) (hh : s.header = hd) (hcon : h.connected = true) (hi : Intact s h)
    (size : ℕ) : ReadsToEnd s h size ↔ h.inode.fileLen = 0 := by
  have hpos := hc.pos
  constructor
  · rintro ⟨rounds, bytes, k, hrun, hlen, -⟩
    obtain ⟨hk, heof⟩ := wp_ok (wp_readWhileNotEof hc hh size rounds) hrun _ rfl
    -- eof is true one byte before the end
    by_contra hne
    dsimp only at hk heof
    rw [hk, FileHandle.eof, if_neg hne, decide_eq_true_eq] at heof
    dsimp only at heof
    omega
  · intro hzero
    have heof : h.eof = true := by rw [FileHandle.eof, if_pos hzero]
    refine ⟨1, [], h, ?_, ?_, h, ?_⟩
    · rw [readWhileNotEof, if_pos heof]
      rfl
    · rw [hzero, Nat.zero_sub]
      rfl
    · exact read_at_end hcon (by omega) hi.length_lt _

theorem eof_law (hps : 0 < hd.pageSize) :
    (∀ (name : List UInt8) (mode : OpenMode) (s t : Fs) (h : FileHandle), mode.ate = true →
      openFile name mode s = .ok h t → h.eof = true) ∧
    ∀ (s : Fs) (h : FileHandle), Reached hd Call.Regular h → s.header = hd → h.connected = true → Intact s h →
      (EofAgrees s h ↔ h.inode.fileLen = 0 ∨ h.pos + 1 < h.inode.fileLen) ∧
        ∀ size, 1 ≤ size → (ReadsToEnd s h size ↔ h.inode.fileLen = 0) := by
  constructor
  · intro name mode s t h hm ho
    exact wp_ok (Q := fun h _ => h.eof = true) (wp_openFile_ate hm name) ho
  · intro s h hr hh hcon hi
    have hc := cursorSound_of_reached hps hr
    exact ⟨eofAgrees_iff_of_sound hc hps hh hcon hi, fun size _ => readsToEnd_iff hc hh hcon hi size⟩

end Reading

theorem written_intact : ∃ h, @Reached dynamicConfig erasedHeader (@Call.Regular dynamicConfig) h ∧
    @Intact dynamicConfig erasedFs h ∧ h.connected = true ∧ h.pos = 3 ∧ h.inode.fileLen = 3 := by
  have hrun : @callOnNew dynamicConfig (.write [1, 2, 3])
      (fun t h => t.header = erasedHeader ∧ t.freeDataPages = erasedFs.freeDataPages ∧
        @writeStopsBehind dynamicConfig t h [1, 2, 3] = false)
      (fun h => h.connected = true ∧ h.pos = 3 ∧ h.inode.fileLen = 3 ∧
        3 < getInodeDataSpaceSize erasedHeader h ∧ h.inode.inodeData ≠ []) = true := by
    decide +kernel
  obtain ⟨h, hr, ha⟩ := @reached_of_callOnNew dynamicConfig (@Call.Regular dynamicConfig) _ _ _ hrun (by
    intro t h hb
    obtain ⟨hh, hf, hw⟩ := of_decide_eq_true hb
    exact ⟨hh, by rw [hf]; exact erasedFs_free, hw⟩)
  obtain ⟨hcon, hpos, hlen, hspace, hdata⟩ := of_decide_eq_true ha
  refine ⟨h, hr, @Intact.mk dynamicConfig _ _ ?_ (Or.inl ⟨?_, hdata⟩), hcon, hpos, hlen⟩
  · rw [hlen]
    decide
  · rw [hlen]
    exact hspace

-- at the end of three bytes there is nothing to read and eof denies it, the loop goes on for ever
theorem eof_deniesEnd : ∃ h, @Reached dynamicConfig erasedHeader (@Call.Regular dynamicConfig) h ∧
    @Intact dynamicConfig erasedFs h ∧ h.connected = true ∧ ¬ @EofAgrees dynamicConfig erasedFs h ∧
      ∀ size, 1 ≤ size → ¬ @ReadsToEnd dynamicConfig erasedFs h size := by
  obtain ⟨h, hr, hi, hcon, hpos, hlen⟩ := written_intact
  have hc := @cursorSound_of_reached dynamicConfig erasedHeader (by decide) h hr
  refine ⟨h, hr, hi, hcon, fun ha => ?_, fun size _ hread => ?_⟩
  · have hlt := @Intact.length_lt dynamicConfig _ _ hi
    have heof := (ha 1 le_rfl).mpr ⟨h, @read_at_end dynamicConfig _ _ hcon (by omega) hlt 1⟩
    simp [FileHandle.eof, hpos, hlen] at heof
  · have := (@readsToEnd_iff dynamicConfig _ _ _ hc rfl hcon hi size).mp hread
    omega

theorem eof_law_written : ∃ h, h.pos = 3 ∧ h.inode.fileLen = 3 ∧
    (@EofAgrees dynamicConfig erasedFs h ↔ h.inode.fileLen = 0 ∨ h.pos + 1 < h.inode.fileLen) ∧
      ∀ size, 1 ≤ size → (@ReadsToEnd dynamicConfig erasedFs h size ↔ h.inode.fileLen = 0) := by
  obtain ⟨h, hr, hi, hcon, hpos, hlen⟩ := written_intact
  exact ⟨h, hpos, hlen, (@eof_law dynamicConfig erasedHeader (by decide)).2 erasedFs h hr rfl hcon hi⟩

end SimpleFlashFs
