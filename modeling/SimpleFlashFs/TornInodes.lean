import SimpleFlashFs.TrashStat
import SimpleFlashFs.DefaultLayout

namespace SimpleFlashFs

open Lib

section Scanning

variable [Config] {s t u : Fs} {hd : Header} {i : ℕ} {l : List ℕ} {decode : Header → List UInt8 → Except Fault FileHandle}

theorem initNoDelWith_decodeInode : initNoDelWith (decodeInode · · false) = initNoDel := rfl

-- a page with something else than an intact record
def HalfWritten (s : Fs) (i : ℕ) : Prop :=
  (readPage s i true).error = some .crcError ∧ isEmptyPage (pageAt s i) = false

instance (s : Fs) (i : ℕ) : Decidable (HalfWritten s i) := inferInstanceAs (Decidable (_ ∧ _))

-- the records are as flush leaves them
def RecordsReadable (s : Fs) : Prop := ∀ i < s.header.maxInodes, CrcValid s i →
  ∃ h, decodeInode s.header (pageAt s i) false = .ok h ∧ h.modified = false ∧ ∀ p ∈ h.ids, p < noData

-- a get_inode that reads the intact records like the one of the program
def AgreesOnRecords (s : Fs) (decode : Header → List UInt8 → Except Fault FileHandle) : Prop :=
  ∀ i < s.header.maxInodes, CrcValid s i → decode s.header (pageAt s i) = decodeInode s.header (pageAt s i) false

-- what read_inode tells of page i
def seen (s : Fs) (i : ℕ) : Option FileHandle :=
  match (readPage s i true).error with
  | none => (decodeInode s.header (pageAt s i) false).toOption
  | some .crcError => if isEmptyPage (pageAt s i) then some {} else none
  | some .readError => none

theorem readPageMapped_error (s : Fs) (i : ℕ) : (readPageMapped s i true).error = (readPage s i true).error := by
  have hlen := slice_length s.mem.bytes (pageOffset s.header i) s.header.pageSize
  by_cases hin : pageOffset s.header i + s.header.pageSize ≤ s.mem.bytes.length
  · have hfull : (s.mem.read (pageOffset s.header i) s.header.pageSize).length = s.header.pageSize := by
      rw [Memory.read, hlen]
      omega
    simp only [readPageMapped, readPage, Memory.mapRead, if_pos hin, hfull, ne_eq, not_true_eq_false, if_false]
    rfl
  · have hzero : s.header.pageSize = 0 → pageOffset s.header i = 0 := by
      intro h0
      rw [pageOffset, h0, Nat.mul_zero]
    have hshort : (s.mem.read (pageOffset s.header i) s.header.pageSize).length ≠ s.header.pageSize := by
      rw [Memory.read, hlen]
      omega
    simp only [readPageMapped, Memory.mapRead, if_neg hin, readPage, if_pos hshort]

-- what get_inode makes of a half-written page, where it gets to see one, is dropped unmodified
def Discarded (s : Fs) (decode : Header → List UInt8 → Except Fault FileHandle) (i : ℕ) : Prop :=
  s.mem.canMapRead = true → HalfWritten s i → ∃ h, decode s.header (pageAt s i) = .ok h ∧ h.modified = false

theorem discarded_of_not (hm : s.mem.canMapRead = true → ¬ HalfWritten s i) : Discarded s decode i :=
  fun hcan hhalf => absurd hhalf (hm hcan)

-- only reservations were given back
def OnlyFreed (s t : Fs) : Prop := t = { s with allocatedUnwrittenPages := t.allocatedUnwrittenPages }

theorem wp_closeHandle_frees {h : FileHandle} (hm : h.modified = false) (R : Fault → Fs → Prop) :
    wp (closeHandle h) (fun _ t => OnlyFreed s t) R s := by
  have hfree : ∀ (l : List DataPage) (t : Fs), t = { s with allocatedUnwrittenPages := t.allocatedUnwrittenPages } →
      wp (each (fun p : DataPage => freeUnwrittenPages p.pageId) l)
        (fun _ u => u = { s with allocatedUnwrittenPages := u.allocatedUnwrittenPages }) R t := by
    intro l
    induction l with
    | nil => exact fun t ht => ht
    | cons m l ih =>
      intro t ht
      rw [each, freeUnwrittenPages, wp_bind, wp_modify]
      apply ih
      rw [ht]
  rw [closeHandle]
  split
  · next hc =>
    rw [flush, if_neg (by simp [hc]), if_pos (by simp [hm]), wp_bind, wp_pure, wp_bind, freeUnwrittenPages, wp_modify]
    exact hfree _ _ rfl
  · rfl

theorem wp_readInodeWith (hq : RecordsReadable s) (ha : AgreesOnRecords s decode) (hm : Discarded s decode i)
    (hi : i < s.header.maxInodes) (hu : Untouched s t) :
    wp (readInodeWith decode i)
      (fun r u => r = seen s i ∧ OnlyFreed t u ∧ ((s.mem.canMapRead = true → ¬ HalfWritten s i) → u = t))
      (fun _ _ => False) t := by
  have hmapped : readPageMapped t i true = readPageMapped s i true := by
    simp only [readPageMapped, hu.mem, hu.header]
  have herror := readPageMapped_error s i
  -- either way of reading comes to the record of the page
  have hrecord : ∀ page, page = pageAt s i → (readPage s i true).error = none →
      wp (some <$> do
        let s ← get
        liftFault (decode s.header page))
        (fun r u => r = seen s i ∧ OnlyFreed t u ∧ ((s.mem.canMapRead = true → ¬ HalfWritten s i) → u = t))
        (fun _ _ => False) t := by
    intro page hp hok
    obtain ⟨h, hdec, -⟩ := hq i hi hok
    rw [wp_map]
    simp only [wp_bind, wp_get, hu.header, hp, ha i hi hok, hdec, liftFault, wp_pure, seen, hok]
    exact ⟨rfl, rfl, fun _ => trivial⟩
  simp only [readInodeWith, wp_bind, wp_get]
  rw [wp_ite, hu.mem, hmapped, hu.readPage]
  constructor
  · intro hcan
    rw [herror]
    cases he : (readPage s i true).error with
    | none => exact hrecord _ (mapped_page (by simp [herror, he])) he
    | some e =>
      cases e with
      | readError => exact ⟨by rw [seen, he], rfl, fun _ => rfl⟩
      | crcError =>
        have hpage : (readPageMapped s i true).page = pageAt s i := mapped_page (by simp [herror, he])
        dsimp only
        rw [hpage, wp_ite]
        constructor
        · intro hempty
          exact ⟨by rw [seen, he, if_pos hempty], rfl, fun _ => rfl⟩
        · intro hempty
          have hhalf : HalfWritten s i := ⟨he, by simpa using hempty⟩
          obtain ⟨h, hdec, hmod⟩ := hm hcan hhalf
          simp only [wp_bind, wp_get, hu.header, hdec, liftFault, wp_pure]
          apply wp_mono (wp_closeHandle_frees hmod _)
          · exact fun _ u hclosed => ⟨by rw [seen, he, if_neg hempty], hclosed, fun hno => absurd hhalf (hno hcan)⟩
          · exact fun _ _ h => h
  · intro _
    cases he : (readPage s i true).error with
    | none => exact hrecord _ (readPage_page s i) he
    | some e =>
      cases e with
      | readError => exact ⟨by rw [seen, he], rfl, fun _ => rfl⟩
      | crcError =>
        dsimp only
        rw [readPage_page, seen, he]
        dsimp only
        split
        · exact ⟨rfl, rfl, fun _ => rfl⟩
        · exact ⟨rfl, rfl, fun _ => rfl⟩

theorem readInodeWith_eq (hq : RecordsReadable s) (ha : AgreesOnRecords s decode)
    (hm : s.mem.canMapRead = true → ¬ HalfWritten s i) (hi : i < s.header.maxInodes) (hu : Untouched s t) :
    readInodeWith decode i t = .ok (seen s i) t := by
  obtain ⟨r, u, hr, rfl, -, hut⟩ := returns_of_wp (wp_readInodeWith hq ha (discarded_of_not hm) hi hu)
  rw [hr, hut hm]

-- the versions that the pages of l hold, as iv_storage keeps them
def versionsOf (s : Fs) (l : List ℕ) : List InodeVersion :=
  l.foldl (fun ivs i => (addInodeVersion (rawAt s i) ivs).1) []

def largestNumber (s : Fs) (l : List ℕ) : ℕ := l.foldl (fun n i => max n (numberAt s i)) s.maxInodeNumber

-- the statistics with one more record, when ivs are the versions seen before
def countRecord (s : Fs) (ivs : List InodeVersion) (i : ℕ) (t : Stat) : Stat :=
  let t := match (addInodeVersion (rawAt s i) ivs).2 with
    | .replaced => { t with trashInodes := t.trashInodes + 1 }
    | .inserted => { t with usedInodes := t.usedInodes + 1 }
  { t with
    largestFileSize := max t.largestFileSize (rawAt s i).inode.fileLen
    trashSize := t.trashSize + (listed s i).length * s.header.pageSize }

def statOf (s : Fs) : List ℕ → List InodeVersion → Stat → Stat
  | [], _, t => t
  | i :: l, ivs, t => statOf s l (addInodeVersion (rawAt s i) ivs).1 (countRecord s ivs i t)

omit [Config] in
theorem statOf_append (l : List ℕ) (i : ℕ) (ivs : List InodeVersion) (t : Stat) : statOf s (l ++ [i]) ivs t =
    countRecord s (l.foldl (fun ivs i => (addInodeVersion (rawAt s i) ivs).1) ivs) i (statOf s l ivs t) := by
  induction l generalizing ivs t with
  | nil => rfl
  | cons j l ih => exact ih _ _

omit [Config] in
theorem statOf_congr (hps : t.header.pageSize = s.header.pageSize) (hraw : ∀ i ∈ l, rawAt t i = rawAt s i)
    (ivs : List InodeVersion) (r : Stat) : statOf t l ivs r = statOf s l ivs r := by
  induction l generalizing ivs r with
  | nil => rfl
  | cons i l ih =>
    have hi := hraw i List.mem_cons_self
    have hlisted : listed t i = listed s i := by rw [← rawAt_ids, ← rawAt_ids, hi]
    simp only [statOf, countRecord, hi, hlisted, hps]
    exact ih (fun j hj => hraw j (List.mem_cons_of_mem i hj)) _ _

-- the scan after the pages of l
structure BootScan (s : Fs) (l : List ℕ) (t : Fs) : Prop extends Untouched s t where
  ivStorage : t.ivStorage = versionsOf s (l.filter fun i => CrcValid s i)
  stat : t.stat = statOf s (l.filter fun i => CrcValid s i) [] {}
  maxInodeNumber : t.maxInodeNumber = largestNumber s (l.filter fun i => CrcValid s i)
  wf : t.freeDataPages.WF
  free : ∀ p, p ∈ t.freeDataPages ↔ DataRegion s p ∧ p ∉ (l.filter fun i => CrcValid s i).flatMap (listed s)

-- of the free pages those of the list go, and each counts as trash
omit [Config] in
theorem wp_takeListed {pages : List DataPage} (hw : s.freeDataPages.WF) (hl : ∀ m ∈ pages, m.pageId < noData)
    (R : Fault → Fs → Prop) :
    wp (each (fun p : DataPage => do
        let s ← get
        modifyStat fun t => { t with trashSize := t.trashSize + s.header.pageSize }
        eraseFreeDataPage p.pageId) pages)
      (fun _ t => t = { s with
          stat := { s.stat with trashSize := s.stat.trashSize + pages.length * s.header.pageSize }
          freeDataPages := t.freeDataPages } ∧ t.freeDataPages.WF ∧
        ∀ p, p ∈ t.freeDataPages ↔ p ∈ s.freeDataPages ∧ p ∉ pages.map DataPage.pageId) R s := by
  induction pages generalizing s with
  | nil => exact ⟨by simp, hw, by simp⟩
  | cons m pages ih =>
    have hm := hl m List.mem_cons_self
    rw [each]
    simp only [wp_bind, wp_get, modifyStat, eraseFreeDataPage, wp_modify]
    apply wp_mono (ih (PageSet.erase_wf hw hm) fun k hk => hl k (List.mem_cons_of_mem m hk))
    · rintro _ t ⟨hrest, hwt, hfree⟩
      refine ⟨?_, hwt, fun p => ?_⟩
      · rw [hrest]
        dsimp only
        rw [List.length_cons, Nat.succ_mul, Nat.add_assoc, Nat.add_comm s.header.pageSize]
      · rw [hfree]
        dsimp only
        rw [PageSet.mem_erase hw hm, List.map_cons, List.mem_cons, not_or, and_assoc]
    · exact fun _ _ h => h

theorem seen_of_valid (hq : RecordsReadable s) (hi : i < s.header.maxInodes) (hok : CrcValid s i) :
    ∃ h, seen s i = some h ∧ h.connected = true ∧ { h with page := i } = rawAt s i ∧ (rawAt s i).modified = false ∧
      ∀ m ∈ (rawAt s i).inode.dataPages, m.pageId < noData := by
  obtain ⟨h, hdec, hm, hids⟩ := hq i hi hok
  have hraw := rawAt_of_decode hdec
  refine ⟨h, ?_, decodeInode_connected hdec, hraw, ?_, ?_⟩
  · rw [seen, show (readPage s i true).error = none from hok, hdec]
    rfl
  · rw [← hraw]
    exact hm
  · rw [← hraw]
    exact fun m hm => hids _ (List.mem_map_of_mem hm)

theorem seen_of_not_valid (hok : ¬ CrcValid s i) : seen s i = some {} ∨ seen s i = none := by
  rw [CrcValid] at hok
  rw [seen]
  split
  · next he => exact absurd he hok
  · split
    · exact Or.inl rfl
    · exact Or.inr rfl
  · exact Or.inr rfl

theorem BootScan.of_freed (hc : BootScan s l t) (hu : OnlyFreed t u) : BootScan s l u := by
  rw [hu]
  exact ⟨⟨hc.mem, hc.header, hc.variant⟩, hc.ivStorage, hc.stat, hc.maxInodeNumber, hc.wf, hc.free⟩

theorem wp_noDelInodePageWith (hq : RecordsReadable s) (ha : AgreesOnRecords s decode) (hm : Discarded s decode i)
    (hi : i < s.header.maxInodes) (hc : BootScan s l t) :
    wp (noDelInodePageWith decode i) (fun _ u => BootScan s (l ++ [i]) u) (fun _ _ => False) t := by
  rw [noDelInodePageWith, wp_bind]
  apply wp_mono (wp_readInodeWith hq ha hm hi hc.toUntouched) _ fun _ _ h => h
  rintro _ t' ⟨rfl, hfreed, -⟩
  replace hc := hc.of_freed hfreed
  by_cases hok : CrcValid s i
  · have hfilter : (l ++ [i]).filter (fun i => CrcValid s i) = (l.filter fun i => CrcValid s i) ++ [i] := by
      simp [List.filter_append, hok]
    obtain ⟨h, hseen, hcon, hraw, hmod, hids⟩ := seen_of_valid hq hi hok
    rw [hseen]
    dsimp only
    rw [if_neg (by simp [hcon])]
    simp only [wp_bind, wp_modify, addIvStorage, wp_get, wp_set, wp_pure, hraw]
    have hlisted : (rawAt s i).inode.dataPages.length = (listed s i).length := by
      rw [← rawAt_ids, FileHandle.ids, List.length_map]
    -- the pages of the record go, after it was counted
    have hrest : ∀ v : Fs, Untouched s v → v.ivStorage = (addInodeVersion (rawAt s i) t'.ivStorage).1 →
        { v.stat with trashSize := v.stat.trashSize + (listed s i).length * s.header.pageSize } =
          countRecord s t'.ivStorage i t'.stat →
        v.maxInodeNumber = max t'.maxInodeNumber (numberAt s i) → v.freeDataPages = t'.freeDataPages →
        wp (each (fun p : DataPage => do
            let s ← get
            modifyStat fun t => { t with trashSize := t.trashSize + s.header.pageSize }
            eraseFreeDataPage p.pageId) (rawAt s i).inode.dataPages)
          (fun _ w => wp (closeHandle (rawAt s i)) (fun _ u => BootScan s (l ++ [i]) u) (fun _ _ => False) w)
          (fun _ _ => False) v := by
      intro v hv hiv hstat hmax hfree
      apply wp_mono (wp_takeListed (by rw [hfree]; exact hc.wf) hids _)
      · rintro _ w ⟨hw, hwf, hmem⟩
        apply wp_mono (wp_closeHandle_frees hmod _)
        · intro _ u hu
          have hstay : u.mem = v.mem ∧ u.header = v.header ∧ u.variant = v.variant ∧ u.ivStorage = v.ivStorage ∧
              u.maxInodeNumber = v.maxInodeNumber ∧ u.freeDataPages = w.freeDataPages ∧ u.stat = w.stat := by
            rw [hu, hw]
            exact ⟨rfl, rfl, rfl, rfl, rfl, rfl, rfl⟩
          obtain ⟨hum, huh, huv, hui, hun, huf, hus⟩ := hstay
          refine ⟨hv.trans ⟨hum, huh, huv⟩, ?_, ?_, ?_, by rw [huf]; exact hwf, fun p => ?_⟩
          · rw [hui, hiv, hc.ivStorage, hfilter, versionsOf, versionsOf, List.foldl_append]
            rfl
          · rw [hus, hw]
            dsimp only
            rw [hlisted, hv.header, hstat, hc.ivStorage, hc.stat, hfilter, statOf_append]
            rfl
          · rw [hun, hmax, hc.maxInodeNumber, hfilter, largestNumber, largestNumber, List.foldl_append]
            rfl
          · rw [huf, hmem, hfree, hc.free, hfilter, List.flatMap_append, List.mem_append, not_or, and_assoc,
              List.flatMap_singleton, ← rawAt_ids]
            rfl
        · exact fun _ _ h => h
      · exact fun _ _ h => h
    have hu := hc.toUntouched
    have hpages : h.inode.dataPages = (rawAt s i).inode.dataPages := by rw [← hraw]
    have hnumber : h.inode.inodeNumber = numberAt s i := by rw [numberAt, ← hraw]
    have hsize : h.inode.fileLen = (rawAt s i).inode.fileLen := by rw [← hraw]
    cases hadd : (addInodeVersion (rawAt s i) t'.ivStorage).2 with
    | replaced =>
      simp only [modifyStat, wp_bind, wp_modify, hpages]
      refine hrest _ ⟨hu.mem, hu.header, hu.variant⟩ rfl ?_ (by rw [hnumber]) rfl
      simp only [countRecord, hadd, hsize]
    | inserted =>
      simp only [modifyStat, wp_bind, wp_modify, hpages]
      refine hrest _ ⟨hu.mem, hu.header, hu.variant⟩ rfl ?_ (by rw [hnumber]) rfl
      simp only [countRecord, hadd, hsize]
  · have hfilter : (l ++ [i]).filter (fun i => CrcValid s i) = l.filter fun i => CrcValid s i := by
      simp [List.filter_append, hok]
    have hstay : BootScan s (l ++ [i]) t' :=
      ⟨hc.toUntouched, by rw [hfilter]; exact hc.ivStorage, by rw [hfilter]; exact hc.stat,
        by rw [hfilter]; exact hc.maxInodeNumber, hc.wf, by rw [hfilter]; exact hc.free⟩
    rcases seen_of_not_valid hok with hseen | hseen
    · rw [hseen]
      dsimp only
      rw [if_pos (by simp)]
      exact hstay
    · -- no data page has the number of an inode page
      have hlt : i < noData := by
        have := s.header.maxInodes_lt
        unfold noData
        omega
      rw [hseen]
      dsimp only
      rw [eraseFreeDataPage, wp_modify]
      have hu := hstay.toUntouched
      refine ⟨⟨hu.mem, hu.header, hu.variant⟩, hstay.ivStorage, hstay.stat, hstay.maxInodeNumber,
        PageSet.erase_wf hc.wf hlt, fun p => ?_⟩
      rw [← hstay.free]
      dsimp only
      rw [PageSet.mem_erase hc.wf hlt, and_iff_left_iff_imp]
      rintro hp rfl
      have hregion := ((hc.free p).mp hp).1.1
      omega

theorem wp_scanWith {rest : List ℕ} (hq : RecordsReadable s) (ha : AgreesOnRecords s decode)
    (hm : ∀ i < s.header.maxInodes, Discarded s decode i) (hc : BootScan s l t)
    (hl : l ++ rest = List.range s.header.maxInodes) :
    wp (each (noDelInodePageWith decode) rest) (fun _ u => BootScan s (List.range s.header.maxInodes) u)
      (fun _ _ => False) t := by
  induction rest generalizing l t with
  | nil =>
    rw [List.append_nil] at hl
    rw [← hl]
    exact hc
  | cons i rest ih =>
    have hi : i < s.header.maxInodes := by
      apply List.mem_range.mp
      rw [← hl]
      simp
    rw [each, wp_bind]
    apply wp_mono (wp_noDelInodePageWith hq ha (hm i hi) hi hc)
    · intro _ u hu
      apply ih hu
      rw [List.append_assoc]
      exact hl
    · exact fun _ _ h => h

-- get_inode fails on a page of a mapped medium that it looks at in spite of the CRC
def Fails (s : Fs) (decode : Header → List UInt8 → Except Fault FileHandle) (i : ℕ) : Prop :=
  HalfWritten s i ∧ ∃ e, decode s.header (pageAt s i) = .error e

-- a scan of a mapped medium does not get past such a page
theorem wp_scanWith_stops {rest : List ℕ} (hq : RecordsReadable s) (ha : AgreesOnRecords s decode)
    (hcan : s.mem.canMapRead = true) (hfail : ∀ i < s.header.maxInodes, Fails s decode i ∨ Discarded s decode i)
    (hc : BootScan s l t) (hl : l ++ rest = List.range s.header.maxInodes) :
    wp (each (noDelInodePageWith decode) rest) (fun _ _ => ∀ i ∈ rest, ¬ Fails s decode i) (fun _ _ => True) t := by
  induction rest generalizing l t with
  | nil => exact List.forall_mem_nil _
  | cons i rest ih =>
    have hi : i < s.header.maxInodes := by
      apply List.mem_range.mp
      rw [← hl]
      simp
    rw [each, wp_bind]
    by_cases hfails : Fails s decode i
    · obtain ⟨hhalf, e, he⟩ := hfails
      have hu := hc.toUntouched
      have hmapped : readPageMapped t i true = readPageMapped s i true := by
        simp only [readPageMapped, hu.mem, hu.header]
      have herror : (readPageMapped s i true).error = some .crcError := by rw [readPageMapped_error, hhalf.1]
      have hpage : (readPageMapped s i true).page = pageAt s i := mapped_page (by simp [herror])
      rw [noDelInodePageWith, wp_bind, readInodeWith]
      simp only [wp_bind, wp_get, hu.mem, hcan, if_true, hmapped, herror, hpage, hhalf.2, Bool.false_eq_true, if_false,
        hu.header, he, liftFault, wp_throw]
    · apply wp_mono (wp_noDelInodePageWith hq ha ((hfail i hi).resolve_left hfails) hi hc)
      · intro _ u hu
        apply wp_mono (ih hu (by rw [List.append_assoc]; exact hl))
        · exact fun _ _ h => List.forall_mem_cons.mpr ⟨hfails, h⟩
        · exact fun _ _ h => h
      · exact fun _ _ h => h.elim

omit [Config] in
theorem wp_fillFreeDataPages_region (h0 : 0 < s.header.filesystemSize) (hN : s.header.filesystemSize ≤ 2 ^ 32)
    (R : Fault → Fs → Prop) : wp fillFreeDataPages (fun _ t => Filled s t) R s := by
  have hmem : ∀ q, q ∈ List.range' s.header.maxInodes (s.header.filesystemSize - 1 - s.header.maxInodes) ↔ DataRegion s q := by
    intro q
    rw [List.mem_range'_1, DataRegion, InRange]
    omega
  have hlt : ∀ q ∈ List.range' s.header.maxInodes (s.header.filesystemSize - 1 - s.header.maxInodes), q < noData := by
    intro q hq
    have hin := ((hmem q).mp hq).2
    unfold InRange at hin
    unfold noData
    omega
  obtain ⟨hwf, hfill⟩ := foldl_fill PageSet.wf_empty hlt List.nodup_range' fun _ _ => PageSet.not_mem_empty _
  simp only [fillFreeDataPages, wp_bind, wp_get, allDataPages_eq h0 hN, wp_set]
  refine ⟨rfl, hwf, fun q => ?_⟩
  rw [hfill, hmem]
  simp

end Scanning

section Booting

variable [Config] {s s' t t' : Fs} {hd : Header} {i : ℕ} {decode : Header → List UInt8 → Except Fault FileHandle}

-- the mount of an image: everything comes from the pages with an intact record
structure Booted (s t : Fs) : Prop extends Untouched s t where
  ivStorage : t.ivStorage = versionsOf s (validPages s)
  stat : ∃ r, r = statOf s (validPages s) [] {} ∧
    t.stat = { r with freeInodes := subU64 (subU64 s.header.maxInodes r.usedInodes) r.trashInodes }
  maxInodeNumber : t.maxInodeNumber = largestNumber s (validPages s)
  wf : t.freeDataPages.WF
  free : ∀ p, p ∈ t.freeDataPages ↔ DataRegion s p ∧ p ∉ listedPages s

-- the loop over the data pages ends
def Countable (hd : Header) : Prop := 0 < hd.filesystemSize ∧ hd.filesystemSize ≤ 2 ^ 32

theorem BootScan.start (hF : Filled { s with stat := {} } t) : BootScan s [] { t with ivStorage := [] } where
  mem := by rw [hF.rest]
  header := by rw [hF.rest]
  variant := by rw [hF.rest]
  ivStorage := rfl
  stat := by rw [hF.rest]; rfl
  maxInodeNumber := by rw [hF.rest]; rfl
  wf := hF.wf
  free p := by
    rw [hF.mem_iff]
    simp [DataRegion, InRange]

theorem wp_readAllFreeDataPagesNoDelWith (hq : RecordsReadable s) (ha : AgreesOnRecords s decode)
    (hm : ∀ i < s.header.maxInodes, Discarded s decode i) (hf : Countable s.header) :
    wp (readAllFreeDataPagesNoDelWith decode) (fun _ t => Booted s t) (fun _ _ => False) s := by
  rw [readAllFreeDataPagesNoDelWith, wp_bind, wp_modify, wp_bind]
  apply wp_mono (wp_fillFreeDataPages_region (s := { s with stat := {} }) hf.1 hf.2 _)
  · intro _ t ht
    have hmax : t.header.maxInodes = s.header.maxInodes := by rw [ht.rest]
    simp only [wp_bind, clearIvStorage, wp_modify, wp_get, hmax]
    apply wp_mono (wp_scanWith hq ha hm (.start ht) (List.nil_append _))
    · intro _ u hu
      refine ⟨⟨hu.mem, hu.header, hu.variant⟩, hu.ivStorage, ⟨_, rfl, ?_⟩, hu.maxInodeNumber, hu.wf, hu.free⟩
      dsimp only
      rw [hu.header, hu.stat]
      rfl
    · exact fun _ _ h => h
  · exact fun _ _ h => h

theorem initNoDelWith_booted (hon : HeaderOn s.mem hd) (hq : RecordsReadable (s.withHeader hd))
    (ha : AgreesOnRecords (s.withHeader hd) decode) (hm : ∀ i < hd.maxInodes, Discarded (s.withHeader hd) decode i)
    (hf : Countable hd) : ∃ t, initNoDelWith decode s = .ok true t ∧ Booted (s.withHeader hd) t := by
  have hw : wp (initNoDelWith decode) (fun r t => r = true ∧ Booted (s.withHeader hd) t) (fun _ _ => False) s := by
    rw [initNoDelWith, wp_bind]
    apply wp_of_eq hon.initBase
    rw [if_pos rfl, wp_bind]
    apply wp_mono (wp_readAllFreeDataPagesNoDelWith hq ha hm hf)
    · exact fun _ _ hu => ⟨rfl, hu⟩
    · exact fun _ _ h => h
  obtain ⟨r, t, hr, rfl, ht⟩ := returns_of_wp hw
  exact ⟨t, hr, ht⟩

omit [Config] in
theorem agreesOnRecords_self [Config] (s : Fs) : AgreesOnRecords s (decodeInode · · false) := fun _ _ _ => rfl

theorem noDelInodePageWith_eq (hq : RecordsReadable s) (ha : AgreesOnRecords s decode)
    (hm : s.mem.canMapRead = true → ¬ HalfWritten s i) (hi : i < s.header.maxInodes) (hu : Untouched s t) :
    noDelInodePageWith decode i t = noDelInodePageWith (decodeInode · · false) i t := by
  simp only [noDelInodePageWith, bind, EStateM.bind]
  rw [readInodeWith_eq hq ha hm hi hu, readInodeWith_eq hq (agreesOnRecords_self s) hm hi hu]

theorem scanWith_eq (hq : RecordsReadable s) (ha : AgreesOnRecords s decode)
    (hm : s.mem.canMapRead = true → ∀ i < s.header.maxInodes, ¬ HalfWritten s i) (hc : BootScan s [] t) :
    each (noDelInodePageWith decode) (List.range s.header.maxInodes) t =
      each (noDelInodePageWith (decodeInode · · false)) (List.range s.header.maxInodes) t := by
  apply each_congr (I := fun u => ∃ l, BootScan s l u) ⟨[], hc⟩
  · rintro i hi u ⟨l, hu⟩
    have hi := List.mem_range.mp hi
    exact noDelInodePageWith_eq hq ha (fun hcan => hm hcan i hi) hi hu.toUntouched
  · rintro i hi u ⟨l, hu⟩
    have hi := List.mem_range.mp hi
    apply wp_mono (wp_noDelInodePageWith hq (agreesOnRecords_self s) (discarded_of_not fun hcan => hm hcan i hi) hi hu)
    · exact fun _ v hv => ⟨l ++ [i], hv⟩
    · exact fun _ _ _ => trivial

theorem readAllFreeDataPagesNoDelWith_eq (hq : RecordsReadable s) (ha : AgreesOnRecords s decode)
    (hm : s.mem.canMapRead = true → ∀ i < s.header.maxInodes, ¬ HalfWritten s i) (hf : Countable s.header) :
    readAllFreeDataPagesNoDelWith decode s = readAllFreeDataPagesNoDelWith (decodeInode · · false) s := by
  obtain ⟨_, t, hfill, ht⟩ := returns_of_wp
    (wp_fillFreeDataPages_region (s := { s with stat := {} }) hf.1 hf.2 fun _ _ => False)
  have hmax : t.header.maxInodes = s.header.maxInodes := by rw [ht.rest]
  have hstat : (modify fun s => { s with stat := {} } : FsM Unit) s = .ok () { s with stat := {} } := rfl
  have hclear : clearIvStorage t = .ok () { t with ivStorage := [] } := rfl
  have hget : (get : FsM Fs) { t with ivStorage := [] } = .ok { t with ivStorage := [] } { t with ivStorage := [] } := rfl
  unfold readAllFreeDataPagesNoDelWith
  rw [bind_of_ok hstat, bind_of_ok hstat, bind_of_ok hfill, bind_of_ok hfill, bind_of_ok hclear, bind_of_ok hclear,
    bind_of_ok hget, bind_of_ok hget]
  apply bind_congr_left
  dsimp only
  rw [hmax]
  exact scanWith_eq hq ha hm (.start ht)

-- what is in the other pages does not reach the mount
theorem initNoDelWith_eq (hon : HeaderOn s.mem hd) (hq : RecordsReadable (s.withHeader hd))
    (ha : AgreesOnRecords (s.withHeader hd) decode)
    (hm : s.mem.canMapRead = true → ∀ i < hd.maxInodes, ¬ HalfWritten (s.withHeader hd) i) (hf : Countable hd) :
    initNoDelWith decode s = initNoDel s := by
  have hall := readAllFreeDataPagesNoDelWith_eq hq ha hm hf
  rw [← initNoDelWith_decodeInode, initNoDelWith, initNoDelWith, bind_of_ok hon.initBase, bind_of_ok hon.initBase,
    if_pos rfl, if_pos rfl]
  exact bind_congr_left hall

-- the same image with every page erased that fails its CRC
structure TornErased (s s' : Fs) (hd : Header) : Prop where
  rest : s' = { s with mem := { s.mem with bytes := s'.mem.bytes } }
  header : HeaderOn s'.mem hd
  kept : ∀ i < hd.maxInodes, (readPage (s.withHeader hd) i true).error ≠ some .crcError →
    pageAt (s'.withHeader hd) i = pageAt (s.withHeader hd) i
  erased : ∀ i < hd.maxInodes, (readPage (s.withHeader hd) i true).error = some .crcError →
    pageAt (s'.withHeader hd) i = List.replicate hd.pageSize 0xFF

-- two mounts that nobody can tell apart
structure SameMount (t t' : Fs) : Prop where
  ivStorage : t'.ivStorage = t.ivStorage
  stat : t'.stat = t.stat
  maxInodeNumber : t'.maxInodeNumber = t.maxInodeNumber
  free : ∀ p, p ∈ t'.freeDataPages ↔ p ∈ t.freeDataPages

-- the mount ends, touches no page, reads no record but the intact ones and comes to what the erased image gives
structure BootsSafely (s : Fs) (hd : Header) : Prop where
  completes : ∃ t, initNoDel s = .ok true t ∧ t.mem = s.mem
  blind : ∀ decode, AgreesOnRecords (s.withHeader hd) decode → initNoDelWith decode s = initNoDel s
  erased : ∀ s' t t', TornErased s s' hd → initNoDel s = .ok true t → initNoDel s' = .ok true t' → SameMount t t'

theorem readPage_error (s : Fs) (i : ℕ) : (readPage s i true).error =
    if (pageAt s i).length ≠ s.header.pageSize then some .readError
    else if ¬ checksumOk s.header.endianness (pageAt s i) then some .crcError else none := by
  have hpage := readPage_page s i
  unfold readPage at hpage ⊢
  dsimp only at hpage ⊢
  have hread : s.mem.read (pageOffset s.header i) s.header.pageSize = pageAt s i := by
    rw [← hpage]
    split
    · rfl
    · split <;> rfl
  rw [hread]
  split
  · rfl
  · simp only [true_and]
    split <;> rfl

theorem crcValid_iff (s : Fs) (i : ℕ) : CrcValid s i ↔
    (pageAt s i).length = s.header.pageSize ∧ checksumOk s.header.endianness (pageAt s i) = true := by
  rw [CrcValid, readPage_error]
  by_cases hlen : (pageAt s i).length = s.header.pageSize
  · rw [if_neg (not_not.mpr hlen)]
    simp [hlen]
  · rw [if_pos hlen]
    simp [hlen]

theorem TornErased.crcValid (e : TornErased s s' hd)
    (herased : checksumOk hd.endianness (List.replicate hd.pageSize 0xFF) = false) (hi : i < hd.maxInodes) :
    CrcValid (s'.withHeader hd) i ↔ CrcValid (s.withHeader hd) i := by
  by_cases htorn : (readPage (s.withHeader hd) i true).error = some .crcError
  · apply iff_of_false
    · rw [crcValid_iff, e.erased i hi htorn]
      rintro ⟨-, hok⟩
      rw [show (s'.withHeader hd).header.endianness = hd.endianness from rfl, herased] at hok
      cases hok
    · rw [CrcValid, htorn]
      simp
  · rw [crcValid_iff, crcValid_iff, e.kept i hi htorn]
    rfl

theorem TornErased.readable (e : TornErased s s' hd)
    (herased : checksumOk hd.endianness (List.replicate hd.pageSize 0xFF) = false)
    (hq : RecordsReadable (s.withHeader hd)) : RecordsReadable (s'.withHeader hd) := by
  intro i hi hok
  have hok := (e.crcValid herased hi).mp hok
  have hkept := e.kept i hi (by rw [show (readPage (s.withHeader hd) i true).error = none from hok]; simp)
  rw [hkept]
  exact hq i hi hok

theorem TornErased.not_halfWritten (e : TornErased s s' hd) (hi : i < hd.maxInodes) : ¬ HalfWritten (s'.withHeader hd) i := by
  rintro ⟨herror, hempty⟩
  by_cases htorn : (readPage (s.withHeader hd) i true).error = some .crcError
  · rw [e.erased i hi htorn] at hempty
    simp [isEmptyPage] at hempty
  · rw [readPage_error, e.kept i hi htorn] at herror
    rw [readPage_error] at htorn
    exact htorn herror

theorem TornErased.validPages (e : TornErased s s' hd)
    (herased : checksumOk hd.endianness (List.replicate hd.pageSize 0xFF) = false) :
    validPages (s'.withHeader hd) = validPages (s.withHeader hd) := by
  apply List.filter_congr
  intro i hi
  have := e.crcValid herased (List.mem_range.mp hi)
  simp only [this]

theorem TornErased.rawAt (e : TornErased s s' hd) (hi : i ∈ SimpleFlashFs.validPages (s.withHeader hd)) :
    rawAt (s'.withHeader hd) i = rawAt (s.withHeader hd) i := by
  obtain ⟨hi, hok⟩ := List.mem_filter.mp hi
  have hok : CrcValid (s.withHeader hd) i := of_decide_eq_true hok
  apply rawAt_congr (show (s'.withHeader hd).header = (s.withHeader hd).header from rfl)
  apply e.kept i (List.mem_range.mp hi)
  rw [show (readPage (s.withHeader hd) i true).error = none from hok]
  simp

theorem Booted.same (e : TornErased s s' hd)
    (herased : checksumOk hd.endianness (List.replicate hd.pageSize 0xFF) = false)
    (hb : Booted (s.withHeader hd) t) (hb' : Booted (s'.withHeader hd) t') : SameMount t t' := by
  have hraw := fun i (hi : i ∈ validPages (s.withHeader hd)) => e.rawAt hi
  have hmax : (s'.withHeader hd).maxInodeNumber = (s.withHeader hd).maxInodeNumber := by
    rw [e.rest]
    rfl
  constructor
  · rw [hb'.ivStorage, hb.ivStorage, e.validPages herased, versionsOf, versionsOf]
    apply List.foldl_ext
    intro ivs i hi
    rw [hraw i hi]
  · obtain ⟨r, hr, hstat⟩ := hb.stat
    obtain ⟨r', hr', hstat'⟩ := hb'.stat
    rw [e.validPages herased, statOf_congr (s := s.withHeader hd) (t := s'.withHeader hd) rfl hraw, ← hr] at hr'
    rw [hstat', hstat, hr']
    rfl
  · rw [hb'.maxInodeNumber, hb.maxInodeNumber, e.validPages herased, largestNumber, largestNumber, hmax]
    apply List.foldl_ext
    intro n i hi
    rw [numberAt, numberAt, hraw i hi]
  · intro p
    have hlisted : listedPages (s'.withHeader hd) = listedPages (s.withHeader hd) := by
      rw [listedPages, listedPages, e.validPages herased]
      apply List.flatMap_congr
      intro i hi
      rw [← rawAt_ids, ← rawAt_ids, hraw i hi]
    rw [hb'.free, hb.free, hlisted]
    rfl

-- get_inode, but on nothing that fails its CRC
def decodeIntact (hd : Header) (page : List UInt8) : Except Fault FileHandle :=
  if checksumOk hd.endianness page then decodeInode hd page false else .error .undefined

theorem agreesOnRecords_decodeIntact (s : Fs) : AgreesOnRecords s decodeIntact := by
  intro i _ hok
  rw [decodeIntact, if_pos ((crcValid_iff s i).mp hok).2]

theorem decodeIntact_halfWritten (hh : HalfWritten s i) : decodeIntact s.header (pageAt s i) = .error .undefined := by
  have herror := hh.1
  rw [readPage_error] at herror
  rw [decodeIntact, if_neg]
  intro hok
  simp [hok] at herror

theorem wp_readAllFreeDataPagesNoDelWith_stops (hq : RecordsReadable s) (ha : AgreesOnRecords s decode)
    (hcan : s.mem.canMapRead = true) (hfail : ∀ i < s.header.maxInodes, Fails s decode i ∨ Discarded s decode i)
    (hf : Countable s.header) :
    wp (readAllFreeDataPagesNoDelWith decode) (fun _ _ => ∀ i < s.header.maxInodes, ¬ Fails s decode i) (fun _ _ => True) s := by
  rw [readAllFreeDataPagesNoDelWith, wp_bind, wp_modify, wp_bind]
  apply wp_mono (wp_fillFreeDataPages_region (s := { s with stat := {} }) hf.1 hf.2 fun _ _ => True)
  · intro _ t ht
    have hmax : t.header.maxInodes = s.header.maxInodes := by rw [ht.rest]
    simp only [wp_bind, clearIvStorage, wp_modify, wp_get, hmax]
    apply wp_mono (wp_scanWith_stops hq ha hcan hfail (.start ht) (List.nil_append _))
    · exact fun _ _ h i hi => h i (List.mem_range.mpr hi)
    · exact fun _ _ h => h
  · exact fun _ _ h => h

-- a mount of such a medium does not return
theorem initNoDelWith_stops (hon : HeaderOn s.mem hd) (hq : RecordsReadable (s.withHeader hd))
    (ha : AgreesOnRecords (s.withHeader hd) decode) (hcan : s.mem.canMapRead = true)
    (hfail : ∀ i < hd.maxInodes, Fails (s.withHeader hd) decode i ∨ Discarded (s.withHeader hd) decode i)
    (hf : Countable hd) {r : Bool} (hrun : initNoDelWith decode s = .ok r t) (hi : i < hd.maxInodes) :
    ¬ Fails (s.withHeader hd) decode i := by
  have hall : wp (initNoDelWith decode) (fun _ _ => ∀ i < hd.maxInodes, ¬ Fails (s.withHeader hd) decode i) (fun _ _ => True) s := by
    rw [initNoDelWith, wp_bind]
    apply wp_of_eq hon.initBase
    rw [if_pos rfl, wp_bind]
    exact wp_readAllFreeDataPagesNoDelWith_stops hq ha hcan hfail hf
  exact wp_ok hall hrun i hi

omit [Config] in
theorem wp_fillFreeDataPages_countable (s : Fs) :
    wp fillFreeDataPages (fun _ _ => Countable s.header) (fun _ _ => True) s := by
  rw [fillFreeDataPages, wp_bind, wp_get]
  cases hall : allDataPages s.header with
  | none => trivial
  | some pages =>
    have hlt := s.header.filesystemSize_lt
    have hsome : ¬ 2 ^ 32 ≤ subU64 s.header.filesystemSize 1 := by
      rw [← allDataPages_eq_none, hall]
      simp
    rw [subU64] at hsome
    dsimp only
    rw [wp_set, Countable]
    omega

theorem wp_readAllFreeDataPagesNoDelWith_counts (s : Fs) :
    wp (readAllFreeDataPagesNoDelWith decode) (fun _ _ => Countable s.header) (fun _ _ => True) s := by
  rw [readAllFreeDataPagesNoDelWith, wp_bind, wp_modify, wp_bind]
  apply wp_mono (wp_fillFreeDataPages_countable _)
  · exact fun _ _ hf => wp_run (fun _ _ _ => hf) fun _ _ _ => trivial
  · exact fun _ _ h => h

theorem bootsSafely_iff (hon : HeaderOn s.mem hd) (hq : RecordsReadable (s.withHeader hd))
    (herased : checksumOk hd.endianness (List.replicate hd.pageSize 0xFF) = false) :
    BootsSafely s hd ↔ Countable hd ∧
      (s.mem.canMapRead = true → ∀ i < hd.maxInodes, ¬ HalfWritten (s.withHeader hd) i) := by
  constructor
  · intro hb
    obtain ⟨t, ht, -⟩ := hb.completes
    have hrun := (hb.blind decodeIntact (agreesOnRecords_decodeIntact _)).trans ht
    have hcounts : wp (initNoDelWith decodeIntact) (fun _ _ => Countable hd) (fun _ _ => True) s := by
      rw [initNoDelWith, wp_bind]
      apply wp_of_eq hon.initBase
      rw [if_pos rfl, wp_bind]
      exact wp_readAllFreeDataPagesNoDelWith_counts _
    have hcount := wp_ok (Q := fun _ _ => Countable hd) hcounts hrun
    refine ⟨hcount, fun hcan i hi hhalf => ?_⟩
    have hfail : ∀ i < hd.maxInodes, Fails (s.withHeader hd) decodeIntact i ∨ Discarded (s.withHeader hd) decodeIntact i := by
      intro i _
      by_cases hhalf : HalfWritten (s.withHeader hd) i
      · exact Or.inl ⟨hhalf, _, decodeIntact_halfWritten hhalf⟩
      · exact Or.inr (discarded_of_not fun _ => hhalf)
    exact initNoDelWith_stops hon hq (agreesOnRecords_decodeIntact _) hcan hfail hcount hrun hi
      ⟨hhalf, _, decodeIntact_halfWritten hhalf⟩
  · rintro ⟨hf, hm⟩
    obtain ⟨t, ht, hbooted⟩ := initNoDelWith_booted hon hq (agreesOnRecords_self _)
      (fun i hi => discarded_of_not fun hcan => hm hcan i hi) hf
    rw [initNoDelWith_decodeInode] at ht
    refine ⟨⟨t, ht, hbooted.mem⟩, fun decode ha => initNoDelWith_eq hon hq ha hm hf, ?_⟩
    intro s' u t' e hu ht'
    rw [ht] at hu
    cases hu
    obtain ⟨v, hv, hbooted'⟩ := initNoDelWith_booted e.header (e.readable herased hq) (agreesOnRecords_self _)
      (fun i hi => discarded_of_not fun _ => e.not_halfWritten hi) hf
    rw [initNoDelWith_decodeInode, ht'] at hv
    cases hv
    exact hbooted.same e herased hbooted'

end Booting

-- a cut write has left zeros on the second inode page of a mapped medium
def tornImage : Fs := { pagedImage with
  mem := { pagedImage.mem with canMapRead := true, bytes := Memory.put pagedImage.mem.bytes 128 (List.replicate 64 0) } }

theorem readable_of_all {s : Fs} (hall : ∀ i < s.header.maxInodes, @CrcValid dynamicConfig s i →
    (decodeInode s.header (pageAt s i) false).toOption.any (fun h => !h.modified && h.ids.all (· < noData)) = true) :
    @RecordsReadable dynamicConfig s := by
  intro i hi hok
  obtain ⟨h, hdec, htest⟩ := ok_of_any (hall i hi hok)
  obtain ⟨hm, hids⟩ := (Bool.and_eq_true _ _).mp htest
  refine ⟨h, hdec, by simpa using hm, fun p hp => ?_⟩
  exact of_decide_eq_true (List.all_eq_true.mp hids p hp)

theorem bootsSafely_torn : @BootsSafely dynamicConfig pagedImage magicHeader ∧
    ¬ @BootsSafely dynamicConfig tornImage magicHeader := by
  have herased : @checksumOk dynamicConfig magicHeader.endianness (List.replicate magicHeader.pageSize 0xFF) = false := by
    decide +kernel
  have hcount : Countable magicHeader := ⟨by decide +kernel, by decide +kernel⟩
  have hheader : @HeaderOn dynamicConfig tornImage.mem magicHeader := by
    apply @HeaderOn.mk dynamicConfig <;> decide +kernel
  have hpaged : @RecordsReadable dynamicConfig (pagedImage.withHeader magicHeader) := by
    apply readable_of_all
    decide +kernel
  have htorn : @RecordsReadable dynamicConfig (tornImage.withHeader magicHeader) := by
    apply readable_of_all
    decide +kernel
  constructor
  · apply (@bootsSafely_iff dynamicConfig _ _ pagedImage_header hpaged herased).mpr
    exact ⟨hcount, fun hcan => absurd hcan (by decide +kernel)⟩
  · intro hb
    have hno := ((@bootsSafely_iff dynamicConfig _ _ hheader htorn herased).mp hb).2 rfl 1 (by decide +kernel)
    exact hno (by decide +kernel)

end SimpleFlashFs
