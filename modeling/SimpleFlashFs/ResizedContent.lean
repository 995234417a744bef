import SimpleFlashFs.FileContent
import SimpleFlashFs.Cursor

namespace SimpleFlashFs

open Lib

def resize (content : List UInt8) (newSize : ℕ) : List UInt8 :=
  content.take newSize ++ List.replicate (newSize - content.length) 0

theorem resize_length (content : List UInt8) (n : ℕ) : (resize content n).length = n := by
  simp only [resize, List.length_append, List.length_take, List.length_replicate]
  omega

theorem resize_of_le {content : List UInt8} {n : ℕ} (h : n ≤ content.length) : resize content n = content.take n := by
  rw [resize, Nat.sub_eq_zero_of_le h, List.replicate_zero, List.append_nil]

-- zeros behind the bytes of the file, kept or put there
theorem take_grown {l content : List UInt8} {n z : ℕ} (hb : l.take content.length = content)
    (hzero : ∀ b ∈ slice l content.length (n - content.length), b = 0) (hle : content.length ≤ n) (hn : n ≤ l.length + z) :
    (l ++ List.replicate z 0).take n = resize content n := by
  have hlong : content.length ≤ l.length := by
    have hlen := congrArg List.length hb
    rw [List.length_take] at hlen
    omega
  have htail : (l.drop content.length ++ List.replicate z 0).take (n - content.length) =
      List.replicate (n - content.length) 0 := by
    rw [List.eq_replicate_iff]
    constructor
    · rw [List.length_take, List.length_append, List.length_drop, List.length_replicate]
      omega
    · intro b hmem
      rw [List.take_append] at hmem
      rcases List.mem_append.mp hmem with hmem | hmem
      · exact hzero b hmem
      · exact List.eq_of_mem_replicate (List.mem_of_mem_take hmem)
  have hsplit : l ++ List.replicate z 0 = content ++ (l.drop content.length ++ List.replicate z 0) := by
    conv_lhs => rw [← List.take_append_drop content.length l, hb]
    rw [List.append_assoc]
  rw [hsplit, List.take_append, List.take_of_length_le hle, htail, resize, List.take_of_length_le hle]

section Resized

variable {s t : Fs} {h k : FileHandle} {content : List UInt8} {n : ℕ}

-- the bytes that are kept for the file, those behind its end included
def storedBytes (s : Fs) (h : FileHandle) : List UInt8 :=
  if h.inode.dataPages = [] then h.inode.inodeData
  else ((h.inode.dataPages.filter (·.state ≠ .deleted)).map (entryPage s)).flatten

-- growing to n bytes shows nothing that was cut off before
def ZerosTo (s : Fs) (h : FileHandle) (n : ℕ) : Prop :=
  ∀ b ∈ slice (storedBytes s h) h.inode.fileLen (n - h.inode.fileLen), b = 0

-- growing to this length leaves the bytes where reads and writes look for them
def GrowsInPlace (s : Fs) (h : FileHandle) (target : ℕ) : Prop :=
  if h.inode.dataPages = [] then
    target < getInodeDataSpaceSize s.header h ∨ h.inode.inodeData = [] ∧ getInodeDataSpaceSize s.header h < target
  else getInodeDataSpaceSize s.header h < target

instance (s : Fs) (h : FileHandle) (n : ℕ) : Decidable (ZerosTo s h n) :=
  inferInstanceAs (Decidable (∀ b ∈ slice (storedBytes s h) h.inode.fileLen (n - h.inode.fileLen), b = 0))

instance (s : Fs) (h : FileHandle) (target : ℕ) : Decidable (GrowsInPlace s h target) :=
  inferInstanceAs (Decidable (if h.inode.dataPages = [] then
    target < getInodeDataSpaceSize s.header h ∨ h.inode.inodeData = [] ∧ getInodeDataSpaceSize s.header h < target
    else getInodeDataSpaceSize s.header h < target))

theorem ShowsPages.storedBytes_eq {pages : List (List UInt8)} (hs : ShowsPages s h pages) (hne : h.inode.dataPages ≠ []) :
    storedBytes s h = pages.flatten := by
  obtain ⟨kept, dropped, e, rfl⟩ := hs
  have hkept : kept.filter (·.state ≠ .deleted) = kept :=
    List.filter_eq_self.mpr fun m hm => by simpa using e.kept m hm
  have hdropped : dropped.filter (·.state ≠ .deleted) = [] :=
    List.filter_eq_nil_iff.mpr fun m hm => by simpa using e.dropped m hm
  rw [storedBytes, if_neg hne, e.eq, List.filter_append, hkept, hdropped, List.append_nil]

theorem Stored.of_inode (hst : Stored s h content) (hi : k.inode = h.inode) : Stored s k content := by
  have hspace : getInodeDataSpaceSize s.header k = getInodeDataSpaceSize s.header h := by
    rw [getInodeDataSpaceSize, getInodeDataSpaceSize, hi]
  refine ⟨by rw [hi]; exact hst.roomy, ?_⟩
  rcases hst.storage with hin | hon
  · left
    refine ⟨by rw [hi]; exact hin.noPages, ?_, by rw [hi]; exact hin.bytes⟩
    rw [hi, hspace]
    exact hin.short
  · right
    obtain ⟨pages, hs, hn, htake⟩ := hon.pages
    refine ⟨by rw [hi]; exact hon.noData, pages, ?_, hn, htake⟩
    rw [ShowsPages, hi]
    exact hs

theorem Bears.of_inode (hb : Bears s h content) (hi : k.inode = h.inode) : Bears s k content :=
  ⟨hb.toStored.of_inode hi, by rw [hi]; exact hb.length⟩

-- bytes on pages are bytes on pages behind which there is nothing else
theorem Bears.onPages (hb : Bears s h content) (hne : h.inode.dataPages ≠ []) : OnItsPages s h content := by
  rcases hb.storage with hin | hon
  · exact absurd hin.noPages hne
  · exact hon

theorem Bears.inInode (hb : Bears s h content) (hnone : h.inode.dataPages = []) : InInode s h content := by
  rcases hb.storage with hin | ⟨hnil, pages, hs, hn, htake⟩
  · exact hin
  · have hvalid := hs.valid
    rw [Inode.countValidDataPages, hnone] at hvalid
    rw [List.length_eq_zero_iff.mp hvalid.symm] at hn
    have hempty : content = [] := List.length_eq_zero_iff.mp (Nat.le_zero.mp hn)
    exact ⟨hnone, Or.inr hempty, by simp [hempty]⟩

end Resized

section Enlarge

variable [Config] {s t : Fs} {h k : FileHandle} {content : List UInt8} {n target : ℕ}

-- what enlarge_file leaves: the new length, and the bytes of the file with zeros behind them
structure Grown (h : FileHandle) (content : List UInt8) (target n : ℕ) (t : Fs) (k : FileHandle) : Prop where
  fileLen : k.inode.fileLen = target
  pos : k.pos = h.pos
  stored : Stored t k (resize content n)
  paged : k.inode.dataPages ≠ [] → getInodeDataSpaceSize t.header k < target

omit [Config] in
theorem wp_growInodeData_zeros (h : FileHandle) (space : ℕ) :
    wp (growInodeData h space) (fun l t => t = s ∧ space ≤ l.length ∧ ∃ z, l = h.inode.inodeData ++ List.replicate z 0)
      (fun _ _ => True) s := by
  rw [growInodeData, wp_ite]
  constructor
  · intro hlt
    apply wp_liftFault
    · intro l hl
      rw [resizeBytes] at hl
      split at hl
      · cases hl
      · obtain rfl := Except.ok.inj hl
        rw [List.take_of_length_le hlt.le]
        refine ⟨rfl, ?_, _, rfl⟩
        rw [List.length_append, List.length_replicate]
        omega
    · exact fun _ _ => trivial
  · intro hge
    exact ⟨rfl, Nat.le_of_not_lt hge, 0, by simp⟩

omit [Config] in
theorem wp_enlargeStorage_grown (hr : Ready s) (ho : Owns s h) (hb : Bears s h content) (hplace : GrowsInPlace s h target)
    (hzeros : ZerosTo s h n) (hle : content.length ≤ n) (hn : n ≤ target + 1) :
    wp (enlargeStorage h target) (fun r t => r.1 = true → r.2.inode.fileLen = h.inode.fileLen ∧
      Grown h content target n t { r.2 with modified := true, inode := { r.2.inode with fileLen := target } })
      (fun _ _ => True) s := by
  have hlen := hb.length
  have hps := hr.layout.pageSize_pos
  unfold ZerosTo at hzeros
  rw [hlen] at hzeros
  rw [enlargeStorage, wp_bind, wp_get]
  dsimp only
  rw [wp_ite]
  constructor
  · intro hspace
    have hnone : h.inode.dataPages = [] := by
      by_contra hne
      rw [GrowsInPlace, if_neg hne] at hplace
      omega
    have hlt : target < getInodeDataSpaceSize s.header h := by
      rw [GrowsInPlace, if_pos hnone] at hplace
      omega
    rw [storedBytes, if_pos hnone] at hzeros
    rw [wp_bind]
    apply wp_mono (wp_growInodeData_zeros h _)
    · rintro l t ⟨rfl, hlong, z, rfl⟩ -
      refine ⟨rfl, rfl, rfl, ⟨hb.roomy, Or.inl ⟨hnone, Or.inl hlt, ?_⟩⟩, fun hne => absurd hnone hne⟩
      rw [resize_length]
      rw [List.length_append, List.length_replicate] at hlong
      exact take_grown (hb.inInode hnone).bytes hzeros hle (by omega)
    · exact fun _ _ h => h
  · intro hspace
    -- an empty file has no pages yet
    obtain ⟨hnil, pages, hs, hbytes, hfresh⟩ : h.inode.inodeData = [] ∧ ∃ pages, ShowsPages s h pages ∧
        pages.flatten.take content.length = content ∧
        ∀ b ∈ slice pages.flatten content.length (n - content.length), b = 0 := by
      by_cases hnone : h.inode.dataPages = []
      · rw [GrowsInPlace, if_pos hnone] at hplace
        have hnil : h.inode.inodeData = [] := by
          rcases hplace with hlt | hnil
          · omega
          · exact hnil.1
        have hempty : content = [] := by
          rw [← (hb.inInode hnone).bytes, hnil]
          exact List.take_nil
        exact ⟨hnil, [], showsPages_nil hnone, by simp [hempty], by simp [slice]⟩
      · obtain ⟨hnil, pages, hs, -, htake⟩ := hb.onPages hnone
        rw [hs.storedBytes_eq hnone] at hzeros
        exact ⟨hnil, pages, hs, htake, hzeros⟩
    apply wp_mono (wp_and (wp_allocateNewDataPages_shows hr.freeWF hs (target / s.header.pageSize))
      ((safe_allocateNewDataPages (target / s.header.pageSize)).wp hr ho))
    · rintro ⟨ok, k⟩ t ⟨hgrown, he⟩ hok
      obtain ⟨hk, hshows⟩ := hgrown hok
      have hhead : t.header = s.header := he.within.header
      have hsame := getInodeDataSpaceSize_congr (k := k) hhead he.same.fileNameLen
      dsimp only at hk hshows hok ⊢
      generalize hmissing : target / s.header.pageSize + 1 - pages.length = missing at hshows
      have hflat : (pages ++ List.replicate missing (List.replicate s.header.pageSize 0)).flatten =
          pages.flatten ++ List.replicate (missing * s.header.pageSize) 0 := by
        rw [List.flatten_append, List.flatten_replicate_replicate]
      have hlong : n ≤ pages.flatten.length + missing * s.header.pageSize := by
        rw [(hs.uniform hr ho).length, Nat.mul_comm missing, ← Nat.mul_add]
        have hcover := Nat.lt_mul_div_succ target hps
        have hmul := Nat.mul_le_mul_left s.header.pageSize (show target / s.header.pageSize + 1 ≤ pages.length + missing by omega)
        omega
      refine ⟨by rw [hk]; rfl, rfl, by rw [hk]; rfl, ⟨?_, Or.inr ⟨?_, _, hshows, ?_, ?_⟩⟩, fun _ => ?_⟩
      · dsimp only
        rw [he.same.fileNameLen, hhead]
        exact hb.roomy
      · rw [hk]
        exact hnil
      · rw [hflat, resize_length, List.length_append, List.length_replicate]
        exact hlong
      · rw [hflat, resize_length]
        exact take_grown hbytes hfresh hle hlong
      · change getInodeDataSpaceSize t.header k < target
        rw [hsame]
        omega
    · exact fun _ _ _ => trivial

omit [Config] in
theorem wp_enlargeFile_grown (hr : Ready s) (ho : Owns s h) (hb : Bears s h content) {amount : ℕ}
    (hplace : GrowsInPlace s h (h.inode.fileLen + amount)) (hzeros : ZerosTo s h n) (hle : content.length ≤ n)
    (hn : n ≤ h.inode.fileLen + amount + 1) :
    wp (enlargeFile h amount) (fun r t => r.1 = true → Grown h content (h.inode.fileLen + amount) n t r.2)
      (fun _ _ => True) s := by
  simp only [enlargeFile, wp_bind, wp_get]
  rw [wp_ite]
  refine ⟨fun _ hno => absurd hno Bool.false_ne_true, fun _ => ?_⟩
  rw [wp_ite]
  refine ⟨fun _ hno => absurd hno Bool.false_ne_true, fun _ => ?_⟩
  rw [wp_bind]
  apply wp_mono (wp_enlargeStorage_grown hr ho hb hplace hzeros hle hn)
  · rintro r t hgrown
    rw [wp_ite]
    refine ⟨fun _ hno => absurd hno Bool.false_ne_true, fun hok _ => ?_⟩
    obtain ⟨hlen, hg⟩ := hgrown (not_not.mp hok)
    rw [hlen]
    exact hg
  · exact fun _ _ h => h

-- enlarging is accepted when there is room for the new length, and always changes the length
theorem wp_enlargeFile_grows (hwf : s.freeDataPages.WF) (hd : DeletedLast h.inode.dataPages) {amount : ℕ}
    (hok : ¬ enlargeRefused s h amount) :
    wp (enlargeFile h amount) (fun r _ => r.1 = true ∧ r.2.inode.fileLen = h.inode.fileLen + amount)
      (fun _ _ => True) s := by
  have d := draws_of hwf hd
  simp only [enlargeRefused, not_or, not_and, not_not] at hok
  obtain ⟨hfree, hsize, hgrows⟩ := hok
  simp only [enlargeFile, wp_bind, wp_get]
  rw [if_neg hfree, if_neg hsize]
  simp only [enlargeStorage, wp_bind, wp_get]
  rw [wp_ite]
  constructor
  · intro _
    rw [wp_bind]
    exact wp_mono (wp_growInodeData _) (fun l v _ => ⟨rfl, rfl⟩) (fun _ _ _ => trivial)
  · intro hspace
    apply wp_mono (wp_allocateNewDataPages_counted ((h.inode.fileLen + amount) / s.header.pageSize) d)
    · rintro r v ⟨-, hrel, hg, -⟩
      have hdone := hg.mpr (hgrows (by omega))
      rw [if_neg (not_not.mpr hdone)]
      apply And.intro rfl
      dsimp only
      rw [hrel.eq]
      rfl
    · exact fun _ _ _ => trivial

omit [Config] in
theorem Bears.deletedLast (hb : Bears s h content) : DeletedLast h.inode.dataPages := by
  rcases hb.storage with hin | ⟨-, pages, ⟨kept, dropped, e, -⟩, -⟩
  · rw [hin.noPages]
    exact ⟨[], [], rfl, List.forall_mem_nil _, List.forall_mem_nil _⟩
  · exact ⟨kept, dropped, e⟩

-- the cursor is set behind the end, one byte further than the length that is recorded
theorem wp_seek_behind (hr : Ready s) (ho : Owns s h) (hb : Bears s h content) (hcon : h.connected = true) {p : ℕ}
    (hp : h.inode.fileLen < p) (hplace : GrowsInPlace s h (p - 1)) (hzeros : ZerosTo s h p)
    (hroom : ¬ enlargeRefused s h (p - h.inode.fileLen - 1)) :
    wp (seek h p) (fun r t => r.2.pos = p ∧ r.2.inode.fileLen = p - 1 ∧ Stored t r.2 (resize content p) ∧
      (r.2.inode.dataPages ≠ [] → getInodeDataSpaceSize t.header r.2 < p - 1)) (fun _ _ => True) s := by
  have hlen := hb.length
  have htarget : h.inode.fileLen + (p - h.inode.fileLen - 1) = p - 1 := by omega
  rw [seek, if_neg (by omega), if_neg (not_not.mpr hcon), wp_bind]
  apply wp_mono (wp_and (wp_enlargeFile_grown (n := p) hr ho hb (by rw [htarget]; exact hplace) hzeros (by omega) (by omega))
    (wp_enlargeFile_grows hr.freeWF hb.deletedLast hroom))
  · rintro r t ⟨hgrown, hok, -⟩
    have hg := hgrown hok
    rw [htarget] at hg
    rw [if_pos hok, wp_pure]
    exact ⟨rfl, hg.fileLen, hg.stored.of_inode rfl, hg.paged⟩
  · exact fun _ _ _ => trivial

end Enlarge

section Truncate

variable [Config] {s t : Fs} {h k : FileHandle} {content : List UInt8} {newSize : ℕ}

omit [Config] in
theorem Bears.cut_inode (hb : Bears s h content) (hlt : newSize < h.inode.fileLen) (hnone : h.inode.dataPages = [])
    (hp : k.inode.dataPages = []) (hl : k.inode.fileLen = newSize) (hn : k.inode.fileNameLen = h.inode.fileNameLen)
    (hd : k.inode.inodeData = if h.inode.inodeData.length > newSize then h.inode.inodeData.take newSize else h.inode.inodeData) :
    Bears s k (content.take newSize) := by
  have hlen := hb.length
  have hin := hb.inInode hnone
  have hlong := congrArg List.length hin.bytes
  rw [List.length_take] at hlong
  rw [if_pos (by omega)] at hd
  have htake : (content.take newSize).length = newSize := by
    rw [List.length_take]
    omega
  refine ⟨⟨by rw [hn]; exact hb.roomy, Or.inl ⟨hp, ?_, ?_⟩⟩, hl.trans htake.symm⟩
  · left
    rw [getInodeDataSpaceSize_congr rfl hn, hl]
    rcases hin.short with hs | rfl
    · omega
    · rw [List.length_nil] at hlen
      omega
  · rw [htake, hd, List.take_take, min_self, ← hin.bytes, List.take_take, Nat.min_eq_left (by omega)]

omit [Config] in
theorem Bears.cut_pages (hr : Ready s) (ho : Owns s h) (hb : Bears s h content) (hlt : newSize < h.inode.fileLen)
    (hne : h.inode.dataPages ≠ []) (hl : k.inode.fileLen = newSize) (hn : k.inode.fileNameLen = h.inode.fileNameLen)
    (hd : k.inode.inodeData = h.inode.inodeData)
    (hp : k.inode.dataPages = if (newSize + s.header.pageSize - 1) / s.header.pageSize < h.inode.dataPages.length
      then h.inode.dataPages.take ((newSize + s.header.pageSize - 1) / s.header.pageSize) else h.inode.dataPages) :
    Bears s k (content.take newSize) := by
  have hlen := hb.length
  have hps := hr.layout.pageSize_pos
  obtain ⟨hnil, pages, hs, hlong, htake⟩ := hb.onPages hne
  have hu := hs.uniform hr ho
  have hcut : (content.take newSize).length = newSize := by
    rw [List.length_take]
    omega
  generalize hneeded : (newSize + s.header.pageSize - 1) / s.header.pageSize = needed at hp
  have hcover : newSize ≤ s.header.pageSize * needed := by
    have hcover := Nat.lt_mul_div_succ (newSize + s.header.pageSize - 1) hps
    rw [hneeded, Nat.mul_add_one] at hcover
    omega
  have hcount : needed ≤ pages.length := by
    rw [hu.length] at hlong
    rw [← hneeded]
    apply Nat.le_of_lt_succ
    apply Nat.div_lt_of_lt_mul
    rw [Nat.mul_succ]
    omega
  have hshow : ∃ pages', ShowsPages s k pages' ∧ newSize ≤ pages'.flatten.length ∧
      pages'.flatten.take newSize = content.take newSize := by
    have htaken : pages.flatten.take newSize = content.take newSize := by
      rw [← htake, List.take_take, Nat.min_eq_left (by omega)]
    split at hp
    · obtain ⟨kept, dropped, e, rfl⟩ := hs
      rw [List.length_map] at hcount
      have hkept : k.inode.dataPages = kept.take needed := by
        rw [hp, e.eq, List.take_append_of_le_length hcount]
      refine ⟨(kept.map (entryPage s)).take needed, ⟨kept.take needed, [], ⟨?_, ?_, List.forall_mem_nil _⟩, List.map_take⟩, ?_, ?_⟩
      · rw [hkept, List.append_nil]
      · exact fun m hm => e.kept m (List.mem_of_mem_take hm)
      · rw [hu.flatten_take, List.length_take]
        omega
      · rw [hu.flatten_take, List.take_take, Nat.min_eq_left hcover, htaken]
    · refine ⟨pages, ?_, by omega, htaken⟩
      rw [ShowsPages, hp]
      exact hs
  obtain ⟨pages', hs', hn', htake'⟩ := hshow
  refine ⟨⟨by rw [hn]; exact hb.roomy, Or.inr ⟨hd.trans hnil, pages', hs', ?_, ?_⟩⟩, hl.trans hcut.symm⟩
  · rw [hcut]
    exact hn'
  · rw [hcut]
    exact htake'

omit [Config] in
theorem wp_truncate_bears (hr : Ready s) (ho : Owns s h) (hb : Bears s h content) (hpos : h.pos ≤ h.inode.fileLen)
    (hgrow : h.inode.fileLen < newSize → GrowsInPlace s h newSize ∧ ZerosTo s h newSize) :
    wp (truncate h newSize) (fun r t => r.1 = true → Bears t r.2 (resize content newSize) ∧ r.2.pos ≤ r.2.inode.fileLen)
      (fun _ _ => True) s := by
  have hlen := hb.length
  rw [truncate, wp_bind, wp_get, wp_ite]
  refine ⟨fun _ hno => absurd hno Bool.false_ne_true, fun _ => ?_⟩
  rw [wp_ite]
  constructor
  · rintro rfl -
    rw [resize_of_le hlen.le, hlen, List.take_length]
    exact ⟨hb, hpos.trans hlen.le⟩
  · intro hne
    rw [wp_ite]
    constructor
    · intro hgt
      have htarget : h.inode.fileLen + (newSize - h.inode.fileLen) = newSize := by omega
      obtain ⟨hplace, hzeros⟩ := hgrow hgt
      apply wp_mono (wp_enlargeFile_grown (n := newSize) hr ho hb (by rw [htarget]; exact hplace) hzeros (by omega) (by omega))
      · intro r t hgrown hok
        have hg := hgrown hok
        rw [htarget] at hg
        refine ⟨⟨hg.stored, ?_⟩, ?_⟩
        · rw [hg.fileLen, resize_length]
        · rw [hg.pos, hg.fileLen]
          omega
      · exact fun _ _ h => h
    · intro hle
      have hlt : newSize < h.inode.fileLen := by omega
      intro _
      rw [resize_of_le (by omega)]
      refine ⟨?_, ?_⟩
      · by_cases hnone : h.inode.dataPages = []
        · apply hb.cut_inode hlt hnone
          · simp only [hnone, List.isEmpty_nil, if_true]
            split
            · rfl
            · exact hnone
          · rfl
          · simp only [hnone, List.isEmpty_nil, if_true]
            split <;> rfl
          · simp only [hnone, List.isEmpty_nil, if_true]
            split <;> rfl
        · have hfull : ¬ h.inode.dataPages.isEmpty = true := by simpa using hnone
          apply hb.cut_pages hr ho hlt hnone
          · rfl
          · simp only [hfull, Bool.false_eq_true, if_false]
            split <;> rfl
          · simp only [hfull, Bool.false_eq_true, if_false]
            split <;> rfl
          · simp only [hfull, Bool.false_eq_true, if_false]
            split <;> rfl
      · dsimp only
        split <;> omega

omit [Config] in
theorem wp_truncate_done (hcon : h.connected = true) (hle : newSize ≤ h.inode.fileLen) :
    wp (truncate h newSize) (fun r _ => r.1 = true) (fun _ _ => True) s := by
  rw [truncate, wp_bind, wp_get, if_neg (not_not.mpr hcon), wp_ite]
  refine ⟨fun _ => rfl, fun _ => ?_⟩
  rw [if_neg (by omega)]
  exact rfl

end Truncate

end SimpleFlashFs
