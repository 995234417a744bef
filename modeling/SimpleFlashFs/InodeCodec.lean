import SimpleFlashFs.RoundTrip
import SimpleFlashFs.Dynamic

namespace SimpleFlashFs

open Lib

-- how a file of that length keeps its bytes in the inode
structure InlineStorage (hd : Header) (inode : Inode) : Prop where
  dataPages : inode.dataPages = []
  space : inode.fileLen ≤ inodeDataSpaceSize hd inode.fileNameLen
  bytes : inode.fileLen ≤ inode.inodeData.length

-- how a file of that length keeps its bytes in data pages
structure PagedStorage (hd : Header) (inode : Inode) : Prop where
  count : inode.dataPages.length = (inode.fileLen + hd.pageSize - 1) / hd.pageSize
  nonempty : 1 ≤ inode.dataPages.length
  region : ∀ m ∈ inode.dataPages, hd.maxInodes ≤ m.pageId ∧ m.pageId + 1 < hd.filesystemSize

-- a record in which the fields agree with each other; the numbers are those of the fields' types
structure Coherent (hd : Header) (inode : Inode) : Prop where
  nameLen : inode.fileNameLen = inode.fileName.length
  inodeNumber_lt : inode.inodeNumber < 2 ^ 64
  inodeVersionNumber_lt : inode.inodeVersionNumber < 2 ^ 64
  fileNameLen_lt : inode.fileNameLen < 2 ^ 16
  attributes_lt : inode.attributes < 2 ^ 64
  fileLen_lt : inode.fileLen < 2 ^ 64
  pageId_lt : ∀ m ∈ inode.dataPages, m.pageId < 2 ^ 32
  storage : InlineStorage hd inode ∨ PagedStorage hd inode

-- the record that get_inode has to find
structure ReadsBack (inode : Inode) (h : FileHandle) : Prop where
  inodeNumber : h.inode.inodeNumber = inode.inodeNumber
  inodeVersionNumber : h.inode.inodeVersionNumber = inode.inodeVersionNumber
  fileNameLen : h.inode.fileNameLen = inode.fileNameLen
  fileName : h.inode.fileName = inode.fileName
  attributes : h.inode.attributes = inode.attributes
  fileLen : h.inode.fileLen = inode.fileLen
  pages : h.inode.pages = inode.dataPages.length
  dataPages : h.inode.dataPages.map (·.pageId) = inode.dataPages.map (·.pageId)
  inodeData : inode.dataPages = [] → h.inode.inodeData.take inode.fileLen = inode.inodeData.take inode.fileLen
  modified : h.modified = false

variable {hd : Header} {inode : Inode} {page : List UInt8}

theorem Coherent.recorded (hc : Coherent hd inode) : inode.recorded = { inode with
    pages := inode.dataPages.length
    dataPages := []
    inodeData := [] } := by
  have h1 := hc.inodeNumber_lt
  have h2 := hc.inodeVersionNumber_lt
  have h3 := hc.attributes_lt
  have h4 := hc.fileLen_lt
  rw [Inode.recorded, Nat.mod_eq_of_lt h1, Nat.mod_eq_of_lt h2, Nat.mod_eq_of_lt h3, Nat.mod_eq_of_lt h4,
    List.take_of_length_le hc.nameLen.ge]

theorem Coherent.recordedIds (hc : Coherent hd inode) : inode.recordedIds = inode.dataPages.map (·.pageId) :=
  List.map_congr_left fun m hm => Nat.mod_eq_of_lt (hc.pageId_lt m hm)

theorem map_pageId_storedPages (ids : List ℕ) : (storedPages ids).map (·.pageId) = ids := by
  rw [storedPages, List.map_map]
  exact List.map_id ids

theorem take_resized {l : List UInt8} {n k : ℕ} (hn : n ≤ l.length) (hk : n ≤ k) :
    (resized (resized l n) k).take n = l.take n := by
  rw [resized_of_length_le (by rw [resized_length]; exact hk), List.take_append_of_le_length
    (by rw [resized_length]), resized, List.take_append_of_le_length (by rw [List.length_take]; omega),
    List.take_take, Nat.min_self]

theorem InlineStorage.readsBack (hc : Coherent hd inode) (hs : InlineStorage hd inode) (corr : Bool) :
    ReadsBack inode (inode.decoded hd corr) := by
  have hspace := hs.space
  unfold Inode.decoded
  rw [hc.recorded]
  simp only [hs.dataPages, ne_eq, not_true_eq_false, if_false, List.length_nil]
  by_cases hpos : inode.fileLen > 0
  · rw [if_pos hpos, if_pos hspace]
    refine ⟨rfl, rfl, rfl, rfl, rfl, rfl, ?_, ?_, fun _ => ?_, rfl⟩
    · rw [hs.dataPages]
      rfl
    · rw [hs.dataPages]
    · exact take_resized hs.bytes hspace
  · have h0 : inode.fileLen = 0 := by omega
    rw [if_neg hpos]
    refine ⟨rfl, rfl, rfl, rfl, rfl, rfl, ?_, ?_, fun _ => ?_, rfl⟩
    · rw [hs.dataPages]
      rfl
    · rw [hs.dataPages]
    · rw [h0, List.take_zero, List.take_zero]

theorem PagedStorage.readsBack (hc : Coherent hd inode) (hs : PagedStorage hd inode)
    (hps : 0 < hd.pageSize) (corr : Bool) : ReadsBack inode (inode.decoded hd corr) := by
  have hne : inode.dataPages ≠ [] := by
    have h1 := hs.nonempty
    intro h
    rw [h] at h1
    exact absurd h1 (by decide)
  have hids : ∀ i ∈ inode.dataPages.map (·.pageId), i < hd.filesystemSize := by
    intro i hi
    obtain ⟨m, hm, rfl⟩ := List.mem_map.mp hi
    have := (hs.region m hm).2
    omega
  have hcount : pagesLeft hd inode.fileLen 0 = (inode.dataPages.map (·.pageId)).length := by
    rw [pagesLeft, Nat.sub_zero, List.length_map, hs.count]
  -- as many page numbers as the length asks for: nothing is corrected
  have hpages : correctPages hd corr inode.recordedIds 0 ⟨[], inode.fileLen, false⟩ =
      ⟨storedPages (inode.dataPages.map (·.pageId)), inode.fileLen, false⟩ := by
    rw [hc.recordedIds]
    cases corr with
    | false => rw [correctPages_raw, List.nil_append]
    | true => rw [correctPages_corrected hps hids, hcount, List.take_length, List.nil_append]; simp
  unfold Inode.decoded
  rw [hc.recorded]
  simp only [hne, ne_eq, not_false_eq_true, if_true, hpages]
  exact ⟨rfl, rfl, rfl, rfl, rfl, rfl, rfl, map_pageId_storedPages _, fun h => absurd h hne, rfl⟩

theorem getInode_inode2page [Config] (hc : Coherent hd inode) (he : inode2page hd inode = .ok page)
    (corr : Bool) : checksumOk hd.endianness (addPageChecksum hd.endianness page) = true ∧
      ∃ h, decodeInode hd (addPageChecksum hd.endianness page) corr = .ok h ∧ ReadsBack inode h := by
  have hi := inode2page_eq_ok he
  have hf := hi.fits
  have hl := hi.length
  refine ⟨checksumOk_addPageChecksum _ (by omega), inode.decoded hd corr,
    hi.decodeInode_eq hc.fileNameLen_lt corr, ?_⟩
  exact hc.storage.elim (fun hs => hs.readsBack hc corr) fun hs => hs.readsBack hc (by omega) corr

-- a file of 70 bytes in two pages, big-endian
def codecHeader : Header := { Header.ofFields 0 64 14 4 0 with endianness := .be }

def codecInode : Inode where
  inodeNumber := 5
  inodeVersionNumber := 258
  fileNameLen := 1
  fileName := [97]
  fileLen := 70
  dataPages := [{ pageId := 7 }, { pageId := 5 }]

theorem codecInode_coherent : Coherent codecHeader codecInode where
  nameLen := rfl
  inodeNumber_lt := by decide
  inodeVersionNumber_lt := by decide
  fileNameLen_lt := by decide
  attributes_lt := by decide
  fileLen_lt := by decide
  pageId_lt := by decide
  storage := Or.inr ⟨by decide, by decide, by decide⟩

theorem codecInode_fits : FitsPage codecHeader codecInode := ⟨by decide, by decide, by decide, by decide⟩

theorem getInode_inode2page_two_pages : ∃ page, inode2page codecHeader codecInode = .ok page ∧
    @checksumOk dynamicConfig .be (@addPageChecksum dynamicConfig .be page) = true ∧
      ∃ h, decodeInode codecHeader (@addPageChecksum dynamicConfig .be page) true = .ok h ∧
        ReadsBack codecInode h := by
  obtain ⟨page, hpage⟩ := inode2page_ok codecInode_fits
  exact ⟨page, hpage, @getInode_inode2page codecHeader codecInode _ dynamicConfig codecInode_coherent hpage true⟩

end SimpleFlashFs
