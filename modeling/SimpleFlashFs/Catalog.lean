import SimpleFlashFs.Relocation
import SimpleFlashFs.OpenTrunc

namespace SimpleFlashFs

open Lib

section Records

variable [Config] {s t : Fs} {n : Inode} {i j : ℕ}

def nameAt (s : Fs) (i : ℕ) : List UInt8 := (rawAt s i).inode.fileName

-- the handle that find_file and get_all_inodes make of the inode page i
def openedAt (s : Fs) (i : ℕ) : FileHandle :=
  match decodeInode s.header (pageAt s i) true with
  | .ok h => { h with page := i }
  | .error _ => {}

-- what a flush keeps to when it writes a record
structure Regular (s : Fs) (n : Inode) : Prop where
  nameLen : n.fileNameLen < 2 ^ 16
  region : ∀ p ∈ n.dataPages.map DataPage.pageId, DataRegion s p
  inline : n.dataPages = [] → n.fileLen ≤ inodeDataSpaceSize s.header n.fileNameLen
  number : n.inodeNumber ≠ 0
  number_le : n.inodeNumber ≤ s.maxInodeNumber

-- every inode has one record, and every name too
structure Catalog (s : Fs) : Prop where
  ready : Ready s
  plan : s.mem.plan = []
  whole : WholeRange s
  variant : s.variant ≠ .noDel
  erased : checksumOk s.header.endianness (List.replicate s.header.pageSize 0xFF) = false
  numbers_lt : s.maxInodeNumber < 2 ^ 64
  stored : ∀ i, Valid s i → ∃ n, Stores s i n ∧ Regular s n
  numbers : ∀ i j, Valid s i → Valid s j → numberAt s i = numberAt s j → i = j
  names : ∀ i j, Valid s i → Valid s j → nameAt s i = nameAt s j → nameAt s i ≠ [] → i = j

omit [Config] in
theorem Regular.recordedIds (hr : Regular s n) (L : Layout s) : n.recordedIds = n.dataPages.map DataPage.pageId := by
  apply List.map_congr_left
  intro m hm
  have hlt := L.lt_noData (hr.region m.pageId (List.mem_map_of_mem hm)).2
  apply Nat.mod_eq_of_lt
  unfold noData at hlt
  omega

omit [Config] in
theorem Regular.recordedIds_region (hr : Regular s n) (L : Layout s) : ∀ p ∈ n.recordedIds, DataRegion s p := by
  rw [hr.recordedIds L]
  exact hr.region

omit [Config] in
theorem Regular.decoded_raw (hr : Regular s n) : (n.decoded s.header false).modified = false := by
  unfold Inode.decoded
  dsimp only
  split
  · rw [correctPages_raw]
  · next hp =>
    split
    · rw [if_pos]
      have hle := hr.inline (not_not.mp hp)
      exact (Nat.mod_le _ _).trans hle
    · rfl

-- the pages that hold no byte of the file are dropped, and nothing else
structure Corrected (s : Fs) (n : Inode) (h : FileHandle) : Prop where
  connected : h.connected = true
  number : h.inode.inodeNumber = n.inodeNumber
  version : h.inode.inodeVersionNumber = n.inodeVersionNumber % 2 ^ 64
  nameLen : h.inode.fileNameLen = n.fileNameLen
  name : h.inode.fileName = n.flashName
  fileLen : h.inode.fileLen = n.fileLen % 2 ^ 64
  pages : ∃ k, h.inode.dataPages = storedPages (n.recordedIds.take k)
  inline : n.dataPages ≠ [] → h.inode.inodeData = []
  space : n.dataPages = [] → h.modified = false
  fits : h.inode.dataPages = [] → h.inode.fileLen ≤ inodeDataSpaceSize s.header n.fileNameLen

omit [Config] in
theorem Regular.corrected (hr : Regular s n) (L : Layout s) (hlt : s.maxInodeNumber < 2 ^ 64) :
    Corrected s n (n.decoded s.header true) := by
  have hnum : n.inodeNumber % 2 ^ 64 = n.inodeNumber := Nat.mod_eq_of_lt (hr.number_le.trans_lt hlt)
  have hids : ∀ p ∈ n.recordedIds, p < s.header.filesystemSize := by
    intro p hp
    have hin := (hr.recordedIds_region L p hp).2
    unfold InRange at hin
    omega
  have hle : n.dataPages = [] → n.fileLen % 2 ^ 64 ≤ inodeDataSpaceSize s.header n.fileNameLen :=
    fun hnil => (Nat.mod_le _ _).trans (hr.inline hnil)
  unfold Inode.decoded
  dsimp only
  split
  · next hp =>
    rw [correctPages_corrected L.pageSize_pos hids]
    refine ⟨rfl, hnum, rfl, rfl, rfl, rfl, ⟨_, rfl⟩, fun _ => rfl, fun he => absurd he hp, fun hnil => ?_⟩
    have hlen := congrArg List.length hnil
    rw [List.nil_append, storedPages, List.length_map, List.length_take, Inode.recordedIds, List.length_map,
      List.length_nil] at hlen
    have hpos := List.length_pos_iff.mpr hp
    have hzero : pagesLeft s.header (n.fileLen % 2 ^ 64) 0 = 0 := by
      have hmin : min (pagesLeft s.header (n.fileLen % 2 ^ 64) 0) n.dataPages.length = 0 := hlen
      omega
    rw [pagesLeft, Nat.div_eq_zero_iff] at hzero
    have hps := L.pageSize_pos
    have hlen0 : n.fileLen % 2 ^ 64 = 0 := by omega
    exact hlen0.le.trans (Nat.zero_le _)
  · next hp =>
    have hnil : n.dataPages = [] := not_not.mp hp
    have hfit : n.recorded.fileLen ≤ inodeDataSpaceSize s.header n.recorded.fileNameLen := hle hnil
    split
    · exact ⟨rfl, hnum, rfl, rfl, rfl, rfl, ⟨0, rfl⟩, fun he => absurd he hp, fun _ => rfl, fun _ => hfit⟩
    · exact ⟨rfl, hnum, rfl, rfl, rfl, rfl, ⟨0, rfl⟩, fun he => absurd he hp, fun _ => rfl, fun _ => hfit⟩

end Records

section Total

variable [Config] {s : Fs} {h k : FileHandle}

omit [Config] in
theorem wp_perform_reliable (hp : s.mem.plan = []) (op : PhysOp) :
    wp (perform op) (fun done t => done = true ∧ t.mem.plan = []) (fun _ _ => False) s := by
  simp only [perform, wp_bind, wp_get, wp_set, Memory.perform, hp]
  exact ⟨rfl, rfl⟩

omit [Config] in
theorem wp_eraseInodeAndUnusedPages_reliable (hp : s.mem.plan = []) :
    wp (eraseInodeAndUnusedPages h k) (fun _ t => t.mem.plan = []) (fun _ _ => False) s := by
  have hpage : ∀ (p : ℕ) (t : Fs), t.mem.plan = [] →
      wp (eraseDataPage p) (fun _ u => u.mem.plan = []) (fun _ _ => False) t := by
    intro p t ht
    simp only [eraseDataPage, wp_bind, wp_get]
    apply wp_mono (wp_perform_reliable ht _)
    · rintro done u ⟨-, hu⟩
      rw [wp_ite]
      exact ⟨fun _ => hu, fun _ => hu⟩
    · exact fun _ _ h => h
  have hall : ∀ (l : List ℕ) (t : Fs), t.mem.plan = [] →
      wp (each eraseDataPage l) (fun _ u => u.mem.plan = []) (fun _ _ => False) t := by
    intro l
    induction l with
    | nil => exact fun t ht => ht
    | cons p l ih =>
      intro t ht
      rw [each, wp_bind]
      exact wp_mono (hpage p t ht) (fun _ u hu => ih u hu) (fun _ _ h => h)
  have hbase : wp (eraseInodeAndUnusedPagesBase h k) (fun _ t => t.mem.plan = []) (fun _ _ => False) s := by
    rw [eraseInodeAndUnusedPagesBase, wp_bind]
    exact wp_mono (hall _ s hp) (fun _ _ h => h) (fun _ _ h => h)
  rw [eraseInodeAndUnusedPages, wp_bind, wp_get]
  cases s.variant with
  | noDel => exact hp
  | dynamic => exact hbase
  | fram => exact hbase

omit [Config] in
theorem wp_writeZeroPages_stored (hs : ∀ m ∈ h.inode.dataPages, m.state ≠ .new) :
    wp (writeZeroPages h) (fun r t => r = (true, h) ∧ t = s) (fun _ _ => False) s := by
  have hfrom : ∀ left idx, wp (writeZeroPagesFrom left idx h) (fun r t => r = (true, h) ∧ t = s)
      (fun _ _ => False) s := by
    intro left
    induction left with
    | zero => exact fun idx => ⟨rfl, rfl⟩
    | succ left ih =>
      intro idx
      simp only [writeZeroPagesFrom, wp_bind, wp_get]
      cases hm : h.inode.dataPages[idx]? with
      | none => exact ⟨rfl, rfl⟩
      | some m =>
        dsimp only
        rw [if_neg (hs m (List.mem_of_getElem? hm))]
        exact ih _
  exact hfrom _ _

-- the next version of a file without unwritten pages is written unless no inode page is left
theorem wp_flushNextVersion_total (hp : s.mem.plan = []) (hr : Ready s) (hw : WholeRange s)
    (hs : ∀ m ∈ h.inode.dataPages, m.state ≠ .new)
    (hfit : ∀ p, ∃ img, inode2page s.header (h.nextVersion p).inode = .ok img) :
    wp (flushNextVersion h) (fun _ _ => True) (fun _ _ => False) s := by
  rw [flushNextVersion, wp_bind]
  apply wp_mono (wp_allocateFreeInodePageNumber_start hr hw)
  · intro r u hu
    cases r with
    | none => trivial
    | some p =>
      have hh : u.header = s.header := by rw [hu.rest]
      have hpu : u.mem.plan = [] := by rw [hu.rest]; exact hp
      obtain ⟨img, himg⟩ := hfit p
      have hnew : ∀ m ∈ (h.nextVersion p).inode.dataPages, m.state ≠ .new :=
        fun m hm => hs m (List.mem_filter.mp hm).1
      simp only [wp_bind, wp_get, hh, himg, liftFault, wp_pure]
      apply wp_mono (wp_writeZeroPages_stored hnew)
      · rintro r v ⟨rfl, rfl⟩
        rw [writeMetaPage, wp_bind, wp_get]
        apply wp_mono (wp_perform_reliable hpu _)
        · rintro done w ⟨rfl, hpw⟩
          rw [if_pos rfl, wp_bind]
          exact wp_mono (wp_eraseInodeAndUnusedPages_reliable hpw) (fun _ _ _ => trivial) (fun _ _ h => h)
        · exact fun _ _ h => h
      · exact fun _ _ h => h
  · exact fun _ _ h => h

end Total

section Keeping

variable [Config] {s t : Fs} {h k : FileHandle} {n : Inode} {i j : ℕ}

-- what can be read of the record n at page i
structure Holds (s : Fs) (i : ℕ) (n : Inode) : Prop where
  regular : Regular s n
  fits : 42 + n.fileNameLen ≤ s.header.pageSize
  idsFit : n.dataPages ≠ [] → 42 + n.fileNameLen + 4 * n.dataPages.length ≤ s.header.pageSize
  name_le : n.fileNameLen ≤ n.fileName.length
  number : numberAt s i = n.inodeNumber
  name : nameAt s i = n.flashName
  raw : decodeInode s.header (pageAt s i) false = .ok (n.decoded s.header false)
  opened : decodeInode s.header (pageAt s i) true = .ok (n.decoded s.header true)

theorem Stores.holds (hs : Stores s i n) (hr : Regular s n) (hlt : s.maxInodeNumber < 2 ^ 64) : Holds s i n := by
  obtain ⟨img, himg, -⟩ := id hs
  have hrec := hs.record hr.nameLen
  refine ⟨hr, himg.fits, himg.ids_fit, himg.name_le, ?_, hrec.2.2, hs.decode hr.nameLen false, hs.decode hr.nameLen true⟩
  rw [hrec.1]
  exact Nat.mod_eq_of_lt (hr.number_le.trans_lt hlt)

theorem Catalog.holds (hc : Catalog s) (hi : Valid s i) : ∃ n, Stores s i n ∧ Holds s i n := by
  obtain ⟨n, hs, hr⟩ := hc.stored i hi
  exact ⟨n, hs, hs.holds hr hc.numbers_lt⟩

omit [Config] in
theorem Holds.openedAt_eq (ho : Holds s i n) : openedAt s i = { n.decoded s.header true with page := i } := by
  rw [openedAt, ho.opened]

omit [Config] in
theorem Holds.rawAt_eq (ho : Holds s i n) : rawAt s i = { n.decoded s.header false with page := i } := by
  rw [rawAt, ho.raw]

theorem Catalog.number_le (hc : Catalog s) (hi : Valid s i) : numberAt s i ≠ 0 ∧ numberAt s i ≤ s.maxInodeNumber := by
  obtain ⟨n, -, ho⟩ := hc.holds hi
  rw [ho.number]
  exact ⟨ho.regular.number, ho.regular.number_le⟩

-- a new file's page holds no record; the page of any other still holds its version
def OwnPage (s : Fs) (h : FileHandle) : Prop :=
  if h.inode.inodeNumber = 0 then ¬ Valid s h.page else VersionAt s h.inode.inodeNumber h.page

-- a flush of h leaves one record of its number and of its name
structure Flushable (s : Fs) (h : FileHandle) : Prop where
  own : OwnPage s h
  numbers : h.inode.inodeNumber = 0 → s.maxInodeNumber + 1 < 2 ^ 64
  inline : FitsInline s.header h
  name : ∀ i, Valid s i → nameAt s i = h.inode.flashName → h.inode.flashName = [] ∨ i = h.page

-- what every handle that was opened keeps to
structure Held (s : Fs) (h : FileHandle) : Prop where
  page : h.page < s.header.maxInodes
  region : InRegion s h
  nameLen : h.inode.fileNameLen < 2 ^ 16
  number_le : h.inode.inodeNumber ≤ s.maxInodeNumber

theorem OwnPage.valid_iff_number (ho : OwnPage s h) : Valid s h.page ↔ h.inode.inodeNumber ≠ 0 := by
  unfold OwnPage at ho
  split at ho
  · next hn => exact iff_of_false ho (not_not.mpr hn)
  · next hn => exact iff_of_true ho.1 hn

theorem OwnPage.numberAt_eq (ho : OwnPage s h) (hn : h.inode.inodeNumber ≠ 0) :
    numberAt s h.page = h.inode.inodeNumber := by
  rw [OwnPage, if_neg hn] at ho
  exact ho.2

theorem Relocated.valid_self (r : Relocated s h t k) : Valid t k.page := by
  obtain ⟨n, hs, -, -⟩ := r.stores
  refine ⟨?_, hs.checksumOk⟩
  rw [r.header]
  exact r.page

theorem Relocated.not_valid_claimed (r : Relocated s h t k) (hne : k.page ≠ h.page) : ¬ Valid s k.page := by
  rcases r.number with ⟨-, he, -⟩ | ⟨-, hcl, -⟩
  · exact absurd he hne
  · exact hcl.2.1

theorem Relocated.pageAt_old (r : Relocated s h t k) (hne : k.page ≠ h.page) :
    pageAt t h.page = List.replicate s.header.pageSize 0xFF := by
  rcases r.number with ⟨-, he, -⟩ | ⟨-, -, hpage, -⟩
  · exact absurd he hne
  · exact hpage

-- the other records stay where they are
theorem Relocated.valid_iff (hc : Catalog s) (r : Relocated s h t k) :
    Valid t j ↔ j = k.page ∨ Valid s j ∧ j ≠ h.page := by
  by_cases hjk : j = k.page
  · rw [hjk]
    exact iff_of_true r.valid_self (Or.inl rfl)
  · by_cases hjh : j = h.page
    · have hpage := r.pageAt_old fun e => hjk (hjh.trans e.symm)
      apply iff_of_false
      · rintro ⟨-, hsum⟩
        rw [hjh, hpage, r.header, hc.erased] at hsum
        cases hsum
      · rintro (he | ⟨-, hne⟩)
        · exact hjk he
        · exact hne hjh
    · have hsame : Valid t j ↔ Valid s j := by
        unfold Valid
        rw [r.header]
        exact and_congr_right fun hj => by rw [r.others j hj hjk hjh]
      rw [hsame]
      exact ⟨fun hv => Or.inr ⟨hv, hjh⟩, fun hv => (hv.resolve_left hjk).1⟩

theorem Relocated.other (r : Relocated s h t k) (hv : Valid s j) (hne : j ≠ h.page) :
    j ≠ k.page ∧ pageAt t j = pageAt s j := by
  have hjk : j ≠ k.page := by
    rintro rfl
    exact r.not_valid_claimed hne hv
  exact ⟨hjk, r.others j hv.1 hjk hne⟩

omit [Config] in
theorem nameAt_congr (hh : t.header = s.header) (hp : pageAt t i = pageAt s i) : nameAt t i = nameAt s i := by
  rw [nameAt, nameAt, rawAt_congr hh hp]

omit [Config] in
theorem numberAt_congr (hh : t.header = s.header) (hp : pageAt t i = pageAt s i) : numberAt t i = numberAt s i := by
  rw [numberAt, numberAt, rawAt_congr hh hp]

omit [Config] in
theorem openedAt_congr (hh : t.header = s.header) (hp : pageAt t i = pageAt s i) : openedAt t i = openedAt s i := by
  rw [openedAt, openedAt, hh, hp]

-- the number that the record gets is the number of no other
theorem Relocated.fresh_number (hc : Catalog s) (r : Relocated s h t k) (hf : Flushable s h) :
    k.inode.inodeNumber ≠ 0 ∧ s.maxInodeNumber ≤ t.maxInodeNumber ∧ t.maxInodeNumber < 2 ^ 64 ∧
      (h.inode.inodeNumber ≤ s.maxInodeNumber → k.inode.inodeNumber ≤ t.maxInodeNumber) ∧
      ∀ j, Valid s j → j ≠ h.page → numberAt s j ≠ k.inode.inodeNumber := by
  have hlt := hc.numbers_lt
  rcases r.number with ⟨hn, -, hk, ht⟩ | ⟨hn, -, -, -, hk, ht⟩
  · rw [Nat.mod_eq_of_lt (hf.numbers hn)] at hk ht
    have hnum := hf.numbers hn
    refine ⟨by omega, by omega, by omega, fun _ => by omega, fun j hj _ he => ?_⟩
    have hle := (hc.number_le hj).2
    omega
  · refine ⟨by rwa [hk], ht.ge, by rwa [ht], fun hle => by rw [hk, ht]; exact hle, fun j hj hne he => hne ?_⟩
    have hown := hf.own
    rw [OwnPage, if_neg hn] at hown
    exact hc.numbers j h.page hj hown.1 (by rw [he, hk, hown.2])

theorem Relocated.stores_regular (hc : Catalog s) (r : Relocated s h t k) (hh : Held s h) (hf : Flushable s h) :
    ∃ n, Stores t k.page n ∧ Holds t k.page n ∧ Writes s h n ∧ n.inodeNumber = k.inode.inodeNumber := by
  obtain ⟨n, hs, hw, hn⟩ := r.stores
  obtain ⟨hne, -, hlt, hle, -⟩ := r.fresh_number hc hf
  refine ⟨n, hs, hs.holds ?_ hlt, hw, hn⟩
  constructor
  · rw [hw.nameLen]
    exact hh.nameLen
  · intro p hp
    rw [DataRegion, InRange, r.header]
    exact hw.region p hp
  · rw [r.header]
    exact hw.inline hf.inline
  · rw [hn]
    exact hne
  · rw [hn]
    exact hle hh.number_le

omit [Config] in
theorem Writes.flashName (hw : Writes s h n) : n.flashName = h.inode.flashName := by
  rw [Inode.flashName, Inode.flashName, hw.nameLen, hw.name]

omit [Config] in
theorem Regular.congr (hr : Regular s n) (hh : t.header = s.header) (hle : n.inodeNumber ≤ t.maxInodeNumber) :
    Regular t n where
  nameLen := hr.nameLen
  region p hp := by
    rw [DataRegion, InRange, hh]
    exact hr.region p hp
  inline := by
    rw [hh]
    exact hr.inline
  number := hr.number
  number_le := hle

theorem Catalog.relocated (hc : Catalog s) (hh : Held s h) (hf : Flushable s h) (r : Relocated s h t k) : Catalog t := by
  obtain ⟨n, hs, hn, hw, hnum⟩ := r.stores_regular hc hh hf
  obtain ⟨-, hle, hlt, -, hfresh⟩ := r.fresh_number hc hf
  have hcases : ∀ j, Valid t j → j = k.page ∨ Valid s j ∧ j ≠ h.page := fun j => (r.valid_iff hc).mp
  have hnumbers : ∀ j, Valid s j → j ≠ h.page → numberAt t k.page ≠ numberAt t j := by
    intro j hv hne he
    rw [hn.number, hnum, numberAt_congr r.header (r.other hv hne).2] at he
    exact hfresh j hv hne he.symm
  have hnames : ∀ j, Valid s j → j ≠ h.page → nameAt t k.page = nameAt t j → nameAt t j = [] := by
    intro j hv hne he
    rw [nameAt_congr r.header (r.other hv hne).2] at he ⊢
    rw [hn.name, hw.flashName] at he
    rw [← he]
    exact (hf.name j hv he.symm).resolve_right hne
  constructor
  · exact r.ready
  · exact r.plan hc.plan
  · exact r.whole
  · rw [r.variant]
    exact hc.variant
  · rw [r.header]
    exact hc.erased
  · exact hlt
  · intro j hj
    rcases hcases j hj with rfl | ⟨hv, hne⟩
    · exact ⟨n, hs, hn.regular⟩
    · obtain ⟨m, hm, hr⟩ := hc.stored j hv
      exact ⟨m, stores_congr r.header (r.other hv hne).2 hm, hr.congr r.header (hr.number_le.trans hle)⟩
  · intro i j hi hj he
    rcases hcases i hi with rfl | ⟨hvi, hni⟩
    · rcases hcases j hj with rfl | ⟨hvj, hnj⟩
      · rfl
      · exact absurd he (hnumbers j hvj hnj)
    · rcases hcases j hj with rfl | ⟨hvj, hnj⟩
      · exact absurd he.symm (hnumbers i hvi hni)
      · rw [numberAt_congr r.header (r.other hvi hni).2, numberAt_congr r.header (r.other hvj hnj).2] at he
        exact hc.numbers i j hvi hvj he
  · intro i j hi hj he hne
    rcases hcases i hi with rfl | ⟨hvi, hni⟩
    · rcases hcases j hj with rfl | ⟨hvj, hnj⟩
      · rfl
      · exact absurd (he.trans (hnames j hvj hnj he)) hne
    · rcases hcases j hj with rfl | ⟨hvj, hnj⟩
      · exact absurd (hnames i hvi hni he.symm) hne
      · rw [nameAt_congr r.header (r.other hvi hni).2] at he hne
        rw [nameAt_congr r.header (r.other hvj hnj).2] at he
        exact hc.names i j hvi hvj he hne

end Keeping

section Shifting

variable [Config] {s t u : Fs} {h k : FileHandle} {n : Inode} {i j : ℕ}

-- list_files would report this name with this size
def Lists (s : Fs) (name : List UInt8) (size : ℕ) : Prop :=
  ∃ i, Valid s i ∧ nameAt s i = name ∧ (openedAt s i).inode.fileLen = size

-- two inode pages are left, so that one of them is not the last that an allocation would try
def Spare (s : Fs) : Prop := ∃ i j, i ≠ j ∧ Claimable s i ∧ Claimable s j

-- records may have moved to other pages, corrected
structure Shifted (s t : Fs) : Prop where
  header : t.header = s.header
  numbers : t.maxInodeNumber = s.maxInodeNumber
  reserved : ∀ i < s.header.maxInodes, i ∈ s.allocatedUnwrittenPages → ¬ Valid s i →
    i ∈ t.allocatedUnwrittenPages ∧ ¬ Valid t i
  clean : ∀ i, Valid s i → (openedAt s i).modified = false → Valid t i ∧ pageAt t i = pageAt s i
  entries : ∀ name size, Lists t name size ↔ Lists s name size
  spare : Spare s → Spare t

theorem Shifted.trans (a : Shifted s t) (b : Shifted t u) : Shifted s u where
  header := b.header.trans a.header
  numbers := b.numbers.trans a.numbers
  reserved i hi hr hn := by
    obtain ⟨hr', hn'⟩ := a.reserved i hi hr hn
    exact b.reserved i (by rw [a.header]; exact hi) hr' hn'
  clean i hv hm := by
    obtain ⟨hv', hp⟩ := a.clean i hv hm
    obtain ⟨hv2, hp2⟩ := b.clean i hv' (by rw [openedAt_congr a.header hp]; exact hm)
    exact ⟨hv2, hp2.trans hp⟩
  entries name size := (b.entries name size).trans (a.entries name size)
  spare hs := b.spare (a.spare hs)

structure SameFlash (s t : Fs) : Prop where
  mem : t.mem = s.mem
  header : t.header = s.header
  variant : t.variant = s.variant
  numbers : t.maxInodeNumber = s.maxInodeNumber
  ready : Ready t
  whole : WholeRange t

-- of the reservations only some of pages with a record were given back
structure Freed (s t : Fs) : Prop extends SameFlash s t where
  kept : ∀ i < s.header.maxInodes, i ∈ s.allocatedUnwrittenPages → ¬ Valid s i → i ∈ t.allocatedUnwrittenPages
  less : ∀ i, i ∈ t.allocatedUnwrittenPages → i ∈ s.allocatedUnwrittenPages

omit [Config] in
theorem SameFlash.pageAt_eq (e : SameFlash s t) (i : ℕ) : pageAt t i = pageAt s i := by
  rw [pageAt, pageAt, e.mem, e.header]

theorem SameFlash.valid_iff (e : SameFlash s t) : Valid t i ↔ Valid s i := valid_congr e.header (e.pageAt_eq i)

-- some of the records are left
theorem Catalog.fewer (hc : Catalog s) (hh : t.header = s.header) (hv : t.variant = s.variant) (hplan : t.mem.plan = [])
    (hr : Ready t) (hw : WholeRange t) (hlt : t.maxInodeNumber < 2 ^ 64)
    (hp : ∀ i, Valid t i → Valid s i ∧ pageAt t i = pageAt s i) (hle : ∀ i, Valid t i → numberAt s i ≤ t.maxInodeNumber) :
    Catalog t := by
  constructor
  · exact hr
  · exact hplan
  · exact hw
  · rw [hv]
    exact hc.variant
  · rw [hh]
    exact hc.erased
  · exact hlt
  · intro i hi
    obtain ⟨hvi, hpage⟩ := hp i hi
    obtain ⟨n, hst, ho⟩ := hc.holds hvi
    refine ⟨n, stores_congr hh hpage hst, ho.regular.congr hh ?_⟩
    rw [← ho.number]
    exact hle i hi
  · intro i j hi hj he
    obtain ⟨hvi, hpi⟩ := hp i hi
    obtain ⟨hvj, hpj⟩ := hp j hj
    rw [numberAt_congr hh hpi, numberAt_congr hh hpj] at he
    exact hc.numbers i j hvi hvj he
  · intro i j hi hj
    obtain ⟨hvi, hpi⟩ := hp i hi
    obtain ⟨hvj, hpj⟩ := hp j hj
    rw [nameAt_congr hh hpi, nameAt_congr hh hpj]
    exact hc.names i j hvi hvj

theorem Catalog.congr (hc : Catalog s) (hh : t.header = s.header) (hv : t.variant = s.variant)
    (hn : t.maxInodeNumber = s.maxInodeNumber) (hplan : t.mem.plan = []) (hr : Ready t) (hw : WholeRange t)
    (hp : ∀ i < s.header.maxInodes, pageAt t i = pageAt s i) : Catalog t := by
  have hvalid : ∀ i, Valid t i → Valid s i ∧ pageAt t i = pageAt s i := by
    intro i hi
    have hpage := hp i (by rw [← hh]; exact hi.1)
    exact ⟨(valid_congr hh hpage).mp hi, hpage⟩
  apply hc.fewer hh hv hplan hr hw _ hvalid
  · intro i hi
    rw [hn]
    exact (hc.number_le (hvalid i hi).1).2
  · rw [hn]
    exact hc.numbers_lt

theorem SameFlash.catalog (e : SameFlash s t) (hc : Catalog s) : Catalog t := by
  apply hc.congr e.header e.variant e.numbers
  · rw [e.mem]
    exact hc.plan
  · exact e.ready
  · exact e.whole
  · exact fun i _ => e.pageAt_eq i

theorem Freed.claimable (e : Freed s t) (hc : Claimable s i) : Claimable t i :=
  ⟨by rw [e.header]; exact hc.1, fun hv => hc.2.1 (e.valid_iff.mp hv), fun hr => hc.2.2 (e.less i hr)⟩

theorem Freed.shifted (e : Freed s t) : Shifted s t where
  header := e.header
  numbers := e.numbers
  reserved i hi hr hn := ⟨e.kept i hi hr hn, fun hv => hn (e.valid_iff.mp hv)⟩
  clean i hv _ := ⟨e.valid_iff.mpr hv, e.pageAt_eq i⟩
  entries name size := by
    apply exists_congr
    intro i
    rw [e.valid_iff, nameAt_congr e.header (e.pageAt_eq i), openedAt_congr e.header (e.pageAt_eq i)]
  spare hs := by
    obtain ⟨i, j, hne, hi, hj⟩ := hs
    exact ⟨i, j, hne, e.claimable hi, e.claimable hj⟩

theorem Catalog.freed_ivStorage (hc : Catalog s) (ivs : List InodeVersion) : Freed s { s with ivStorage := ivs } where
  mem := rfl
  header := rfl
  variant := rfl
  numbers := rfl
  ready := ⟨hc.ready.layout.of_eq rfl rfl, hc.ready.noShort, hc.ready.freeWF, hc.ready.allocatedWF, hc.ready.range,
    hc.ready.free⟩
  whole := hc.whole.congr rfl rfl
  kept _ _ hr _ := hr
  less _ hr := hr

theorem Takes.sameFlash {r : Option ℕ} (ht : Takes s t r) (hr : Ready s) : SameFlash s t := by
  have hrest := ht.rest
  constructor
  · rw [hrest]
  · rw [hrest]
  · rw [hrest]
  · rw [hrest]
  · exact ht.toTakesInode.ready hr
  · exact ht.whole

theorem Takes.freed (ht : Takes s t none) (hr : Ready s) : Freed s t where
  toSameFlash := ht.sameFlash hr
  kept i _ hi _ := (ht.mem_iff i).mpr (Or.inl hi)
  less i hi := ((ht.mem_iff i).mp hi).resolve_right nofun

theorem Released.sameFlash {l : List ℕ} (hr : Released s t l) (hc : Catalog s) : SameFlash s t := by
  have hrest := hr.rest
  constructor
  · rw [hrest]
  · rw [hrest]
  · rw [hrest]
  · rw [hrest]
  · exact hr.ready hc.ready
  · apply hc.whole.congr
    · rw [hrest]
    · rw [hrest]

theorem Released.freed {l : List ℕ} (hr : Released s t l) (hc : Catalog s)
    (hl : ∀ i ∈ l, i < s.header.maxInodes → Valid s i) : Freed s t where
  toSameFlash := hr.sameFlash hc
  kept i hi hres hn := (hr.mem_iff i).mpr ⟨hres, fun hil => hn (hl i hil hi)⟩
  less i hi := ((hr.mem_iff i).mp hi).1

theorem Relocated.claimable (hc : Catalog s) (r : Relocated s h t k) (hi : Claimable s i)
    (hne : i ≠ k.page) (hnh : i ≠ h.page) : Claimable t i := by
  refine ⟨by rw [r.header]; exact hi.1, fun hv => ?_, fun hr => hi.2.2 ((r.reserved i hi.1 hne hnh).mp hr)⟩
  exact hi.2.1 (((r.valid_iff hc).mp hv).resolve_left hne).1

theorem Relocated.spare (hc : Catalog s) (r : Relocated s h t k) (ho : OwnPage s h) (hn : h.inode.inodeNumber ≠ 0)
    (hs : Spare s) : Spare t := by
  obtain ⟨i, j, hij, hi, hj⟩ := hs
  have hval := ho.valid_iff_number.mpr hn
  obtain ⟨hcl, hres⟩ : Claimable s k.page ∧ h.page ∉ t.allocatedUnwrittenPages := by
    rcases r.number with ⟨he, -⟩ | ⟨-, hcl, -, hres, -⟩
    · exact absurd he hn
    · exact ⟨hcl, hres⟩
  have hne : ∀ {q}, Claimable s q → q ≠ h.page := by
    rintro q hq rfl
    exact hq.2.1 hval
  have hold : Claimable t h.page := by
    refine ⟨by rw [r.header]; exact hval.1, fun hv => ?_, hres⟩
    rcases (r.valid_iff hc).mp hv with he | ⟨-, he⟩
    · exact hne hcl he.symm
    · exact he rfl
  by_cases hik : i = k.page
  · have hjk : j ≠ k.page := fun e => hij (hik.trans e.symm)
    exact ⟨j, h.page, hne hj, r.claimable hc hj hjk (hne hj), hold⟩
  · exact ⟨i, h.page, hne hi, r.claimable hc hi hik (hne hi), hold⟩

end Shifting

section Closing

variable [Config] {s t u : Fs} {h k : FileHandle} {n : Inode} {i j : ℕ}

-- a handle that has just been read from page i
structure Opened (s : Fs) (i : ℕ) (h : FileHandle) : Prop extends Held s h where
  page_eq : h.page = i
  connected : h.connected = true
  own : VersionAt s h.inode.inodeNumber i
  numbered : h.inode.inodeNumber ≠ 0
  name : h.inode.fileName = nameAt s i
  flashName : h.inode.flashName = nameAt s i
  stored : ∀ m ∈ h.inode.dataPages, m.state = .stored
  inline : FitsInline s.header h
  encodes : h.modified = true → ∀ p, ∃ img, inode2page s.header (h.nextVersion p).inode = .ok img

omit [Config] in
theorem stored_of_mem_storedPages {l : List ℕ} {m : DataPage} (hm : m ∈ storedPages l) : m.state = .stored ∧ m.pageId ∈ l := by
  obtain ⟨p, hp, rfl⟩ := List.mem_map.mp hm
  exact ⟨rfl, hp⟩

omit [Config] in
theorem Inode.flashName_flashName (n : Inode) : n.flashName.take n.fileNameLen = n.flashName := by
  rw [Inode.flashName, List.take_take, min_self]

theorem Catalog.opened (hc : Catalog s) (hi : Valid s i) : Opened s i (openedAt s i) := by
  obtain ⟨n, hs, ho⟩ := hc.holds hi
  have hcor := ho.regular.corrected hc.ready.layout hc.numbers_lt
  obtain ⟨l, hl⟩ := hcor.pages
  have hlen : n.flashName.length = n.fileNameLen := by
    rw [Inode.flashName, List.length_take]
    exact min_eq_left ho.name_le
  rw [ho.openedAt_eq]
  constructor
  · constructor
    · exact hi.1
    · intro p hp
      obtain ⟨m, hm, rfl⟩ := List.mem_map.mp hp
      dsimp only at hm
      rw [hl] at hm
      exact ho.regular.recordedIds_region hc.ready.layout _ (List.mem_of_mem_take (stored_of_mem_storedPages hm).2)
    · dsimp only
      rw [hcor.nameLen]
      exact ho.regular.nameLen
    · dsimp only
      rw [hcor.number]
      exact ho.regular.number_le
  · rfl
  · exact hcor.connected
  · dsimp only
    rw [hcor.number, ← ho.number]
    exact ⟨hi, rfl⟩
  · dsimp only
    rw [hcor.number]
    exact ho.regular.number
  · dsimp only
    rw [hcor.name, ho.name]
  · dsimp only
    rw [Inode.flashName, hcor.name, hcor.nameLen, n.flashName_flashName, ho.name]
  · intro m hm
    dsimp only at hm
    rw [hl] at hm
    exact (stored_of_mem_storedPages hm).1
  · intro hzero
    dsimp only at hzero ⊢
    rw [getInodeDataSpaceSize]
    dsimp only
    rw [hcor.nameLen]
    apply hcor.fits
    rw [Inode.countValidDataPages, List.countP_eq_zero] at hzero
    by_contra hne
    obtain ⟨m, hm⟩ := List.exists_mem_of_ne_nil _ hne
    have hmem := hzero m hm
    rw [hl] at hm
    rw [(stored_of_mem_storedPages hm).1] at hmem
    exact hmem rfl
  · intro hm p
    have hne : n.dataPages ≠ [] := by
      intro hnil
      dsimp only at hm
      rw [hcor.space hnil] at hm
      cases hm
    have hfiltered : ((n.decoded s.header true).inode.dataPages.filter (·.state ≠ .deleted)).length ≤ n.dataPages.length := by
      apply (List.length_filter_le _ _).trans
      rw [hl, storedPages, List.length_map, List.length_take, Inode.recordedIds, List.length_map]
      exact Nat.min_le_right _ _
    have hfit := ho.idsFit hne
    apply inode2page_ok
    apply FitsPage.of_noData
    · change (n.decoded s.header true).inode.fileNameLen ≤ (n.decoded s.header true).inode.fileName.length
      rw [hcor.nameLen, hcor.name, hlen]
    · change 42 + (n.decoded s.header true).inode.fileNameLen +
        4 * ((n.decoded s.header true).inode.dataPages.filter (·.state ≠ .deleted)).length ≤ _
      rw [hcor.nameLen]
      omega
    · exact hcor.inline hne

theorem Opened.flushable (ho : Opened s i h) (hc : Catalog s) : Flushable s h where
  own := by
    rw [OwnPage, if_neg ho.numbered, ho.page_eq]
    exact ho.own
  numbers hn := absurd hn ho.numbered
  inline := ho.inline
  name j hj he := by
    by_cases hne : h.inode.flashName = []
    · exact Or.inl hne
    · rw [ho.flashName] at he hne
      rw [ho.page_eq]
      exact Or.inr (hc.names j i hj ho.own.1 he (by rwa [he]))

omit [Config] in
theorem Held.mono (hh : Held s k) (hd : t.header = s.header) (hle : s.maxInodeNumber ≤ t.maxInodeNumber) : Held t k where
  page := by
    rw [hd]
    exact hh.page
  region p hp := by
    rw [DataRegion, InRange, hd]
    exact hh.region p hp
  nameLen := hh.nameLen
  number_le := hh.number_le.trans hle

theorem Relocated.held (hc : Catalog s) (r : Relocated s h t k) (hh : Held s h) (hf : Flushable s h) : Held t k where
  page := by
    rw [r.header]
    exact r.page
  region p hp := by
    rw [DataRegion, InRange, r.header]
    exact r.region p hp
  nameLen := by
    rw [r.nameLen]
    exact hh.nameLen
  number_le := (r.fresh_number hc hf).2.2.2.1 hh.number_le

-- what a flush leaves
structure FlushKeeps (s : Fs) (h : FileHandle) (r : Bool × FileHandle) (t : Fs) : Prop where
  rewritten : Rewritten s h t r
  catalog : Catalog t
  held : Held t r.2
  header : t.header = s.header
  numbers : s.maxInodeNumber ≤ t.maxInodeNumber

theorem Rewritten.keeps {r : Bool × FileHandle} (hr : Rewritten s h t r) (hc : Catalog s) (hh : Held s h)
    (hf : h.modified = true → Flushable s h) : FlushKeeps s h r t := by
  have hall : Catalog t ∧ Held t r.2 ∧ t.header = s.header ∧ s.maxInodeNumber ≤ t.maxInodeNumber := by
    cases hr with
    | unmodified => exact ⟨hc, hh, rfl, le_rfl⟩
    | full t ht =>
      have e := ht.sameFlash hc.ready
      exact ⟨e.catalog hc, hh.mono e.header e.numbers.ge, e.header, e.numbers.ge⟩
    | relocated hm t k r =>
      have hf := hf hm
      exact ⟨hc.relocated hh hf r, r.held hc hh hf, r.header, (r.fresh_number hc hf).2.1⟩
  exact ⟨hr, hall.1, hall.2.1, hall.2.2.1, hall.2.2.2⟩

theorem Catalog.wp_flush (hc : Catalog s) (hh : Held s h) (hf : h.modified = true → Flushable s h) :
    wp (flush h) (fun r t => FlushKeeps s h r t) (fun _ _ => True) s := by
  apply wp_mono (wp_flush_rewritten hc.ready hc.variant hc.whole hh.region hh.page ?_)
  · exact fun r t hr => hr.keeps hc hh hf
  · exact fun _ _ h => h
  · exact fun hm hn => (hf hm).own.valid_iff_number.mpr hn

omit [Config] in
theorem Held.pages_lt (hh : Held s h) (L : Layout s) : ∀ p ∈ h.page :: h.ids, p < noData := by
  intro p hp
  rcases List.mem_cons.mp hp with rfl | hp
  · exact L.lt_noData (L.lt_inRange hh.page)
  · exact L.lt_noData (hh.region p hp).2

theorem wp_closeHandle_after {Q : Unit → Fs → Prop} {R : Fault → Fs → Prop} (hcon : h.connected = true)
    (hf : wp (flush h) (fun r t => Ready t ∧ Held t r.2 ∧ ∀ u, Released t u (r.2.page :: r.2.ids) → Q () u) R s) :
    wp (closeHandle h) Q R s := by
  rw [closeHandle, if_pos hcon, wp_bind]
  apply wp_mono hf
  · rintro r t ⟨hr, hh, hq⟩
    rw [each_freeUnwrittenPages]
    exact wp_mono (wp_freeUnwrittenPages (r.2.page :: r.2.ids) hr.allocatedWF (hh.pages_lt hr.layout))
      (fun _ u hu => hq u hu) (fun _ _ h => h)
  · exact fun _ _ h => h

-- a handle that was closed leaves a catalog
structure CloseKeeps (s t : Fs) : Prop where
  catalog : Catalog t
  header : t.header = s.header
  numbers : s.maxInodeNumber ≤ t.maxInodeNumber

theorem CloseKeeps.refl (hc : Catalog s) : CloseKeeps s s := ⟨hc, rfl, le_rfl⟩

theorem CloseKeeps.trans (a : CloseKeeps s t) (b : CloseKeeps t u) : CloseKeeps s u :=
  ⟨b.catalog, b.header.trans a.header, a.numbers.trans b.numbers⟩

theorem CloseKeeps.held (e : CloseKeeps s t) (hh : Held s h) : Held t h := hh.mono e.header e.numbers

theorem Catalog.wp_closeHandle (hc : Catalog s) (hh : h.connected = true → Held s h)
    (hf : h.connected = true → h.modified = true → Flushable s h) :
    wp (closeHandle h) (fun _ t => CloseKeeps s t) (fun _ _ => True) s := by
  by_cases hcon : h.connected = true
  · apply wp_closeHandle_after hcon
    apply wp_mono (hc.wp_flush (hh hcon) (hf hcon))
    · intro r t ht
      refine ⟨ht.catalog.ready, ht.held, fun u hu => ?_⟩
      have e := hu.sameFlash ht.catalog
      exact ⟨e.catalog ht.catalog, e.header.trans ht.header, ht.numbers.trans e.numbers.ge⟩
    · exact fun _ _ h => h
  · rw [closeHandle, if_neg hcon]
    exact CloseKeeps.refl hc

theorem Opened.shifted (ho : Opened s i (openedAt s i)) (hc : Catalog s) (hm : (openedAt s i).modified = true)
    (r : Relocated s (openedAt s i) t k) : Shifted s t := by
  have hf := ho.flushable hc
  obtain ⟨n, -, hn, hw, -⟩ := r.stores_regular hc ho.toHeld hf
  have hpage := ho.page_eq
  have hnum : t.maxInodeNumber = s.maxInodeNumber := by
    rcases r.number with ⟨he, -⟩ | ⟨-, -, -, -, -, he⟩
    · exact absurd he ho.numbered
    · exact he
  have hclaim : ¬ Valid s k.page := by
    rcases r.number with ⟨he, -⟩ | ⟨-, hcl, -⟩
    · exact absurd he ho.numbered
    · exact hcl.2.1
  have hreserved : k.page ∉ s.allocatedUnwrittenPages := by
    rcases r.number with ⟨he, -⟩ | ⟨-, hcl, -⟩
    · exact absurd he ho.numbered
    · exact hcl.2.2
  have hcor := hn.regular.corrected r.ready.layout (r.fresh_number hc hf).2.2.1
  obtain ⟨m, -, hom⟩ := hc.holds ho.own.1
  have hcor0 := hom.regular.corrected hc.ready.layout hc.numbers_lt
  have hsize : (openedAt t k.page).inode.fileLen = (openedAt s i).inode.fileLen := by
    have hlen := hcor.fileLen
    rw [hw.fileLen] at hlen
    rw [hn.openedAt_eq]
    dsimp only
    rw [hlen, hom.openedAt_eq]
    dsimp only
    rw [hcor0.fileLen, Nat.mod_mod]
  have hname : nameAt t k.page = nameAt s i := by rw [hn.name, hw.flashName, ho.flashName]
  constructor
  · exact r.header
  · exact hnum
  · intro j hj hres hnv
    have hjk : j ≠ k.page := fun e => hreserved (e ▸ hres)
    have hji : j ≠ (openedAt s i).page := by
      rw [hpage]
      rintro rfl
      exact hnv ho.own.1
    refine ⟨(r.reserved j hj hjk hji).mpr hres, fun hv => ?_⟩
    exact hnv (((r.valid_iff hc).mp hv).resolve_left hjk).1
  · intro j hv hclean
    have hji : j ≠ (openedAt s i).page := by
      rw [hpage]
      rintro rfl
      rw [hm] at hclean
      cases hclean
    exact ⟨(r.valid_iff hc).mpr (Or.inr ⟨hv, hji⟩), (r.other hv hji).2⟩
  · intro name size
    constructor
    · rintro ⟨j, hv, hnm, hsz⟩
      rcases (r.valid_iff hc).mp hv with rfl | ⟨hvs, hne⟩
      · exact ⟨i, ho.own.1, hname ▸ hnm, hsize ▸ hsz⟩
      · have hp := (r.other hvs hne).2
        rw [nameAt_congr r.header hp] at hnm
        rw [openedAt_congr r.header hp] at hsz
        exact ⟨j, hvs, hnm, hsz⟩
    · rintro ⟨j, hv, hnm, hsz⟩
      by_cases hji : j = i
      · rw [hji] at hnm hsz
        exact ⟨k.page, r.valid_self, hname.trans hnm, hsize.trans hsz⟩
      · have hne : j ≠ (openedAt s i).page := by rwa [hpage]
        have hp := (r.other hv hne).2
        refine ⟨j, (r.valid_iff hc).mpr (Or.inr ⟨hv, hne⟩), ?_, ?_⟩
        · rw [nameAt_congr r.header hp]
          exact hnm
        · rw [openedAt_congr r.header hp]
          exact hsz
  · exact r.spare hc hf.own ho.numbered

-- what closing a handle of page i that was only looked at changes
structure Looks (s t : Fs) (i : ℕ) : Prop where
  catalog : Catalog t
  shifted : Shifted s t
  ivStorage : t.ivStorage = s.ivStorage
  others : ∀ j, Valid s j → j ≠ i → Valid t j ∧ pageAt t j = pageAt s j

theorem Freed.looks (e : Freed s t) (hc : Catalog s) (hiv : t.ivStorage = s.ivStorage) : Looks s t i :=
  ⟨e.catalog hc, e.shifted, hiv, fun j hv _ => ⟨e.valid_iff.mpr hv, e.pageAt_eq j⟩⟩

theorem Looks.released {l : List ℕ} (e : Looks s t i) (hr : Released t u l)
    (hl : ∀ p ∈ l, p < t.header.maxInodes → Valid t p) : Looks s u i := by
  have f := hr.freed e.catalog hl
  refine ⟨f.catalog e.catalog, e.shifted.trans f.shifted, ?_, fun j hv hne => ?_⟩
  · rw [hr.rest]
    exact e.ivStorage
  · obtain ⟨hv', hp⟩ := e.others j hv hne
    exact ⟨f.valid_iff.mpr hv', (f.pageAt_eq j).trans hp⟩

theorem Held.released_valid (hh : Held s h) (hv : Valid s h.page) : ∀ p ∈ h.page :: h.ids, p < s.header.maxInodes → Valid s p := by
  intro p hp hlt
  rcases List.mem_cons.mp hp with rfl | hp
  · exact hv
  · have hge := (hh.region p hp).1
    omega

theorem Catalog.wp_closeOpened (hc : Catalog s) (hi : Valid s i) :
    wp (closeHandle (openedAt s i)) (fun _ t => Looks s t i) (fun _ _ => False) s := by
  have ho := hc.opened hi
  apply wp_closeHandle_after ho.connected
  have htotal : wp (flush (openedAt s i)) (fun _ _ => True) (fun _ _ => False) s := by
    rw [flush, if_neg (not_not.mpr ho.connected)]
    split
    · trivial
    · next hm =>
      rw [if_neg ho.numbered]
      apply wp_flushNextVersion_total hc.plan hc.ready hc.whole
      · intro m hm
        rw [ho.stored m hm]
        simp
      · exact ho.encodes (not_not.mp hm)
  have hflush : wp (flush (openedAt s i)) (fun r t => Rewritten s (openedAt s i) t r) (fun _ _ => False) s := by
    apply wp_mono (wp_and htotal (wp_flush_rewritten hc.ready hc.variant hc.whole ho.region ho.page ?_))
    · exact fun _ _ h => h.2
    · exact fun _ _ h => h.1
    · exact fun _ hn => (ho.flushable hc).own.valid_iff_number.mpr hn
  apply wp_mono hflush
  · intro r t hr
    have hkeep := hr.keeps hc ho.toHeld fun _ => ho.flushable hc
    refine ⟨hkeep.catalog.ready, hkeep.held, fun u hu => ?_⟩
    have hlook : Looks s t i ∧ Valid t r.2.page := by
      cases hr with
      | unmodified hm =>
        refine ⟨⟨hc, (hc.freed_ivStorage s.ivStorage).shifted, rfl, fun j hv _ => ⟨hv, rfl⟩⟩, ?_⟩
        rw [ho.page_eq]
        exact hi
      | full t ht =>
        have e := ht.freed hc.ready
        refine ⟨e.looks hc (by rw [ht.rest]), e.valid_iff.mpr ?_⟩
        rw [ho.page_eq]
        exact hi
      | relocated hm t k r =>
        refine ⟨⟨hkeep.catalog, ho.shifted hc hm r, r.ivStorage, fun j hv hne => ?_⟩, r.valid_self⟩
        have hne' : j ≠ (openedAt s i).page := by rwa [ho.page_eq]
        exact ⟨(r.valid_iff hc).mpr (Or.inr ⟨hv, hne'⟩), (r.other hv hne').2⟩
    exact hlook.1.released hu (hkeep.held.released_valid hlook.2)
  · exact fun _ _ h => h

theorem Catalog.wp_closeRaw (hc : Catalog s) (hi : Valid s i) :
    wp (closeHandle (rawAt s i)) (fun _ t => Freed s t ∧ t.ivStorage = s.ivStorage) (fun _ _ => False) s := by
  obtain ⟨n, -, ho⟩ := hc.holds hi
  have hids : ∀ p ∈ (rawAt s i).ids, DataRegion s p := by
    intro p hp
    rw [ho.rawAt_eq] at hp
    change p ∈ (n.decoded s.header false).ids at hp
    rw [decoded_raw_ids] at hp
    exact ho.regular.recordedIds_region hc.ready.layout p hp
  have hpage : (rawAt s i).page = i := rawAt_page s i
  have hlt : ∀ p ∈ (rawAt s i).page :: (rawAt s i).ids, p < noData := by
    intro p hp
    rcases List.mem_cons.mp hp with rfl | hp
    · rw [hpage]
      exact hc.ready.inode_lt_noData hi.1
    · exact hc.ready.layout.lt_noData (hids p hp).2
  apply wp_mono (wp_closeHandle_unmodified hc.ready.allocatedWF ?_ ?_ hlt)
  · intro _ t ht
    refine ⟨ht.freed hc fun p hp hplt => ?_, by rw [ht.rest]⟩
    rcases List.mem_cons.mp hp with rfl | hp
    · rw [hpage]
      exact hi
    · have hge := (hids p hp).1
      omega
  · exact fun _ _ h => h
  · rw [ho.rawAt_eq]
    exact ho.regular.decoded_raw
  · rw [ho.rawAt_eq]
    exact decoded_connected _ _ _

end Closing

end SimpleFlashFs
