import SimpleFlashFs.TornInodes
import SimpleFlashFs.NewestVersion
import SimpleFlashFs.BankCopy
import SimpleFlashFs.TwoFaceRecovery

namespace SimpleFlashFs.TwoFace

open Lib

section Images

variable [Config] {s t : Fs} {m : Memory} {b : Bank} {hd hd' : Header} {i : ℕ} {f : File} {name content : List UInt8}

-- component.fs.emplace( component.mem )
def emplace (m : Memory) : Fs := { variant := .noDel, mem := m }

-- the filesystem with the header of the image
def view (m : Memory) (hd : Header) : Fs := (emplace m).withHeader hd

-- the file of a record, with the bytes that read delivers
def fileAt (s : Fs) (i : ℕ) : File where
  name := (rawAt s i).inode.fileName
  content := (readableBytes s (rawAt s i)).take (rawAt s i).inode.fileLen
  special := (rawAt s i).inode.attributes &&& attributeSpecial ≠ 0
  number := numberAt s i

-- the newest records, without those of deleted files
def newestFiles (s : Fs) : List File :=
  ((validPages s).filter fun i => NewestAt s i ∧ (rawAt s i).inode.fileName ≠ []).map (fileAt s)

-- get_inode throws on a cut page; only on mapped flash it gets to see one
def Unreadable (s : Fs) : Prop := s.mem.canMapRead = true ∧ ∃ i < s.header.maxInodes, Fails s (decodeInode · · false) i

instance (s : Fs) (decode : Header → List UInt8 → Except Fault FileHandle) (i : ℕ) : Decidable (Fails s decode i) :=
  decidable_of_iff (HalfWritten s i ∧ (decode s.header (pageAt s i)).toOption = none) <| by
    rw [Fails]
    cases decode s.header (pageAt s i) with
    | ok h => simp [Except.toOption]
    | error e => simp [Except.toOption]

instance (s : Fs) : Decidable (Unreadable s) := inferInstanceAs (Decidable (_ ∧ ∃ i < _, _))

-- an image of the bank whose records need no correction; get_inode cannot read a cut page, or it is dropped unmodified
structure ShowsBank (s : Fs) (b : Bank) : Prop where
  countable : Countable s.header
  records : ∀ i ∈ validPages s, ∃ h, decodeInode s.header (pageAt s i) true = .ok h ∧ h.modified = false ∧
    ∀ q ∈ h.ids, q < noData
  distinct : ∀ i ∈ validPages s, ∀ j ∈ validPages s, numberAt s i = numberAt s j → versionAt s i = versionAt s j → i = j
  torn : ∀ i < s.header.maxInodes, Fails s (decodeInode · · false) i ∨ Discarded s (decodeInode · · false) i
  files : ∀ f, f ∈ b.files ↔ f ∈ newestFiles s
  unreadable : b.unreadable = true ↔ Unreadable s

abbrev Erased (m : Memory) : Prop := isEmptyPage m.bytes = true

-- an image with a header and nothing else
structure OnlyHeader (m : Memory) (hd : Header) : Prop where
  header : HeaderOn m hd
  countable : Countable hd
  empty : ∀ i < hd.maxInodes, isEmptyPage (pageAt (view m hd) i) = true
  checksum : checksumOk hd.endianness (List.replicate hd.pageSize 0xFF) = false

structure Depicts (m : Memory) (b : Bank) : Prop where
  mapped : b.mapped = m.canMapRead
  header : b.header = true ↔ ∃ hd, HeaderOn m hd
  shows : ∀ hd, HeaderOn m hd → ShowsBank (view m hd) b
  number : ∀ hd, HeaderOn m hd → b.maxInodeNumber = largestNumber (view m hd) (validPages (view m hd))
  erased : Erased m → b = { mapped := m.canMapRead, header := false, files := [] }

theorem mem_validPages : i ∈ validPages s ↔ i < s.header.maxInodes ∧ CrcValid s i := by
  rw [validPages, List.mem_filter, List.mem_range, decide_eq_true_eq]

theorem not_mem_validPages (hh : s.header = hd) : hd.maxInodes ∉ validPages s := by
  intro hmem
  have hlt := (mem_validPages.mp hmem).1
  rw [hh] at hlt
  exact absurd hlt (lt_irrefl _)

theorem mem_newestFiles : f ∈ newestFiles s ↔
    ∃ i ∈ validPages s, NewestAt s i ∧ (rawAt s i).inode.fileName ≠ [] ∧ fileAt s i = f := by
  rw [newestFiles, List.mem_map]
  constructor
  · rintro ⟨i, hi, he⟩
    obtain ⟨hi, htest⟩ := List.mem_filter.mp hi
    obtain ⟨hnew, hname⟩ := of_decide_eq_true htest
    exact ⟨i, hi, hnew, hname, he⟩
  · rintro ⟨i, hi, hnew, hname, he⟩
    exact ⟨i, List.mem_filter.mpr ⟨hi, decide_eq_true ⟨hnew, hname⟩⟩, he⟩

theorem lookupPage_error (s : Fs) (i : ℕ) : (lookupPage s i).error = (readPage s i true).error := by
  rw [lookupPage]
  split
  · exact readPageMapped_error s i
  · rfl

theorem readable_iff : Readable s i ↔ i ∈ validPages s := by
  rw [mem_validPages, Readable, lookupPage_error]
  rfl

theorem lookupPage_page (hi : i ∈ validPages s) : (lookupPage s i).page = pageAt s i := by
  have hok := (mem_validPages.mp hi).2
  rw [lookupPage]
  split
  · apply mapped_page
    rw [readPageMapped_error, show (readPage s i true).error = none from hok]
    simp
  · exact readPage_page s i

namespace ShowsBank

theorem uncorrected (hs : ShowsBank s b) : Uncorrected s := by
  intro i hi
  have hi := readable_iff.mp hi
  obtain ⟨h, hdec, hm, -⟩ := hs.records i hi
  rw [lookupPage_page hi]
  exact ⟨h, hdec, hm⟩

theorem recordAt_eq (hs : ShowsBank s b) (hi : i ∈ validPages s) : recordAt s i = rawAt s i := by
  obtain ⟨h, hdec, -, he⟩ := hs.uncorrected.decode (readable_iff.mpr hi) false
  rw [lookupPage_page hi] at hdec
  rw [← he]
  exact rawAt_of_decode hdec

theorem distinctVersions (hs : ShowsBank s b) : DistinctVersions s := by
  intro i j hi hj hnumber hversion
  have hi := readable_iff.mp hi
  have hj := readable_iff.mp hj
  rw [hs.recordAt_eq hi, hs.recordAt_eq hj] at hnumber hversion
  exact hs.distinct i hi j hj hnumber hversion

theorem highestVersion_iff (hs : ShowsBank s b) : HighestVersion s i ↔ i ∈ validPages s ∧ NewestAt s i := by
  unfold HighestVersion
  rw [readable_iff]
  refine and_congr_right fun hi => ?_
  constructor
  · intro hmax j hj hnumber
    have hle := hmax j (readable_iff.mpr hj) (by rw [hs.recordAt_eq hj, hs.recordAt_eq hi]; exact hnumber)
    rw [hs.recordAt_eq hj, hs.recordAt_eq hi] at hle
    rcases Nat.lt_or_eq_of_le hle with hlt | heq
    · exact Or.inl hlt
    · exact Or.inr ⟨heq, (hs.distinct j hj i hi hnumber heq).ge⟩
  · intro hnew j hj hnumber
    have hj := readable_iff.mp hj
    rw [hs.recordAt_eq hj, hs.recordAt_eq hi] at hnumber ⊢
    rcases hnew j hj hnumber with hlt | ⟨heq, -⟩
    · exact hlt.le
    · exact heq.le

theorem recordsReadable (hs : ShowsBank s b) : RecordsReadable s := by
  intro i hi hok
  obtain ⟨h, hdec, hm, hids⟩ := hs.records i (mem_validPages.mpr ⟨hi, hok⟩)
  exact ⟨h, decodeInode_uncorrected hdec hm, hm, hids⟩

theorem has_iff (hs : ShowsBank s b) (hname : name ≠ []) :
    b.has name = true ↔ ∃ i, HighestVersion s i ∧ (recordAt s i).inode.fileName = name := by
  rw [TwoFace.has_iff, List.mem_map]
  constructor
  · rintro ⟨f, hf, rfl⟩
    obtain ⟨i, hi, hnew, -, rfl⟩ := mem_newestFiles.mp ((hs.files f).mp hf)
    exact ⟨i, hs.highestVersion_iff.mpr ⟨hi, hnew⟩, by rw [hs.recordAt_eq hi]; rfl⟩
  · rintro ⟨i, hi, rfl⟩
    obtain ⟨hi, hnew⟩ := hs.highestVersion_iff.mp hi
    rw [hs.recordAt_eq hi] at hname ⊢
    exact ⟨fileAt s i, (hs.files _).mpr (mem_newestFiles.mpr ⟨i, hi, hnew, hname, rfl⟩), rfl⟩

end ShowsBank

-- the inode pages hold what they held, p aside, and so do the data pages of the newest records
structure SameBut (s t : Fs) (p : ℕ) : Prop where
  header : t.header = s.header
  mapped : t.mem.canMapRead = s.mem.canMapRead
  pages : ∀ i < s.header.maxInodes, i ≠ p → pageAt t i = pageAt s i
  data : ∀ i ∈ validPages s, NewestAt s i → ∀ q ∈ listed s i, pageAt t q = pageAt s q

variable {p q : ℕ}

theorem readPage_congr (hh : t.header = s.header) (hp : pageAt t q = pageAt s q) (check : Bool) :
    readPage t q check = readPage s q check := by
  unfold pageAt at hp
  rw [hh] at hp
  simp only [readPage, hh, hp]

theorem crcValid_congr (hh : t.header = s.header) (hp : pageAt t q = pageAt s q) : CrcValid t q ↔ CrcValid s q := by
  rw [CrcValid, CrcValid, readPage_congr hh hp]

theorem halfWritten_congr (hh : t.header = s.header) (hp : pageAt t q = pageAt s q) : HalfWritten t q ↔ HalfWritten s q := by
  rw [HalfWritten, HalfWritten, readPage_congr hh hp, hp]

theorem fails_congr (hh : t.header = s.header) (hp : pageAt t q = pageAt s q) :
    Fails t (decodeInode · · false) q ↔ Fails s (decodeInode · · false) q := by
  rw [Fails, Fails, halfWritten_congr hh hp, hp, hh]

theorem pagesBytes_congr (hh : t.header = s.header) {l : List DataPage}
    (hp : ∀ m ∈ l, pageAt t m.pageId = pageAt s m.pageId) : pagesBytes t l = pagesBytes s l := by
  induction l with
  | nil => rfl
  | cons m rest ih =>
    rw [pagesBytes, pagesBytes, readPage_congr hh (hp m List.mem_cons_self),
      ih fun k hk => hp k (List.mem_cons_of_mem m hk)]

namespace SameBut

theorem of_untouched (e : Untouched s t) (p : ℕ) : SameBut s t p :=
  ⟨e.header, congrArg _ e.mem, fun i _ _ => e.pageAt i, fun _ _ _ q _ => e.pageAt q⟩

variable (e : SameBut s t p)

include e

theorem mem_validPages (hip : i ≠ p) : i ∈ validPages t ↔ i ∈ validPages s := by
  rw [TwoFace.mem_validPages, TwoFace.mem_validPages, e.header]
  exact and_congr_right fun hi => crcValid_congr e.header (e.pages i hi hip)

theorem rawAt_eq (hi : i < s.header.maxInodes) (hip : i ≠ p) : rawAt t i = rawAt s i :=
  rawAt_congr e.header (e.pages i hi hip)

theorem fileAt_eq (hi : i ∈ validPages s) (hnew : NewestAt s i) (hip : i ≠ p) : fileAt t i = fileAt s i := by
  have hraw := e.rawAt_eq (TwoFace.mem_validPages.mp hi).1 hip
  have hbytes : readableBytes t (rawAt s i) = readableBytes s (rawAt s i) := by
    rw [readableBytes, readableBytes, e.header, pagesBytes_congr e.header]
    intro m hm
    apply e.data i hi hnew
    rw [← rawAt_ids]
    exact List.mem_map_of_mem hm
  rw [fileAt, fileAt, numberAt, numberAt, hraw, hbytes]

theorem fails_iff (hi : i < s.header.maxInodes) (hip : i ≠ p) :
    Fails t (decodeInode · · false) i ↔ Fails s (decodeInode · · false) i :=
  fails_congr e.header (e.pages i hi hip)

theorem torn (hs : ShowsBank s b) (hi : i < s.header.maxInodes) (hip : i ≠ p) :
    Fails t (decodeInode · · false) i ∨ Discarded t (decodeInode · · false) i := by
  have hpage := e.pages i hi hip
  refine (hs.torn i hi).imp (e.fails_iff hi hip).mpr fun hd hcan hhalf => ?_
  rw [e.header, hpage]
  exact hd (e.mapped.symm.trans hcan) ((halfWritten_congr e.header hpage).mp hhalf)

theorem records (hs : ShowsBank s b) (hi : i ∈ validPages t) (hip : i ≠ p) :
    ∃ h, decodeInode t.header (pageAt t i) true = .ok h ∧ h.modified = false ∧ ∀ q ∈ h.ids, q < noData := by
  have hi := (e.mem_validPages hip).mp hi
  rw [e.header, e.pages i (TwoFace.mem_validPages.mp hi).1 hip]
  exact hs.records i hi

theorem validPages_eq (hp : p ∉ validPages s) (hp' : p ∉ validPages t) : validPages t = validPages s := by
  have hmem : ∀ i, i ∈ validPages t ↔ i ∈ validPages s := by
    intro i
    by_cases hip : i = p
    · rw [hip]
      exact iff_of_false hp' hp
    · exact e.mem_validPages hip
  unfold validPages at hmem ⊢
  rw [e.header] at hmem ⊢
  apply List.filter_congr
  intro i hi
  have hboth := hmem i
  simp only [List.mem_filter, hi, true_and, decide_eq_true_eq] at hboth
  exact decide_eq_decide.mpr hboth

theorem newestFiles_eq (hp : p ∉ validPages s) (hp' : p ∉ validPages t) : newestFiles t = newestFiles s := by
  have hvalid := e.validPages_eq hp hp'
  have hraw : ∀ i ∈ validPages s, rawAt t i = rawAt s i := by
    intro i hi
    exact e.rawAt_eq (TwoFace.mem_validPages.mp hi).1 fun h => hp (h ▸ hi)
  have hnew : ∀ i ∈ validPages s, (NewestAt t i ↔ NewestAt s i) := by
    intro i hi
    rw [NewestAt, NewestAt, hvalid]
    refine forall₂_congr fun j hj => ?_
    rw [numberAt, numberAt, numberAt, numberAt, versionAt, versionAt, versionAt, versionAt, hraw i hi, hraw j hj]
  rw [newestFiles, newestFiles, hvalid]
  have hfilter : ((validPages s).filter fun i => NewestAt t i ∧ (rawAt t i).inode.fileName ≠ []) =
      (validPages s).filter fun i => NewestAt s i ∧ (rawAt s i).inode.fileName ≠ [] := by
    apply List.filter_congr
    intro i hi
    rw [hraw i hi]
    exact decide_eq_decide.mpr (and_congr_left fun _ => hnew i hi)
  rw [hfilter]
  apply List.map_congr_left
  intro i hi
  obtain ⟨hi, htest⟩ := List.mem_filter.mp hi
  exact e.fileAt_eq hi (of_decide_eq_true htest).1 fun h => hp (h ▸ hi)

theorem largestNumber_eq (hn : t.maxInodeNumber = s.maxInodeNumber) (hp : p ∉ validPages s) (hp' : p ∉ validPages t) :
    largestNumber t (validPages t) = largestNumber s (validPages s) := by
  rw [largestNumber, largestNumber, e.validPages_eq hp hp', hn]
  apply List.foldl_ext
  intro n i hi
  rw [numberAt, numberAt, e.rawAt_eq (TwoFace.mem_validPages.mp hi).1 fun h => hp (h ▸ hi)]

end SameBut

-- what the cut write of the inode page p leaves
structure TornPage (s t : Fs) (p : ℕ) : Prop extends SameBut s t p where
  invalid : p ∉ validPages s ∧ p ∉ validPages t
  intact : s.mem.canMapRead = true → p < s.header.maxInodes → ¬ Fails s (decodeInode · · false) p
  torn : p < s.header.maxInodes → Fails t (decodeInode · · false) p ∨ Discarded t (decodeInode · · false) p

theorem TornPage.showsBank (e : TornPage s t p) (hs : ShowsBank s b) {u : Bool}
    (hu : u = true ↔ t.mem.canMapRead = true ∧ p < s.header.maxInodes ∧ Fails t (decodeInode · · false) p) :
    ShowsBank t (b.tear u) := by
  have hsame := e.toSameBut
  have hvalid := hsame.validPages_eq e.invalid.1 e.invalid.2
  have hraw : ∀ i ∈ validPages s, rawAt t i = rawAt s i := by
    intro i hi
    exact hsame.rawAt_eq (mem_validPages.mp hi).1 fun h => e.invalid.1 (h ▸ hi)
  refine ⟨by rw [e.header]; exact hs.countable, fun i hi => ?_, fun i hi j hj => ?_, fun i hi => ?_, fun f => ?_, ?_⟩
  · exact hsame.records hs hi fun h => e.invalid.2 (h ▸ hi)
  · rw [hvalid] at hi hj
    rw [numberAt, numberAt, versionAt, versionAt, hraw i hi, hraw j hj]
    exact hs.distinct i hi j hj
  · rw [e.header] at hi
    by_cases hip : i = p
    · rw [hip]
      exact e.torn (hip ▸ hi)
    · exact hsame.torn hs hi hip
  · rw [hsame.newestFiles_eq e.invalid.1 e.invalid.2]
    exact hs.files f
  · have hor : (b.tear u).unreadable = true ↔ Unreadable s ∨ u = true := by
      rw [← hs.unreadable]
      exact Iff.of_eq (Bool.or_eq_true _ _)
    rw [hor, hu, Unreadable, Unreadable, e.header, e.mapped]
    constructor
    · rintro (⟨hcan, i, hi, hfails⟩ | ⟨hcan, hi, hfails⟩)
      · by_cases hip : i = p
        · exact absurd (hip ▸ hfails) (e.intact hcan (hip ▸ hi))
        · exact ⟨hcan, i, hi, (hsame.fails_iff hi hip).mpr hfails⟩
      · exact ⟨hcan, p, hi, hfails⟩
    · rintro ⟨hcan, i, hi, hfails⟩
      by_cases hip : i = p
      · exact Or.inr ⟨hcan, hip ▸ ⟨hi, hfails⟩⟩
      · exact Or.inl ⟨hcan, i, hi, (hsame.fails_iff hi hip).mp hfails⟩

-- a data page that no newest record lists
theorem SameBut.showsBank (e : SameBut s t s.header.maxInodes) (hs : ShowsBank s b) : ShowsBank t b := by
  have hpage : TornPage s t s.header.maxInodes :=
    ⟨e, ⟨not_mem_validPages rfl, not_mem_validPages e.header⟩, fun _ h => absurd h (lt_irrefl _), fun h => absurd h (lt_irrefl _)⟩
  have hshows := hpage.showsBank hs (u := false) (by simp)
  rwa [tear_false] at hshows

theorem ShowsBank.of_untouched (e : Untouched s t) (hs : ShowsBank s b) : ShowsBank t b :=
  (SameBut.of_untouched e s.header.maxInodes).showsBank hs

-- the record of f on the inode page p: a new version of the file with its name, or a file with a new number
structure Recorded (s t : Fs) (b : Bank) (p : ℕ) (f : File) : Prop extends SameBut s t p where
  free : p ∉ validPages s
  intact : s.mem.canMapRead = true → ¬ Fails s (decodeInode · · false) p
  valid : p ∈ validPages t
  record : ∃ h, decodeInode t.header (pageAt t p) true = .ok h ∧ h.modified = false ∧ ∀ q ∈ h.ids, q < noData
  file : fileAt t p = f
  named : f.name ≠ []
  newer : ∀ i ∈ validPages s, numberAt s i = f.number → versionAt s i < versionAt t p
  succeeds : if b.has f.name then ∃ g ∈ b.files, g.name = f.name ∧ g.number = f.number
    else ∀ i ∈ validPages s, numberAt s i ≠ f.number

omit [Config] in
theorem mem_commit {g : File} : g ∈ (b.commit f).files ↔ g = f ∨ g ∈ b.files ∧ g.name ≠ f.name := by
  unfold Bank.commit
  dsimp only
  split
  · next hhas =>
    rw [List.mem_map]
    constructor
    · rintro ⟨x, hx, rfl⟩
      split
      · exact Or.inl rfl
      · next hne => exact Or.inr ⟨hx, hne⟩
    · rintro (rfl | ⟨hg, hne⟩)
      · obtain ⟨x, hx, he⟩ := List.mem_map.mp (has_iff.mp hhas)
        exact ⟨x, hx, if_pos he⟩
      · exact ⟨g, hg, if_neg hne⟩
  · next hno =>
    have hnew : ∀ x ∈ b.files, x.name ≠ f.name := fun x hx he => hno (has_iff.mpr (he ▸ List.mem_map_of_mem hx))
    rw [List.mem_append, List.mem_singleton, or_comm]
    exact or_congr_right (iff_self_and.mpr (hnew g))

omit [Config] in
theorem largestNumber_le_iff {l : List ℕ} {n : ℕ} :
    largestNumber s l ≤ n ↔ s.maxInodeNumber ≤ n ∧ ∀ i ∈ l, numberAt s i ≤ n := by
  have hfold : ∀ m, l.foldl (fun n i => max n (numberAt s i)) m ≤ n ↔ m ≤ n ∧ ∀ i ∈ l, numberAt s i ≤ n := by
    induction l with
    | nil => simp
    | cons i l ih =>
      intro m
      rw [List.foldl_cons, ih, max_le_iff, List.forall_mem_cons, and_assoc]
  exact hfold s.maxInodeNumber

namespace Recorded

variable (e : Recorded s t b p f)

include e

theorem mem_validPages_iff : i ∈ validPages t ↔ i = p ∨ i ∈ validPages s := by
  by_cases hip : i = p
  · rw [hip]
    exact iff_of_true e.valid (Or.inl rfl)
  · rw [e.toSameBut.mem_validPages hip, or_iff_right hip]

theorem ne_page (hi : i ∈ validPages s) : i ≠ p := fun h => e.free (h ▸ hi)

theorem rawAt_eq (hi : i ∈ validPages s) : rawAt t i = rawAt s i :=
  e.toSameBut.rawAt_eq (mem_validPages.mp hi).1 (e.ne_page hi)

theorem numberAt_eq (hi : i ∈ validPages s) : numberAt t i = numberAt s i := congrArg (·.inode.inodeNumber) (e.rawAt_eq hi)

theorem versionAt_eq (hi : i ∈ validPages s) : versionAt t i = versionAt s i :=
  congrArg (·.inode.inodeVersionNumber) (e.rawAt_eq hi)

theorem number : numberAt t p = f.number := congrArg File.number e.file

theorem newer_page (hi : i ∈ validPages s) (hnumber : numberAt t i = numberAt t p) : versionAt t i < versionAt t p := by
  rw [e.number, e.numberAt_eq hi] at hnumber
  rw [e.versionAt_eq hi]
  exact e.newer i hi hnumber

theorem newestAt_page : NewestAt t p := by
  intro j hj hnumber
  rcases e.mem_validPages_iff.mp hj with rfl | hj
  · exact Or.inr ⟨rfl, le_rfl⟩
  · exact Or.inl (e.newer_page hj hnumber)

theorem newestAt_iff (hi : i ∈ validPages s) : NewestAt t i ↔ NewestAt s i ∧ numberAt s i ≠ f.number := by
  have hnumi := e.numberAt_eq hi
  have hveri := e.versionAt_eq hi
  constructor
  · intro hnew
    refine ⟨fun j hj hnumber => ?_, fun hnumber => ?_⟩
    · have hless := hnew j (e.mem_validPages_iff.mpr (Or.inr hj))
      rw [hnumi, hveri, e.numberAt_eq hj, e.versionAt_eq hj] at hless
      exact hless hnumber
    · have hsame : numberAt t i = numberAt t p := by rw [hnumi, hnumber, e.number]
      have hless := hnew p e.valid hsame.symm
      have hnewer := e.newer_page hi hsame
      omega
  · rintro ⟨hnew, hnumber⟩ j hj hj'
    rw [hnumi] at hj'
    rcases e.mem_validPages_iff.mp hj with rfl | hj
    · rw [e.number] at hj'
      exact absurd hj'.symm hnumber
    · rw [e.numberAt_eq hj] at hj'
      rw [hveri, e.versionAt_eq hj]
      exact hnew j hj hj'

theorem mem_newestFiles_iff {g : File} : g ∈ newestFiles t ↔ g = f ∨ g ∈ newestFiles s ∧ g.number ≠ f.number := by
  rw [mem_newestFiles, mem_newestFiles]
  constructor
  · rintro ⟨i, hi, hnew, hname, rfl⟩
    rcases e.mem_validPages_iff.mp hi with rfl | hi
    · exact Or.inl e.file
    · obtain ⟨hnew, hnumber⟩ := (e.newestAt_iff hi).mp hnew
      rw [e.toSameBut.fileAt_eq hi hnew (e.ne_page hi)]
      rw [e.rawAt_eq hi] at hname
      exact Or.inr ⟨⟨i, hi, hnew, hname, rfl⟩, hnumber⟩
  · rintro (rfl | ⟨⟨i, hi, hnew, hname, rfl⟩, hnumber⟩)
    · refine ⟨p, e.valid, e.newestAt_page, ?_, e.file⟩
      have hnamed := e.named
      rw [← e.file] at hnamed
      exact hnamed
    · refine ⟨i, e.mem_validPages_iff.mpr (Or.inr hi), (e.newestAt_iff hi).mpr ⟨hnew, hnumber⟩, ?_,
        e.toSameBut.fileAt_eq hi hnew (e.ne_page hi)⟩
      rw [e.rawAt_eq hi]
      exact hname

-- of the files of the bank the one with that name has that number
theorem name_iff (hs : ShowsBank s b) (hn : b.Named) {g : File} (hg : g ∈ b.files) :
    g.name = f.name ↔ g.number = f.number := by
  have hsucceeds := e.succeeds
  split at hsucceeds
  · obtain ⟨x, hx, hname, hnumber⟩ := hsucceeds
    constructor
    · intro h
      rw [List.inj_on_of_nodup_map hn hg hx (h.trans hname.symm)]
      exact hnumber
    · intro h
      obtain ⟨i, hi, hnewi, -, rfl⟩ := mem_newestFiles.mp ((hs.files g).mp hg)
      obtain ⟨j, hj, hnewj, -, rfl⟩ := mem_newestFiles.mp ((hs.files x).mp hx)
      rw [newestAt_unique hi hj hnewi hnewj (h.trans hnumber.symm)]
      exact hname
  · next hno =>
    refine iff_of_false (fun h => hno (has_iff.mpr (h ▸ List.mem_map_of_mem hg))) fun h => ?_
    obtain ⟨i, hi, -, -, rfl⟩ := mem_newestFiles.mp ((hs.files g).mp hg)
    exact hsucceeds i hi h

theorem showsBank (hs : ShowsBank s b) (hn : b.Named) : ShowsBank t (b.commit f) := by
  have hsame := e.toSameBut
  have hwritten : ¬ HalfWritten t p := by
    rintro ⟨herror, -⟩
    rw [show (readPage t p true).error = none from (mem_validPages.mp e.valid).2] at herror
    cases herror
  refine ⟨by rw [hsame.header]; exact hs.countable, fun i hi => ?_, fun i hi j hj hnumber hversion => ?_, fun i hi => ?_,
    fun g => ?_, ?_⟩
  · by_cases hip : i = p
    · rw [hip]
      exact e.record
    · exact hsame.records hs hi hip
  · rcases e.mem_validPages_iff.mp hi with rfl | hi
    · rcases e.mem_validPages_iff.mp hj with rfl | hj
      · rfl
      · exact absurd hversion (e.newer_page hj hnumber.symm).ne'
    · rcases e.mem_validPages_iff.mp hj with rfl | hj
      · exact absurd hversion (e.newer_page hi hnumber).ne
      · rw [e.numberAt_eq hi, e.numberAt_eq hj] at hnumber
        rw [e.versionAt_eq hi, e.versionAt_eq hj] at hversion
        exact hs.distinct i hi j hj hnumber hversion
  · rw [hsame.header] at hi
    by_cases hip : i = p
    · rw [hip]
      exact Or.inr fun _ hhalf => absurd hhalf hwritten
    · exact hsame.torn hs hi hip
  · rw [mem_commit, e.mem_newestFiles_iff, ← hs.files]
    refine or_congr_right (and_congr_right fun hg => not_congr (e.name_iff hs hn hg))
  · have hkeep : (b.commit f).unreadable = b.unreadable := rfl
    rw [hkeep, hs.unreadable, Unreadable, Unreadable, hsame.header, hsame.mapped]
    refine and_congr_right fun hcan => exists_congr fun i => and_congr_right fun hi => ?_
    by_cases hip : i = p
    · rw [hip]
      exact iff_of_false (e.intact hcan) fun h => hwritten h.1
    · exact (hsame.fails_iff hi hip).symm

theorem largestNumber_eq (hn : t.maxInodeNumber = s.maxInodeNumber) :
    largestNumber t (validPages t) = max (largestNumber s (validPages s)) f.number := by
  apply eq_of_forall_ge_iff
  intro n
  rw [max_le_iff, largestNumber_le_iff, largestNumber_le_iff, hn, and_assoc]
  refine and_congr_right fun _ => ?_
  constructor
  · intro hle
    refine ⟨fun i hi => ?_, ?_⟩
    · rw [← e.numberAt_eq hi]
      exact hle i (e.mem_validPages_iff.mpr (Or.inr hi))
    · rw [← e.number]
      exact hle p e.valid
  · rintro ⟨hle, hp⟩ i hi
    rcases e.mem_validPages_iff.mp hi with rfl | hi
    · rwa [e.number]
    · rw [e.numberAt_eq hi]
      exact hle i hi

end Recorded

theorem headerOn_unique (h : HeaderOn m hd) (h' : HeaderOn m hd') : hd' = hd := by
  have he := h'.endianness
  rw [h.endianness] at he
  rw [← h.parsed, ← h'.parsed, Option.some_inj.mp he]

-- the magic string is not of erased bytes
theorem not_headerOn_of_erased (hm : Erased m) : ¬ HeaderOn m hd := by
  intro hon
  have hbytes : ∀ b ∈ m.bytes, b = 0xFF := by
    intro b hb
    simpa using List.all_eq_true.mp hm b hb
  have hfirst : (83 : UInt8) ∈ slice (readHeaderPage m minPageSize) 0 13 := by
    rw [hon.magic]
    decide
  have hmem := List.mem_of_mem_drop (List.mem_of_mem_take hfirst)
  rw [readHeaderPage] at hmem
  rcases List.mem_append.mp hmem with hmem | hmem
  · have h := hbytes _ (List.mem_of_mem_drop (List.mem_of_mem_take hmem))
    revert h
    decide
  · have h := List.eq_of_mem_replicate hmem
    revert h
    decide

-- no page with a record, and none that is half written
theorem showsBank_blank (mapped : Bool) (hf : Countable s.header) (hempty : ∀ i < s.header.maxInodes, isEmptyPage (pageAt s i) = true)
    (hcrc : checksumOk s.header.endianness (List.replicate s.header.pageSize 0xFF) = false) :
    validPages s = [] ∧ ShowsBank s { mapped := mapped, header := true, files := [] } := by
  have hvalid : validPages s = [] := by
    apply List.eq_nil_iff_forall_not_mem.mpr
    intro i hi
    obtain ⟨hi, hok⟩ := mem_validPages.mp hi
    obtain ⟨hlen, hsum⟩ := (crcValid_iff s i).mp hok
    have hpage : pageAt s i = List.replicate s.header.pageSize 0xFF := by
      rw [← hlen]
      apply List.eq_replicate_of_mem
      intro b hb
      simpa using List.all_eq_true.mp (hempty i hi) b hb
    rw [hpage, hcrc] at hsum
    cases hsum
  have hwhole : ∀ i < s.header.maxInodes, ¬ HalfWritten s i := by
    rintro i hi ⟨-, hne⟩
    rw [hempty i hi] at hne
    cases hne
  refine ⟨hvalid, hf, ?_, ?_, fun i hi => Or.inr fun _ hhalf => absurd hhalf (hwhole i hi), fun f => ?_, ?_⟩
  · rw [hvalid]
    exact List.forall_mem_nil _
  · rw [hvalid]
    exact List.forall_mem_nil _
  · rw [newestFiles, hvalid]
    exact Iff.rfl
  · refine iff_of_false Bool.false_ne_true ?_
    rintro ⟨-, i, hi, hfails⟩
    exact hwhole i hi hfails.1

namespace Depicts

theorem of_view (hon : HeaderOn m hd) (hm : b.mapped = m.canMapRead) (hh : b.header = true) (hshows : ShowsBank (view m hd) b)
    (hnumber : b.maxInodeNumber = largestNumber (view m hd) (validPages (view m hd))) : Depicts m b where
  mapped := hm
  header := iff_of_true hh ⟨hd, hon⟩
  shows := by
    intro hd' hon'
    rw [headerOn_unique hon hon']
    exact hshows
  number := by
    intro hd' hon'
    rw [headerOn_unique hon hon']
    exact hnumber
  erased he := absurd hon (not_headerOn_of_erased he)

theorem of_noHeader (hno : ∀ hd, ¬ HeaderOn m hd) : Depicts m { mapped := m.canMapRead, header := false, files := [] } where
  mapped := rfl
  header := iff_of_false Bool.false_ne_true fun ⟨hd, hon⟩ => hno hd hon
  shows hd hon := absurd hon (hno hd)
  number hd hon := absurd hon (hno hd)
  erased _ := rfl

theorem of_onlyHeader (e : OnlyHeader m hd) : Depicts m { mapped := m.canMapRead, header := true, files := [] } := by
  obtain ⟨hvalid, hshows⟩ := showsBank_blank (s := view m hd) m.canMapRead e.countable e.empty e.checksum
  apply of_view e.header rfl rfl hshows
  rw [hvalid]
  rfl

variable {m' : Memory} (h : Depicts m b)

include h

theorem data (hon : HeaderOn m hd) (hon' : HeaderOn m' hd) (e : SameBut (view m hd) (view m' hd) hd.maxInodes) :
    Depicts m' b := by
  apply of_view hon' (h.mapped.trans e.mapped.symm) (h.header.mpr ⟨hd, hon⟩) (e.showsBank (h.shows hd hon))
  rw [h.number hd hon]
  exact (e.largestNumber_eq rfl (not_mem_validPages rfl) (not_mem_validPages rfl)).symm

theorem commit (hon : HeaderOn m hd) (hon' : HeaderOn m' hd) (hn : b.Named)
    (e : Recorded (view m hd) (view m' hd) b p f) : Depicts m' (b.commit f) := by
  have hmapped : (b.commit f).mapped = m'.canMapRead := h.mapped.trans e.mapped.symm
  apply of_view hon' hmapped (h.header.mpr ⟨hd, hon⟩) (e.showsBank (h.shows hd hon) hn)
  rw [e.largestNumber_eq rfl, ← h.number hd hon]
  rfl

theorem tear (hon : HeaderOn m hd) (hon' : HeaderOn m' hd) (e : TornPage (view m hd) (view m' hd) p) {u : Bool}
    (hu : u = true ↔ m'.canMapRead = true ∧ p < hd.maxInodes ∧ Fails (view m' hd) (decodeInode · · false) p) :
    Depicts m' (b.tear u) := by
  have hmapped : (b.tear u).mapped = m'.canMapRead := h.mapped.trans e.mapped.symm
  apply of_view hon' hmapped (h.header.mpr ⟨hd, hon⟩) (e.showsBank (h.shows hd hon) hu)
  have hnumber : (b.tear u).maxInodeNumber = b.maxInodeNumber := rfl
  rw [hnumber, h.number hd hon]
  exact (e.toSameBut.largestNumber_eq rfl e.invalid.1 e.invalid.2).symm

theorem erase (he : Erased m') (hc : m'.canMapRead = m.canMapRead) : Depicts m' b.erase := by
  have hnone := of_noHeader (m := m') fun _ => not_headerOn_of_erased he
  rwa [hc, ← h.mapped] at hnone

theorem newHeader (he : Erased m) (e : OnlyHeader m' hd) (hc : m'.canMapRead = m.canMapRead) :
    Depicts m' { b with header := true } := by
  rw [h.erased he, ← hc]
  exact of_onlyHeader e

end Depicts

-- an erase that was cut: a page is as it was, erased or fails its CRC, and no header comes into being
structure PartErased (m m' : Memory) : Prop where
  mapped : m'.canMapRead = m.canMapRead
  header : ∀ hd, HeaderOn m' hd → HeaderOn m hd
  pages : ∀ hd, HeaderOn m' hd → ∀ i < hd.maxInodes, pageAt (view m' hd) i = pageAt (view m hd) i ∨
    ¬ CrcValid (view m' hd) i ∧ (Fails (view m' hd) (decodeInode · · false) i ∨ Discarded (view m' hd) (decodeInode · · false) i)

theorem PartErased.showsBank {m' : Memory} (e : PartErased m m') (h : Depicts m b) (hon : HeaderOn m' hd) {b' : Bank}
    (hfiles : b'.files = newestFiles (view m' hd)) (hun : b'.unreadable = true ↔ Unreadable (view m' hd)) :
    ShowsBank (view m' hd) b' := by
  have hs := h.shows hd (e.header hd hon)
  have hh : (view m' hd).header = (view m hd).header := rfl
  -- the records that are left are records of the image before
  have hkept : ∀ i ∈ validPages (view m' hd), i ∈ validPages (view m hd) ∧ pageAt (view m' hd) i = pageAt (view m hd) i := by
    intro i hi
    obtain ⟨hlt, hok⟩ := mem_validPages.mp hi
    rcases e.pages hd hon i hlt with hpage | ⟨hno, -⟩
    · exact ⟨mem_validPages.mpr ⟨hlt, (crcValid_congr hh hpage).mp hok⟩, hpage⟩
    · exact absurd hok hno
  have hraw : ∀ i ∈ validPages (view m' hd), rawAt (view m' hd) i = rawAt (view m hd) i :=
    fun i hi => rawAt_congr rfl (hkept i hi).2
  refine ⟨hs.countable, fun i hi => ?_, fun i hi j hj => ?_, fun i hi => ?_, fun f => by rw [hfiles], hun⟩
  · rw [(hkept i hi).2]
    exact hs.records i (hkept i hi).1
  · rw [numberAt, numberAt, versionAt, versionAt, hraw i hi, hraw j hj]
    exact hs.distinct i (hkept i hi).1 j (hkept j hj).1
  · rcases e.pages hd hon i hi with hpage | ⟨-, htorn⟩
    · refine (hs.torn i hi).imp (fails_congr hh hpage).mpr fun hd' hcan hhalf => ?_
      rw [hpage]
      exact hd' (e.mapped.symm.trans hcan) ((halfWritten_congr hh hpage).mp hhalf)
    · exact htorn

theorem PartErased.depicts {m' : Memory} (e : PartErased m m') (h : Depicts m b) : ∃ b', PartlyErased b b' ∧ Depicts m' b' := by
  by_cases hh : ∃ hd, HeaderOn m' hd
  · obtain ⟨hd, hon⟩ := hh
    refine ⟨{ mapped := m'.canMapRead, header := true, files := newestFiles (view m' hd)
              maxInodeNumber := largestNumber (view m' hd) (validPages (view m' hd))
              unreadable := decide (Unreadable (view m' hd)) }, ⟨?_, fun _ => h.header.mpr ⟨hd, e.header hd hon⟩⟩, ?_⟩
    · exact e.mapped.trans h.mapped.symm
    · exact Depicts.of_view hon rfl rfl (e.showsBank h hon rfl decide_eq_true_iff) rfl
  · have hno : ∀ hd, ¬ HeaderOn m' hd := fun hd hon => hh ⟨hd, hon⟩
    exact ⟨_, ⟨e.mapped.trans h.mapped.symm, fun hf => by cases hf⟩, .of_noHeader hno⟩

-- a write or an erase of the bank b reaches its memory
inductive Performs (m : Memory) (b : Bank) : FlashStep → Memory → Prop
  | data (side : Side) {hd : Header} {m' : Memory} (hon : HeaderOn m hd) (hon' : HeaderOn m' hd)
    (e : SameBut (view m hd) (view m' hd) hd.maxInodes) : Performs m b (.data side) m'
  | commit (side : Side) (f : File) {hd : Header} {p : ℕ} {m' : Memory} (hon : HeaderOn m hd) (hon' : HeaderOn m' hd)
    (e : Recorded (view m hd) (view m' hd) b p f) : Performs m b (.commit side f) m'
  | erase (side : Side) {m' : Memory} (he : Erased m') (hc : m'.canMapRead = m.canMapRead) : Performs m b (.erase side) m'
  | header (side : Side) {hd : Header} {m' : Memory} (he : Erased m) (e : OnlyHeader m' hd)
    (hc : m'.canMapRead = m.canMapRead) : Performs m b (.header side) m'

-- the power is lost within it
inductive CutShort (m : Memory) : FlashStep → Memory → Prop
  | data (side : Side) {hd : Header} {m' : Memory} (hon : HeaderOn m hd) (hon' : HeaderOn m' hd)
    (e : SameBut (view m hd) (view m' hd) hd.maxInodes) : CutShort m (.data side) m'
  | commit (side : Side) (f : File) {hd : Header} {p : ℕ} {m' : Memory} (hon : HeaderOn m hd) (hon' : HeaderOn m' hd)
    (e : TornPage (view m hd) (view m' hd) p) : CutShort m (.commit side f) m'
  | erase (side : Side) {m' : Memory} (e : PartErased m m') : CutShort m (.erase side) m'
  | header (side : Side) {m' : Memory} (he : Erased m) (hno : ∀ hd, ¬ HeaderOn m' hd) (hc : m'.canMapRead = m.canMapRead) :
    CutShort m (.header side) m'

inductive PerformsAll : Flash → (Side → Memory) → List FlashStep → (Side → Memory) → Prop
  | nil {flash : Flash} {mem : Side → Memory} : PerformsAll flash mem [] mem
  | cons {flash : Flash} {mem mem' : Side → Memory} {step : FlashStep} {rest : List FlashStep} {m' : Memory}
    (hp : Performs (mem step.side) (flash step.side) step m')
    (hrest : PerformsAll (flash.step step) (Function.update mem step.side m') rest mem') : PerformsAll flash mem (step :: rest) mem'

-- the memories after n of the steps, or within the next one
inductive MemoryLoss (flash : Flash) (mem : Side → Memory) (steps : List FlashStep) (n : ℕ) : (Side → Memory) → Prop
  | between {mem' : Side → Memory} (hall : PerformsAll flash mem (steps.take n) mem') : MemoryLoss flash mem steps n mem'
  | within {mem' : Side → Memory} {step : FlashStep} {m' : Memory} (hall : PerformsAll flash mem (steps.take n) mem')
    (hs : steps[n]? = some step) (hc : CutShort (mem' step.side) step m') :
    MemoryLoss flash mem steps n (Function.update mem' step.side m')

variable {flash : Flash} {mem mem' : Side → Memory} {steps : List FlashStep} {step : FlashStep} {m' : Memory} {n : ℕ}

omit [Config] in
theorem named_step (hn : ∀ side, (flash side).Named) (step : FlashStep) (side : Side) : (flash.step step side).Named := by
  by_cases hs : step.side = side
  · cases step with
    | data x => exact hn side
    | commit x f =>
      obtain rfl : x = side := hs
      rw [Flash.step, Function.update_self]
      exact (hn x).commit f
    | erase x =>
      obtain rfl : x = side := hs
      rw [Flash.step, Function.update_self]
      exact List.nodup_nil
    | header x =>
      obtain rfl : x = side := hs
      rw [step_header]
      exact hn x
  · rw [step_of_side hs]
    exact hn side

theorem Performs.depicts (hp : Performs (mem step.side) (flash step.side) step m') (h : ∀ side, Depicts (mem side) (flash side))
    (hn : (flash step.side).Named) (side : Side) : Depicts (Function.update mem step.side m' side) (flash.step step side) := by
  by_cases hs : side = step.side
  · rw [hs, Function.update_self]
    have hb := h step.side
    cases hp with
    | data x hon hon' e => exact hb.data hon hon' e
    | commit x f hon hon' e =>
      change Depicts m' (flash.step (.commit x f) x)
      rw [Flash.step, Function.update_self]
      exact hb.commit hon hon' hn e
    | erase x he hc =>
      change Depicts m' (flash.step (.erase x) x)
      rw [Flash.step, Function.update_self]
      exact hb.erase he hc
    | header x he e hc =>
      change Depicts m' (flash.step (.header x) x)
      rw [step_header]
      exact hb.newHeader he e hc
  · rw [Function.update_of_ne hs, step_of_side (Ne.symm hs)]
    exact h side

theorem PerformsAll.depicts (hp : PerformsAll flash mem steps mem') (h : ∀ side, Depicts (mem side) (flash side))
    (hn : ∀ side, (flash side).Named) (side : Side) : Depicts (mem' side) (flash.run steps side) := by
  induction hp with
  | nil => exact h side
  | cons hp hrest ih => exact ih (hp.depicts h (hn _)) (named_step hn _)

theorem CutShort.depicts (hc : CutShort (mem step.side) step m') (h : ∀ side, Depicts (mem side) (flash side)) :
    ∃ f', Cut flash step f' ∧ ∀ side, Depicts (Function.update mem step.side m' side) (f' side) := by
  have hput : ∀ b', Depicts m' b' → ∀ side, Depicts (Function.update mem step.side m' side)
      (Function.update flash step.side b' side) := by
    intro b' hb side
    by_cases hs : side = step.side
    · rw [hs, Function.update_self, Function.update_self]
      exact hb
    · rw [Function.update_of_ne hs, Function.update_of_ne hs]
      exact h side
  have hsame : Depicts m' (flash step.side) → ∀ side, Depicts (Function.update mem step.side m' side) (flash side) := by
    intro hb side
    have hall := hput _ hb side
    rwa [Function.update_eq_self] at hall
  have hb := h step.side
  cases hc with
  | data x hon hon' e => exact ⟨flash, .data x, hsame (hb.data hon hon' e)⟩
  | @commit x f hd p _ hon hon' e =>
    exact ⟨_, .commit x f (decide (m'.canMapRead = true ∧ p < hd.maxInodes ∧ Fails (view m' hd) (decodeInode · · false) p)),
      hput _ (hb.tear hon hon' e decide_eq_true_iff)⟩
  | erase x e =>
    obtain ⟨b', hpart, hb'⟩ := e.depicts hb
    exact ⟨_, .erase x hpart, hput _ hb'⟩
  | header x he hno hcan =>
    have hnone := Depicts.of_noHeader hno
    rw [hcan] at hnone
    refine ⟨flash, .header x, hsame ?_⟩
    rw [hb.erased he]
    exact hnone

theorem MemoryLoss.depicts (hl : MemoryLoss flash mem steps n mem') (h : ∀ side, Depicts (mem side) (flash side))
    (hn : ∀ side, (flash side).Named) : ∃ f', PowerLoss flash steps n f' ∧ ∀ side, Depicts (mem' side) (f' side) := by
  cases hl with
  | between hall => exact ⟨_, .between, hall.depicts h hn⟩
  | within hall hs hc =>
    obtain ⟨f', hcut, hdepicts⟩ := hc.depicts (hall.depicts h hn)
    exact ⟨f', .within hs hcut, hdepicts⟩

end Images

end SimpleFlashFs.TwoFace
