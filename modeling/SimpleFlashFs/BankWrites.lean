import SimpleFlashFs.BankImage
import SimpleFlashFs.Shelf

namespace SimpleFlashFs.TwoFace

open Lib

section Writes

variable [Config] {s t u : Fs} {b : Bank} {h k : FileHandle} {content : List UInt8} {i n p : ℕ} {f : File}
  {side : Side}

theorem valid_iff (L : Layout s) : Valid s i ↔ i ∈ validPages s := by
  rw [mem_validPages, Valid]
  refine and_congr_right fun hi => ?_
  rw [crcValid_iff, and_iff_right (L.pageAt_length (L.lt_inRange hi))]

theorem fileAt_view (s : Fs) (i : ℕ) : fileAt (view s.mem s.header) i = fileAt s i := by
  have hpages : pagesBytes (view s.mem s.header) (rawAt s i).inode.dataPages = pagesBytes s (rawAt s i).inode.dataPages :=
    pagesBytes_congr (s := s) (t := view s.mem s.header) rfl fun _ _ => rfl
  have hbytes : readableBytes (view s.mem s.header) (rawAt s i) = readableBytes s (rawAt s i) := by
    rw [readableBytes, readableBytes, hpages]
    rfl
  rw [fileAt, fileAt, ← hbytes]
  rfl

theorem SameBut.onMemory (e : SameBut s t p) : SameBut (view s.mem s.header) (view t.mem s.header) p := by
  rw [← show view t.mem t.header = view t.mem s.header by rw [e.header]]
  exact ⟨e.header, e.mapped, e.pages, e.data⟩

theorem Recorded.onMemory (e : Recorded s t b p f) : Recorded (view s.mem s.header) (view t.mem s.header) b p f := by
  have hsame := e.toSameBut.onMemory
  rw [← show view t.mem t.header = view t.mem s.header by rw [e.header]] at hsame ⊢
  exact ⟨hsame, e.free, e.intact, e.valid, e.record, (fileAt_view t p).trans e.file, e.named, e.newer, e.succeeds⟩

theorem TornPage.onMemory (e : TornPage s t p) : TornPage (view s.mem s.header) (view t.mem s.header) p := by
  have hsame := e.toSameBut.onMemory
  rw [← show view t.mem t.header = view t.mem s.header by rw [e.header]] at hsame ⊢
  exact ⟨hsame, e.invalid, e.intact, e.torn⟩

-- the pages that the handle may write are in no record
structure Clear (s : Fs) (h : FileHandle) : Prop where
  ready : Ready s
  owns : Owns s h
  page : h.page < s.header.maxInodes
  listed : ∀ i ∈ validPages s, ∀ q ∈ listed s i, DataRegion s q ∧ ¬ Usable s h q

theorem Clear.sameBut (hc : Clear s h) (w : Within s t (Usable s h)) : SameBut s t s.header.maxInodes where
  header := w.header
  mapped := w.canMapRead
  pages := by
    intro i hi _
    apply w.pages i (hc.ready.layout.lt_inRange hi)
    rintro (hfree | hnew)
    · exact absurd (hc.ready.free i hfree).1 (Nat.not_le_of_lt hi)
    · exact absurd (hc.owns.region i (FileHandle.mem_ids_of_newIds hnew)).1 (Nat.not_le_of_lt hi)
  data := by
    intro i hi _ q hq
    obtain ⟨hregion, hno⟩ := hc.listed i hi q hq
    exact w.pages q hregion.2 hno

theorem Clear.validPages_eq (hc : Clear s h) (w : Within s t (Usable s h)) : validPages t = validPages s :=
  (hc.sameBut w).validPages_eq (not_mem_validPages rfl) (not_mem_validPages w.header)

theorem Clear.dataEffect (hc : Clear s h) (e : DataEffect s h t k) : Clear t k where
  ready := e.ready hc.ready
  owns := e.owns hc.ready hc.owns
  page := by
    rw [e.same.page, e.within.header]
    exact hc.page
  listed := by
    intro i hi q hq
    rw [hc.validPages_eq e.within] at hi
    have hlt := (mem_validPages.mp hi).1
    rw [listed_congr e.within.header ((hc.sameBut e.within).pages i hlt hlt.ne)] at hq
    obtain ⟨hregion, hno⟩ := hc.listed i hi q hq
    refine ⟨e.within.dataRegion.mpr hregion, ?_⟩
    rintro (hfree | hnew)
    · exact hno (Or.inl (e.free q hfree))
    · exact hno (e.newIds q hnew)

-- the data pages, and then a write to the inode page
theorem Clear.touched {op : PhysOp} (hc : Clear s h) (w : Within s u (Usable s h)) (ht : Touched u t h.page op) :
    SameBut s t h.page := by
  have hsame := hc.sameBut w
  have hin : ∀ {j}, InRange s j → InRange u j := fun hj => w.inRange.mpr hj
  refine ⟨by rw [ht.rest]; exact w.header, ht.canMapRead.trans hsame.mapped, fun i hi hne => ?_, fun i hi hnew q hq => ?_⟩
  · rw [ht.others i hne (hin (hc.ready.layout.lt_inRange hi))]
    exact hsame.pages i hi hi.ne
  · obtain ⟨hregion, -⟩ := hc.listed i hi q hq
    have hpage := hc.page
    rw [ht.others q (by have := hregion.1; omega) (hin hregion.2)]
    exact hsame.data i hi hnew q hq

omit [Config] in
theorem within_of_numbered (w : Within { s with maxInodeNumber := n } t (Usable { s with maxInodeNumber := n } (h.numbered n))) :
    Within s t (Usable s h) :=
  ⟨w.header, w.variant, w.canMapRead, w.length, w.headerPage, w.pages, w.fresh, w.noShort, w.reliable⟩

-- the file that the first flush of h makes
def madeFile (s : Fs) (h : FileHandle) (content : List UInt8) : File where
  name := h.inode.flashName
  content := content
  special := h.inode.recorded.attributes &&& attributeSpecial ≠ 0
  number := s.maxInodeNumber + 1

-- a handle of a file that the bank does not have, with no page more than its length takes
structure NewFile (s : Fs) (b : Bank) (h : FileHandle) (content : List UInt8) : Prop extends Clear s h where
  nameLen : h.inode.fileNameLen < 2 ^ 16
  free : h.page ∉ validPages s
  carries : Carries s h content
  modified : h.modified = true
  unnumbered : h.inode.inodeNumber = 0
  pages : h.ids.length ≤ pagesLeft s.header content.length 0
  named : h.inode.flashName ≠ []
  absent : b.has h.inode.flashName = false
  numbers : ∀ i ∈ validPages s, numberAt s i ≤ s.maxInodeNumber
  number_lt : s.maxInodeNumber + 1 < 2 ^ 64
  readable : b.unreadable = false

-- writes leave the handle one of a new file
theorem NewFile.dataEffect {content' : List UInt8} (hf : NewFile s b h content) (e : DataEffect s h t k) (hc : Carries t k content')
    (hm : k.modified = true) (hp : k.ids.length ≤ pagesLeft t.header content'.length 0) : NewFile t b k content' := by
  have hvalid := hf.validPages_eq e.within
  have hname : k.inode.flashName = h.inode.flashName := by
    rw [Inode.flashName, Inode.flashName, e.same.fileName, e.same.fileNameLen]
  have hmax : t.maxInodeNumber = s.maxInodeNumber := by rw [e.rest]
  refine ⟨hf.toClear.dataEffect e, ?_, ?_, hc, hm, e.same.inodeNumber.trans hf.unnumbered, hp, ?_, ?_, fun i hi => ?_, ?_, hf.readable⟩
  · rw [e.same.fileNameLen]
    exact hf.nameLen
  · rw [hvalid, e.same.page]
    exact hf.free
  · rw [hname]
    exact hf.named
  · rw [hname]
    exact hf.absent
  · rw [hvalid] at hi
    have hlt := (mem_validPages.mp hi).1
    rw [numberAt, (hf.toClear.sameBut e.within).rawAt_eq hlt hlt.ne, hmax]
    exact hf.numbers i hi
  · rw [hmax]
    exact hf.number_lt

-- the records of the bank, and room for one more
structure Roomy (s : Fs) (b : Bank) : Prop where
  ready : Ready s
  listed : ∀ i ∈ validPages s, ∀ q ∈ listed s i, DataRegion s q ∧ q ∉ s.freeDataPages
  numbers : ∀ i ∈ validPages s, numberAt s i ≤ s.maxInodeNumber
  number_lt : s.maxInodeNumber + 1 < 2 ^ 64
  readable : b.unreadable = false

theorem Roomy.newFile {name : List UInt8} (hr : Roomy s b) (ht : TakesInode s t (some p)) (hroom : 42 + name.length ≤ s.header.pageSize)
    (hshort : name.length < 2 ^ 16) (hname : name ≠ []) (hno : b.has name = false) (hp : h.page = p) (hm : h.modified = true)
    (hi : h.inode = { fileName := name, fileNameLen := name.length }) : NewFile t b h [] := by
  have hheader : t.header = s.header := by rw [ht.rest]
  have hfree : t.freeDataPages = s.freeDataPages := by rw [ht.rest]
  have hpages : ∀ i, pageAt t i = pageAt s i := fun i => by rw [ht.rest]; rfl
  have hvalid : validPages t = validPages s := by rw [ht.rest]; rfl
  have hmax : t.maxInodeNumber = s.maxInodeNumber := by rw [ht.rest]
  have hclaim := ht.claimable p rfl
  have hids : h.ids = [] := by rw [FileHandle.ids, hi]; rfl
  have hready := ht.ready hr.ready
  have hflash : h.inode.flashName = name := by
    rw [hi, Inode.flashName, List.take_length]
  have hclear : Clear t h := by
    refine ⟨hready, ⟨by rw [hids]; exact List.nodup_nil, by rw [hids]; exact List.forall_mem_nil _,
      by rw [hids]; exact List.forall_mem_nil _⟩, by rw [hp, hheader]; exact hclaim.1, fun i hi q hq => ?_⟩
    rw [hvalid] at hi
    rw [listed_congr hheader (hpages i)] at hq
    obtain ⟨hregion, hq⟩ := hr.listed i hi q hq
    refine ⟨by rw [DataRegion, InRange, hheader]; exact hregion, ?_⟩
    rintro (hfree' | hnew)
    · rw [hfree] at hfree'
      exact hq hfree'
    · have hmem := FileHandle.mem_ids_of_newIds hnew
      rw [hids] at hmem
      cases hmem
  constructor
  · exact hclear
  · rw [hi]
    exact hshort
  · rw [hvalid, hp, ← valid_iff hr.ready.layout]
    exact hclaim.2.1
  · refine ⟨by rw [hi]; rfl, by rw [hi, hheader]; exact hroom, Or.inl ⟨by rw [hi], Or.inr rfl, rfl⟩⟩
  · exact hm
  · rw [hi]
  · rw [hids]
    exact Nat.zero_le _
  · rw [hflash]
    exact hname
  · rw [hflash]
    exact hno
  · intro i hi
    rw [hvalid] at hi
    rw [numberAt_congr hheader (hpages i), hmax]
    exact hr.numbers i hi
  · rw [hmax]
    exact hr.number_lt
  · exact hr.readable

-- opening a file that is not there makes the handle of a new file
theorem Roomy.wp_openNew {name : List UInt8} (hr : Roomy s b) (hroom : 42 + name.length ≤ s.header.pageSize)
    (hshort : name.length < 2 ^ 16) (hname : name ≠ []) (hno : b.has name = false) (mode : OpenMode) :
    wp (openNew name mode) (fun h t => h.connected = true → NewFile t b h [] ∧ h.pos = 0 ∧ h.inode.flashName = name ∧
      h.inode.attributes = 0 ∧ t.maxInodeNumber = s.maxInodeNumber ∧ Untouched s t) (fun _ _ => True) s := by
  rw [openNew, wp_bind]
  apply wp_mono (wp_allocateFreeInodePage hr.ready (R := fun _ _ => True) fun _ => trivial)
  · rintro h t ⟨r, rfl, ht⟩
    rw [wp_bind, wp_get]
    cases r with
    | none =>
      rw [if_pos (by simp [FileHandle.ofPage])]
      intro hcon
      cases hcon
    | some p =>
      rw [if_neg (by simp [FileHandle.ofPage]), wp_ite, wp_bind]
      constructor
      · exact fun _ => wp_run (fun _ _ _ hcon => by cases hcon) fun _ _ _ => trivial
      · intro _ _
        have hmod : name.length % 2 ^ 16 = name.length := Nat.mod_eq_of_lt hshort
        have hinode : (handleAppendMode mode { FileHandle.ofPage (some p) with
            inode := { (FileHandle.ofPage (some p)).inode with fileName := name, fileNameLen := name.length % 2 ^ 16 },
            modified := true }).inode = { fileName := name, fileNameLen := name.length } := by
          rw [hmod]
          rfl
        refine ⟨hr.newFile ht hroom hshort hname hno rfl rfl hinode, ?_, ?_, ?_, by rw [ht.rest], by rw [ht.rest], by rw [ht.rest], by rw [ht.rest]⟩
        · simp [handleAppendMode, FileHandle.ofPage]
        · rw [hinode, Inode.flashName, List.take_length]
        · rw [hinode]
  · exact fun _ _ h => h

-- an open file of the other bank with the cursor at its end, and what was written since the start
structure AtEnd (start x : FileHandle × Fs) (content : List UInt8) : Prop where
  effect : DataEffect start.2 start.1 x.2 x.1
  carries : Carries x.2 x.1 content
  pos : x.1.pos = content.length
  modified : x.1.modified = true

theorem handleSink_appends {start : FileHandle × Fs} (hc : Clear start.2 start.1) : AppendsTo handleSink (AtEnd start) := by
  rintro ⟨target, u⟩ content data w hx hw hall
  have hr := hx.effect.ready hc.ready
  have ho := hx.effect.owns hc.ready hc.owns
  have hend : target.writePos = content.length := by
    rw [FileHandle.writePos]
    split
    · exact hx.carries.length
    · exact hx.pos
  unfold handleSink at hw
  dsimp only at hw
  cases hrun : SimpleFlashFs.write target data u with
  | error e v =>
    rw [hrun] at hw
    cases hw
  | ok r v =>
    rw [hrun] at hw
    obtain rfl := Except.ok.inj hw
    obtain ⟨hwrote, he⟩ := wp_ok (wp_and (wp_write_carries hr ho hx.carries hx.pos.le) ((safe_write data).wp hr ho)) hrun
    have hwrote := hwrote hall
    have hcarries := hwrote.carries
    rw [hend, overwrite_end] at hcarries
    refine ⟨hx.effect.trans he, hcarries, ?_, (wp_ok (wp_write_marks data) hrun).1 hx.modified⟩
    rw [hwrote.pos, hend, List.length_append]

-- a copy into a file of the other bank that returns true leaves it the bytes of the source behind its own
theorem copy_toFile {start x x' : FileHandle × Fs} {capacity fuel : ℕ} (hps : 0 < s.header.pageSize) (hs : Source s h)
    (hstart : h.pos = 0) (hc : Copyable s h capacity) (hclear : Clear start.2 start.1) (hx : AtEnd start x content)
    (hrun : SimpleFlashFs.copy handleSink capacity fuel h x s = .ok (true, x') t) :
    AtEnd start x' (content ++ (readableBytes s h).take h.inode.fileLen) ∧
      ((readableBytes s h).take h.inode.fileLen).length = h.inode.fileLen :=
  ⟨copy_appends hps hs hstart hc.capacity_lt (handleSink_appends hclear) hx hrun,
    List.length_take_of_le ((complete_iff hs).mp hc.complete)⟩

-- a record with no page more than its length takes is decoded as it is
omit [Config] in
theorem decoded_uncorrected {hd : Header} {inode : Inode} (hps : 0 < hd.pageSize) (hlt : inode.fileLen < 2 ^ 64)
    (hids : ∀ p ∈ inode.recordedIds, p < hd.filesystemSize)
    (hpages : inode.recordedIds.length ≤ pagesLeft hd inode.fileLen 0)
    (hinline : inode.dataPages = [] → inode.fileLen ≤ inodeDataSpaceSize hd inode.fileNameLen) :
    (inode.decoded hd true).modified = false := by
  have hrec : inode.recorded.fileLen = inode.fileLen := Nat.mod_eq_of_lt hlt
  unfold Inode.decoded
  dsimp only
  rw [hrec]
  split
  · rw [correctPages_corrected hps hids]
    simpa using hpages
  · next hnil =>
    split
    · rw [if_pos (show inode.fileLen ≤ inodeDataSpaceSize hd inode.recorded.fileNameLen from hinline (not_not.mp hnil))]
    · rfl

-- what a handle reads from its first byte on
theorem readableBytes_of_holds (hps : 0 < s.header.pageSize) (hs : Source s h) (hpos : h.pos = 0) (hc : HoldsContent s h content) :
    (readableBytes s h).take h.inode.fileLen = content := by
  have hread := read_intact hps hc (by omega) h.inode.fileLen
  have hend : h.pos + h.inode.fileLen ≤ h.inode.fileLen := by omega
  obtain ⟨-, hr⟩ := wp_ok (wp_read_exact hps hs hend) hread
  have hbytes := congrArg Prod.fst hr
  dsimp only at hbytes
  rw [hpos, slice, slice, List.drop_zero, List.drop_zero, ← hc.length, List.take_length] at hbytes
  rw [← hc.length]
  exact hbytes.symm

omit [Config] in
theorem decoded_attributes (hd : Header) (corr : Bool) (inode : Inode) :
    (inode.decoded hd corr).inode.attributes = inode.recorded.attributes := by
  unfold Inode.decoded
  dsimp only
  split
  · rfl
  · split
    · split <;> rfl
    · rfl

-- the record and the pages of the new file, as the flush leaves them
structure Made (s : Fs) (h : FileHandle) (content : List UInt8) (t : Fs) (r : FileHandle) : Prop where
  ready : Ready t
  valid : h.page ∈ validPages t
  decoded : decodeInode t.header (pageAt t h.page) true = .ok r
  modified : r.modified = false
  ids : r.ids.Sublist h.ids
  carries : Carries t r content
  owns : Owns t r
  attributes : r.inode.attributes = h.inode.recorded.attributes

-- the pages of the new file are its own after the flush, too
theorem NewFile.owns_written (hf : NewFile s b h content)
    (e : SimpleFlashFs.Recorded { s with maxInodeNumber := n } (h.numbered n) t) (hk : k.ids.Sublist h.ids) : Owns t k := by
  have hheader : t.header = s.header := e.header
  refine ⟨hf.owns.nodup.sublist hk, fun p hp => ?_, fun p hp => ?_⟩
  · rw [DataRegion, InRange, hheader]
    exact hf.owns.region p (hk.mem hp)
  · rw [e.rest]
    exact hf.owns.notFree p (hk.mem hp)

theorem NewFile.decoded_modified (hf : NewFile s b h content) (hh : t.header = s.header) (hps : 0 < t.header.pageSize)
    (hlt : content.length < 2 ^ 64) (hids : (h.numbered n).inode.recordedIds = h.ids) :
    ((h.numbered n).inode.decoded t.header true).modified = false := by
  have hlen : (h.numbered n).inode.fileLen = content.length := hf.carries.length
  apply decoded_uncorrected hps
  · rw [hlen]
    exact hlt
  · intro p hp
    rw [hids] at hp
    rw [hh]
    exact (Nat.lt_succ_self p).trans (hf.owns.region p hp).2
  · rw [hids, hlen, hh]
    exact hf.pages
  · intro hnil
    have hfits := hf.carries.fitsInline (by rw [Inode.countValidDataPages, show h.inode.dataPages = [] from hnil]; rfl)
    rw [hh]
    exact hfits

theorem NewFile.made (hf : NewFile s b h content)
    (hc : Committed { s with maxInodeNumber := s.maxInodeNumber + 1 } (h.numbered (s.maxInodeNumber + 1)) t) :
    ∃ r, Made s h content t r := by
  have hready := hc.ready (ready_maxInodeNumber hf.ready (s.maxInodeNumber + 1))
  have hps := hready.layout.pageSize_pos
  have hrec := hc.recorded_numbered hf.ready hf.owns hf.page
  have hheader : t.header = s.header := hrec.header
  have hcarries := hrec.carries_numbered hf.owns hf.carries
  have howns : Owns t (h.numbered (s.maxInodeNumber + 1)).clean := hf.owns_written hrec (by rw [clean_ids]; exact List.Sublist.refl _)
  have hof : RecordOf (h.numbered (s.maxInodeNumber + 1)).inode (h.numbered (s.maxInodeNumber + 1)).clean :=
    ⟨rfl, rfl, rfl, (clean_ids _).symm⟩
  have hids : (h.numbered (s.maxInodeNumber + 1)).inode.recordedIds = h.ids := by
    rw [hof.recordedIds hready howns, clean_ids]
    rfl
  have hsub : ((h.numbered (s.maxInodeNumber + 1)).inode.decoded t.header true).ids.Sublist h.ids := by
    rw [← hids]
    apply decoded_ids_sublist hps _ true
    intro p hp
    rw [hids] at hp
    rw [hheader]
    exact (Nat.lt_succ_self p).trans (hf.owns.region p hp).2
  refine ⟨_, hready, ?_, hrec.stores.decode hf.nameLen true, hf.decoded_modified hheader hps (hcarries.length_lt hready howns) hids,
    hsub, hcarries.decoded hready howns hof fun _ => clean_new, hf.owns_written hrec hsub, decoded_attributes _ _ _⟩
  rw [← valid_iff hready.layout]
  exact ⟨by rw [hheader]; exact hf.page, hrec.stores.checksumOk⟩

theorem Made.fileAt_eq {r : FileHandle} (hm : Made s h content t r) :
    fileAt t h.page = { name := nameAt t h.page, content := content, number := numberAt t h.page
                        special := h.inode.recorded.attributes &&& attributeSpecial ≠ 0 } := by
  have hdec := decodeInode_uncorrected hm.decoded hm.modified
  obtain ⟨k, hk⟩ : ∃ k : FileHandle, k = { r with page := h.page } := ⟨_, rfl⟩
  have hraw : rawAt t h.page = k := by rw [← rawAt_of_decode hdec, hk]
  have hsource : Source t k := hk ▸ source_of_decodeInode hdec h.page
  have hcarries : Carries t k content := hm.carries.of_inode (by rw [hk])
  have howns : Owns t k := hk ▸ ⟨hm.owns.nodup, hm.owns.region, hm.owns.notFree⟩
  have hstart : k.pos = 0 := by
    rw [hk]
    exact (decodeInode_fresh hdec).pos
  have hbytes := readableBytes_of_holds hm.ready.layout.pageSize_pos hsource hstart
    (hcarries.holdsContent hm.ready howns hsource.connected)
  have hattributes : k.inode.attributes = h.inode.recorded.attributes := by
    rw [hk]
    exact hm.attributes
  rw [fileAt, nameAt, hraw, hbytes, hattributes]

theorem NewFile.intact (hf : NewFile s b h content) (hs : ShowsBank s b) (hcan : s.mem.canMapRead = true) :
    ¬ Fails s (decodeInode · · false) h.page := by
  intro hfails
  have hun := hs.unreadable.mpr ⟨hcan, h.page, hf.page, hfails⟩
  rw [hf.readable] at hun
  cases hun

-- the first flush of a new file is the step of its bank that makes it
theorem NewFile.recorded (hf : NewFile s b h content) (hs : ShowsBank s b)
    (hc : Committed { s with maxInodeNumber := s.maxInodeNumber + 1 } (h.numbered (s.maxInodeNumber + 1)) t) :
    Recorded s t b h.page (madeFile s h content) := by
  obtain ⟨r, hm⟩ := hf.made hc
  obtain ⟨u, img, -, -, he, ht⟩ := id hc
  have hrec := hc.recorded_numbered hf.ready hf.owns hf.page
  have hsame : SameBut s t h.page := hf.toClear.touched (within_of_numbered he.within) ht.toTouched
  have hnone : ∀ i ∈ validPages s, numberAt s i ≠ s.maxInodeNumber + 1 := by
    intro i hi
    have := hf.numbers i hi
    omega
  have hstored := hrec.stores.record (show (h.numbered (s.maxInodeNumber + 1)).inode.fileNameLen < 2 ^ 16 from hf.nameLen)
  have hsmall : ∀ p ∈ r.ids, p < noData :=
    fun p hp => hf.ready.layout.lt_noData (hf.owns.region p (hm.ids.mem hp)).2
  refine ⟨hsame, hf.free, hf.intact hs, hm.valid, ⟨r, hm.decoded, hm.modified, hsmall⟩, ?_, hf.named, ?_, ?_⟩
  · have hnumber : numberAt t h.page = s.maxInodeNumber + 1 := hstored.1.trans (Nat.mod_eq_of_lt hf.number_lt)
    have hname : nameAt t h.page = h.inode.flashName := hstored.2.2
    rw [hm.fileAt_eq, hnumber, hname]
    rfl
  · exact fun i hi hnumber => absurd hnumber (hnone i hi)
  · rw [show (madeFile s h content).name = h.inode.flashName from rfl, hf.absent, if_neg Bool.false_ne_true]
    exact hnone

-- writing data pages is no step that shows, whole or cut
theorem Clear.performs (hc : Clear s h) (hon : HeaderOn s.mem s.header) (w : Within s t (Usable s h)) (side : Side) :
    Performs s.mem b (.data side) t.mem :=
  .data side hon (hon.onSame hc.ready.layout w.sameHeader) (hc.sameBut w).onMemory

theorem Clear.cutShort (hc : Clear s h) (hon : HeaderOn s.mem s.header) (w : Within s t (Usable s h)) (side : Side) :
    CutShort s.mem (.data side) t.mem :=
  .data side hon (hon.onSame hc.ready.layout w.sameHeader) (hc.sameBut w).onMemory

theorem NewFile.wp_flush (hf : NewFile s b h content) (hd : Depicts s.mem b) (hon : HeaderOn s.mem s.header)
    (hv : s.variant = .noDel) (side : Side) :
    wp (flush h) (fun r t => r.1 = true ∧ Performs s.mem b (.commit side (madeFile s h content)) t.mem)
      (fun e t => e = .powerLoss → CutShort s.mem (.data side) t.mem ∨
        (h.page ∉ validPages t → (Fails t (decodeInode · · false) h.page ∨ Discarded t (decodeInode · · false) h.page) →
          CutShort s.mem (.commit side (madeFile s h content)) t.mem)) s := by
  have hs : ShowsBank s b := .of_untouched (s := view s.mem s.header) ⟨rfl, rfl, hv⟩ (hd.shows s.header hon)
  have hmod : (s.maxInodeNumber + 1) % 2 ^ 64 = s.maxInodeNumber + 1 := Nat.mod_eq_of_lt hf.number_lt
  apply wp_mono (SimpleFlashFs.wp_flush hf.ready hf.owns hf.page)
  · intro r t hflushed
    cases hflushed with
    | unmodified hm => exact absurd (hf.modified.symm.trans hm) (by decide)
    | full hm hn => exact absurd hf.unnumbered hn
    | next hm hn => exact absurd hf.unnumbered hn
    | first hm hn t hc =>
      rw [hmod] at hc
      have e := hf.recorded hs hc
      have hon' := HeaderOn.onSame (s := { s with maxInodeNumber := s.maxInodeNumber + 1 }) hon
        (ready_maxInodeNumber hf.ready (s.maxInodeNumber + 1)).layout hc.sameHeader
      exact ⟨rfl, .commit side _ hon hon' e.onMemory⟩
  · intro e t hlost he
    cases hlost he with
    | next hm hn => exact absurd hf.unnumbered hn
    | erasing hm hn => exact absurd hf.unnumbered hn
    | first hm hn t hc =>
      rcases hc with hlost | ⟨u, img, -, -, he, ht⟩
      · exact Or.inl (hf.toClear.cutShort hon (within_of_numbered hlost.within) side)
      · right
        intro hinvalid htorn
        have hw := within_of_numbered he.within
        have hsame := hf.toClear.touched hw ht.toTouched
        have hon' := hon.onSame hf.ready.layout (hw.sameHeader.trans ⟨ht.header, ht.length, ht.headerPage⟩)
        exact .commit side _ hon hon' (TornPage.onMemory ⟨hsame, ⟨hf.free, hinvalid⟩, fun hcan _ => hf.intact hs hcan, fun _ => htorn⟩)

-- the writes to a new file and its first flush are the steps of its bank
theorem NewFile.performsAll {flash : Flash} {mem : Side → Memory} {r : Bool × FileHandle} (hf : NewFile t (flash side) k content)
    (hc : Clear s h) (hmem : mem side = s.mem) (hd : Depicts s.mem (flash side)) (hon : HeaderOn s.mem s.header)
    (hv : s.variant = .noDel) (e : DataEffect s h t k) (hflush : flush k t = .ok r u) :
    PerformsAll flash mem [.data side, .commit side (madeFile t k content)] (Function.update mem side u.mem) := by
  have hon' := hon.kept hc.ready.layout e.within.sameHeader
  have hdepicts : Depicts t.mem (flash side) :=
    hd.data hon (hon.onSame hc.ready.layout e.within.sameHeader) (hc.sameBut e.within).onMemory
  obtain ⟨-, hcommit⟩ := wp_ok (hf.wp_flush hdepicts hon' (e.within.variant.trans hv) side) hflush
  have hfirst : Performs (mem side) (flash side) (.data side) t.mem := by
    rw [hmem]
    exact hc.performs hon e.within side
  have hsecond : Performs (Function.update mem side t.mem side) (flash side) (.commit side (madeFile t k content)) u.mem := by
    rw [Function.update_self]
    exact hcommit
  have hrest : PerformsAll flash (Function.update mem side t.mem) [.commit side (madeFile t k content)]
      (Function.update (Function.update mem side t.mem) side u.mem) := .cons hsecond .nil
  rw [Function.update_idem] at hrest
  exact .cons hfirst hrest

-- opening, copying and closing a file makes the steps of cleanup for it
theorem copyFile_performs {flash : Flash} {mem : Side → Memory} {v w x : Fs} {g : File} {target : FileHandle} {mode : OpenMode}
    {capacity fuel : ℕ} {r : Bool × FileHandle} (hps : 0 < s.header.pageSize) (hs : Source s h) (hstart : h.pos = 0)
    (hc : Copyable s h capacity) (hcontent : g.content = (readableBytes s h).take h.inode.fileLen)
    (hr : Roomy u (flash side)) (hmem : mem side = u.mem) (hd : Depicts u.mem (flash side)) (hon : HeaderOn u.mem u.header)
    (hv : u.variant = .noDel) (hroom : 42 + g.name.length ≤ u.header.pageSize) (hshort : g.name.length < 2 ^ 16)
    (hname : g.name ≠ []) (hno : (flash side).has g.name = false) (hopen : openNew g.name mode u = .ok target v)
    (hconn : target.connected = true) (hcopy : SimpleFlashFs.copy handleSink capacity fuel h (target, v) s = .ok (true, k, w) t)
    (hpages : k.ids.length ≤ pagesLeft w.header g.content.length 0) (hflush : flush k w = .ok r x) :
    PerformsAll flash mem (copySteps side (fun _ => 1) u.maxInodeNumber [g]) (Function.update mem side x.mem) := by
  obtain ⟨hf, hpos, hflash, hattributes, hmax, hu⟩ := wp_ok (hr.wp_openNew hroom hshort hname hno mode) hopen hconn
  have hfirst : AtEnd (target, v) (target, v) [] :=
    ⟨DataEffect.of_pages hf.ready hf.owns rfl (SameFile.refl _), hf.carries, hpos, hf.modified⟩
  obtain ⟨hx, -⟩ := copy_toFile hps hs hstart hc hf.toClear hfirst hcopy
  rw [List.nil_append, ← hcontent] at hx
  have hnew := hf.dataEffect hx.effect hx.carries hx.modified hpages
  have hall := hnew.performsAll hf.toClear (hmem.trans hu.mem.symm) (by rwa [hu.mem]) (by rwa [hu.mem, hu.header])
    (hu.variant.trans hv) hx.effect hflush
  have hmade : madeFile w k g.content = { name := g.name, content := g.content, number := u.maxInodeNumber + 1 } := by
    have hsame := hx.effect.same
    have hw : w.maxInodeNumber = v.maxInodeNumber := by
      have hrest := congrArg Fs.maxInodeNumber hx.effect.rest
      exact hrest
    have huser : k.inode.recorded.attributes &&& attributeSpecial = 0 := by
      have hattr : k.inode.attributes = 0 := hsame.attributes.trans hattributes
      rw [show k.inode.recorded.attributes = k.inode.attributes % 2 ^ 64 from rfl, hattr, Nat.zero_mod, Nat.zero_and]
    have hkname : k.inode.flashName = g.name := by
      rw [← hflash, Inode.flashName, Inode.flashName, hsame.fileName, hsame.fileNameLen]
    rw [madeFile, hkname, hw, hmax, huser]
    rfl
  rw [hmade] at hall
  exact hall

end Writes

end SimpleFlashFs.TwoFace
