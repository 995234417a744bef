import SimpleFlashFs.Catalog
import SimpleFlashFs.FileContent

namespace SimpleFlashFs

open Lib

section Decoded

variable {t : Fs} {h k : FileHandle} {content : List UInt8} {pages : List (List UInt8)} {n : Inode}

-- a record of the file that k is a handle of
structure RecordOf (n : Inode) (k : FileHandle) : Prop where
  fileLen : n.fileLen = k.inode.fileLen
  nameLen : n.fileNameLen = k.inode.fileNameLen
  inodeData : n.inodeData = k.inode.inodeData
  ids : n.dataPages.map DataPage.pageId = k.ids

theorem RecordOf.recordedIds (e : RecordOf n k) (hr : Ready t) (ho : Owns t k) : n.recordedIds = k.ids := by
  have hmod : n.recordedIds = k.ids.map (· % 2 ^ 32) := by
    rw [← e.ids, List.map_map]
    rfl
  rw [hmod]
  conv_rhs => rw [← List.map_id k.ids]
  apply List.map_congr_left
  intro p hp
  have hlt := hr.layout.lt_noData (ho.region p hp).2
  unfold noData at hlt
  exact Nat.mod_eq_of_lt (by omega)

theorem showsPages_stored {ids : List ℕ} (hl : h.inode.dataPages = storedPages ids) : ShowsPages t h (ids.map (pageAt t)) := by
  refine ⟨storedPages ids, [], ⟨by rw [hl, List.append_nil], ?_, List.forall_mem_nil _⟩, ?_⟩
  · intro m hm
    rw [(stored_of_mem_storedPages hm).1]
    simp
  · rw [storedPages, List.map_map]
    rfl

-- the pages that are programmed show what is on flash
theorem ShowsPages.ids_take (hs : ShowsPages t k pages) (hst : ∀ m ∈ k.inode.dataPages, m.state ≠ .new) :
    (k.ids.take pages.length).map (pageAt t) = pages := by
  obtain ⟨kept, dropped, e, rfl⟩ := hs
  have hids : k.ids.take (kept.map (entryPage t)).length = kept.map DataPage.pageId := by
    rw [FileHandle.ids, e.eq, List.map_append, List.length_map]
    apply List.take_left'
    rw [List.length_map]
  rw [hids, List.map_map]
  apply List.map_congr_left
  intro m hm
  have hne := hst m (by rw [e.eq]; exact List.mem_append_left _ hm)
  rw [entryPage, if_neg hne]
  rfl

-- get_inode keeps the pages that hold bytes of the file
theorem OnPages.decoded (hon : OnPages t k content) (hr : Ready t) (ho : Owns t k) (hlen : k.inode.fileLen = content.length)
    (hlt : content.length < 2 ^ 64) (e : RecordOf n k) (hst : ∀ m ∈ k.inode.dataPages, m.state ≠ .new) (hne : n.dataPages ≠ []) :
    (n.decoded t.header true).inode.fileLen = content.length ∧ OnPages t (n.decoded t.header true) content := by
  obtain ⟨pages, hs, hn, htake⟩ := hon.pages
  have hps := hr.layout.pageSize_pos
  have hu := hs.uniform hr ho
  have hids : ∀ p ∈ n.recordedIds, p < t.header.filesystemSize := by
    rw [e.recordedIds hr ho]
    intro p hp
    exact lt_trans (Nat.lt_succ_self p) (ho.region p hp).2
  have hrec : n.recorded.fileLen = content.length := by
    rw [Inode.recorded]
    dsimp only
    rw [e.fileLen, hlen, Nat.mod_eq_of_lt hlt]
  obtain ⟨m, hm⟩ : ∃ m, m = pagesLeft t.header content.length 0 := ⟨_, rfl⟩
  have hcount : m ≤ pages.length := by
    rw [hm, pagesLeft, Nat.sub_zero]
    rw [hu.length] at hn
    have hcover : content.length + t.header.pageSize - 1 < t.header.pageSize * (pages.length + 1) := by
      rw [Nat.mul_add_one]
      omega
    exact Nat.le_of_lt_succ (Nat.div_lt_of_lt_mul hcover)
  have hcover : content.length ≤ t.header.pageSize * m := by
    have hlt := Nat.lt_mul_div_succ (content.length + t.header.pageSize - 1) hps
    rw [Nat.mul_add_one] at hlt
    rw [hm, pagesLeft, Nat.sub_zero]
    omega
  have hdec : n.decoded t.header true = { n.decoded t.header true with
      inode := { n.recorded with dataPages := storedPages (k.ids.take m), fileLen := content.length } } := by
    unfold Inode.decoded
    dsimp only
    rw [if_pos hne, correctPages_corrected hps hids, hrec, ← hm, e.recordedIds hr ho, List.nil_append]
  have hshow : ShowsPages t (n.decoded t.header true) (pages.take m) := by
    have hstored : ShowsPages t (n.decoded t.header true) ((k.ids.take m).map (pageAt t)) := by
      apply showsPages_stored
      rw [hdec]
    have hpages := congrArg (List.take m) (hs.ids_take hst)
    rw [← List.map_take, List.take_take, Nat.min_eq_left hcount] at hpages
    rw [← hpages]
    exact hstored
  have hflat := hu.flatten_take m
  have hspace : getInodeDataSpaceSize t.header (n.decoded t.header true) = getInodeDataSpaceSize t.header k := by
    apply getInodeDataSpaceSize_congr rfl
    rw [hdec]
    exact e.nameLen
  refine ⟨by rw [hdec], by rw [hdec]; rfl, by rw [hspace]; exact hon.long, _, hshow, ?_, ?_⟩
  · rw [hflat, List.length_take]
    exact le_min hcover hn
  · rw [hflat, List.take_take, Nat.min_eq_left hcover, htake]

-- a file without data pages is read from the bytes behind its name
theorem Carries.decoded_inline (hc : Carries t k content) (hlt : content.length < 2 ^ 64) (e : RecordOf n k)
    (hshort : content.length < getInodeDataSpaceSize t.header k ∨ content = [])
    (hbytes : k.inode.inodeData.take content.length = content) (hnil : n.dataPages = []) :
    Carries t (n.decoded t.header true) content := by
  have hrec : n.recorded.fileLen = content.length := by
    rw [Inode.recorded]
    dsimp only
    rw [e.fileLen, hc.length, Nat.mod_eq_of_lt hlt]
  have hname : n.recorded.fileNameLen = k.inode.fileNameLen := e.nameLen
  have hroomy := hc.roomy
  have hspace : inodeDataSpaceSize t.header n.recorded.fileNameLen = getInodeDataSpaceSize t.header k := by
    rw [hname, getInodeDataSpaceSize]
  have hlong : content.length ≤ n.inodeData.length := by
    have hlen := congrArg List.length hbytes
    rw [List.length_take] at hlen
    rw [e.inodeData]
    omega
  unfold Inode.decoded
  dsimp only
  rw [if_neg (by simp [hnil]), hrec, hspace]
  by_cases hpos : content.length > 0
  · have hfit : content.length < getInodeDataSpaceSize t.header k := by
      rcases hshort with hs | rfl
      · exact hs
      · exact absurd hpos (Nat.lt_irrefl 0)
    rw [if_pos hpos, if_pos hfit.le]
    refine ⟨rfl, ?_, Or.inl ⟨rfl, Or.inl ?_, ?_⟩⟩
    · rw [hname]
      exact hroomy
    · rw [getInodeDataSpaceSize, hspace]
      exact hfit
    · dsimp only
      rw [take_resized hlong hfit.le, e.inodeData]
      exact hbytes
  · have hempty : content = [] := List.length_eq_zero_iff.mp (by omega)
    rw [if_neg hpos]
    refine ⟨hrec, ?_, Or.inl ⟨rfl, Or.inr hempty, ?_⟩⟩
    · rw [hname]
      exact hroomy
    · rw [hempty]
      rfl

-- what get_inode makes of a record carries what the handle carried
theorem Carries.decoded [Config] (hc : Carries t k content) (hr : Ready t) (ho : Owns t k) (e : RecordOf n k)
    (hst : ∀ m ∈ k.inode.dataPages, m.state ≠ .new) : Carries t (n.decoded t.header true) content := by
  have hlt := hc.length_lt hr ho
  have hids : n.dataPages = [] ↔ k.inode.dataPages = [] := by
    rw [← List.map_eq_nil_iff (f := DataPage.pageId), e.ids, FileHandle.ids, List.map_eq_nil_iff]
  rcases hc.storage with hin | hon
  · exact hc.decoded_inline hlt e hin.short hin.bytes (hids.mpr hin.noPages)
  · by_cases hnil : n.dataPages = []
    · obtain ⟨pages, hs, hn, -⟩ := hon.pages
      have hempty : content = [] := by
        have hv := hs.valid
        rw [Inode.countValidDataPages, hids.mp hnil] at hv
        have hpages : pages = [] := List.length_eq_zero_iff.mp hv.symm
        rw [hpages] at hn
        exact List.length_eq_zero_iff.mp (Nat.le_zero.mp hn)
      apply hc.decoded_inline hlt e (Or.inr hempty) _ hnil
      rw [hempty]
      rfl
    · obtain ⟨hlen, hpages⟩ := hon.decoded hr ho hc.length hlt e hst hnil
      refine ⟨hlen, ?_, Or.inr hpages⟩
      rw [decoded_nameLen, e.nameLen]
      exact hc.roomy

end Decoded

section Shown

variable {s t : Fs} {h k : FileHandle} {content : List UInt8} {pages : List (List UInt8)}

theorem ShowsPages.spared (hs : ShowsPages s k pages) (hh : t.header = s.header)
    (hp : ∀ p ∈ k.ids, pageAt t p = pageAt s p) : ShowsPages t k pages :=
  hs.congr hh fun m hm _ => hp m.pageId (List.mem_map_of_mem hm)

theorem Carries.spared (hc : Carries s k content) (hh : t.header = s.header) (hp : ∀ p ∈ k.ids, pageAt t p = pageAt s p) :
    Carries t k content :=
  hc.reshow hh ⟨rfl, rfl, rfl, id⟩ fun _ hs => hs.spared hh hp

theorem ShowsPages.stripDeleted (hs : ShowsPages s h pages) : ShowsPages s h.stripDeleted pages := by
  obtain ⟨kept, dropped, e, hp⟩ := hs
  refine ⟨kept, [], ⟨?_, e.kept, List.forall_mem_nil _⟩, hp⟩
  have hkept : kept.filter (·.state ≠ .deleted) = kept := by
    rw [List.filter_eq_self]
    intro m hm
    simpa using e.kept m hm
  have hdropped : dropped.filter (·.state ≠ .deleted) = [] := by
    rw [List.filter_eq_nil_iff]
    intro m hm
    simpa using e.dropped m hm
  rw [FileHandle.stripDeleted, FileHandle.setPages]
  dsimp only
  rw [e.eq, List.filter_append, hkept, hdropped]

-- programmed with zeros, the new pages still show zeros
theorem ShowsPages.settled (hs : ShowsPages s h pages)
    (hzero : ∀ p ∈ h.newIds, pageAt t p = List.replicate s.header.pageSize 0)
    (hp : ∀ p ∈ h.ids, p ∉ h.newIds → pageAt t p = pageAt s p) (ho : Owns s h) : ShowsPages t h.settled pages := by
  obtain ⟨kept, dropped, e, rfl⟩ := hs
  refine ⟨kept.map DataPage.settled, dropped.map DataPage.settled, ⟨?_, ?_, ?_⟩, ?_⟩
  · rw [FileHandle.settled, FileHandle.setPages]
    dsimp only
    rw [e.eq, List.map_append]
  · intro m hm
    obtain ⟨x, hx, rfl⟩ := List.mem_map.mp hm
    have hx := e.kept x hx
    rw [DataPage.settled]
    split
    · simp
    · exact hx
  · intro m hm
    obtain ⟨x, hx, rfl⟩ := List.mem_map.mp hm
    have hx := e.dropped x hx
    rw [DataPage.settled, if_neg (by simp [hx])]
    exact hx
  · rw [List.map_map]
    apply List.map_congr_left
    intro m hm
    have hmem : m ∈ h.inode.dataPages := by
      rw [e.eq]
      exact List.mem_append_left _ hm
    have hleft : entryPage t m.settled = pageAt t m.pageId := by
      rw [entryPage, if_neg m.settled_state, DataPage.settled_pageId]
    rw [Function.comp_apply, hleft, entryPage]
    by_cases hnew : m.state = .new
    · rw [if_pos hnew]
      exact hzero _ (FileHandle.mem_newIds hmem hnew)
    · rw [if_neg hnew]
      apply hp _ (List.mem_map_of_mem hmem)
      intro hmn
      obtain ⟨x, hx, hxs, hxe⟩ := (FileHandle.mem_newIds_iff (List.Perm.refl _)).mp hmn
      rw [List.inj_on_of_nodup_map ho.nodup hx hmem hxe] at hxs
      exact hnew hxs

theorem Carries.settled (hc : Carries s h content) (hh : t.header = s.header)
    (hzero : ∀ p ∈ h.newIds, pageAt t p = List.replicate s.header.pageSize 0)
    (hp : ∀ p ∈ h.ids, p ∉ h.newIds → pageAt t p = pageAt s p) (ho : Owns s h) : Carries t h.settled content := by
  apply hc.reshow hh
  · refine ⟨rfl, rfl, rfl, fun hnil => ?_⟩
    rw [FileHandle.settled, FileHandle.setPages]
    dsimp only
    rw [hnil, List.map_nil]
  · exact fun _ hs => hs.settled hzero hp ho

theorem Carries.nextVersion (hc : Carries s h content) (p : ℕ) : Carries s (h.nextVersion p) content := by
  apply hc.reshow rfl
  · refine ⟨rfl, rfl, rfl, fun hnil => ?_⟩
    rw [FileHandle.nextVersion, FileHandle.stripDeleted, FileHandle.setPages]
    dsimp only
    rw [hnil, List.filter_nil]
  · exact fun _ hs => hs.stripDeleted

theorem clean_new {m : DataPage} (hm : m ∈ h.clean.inode.dataPages) : m.state ≠ .new := by
  obtain ⟨x, -, rfl⟩ := List.mem_map.mp hm
  exact x.settled_state

end Shown

section Saved

variable [Config] {s t : Fs} {h h' k : FileHandle} {live : List FileHandle} {content : List UInt8} {i : ℕ}

-- opening the record at page i gives these bytes
structure SavedAt (s : Fs) (i : ℕ) (content : List UInt8) : Prop where
  valid : Valid s i
  carries : Carries s (openedAt s i) content

-- the record at page i and its pages are as they were
structure SparedAt (s t : Fs) (i : ℕ) : Prop where
  header : t.header = s.header
  record : pageAt t i = pageAt s i
  pages : Valid s i → ∀ p ∈ listed s i, pageAt t p = pageAt s p

theorem SparedAt.valid (e : SparedAt s t i) : Valid t i ↔ Valid s i := valid_congr e.header e.record

theorem FlashSound.openedAt_sublist (hf : FlashSound s) (hps : 0 < s.header.pageSize) (hi : Valid s i) :
    (openedAt s i).ids.Sublist (listed s i) := by
  obtain ⟨inode, hst, hn⟩ := hf.stored i hi
  have hlist := hst.listed hn
  rw [openedAt, hst.decode hn true, hlist]
  apply decoded_ids_sublist hps
  intro p hp
  have hin := (hf.region i hi p (by rw [hlist]; exact hp)).2
  unfold InRange at hin
  omega

theorem SavedAt.spared (hs : SavedAt s i content) (hf : FlashSound s) (hps : 0 < s.header.pageSize) (e : SparedAt s t i) :
    SavedAt t i content where
  valid := e.valid.mpr hs.valid
  carries := by
    rw [openedAt_congr e.header e.record]
    apply hs.carries.spared e.header
    exact fun p hp => e.pages hs.valid p ((hf.openedAt_sublist hps hs.valid).mem hp)

-- new pages are not in the record
def Unrecorded (s : Fs) (h : FileHandle) : Prop := Valid s h.page → ∀ p ∈ h.newIds, p ∉ listed s h.page

omit [Config] in
theorem Sound.dataEffect_page {p : ℕ} (e : DataEffect s h t h') (hin : InRange s p) (hf : p ∉ s.freeDataPages)
    (hn : p ∉ h.newIds) : pageAt t p = pageAt s p := by
  apply e.within.pages p hin
  rintro (hp | hp)
  · exact hf hp
  · exact hn hp

theorem Sound.dataEffect_record (hs : Sound s (h :: live)) (e : DataEffect s h t h') (hi : i < s.header.maxInodes) :
    pageAt t i = pageAt s i := (e.sameInodes hs.ready hs.head.toOwns).pages i hi

theorem Sound.dataEffect_spared (hs : Sound s (h :: live)) (hu : Unrecorded s h) (e : DataEffect s h t h')
    (hi : i < s.header.maxInodes) : SparedAt s t i where
  header := e.within.header
  record := hs.dataEffect_record e hi
  pages hv p hp := by
    apply Sound.dataEffect_page e (hs.flash.region i hv p hp).2 (hs.notFree i hv p hp)
    intro hn
    by_cases hpage : i = h.page
    · subst hpage
      exact hu hv p hn hp
    · exact hs.head.apart i hv hpage p (FileHandle.mem_ids_of_newIds hn) hp

theorem Sound.dataEffect_unrecorded (hs : Sound s (h :: live)) (hu : Unrecorded s h) (e : DataEffect s h t h') :
    Unrecorded t h' := by
  have hsame := e.sameInodes hs.ready hs.head.toOwns
  intro hv p hp
  rw [e.same.page] at hv ⊢
  rw [hsame.listed hs.head.page]
  have hv := hsame.valid.mp hv
  rcases e.newIds p hp with hp | hp
  · exact fun hl => hs.notFree _ hv p hl hp
  · exact hu hv p hp

theorem Sound.dataEffect_other (hs : Sound s (h :: live)) (e : DataEffect s h t h') (hk : k ∈ live) :
    ∀ p ∈ k.ids, pageAt t p = pageAt s p := by
  intro p hp
  have hlk := hs.handles k (List.mem_cons_of_mem _ hk)
  apply Sound.dataEffect_page e (hlk.region p hp).2 (hlk.notFree p hp)
  intro hn
  exact ((List.pairwise_cons.mp hs.live_apart).1 k hk).2 p (FileHandle.mem_ids_of_newIds hn) hp

-- what a flush does to the flash, but for the page and the pages of the file itself
structure FlushSpares (s : Fs) (h : FileHandle) (t : Fs) : Prop where
  header : t.header = s.header
  inodes : ∀ i < s.header.maxInodes, i ≠ h.page → Valid s i ∨ i ∈ s.allocatedUnwrittenPages → pageAt t i = pageAt s i
  data : ∀ p, DataRegion s p → p ∉ h.ids → pageAt t p = pageAt s p

theorem FlushSpares.of_pageAt (hh : t.header = s.header) (hp : ∀ i, pageAt t i = pageAt s i) : FlushSpares s h t :=
  ⟨hh, fun i _ _ _ => hp i, fun p _ _ => hp p⟩

omit [Config] in
theorem nextVersion_newIds {p q : ℕ} (hq : q ∈ (h.nextVersion p).newIds) : q ∈ h.newIds := by
  obtain ⟨m, hm, hst, rfl⟩ := (FileHandle.mem_newIds_iff (List.Perm.refl _)).mp hq
  exact FileHandle.mem_newIds (List.mem_of_mem_filter hm) hst

-- the first record of a new file
theorem Committed.recorded_numbered {n : ℕ} (hc : Committed { s with maxInodeNumber := n } (h.numbered n) t) (hr : Ready s)
    (ho : Owns s h) (hp : h.page < s.header.maxInodes) : Recorded { s with maxInodeNumber := n } (h.numbered n) t :=
  hc.recorded (ready_maxInodeNumber hr n) ⟨ho.nodup, ho.region, ho.notFree⟩ hp

theorem LiveHandle.recorded (hl : LiveHandle s h) (hr : Ready s) {n : ℕ}
    (hc : Committed { s with maxInodeNumber := n } (h.numbered n) t) :
    Recorded { s with maxInodeNumber := n } (h.numbered n) t :=
  hc.recorded_numbered hr hl.toOwns hl.page

theorem Sound.flushSpares {r : Bool × FileHandle} (hs : Sound s (h :: live)) (hv : s.variant ≠ .noDel)
    (hf : Flushed s h t r) : FlushSpares s h t := by
  have hl := hs.head
  cases hf with
  | unmodified => exact .of_pageAt rfl fun _ => rfl
  | full hm hn t ht => exact .of_pageAt (by rw [ht.rest]) fun i => by rw [ht.rest]; rfl
  | first hm hn t hc =>
    have hrec := hl.recorded hs.ready hc
    refine ⟨hrec.header, fun i hi hne _ => hrec.inodes i hi hne, fun p hp hno => ?_⟩
    exact hrec.data p hp.2 hp.1 fun hn => hno (FileHandle.mem_ids_of_newIds hn)
  | next hm hn p u w t hu hc he =>
    rw [if_neg hv] at he
    obtain ⟨l, hplan, hl'⟩ := he
    have hmoved := hl.moved hs.ready hu hc hplan hl'
    refine ⟨hmoved.header, fun i hi hne hheld => hmoved.inodes i hi hne ?_, fun q hq hno => ?_⟩
    · rintro rfl
      exact hheld.elim hmoved.claimable.2.1 hmoved.claimable.2.2
    · apply hmoved.data q hq
      · exact fun hn => hno (FileHandle.mem_ids_of_newIds (nextVersion_newIds hn))
      · exact fun hq => absurd hq hno

theorem Sound.flushSpares_spared (hs : Sound s (h :: live)) (e : FlushSpares s h t) (hi : i < s.header.maxInodes)
    (hne : i ≠ h.page) (hheld : Valid s i ∨ i ∈ s.allocatedUnwrittenPages) : SparedAt s t i where
  header := e.header
  record := e.inodes i hi hne hheld
  pages hv p hp := e.data p (hs.flash.region i hv p hp) fun hq => hs.head.apart i hv hne p hq hp

theorem Sound.flushSpares_other (hs : Sound s (h :: live)) (e : FlushSpares s h t) (hk : k ∈ live) :
    ∀ p ∈ k.ids, pageAt t p = pageAt s p := by
  intro p hp
  have hlk := hs.handles k (List.mem_cons_of_mem _ hk)
  apply e.data p (hlk.region p hp)
  exact fun hq => ((List.pairwise_cons.mp hs.live_apart).1 k hk).2 p hq hp

theorem LiveHandle.moved_zeros {u v : Fs} {p : ℕ} {l : List ℕ} (hl : LiveHandle s h) (hr : Ready s)
    (hu : TakesInode s u (some p)) (hc : Committed u (h.nextVersion p) v) (hplan : ErasePlan h (h.nextVersion p) l)
    (he : Erased v t l) : ∀ q ∈ (h.nextVersion p).newIds, pageAt t q = List.replicate s.header.pageSize 0 := by
  intro q hq
  have huh : u.header = s.header := by rw [hu.rest]
  have hrec := hc.recorded (hu.ready hr) (hu.owns (p := p) hl.toOwns) (by rw [huh]; exact (hu.claimable p rfl).1)
  have hmem : q ∈ (h.nextVersion p).ids := FileHandle.mem_ids_of_newIds hq
  have hreg := hl.region q ((nextVersion_ids h p).mem hmem)
  have hin : InRange v q := by
    rw [InRange, hrec.header, huh]
    exact hreg.2
  rw [he.within.pages q hin, hrec.zeros q hq, huh]
  intro hql
  rcases (hplan.mem_iff q).mp hql with rfl | hq
  · have hpage := hl.page
    have hge := hreg.1
    omega
  · exact hq.2 hmem

-- the record that a flush leaves behind
theorem SavedAt.of_stores {n : Inode} (hs : Sound t (k :: live)) (hp : k.page = i) (hst : Stores t i n) (hc : Carries t k content)
    (e : RecordOf n k) (hnew : ∀ m ∈ k.inode.dataPages, m.state ≠ .new) : SavedAt t i content where
  valid := ⟨hp ▸ hs.head.page, hst.checksumOk⟩
  carries := by
    have hname : n.fileNameLen < 2 ^ 16 := by
      rw [e.nameLen]
      exact hs.head.name
    rw [openedAt, hst.decode hname true]
    exact (hc.decoded hs.ready hs.head.toOwns e hnew).of_inode rfl

omit [Config] in
theorem Carries.clean (hc : Carries s h content) (hh : t.header = s.header)
    (hzero : ∀ p ∈ h.newIds, pageAt t p = List.replicate s.header.pageSize 0)
    (hp : ∀ p ∈ h.ids, p ∉ h.newIds → pageAt t p = pageAt s p) (ho : Owns s h) : Carries t h.clean content :=
  (hc.settled hh hzero hp ho).of_inode rfl

-- the first flush of a file
theorem Recorded.carries_numbered {n : ℕ} (e : Recorded { s with maxInodeNumber := n } (h.numbered n) t) (ho : Owns s h)
    (hc : Carries s h content) : Carries t (h.numbered n).clean content := by
  have hnumbered : Carries s (h.numbered n) content := hc.reshow rfl ⟨rfl, rfl, rfl, id⟩ fun _ hs => hs
  apply hnumbered.clean e.header e.zeros _ ⟨ho.nodup, ho.region, ho.notFree⟩
  exact fun p hp hnew => e.data p (ho.region p hp).2 (ho.region p hp).1 hnew

-- a flush keeps the bytes of the file, and records them if there is something to record
theorem Sound.flushed_carries {r : Bool × FileHandle} (hs : Sound s (h :: live)) (hv : s.variant ≠ .noDel)
    (hc : Carries s h content) (hf : Flushed s h t r) :
    Carries t r.2 content ∧ (r.1 = true → h.modified = true → SavedAt t r.2.page content) := by
  have hl := hs.head
  have hsound := hs.flushed hv hf
  cases hf with
  | unmodified hm => exact ⟨hc, fun _ hm' => absurd hm' (by simp [hm])⟩
  | full hm hn t ht =>
    refine ⟨hc.spared (by rw [ht.rest]) fun p _ => ?_, fun hfalse => absurd hfalse (by simp)⟩
    rw [ht.rest]
    rfl
  | first hm hn t hcm =>
    have hrec := hl.recorded hs.ready hcm
    have hcar := hrec.carries_numbered hl.toOwns hc
    exact ⟨hcar, fun _ _ => .of_stores hsound rfl hrec.stores hcar ⟨rfl, rfl, rfl, (clean_ids _).symm⟩ fun _ => clean_new⟩
  | next hm hn p u w t hu hcm he =>
    rw [if_neg hv] at he
    obtain ⟨l, hplan, hl'⟩ := he
    have hmoved := hl.moved hs.ready hu hcm hplan hl'
    have hcar : Carries t (h.nextVersion p).clean content := by
      apply (hc.nextVersion p).clean hmoved.header (hl.moved_zeros hs.ready hu hcm hplan hl')
      · intro q hq hnew
        exact hmoved.data q (hl.region q ((nextVersion_ids h p).mem hq)) hnew fun _ => hq
      · exact ⟨hl.nodup.sublist (nextVersion_ids h p), fun q hq => hl.region q ((nextVersion_ids h p).mem hq),
          fun q hq => hl.notFree q ((nextVersion_ids h p).mem hq)⟩
    exact ⟨hcar, fun _ _ => .of_stores hsound rfl hmoved.stores hcar ⟨rfl, rfl, rfl, (clean_ids _).symm⟩ fun _ => clean_new⟩

end Saved

end SimpleFlashFs
