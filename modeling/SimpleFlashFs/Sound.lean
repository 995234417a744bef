import SimpleFlashFs.Commit

namespace SimpleFlashFs

open Lib

section Listed

variable [Config] {s t : Fs} {h : FileHandle} {i : ℕ} {inode : Inode}

-- the pages that the record at page i lists
def listed (s : Fs) (i : ℕ) : List ℕ :=
  match decodeInode s.header (pageAt s i) false with
  | .ok h => h.ids
  | .error _ => []

omit [Config] in
theorem recordedIds_eq {h : FileHandle} (hlt : ∀ p ∈ h.ids, p < 2 ^ 32) : h.inode.recordedIds = h.ids := by
  refine List.map_congr_left fun m hm => Nat.mod_eq_of_lt (hlt m.pageId (List.mem_map_of_mem hm))

omit [Config] in
theorem storedPages_ids (ids : List ℕ) : (storedPages ids).map DataPage.pageId = ids := by
  rw [storedPages, List.map_map]
  exact List.map_id ids

omit [Config] in
theorem decoded_raw_ids (hd : Header) (inode : Inode) :
    (inode.decoded hd false).ids = inode.recordedIds := by
  unfold Inode.decoded
  dsimp only
  split
  · rw [FileHandle.ids, correctPages_raw]
    exact storedPages_ids _
  · next hne =>
    have h0 : inode.dataPages = [] := by simpa using hne
    have hr : inode.recordedIds = [] := by rw [Inode.recordedIds, h0]; rfl
    rw [hr]
    split
    · split <;> rfl
    · rfl

theorem Stores.decode (hs : Stores s i inode) (hn : inode.fileNameLen < 2 ^ 16) (corr : Bool) :
    decodeInode s.header (pageAt s i) corr = .ok (inode.decoded s.header corr) := by
  obtain ⟨img, hi, hp⟩ := hs
  rw [hp]
  exact hi.decodeInode_eq hn corr

theorem Stores.listed (hs : Stores s i inode) (hn : inode.fileNameLen < 2 ^ 16) :
    listed s i = inode.recordedIds := by
  simp only [SimpleFlashFs.listed, hs.decode hn, decoded_raw_ids]

theorem Stores.checksumOk (hs : Stores s i inode) :
    checksumOk s.header.endianness (pageAt s i) = true := by
  obtain ⟨img, hi, hp⟩ := hs
  have h1 := hi.length
  have h2 := hi.fits
  rw [hp]
  exact checksumOk_addPageChecksum _ (by omega)

-- the inode pages are the same
structure SameInodes (s t : Fs) : Prop where
  header : t.header = s.header
  pages : ∀ i < s.header.maxInodes, pageAt t i = pageAt s i

theorem SameInodes.valid (e : SameInodes s t) : Valid t i ↔ Valid s i := by
  unfold Valid
  rw [e.header]
  exact and_congr_right fun hi => by rw [e.pages i hi]

omit [Config] in
theorem SameInodes.listed (e : SameInodes s t) (hi : i < s.header.maxInodes) :
    listed t i = listed s i := by
  rw [SimpleFlashFs.listed, SimpleFlashFs.listed, e.header, e.pages i hi]

theorem SameInodes.stores (e : SameInodes s t) (hi : i < s.header.maxInodes) (hs : Stores s i inode) :
    Stores t i inode := by
  obtain ⟨img, h1, h2⟩ := hs
  exact ⟨img, by rw [e.header]; exact h1, by rw [e.pages i hi, h2, e.header]⟩

omit [Config] in
theorem listed_congr (hh : t.header = s.header) (hp : pageAt t i = pageAt s i) : listed t i = listed s i := by
  rw [SimpleFlashFs.listed, SimpleFlashFs.listed, hh, hp]

theorem valid_congr (hh : t.header = s.header) (hp : pageAt t i = pageAt s i) : Valid t i ↔ Valid s i := by
  rw [Valid, Valid, hh, hp]

theorem stores_congr (hh : t.header = s.header) (hp : pageAt t i = pageAt s i) (hs : Stores s i inode) :
    Stores t i inode := by
  obtain ⟨img, h1, h2⟩ := hs
  exact ⟨img, by rw [hh]; exact h1, by rw [hp, h2, hh]⟩

end Listed

section Sound

variable [Config]

-- the records on flash: every valid inode page was written by flush, and no page is listed twice
structure FlashSound (s : Fs) : Prop where
  stored : ∀ i, Valid s i → ∃ inode, Stores s i inode ∧ inode.fileNameLen < 2 ^ 16
  region : ∀ i, Valid s i → ∀ p ∈ listed s i, DataRegion s p
  nodup : ∀ i, Valid s i → (listed s i).Nodup
  apart : ∀ i j, Valid s i → Valid s j → i ≠ j → ∀ p ∈ listed s i, p ∉ listed s j

structure LiveHandle (s : Fs) (h : FileHandle) : Prop extends Owns s h where
  page : h.page < s.header.maxInodes
  name : h.inode.fileNameLen < 2 ^ 16
  held : Valid s h.page ∨ h.page ∈ s.allocatedUnwrittenPages
  apart : ∀ i, Valid s i → i ≠ h.page → ∀ p ∈ h.ids, p ∉ listed s i

def Apart (h k : FileHandle) : Prop := h.page ≠ k.page ∧ ∀ p ∈ h.ids, p ∉ k.ids

structure Sound (s : Fs) (live : List FileHandle) : Prop where
  ready : Ready s
  erased : checksumOk s.header.endianness (List.replicate s.header.pageSize 0xFF) = false
  flash : FlashSound s
  notFree : ∀ i, Valid s i → ∀ p ∈ listed s i, p ∉ s.freeDataPages
  handles : ∀ h ∈ live, LiveHandle s h
  live_apart : live.Pairwise Apart

variable {s t : Fs} {h h' : FileHandle} {live : List FileHandle}

theorem Sound.tail (hs : Sound s (h :: live)) : Sound s live :=
  { hs with
    handles := fun k hk => hs.handles k (List.mem_cons_of_mem _ hk)
    live_apart := (List.pairwise_cons.mp hs.live_apart).2 }

theorem Sound.head (hs : Sound s (h :: live)) : LiveHandle s h := hs.handles h (List.mem_cons_self ..)

-- another handle for the same record, with no page that the first did not have
theorem Sound.replaced {k : FileHandle} (hs : Sound s (h :: live)) (hp : k.page = h.page) (hids : k.ids.Sublist h.ids)
    (hname : k.inode.fileNameLen < 2 ^ 16) : Sound s (k :: live) := by
  have hl := hs.head
  have hpair := List.pairwise_cons.mp hs.live_apart
  have hk : LiveHandle s k := by
    constructor
    · exact ⟨hl.nodup.sublist hids, fun p hp => hl.region p (hids.subset hp), fun p hp => hl.notFree p (hids.subset hp)⟩
    · rw [hp]
      exact hl.page
    · exact hname
    · rw [hp]
      exact hl.held
    · intro i hi hne p hpk
      rw [hp] at hne
      exact hl.apart i hi hne p (hids.subset hpk)
  refine { hs with handles := ?_, live_apart := List.pairwise_cons.mpr ⟨?_, hpair.2⟩ }
  · intro g hg
    rcases List.mem_cons.mp hg with rfl | hg
    · exact hk
    · exact hs.handles g (List.mem_cons_of_mem _ hg)
  · intro g hg
    obtain ⟨hpage, hapart⟩ := hpair.1 g hg
    rw [Apart, hp]
    exact ⟨hpage, fun p hpk => hapart p (hids.subset hpk)⟩

theorem Sound.perm {live' : List FileHandle} (hs : Sound s live) (hp : live.Perm live') : Sound s live' :=
  { hs with
    handles := fun k hk => hs.handles k (hp.mem_iff.mpr hk)
    live_apart := (hp.pairwise_iff fun hxy => ⟨hxy.1.symm, fun p hp hq => hxy.2 p hq hp⟩).mp hs.live_apart }

omit [Config] in
theorem Owns.of_step {k : FileHandle} (hh : t.header = s.header)
    (hf : ∀ p ∈ k.ids, p ∈ t.freeDataPages → p ∈ s.freeDataPages) (ho : Owns s k) : Owns t k where
  nodup := ho.nodup
  region p hp := by
    rw [DataRegion, InRange, hh]
    exact ho.region p hp
  notFree p hp hp' := ho.notFree p hp (hf p hp hp')

theorem FlashSound.fewer (hs : FlashSound s) (hh : t.header = s.header) (hp : ∀ i, Valid t i → Valid s i ∧ pageAt t i = pageAt s i) :
    FlashSound t where
  stored i hi := by
    obtain ⟨hv, hpage⟩ := hp i hi
    obtain ⟨n, hst, hn⟩ := hs.stored i hv
    exact ⟨n, stores_congr hh hpage hst, hn⟩
  region i hi p hl := by
    obtain ⟨hv, hpage⟩ := hp i hi
    rw [listed_congr hh hpage] at hl
    rw [DataRegion, InRange, hh]
    exact hs.region i hv p hl
  nodup i hi := by
    obtain ⟨hv, hpage⟩ := hp i hi
    rw [listed_congr hh hpage]
    exact hs.nodup i hv
  apart i j hi hj hne := by
    obtain ⟨hvi, hpi⟩ := hp i hi
    obtain ⟨hvj, hpj⟩ := hp j hj
    rw [listed_congr hh hpi, listed_congr hh hpj]
    exact hs.apart i j hvi hvj hne

theorem FlashSound.of_same (e : SameInodes s t) (hs : FlashSound s) : FlashSound t := by
  apply hs.fewer e.header
  intro i hi
  have hi := e.valid.mp hi
  exact ⟨hi, e.pages i hi.1⟩

theorem LiveHandle.of_same (e : SameInodes s t) (hl : LiveHandle s h)
    (hf : ∀ p ∈ h.ids, p ∈ t.freeDataPages → p ∈ s.freeDataPages)
    (hheld : h.page ∈ s.allocatedUnwrittenPages → Valid s h.page ∨ h.page ∈ t.allocatedUnwrittenPages) :
    LiveHandle t h where
  toOwns := hl.toOwns.of_step e.header hf
  page := by rw [e.header]; exact hl.page
  name := hl.name
  held := by
    rw [e.valid]
    exact hl.held.elim Or.inl hheld
  apart i hi hne p hp := by
    have hi' := e.valid.mp hi
    rw [e.listed hi'.1]
    exact hl.apart i hi' hne p hp

omit [Config] in
theorem DataEffect.sameInodes (e : DataEffect s h t h') (hr : Ready s) (ho : Owns s h) : SameInodes s t where
  header := e.within.header
  pages i hi := e.within.pages i (hr.layout.lt_inRange hi) (by
    rintro (hp | hp)
    · have := (hr.free i hp).1
      omega
    · have := (ho.region i (FileHandle.mem_ids_of_newIds hp)).1
      omega)

theorem Sound.dataEffect (hs : Sound s (h :: live)) (e : DataEffect s h t h') : Sound t (h' :: live) := by
  have hl := hs.head
  have hsame := e.sameInodes hs.ready hl.toOwns
  have halloc : t.allocatedUnwrittenPages = s.allocatedUnwrittenPages := by rw [e.rest]
  have hpair := List.pairwise_cons.mp hs.live_apart
  constructor
  · exact e.ready hs.ready
  · rw [e.within.header]
    exact hs.erased
  · exact hs.flash.of_same hsame
  · intro i hi p hp hf
    have hi' := hsame.valid.mp hi
    rw [hsame.listed hi'.1] at hp
    exact hs.notFree i hi' p hp (e.free p hf)
  · intro k hk
    rcases List.mem_cons.mp hk with rfl | hk
    · refine ⟨e.owns hs.ready hl.toOwns, ?_, ?_, ?_, fun i hi hne p hp => ?_⟩
      · rw [e.same.page, e.within.header]
        exact hl.page
      · rw [e.same.fileNameLen]
        exact hl.name
      · rw [e.same.page, hsame.valid, halloc]
        exact hl.held
      · have hi' := hsame.valid.mp hi
        rw [hsame.listed hi'.1]
        rw [e.same.page] at hne
        rcases e.ids p hp with hp | hp
        · exact hl.apart i hi' hne p hp
        · exact fun hq => hs.notFree i hi' p hq hp
    · have hlk := hs.handles k (List.mem_cons_of_mem _ hk)
      exact hlk.of_same hsame (fun p _ hp => e.free p hp) (by rw [halloc]; exact Or.inr)
  · refine List.pairwise_cons.mpr ⟨fun k hk => ⟨?_, fun p hp hpk => ?_⟩, hpair.2⟩
    · rw [e.same.page]
      exact (hpair.1 k hk).1
    · rcases e.ids p hp with hp | hp
      · exact (hpair.1 k hk).2 p hp hpk
      · exact (hs.handles k (List.mem_cons_of_mem _ hk)).notFree p hpk hp

-- the record of a live handle moves to page h'.page, with fewer pages
structure Replaces (s t : Fs) (h h' : FileHandle) (inode : Inode) : Prop where
  header : t.header = s.header
  stores : Stores t h'.page inode
  inodeIds : inode.dataPages.map DataPage.pageId = h'.ids
  nameLen : inode.fileNameLen = h.inode.fileNameLen
  handleName : h'.inode.fileNameLen = h.inode.fileNameLen
  page : h'.page < s.header.maxInodes
  ids : h'.ids.Sublist h.ids
  free : ∀ p ∈ t.freeDataPages, p ∈ s.freeDataPages ∨ p ∈ h.ids ∧ p ∉ h'.ids
  others : ∀ i, Valid t i → i ≠ h'.page → i ≠ h.page ∧ Valid s i ∧ pageAt t i = pageAt s i

theorem Replaces.listed {inode : Inode} (e : Replaces s t h h' inode) (hs : Sound s (h :: live)) :
    listed t h'.page = h'.ids := by
  have hl := hs.head
  rw [e.stores.listed (by rw [e.nameLen]; exact hl.name), Inode.recordedIds]
  rw [show (fun m : DataPage => m.pageId % 2 ^ 32) = (· % 2 ^ 32) ∘ DataPage.pageId from rfl,
    ← List.map_map, e.inodeIds]
  conv_rhs => rw [← List.map_id h'.ids]
  refine List.map_congr_left fun p hp => Nat.mod_eq_of_lt ?_
  have h1 := hs.ready.layout.lt_noData (hl.region p (e.ids.mem hp)).2
  unfold noData at h1
  omega

theorem Sound.replaces {n : Inode} (hs : Sound s (h :: live)) (hr : Ready t)
    (e : Replaces s t h h' n)
    (hlive : ∀ k ∈ live, k.page ≠ h'.page ∧
      (Valid s k.page → Valid t k.page) ∧ (k.page ∈ s.allocatedUnwrittenPages →
        Valid t k.page ∨ k.page ∈ t.allocatedUnwrittenPages)) : Sound t (h' :: live) := by
  have hl := hs.head
  have hlist := e.listed hs
  have hpair := List.pairwise_cons.mp hs.live_apart
  have hregion : ∀ p, DataRegion s p → DataRegion t p := by
    intro p hp
    rw [DataRegion, InRange, e.header]
    exact hp
  have hvalid : Valid t h'.page := ⟨by rw [e.header]; exact e.page, e.stores.checksumOk⟩
  have hother : ∀ i, Valid t i → i ≠ h'.page → i ≠ h.page ∧ Valid s i ∧ SimpleFlashFs.listed t i =
      SimpleFlashFs.listed s i := by
    intro i hi hne
    obtain ⟨h1, h2, h3⟩ := e.others i hi hne
    exact ⟨h1, h2, listed_congr e.header h3⟩
  constructor
  · exact hr
  · rw [e.header]
    exact hs.erased
  · constructor
    · intro i hi
      by_cases hp : i = h'.page
      · exact ⟨n, hp ▸ e.stores, by rw [e.nameLen]; exact hl.name⟩
      · obtain ⟨-, h2, h3⟩ := e.others i hi hp
        obtain ⟨inode', h4, h5⟩ := hs.flash.stored i h2
        exact ⟨inode', stores_congr e.header h3 h4, h5⟩
    · intro i hi p hp
      by_cases he : i = h'.page
      · rw [he, hlist] at hp
        exact hregion p (hl.region p (e.ids.mem hp))
      · obtain ⟨-, h2, h3⟩ := hother i hi he
        exact hregion p (hs.flash.region i h2 p (h3 ▸ hp))
    · intro i hi
      by_cases he : i = h'.page
      · rw [he, hlist]
        exact hl.nodup.sublist e.ids
      · obtain ⟨-, h2, h3⟩ := hother i hi he
        rw [h3]
        exact hs.flash.nodup i h2
    · intro i j hi hj hne p hp
      by_cases he : i = h'.page
      · by_cases he' : j = h'.page
        · exact absurd (he.trans he'.symm) hne
        · obtain ⟨h1, h2, h3⟩ := hother j hj he'
          rw [he, hlist] at hp
          rw [h3]
          exact hl.apart j h2 h1 p (e.ids.mem hp)
      · obtain ⟨h1, h2, h3⟩ := hother i hi he
        rw [h3] at hp
        by_cases he' : j = h'.page
        · rw [he', hlist]
          exact fun hp' => hl.apart i h2 h1 p (e.ids.mem hp') hp
        · obtain ⟨-, h5, h6⟩ := hother j hj he'
          rw [h6]
          exact hs.flash.apart i j h2 h5 hne p hp
  · intro i hi p hp hf
    by_cases he : i = h'.page
    · rw [he, hlist] at hp
      rcases e.free p hf with hf | ⟨-, hf⟩
      · exact hl.notFree p (e.ids.mem hp) hf
      · exact hf hp
    · obtain ⟨h1, h2, h3⟩ := hother i hi he
      rw [h3] at hp
      rcases e.free p hf with hf | ⟨hf, -⟩
      · exact hs.notFree i h2 p hp hf
      · exact hl.apart i h2 h1 p hf hp
  · intro k hk
    rcases List.mem_cons.mp hk with rfl | hk
    · refine ⟨⟨hl.nodup.sublist e.ids, fun p hp => hregion p (hl.region p (e.ids.mem hp)), ?_⟩,
        by rw [e.header]; exact e.page, by rw [e.handleName]; exact hl.name, Or.inl hvalid, ?_⟩
      · intro p hp hf
        rcases e.free p hf with hf | ⟨-, hf⟩
        · exact hl.notFree p (e.ids.mem hp) hf
        · exact hf hp
      · intro i hi hne p hp
        obtain ⟨h1, h2, h3⟩ := hother i hi hne
        rw [h3]
        exact hl.apart i h2 h1 p (e.ids.mem hp)
    · have hlk := hs.handles k (List.mem_cons_of_mem _ hk)
      obtain ⟨hne, hv, hheld⟩ := hlive k hk
      refine ⟨⟨hlk.nodup, fun p hp => hregion p (hlk.region p hp), ?_⟩, by rw [e.header]; exact hlk.page,
        hlk.name, hlk.held.elim (fun h => Or.inl (hv h)) hheld, ?_⟩
      · intro p hp hf
        rcases e.free p hf with hf | ⟨hf, -⟩
        · exact hlk.notFree p hp hf
        · exact (hpair.1 k hk).2 p hf hp
      · intro i hi hne' p hp
        by_cases he : i = h'.page
        · rw [he, hlist]
          exact fun hp' => (hpair.1 k hk).2 p (e.ids.mem hp') hp
        · obtain ⟨h1, h2, h3⟩ := hother i hi he
          rw [h3]
          exact hlk.apart i h2 hne' p hp
  · refine List.pairwise_cons.mpr ⟨fun k hk => ⟨(hlive k hk).1.symm, fun p hp => ?_⟩, hpair.2⟩
    exact (hpair.1 k hk).2 p (e.ids.mem hp)

omit [Config] in
@[simp] theorem clean_ids (h : FileHandle) : h.clean.ids = h.ids := h.settled_ids

structure Recorded (s : Fs) (h : FileHandle) (t : Fs) : Prop where
  header : t.header = s.header
  rest : t = { s with mem := t.mem }
  stores : Stores t h.page h.inode
  inodes : ∀ i < s.header.maxInodes, i ≠ h.page → pageAt t i = pageAt s i
  zeros : ∀ p ∈ h.newIds, pageAt t p = List.replicate s.header.pageSize 0
  data : ∀ i, InRange s i → s.header.maxInodes ≤ i → i ∉ h.newIds → pageAt t i = pageAt s i

theorem Committed.recorded (hr : Ready s) (ho : Owns s h) (hp : h.page < s.header.maxInodes)
    (hc : Committed s h t) : Recorded s h t := by
  obtain ⟨u, img, hi, hz, he, ht⟩ := hc
  have hu : u.header = s.header := he.within.header
  have hsame := he.sameInodes hr ho
  have hin : ∀ {i}, InRange s i → InRange u i := fun h => he.within.inRange.mpr h
  constructor
  · rw [ht.header, hu]
  · rw [ht.rest, hz.rest]
  · exact ⟨img, by rw [ht.header, hu]; exact hi, by rw [ht.page, ht.header]; rfl⟩
  · intro i hi hne
    rw [ht.others i hne (hin (hr.layout.lt_inRange hi)), hsame.pages i hi]
  · intro p hpn
    have hreg := ho.region p (FileHandle.mem_ids_of_newIds hpn)
    rw [ht.others p (by have := hreg.1; omega) (hin hreg.2), hz.zeros p hpn]
  · intro i hir hge hn
    rw [ht.others i (by omega) (hin hir), hz.others i hir hn]

-- what moving a handle to page p leaves: the new record, the old page erased, and the data pages that are
-- no longer listed erased and given back
structure Moved (s : Fs) (h : FileHandle) (p : ℕ) (t : Fs) : Prop where
  header : t.header = s.header
  length : t.mem.bytes.length = s.mem.bytes.length
  headerPage : headerPage t = headerPage s
  claimable : Claimable s p
  stores : Stores t p (h.nextVersion p).inode
  inodes : ∀ i < s.header.maxInodes, i ≠ h.page → i ≠ p → pageAt t i = pageAt s i
  erased : ∀ q, q = h.page ∨ q ∈ h.ids ∧ q ∉ (h.nextVersion p).ids →
    pageAt t q = List.replicate s.header.pageSize 0xFF
  data : ∀ q, DataRegion s q → q ∉ (h.nextVersion p).newIds → (q ∈ h.ids → q ∈ (h.nextVersion p).ids) →
    pageAt t q = pageAt s q
  free : ∀ q, q ∈ t.freeDataPages ↔ q ∈ s.freeDataPages ∨
    (q ∈ h.ids ∧ q ∉ (h.nextVersion p).ids) ∧ q > s.header.maxInodes
  allocated : ∀ i < s.header.maxInodes, i ≠ h.page → i ∈ s.allocatedUnwrittenPages →
    i ∈ t.allocatedUnwrittenPages

theorem LiveHandle.moved {u v : Fs} {p : ℕ} {l : List ℕ} (hl : LiveHandle s h) (hr : Ready s)
    (hu : TakesInode s u (some p)) (hc : Committed u (h.nextVersion p) v)
    (hplan : ErasePlan h (h.nextVersion p) l) (he : Erased v t l) : Moved s h p t := by
  have hou := hu.owns (p := p) hl.toOwns
  have huh : u.header = s.header := by rw [hu.rest]
  have hclaim := hu.claimable p rfl
  obtain ⟨w, img, -, -, heff, hprog⟩ := id hc
  have hc := hc.recorded (hu.ready hr) hou (by rw [huh]; exact hclaim.1)
  have hne : p ≠ h.page := by
    rintro rfl
    exact hl.held.elim hclaim.2.1 hclaim.2.2
  have hvh : v.header = s.header := hc.header.trans huh
  have hpu : ∀ i, pageAt u i = pageAt s i := fun i => by rw [hu.rest]; rfl
  have hnotin : ∀ i < s.header.maxInodes, i ≠ h.page → i ∉ l := by
    intro i hi hne' hmem
    rcases (hplan.mem_iff i).mp hmem with rfl | ⟨hmem, -⟩
    · exact hne' rfl
    · have := (hl.region i hmem).1
      omega
  have hrange : ∀ {i}, i < s.header.maxInodes → InRange v i := by
    intro i hi
    rw [InRange, hvh]
    exact hr.layout.lt_inRange hi
  constructor
  · exact he.within.header.trans hvh
  · rw [he.within.length, hprog.length, heff.within.length, hu.rest]
  · rw [he.within.headerPage, hprog.headerPage, heff.within.headerPage, SimpleFlashFs.headerPage,
      SimpleFlashFs.headerPage, hu.rest]
  · exact hclaim
  · exact stores_congr he.within.header (he.within.pages p (hrange hclaim.1) (hnotin p hclaim.1 hne)) hc.stores
  · intro i hi hne1 hne2
    rw [he.within.pages i (hrange hi) (hnotin i hi hne1), hc.inodes i (by rw [huh]; exact hi) hne2, hpu]
  · intro q hq
    rw [he.erased q ((hplan.mem_iff q).mpr hq), hvh]
  · intro q hq hnew hkept
    have hql : q ∉ l := by
      intro hmem
      rcases (hplan.mem_iff q).mp hmem with rfl | ⟨h1, h2⟩
      · have h3 := hl.page
        have h4 := hq.1
        omega
      · exact h2 (hkept h1)
    have hqv : InRange v q := by
      rw [InRange, hvh]
      exact hq.2
    have hqu : InRange u q := by
      rw [InRange, huh]
      exact hq.2
    rw [he.within.pages q hqv hql, hc.data q hqu (by rw [huh]; exact hq.1) hnew, hpu]
  · intro q
    rw [he.free, hvh, hc.rest, hu.rest]
    constructor
    · rintro (hq | ⟨hq, hgt⟩)
      · exact Or.inl hq
      · rcases (hplan.mem_iff q).mp hq with rfl | hq
        · have := hl.page
          omega
        · exact Or.inr ⟨hq, hgt⟩
    · rintro (hq | ⟨hq, hgt⟩)
      · exact Or.inl hq
      · exact Or.inr ⟨(hplan.mem_iff q).mpr (Or.inr hq), hgt⟩
  · intro i hi hne' ha
    refine (he.allocated _).mpr ⟨?_, fun hmem => hnotin i hi hne' hmem.1⟩
    rw [hc.rest]
    exact (hu.mem_iff _).mpr (Or.inl ha)

theorem Sound.flushed {r : Bool × FileHandle} (hs : Sound s (h :: live)) (hv : s.variant ≠ .noDel)
    (hf : Flushed s h t r) : Sound t (r.2 :: live) := by
  have hl := hs.head
  have hpair := List.pairwise_cons.mp hs.live_apart
  have hready := hf.ready hs.ready hl.toOwns hl.page
  cases hf with
  | unmodified => exact hs
  | first hm hn t hc =>
    have ho : Owns { s with maxInodeNumber := (s.maxInodeNumber + 1) % 2 ^ 64 }
        (h.numbered ((s.maxInodeNumber + 1) % 2 ^ 64)) := ⟨hl.nodup, hl.region, hl.notFree⟩
    have hc := hc.recorded (ready_maxInodeNumber hs.ready _) ho hl.page
    have hrest := hc.rest
    refine hs.replaces (n := (h.numbered ((s.maxInodeNumber + 1) % 2 ^ 64)).inode) hready
      ⟨hc.header, hc.stores, ?_, rfl, rfl, hl.page, ?_, ?_, ?_⟩ ?_
    · exact (clean_ids _).symm
    · rw [clean_ids]
      exact List.Sublist.refl _
    · rw [hrest]
      exact fun p hp => Or.inl hp
    · intro i hi hne
      have hi' : i < s.header.maxInodes := by have := hi.1; rwa [hc.header] at this
      have hpg := hc.inodes i hi' hne
      exact ⟨hne, (valid_congr hc.header hpg).mp hi, hpg⟩
    · intro k hk
      have hne := (hpair.1 k hk).1
      have hlk := hs.handles k (List.mem_cons_of_mem _ hk)
      refine ⟨hne.symm, (valid_congr hc.header (hc.inodes _ hlk.page hne.symm)).mpr, ?_⟩
      rw [hrest]
      exact Or.inr
  | full hm hn t ht =>
    have hsame : SameInodes s t := ⟨by rw [ht.rest], fun i _ => by rw [ht.rest]; rfl⟩
    have hfree : t.freeDataPages = s.freeDataPages := by rw [ht.rest]
    refine ⟨hready, by rw [hsame.header]; exact hs.erased, hs.flash.of_same hsame, ?_, ?_, hs.live_apart⟩
    · intro i hi p hp
      have hi' := hsame.valid.mp hi
      rw [hsame.listed hi'.1] at hp
      rw [hfree]
      exact hs.notFree i hi' p hp
    · intro k hk
      refine (hs.handles k hk).of_same hsame (fun p _ hp => by rwa [hfree] at hp) fun ha => ?_
      exact Or.inr ((ht.mem_iff _).mpr (Or.inl ha))
  | next hm hn p u w t hu hc he =>
    rw [if_neg hv] at he
    obtain ⟨l, hplan, hl'⟩ := he
    have hm' := hl.moved hs.ready hu hc hplan hl'
    have hclaim := hm'.claimable
    have hinvalid : ¬ Valid t h.page := by
      rintro ⟨-, hcrc⟩
      rw [hm'.erased h.page (Or.inl rfl), hm'.header, hs.erased] at hcrc
      cases hcrc
    refine hs.replaces (n := (h.nextVersion p).inode) hready
      ⟨hm'.header, hm'.stores, ?_, rfl, rfl, hclaim.1, ?_, ?_, ?_⟩ ?_
    · exact (clean_ids _).symm
    · rw [clean_ids]
      exact nextVersion_ids h p
    · intro q hq
      rw [clean_ids]
      exact ((hm'.free q).mp hq).imp id And.left
    · intro i hi hne'
      have hi' : i < s.header.maxInodes := by have := hi.1; rwa [hm'.header] at this
      have hne2 : i ≠ h.page := fun e => hinvalid (e ▸ hi)
      have hpg := hm'.inodes i hi' hne2 hne'
      exact ⟨hne2, (valid_congr hm'.header hpg).mp hi, hpg⟩
    · intro k hk
      have hkh := (hpair.1 k hk).1
      have hlk := hs.handles k (List.mem_cons_of_mem _ hk)
      have hkp : k.page ≠ p := by
        rintro rfl
        exact hlk.held.elim hclaim.2.1 hclaim.2.2
      have hpg := hm'.inodes _ hlk.page hkh.symm hkp
      exact ⟨hkp, (valid_congr hm'.header hpg).mpr, fun ha => Or.inr (hm'.allocated _ hlk.page hkh.symm ha)⟩

omit [Config] in
theorem Released.sameInodes {l : List ℕ} (ht : Released s t l) : SameInodes s t :=
  ⟨by rw [ht.rest], fun i _ => by rw [ht.rest]; rfl⟩

theorem Sound.released {l : List ℕ} (hs : Sound s live) (ht : Released s t l)
    (hl : ∀ k ∈ live, k.page ∉ l) : Sound t live := by
  have hsame := ht.sameInodes
  have hfree : t.freeDataPages = s.freeDataPages := by rw [ht.rest]
  refine ⟨ht.ready hs.ready, by rw [hsame.header]; exact hs.erased, hs.flash.of_same hsame, ?_, ?_,
    hs.live_apart⟩
  · intro i hi p hp
    have hi' := hsame.valid.mp hi
    rw [hsame.listed hi'.1] at hp
    rw [hfree]
    exact hs.notFree i hi' p hp
  · intro k hk
    refine (hs.handles k hk).of_same hsame (fun p _ hp => by rwa [hfree] at hp) fun ha => ?_
    exact Or.inr ((ht.mem_iff _).mpr ⟨ha, hl k hk⟩)

theorem Sound.closed (hs : Sound s (h :: live)) (hv : s.variant ≠ .noDel) (hc : Closed s h t) :
    Sound t live := by
  unfold Closed at hc
  split at hc
  · obtain ⟨u, r, hf, ht⟩ := hc
    have hu := hs.flushed hv hf
    have hpair := List.pairwise_cons.mp hu.live_apart
    refine hu.tail.released ht fun k hk hmem => ?_
    have hlk := hu.handles k (List.mem_cons_of_mem _ hk)
    rcases List.mem_cons.mp hmem with hmem | hmem
    · exact (hpair.1 k hk).1 hmem.symm
    · have h1 := (hu.head.region _ hmem).1
      have h2 := hlk.page
      omega
  · rw [hc]
    exact hs.tail

-- fields that flushing and closing leave alone
structure Keeps (s t : Fs) : Prop where
  header : t.header = s.header
  variant : t.variant = s.variant
  ivStorage : t.ivStorage = s.ivStorage

omit [Config] in
theorem Keeps.trans {u : Fs} (a : Keeps s t) (b : Keeps t u) : Keeps s u :=
  ⟨b.header.trans a.header, b.variant.trans a.variant, b.ivStorage.trans a.ivStorage⟩

omit [Config] in
theorem Keeps.refl (s : Fs) : Keeps s s := ⟨rfl, rfl, rfl⟩

omit [Config] in
theorem DataEffect.keeps (e : DataEffect s h t h') : Keeps s t :=
  ⟨e.within.header, e.within.variant, by rw [e.rest]⟩

theorem Committed.keeps (hc : Committed s h t) : Keeps s t := by
  obtain ⟨u, img, -, -, he, ht⟩ := hc
  exact he.keeps.trans ⟨ht.header, by rw [ht.rest], by rw [ht.rest]⟩

theorem TakesInode.keeps {r : Option ℕ} (ht : TakesInode s t r) : Keeps s t :=
  ⟨by rw [ht.rest], by rw [ht.rest], by rw [ht.rest]⟩

theorem Flushed.keeps {r : Bool × FileHandle} (hf : Flushed s h t r) : Keeps s t := by
  cases hf with
  | unmodified => exact Keeps.refl s
  | first hm hn t hc => exact ⟨hc.keeps.header, hc.keeps.variant, hc.keeps.ivStorage⟩
  | full hm hn t ht => exact ht.keeps
  | next hm hn p u v t hu hc he =>
    have hv := hu.keeps.trans hc.keeps
    split at he
    · rw [he]
      exact hv
    · obtain ⟨l, -, hl⟩ := he
      exact hv.trans ⟨hl.within.header, hl.within.variant, by rw [hl.rest]⟩

theorem Closed.keeps (hc : Closed s h t) : Keeps s t := by
  unfold Closed at hc
  split at hc
  · obtain ⟨u, r, hf, ht⟩ := hc
    exact hf.keeps.trans ⟨by rw [ht.rest], by rw [ht.rest], by rw [ht.rest]⟩
  · rw [hc]
    exact Keeps.refl s

omit [Config] in
theorem decoded_connected (hd : Header) (corr : Bool) (inode : Inode) :
    (inode.decoded hd corr).connected = true := by
  unfold Inode.decoded
  dsimp only
  split
  · rfl
  · split
    · split <;> rfl
    · rfl

omit [Config] in
theorem decoded_nameLen (hd : Header) (corr : Bool) (inode : Inode) :
    (inode.decoded hd corr).inode.fileNameLen = inode.fileNameLen := by
  unfold Inode.decoded
  dsimp only
  split
  · rfl
  · split
    · split <;> rfl
    · rfl

omit [Config] in
theorem decoded_ids_sublist {hd : Header} (hps : 0 < hd.pageSize) {inode : Inode}
    (hids : ∀ p ∈ inode.recordedIds, p < hd.filesystemSize) (corr : Bool) :
    (inode.decoded hd corr).ids.Sublist inode.recordedIds := by
  cases corr with
  | false => rw [decoded_raw_ids]
  | true =>
    unfold Inode.decoded
    dsimp only
    split
    · rw [FileHandle.ids, correctPages_corrected hps hids]
      dsimp only
      rw [List.nil_append, storedPages_ids]
      exact List.take_sublist _ _
    · split
      · split <;> exact List.nil_sublist _
      · exact List.nil_sublist _

-- the handle that get_inode makes of a valid page
theorem Sound.decode {i : ℕ} (hs : Sound s live) (hi : Valid s i) (hlive : ∀ k ∈ live, k.page ≠ i)
    (corr : Bool) : ∃ h, decodeInode s.header (pageAt s i) corr = .ok h ∧ h.connected = true ∧
      Sound s ({ h with page := i } :: live) := by
  obtain ⟨inode, hst, hn⟩ := hs.flash.stored i hi
  refine ⟨_, hst.decode hn corr, decoded_connected _ _ _, ?_⟩
  have hlist := hst.listed hn
  have hsub : (inode.decoded s.header corr).ids.Sublist (listed s i) := by
    rw [hlist]
    refine decoded_ids_sublist hs.ready.layout.pageSize_pos (fun p hp => ?_) corr
    have := (hs.flash.region i hi p (by rw [hlist]; exact hp)).2
    unfold InRange at this
    omega
  refine { hs with
    handles := fun k hk => ?_
    live_apart := List.pairwise_cons.mpr ⟨fun k hk => ⟨(hlive k hk).symm, fun p hp hpk => ?_⟩, hs.live_apart⟩ }
  · rcases List.mem_cons.mp hk with rfl | hk
    · refine ⟨⟨(hs.flash.nodup i hi).sublist hsub, fun p hp => hs.flash.region i hi p (hsub.mem hp),
        fun p hp => hs.notFree i hi p (hsub.mem hp)⟩, hi.1, ?_, Or.inl hi, fun j hj hne p hp => ?_⟩
      · exact lt_of_eq_of_lt (decoded_nameLen _ _ _) hn
      · exact hs.flash.apart i j hi hj hne.symm p (hsub.mem hp)
    · exact hs.handles k hk
  · exact (hs.handles k hk).apart i hi (hlive k hk).symm p hpk (hsub.mem hp)

-- a claimed inode page carries a handle without pages
theorem Sound.claimed {i : ℕ} (hs : Sound s live) (ht : TakesInode s t (some i)) (hp : h.page = i)
    (hd : h.inode.dataPages = []) (hn : h.inode.fileNameLen < 2 ^ 16) : Sound t (h :: live) := by
  have hclaim := ht.claimable i rfl
  have hsame : SameInodes s t := ⟨by rw [ht.rest], fun i _ => by rw [ht.rest]; rfl⟩
  have hfree : t.freeDataPages = s.freeDataPages := by rw [ht.rest]
  have hids : h.ids = [] := by rw [FileHandle.ids, hd]; rfl
  have halloc : ∀ q, q ∈ s.allocatedUnwrittenPages → q ∈ t.allocatedUnwrittenPages :=
    fun q hq => (ht.mem_iff q).mpr (Or.inl hq)
  refine ⟨ht.ready hs.ready, by rw [hsame.header]; exact hs.erased, hs.flash.of_same hsame, ?_, ?_, ?_⟩
  · intro j hj p hp
    have hj' := hsame.valid.mp hj
    rw [hsame.listed hj'.1] at hp
    rw [hfree]
    exact hs.notFree j hj' p hp
  · intro k hk
    rcases List.mem_cons.mp hk with rfl | hk
    · refine ⟨⟨by rw [hids]; exact List.nodup_nil, by simp [hids], by simp [hids]⟩, ?_, hn, ?_, by simp [hids]⟩
      · rw [hp, hsame.header]
        exact hclaim.1
      · rw [hp]
        exact Or.inr ((ht.mem_iff i).mpr (Or.inr rfl))
    · exact (hs.handles k hk).of_same hsame (fun p _ hp => by rwa [hfree] at hp) fun ha => Or.inr (halloc _ ha)
  · refine List.pairwise_cons.mpr ⟨fun k hk => ⟨?_, by simp [hids]⟩, hs.live_apart⟩
    rintro he
    have hki : k.page = i := he.symm.trans hp
    have hheld := (hs.handles k hk).held
    rw [hki] at hheld
    exact hheld.elim hclaim.2.1 hclaim.2.2

end Sound

end SimpleFlashFs
