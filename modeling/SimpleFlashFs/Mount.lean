import SimpleFlashFs.Scan

namespace SimpleFlashFs

open Lib

section Newest

theorem sortVersions_sorted (files : List FileHandle) : (sortVersions files).Pairwise
    (fun a b => a.inode.inodeVersionNumber ≤ b.inode.inodeVersionNumber) := by
  have : Std.Total (fun a b : FileHandle => a.inode.inodeVersionNumber ≤ b.inode.inodeVersionNumber) :=
    ⟨fun _ _ => Nat.le_total _ _⟩
  have : IsTrans FileHandle (fun a b => a.inode.inodeVersionNumber ≤ b.inode.inodeVersionNumber) :=
    ⟨fun _ _ _ => Nat.le_trans⟩
  exact List.pairwise_insertionSort _ files

theorem newestOf_spec {files : List FileHandle} {r : FileHandle} (h : newestOf files = some r) :
    r ∈ files ∧ ∀ k ∈ files, k.inode.inodeVersionNumber ≤ r.inode.inodeVersionNumber := by
  obtain ⟨older, hl⟩ := List.getLast?_eq_some_iff.mp h
  have hperm := sortVersions_perm files
  have hsorted := sortVersions_sorted files
  rw [hl] at hperm hsorted
  refine ⟨hperm.mem_iff.mp (by simp), fun k hk => ?_⟩
  rcases List.mem_append.mp (hperm.mem_iff.mpr hk) with hk | hk
  · exact (List.pairwise_append.mp hsorted).2.2 k hk r (by simp)
  · rw [List.mem_singleton.mp hk]

theorem newestOf_isSome {files : List FileHandle} (h : files ≠ []) : ∃ r, newestOf files = some r := by
  have hne : sortVersions files ≠ [] := fun he => h ((he ▸ sortVersions_perm files).symm.eq_nil)
  exact ⟨_, List.getLast?_eq_some_getLast hne⟩

end Newest

section Survivors

variable [Config] {s t u : Fs} {live : List FileHandle}

-- the newest version of every inode, and no other
structure Newest (s : Fs) (survivors : List FileHandle) : Prop extends Scanned s survivors where
  numbers : (survivors.map (·.inode.inodeNumber)).Nodup
  newest : ∀ i, Valid s i → ∃ h ∈ survivors,
    h.inode.inodeNumber = numberAt s i ∧ versionAt s i ≤ h.inode.inodeVersionNumber

theorem rawsOf_scanned (s : Fs) : Scanned s (rawsOf s (List.range s.header.maxInodes)) where
  raw h hh := by
    obtain ⟨i, hi, rfl⟩ := List.mem_map.mp hh
    obtain ⟨h1, h2⟩ := List.mem_filter.mp hi
    rw [rawAt_page]
    exact ⟨⟨List.mem_range.mp h1, h2⟩, rfl⟩
  pages := by
    rw [rawsOf, List.map_map, show (fun h : FileHandle => h.page) ∘ rawAt s = id from funext (rawAt_page s),
      List.map_id]
    exact List.nodup_range.filter _

theorem mem_rawsOf {i : ℕ} (hi : Valid s i) : rawAt s i ∈ rawsOf s (List.range s.header.maxInodes) :=
  List.mem_map_of_mem (List.mem_filter.mpr ⟨List.mem_range.mpr hi.1, hi.2⟩)

theorem newest_survivorsOf {groups : List (ℕ × List FileHandle)} (hg : Grouped groups)
    (hp : (flat groups).Perm (rawsOf s (List.range s.header.maxInodes))) :
    Newest s (survivorsOf groups) := by
  have hraw := rawsOf_scanned s
  have hflat : ∀ r ∈ survivorsOf groups, ∃ g ∈ groups, newestOf g.2 = some r := fun r hr => by
    obtain ⟨g, h1, h2⟩ := List.mem_filterMap.mp hr
    exact ⟨g, h1, h2⟩
  have hmem : ∀ g ∈ groups, ∀ h ∈ g.2, h ∈ rawsOf s (List.range s.header.maxInodes) :=
    fun g hg h hh => hp.mem_iff.mp (List.mem_flatMap.mpr ⟨g, hg, hh⟩)
  have hnum : ∀ groups : List (ℕ × List FileHandle), Grouped groups →
      ((survivorsOf groups).map (·.inode.inodeNumber)).Pairwise (· < ·) ∧
        ∀ n ∈ (survivorsOf groups).map (·.inode.inodeNumber), n ∈ groups.map (·.1) := by
    intro groups hg
    induction groups with
    | nil => exact ⟨List.Pairwise.nil, fun _ h => h⟩
    | cons g rest ih =>
      obtain ⟨n, files⟩ := g
      have hasc := List.pairwise_cons.mp hg.ascending
      obtain ⟨h1, h2⟩ := ih ⟨hasc.2, fun g hm => hg.number g (List.mem_cons_of_mem _ hm),
        fun g hm => hg.nonempty g (List.mem_cons_of_mem _ hm)⟩
      obtain ⟨r, hr⟩ := newestOf_isSome (hg.nonempty (n, files) (List.mem_cons_self ..))
      have hrn : r.inode.inodeNumber = n :=
        hg.number (n, files) (List.mem_cons_self ..) r (newestOf_spec hr).1
      rw [survivorsOf_cons, hr]
      simp only [Option.toList_some, List.singleton_append, List.map_cons, hrn]
      refine ⟨List.pairwise_cons.mpr ⟨fun m hm => hasc.1 m (h2 m hm), h1⟩, fun m hm => ?_⟩
      rcases List.mem_cons.mp hm with rfl | hm
      · exact List.mem_cons_self ..
      · exact List.mem_cons_of_mem _ (h2 m hm)
  have hnodup : ((survivorsOf groups).map (·.inode.inodeNumber)).Nodup :=
    (hnum groups hg).1.imp fun h => h.ne
  refine ⟨⟨fun r hr => ?_, ?_⟩, hnodup, fun i hi => ?_⟩
  · obtain ⟨g, h1, h2⟩ := hflat r hr
    exact hraw.raw r (hmem g h1 r (newestOf_spec h2).1)
  · -- equal pages would be equal handles, and so equal numbers
    rw [List.Nodup, List.pairwise_map] at hnodup ⊢
    refine hnodup.imp_of_mem fun {a b} ha hb hab he => hab ?_
    obtain ⟨g, h1, h2⟩ := hflat a ha
    obtain ⟨g', h1', h2'⟩ := hflat b hb
    rw [(hraw.raw a (hmem g h1 a (newestOf_spec h2).1)).2,
      (hraw.raw b (hmem g' h1' b (newestOf_spec h2').1)).2, he]
  · obtain ⟨g, h1, h2⟩ := List.mem_flatMap.mp (hp.mem_iff.mpr (mem_rawsOf hi))
    obtain ⟨r, hr⟩ := newestOf_isSome (hg.nonempty g h1)
    refine ⟨r, List.mem_filterMap.mpr ⟨g, h1, hr⟩, ?_, (newestOf_spec hr).2 _ h2⟩
    rw [hg.number g h1 r (newestOf_spec hr).1, numberAt, hg.number g h1 _ h2]

-- the filesystem after the scan, before the survivors are closed
structure Mounted (s t : Fs) (survivors : List FileHandle) : Prop extends Holding s t survivors where
  newest : Newest s survivors
  ready : Ready t
  free : ∀ q, q ∈ t.freeDataPages ↔ DataRegion s q ∧ ∀ h ∈ survivors, q ∉ h.ids
  allocated : ∀ q, q ∉ t.allocatedUnwrittenPages
  maxInodeNumber : s.maxInodeNumber ≤ t.maxInodeNumber
  maxNumber : ∀ i, Valid s i → numberAt s i ≤ t.maxInodeNumber
  ivStorage : t.ivStorage = s.ivStorage
  headerInodeRange : t.headerInodeRange = s.headerInodeRange
  once : writeOnce s.mem.trace → writeOnce t.mem.trace

-- the power was lost during the scan: every newest version is left
def MountTorn (s t : Fs) : Prop := TornInvalid t → ∃ kept survivors, Newest s survivors ∧
  (∀ h ∈ survivors, h ∈ kept) ∧ (∀ h ∈ kept, Valid s h.page ∧ h = rawAt s h.page) ∧ Holding s t kept

structure Unfreed (s t : Fs) (l : List ℕ) : Prop where
  rest : t = { s with freeDataPages := t.freeDataPages }
  wf : t.freeDataPages.WF
  mem_iff : ∀ q, q ∈ t.freeDataPages ↔ q ∈ s.freeDataPages ∧ q ∉ l

omit [Config] in
theorem wp_eraseUsedPages (survivors : List FileHandle) (hw : s.freeDataPages.WF)
    (hids : ∀ h ∈ survivors, ∀ p ∈ h.ids, p < noData) (R : Fault → Fs → Prop) :
    wp (each eraseUsedPages survivors) (fun _ t => Unfreed s t (survivors.flatMap FileHandle.ids)) R s := by
  have hone : ∀ (l : List DataPage) (s : Fs), s.freeDataPages.WF → (∀ m ∈ l, m.pageId < noData) →
      wp (each (fun p : DataPage => eraseFreeDataPage p.pageId) l)
        (fun _ t => Unfreed s t (l.map DataPage.pageId)) R s := by
    intro l
    induction l with
    | nil => exact fun s hw _ => ⟨rfl, hw, by simp⟩
    | cons m l ih =>
      intro s hw hl
      have hm := hl m (List.mem_cons_self ..)
      simp only [each, eraseFreeDataPage, wp_bind, wp_modify]
      refine wp_mono (ih _ (PageSet.erase_wf hw hm) fun x hx => hl x (List.mem_cons_of_mem _ hx))
        (fun _ t ht => ⟨ht.rest, ht.wf, fun q => ?_⟩) (fun _ _ h => h)
      rw [ht.mem_iff, PageSet.mem_erase hw hm, List.map_cons, List.mem_cons, not_or, and_assoc]
  induction survivors generalizing s with
  | nil => exact ⟨rfl, hw, by simp⟩
  | cons h survivors ih =>
    rw [each, wp_bind]
    refine wp_mono (hone _ s hw fun m hm => hids h (List.mem_cons_self ..) m.pageId (List.mem_map_of_mem hm))
      (fun _ t ht => ?_) (fun _ _ h => h)
    refine wp_mono (ih ht.wf fun k hk => hids k (List.mem_cons_of_mem _ hk)) (fun _ u hu => ?_)
      (fun _ _ h => h)
    refine ⟨by rw [hu.rest, ht.rest], hu.wf, fun q => ?_⟩
    rw [hu.mem_iff, ht.mem_iff, List.flatMap_cons, List.mem_append, not_or, and_assoc]
    rfl

-- read_all_free_data_pages up to the destruction of the handles
def scanFreeDataPages : FsM (List FileHandle) := do
  fillFreeDataPages
  let s ← get
  let inodes ← collectInodes (List.range s.header.maxInodes) []
  let survivors ← clearOldInodes inodes
  each eraseUsedPages survivors
  pure survivors

theorem readAllFreeDataPages_eq :
    readAllFreeDataPages = scanFreeDataPages >>= fun survivors => each closeHandle survivors := by
  simp only [readAllFreeDataPages, scanFreeDataPages, bind_assoc, pure_bind]

theorem wp_scanFreeDataPages (hs : Recoverable s) (hr : Ready s) (ha : ∀ q, q ∉ s.allocatedUnwrittenPages)
    (herased : checksumOk s.header.endianness (List.replicate s.header.pageSize 0xFF) = false)
    (hv : s.variant ≠ .noDel) :
    wp scanFreeDataPages (fun survivors t => Mounted s t survivors)
      (fun e t => e = .powerLoss → MountTorn s t) s := by
  rw [scanFreeDataPages, wp_bind]
  refine wp_mono (wp_fillFreeDataPages hr.layout.toGeometry hr.layout.filesystemSize_lt _) (fun _ s1 h1 => ?_) (fun _ _ h => h)
  simp only [wp_bind, wp_get, wp_pure]
  have hh1 : s1.header = s.header := by rw [h1.rest]
  have hp1 : ∀ i, pageAt s1 i = pageAt s i := fun i => by rw [h1.rest]; rfl
  have hlisted : ∀ i, listed s1 i = listed s i := fun i => listed_congr hh1 (hp1 i)
  have hvalid : ∀ i, Valid s1 i ↔ Valid s i := fun i => valid_congr hh1 (hp1 i)
  have hraw : ∀ i, rawAt s1 i = rawAt s i := fun i => rawAt_congr hh1 (hp1 i)
  have hreg1 : ∀ q, DataRegion s1 q ↔ DataRegion s q := fun q => by
    simp only [DataRegion, InRange, hh1]
  have hs1 : Recoverable s1 := by
    refine ⟨fun i hi => ?_, fun i hi p hp => ?_, fun i hi => ?_, fun i j hi hj hne => ?_⟩
    · obtain ⟨inode, h2, h3⟩ := hs.stored i ((hvalid i).mp hi)
      exact ⟨inode, stores_congr hh1 (hp1 i) h2, h3⟩
    · rw [hlisted] at hp
      exact (hreg1 p).mpr (hs.region i ((hvalid i).mp hi) p hp)
    · rw [hlisted]
      exact hs.nodup i ((hvalid i).mp hi)
    · simp only [hlisted, numberAt, hraw, hvalid]
      exact hs.apart i j ((hvalid i).mp hi) ((hvalid j).mp hj) hne
  have hL1 : Layout s1 := hr.layout.of_eq hh1 (by rw [h1.rest])
  refine wp_mono (wp_collectInodes (List.range s1.header.maxInodes) [] hL1 hs1
    (fun i hi => List.mem_range.mp hi) _) (fun groups s2 h2 => ?_) (fun _ _ h => h)
  have hgroups : Grouped groups := h2.grouped ⟨List.Pairwise.nil, nofun, nofun⟩
  have hperm : (flat groups).Perm (rawsOf s1 (List.range s1.header.maxInodes)) := h2.perm
  have hrawsOf : rawsOf s1 (List.range s1.header.maxInodes) = rawsOf s (List.range s.header.maxInodes) := by
    simp only [rawsOf, hh1, hp1]
    exact List.map_congr_left fun i _ => hraw i
  have hperm0 : (flat groups).Perm (rawsOf s (List.range s.header.maxInodes)) := hrawsOf ▸ hperm
  have hnew := newest_survivorsOf hgroups hperm0
  have hsc0 : Scanned s (flat groups ++ []) := by
    rw [List.append_nil]
    exact (rawsOf_scanned s).perm hperm0.symm
  have hb2 : s2.mem = s.mem := by rw [h2.rest, h1.rest]
  have hh2 : s2.header = s.header := by rw [h2.rest, hh1]
  have hp2 : ∀ i, pageAt s2 i = pageAt s i := fun i => by simp only [pageAt, hb2, hh2]
  have hready2 : Ready s2 := by
    refine ⟨hr.layout.of_eq hh2 (by rw [hb2]), fun l => by rw [hb2]; exact hr.noShort l, ?_, ?_, ?_, ?_⟩
    · rw [h2.rest]
      exact h1.wf
    · rw [h2.rest, h1.rest]
      exact hr.allocatedWF
    · rw [h2.rest, h1.rest]
      exact hr.range
    · intro p hp
      rw [h2.rest] at hp
      rw [DataRegion, InRange, hh2]
      exact (h1.mem_iff p).mp hp
  have hc : Clearing { s with maxInodeNumber := s2.maxInodeNumber } s2 (flat groups ++ []) := by
    refine ⟨⟨hh2, by rw [h2.rest, h1.rest], by rw [hb2], by rw [hb2], ?_, fun i => ?_, fun h _ => hp2 _,
      fun h _ p _ => hp2 p⟩, hready2, fun q => ?_, fun q hq => ?_, rfl, ?_, ?_, ?_⟩
    · simp only [headerPage, hb2, hh2]
    · rw [(valid_congr hh2 (hp2 i)), List.append_nil]
      constructor
      · exact fun hi => ⟨rawAt s i, hperm0.mem_iff.mpr (mem_rawsOf hi), rawAt_page s i⟩
      · rintro ⟨h, hm, rfl⟩
        exact (hsc0.raw h (by rwa [List.append_nil])).1
    · rw [h2.rest]
      exact h1.mem_iff q
    · rw [h2.rest, h1.rest] at hq
      exact ha q hq
    · rw [h2.rest, h1.rest]
    · rw [h2.rest, h1.rest]
    · rw [hb2]
      exact id
  refine wp_mono (wp_clearOldInodes (s := { s with maxInodeNumber := s2.maxInodeNumber }) (k := [])
    ⟨hs.stored, hs.region, hs.nodup, hs.apart⟩ ⟨hsc0.raw, hsc0.pages⟩ (hr.layout.of_eq rfl rfl) herased hv
    hgroups.number hc) (fun survivors s3 h3 => ?_) (fun e u hu he htorn => ?_)
  · obtain ⟨rfl, hc3⟩ := h3
    rw [List.append_nil] at hc3
    have hids : ∀ h ∈ survivorsOf groups, ∀ p ∈ h.ids, DataRegion s p := by
      intro h hh p hp
      obtain ⟨h4, h5⟩ := hnew.raw h hh
      rw [h5, rawAt_ids] at hp
      exact hs.region _ h4 p hp
    refine wp_mono (wp_eraseUsedPages _ hc3.ready.freeWF
      (fun h hh p hp => hr.layout.lt_noData (hids h hh p hp).2) _) (fun _ t ht => ?_) (fun _ _ h => h)
    have hmem : t.mem = s3.mem := by rw [ht.rest]
    have hhold : Holding s t (survivorsOf groups) := by
      have := hc3.toHolding.of_mem (u := t) (by rw [ht.rest]) (by rw [ht.rest]) (by rw [hmem]) (by rw [hmem])
      exact ⟨this.header, this.variant, this.canMapRead, this.length, this.headerPage, this.valid,
        this.page, this.data⟩
    refine ⟨hhold, hnew, ?_, fun q => ?_, fun q hq => ?_, ?_, fun i hi => ?_, ?_, ?_, ?_⟩
    · have hr3 := hc3.ready
      refine ⟨hr3.layout.of_eq (by rw [ht.rest]) (by rw [ht.rest]), fun l => by rw [hmem]; exact hr3.noShort l,
        ht.wf, by rw [ht.rest]; exact hr3.allocatedWF, by rw [ht.rest]; exact hr3.range, fun p hp => ?_⟩
      have := hr3.free p ((ht.mem_iff p).mp hp).1
      rw [ht.rest]
      exact this
    · rw [ht.mem_iff, hc3.free, List.mem_flatMap]
      simp only [not_exists, not_and]
      exact Iff.rfl
    · rw [ht.rest] at hq
      exact hc3.allocated q hq
    · rw [ht.rest]
      refine le_trans ?_ (le_of_eq hc3.maxInodeNumber.symm)
      have := h2.max
      rwa [h1.rest] at this
    · rw [ht.rest]
      refine le_trans ?_ (le_of_eq hc3.maxInodeNumber.symm)
      exact h2.maxNumber (rawAt s i) (by rw [hrawsOf]; exact mem_rawsOf hi)
    · rw [ht.rest]
      exact hc3.ivStorage
    · rw [ht.rest]
      exact hc3.headerInodeRange
    · rw [hmem]
      exact hc3.once
  · obtain ⟨kept, h3, h4, h5⟩ := hu he htorn
    rw [List.append_nil] at h3 h4
    refine ⟨kept, survivorsOf groups, hnew, h3, fun h hh => ?_, ⟨h5.header, h5.variant, h5.canMapRead,
      h5.length, h5.headerPage, h5.valid, h5.page, h5.data⟩⟩
    exact hsc0.raw h (by rw [List.append_nil]; exact h4 h hh)

end Survivors

end SimpleFlashFs
