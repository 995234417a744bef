import SimpleFlashFs.Remount
import SimpleFlashFs.Cursor

namespace SimpleFlashFs

open Lib

section Reclaim

variable [Config] {s t : Fs} {h k : FileHandle} {live : List FileHandle} {r : Bool × FileHandle}

-- every data page that version i listed and version j does not list is erased and free
def Reclaimed (s t : Fs) (i j : ℕ) : Prop :=
  ∀ p ∈ listed s i, (Valid t j → p ∉ listed t j) →
    pageAt t p = List.replicate t.header.pageSize 0xFF ∧ p ∈ t.freeDataPages

-- the entry of a page that a flush keeps, or strips and gives back
def Traced (hd : Header) (pages : List DataPage) (p : ℕ) : Prop :=
  ∃ m ∈ pages, m.pageId = p ∧ (m.state = .deleted → p ≠ hd.maxInodes)

-- all data pages are free, listed, or held by the handle h, and every file has one version
structure Accounted (s : Fs) (h : FileHandle) : Prop where
  header : HeaderOn s.mem s.header
  number : numberAt s h.page = h.inode.inodeNumber
  single : ∀ i j, Valid s i → Valid s j → numberAt s i = numberAt s j → i = j
  pages : ∀ p, DataRegion s p → p ∈ s.freeDataPages ∨ p ∈ h.ids ∨ ∃ i, Valid s i ∧ p ∈ listed s i

omit [Config] in
theorem nextVersion_mem_ids (hn : h.ids.Nodup) {p : ℕ} {m : DataPage} (hm : m ∈ h.inode.dataPages) :
    m.pageId ∈ (h.nextVersion p).ids ↔ m.state ≠ .deleted := by
  constructor
  · intro hids hdel
    obtain ⟨m', hm', he⟩ := List.mem_map.mp hids
    obtain ⟨h1, h2⟩ := List.mem_filter.mp hm'
    rw [List.inj_on_of_nodup_map hn h1 hm he] at h2
    exact absurd hdel (by simpa using h2)
  · intro hs
    exact List.mem_map_of_mem (List.mem_filter.mpr ⟨hm, by simpa using hs⟩)

theorem Sound.flushed_next (hs : Sound s (h :: live)) (hv : s.variant ≠ .noDel) (hm : h.modified = true)
    (hn : h.inode.inodeNumber ≠ 0) (hf : Flushed s h t r) (hok : r.1 = true) :
    ∃ p, Moved s h p t ∧ r = (true, (h.nextVersion p).clean) := by
  cases hf with
  | unmodified hm' =>
    rw [hm] at hm'
    cases hm'
  | first hm' hn' => exact absurd hn' hn
  | full => cases hok
  | next hm' hn' p u v t hu hc he =>
    rw [if_neg hv] at he
    obtain ⟨l, hplan, hl⟩ := he
    exact ⟨p, hs.head.moved hs.ready hu hc hplan hl, rfl⟩

theorem Sound.moved_listed (hs : Sound s (h :: live)) {p : ℕ} (hm : Moved s h p t) :
    listed t p = (h.nextVersion p).ids := by
  have hl := hs.head
  rw [hm.stores.listed hl.name]
  apply recordedIds_eq
  intro q hq
  have h1 := hs.ready.layout.lt_noData (hl.region q ((nextVersion_ids h p).mem hq)).2
  unfold noData at h1
  omega

-- where a page of the data region is after the handle moved
theorem Sound.moved_traced (hs : Sound s (h :: live)) {p : ℕ} (hm : Moved s h p t) {q : ℕ} (hq : DataRegion s q)
    (hnot : q ∉ s.freeDataPages) :
    q ∈ listed t p ∨ q ∈ t.freeDataPages ↔ Traced s.header h.inode.dataPages q := by
  have hl := hs.head
  rw [hs.moved_listed hm, hm.free]
  constructor
  · rintro (hids | hfree | ⟨⟨hids, -⟩, hgt⟩)
    · obtain ⟨m, hmem, rfl⟩ := List.mem_map.mp ((nextVersion_ids h p).mem hids)
      exact ⟨m, hmem, rfl, fun hdel => absurd hdel ((nextVersion_mem_ids hl.nodup hmem).mp hids)⟩
    · exact absurd hfree hnot
    · obtain ⟨m, hmem, rfl⟩ := List.mem_map.mp hids
      exact ⟨m, hmem, rfl, fun _ => by omega⟩
  · rintro ⟨m, hmem, rfl, hdel⟩
    by_cases hkept : m.state = .deleted
    · have hgt : m.pageId > s.header.maxInodes := by
        have h1 := hdel hkept
        have h2 := hq.1
        omega
      have hstrip : m.pageId ∉ (h.nextVersion p).ids :=
        fun hin => (nextVersion_mem_ids hl.nodup hmem).mp hin hkept
      exact Or.inr (Or.inr ⟨⟨List.mem_map_of_mem hmem, hstrip⟩, hgt⟩)
    · exact Or.inl ((nextVersion_mem_ids hl.nodup hmem).mpr hkept)

theorem Sound.moved_reclaimed (hs : Sound s (h :: live)) {p : ℕ} (hm : Moved s h p t) (hi : Valid s h.page) :
    Reclaimed s t h.page p ↔ ∀ q ∈ listed s h.page, Traced s.header h.inode.dataPages q := by
  have hfacts : ∀ q ∈ listed s h.page, DataRegion s q ∧ q ∉ s.freeDataPages :=
    fun q hq => ⟨hs.flash.region _ hi q hq, hs.notFree _ hi q hq⟩
  have hvp : Valid t p := ⟨by rw [hm.header]; exact hm.claimable.1, hm.stores.checksumOk⟩
  constructor
  · intro hrec q hq
    obtain ⟨h1, h2⟩ := hfacts q hq
    rw [← hs.moved_traced hm h1 h2]
    by_cases hin : q ∈ listed t p
    · exact Or.inl hin
    · exact Or.inr (hrec q hq fun _ => hin).2
  · intro htr q hq hnot
    obtain ⟨h1, h2⟩ := hfacts q hq
    have hfree := ((hs.moved_traced hm h1 h2).mpr (htr q hq)).resolve_left (hnot hvp)
    refine ⟨?_, hfree⟩
    rw [hm.header]
    apply hm.erased
    right
    exact (((hm.free q).mp hfree).resolve_left h2).1

theorem Sound.moved_valid (hs : Sound s (h :: live)) {p : ℕ} (hm : Moved s h p t) {i : ℕ} :
    Valid t i ↔ i = p ∨ Valid s i ∧ i ≠ h.page := by
  have hp : Valid t p := ⟨by rw [hm.header]; exact hm.claimable.1, hm.stores.checksumOk⟩
  have hold : ¬ Valid t h.page := by
    rintro ⟨-, hcrc⟩
    rw [hm.erased h.page (Or.inl rfl), hm.header, hs.erased] at hcrc
    cases hcrc
  constructor
  · intro hi
    by_cases hip : i = p
    · exact Or.inl hip
    · have hih : i ≠ h.page := fun e => hold (e ▸ hi)
      have hlt : i < s.header.maxInodes := by
        have := hi.1
        rwa [hm.header] at this
      exact Or.inr ⟨(valid_congr hm.header (hm.inodes i hlt hih hip)).mp hi, hih⟩
  · rintro (rfl | ⟨hi, hih⟩)
    · exact hp
    · by_cases hip : i = p
      · rw [hip]
        exact hp
      · exact (valid_congr hm.header (hm.inodes i hi.1 hih hip)).mpr hi

theorem Moved.valid_pageAt {p : ℕ} (hm : Moved s h p t) {i : ℕ} (hi : Valid s i)
    (hne : i ≠ h.page) : pageAt t i = pageAt s i := by
  apply hm.inodes i hi.1 hne
  rintro rfl
  exact hm.claimable.2.1 hi

-- a new instance counts the same pages exactly when every page of the file is traced
theorem Sound.moved_counts (hs : Sound s (h :: live)) {p : ℕ} (hm : Moved s h p t) (ht : Sound t (k :: live))
    {f : FileHandle} (hf : LiveHandle s f) (hpage : f.page = h.page)
    (hnumber : f.inode.inodeNumber = h.inode.inodeNumber) (ha : Accounted s f) (hi : Valid s h.page) {u : Fs}
    (hu : Remounted t u) : getNumberOfFreeDataPages t = getNumberOfFreeDataPages u ↔
      ∀ q ∈ listed s h.page ++ f.ids, Traced s.header h.inode.dataPages q := by
  have hown : ∀ q ∈ listed s h.page ++ f.ids, DataRegion s q ∧ q ∉ s.freeDataPages ∧
      ∀ i, Valid s i → i ≠ h.page → q ∉ listed s i := by
    intro q hq
    rcases List.mem_append.mp hq with hq | hq
    · exact ⟨hs.flash.region _ hi q hq, hs.notFree _ hi q hq, fun i hv hne => hs.flash.apart _ _ hi hv hne.symm q hq⟩
    · exact ⟨hf.region q hq, hf.notFree q hq, fun i hv hne => hf.apart i hv (by rwa [hpage]) q hq⟩
  have hlisted : ∀ i, Valid s i → i ≠ h.page → listed t i = listed s i :=
    fun i hv hne => listed_congr hm.header (hm.valid_pageAt hv hne)
  have hnum : numberAt t p = numberAt s h.page := by
    rw [(hm.stores.record hs.head.name).1, ← hpage, ha.number, hnumber]
    have hlt : numberAt s h.page < 2 ^ 64 := by
      obtain ⟨inode, h1, h2⟩ := hs.flash.stored _ hi
      rw [(h1.record h2).1]
      exact Nat.mod_lt _ (by decide)
    rw [← hpage, ha.number, hnumber] at hlt
    exact Nat.mod_eq_of_lt hlt
  have hsame : ∀ i, Valid s i → i ≠ h.page → numberAt t i = numberAt s i := by
    intro i hv hne
    rw [numberAt, numberAt, rawAt_congr hm.header (hm.valid_pageAt hv hne)]
  have hone : ∀ i j, Valid t i → Valid t j → numberAt t i = numberAt t j → i = j := by
    intro i j hvi hvj he
    rw [hs.moved_valid hm] at hvi hvj
    rcases hvi with rfl | ⟨hvi, hni⟩
    · rcases hvj with rfl | ⟨hvj, hnj⟩
      · rfl
      · rw [hnum, hsame j hvj hnj] at he
        exact absurd (ha.single _ _ hi hvj he).symm hnj
    · rcases hvj with rfl | ⟨hvj, hnj⟩
      · rw [hnum, hsame i hvi hni] at he
        exact absurd (ha.single _ _ hvi hi he) hni
      · rw [hsame i hvi hni, hsame j hvj hnj] at he
        exact ha.single _ _ hvi hvj he
  have hfree := hu.free_single hone
  have hregion : ∀ q, DataRegion t q ↔ DataRegion s q := by
    intro q
    rw [DataRegion, InRange, hm.header]
    exact Iff.rfl
  rw [getNumberOfFreeDataPages, getNumberOfFreeDataPages,
    PageSet.sizeConst_eq_iff hu.sound.ready.freeWF ht.ready.freeWF]
  · constructor
    · intro hall q hq
      obtain ⟨h1, h2, h3⟩ := hown q hq
      rw [← hs.moved_traced hm h1 h2]
      by_cases hin : q ∈ listed t p
      · exact Or.inl hin
      · refine Or.inr (hall q ((hfree q).mpr ⟨(hregion q).mpr h1, fun i hv => ?_⟩))
        rcases (hs.moved_valid hm).mp hv with rfl | ⟨hv, hne⟩
        · exact hin
        · rw [hlisted i hv hne]
          exact h3 i hv hne
    · intro htr q hq
      obtain ⟨h1, h2⟩ := (hfree q).mp hq
      rw [hregion] at h1
      have hlive : q ∈ s.freeDataPages ∨ q ∈ listed s h.page ++ f.ids := by
        rcases ha.pages q h1 with hin | hin | ⟨i, hv, hin⟩
        · exact Or.inl hin
        · exact Or.inr (List.mem_append_right _ hin)
        · by_cases hne : i = h.page
          · rw [hne] at hin
            exact Or.inr (List.mem_append_left _ hin)
          · rw [← hlisted i hv hne] at hin
            exact absurd hin (h2 i ((hs.moved_valid hm).mpr (Or.inr ⟨hv, hne⟩)))
      rcases hlive with hin | hin
      · exact (hm.free q).mpr (Or.inl hin)
      · obtain ⟨-, h3, -⟩ := hown q hin
        apply ((hs.moved_traced hm h1 h3).mpr (htr q hin)).resolve_left
        exact h2 p ((hs.moved_valid hm).mpr (Or.inl rfl))
  · intro q hq
    refine (hfree q).mpr ⟨ht.ready.free q hq, fun i hv hl => ?_⟩
    exact ht.notFree i hv q hl hq

-- k is h with a part of its pages
structure Narrowed (h k : FileHandle) : Prop where
  pages : k.inode.dataPages.Sublist h.inode.dataPages
  page : k.page = h.page
  number : k.inode.inodeNumber = h.inode.inodeNumber
  name : k.inode.fileNameLen ≤ h.inode.fileNameLen
  modified : k.modified = true

omit [Config] in
theorem Narrowed.ids (e : Narrowed h k) : k.ids.Sublist h.ids := e.pages.map _

theorem Sound.narrowed (hs : Sound s (h :: live)) (e : Narrowed h k) : Sound s (k :: live) :=
  hs.replaced e.page e.ids (e.name.trans_lt hs.head.name)

-- a flush of the narrowed handle
theorem wp_flush_narrowed (hs : Sound s (h :: live)) (hv : s.variant ≠ .noDel) (hi : Valid s h.page)
    (hn : h.inode.inodeNumber ≠ 0) (e : Narrowed h k) :
    wp (flush k) (fun r t => r.1 = true →
      (Reclaimed s t h.page r.2.page ↔ ∀ q ∈ listed s h.page, Traced s.header k.inode.dataPages q) ∧
      (Accounted s h → ∀ u, initDynamic t.restarted = .ok true u →
        (getNumberOfFreeDataPages t = getNumberOfFreeDataPages u ↔
          ∀ q ∈ listed s h.page ++ h.ids, Traced s.header k.inode.dataPages q)))
      (fun _ _ => True) s := by
  have hsk := hs.narrowed e
  have hlk := hsk.head
  apply wp_mono (wp_flush hsk.ready hlk.toOwns hlk.page)
  · intro r t hf hok
    have hst := hsk.flushed hv hf
    obtain ⟨p, hm, rfl⟩ := hsk.flushed_next hv e.modified (by rwa [e.number]) hf hok
    have hpage := e.page
    refine ⟨?_, fun ha u hu => ?_⟩
    · rw [← hpage]
      exact hsk.moved_reclaimed hm (by rwa [hpage])
    · rw [← hpage]
      have hon := ha.header.of_headerPage hs.ready.layout hm.header hm.length hm.headerPage
      have hre := wp_initDynamic hon hst.ready hst.flash.recoverable hst.erased (by rw [hf.keeps.variant]; exact hv)
      exact hsk.moved_counts hm hst hs.head hpage.symm e.number.symm ha (by rwa [hpage]) (wp_ok hre hu).2
  · exact fun _ _ _ => trivial

omit [Config] in
theorem wp_truncate_narrows {n : ℕ} (hc : h.connected = true) (hn : n < h.inode.fileLen) :
    wp (truncate h n)
      (fun r t => t = s ∧ Narrowed h r.2 ∧ ∀ q, Traced s.header r.2.inode.dataPages q ↔ Traced s.header
        (h.inode.dataPages.take ((n + s.header.pageSize - 1) / s.header.pageSize)) q)
      (fun _ _ => True) s := by
  simp only [truncate, wp_bind, wp_get]
  rw [if_neg (by simp [hc]), if_neg (by omega), if_neg (by omega), wp_pure]
  simp only [List.isEmpty_iff]
  split
  · next hnil =>
    have htake : h.inode.dataPages.take ((n + s.header.pageSize - 1) / s.header.pageSize) = h.inode.dataPages := by
      rw [hnil, List.take_nil]
    rw [htake]
    split <;> exact ⟨trivial, ⟨List.Sublist.refl _, rfl, rfl, le_rfl, rfl⟩, fun _ => Iff.rfl⟩
  · split
    · exact ⟨trivial, ⟨List.take_sublist _ _, rfl, rfl, le_rfl, rfl⟩, fun _ => Iff.rfl⟩
    · next hshort =>
      rw [List.take_of_length_le (by omega)]
      exact ⟨trivial, ⟨List.Sublist.refl _, rfl, rfl, le_rfl, rfl⟩, fun _ => Iff.rfl⟩

theorem flushed_ids_of_stored (hst : ∀ m ∈ h.inode.dataPages, m.state ≠ .deleted) (hf : Flushed s h t r) :
    r.2.ids = h.ids := by
  cases hf with
  | unmodified => rfl
  | first => exact clean_ids _
  | full => rfl
  | next hm hn p =>
    rw [clean_ids, FileHandle.ids, FileHandle.ids]
    congr 1
    exact List.filter_eq_self.mpr fun m hm => by simpa using hst m hm

theorem Closed.free_of_stored (hc : Closed s h t) (hp : h.page < s.header.maxInodes)
    (hst : ∀ m ∈ h.inode.dataPages, m.state ≠ .deleted) {q : ℕ} (hq : q ∈ t.freeDataPages) :
    q ∈ s.freeDataPages := by
  unfold Closed at hc
  split at hc
  · obtain ⟨u, r, hf, ht⟩ := hc
    rw [ht.rest] at hq
    apply (hf.free hp hq).resolve_right
    rintro ⟨h1, h2⟩
    rw [flushed_ids_of_stored hst hf] at h2
    exact h2 h1
  · rwa [hc] at hq

-- closing a handle makes no other inode page valid
theorem Sound.closed_valid (hs : Sound s (h :: live)) (hv : s.variant ≠ .noDel) (hn : h.inode.inodeNumber ≠ 0)
    (hc : Closed s h t) (hk : k ∈ live) (hval : Valid t k.page) : Valid s k.page := by
  unfold Closed at hc
  split at hc
  · obtain ⟨u, r, hf, ht⟩ := hc
    rw [ht.sameInodes.valid] at hval
    cases hf with
    | unmodified => exact hval
    | first hm hn' => exact absurd hn' hn
    | full hm hn' _ htake =>
      rw [htake.rest] at hval
      exact hval
    | next hm hn' p w v _ htake hcom he =>
      obtain ⟨p', hm', hr⟩ := hs.flushed_next hv hm hn (.next hm hn' p w v u htake hcom he) rfl
      rcases (hs.moved_valid hm').mp hval with hp | hp
      · have hheld := (hs.handles k (List.mem_cons_of_mem _ hk)).held
        rw [hp] at hheld
        exact (hheld.elim hm'.claimable.2.1 hm'.claimable.2.2).elim
      · exact hp.1
  · rwa [hc] at hval

-- the handle of open with trunc, and the handle of the lookup closed
theorem wp_openTrunc_keeps (hs : Sound s (h :: live)) (hv : s.variant ≠ .noDel)
    (hn : h.inode.inodeNumber ≠ 0) (hst : ∀ m ∈ h.inode.dataPages, m.state ≠ .deleted) :
    wp (openTrunc h)
      (fun k t => k.connected = true → Sound t (k :: live) ∧ k.ids = [] ∧ ¬ Valid t k.page ∧ Keeps s t ∧
        k.inode.inodeNumber = h.inode.inodeNumber ∧ ∀ q ∈ t.freeDataPages, q ∈ s.freeDataPages)
      (fun _ _ => True) s := by
  rw [openTrunc, wp_bind]
  apply wp_mono (wp_allocateFreeInodePage hs.ready (R := fun _ _ => True) fun _ => trivial)
  · rintro k u ⟨i, rfl, hu⟩
    rw [wp_ite]
    cases i with
    | none => exact ⟨fun _ => wp_bind_any fun _ _ => by simp, fun hc => absurd (by simp [FileHandle.ofPage]) hc⟩
    | some i =>
      refine ⟨fun hc => absurd rfl hc, fun _ => ?_⟩
      have hsu := (hs.claimed hu (h := { FileHandle.ofPage (some i) with
        inode := { h.inode with fileLen := 0, pages := 0, dataPages := [], inodeData := [] } })
        rfl rfl hs.head.name).perm (List.Perm.swap _ _ _)
      have hku := hu.keeps
      have hvu : u.variant ≠ .noDel := by rwa [hku.variant]
      have hclaim := hu.claimable i rfl
      have hne := (List.pairwise_cons.mp hsu.live_apart).1 _ (List.mem_cons_self ..)
      rw [wp_bind]
      apply wp_mono (wp_closeHandle hsu.ready hsu.head.toOwns hsu.head.page)
      · intro _ t hc _
        refine ⟨hsu.closed hvu hc, rfl, ?_, hku.trans hc.keeps, rfl, fun q hq => ?_⟩
        · intro hval
          have hvu' := hsu.closed_valid hvu hn hc (List.mem_cons_self ..) hval
          rw [hu.rest] at hvu'
          exact hclaim.2.1 hvu'
        · have hq' := hc.free_of_stored hsu.head.page hst hq
          rwa [hu.rest] at hq'
      · exact fun _ _ _ => trivial
  · exact fun _ _ _ => trivial

theorem wp_deleteFile_loses (hs : Sound s (h :: live)) (hv : s.variant ≠ .noDel) (hi : Valid s h.page)
    (hn : h.inode.inodeNumber ≠ 0) (hp : listed s h.page ≠ []) :
    wp (deleteFile h) (fun r t => r.1 = true → ¬ Reclaimed s t h.page r.2.page) (fun _ _ => True) s := by
  rw [deleteFile, wp_bind]
  refine wp_mono (wp_flush_narrowed hs hv hi hn ⟨List.nil_sublist _, rfl, rfl, Nat.zero_le _, rfl⟩) ?_ ?_
  · intro r t hr
    rw [wp_ite]
    refine ⟨fun hok _ hrec => ?_, fun _ => nofun⟩
    obtain ⟨q, hq⟩ := List.exists_mem_of_ne_nil _ hp
    obtain ⟨m, hm, -⟩ := (hr hok).1.mp hrec q hq
    cases hm
  · exact fun _ _ _ => trivial

theorem wp_write_closed (hc : ¬ h.connected = true) (data : List UInt8) :
    wp (write h data) (fun _ _ => False) (fun _ _ => True) s := by
  rw [write, wp_bind]
  cases ha : h.append with
  | false =>
    rw [whenNeeded, if_neg (by simp), wp_pure, if_neg hc]
    trivial
  | true =>
    rw [whenNeeded, if_pos rfl, seek, if_pos le_rfl, wp_pure, if_neg hc]
    trivial

theorem wp_openTrunc_loses (hs : Sound s (h :: live)) (hv : s.variant ≠ .noDel) (hi : Valid s h.page)
    (hn : h.inode.inodeNumber ≠ 0) (hp : listed s h.page ≠ []) (hst : ∀ m ∈ h.inode.dataPages, m.state ≠ .deleted)
    (data : List UInt8) :
    wp (openTrunc h >>= fun k => write k data >>= fun w => flush w.2)
      (fun r t => r.1 = true → ¬ Reclaimed s t h.page r.2.page) (fun _ _ => True) s := by
  obtain ⟨q, hq⟩ := List.exists_mem_of_ne_nil _ hp
  have hfree := hs.notFree _ hi q hq
  rw [wp_bind]
  apply wp_mono (wp_openTrunc_keeps hs hv hn hst)
  · intro k u hk
    by_cases hc : k.connected = true
    · obtain ⟨hsu, hids, hinv, hkeeps, hnum, hfu⟩ := hk hc
      rw [wp_bind]
      apply wp_mono (safe_write data |>.wp hsu.ready hsu.head.toOwns)
      · intro w v he
        have hsv := hsu.dataEffect he
        have hvv : v.variant ≠ .noDel := by rwa [he.keeps.variant, hkeeps.variant]
        -- neither the handle nor the free pages get the page back
        have hqv : q ∉ v.freeDataPages := fun hin => hfree (hfu q (he.free q hin))
        have hqw : q ∉ w.2.ids := by
          intro hin
          rcases he.ids q hin with hin | hin
          · rw [hids] at hin
            cases hin
          · exact hfree (hfu q hin)
        apply wp_mono (wp_flush hsv.ready hsv.head.toOwns hsv.head.page)
        · intro r t hf hok hrec
          apply absurd (hrec q hq ?_).2
          · exact fun hin => (hf.free hsv.head.page hin).elim hqv fun h => hqw h.1
          · intro hval hin
            cases hm : w.2.modified with
            | true =>
              obtain ⟨p, hm', rfl⟩ := hsv.flushed_next hvv hm (by rwa [he.same.inodeNumber, hnum]) hf hok
              have hin' : q ∈ (w.2.nextVersion p).ids := by
                rw [← hsv.moved_listed hm']
                exact hin
              exact hqw ((nextVersion_ids _ _).mem hin')
            | false =>
              cases hf with
              | unmodified =>
                rw [(he.sameInodes hsu.ready hsu.head.toOwns).valid, he.same.page] at hval
                exact hinv hval
              | first hm' => rw [hm] at hm'; cases hm'
              | full hm' => rw [hm] at hm'; cases hm'
              | next hm' => rw [hm] at hm'; cases hm'
        · exact fun _ _ _ => trivial
      · exact fun _ _ _ => trivial
    · rw [wp_bind]
      exact wp_mono (wp_write_closed hc data) (fun _ _ h => h.elim) (fun _ _ _ => trivial)
  · exact fun _ _ _ => trivial

-- pages that the handle of a page-stored file lists and a truncation to n keeps
def KeptBy (s : Fs) (h : FileHandle) (n p : ℕ) : Prop :=
  Traced s.header (h.inode.dataPages.take ((n + s.header.pageSize - 1) / s.header.pageSize)) p

theorem shrink_reclaims (hs : Sound s (h :: live)) (hv : s.variant = .dynamic) (hc : h.connected = true)
    (hi : Valid s h.page) (hn : h.inode.inodeNumber ≠ 0) (hp : listed s h.page ≠ []) :
    (∀ n < h.inode.fileLen, wp (truncate h n >>= fun k => flush k.2)
      (fun r t => r.1 = true →
        (Reclaimed s t h.page r.2.page ↔ ∀ p ∈ listed s h.page, KeptBy s h n p) ∧
        (Accounted s h → ∀ u, initDynamic t.restarted = .ok true u →
          (getNumberOfFreeDataPages t = getNumberOfFreeDataPages u ↔
            ∀ p ∈ listed s h.page ++ h.ids, KeptBy s h n p))) (fun _ _ => True) s) ∧
    wp (deleteFile h) (fun r t => r.1 = true → ¬ Reclaimed s t h.page r.2.page) (fun _ _ => True) s ∧
    ∀ s0 name mode data, mode.trunc = true → findFile name s0 = .ok h s →
      wp (openFile name mode >>= fun k => write k data >>= fun w => flush w.2)
        (fun r t => r.1 = true → ¬ Reclaimed s t h.page r.2.page) (fun _ _ => True) s0 := by
  have hv' : s.variant ≠ .noDel := by
    rw [hv]
    simp
  refine ⟨fun n hlt => ?_, wp_deleteFile_loses hs hv' hi hn hp, fun s0 name mode data htrunc hfind => ?_⟩
  · rw [wp_bind]
    apply wp_mono (wp_truncate_narrows hc hlt)
    · rintro k t ⟨rfl, hk, htraced⟩
      apply wp_mono (wp_flush_narrowed hs hv' hi hn hk)
      · intro r u hr hok
        simp only [htraced] at hr
        exact hr hok
      · exact fun _ _ h => h
    · exact fun _ _ h => h
  · have hst : ∀ m ∈ h.inode.dataPages, m.state ≠ .deleted := by
      intro m hm hdel
      have hfresh := wp_ok (Q := fun h _ => FreshHandle h) (wp_findFile_fresh name) hfind
      rw [hfresh.states m hm] at hdel
      cases hdel
    have hopen : openFile name mode s0 = openTrunc h s := by
      simp only [openFile, bind, EStateM.bind, hfind, hc, not_true_eq_false, if_false, htrunc, if_true]
    have hw := wp_openTrunc_loses hs hv' hi hn hp hst data
    unfold wp at hw ⊢
    simp only [bind, EStateM.bind, hopen] at hw ⊢
    exact hw

end Reclaim

-- one file on the erased medium, its data pages given by number
def storedOn (page : ℕ) (inode : Inode) (free : List ℕ) : Fs :=
  match inode2page erasedHeader inode with
  | .ok img => { erasedFs with
      mem := { bytes := overwrite erasedFs.mem.bytes (64 * (page + 1)) (@inodeImage dynamicConfig erasedHeader img) }
      freeDataPages := { data := free } }
  | .error _ => erasedFs

def pagedInode : Inode where
  inodeNumber := 1
  inodeVersionNumber := 1
  fileNameLen := 1
  fileName := [97]
  fileLen := 100
  pages := 2
  dataPages := [⟨4, .stored⟩, ⟨5, .stored⟩]

def pagedFs : Fs := storedOn 0 pagedInode [6, 7, 8, 9, 10]

def pagedHandle : FileHandle := { inode := pagedInode, connected := true }

theorem pagedFs_valid : ∀ i, @Valid dynamicConfig pagedFs i ↔ i = 0 := by
  have h : ∀ i < 4, @Valid dynamicConfig pagedFs i ↔ i = 0 := by
    decide +kernel
  intro i
  constructor
  · exact fun hi => (h i hi.1).mp hi
  · rintro rfl
    exact (h 0 (by decide)).mpr rfl

theorem pagedFs_listed : listed pagedFs 0 = [4, 5] := by
  decide +kernel

theorem pagedFs_stores : @Stores dynamicConfig pagedFs 0 pagedInode := by
  obtain ⟨img, himg⟩ : ∃ img, inode2page erasedHeader pagedInode = .ok img := by
    refine ⟨(inode2page erasedHeader pagedInode).toOption.getD [], ?_⟩
    decide +kernel
  have hpage : pageAt pagedFs 0 = @inodeImage dynamicConfig erasedHeader
      ((inode2page erasedHeader pagedInode).toOption.getD []) := by
    decide +kernel
  have hhead : pagedFs.header = erasedHeader := by
    decide +kernel
  refine ⟨img, ?_, ?_⟩
  · rw [hhead]
    exact inode2page_eq_ok himg
  · rw [hpage, himg, hhead]
    rfl

theorem pagedFs_sound : @Sound dynamicConfig pagedFs [pagedHandle] := by
  have hlisted : ∀ i, @Valid dynamicConfig pagedFs i → listed pagedFs i = [4, 5] := by
    intro i hi
    rw [(pagedFs_valid i).mp hi]
    exact pagedFs_listed
  have hregion : ∀ p ∈ [4, 5, 6, 7, 8, 9, 10], DataRegion pagedFs p := by
    decide +kernel
  have hfree : pagedFs.freeDataPages = { data := [6, 7, 8, 9, 10] } := by
    decide +kernel
  have hmem : ∀ p, p ∈ pagedFs.freeDataPages → p ∈ [6, 7, 8, 9, 10] := by
    intro p hp
    rw [hfree] at hp
    exact (List.mem_filter.mp hp).1
  have hnot : ∀ p ∈ [4, 5], p ∉ pagedFs.freeDataPages := by
    intro p hp hin
    have hin := hmem p hin
    simp only [List.mem_cons, List.not_mem_nil, or_false] at hp hin
    omega
  have hone : ∀ i j, @Valid dynamicConfig pagedFs i → @Valid dynamicConfig pagedFs j → i = j := by
    intro i j hi hj
    rw [(pagedFs_valid i).mp hi, (pagedFs_valid j).mp hj]
  have hready : Ready pagedFs := by
    refine ⟨⟨⟨by decide +kernel, by decide +kernel, by decide +kernel⟩, by decide +kernel⟩, ?_, ?_, ?_, ?_, ?_⟩
    · intro left
      rw [show pagedFs.mem.plan = [] by decide +kernel]
      exact List.not_mem_nil
    · rw [hfree]
      exact ⟨by decide, fun _ => by decide, fun _ => by decide, by decide⟩
    · rw [show pagedFs.allocatedUnwrittenPages = {} by decide +kernel]
      exact PageSet.wf_empty
    · decide +kernel
    · intro p hp
      apply hregion
      exact List.mem_append_right [4, 5] (hmem p hp)
  refine @Sound.mk dynamicConfig _ _ hready (by decide +kernel) (@FlashSound.mk dynamicConfig _ ?_ ?_ ?_ ?_) ?_ ?_ (by simp)
  · intro i hi
    rw [(pagedFs_valid i).mp hi]
    exact ⟨pagedInode, pagedFs_stores, by decide⟩
  · intro i hi p hp
    rw [hlisted i hi] at hp
    exact hregion p (List.mem_append_left [6, 7, 8, 9, 10] hp)
  · intro i hi
    rw [hlisted i hi]
    decide
  · exact fun i j hi hj hne => absurd (hone i j hi hj) hne
  · intro i hi p hp
    rw [hlisted i hi] at hp
    exact hnot p hp
  · intro h hh
    rw [List.mem_singleton.mp hh]
    refine @LiveHandle.mk dynamicConfig _ _ ⟨by decide, ?_, hnot⟩ (by decide +kernel) (by decide)
      (Or.inl ((pagedFs_valid 0).mpr rfl)) ?_
    · exact fun p hp => hregion p (List.mem_append_left [6, 7, 8, 9, 10] hp)
    · exact fun i hi hne => absurd ((pagedFs_valid i).mp hi) hne

theorem pagedHandle_listed : listed pagedFs pagedHandle.page = [4, 5] := pagedFs_listed

theorem shrink_reclaims_paged : wp (truncate pagedHandle 65 >>= fun k => @flush dynamicConfig k.2)
    (fun r t => r.1 = true → (@Reclaimed dynamicConfig pagedFs t pagedHandle.page r.2.page ↔
      ∀ p ∈ listed pagedFs pagedHandle.page, KeptBy pagedFs pagedHandle 65 p)) (fun _ _ => True) pagedFs := by
  have hlisted : listed pagedFs pagedHandle.page ≠ [] := by
    rw [pagedHandle_listed]
    simp
  have hvariant : pagedFs.variant = .dynamic := by
    decide +kernel
  have hvalid : @Valid dynamicConfig pagedFs pagedHandle.page := (pagedFs_valid _).mpr rfl
  have hsound := pagedFs_sound
  have hlt : 65 < pagedHandle.inode.fileLen := by
    decide
  -- nothing is left to compute
  generalize pagedFs = s at hsound hvariant hvalid hlisted ⊢
  have hw := @shrink_reclaims dynamicConfig s pagedHandle [] hsound hvariant rfl hvalid (by decide) hlisted
  apply wp_mono (hw.1 65 hlt)
  · exact fun r t hr hok => (hr hok).1
  · exact fun _ _ h => h

-- the second page lies behind the tenth byte
def truncateToTen : EStateM.Result Fault Fs (Bool × FileHandle) :=
  (truncate pagedHandle 10 >>= fun k => @flush dynamicConfig k.2) pagedFs

theorem truncate_losesPage : @Sound dynamicConfig pagedFs [pagedHandle] ∧ ∃ r t,
    truncateToTen = .ok r t ∧ r.1 = true ∧
      ¬ @Reclaimed dynamicConfig pagedFs t pagedHandle.page r.2.page := by
  have hrun : (match truncateToTen with
      | .ok r t => decide (r.1 = true ∧ 5 ∉ listed t r.2.page ∧ 5 ∉ t.freeDataPages.live)
      | .error _ _ => false) = true := by
    decide +kernel
  refine ⟨pagedFs_sound, ?_⟩
  cases hr : truncateToTen with
  | error e t =>
    rw [hr] at hrun
    cases hrun
  | ok r t =>
    rw [hr] at hrun
    obtain ⟨h1, h2, h3⟩ := of_decide_eq_true hrun
    refine ⟨r, t, rfl, h1, fun hrec => h3 (hrec 5 ?_ fun _ => h2).2⟩
    rw [pagedHandle_listed]
    simp

end SimpleFlashFs
