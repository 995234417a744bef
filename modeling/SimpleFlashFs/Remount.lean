import SimpleFlashFs.Create

namespace SimpleFlashFs

open Lib

-- a new instance on the same memory
def Fs.restarted (s : Fs) : Fs := { variant := s.variant, mem := s.mem }

section Restarted

variable {s t : Fs}

-- the new instance once it has read its header
def Fs.headed (s : Fs) : Fs := s.restarted.withHeader s.header

theorem headed_ready (hr : Ready s) : Ready s.headed where
  layout := hr.layout.of_eq rfl rfl
  noShort := hr.noShort
  freeWF := PageSet.wf_empty
  allocatedWF := PageSet.wf_empty
  range _ hi := List.mem_range.mp hi
  free p hp := absurd hp (PageSet.not_mem_empty p)

theorem headed_sameInodes (s : Fs) : SameInodes s s.headed := ⟨rfl, fun _ _ => rfl⟩

variable [Config]

theorem Recoverable.of_same (e : SameInodes s t) (hs : Recoverable s) : Recoverable t where
  stored i hi := by
    have hi' := e.valid.mp hi
    obtain ⟨inode, h1, h2⟩ := hs.stored i hi'
    exact ⟨inode, e.stores hi'.1 h1, h2⟩
  region i hi p hp := by
    have hi' := e.valid.mp hi
    rw [e.listed hi'.1] at hp
    rw [DataRegion, InRange, e.header]
    exact hs.region i hi' p hp
  nodup i hi := by
    have hi' := e.valid.mp hi
    rw [e.listed hi'.1]
    exact hs.nodup i hi'
  apart i j hi hj hne := by
    have hi' := e.valid.mp hi
    have hj' := e.valid.mp hj
    have hnumber : ∀ {k}, Valid s k → numberAt t k = numberAt s k := by
      intro k hk
      rw [numberAt, numberAt, rawAt_congr e.header (e.pages k hk.1)]
    rcases hs.apart i j hi' hj' hne with h | ⟨h1, h2⟩
    · left
      intro p hp
      rw [e.listed hi'.1] at hp
      rw [e.listed hj'.1]
      exact h p hp
    · right
      rw [hnumber hi', hnumber hj']
      refine ⟨h1, fun k hk hnum => ?_⟩
      have hk' := e.valid.mp hk
      rw [hnumber hk'] at hnum
      exact h2 k hk' hnum

end Restarted

section Mounted

variable [Config] {s t u : Fs} {survivors live : List FileHandle} {h : FileHandle}

theorem rawAt_nameLen (hs : Recoverable s) {i : ℕ} (hi : Valid s i) : (rawAt s i).inode.fileNameLen < 2 ^ 16 := by
  obtain ⟨inode, h1, h2⟩ := hs.stored i hi
  rw [rawAt, h1.decode h2 false]
  exact lt_of_eq_of_lt (decoded_nameLen _ _ _) h2

-- only a file without pages is changed by reading it without corrections
theorem rawAt_modified (hs : Recoverable s) {i : ℕ} (hi : Valid s i) (hm : (rawAt s i).modified = true) :
    (rawAt s i).ids = [] := by
  obtain ⟨inode, h1, h2⟩ := hs.stored i hi
  rw [rawAt, h1.decode h2 false] at hm ⊢
  dsimp only at hm
  change (inode.decoded s.header false).ids = []
  rw [decoded_raw_ids]
  unfold Inode.decoded at hm
  dsimp only at hm
  split at hm
  · rw [correctPages_raw] at hm
    cases hm
  · next hnil =>
    rw [Inode.recordedIds, not_not.mp hnil]
    rfl

theorem Mounted.sound (hm : Mounted s t survivors) (hs : Recoverable s)
    (herased : checksumOk s.header.endianness (List.replicate s.header.pageSize 0xFF) = false) :
    Sound t survivors := by
  have hpage : ∀ h ∈ survivors, listed t h.page = listed s h.page ∧ h.ids = listed s h.page ∧ Valid s h.page := by
    intro h hh
    obtain ⟨h1, h2⟩ := hm.newest.raw h hh
    refine ⟨listed_congr hm.header (hm.page h hh), ?_, h1⟩
    rw [← rawAt_ids, ← h2]
  have hregion : ∀ q, DataRegion s q → DataRegion t q := by
    intro q hq
    rw [DataRegion, InRange, hm.header]
    exact hq
  -- the survivors have different numbers, so they share no page
  have hdisjoint : ∀ h ∈ survivors, ∀ k ∈ survivors, h.page ≠ k.page → ∀ p ∈ h.ids, p ∉ k.ids := by
    intro h hh k hk hne
    have h1 := hm.newest.raw h hh
    have h2 := hm.newest.raw k hk
    rw [(hpage h hh).2.1, (hpage k hk).2.1]
    refine (hs.apart _ _ h1.1 h2.1 hne).resolve_right fun hsame => hne ?_
    have hnum : h.inode.inodeNumber = k.inode.inodeNumber := by
      have := hsame.1
      unfold numberAt at this
      rwa [← h1.2, ← h2.2] at this
    rw [List.inj_on_of_nodup_map hm.newest.numbers hh hk hnum]
  have hnotFree : ∀ h ∈ survivors, ∀ p ∈ h.ids, p ∉ t.freeDataPages :=
    fun h hh p hp hf => ((hm.free p).mp hf).2 h hh hp
  constructor
  · exact hm.ready
  · rw [hm.header]
    exact herased
  · constructor
    · intro i hi
      obtain ⟨h, hh, rfl⟩ := (hm.valid i).mp hi
      obtain ⟨inode, h1, h2⟩ := hs.stored _ (hpage h hh).2.2
      exact ⟨inode, stores_congr hm.header (hm.page h hh) h1, h2⟩
    · intro i hi p hp
      obtain ⟨h, hh, rfl⟩ := (hm.valid i).mp hi
      rw [(hpage h hh).1] at hp
      exact hregion p (hs.region _ (hpage h hh).2.2 p hp)
    · intro i hi
      obtain ⟨h, hh, rfl⟩ := (hm.valid i).mp hi
      rw [(hpage h hh).1]
      exact hs.nodup _ (hpage h hh).2.2
    · intro i j hi hj hne
      obtain ⟨h, hh, rfl⟩ := (hm.valid i).mp hi
      obtain ⟨k, hk, rfl⟩ := (hm.valid j).mp hj
      rw [(hpage h hh).1, (hpage k hk).1, ← (hpage h hh).2.1, ← (hpage k hk).2.1]
      exact hdisjoint h hh k hk hne
  · intro i hi p hp
    obtain ⟨h, hh, rfl⟩ := (hm.valid i).mp hi
    rw [(hpage h hh).1, ← (hpage h hh).2.1] at hp
    exact hnotFree h hh p hp
  · intro h hh
    obtain ⟨h1, h2, h3⟩ := hpage h hh
    refine ⟨⟨?_, fun p hp => ?_, hnotFree h hh⟩, ?_, ?_, Or.inl ((hm.valid _).mpr ⟨h, hh, rfl⟩), fun i hi hne p hp => ?_⟩
    · rw [h2]
      exact hs.nodup _ h3
    · rw [h2] at hp
      exact hregion p (hs.region _ h3 p hp)
    · rw [hm.header]
      exact h3.1
    · rw [(hm.newest.raw h hh).2]
      exact rawAt_nameLen hs h3
    · obtain ⟨k, hk, rfl⟩ := (hm.valid i).mp hi
      rw [(hpage k hk).1, ← (hpage k hk).2.1]
      exact hdisjoint h hh k hk hne.symm p hp
  · have hpages := hm.newest.pages
    rw [List.Nodup, List.pairwise_map] at hpages
    refine hpages.imp_of_mem fun {h k} hh hk hne => ⟨hne, hdisjoint h hh k hk hne⟩

-- only the pages that a flush strips from the handle become free
theorem Flushed.free {r : Bool × FileHandle} (hf : Flushed s h t r) (hp : h.page < s.header.maxInodes) {q : ℕ}
    (hq : q ∈ t.freeDataPages) : q ∈ s.freeDataPages ∨ q ∈ h.ids ∧ q ∉ r.2.ids := by
  cases hf with
  | unmodified => exact Or.inl hq
  | first hm hn t hc =>
    obtain ⟨u, img, -, hz, -, ht⟩ := hc
    rw [ht.rest, hz.rest] at hq
    exact Or.inl hq
  | full hm hn t ht =>
    rw [ht.rest] at hq
    exact Or.inl hq
  | next hm hn p u v t hu hc he =>
    obtain ⟨w, img, -, hz, -, hv⟩ := hc
    have hfree : v.freeDataPages = s.freeDataPages := by rw [hv.rest, hz.rest, hu.rest]
    have hh : v.header = s.header := by rw [hv.header, hz.rest, hu.rest]
    split at he
    · rw [he, hfree] at hq
      exact Or.inl hq
    · obtain ⟨l, hl, hlt⟩ := he
      rw [hlt.free, hfree, hh] at hq
      rcases hq with hq | ⟨hq, hgt⟩
      · exact Or.inl hq
      · rcases (hl.mem_iff q).mp hq with rfl | hq
        · omega
        · rw [clean_ids]
          exact Or.inr hq

theorem Flushed.free_mono {r : Bool × FileHandle} (hf : Flushed s h t r) {q : ℕ} (hq : q ∈ s.freeDataPages) :
    q ∈ t.freeDataPages := by
  cases hf with
  | unmodified => exact hq
  | first hm hn t hc =>
    obtain ⟨u, img, -, hz, -, ht⟩ := hc
    rw [ht.rest, hz.rest]
    exact hq
  | full hm hn t ht =>
    rw [ht.rest]
    exact hq
  | next hm hn p u v t hu hc he =>
    obtain ⟨w, img, -, hz, -, hv⟩ := hc
    have hfree : v.freeDataPages = s.freeDataPages := by rw [hv.rest, hz.rest, hu.rest]
    split at he
    · rw [he, hfree]
      exact hq
    · obtain ⟨l, -, hlt⟩ := he
      rw [hlt.free, hfree]
      exact Or.inl hq

theorem Closed.free_iff (hc : Closed s h t) (hp : h.page < s.header.maxInodes)
    (hm : h.modified = true → h.ids = []) (q : ℕ) : q ∈ t.freeDataPages ↔ q ∈ s.freeDataPages := by
  unfold Closed at hc
  split at hc
  · obtain ⟨u, r, hf, ht⟩ := hc
    rw [ht.rest]
    refine ⟨fun hq => ?_, hf.free_mono⟩
    rcases hf.free hp hq with hq | ⟨h1, h2⟩
    · exact hq
    · cases hmod : h.modified with
      | true =>
        rw [hm hmod] at h1
        cases h1
      | false =>
        cases hf with
        | unmodified => exact absurd h1 h2
        | first hm' => rw [hmod] at hm'; cases hm'
        | full hm' => rw [hmod] at hm'; cases hm'
        | next hm' => rw [hmod] at hm'; cases hm'
  · rw [hc]

structure AllClosed (s t : Fs) : Prop where
  sound : Sound t []
  keeps : Keeps s t
  free : ∀ q, q ∈ t.freeDataPages ↔ q ∈ s.freeDataPages

theorem wp_closeAll (hs : Sound s live) (hv : s.variant ≠ .noDel)
    (hm : ∀ h ∈ live, h.modified = true → h.ids = []) :
    wp (each closeHandle live) (fun _ t => AllClosed s t) (fun _ _ => True) s := by
  induction live generalizing s with
  | nil => exact ⟨hs, Keeps.refl s, fun _ => Iff.rfl⟩
  | cons h live ih =>
    have hl := hs.head
    rw [each, wp_bind]
    apply wp_mono (wp_closeHandle hs.ready hl.toOwns hl.page)
    · intro _ t hc
      have hk := hc.keeps
      have hfree := hc.free_iff hl.page (hm h (List.mem_cons_self ..))
      apply wp_mono (ih (hs.closed hv hc) (by rw [hk.variant]; exact hv)
        fun k hk => hm k (List.mem_cons_of_mem _ hk))
      · exact fun _ u hu => ⟨hu.sound, hk.trans hu.keeps, fun q => (hu.free q).trans (hfree q)⟩
      · exact fun _ _ h => h
    · exact fun _ _ _ => trivial

theorem HeaderOn.of_headerPage (hon : HeaderOn s.mem s.header) (L : Layout s) (hh : t.header = s.header)
    (hl : t.mem.bytes.length = s.mem.bytes.length) (hp : headerPage t = headerPage s) :
    HeaderOn t.mem t.header := by
  have hfits : s.header.pageSize ≤ s.mem.bytes.length := by
    have h1 := L.fits
    have h2 := L.inodes
    have h3 := Nat.le_mul_of_pos_right s.header.pageSize (by omega : 0 < s.header.filesystemSize)
    omega
  rw [hh]
  apply hon.congr hfits hl
  simpa only [headerPage, Memory.read, slice, List.drop_zero, hh] using hp

-- a filesystem that was mounted, with every handle of the scan closed
structure Remounted (s t : Fs) : Prop where
  scanned : ∃ u survivors, Mounted s.headed u survivors ∧ AllClosed u t

theorem HeaderOn.wp_initBase (hon : HeaderOn s.mem s.header) :
    wp SimpleFlashFs.initBase (fun ok t => ok = true ∧ t = s.headed) (fun _ _ => False) s.restarted := by
  have hi : SimpleFlashFs.initBase s.restarted = .ok true s.headed := HeaderOn.initBase (s := s.restarted) hon
  unfold wp
  rw [hi]
  exact ⟨rfl, rfl⟩

theorem wp_initDynamic (hon : HeaderOn s.mem s.header) (hr : Ready s) (hs : Recoverable s)
    (herased : checksumOk s.header.endianness (List.replicate s.header.pageSize 0xFF) = false)
    (hv : s.variant ≠ .noDel) :
    wp initDynamic (fun ok t => ok = true ∧ Remounted s t) (fun _ _ => True) s.restarted := by
  have hrec := hs.of_same (headed_sameInodes s)
  rw [initDynamic, wp_bind]
  apply wp_mono hon.wp_initBase
  · rintro ok t ⟨rfl, rfl⟩
    rw [if_pos rfl, wp_bind, readAllFreeDataPages_eq, wp_bind]
    apply wp_mono (wp_scanFreeDataPages hrec (headed_ready hr) PageSet.not_mem_empty herased hv)
    · intro survivors u hu
      have hraw := hu.newest.raw
      apply wp_mono (wp_closeAll (hu.sound hrec herased) (by rw [hu.variant]; exact hv) fun h hh hm => ?_)
      · exact fun _ t ht => ⟨rfl, ⟨u, survivors, hu, ht⟩⟩
      · exact fun _ _ h => h
      · obtain ⟨h1, h2⟩ := hraw h hh
        rw [h2] at hm ⊢
        exact rawAt_modified hrec h1 hm
    · exact fun _ _ _ => trivial
  · exact fun _ _ h => h.elim

-- the data pages that no surviving version lists
theorem Remounted.free (hm : Remounted s t) : ∃ survivors, Newest s.headed survivors ∧
    ∀ q, q ∈ t.freeDataPages ↔ DataRegion s q ∧ ∀ h ∈ survivors, q ∉ h.ids := by
  obtain ⟨u, survivors, h1, h2⟩ := hm.scanned
  exact ⟨survivors, h1.newest, fun q => (h2.free q).trans (h1.free q)⟩

-- with one version for each file all of them survive
theorem Remounted.free_single (hm : Remounted s t)
    (hone : ∀ i j, Valid s i → Valid s j → numberAt s i = numberAt s j → i = j) (q : ℕ) :
    q ∈ t.freeDataPages ↔ DataRegion s q ∧ ∀ i, Valid s i → q ∉ listed s i := by
  obtain ⟨survivors, hnew, hfree⟩ := hm.free
  have hsame := headed_sameInodes s
  have hids : ∀ h ∈ survivors, Valid s h.page ∧ h.ids = listed s h.page := by
    intro h hh
    obtain ⟨h1, h2⟩ := hnew.raw h hh
    refine ⟨hsame.valid.mp h1, ?_⟩
    rw [← rawAt_ids]
    exact congrArg FileHandle.ids h2
  rw [hfree]
  apply and_congr_right
  intro _
  constructor
  · intro h i hi
    obtain ⟨k, hk, hnum, -⟩ := hnew.newest i (hsame.valid.mpr hi)
    obtain ⟨h1, h2⟩ := hids k hk
    have hnum' : numberAt s k.page = numberAt s i := by
      rw [(hnew.raw k hk).2] at hnum
      exact hnum
    rw [← hone _ _ h1 hi hnum', ← h2]
    exact h k hk
  · intro h k hk
    obtain ⟨h1, h2⟩ := hids k hk
    rw [h2]
    exact h _ h1

theorem Remounted.sound (hm : Remounted s t) : Sound t [] := by
  obtain ⟨u, survivors, -, h⟩ := hm.scanned
  exact h.sound

end Mounted

end SimpleFlashFs
