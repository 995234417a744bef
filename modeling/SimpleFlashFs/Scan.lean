import SimpleFlashFs.Sound

namespace SimpleFlashFs

open Lib

def Inode.flashName (inode : Inode) : List UInt8 := inode.fileName.take inode.fileNameLen

theorem decoded_record (hd : Header) (corr : Bool) (inode : Inode) :
    (inode.decoded hd corr).inode.inodeNumber = inode.inodeNumber % 2 ^ 64 ∧
      (inode.decoded hd corr).inode.inodeVersionNumber = inode.inodeVersionNumber % 2 ^ 64 ∧
      (inode.decoded hd corr).inode.fileName = inode.flashName := by
  unfold Inode.decoded
  dsimp only
  split
  · exact ⟨rfl, rfl, rfl⟩
  · split
    · split <;> exact ⟨rfl, rfl, rfl⟩
    · exact ⟨rfl, rfl, rfl⟩

section Records

variable [Config] {s t : Fs} {i j : ℕ}

-- the handle of page i as the mount reads it
def rawAt (s : Fs) (i : ℕ) : FileHandle :=
  match decodeInode s.header (pageAt s i) false with
  | .ok h => { h with page := i }
  | .error _ => { page := i }

def numberAt (s : Fs) (i : ℕ) : ℕ := (rawAt s i).inode.inodeNumber

def versionAt (s : Fs) (i : ℕ) : ℕ := (rawAt s i).inode.inodeVersionNumber

theorem Stores.record {inode : Inode} (hs : Stores s i inode) (hn : inode.fileNameLen < 2 ^ 16) :
    numberAt s i = inode.inodeNumber % 2 ^ 64 ∧ versionAt s i = inode.inodeVersionNumber % 2 ^ 64 ∧
      (rawAt s i).inode.fileName = inode.flashName := by
  unfold numberAt versionAt rawAt
  rw [hs.decode hn false]
  exact decoded_record s.header false inode

omit [Config] in
theorem rawAt_page (s : Fs) (i : ℕ) : (rawAt s i).page = i := by
  unfold rawAt
  split <;> rfl

omit [Config] in
theorem rawAt_congr (hh : t.header = s.header) (hp : pageAt t i = pageAt s i) : rawAt t i = rawAt s i := by
  rw [rawAt, rawAt, hh, hp]

omit [Config] in
theorem rawAt_ids (s : Fs) (i : ℕ) : (rawAt s i).ids = listed s i := by
  unfold rawAt listed
  cases decodeInode s.header (pageAt s i) false <;> rfl

-- every valid page can be read, and pages are shared only by the two versions of one inode
structure Recoverable (s : Fs) : Prop where
  stored : ∀ i, Valid s i → ∃ inode, Stores s i inode ∧ inode.fileNameLen < 2 ^ 16
  region : ∀ i, Valid s i → ∀ p ∈ listed s i, DataRegion s p
  nodup : ∀ i, Valid s i → (listed s i).Nodup
  apart : ∀ i j, Valid s i → Valid s j → i ≠ j → (∀ p ∈ listed s i, p ∉ listed s j) ∨
    numberAt s i = numberAt s j ∧ ∀ k, Valid s k → numberAt s k = numberAt s i → k = i ∨ k = j

theorem FlashSound.recoverable (hs : FlashSound s) : Recoverable s :=
  ⟨hs.stored, hs.region, hs.nodup, fun i j hi hj hne => Or.inl (hs.apart i j hi hj hne)⟩

theorem Recoverable.raw (hs : Recoverable s) (hi : Valid s i) :
    ∃ h, decodeInode s.header (pageAt s i) false = .ok h ∧ h.connected = true ∧
      rawAt s i = { h with page := i } := by
  obtain ⟨inode, h1, h2⟩ := hs.stored i hi
  have hd := h1.decode h2 false
  exact ⟨_, hd, decoded_connected _ _ _, by rw [rawAt, hd]⟩

end Records

section Free

-- the loop that takes every page behind the inodes for free
theorem foldl_fill {l : List ℕ} {t : PageSet} (ht : t.WF) (hl : ∀ p ∈ l, p < noData) (hn : l.Nodup)
    (hd : ∀ p ∈ l, p ∉ t) :
    (l.foldl PageSet.unorderedInsert t).WF ∧
      ∀ q, q ∈ l.foldl PageSet.unorderedInsert t ↔ q ∈ t ∨ q ∈ l := by
  induction l generalizing t with
  | nil => simpa using ht
  | cons m l ih =>
    have hm := hl m (by simp)
    rw [List.nodup_cons] at hn
    have hmem : ∀ q, q ∈ t.unorderedInsert m ↔ q ∈ t ∨ q = m := fun q => PageSet.mem_unorderedInsert hm
    obtain ⟨h1, h2⟩ := ih (t := t.unorderedInsert m)
      (PageSet.unorderedInsert_wf ht hm (hd m (by simp)))
      (fun x hx => hl x (by simp [hx])) hn.2 (fun x hx hxt => by
        rcases (hmem _).mp hxt with hxt | rfl
        · exact hd x (by simp [hx]) hxt
        · exact hn.1 hx)
    refine ⟨h1, fun q => ?_⟩
    rw [List.foldl_cons, h2, hmem, List.mem_cons, or_assoc]

structure Filled (s t : Fs) : Prop where
  rest : t = { s with freeDataPages := t.freeDataPages }
  wf : t.freeDataPages.WF
  mem_iff : ∀ q, q ∈ t.freeDataPages ↔ DataRegion s q

theorem allDataPages_eq {hd : Header} (h0 : 0 < hd.filesystemSize) (h : hd.filesystemSize ≤ 2 ^ 32) :
    allDataPages hd = some ((List.range' hd.maxInodes (hd.filesystemSize - 1 - hd.maxInodes)).foldl
      PageSet.unorderedInsert {}) := by
  have hsub : subU64 hd.filesystemSize 1 = hd.filesystemSize - 1 := by
    rw [subU64, show hd.filesystemSize + 2 ^ 64 - 1 = (hd.filesystemSize - 1) + 2 ^ 64 by omega,
      Nat.add_mod_right, Nat.mod_eq_of_lt (by omega)]
  unfold allDataPages
  dsimp only
  rw [hsub, if_neg (by omega)]

theorem wp_fillFreeDataPages {s : Fs} (L : Geometry s) (hN : s.header.filesystemSize < noData)
    (R : Fault → Fs → Prop) : wp fillFreeDataPages (fun _ t => Filled s t) R s := by
  have hm := L.inodes
  have hmem : ∀ q, q ∈ List.range' s.header.maxInodes (s.header.filesystemSize - 1 - s.header.maxInodes) ↔
      DataRegion s q := by
    intro q
    rw [List.mem_range'_1, DataRegion, InRange]
    omega
  have hlt : ∀ q, DataRegion s q → q < noData := by
    intro q hq
    have := hq.2
    unfold InRange at this
    omega
  obtain ⟨h1, h2⟩ := foldl_fill
    (l := List.range' s.header.maxInodes (s.header.filesystemSize - 1 - s.header.maxInodes))
    PageSet.wf_empty (fun p hp => hlt p ((hmem p).mp hp)) List.nodup_range'
    (fun _ _ => PageSet.not_mem_empty _)
  unfold noData at hN
  simp only [fillFreeDataPages, wp_bind, wp_get, allDataPages_eq (by omega : 0 < s.header.filesystemSize)
    (by omega), wp_set]
  refine ⟨rfl, h1, fun q => ?_⟩
  rw [h2, hmem]
  simp

end Free

section Collect

variable [Config] {s t : Fs}

def flat (groups : List (ℕ × List FileHandle)) : List FileHandle := groups.flatMap (·.2)

-- one group for each inode number, in ascending order
structure Grouped (groups : List (ℕ × List FileHandle)) : Prop where
  ascending : (groups.map (·.1)).Pairwise (· < ·)
  number : ∀ g ∈ groups, ∀ h ∈ g.2, h.inode.inodeNumber = g.1
  nonempty : ∀ g ∈ groups, g.2 ≠ []

omit [Config] in
theorem flat_insertInode (file : FileHandle) (groups : List (ℕ × List FileHandle)) :
    (flat (insertInode file groups)).Perm (file :: flat groups) := by
  induction groups with
  | nil => exact List.Perm.refl _
  | cons g rest ih =>
    obtain ⟨n, files⟩ := g
    rw [insertInode]
    split
    · exact List.Perm.refl _
    · split
      · simp only [flat, List.flatMap_cons, List.append_assoc]
        exact List.perm_middle
      · simp only [flat, List.flatMap_cons] at ih ⊢
        exact (ih.append_left files).trans List.perm_middle

omit [Config] in
theorem mem_keys_insertInode {file : FileHandle} {groups : List (ℕ × List FileHandle)} {g : ℕ × List FileHandle}
    (hg : g ∈ insertInode file groups) :
    g.1 = file.inode.inodeNumber ∨ ∃ g' ∈ groups, g'.1 = g.1 := by
  induction groups with
  | nil =>
    rw [List.mem_singleton.mp hg]
    exact Or.inl rfl
  | cons x rest ih =>
    obtain ⟨n, files⟩ := x
    rw [insertInode] at hg
    split at hg
    · rcases List.mem_cons.mp hg with rfl | hg
      · exact Or.inl rfl
      · exact Or.inr ⟨g, hg, rfl⟩
    · split at hg
      · next hn =>
        rcases List.mem_cons.mp hg with rfl | hg
        · exact Or.inl hn.symm
        · exact Or.inr ⟨g, List.mem_cons_of_mem _ hg, rfl⟩
      · rcases List.mem_cons.mp hg with rfl | hg
        · exact Or.inr ⟨_, List.mem_cons_self .., rfl⟩
        · rcases ih hg with h | ⟨g', h1, h2⟩
          · exact Or.inl h
          · exact Or.inr ⟨g', List.mem_cons_of_mem _ h1, h2⟩

omit [Config] in
theorem Grouped.insertInode {groups : List (ℕ × List FileHandle)} (hg : Grouped groups) (file : FileHandle) :
    Grouped (insertInode file groups) := by
  induction groups with
  | nil => exact ⟨by simp [SimpleFlashFs.insertInode], by simp [SimpleFlashFs.insertInode],
      by simp [SimpleFlashFs.insertInode]⟩
  | cons x rest ih =>
    obtain ⟨n, files⟩ := x
    have hasc := hg.ascending
    rw [List.map_cons, List.pairwise_cons] at hasc
    have hkey : ∀ g ∈ rest, n < g.1 := fun g hgr => hasc.1 g.1 (List.mem_map_of_mem hgr)
    have hrest : Grouped rest := ⟨hasc.2, fun g hgr => hg.number g (List.mem_cons_of_mem _ hgr),
      fun g hgr => hg.nonempty g (List.mem_cons_of_mem _ hgr)⟩
    rw [SimpleFlashFs.insertInode]
    split
    · next hlt =>
      refine ⟨?_, ?_, ?_⟩
      · rw [List.map_cons, List.pairwise_cons]
        refine ⟨fun k hk => ?_, hg.ascending⟩
        obtain ⟨g, hgm, rfl⟩ := List.mem_map.mp hk
        rcases List.mem_cons.mp hgm with rfl | hgm
        · exact hlt
        · exact hlt.trans (hkey g hgm)
      · intro g hgm h hh
        rcases List.mem_cons.mp hgm with rfl | hgm
        · rw [List.mem_singleton.mp hh]
        · exact hg.number g hgm h hh
      · intro g hgm
        rcases List.mem_cons.mp hgm with rfl | hgm
        · exact List.cons_ne_nil _ _
        · exact hg.nonempty g hgm
    · split
      · next heq =>
        refine ⟨hg.ascending, ?_, ?_⟩
        · intro g hgm h hh
          rcases List.mem_cons.mp hgm with rfl | hgm
          · rcases List.mem_append.mp hh with hh | hh
            · exact hg.number (n, files) (List.mem_cons_self ..) h hh
            · rw [List.mem_singleton.mp hh]
              exact heq
          · exact hrest.number g hgm h hh
        · intro g hgm
          rcases List.mem_cons.mp hgm with rfl | hgm
          · simp
          · exact hrest.nonempty g hgm
      · next hge hne =>
        have hi := ih hrest
        refine ⟨?_, ?_, ?_⟩
        · rw [List.map_cons, List.pairwise_cons]
          refine ⟨fun k hk => ?_, hi.ascending⟩
          obtain ⟨g, hgm, rfl⟩ := List.mem_map.mp hk
          rcases mem_keys_insertInode hgm with h | ⟨g', h1, h2⟩
          · dsimp only
            omega
          · rw [← h2]
            exact hkey g' h1
        · intro g hgm h hh
          rcases List.mem_cons.mp hgm with rfl | hgm
          · exact hg.number (n, files) (List.mem_cons_self ..) h hh
          · exact hi.number g hgm h hh
        · intro g hgm
          rcases List.mem_cons.mp hgm with rfl | hgm
          · exact hg.nonempty (n, files) (List.mem_cons_self ..)
          · exact hi.nonempty g hgm

-- the valid pages among is, as they are read
def rawsOf (s : Fs) (is : List ℕ) : List FileHandle :=
  (is.filter fun i => checksumOk s.header.endianness (pageAt s i)).map (rawAt s)

structure Collected (s t : Fs) (is : List ℕ) (old new : List (ℕ × List FileHandle)) : Prop where
  rest : t = { s with maxInodeNumber := t.maxInodeNumber }
  max : s.maxInodeNumber ≤ t.maxInodeNumber
  maxNumber : ∀ h ∈ rawsOf s is, h.inode.inodeNumber ≤ t.maxInodeNumber
  perm : (flat new).Perm (flat old ++ rawsOf s is)
  grouped : Grouped old → Grouped new

theorem wp_collectInodes (is : List ℕ) (groups : List (ℕ × List FileHandle)) (L : Layout s)
    (hs : Recoverable s) (his : ∀ i ∈ is, i < s.header.maxInodes) (R : Fault → Fs → Prop) :
    wp (collectInodes is groups) (fun g t => Collected s t is groups g) R s := by
  induction is generalizing s groups with
  | nil => exact ⟨rfl, le_rfl, by simp [rawsOf], by simp [rawsOf], id⟩
  | cons i is ih =>
    have hi := his i (List.mem_cons_self ..)
    have his' : ∀ j ∈ is, j < s.header.maxInodes := fun j hj => his j (List.mem_cons_of_mem _ hj)
    simp only [collectInodes, wp_bind, wp_get]
    rw [wp_ite]
    by_cases hval : Valid s i
    · rw [readPage_of_valid L.toGeometry hval]
      refine ⟨fun _ => ?_, fun hn => absurd rfl hn⟩
      obtain ⟨h, hdec, -, hraw⟩ := hs.raw hval
      simp only [getInode, wp_bind, wp_get, hdec, liftFault, wp_pure, wp_modify]
      have hs' : Recoverable { s with maxInodeNumber := max s.maxInodeNumber h.inode.inodeNumber } :=
        ⟨hs.stored, hs.region, hs.nodup, hs.apart⟩
      refine wp_mono (ih (s := { s with maxInodeNumber := max s.maxInodeNumber h.inode.inodeNumber })
        (insertInode { h with page := i } groups) (L.of_eq rfl rfl) hs' his') (fun g t ht => ?_)
        (fun _ _ h => h)
      have hcons : rawsOf s (i :: is) = { h with page := i } :: rawsOf s is := by
        rw [rawsOf, List.filter_cons_of_pos (by simpa using hval.2), List.map_cons, hraw, rawsOf]
      have hmax := ht.max
      refine ⟨ht.rest, ?_, ?_, ?_, fun hg => ht.grouped (hg.insertInode _)⟩
      · exact (Nat.le_max_left _ _).trans hmax
      · intro k hk
        rw [hcons] at hk
        rcases List.mem_cons.mp hk with rfl | hk
        · exact (Nat.le_max_right _ _).trans hmax
        · exact ht.maxNumber k hk
      · rw [hcons]
        refine ht.perm.trans (((flat_insertInode _ _).append_right _).trans ?_)
        exact List.perm_middle.symm
    · rw [readPage_of_not_valid L.toGeometry hi hval]
      refine ⟨fun hn => absurd hn (by simp), fun _ => ?_⟩
      have hc : checksumOk s.header.endianness (pageAt s i) ≠ true := fun hc => hval ⟨hi, hc⟩
      have hcons : rawsOf s (i :: is) = rawsOf s is := by
        rw [rawsOf, List.filter_cons_of_neg (by simpa using hc), rawsOf]
      refine wp_mono (ih groups L hs his') (fun g t ht => ?_) (fun _ _ h => h)
      exact ⟨ht.rest, ht.max, by rw [hcons]; exact ht.maxNumber, by rw [hcons]; exact ht.perm, ht.grouped⟩

end Collect

section Clear

variable [Config] {s t u : Fs} {live : List FileHandle}

-- the inode pages of t are those of the live handles, as they were in s, and so are their data pages
structure Holding (s t : Fs) (live : List FileHandle) : Prop where
  header : t.header = s.header
  variant : t.variant = s.variant
  canMapRead : t.mem.canMapRead = s.mem.canMapRead
  length : t.mem.bytes.length = s.mem.bytes.length
  headerPage : headerPage t = headerPage s
  valid : ∀ i, Valid t i ↔ ∃ h ∈ live, h.page = i
  page : ∀ h ∈ live, pageAt t h.page = pageAt s h.page
  data : ∀ h ∈ live, ∀ p ∈ h.ids, pageAt t p = pageAt s p

structure Clearing (s t : Fs) (live : List FileHandle) : Prop extends Holding s t live where
  ready : Ready t
  free : ∀ q, q ∈ t.freeDataPages ↔ DataRegion s q
  allocated : ∀ q, q ∉ t.allocatedUnwrittenPages
  maxInodeNumber : t.maxInodeNumber = s.maxInodeNumber
  ivStorage : t.ivStorage = s.ivStorage
  headerInodeRange : t.headerInodeRange = s.headerInodeRange
  once : writeOnce s.mem.trace → writeOnce t.mem.trace

-- handles that may be held together: they come from different inode pages
structure Scanned (s : Fs) (live : List FileHandle) : Prop where
  raw : ∀ h ∈ live, Valid s h.page ∧ h = rawAt s h.page
  pages : (live.map (·.page)).Nodup

-- a page whose writing was cut off fails its checksum
def TornInvalid (s : Fs) : Prop := ∀ e rest, s.mem.trace = e :: rest → e.done = false →
  ∀ i < s.header.maxInodes, e.op.address = pageOffset s.header i → ¬ Valid s i

-- the power was lost while `old` was cleared
def ClearTorn (s t : Fs) (old : FileHandle) (live : List FileHandle) : Prop :=
  TornInvalid t → Holding s t (old :: live) ∨ Holding s t live

theorem Holding.of_mem (H : Holding s t live) (hh : u.header = t.header) (hv : u.variant = t.variant)
    (hb : u.mem.bytes = t.mem.bytes) (hc : u.mem.canMapRead = t.mem.canMapRead) : Holding s u live := by
  have hp : ∀ i, pageAt u i = pageAt t i := fun i => by simp only [pageAt, Memory.read, hh, hb]
  refine ⟨hh.trans H.header, hv.trans H.variant, hc.trans H.canMapRead, by rw [hb, H.length], ?_, ?_, ?_, ?_⟩
  · rw [← H.headerPage]
    simp only [SimpleFlashFs.headerPage, Memory.read, hh, hb]
  · exact fun i => (valid_congr hh (hp i)).trans (H.valid i)
  · exact fun h hm => (hp _).trans (H.page h hm)
  · exact fun h hm p hpm => (hp p).trans (H.data h hm p hpm)

-- once the inode page of old is gone the other handles are held
theorem Holding.clear {old : FileHandle} {may : ℕ → Prop} (hs : Recoverable s)
    (hsc : Scanned s (old :: live)) (L : Layout s) (H : Holding s t (old :: live)) (w : Within t u may)
    (hmay : ∀ i, may i → i = old.page ∨ i ∈ old.ids ∧ ∀ k ∈ live, i ∉ k.ids)
    (hinv : ¬ Valid u old.page) : Holding s u live := by
  have hpages := List.nodup_cons.mp (by simpa using hsc.pages : (old.page :: live.map (·.page)).Nodup)
  have hids : ∀ k ∈ old :: live, ∀ p ∈ k.ids, DataRegion s p := by
    intro k hk p hp
    obtain ⟨hv, hraw⟩ := hsc.raw k hk
    rw [hraw, rawAt_ids] at hp
    exact hs.region _ hv p hp
  have hin : ∀ {i}, InRange s i → InRange t i := fun hi => by rwa [InRange, H.header]
  have hne : ∀ k ∈ live, k.page ≠ old.page := fun k hk he => hpages.1 (he ▸ List.mem_map_of_mem hk)
  have hinode : ∀ i < s.header.maxInodes, i ≠ old.page → pageAt u i = pageAt t i := by
    intro i hi hio
    refine w.pages i (hin (L.lt_inRange hi)) fun hm => ?_
    rcases hmay i hm with he | ⟨he, -⟩
    · exact hio he
    · have := (hids old (List.mem_cons_self ..) i he).1
      omega
  have hlive : ∀ k ∈ live, k.page < s.header.maxInodes :=
    fun k hk => (hsc.raw k (List.mem_cons_of_mem _ hk)).1.1
  constructor
  · exact w.header.trans H.header
  · exact w.variant.trans H.variant
  · exact w.canMapRead.trans H.canMapRead
  · exact w.length.trans H.length
  · exact w.headerPage.trans H.headerPage
  · intro i
    by_cases hio : i = old.page
    · rw [hio]
      constructor
      · exact fun h => absurd h hinv
      · rintro ⟨k, hk, he⟩
        exact absurd he (hne k hk)
    · constructor
      · intro hi
        have hi' : i < s.header.maxInodes := by have := hi.1; rwa [w.header, H.header] at this
        obtain ⟨k, hk, he⟩ := (H.valid i).mp ((valid_congr w.header (hinode i hi' hio)).mp hi)
        rcases List.mem_cons.mp hk with rfl | hk
        · exact absurd he.symm hio
        · exact ⟨k, hk, he⟩
      · rintro ⟨k, hk, rfl⟩
        exact (valid_congr w.header (hinode _ (hlive k hk) hio)).mpr
          ((H.valid _).mpr ⟨k, List.mem_cons_of_mem _ hk, rfl⟩)
  · intro k hk
    rw [hinode _ (hlive k hk) (hne k hk), H.page k (List.mem_cons_of_mem _ hk)]
  · intro k hk p hp
    have hreg := hids k (List.mem_cons_of_mem _ hk) p hp
    rw [w.pages p (hin hreg.2), H.data k (List.mem_cons_of_mem _ hk) p hp]
    intro hm
    rcases hmay p hm with he | ⟨-, he⟩
    · have h1 := (hsc.raw old (List.mem_cons_self ..)).1.1
      have h2 := hreg.1
      omega
    · exact he k hk hp

omit [Config] in
theorem Torn.within {i : ℕ} {op : PhysOp} {may : ℕ → Prop} (h : Torn s t i op) (hm : may i) :
    Within s t may := h.toTouched.within hm

-- an erasure that was cut off starts with the inode page
theorem Holding.clearTorn {old next : FileHandle} {l : List ℕ} (hs : Recoverable s)
    (hsc : Scanned s (old :: live)) (L : Layout s)
    (herased : checksumOk s.header.endianness (List.replicate s.header.pageSize 0xFF) = false)
    (H : Holding s t (old :: live)) (hl : ErasePlan old next l) (hnext : ∀ i ∈ old.ids, i ∉ next.ids →
      ∀ k ∈ live, i ∉ k.ids) (ht : ErasedTorn t u l) : ClearTorn s u old live := by
  intro htorn
  obtain ⟨done, p, rest, v, rfl, hv, hu⟩ := ht
  have hold := (hsc.raw old (List.mem_cons_self ..)).1.1
  have hmem : ∀ q ∈ done ++ p :: rest, q = old.page ∨ q ∈ old.ids ∧ ∀ k ∈ live, q ∉ k.ids := by
    intro q hq
    rcases (hl.mem_iff q).mp hq with h | ⟨h1, h2⟩
    · exact Or.inl h
    · exact Or.inr ⟨h1, hnext q h1 h2⟩
  have hp := hmem p (by simp)
  have hw : Within t u (· ∈ done ++ p :: rest) :=
    (hv.within.mono fun _ h => List.mem_append_left _ h).trans (hu.within (by simp))
  have hfirst : ∀ q ∈ done ++ p :: rest, q ≠ old.page → old.page < q := by
    intro q hq hne
    have hraw := hsc.raw old (List.mem_cons_self ..)
    rcases hmem q hq with h | ⟨h1, -⟩
    · exact absurd h hne
    · rw [hraw.2, rawAt_ids] at h1
      have := (hs.region _ hraw.1 q h1).1
      omega
  have hpin : old.page ∈ done ++ p :: rest := (hl.mem_iff _).mpr (Or.inl rfl)
  have hsorted := hl.sorted
  rw [List.pairwise_append] at hsorted
  cases done with
  | nil =>
    have hpo : p = old.page := by
      by_contra hne
      have h1 := hfirst p (by simp) hne
      rcases List.mem_cons.mp (by simpa using hpin) with he | hin
      · exact hne he.symm
      · have := (List.pairwise_cons.mp hsorted.2.1).1 _ hin
        omega
    have hvt : v.header = t.header := hv.within.header
    have hpv : ∀ i, InRange t i → pageAt v i = pageAt t i := fun i hi => hv.within.pages i hi (by simp)
    rcases hu.started with ⟨hb, -⟩ | htr
    · left
      have hw0 : Within t v (fun _ => False) := hv.within.mono (by simp)
      have hin : ∀ {i}, InRange s i → InRange t i := fun hi => by rwa [InRange, H.header]
      have hpu : ∀ i, InRange s i → pageAt u i = pageAt t i := by
        intro i hi
        rw [← hpv i (hin hi)]
        simp only [pageAt, Memory.read, hb, hu.header]
      have huh : u.header = t.header := hu.header.trans hvt
      refine ⟨huh.trans H.header, hw.variant.trans H.variant, hw.canMapRead.trans H.canMapRead,
        hw.length.trans H.length, hw.headerPage.trans H.headerPage, fun i => ?_, fun k hk => ?_,
        fun k hk q hq => ?_⟩
      · rw [← H.valid i]
        constructor
        · intro hi
          have hi' : i < s.header.maxInodes := by have := hi.1; rwa [huh, H.header] at this
          exact (valid_congr huh (hpu i (L.lt_inRange hi'))).mp hi
        · intro hi
          have hi' : i < s.header.maxInodes := by have := hi.1; rwa [H.header] at this
          exact (valid_congr huh (hpu i (L.lt_inRange hi'))).mpr hi
      · rw [hpu _ (L.lt_inRange (hsc.raw k hk).1.1), H.page k hk]
      · have hraw := hsc.raw k hk
        rw [hpu q (hs.region _ hraw.1 q (by rw [← rawAt_ids, ← hraw.2]; exact hq)).2, H.data k hk q hq]
    · right
      refine H.clear hs hsc L hw (fun i hi => hmem i hi) ?_
      rw [← hpo]
      have huh : u.header = s.header := hu.header.trans (hvt.trans H.header)
      have hvs : v.header = s.header := hvt.trans H.header
      refine htorn _ _ htr rfl p (by rw [huh, hpo]; exact hold) ?_
      have hLv : Layout v := L.of_eq hvs (hv.within.length.trans H.length)
      have hpr : InRange v p := by rw [InRange, hvs, hpo]; exact L.lt_inRange hold
      rw [huh, ← hvs]
      exact hLv.writeAddress_eq hpr
  | cons d ds =>
    right
    refine H.clear hs hsc L hw (fun i hi => hmem i hi) ?_
    have hdo : old.page ∈ d :: ds := by
      rcases List.mem_append.mp hpin with h | h
      · exact h
      · by_cases hd : d = old.page
        · rw [hd]
          exact List.mem_cons_self ..
        · have h1 := hfirst d (by simp) hd
          have h2 := hsorted.2.2 d (List.mem_cons_self ..) _ h
          omega
    have hne : old.page ≠ p := by
      intro he
      have := hsorted.2.2 _ hdo p (List.mem_cons_self ..)
      omega
    rintro ⟨-, hcrc⟩
    have hv' : pageAt v old.page = List.replicate t.header.pageSize 0xFF := hv.erased _ hdo
    have hin : InRange v old.page := by
      rw [InRange, hv.within.header, H.header]
      exact L.lt_inRange hold
    rw [hu.others _ hne hin, hv', hu.header, hv.within.header, H.header, herased] at hcrc
    cases hcrc

theorem Clearing.released {l : List ℕ} (c : Clearing s t live) (h : Released t u l) : Clearing s u live where
  toHolding := c.toHolding.of_mem (by rw [h.rest]) (by rw [h.rest]) (by rw [h.rest]) (by rw [h.rest])
  ready := h.ready c.ready
  free := by rw [h.rest]; exact c.free
  allocated q hq := c.allocated q ((h.mem_iff q).mp hq).1
  maxInodeNumber := by rw [h.rest]; exact c.maxInodeNumber
  ivStorage := by rw [h.rest]; exact c.ivStorage
  headerInodeRange := by rw [h.rest]; exact c.headerInodeRange
  once hw := by rw [h.rest]; exact c.once hw

theorem Clearing.erased {old next : FileHandle} {l : List ℕ} (hs : Recoverable s)
    (hsc : Scanned s (old :: live)) (L : Layout s)
    (herased : checksumOk s.header.endianness (List.replicate s.header.pageSize 0xFF) = false)
    (c : Clearing s t (old :: live)) (hl : ErasePlan old next l)
    (hnext : ∀ i ∈ old.ids, i ∉ next.ids → ∀ k ∈ live, i ∉ k.ids) (h : Erased t u l) :
    Clearing s u live where
  toHolding := by
    refine c.toHolding.clear hs hsc L h.within (fun i hi => ?_) ?_
    · exact ((hl.mem_iff i).mp hi).imp_right fun h => ⟨h.1, hnext i h.1 h.2⟩
    · rintro ⟨-, hcrc⟩
      rw [h.erased _ ((hl.mem_iff _).mpr (Or.inl rfl)), h.within.header, c.header, herased] at hcrc
      cases hcrc
  ready := by
    refine h.ready c.ready fun p hp => ?_
    have hraw := hsc.raw old (List.mem_cons_self ..)
    rw [InRange, c.header]
    rcases (hl.mem_iff p).mp hp with rfl | ⟨hp, -⟩
    · exact L.lt_inRange hraw.1.1
    · rw [hraw.2, rawAt_ids] at hp
      exact (hs.region _ hraw.1 p hp).2
  free q := by
    rw [h.free, c.free, or_iff_left_iff_imp]
    rintro ⟨hq, hgt⟩
    have hraw := hsc.raw old (List.mem_cons_self ..)
    rw [c.header] at hgt
    rcases (hl.mem_iff q).mp hq with rfl | ⟨hq, -⟩
    · have := hraw.1.1
      omega
    · rw [hraw.2, rawAt_ids] at hq
      exact hs.region _ hraw.1 q hq
  allocated q hq := c.allocated q ((h.allocated q).mp hq).1
  maxInodeNumber := by rw [h.rest]; exact c.maxInodeNumber
  ivStorage := by rw [h.rest]; exact c.ivStorage
  headerInodeRange := by rw [h.rest]; exact c.headerInodeRange
  once hw := h.once (c.once hw)

-- the pages of a cleared version that its successor does not list are listed nowhere else
theorem Recoverable.unshared {old next : FileHandle} {others : List FileHandle} (hs : Recoverable s)
    (hsc : Scanned s (old :: next :: others)) (hnum : old.inode.inodeNumber = next.inode.inodeNumber) :
    ∀ i ∈ old.ids, i ∉ next.ids → ∀ k ∈ next :: others, i ∉ k.ids := by
  intro i hi hin k hk hik
  rcases List.mem_cons.mp hk with rfl | hk'
  · exact hin hik
  have hold := hsc.raw old (by simp)
  have hnextr := hsc.raw next (by simp)
  have hkr := hsc.raw k (by simp [hk'])
  have hp : (old.page :: next.page :: others.map (·.page)).Nodup := hsc.pages
  simp only [List.nodup_cons, List.mem_cons, not_or] at hp
  have hkm : k.page ∈ others.map (·.page) := List.mem_map_of_mem hk'
  have hne : old.page ≠ k.page := fun he => hp.1.2 (he ▸ hkm)
  rw [hold.2, rawAt_ids] at hi
  rw [hkr.2, rawAt_ids] at hik
  rcases hs.apart _ _ hold.1 hkr.1 hne with h | ⟨-, h⟩
  · exact h i hi hik
  · have hn : numberAt s next.page = numberAt s old.page := by
      rw [numberAt, numberAt, ← hold.2, ← hnextr.2, hnum]
    rcases h next.page hnextr.1 hn with h | h
    · exact hp.1.1 h.symm
    · exact hp.2.1 (h ▸ hkm)

theorem wp_clearVersion {old next : FileHandle} {k : List FileHandle} (hs : Recoverable s)
    (hsc : Scanned s (old :: next :: k)) (L : Layout s)
    (herased : checksumOk s.header.endianness (List.replicate s.header.pageSize 0xFF) = false)
    (hv : s.variant ≠ .noDel) (hnum : old.inode.inodeNumber = next.inode.inodeNumber)
    (c : Clearing s t (old :: next :: k)) {f : Fs → Prop}
    (hf : ∀ u, Clearing s u (next :: k) → f u) :
    wp (eraseInodeAndUnusedPages old next >>= closeHandle) (fun _ u => f u)
      (fun e u => e = .powerLoss → ClearTorn s u old (next :: k)) t := by
  have hold := hsc.raw old (by simp)
  have hnextr := hsc.raw next (by simp)
  have hunshared := hs.unshared hsc hnum
  have hids : ∀ p ∈ old.ids, DataRegion s p := by
    rw [hold.2, rawAt_ids]
    exact hs.region _ hold.1
  have hidn : ∀ p ∈ next.ids, DataRegion s p := by
    rw [hnextr.2, rawAt_ids]
    exact hs.region _ hnextr.1
  have hin : ∀ {p}, DataRegion s p → InRange t p := fun hp => by rw [InRange, c.header]; exact hp.2
  rw [wp_bind]
  refine wp_mono (wp_eraseInodeAndUnusedPages c.ready ?_ (fun p hp => hin (hids p hp))
    (fun p hp => hin (hidn p hp)) (by rw [c.header]; exact hold.1.1)) (fun r u hu => ?_) (fun e u hu he => ?_)
  · rw [hold.2, rawAt_ids]
    exact hs.nodup _ hold.1
  · rw [Cleared, c.variant, if_neg hv] at hu
    obtain ⟨rfl, l, hl, hu⟩ := hu
    have hc := c.erased hs hsc L herased hl hunshared hu
    have hcon : old.connected = true := by
      obtain ⟨h, -, h2, h3⟩ := hs.raw hold.1
      rw [hold.2, h3]
      exact h2
    refine wp_mono (wp_closeHandle_unmodified hc.ready.allocatedWF rfl hcon ?_)
      (fun _ v hv => hf v (hc.released hv)) (fun _ _ h => h)
    intro p hp
    rcases List.mem_cons.mp hp with rfl | hp
    · exact L.lt_noData (L.lt_inRange hold.1.1)
    · exact L.lt_noData (hids p hp).2
  · obtain ⟨-, l, hl, hlt⟩ := hu he
    exact c.toHolding.clearTorn hs hsc L herased hl hunshared hlt

theorem Holding.congr {live' : List FileHandle} (H : Holding s t live) (hm : ∀ h, h ∈ live' ↔ h ∈ live) :
    Holding s t live' :=
  { H with
    valid := fun i => by simp only [hm]; exact H.valid i
    page := fun h hh => H.page h ((hm h).mp hh)
    data := fun h hh => H.data h ((hm h).mp hh) }

theorem Clearing.congr {l : List FileHandle} (c : Clearing s t live) (hm : ∀ h, h ∈ l ↔ h ∈ live) :
    Clearing s t l := { c with toHolding := c.toHolding.congr hm }

theorem Scanned.sublist {live' : List FileHandle} (h : Scanned s live) (hs : live'.Sublist live) :
    Scanned s live' :=
  ⟨fun k hk => h.raw k (hs.mem hk), h.pages.sublist (hs.map _)⟩

theorem Scanned.perm {live' : List FileHandle} (h : Scanned s live) (hp : live.Perm live') : Scanned s live' :=
  ⟨fun k hk => h.raw k (hp.mem_iff.mpr hk), (hp.map _).nodup_iff.mp h.pages⟩

theorem wp_clearOldVersions {file : FileHandle} {newer others : List FileHandle} (hs : Recoverable s)
    (hsc : Scanned s (file :: newer ++ others)) (L : Layout s)
    (herased : checksumOk s.header.endianness (List.replicate s.header.pageSize 0xFF) = false)
    (hv : s.variant ≠ .noDel)
    (hnum : ∀ h ∈ newer, h.inode.inodeNumber = file.inode.inodeNumber)
    (c : Clearing s t (file :: newer ++ others)) :
    wp (clearOldVersions file newer)
      (fun r u => (file :: newer).getLast? = some r ∧ Clearing s u (r :: others))
      (fun e u => e = .powerLoss → TornInvalid u → ∃ kept, kept <:+ file :: newer ∧ kept ≠ [] ∧
        Holding s u (kept ++ others)) t := by
  induction newer generalizing file t with
  | nil => exact ⟨rfl, c⟩
  | cons next rest ih =>
    have hstep := wp_clearVersion (k := rest ++ others) hs hsc L herased hv
      (hnum next (List.mem_cons_self ..)).symm c (f := fun u => wp (clearOldVersions next rest)
        (fun r u => (next :: rest).getLast? = some r ∧ Clearing s u (r :: others))
        (fun e u => e = .powerLoss → TornInvalid u → ∃ kept, kept <:+ next :: rest ∧ kept ≠ [] ∧
          Holding s u (kept ++ others)) u)
      (fun u hu => ih (hsc.sublist (List.sublist_cons_self ..))
        (fun h hh => (hnum h (List.mem_cons_of_mem _ hh)).trans (hnum next (List.mem_cons_self ..)).symm) hu)
    rw [wp_bind] at hstep
    have hR : ∀ (e : Fault) (u : Fs), (e = .powerLoss → ClearTorn s u file (next :: (rest ++ others))) →
        e = .powerLoss → TornInvalid u → ∃ kept, kept <:+ file :: next :: rest ∧ kept ≠ [] ∧
          Holding s u (kept ++ others) := by
      intro e u hu he htorn
      rcases hu he htorn with h | h
      · exact ⟨file :: next :: rest, List.suffix_refl _, List.cons_ne_nil _ _, h⟩
      · exact ⟨next :: rest, List.suffix_cons _ _, List.cons_ne_nil _ _, h⟩
    simp only [clearOldVersions, wp_bind]
    refine wp_mono hstep (fun old u hu => wp_mono hu (fun _ v hv => ?_) (hR ·  ·)) (hR · ·)
    refine wp_mono hv (fun r w hw => ⟨by rw [List.getLast?_cons_cons]; exact hw.1, hw.2⟩)
      (fun e w hw he htorn => ?_)
    obtain ⟨kept, h1, h2, h3⟩ := hw he htorn
    exact ⟨kept, h1.trans (List.suffix_cons _ _), h2, h3⟩

def newestOf (files : List FileHandle) : Option FileHandle := (sortVersions files).getLast?

def survivorsOf (groups : List (ℕ × List FileHandle)) : List FileHandle :=
  groups.filterMap fun g => newestOf g.2

omit [Config] in
theorem survivorsOf_cons (n : ℕ) (files : List FileHandle) (rest : List (ℕ × List FileHandle)) :
    survivorsOf ((n, files) :: rest) = (newestOf files).toList ++ survivorsOf rest := by
  simp only [survivorsOf, List.filterMap_cons]
  cases newestOf files <;> rfl

omit [Config] in
theorem sortVersions_perm (files : List FileHandle) : (sortVersions files).Perm files :=
  List.perm_insertionSort _ _

-- what the power leaves: all newest versions, and older ones
def ScanTorn (s t : Fs) (groups : List (ℕ × List FileHandle)) (others : List FileHandle) : Prop :=
  TornInvalid t → ∃ kept, (∀ h ∈ survivorsOf groups ++ others, h ∈ kept) ∧
    (∀ h ∈ kept, h ∈ flat groups ++ others) ∧ Holding s t kept

theorem wp_clearOldInodes {groups : List (ℕ × List FileHandle)} {k : List FileHandle}
    (hs : Recoverable s) (hsc : Scanned s (flat groups ++ k)) (L : Layout s)
    (herased : checksumOk s.header.endianness (List.replicate s.header.pageSize 0xFF) = false)
    (hv : s.variant ≠ .noDel) (hnum : ∀ g ∈ groups, ∀ h ∈ g.2, h.inode.inodeNumber = g.1)
    (c : Clearing s t (flat groups ++ k)) :
    wp (clearOldInodes groups)
      (fun r u => r = survivorsOf groups ∧ Clearing s u (survivorsOf groups ++ k))
      (fun e u => e = .powerLoss → ScanTorn s u groups k) t := by
  induction groups generalizing t k with
  | nil => exact ⟨rfl, c⟩
  | cons g rest ih =>
    obtain ⟨n, files⟩ := g
    have hnumr : ∀ g ∈ rest, ∀ h ∈ g.2, h.inode.inodeNumber = g.1 :=
      fun g hg => hnum g (List.mem_cons_of_mem _ hg)
    have hperm := sortVersions_perm files
    have hfp : (flat ((n, files) :: rest) ++ k).Perm (sortVersions files ++ (flat rest ++ k)) := by
      simp only [flat, List.flatMap_cons, List.append_assoc]
      exact hperm.symm.append_right _
    have hsc1 := hsc.perm hfp
    have hc1 := c.congr (fun h => hfp.symm.mem_iff)
    have hnumf : ∀ h ∈ sortVersions files, h.inode.inodeNumber = n :=
      fun h hh => hnum (n, files) (List.mem_cons_self ..) h (hperm.mem_iff.mp hh)
    simp only [clearOldInodes]
    cases hsort : sortVersions files with
    | nil =>
      have hnone : newestOf files = none := by rw [newestOf, hsort]; rfl
      have hsurv : survivorsOf ((n, files) :: rest) = survivorsOf rest := by
        rw [survivorsOf_cons, hnone]
        rfl
      have hflat : ∀ h, h ∈ flat ((n, files) :: rest) ↔ h ∈ flat rest := by
        intro h
        have hf : files = [] := List.Perm.eq_nil (hsort ▸ hperm).symm
        simp [flat, hf]
      rw [hsort] at hsc1 hc1
      rw [hsurv]
      refine wp_mono (ih hsc1 hnumr hc1) (fun _ _ h => h) (fun e u hu he htorn => ?_)
      obtain ⟨kept, h1, h2, h3⟩ := hu he htorn
      refine ⟨kept, by rw [hsurv]; exact h1, fun h hh => ?_, h3⟩
      rw [List.mem_append, hflat, ← List.mem_append]
      exact h2 h hh
    | cons file newer =>
      rw [hsort] at hsc1 hc1 hnumf
      have hmemflat : ∀ h, h ∈ flat ((n, files) :: rest) ↔ h ∈ file :: newer ∨ h ∈ flat rest := by
        intro h
        have := hperm.mem_iff (a := h)
        rw [hsort] at this
        simp only [flat, List.flatMap_cons, List.mem_append, this]
      simp only [wp_bind]
      refine wp_mono (wp_clearOldVersions hs hsc1 L herased hv (fun h hh =>
        (hnumf h (List.mem_cons_of_mem _ hh)).trans (hnumf file (List.mem_cons_self ..)).symm) hc1)
        (fun r u hu => ?_) (fun e u hu he htorn => ?_)
      · obtain ⟨hlast, hcu⟩ := hu
        have hr : r ∈ file :: newer := List.mem_of_getLast? hlast
        have hnew : newestOf files = some r := by rw [newestOf, hsort]; exact hlast
        have hsurv : survivorsOf ((n, files) :: rest) = r :: survivorsOf rest := by
          rw [survivorsOf_cons, hnew]
          rfl
        have hsub : (flat rest ++ (r :: k)).Perm (r :: (flat rest ++ k)) := List.perm_middle
        have hsub' : (r :: (flat rest ++ k)).Sublist (file :: newer ++ (flat rest ++ k)) := by
          have h1 : [r].Sublist (file :: newer) := List.singleton_sublist.mpr hr
          exact h1.append_right _
        have hcr := hcu.congr (l := flat rest ++ (r :: k)) (fun h => hsub.mem_iff)
        refine wp_mono (ih ((hsc1.sublist hsub').perm hsub.symm) hnumr hcr) (fun r2 v hv2 => ?_)
          (fun e v hv2 he htorn => ?_)
        · obtain ⟨rfl, hcv⟩ := hv2
          rw [wp_pure, hsurv]
          exact ⟨rfl, hcv.congr fun h => by simp only [List.mem_append, List.mem_cons]; tauto⟩
        · obtain ⟨kept, h1, h2, h3⟩ := hv2 he htorn
          refine ⟨kept, fun h hh => h1 h ?_, fun h hh => ?_, h3⟩
          · rw [hsurv] at hh
            simp only [List.mem_append, List.mem_cons] at hh ⊢
            tauto
          · have := h2 h hh
            rw [List.mem_append, hmemflat]
            simp only [List.mem_append, List.mem_cons] at this hr ⊢
            rcases this with h | rfl | h
            · exact Or.inl (Or.inr h)
            · exact Or.inl (Or.inl hr)
            · exact Or.inr h
      · obtain ⟨kept, h1, h2, h3⟩ := hu he htorn
        obtain ⟨r, hlast⟩ : ∃ r, (file :: newer).getLast? = some r := ⟨_, List.getLast?_eq_some_getLast (by simp)⟩
        have hnew : newestOf files = some r := by rw [newestOf, hsort]; exact hlast
        have hsurv : survivorsOf ((n, files) :: rest) = r :: survivorsOf rest := by
          rw [survivorsOf_cons, hnew]
          rfl
        have hrk : r ∈ kept := by
          obtain ⟨pre, hpre⟩ := h1
          rw [← hpre, List.getLast?_append_of_ne_nil _ h2] at hlast
          exact List.mem_of_getLast? hlast
        refine ⟨kept ++ (flat rest ++ k), fun h hh => ?_, fun h hh => ?_, h3⟩
        · rw [hsurv] at hh
          simp only [List.mem_append, List.mem_cons] at hh ⊢
          rcases hh with (rfl | hh) | hh
          · exact Or.inl hrk
          · refine Or.inr (Or.inl ?_)
            obtain ⟨g, hg, hgn⟩ := List.mem_filterMap.mp hh
            exact List.mem_flatMap.mpr ⟨g, hg, (sortVersions_perm _).mem_iff.mp (List.mem_of_getLast? hgn)⟩
          · exact Or.inr (Or.inr hh)
        · rw [List.mem_append, hmemflat]
          simp only [List.mem_append] at hh
          rcases hh with hh | hh | hh
          · exact Or.inl (Or.inl (h1.mem hh))
          · exact Or.inl (Or.inr hh)
          · exact Or.inr hh

end Clear

end SimpleFlashFs
