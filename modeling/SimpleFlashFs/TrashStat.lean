import Mathlib.Data.Finset.Max
import SimpleFlashFs.NewestVersion
import SimpleFlashFs.NoDel
import SimpleFlashFs.Create
import SimpleFlashFs.ReadOnly

namespace SimpleFlashFs

open Lib

section Image

variable [Config]

-- the inode pages of the image that hold a version of a file
def CrcValid (s : Fs) (i : ℕ) : Prop := (readPage s i true).error = none

instance (s : Fs) (i : ℕ) : Decidable (CrcValid s i) := inferInstanceAs (Decidable (_ = _))

def validPages (s : Fs) : List ℕ := (List.range s.header.maxInodes).filter fun i => CrcValid s i

-- of two equal versions the one in front counts
def NewestAt (s : Fs) (i : ℕ) : Prop := ∀ j ∈ validPages s, numberAt s j = numberAt s i →
  versionAt s j < versionAt s i ∨ versionAt s j = versionAt s i ∧ i ≤ j

instance (s : Fs) (i : ℕ) : Decidable (NewestAt s i) := inferInstanceAs (Decidable (∀ j ∈ validPages s, _))

-- every entry of every page list
def listedPages (s : Fs) : List ℕ := (validPages s).flatMap (listed s)

-- page p belongs to an existing file
def ListedLive (s : Fs) (p : ℕ) : Prop :=
  ∃ i ∈ validPages s, NewestAt s i ∧ (rawAt s i).inode.fileName ≠ [] ∧ p ∈ listed s i

instance (s : Fs) (p : ℕ) : Decidable (ListedLive s p) := inferInstanceAs (Decidable (∃ i ∈ validPages s, _))

def Garbage (s : Fs) (p : ℕ) : Prop := DataRegion s p ∧ ¬ ListedLive s p

instance (s : Fs) (p : ℕ) : Decidable (Garbage s p) := inferInstanceAs (Decidable (_ ∧ _))

-- should_cleanup, with the two percentages that it computes
def shouldCleanup (stat : Stat) (tresholdPercentage dataPagesUsage inodeUsage : ℕ) : Bool :=
  if stat.trashInodes > 0 ∨ stat.trashSize > 0 then
    inodeUsage > tresholdPercentage ∨ dataPagesUsage > tresholdPercentage
  else false

structure Truthful (s : Fs) (stat : Stat) : Prop where
  used : stat.usedInodes = ((validPages s).map (numberAt s)).dedup.length
  trash : stat.trashInodes = (validPages s).countP fun i => ¬ NewestAt s i
  size : stat.trashSize = s.header.pageSize * (listedPages s).dedup.countP fun p => Garbage s p
  cleanup : ∀ treshold data inodes, shouldCleanup stat treshold data inodes = true →
    (∃ i ∈ validPages s, ¬ NewestAt s i) ∨ ∃ p ∈ listedPages s, Garbage s p

-- the mount rewrites no record
def Settled (s : Fs) : Prop := ∀ i < s.header.maxInodes, ∀ h,
  decodeInode s.header (pageAt s i) false = .ok h → h.modified = false

end Image

section Counting

variable [Config] {s t u : Fs} {i : ℕ} {l : List ℕ}

theorem readPage_page (s : Fs) (i : ℕ) : (readPage s i true).page = pageAt s i := by
  unfold readPage
  dsimp only
  split
  · rfl
  · split <;> rfl

omit [Config] in
theorem Untouched.pageAt (e : Untouched s t) (i : ℕ) : pageAt t i = pageAt s i := by
  simp only [SimpleFlashFs.pageAt, e.mem, e.header]

theorem Untouched.readPage (e : Untouched s t) (i : ℕ) (b : Bool) : readPage t i b = readPage s i b := by
  simp only [SimpleFlashFs.readPage, e.mem, e.header]

-- what the scan counts besides the free pages
structure SameCount (s t : Fs) : Prop extends Untouched s t where
  ivStorage : t.ivStorage = s.ivStorage
  stat : t.stat = s.stat

omit [Config] in
theorem SameCount.refl (s : Fs) : SameCount s s := ⟨Untouched.refl s, rfl, rfl⟩

omit [Config] in
theorem SameCount.trans (a : SameCount s t) (b : SameCount t u) : SameCount s u :=
  ⟨a.toUntouched.trans b.toUntouched, b.ivStorage.trans a.ivStorage, b.stat.trans a.stat⟩

theorem wp_closeHandle_counts {h : FileHandle} (hm : h.modified = false) (R : Fault → Fs → Prop) :
    wp (closeHandle h) (fun _ t => SameCount s t) R s := by
  have hfree : ∀ (l : List DataPage) (s : Fs),
      wp (each (fun p : DataPage => freeUnwrittenPages p.pageId) l) (fun _ t => SameCount s t) R s := by
    intro l
    induction l with
    | nil => exact fun s => SameCount.refl s
    | cons m l ih =>
      intro s
      rw [each, freeUnwrittenPages, wp_bind, wp_modify]
      apply wp_mono (ih _)
      · exact fun _ _ hu => ⟨⟨hu.mem, hu.header, hu.variant⟩, hu.ivStorage, hu.stat⟩
      · exact fun _ _ h => h
  rw [closeHandle]
  split
  · next hc =>
    rw [flush, if_neg (by simp [hc]), if_pos (by simp [hm]), wp_bind, wp_pure, wp_bind, freeUnwrittenPages, wp_modify]
    apply wp_mono (hfree _ _)
    · exact fun _ _ hu => ⟨⟨hu.mem, hu.header, hu.variant⟩, hu.ivStorage, hu.stat⟩
    · exact fun _ _ h => h
  · exact SameCount.refl s

-- what read_inode tells of page i
def ReadsInode (s : Fs) (i : ℕ) (r : Option FileHandle) : Prop :=
  if CrcValid s i then ∃ h, r = some h ∧ h.connected = true ∧ h.modified = false ∧ { h with page := i } = rawAt s i
  else ∀ h, r = some h → h.connected = false

omit [Config] in
theorem rawAt_of_decode {h : FileHandle} (hdec : decodeInode s.header (pageAt s i) false = .ok h) :
    { h with page := i } = rawAt s i := by
  rw [rawAt, hdec]

omit [Config] in
theorem wp_getInode_raw (hq : Settled s) (hi : i < s.header.maxInodes) {page : List UInt8} (hp : page = pageAt s i) :
    wp (getInode page false) (fun h t => t = s ∧ h.connected = true ∧ h.modified = false ∧ { h with page := i } = rawAt s i)
      (fun _ _ => True) s := by
  simp only [getInode, wp_bind, wp_get, hp]
  cases hdec : decodeInode s.header (pageAt s i) false with
  | error f => trivial
  | ok h => exact ⟨rfl, decodeInode_connected hdec, hq i hi h hdec, rawAt_of_decode hdec⟩

theorem mapped_page (h : (readPageMapped s i true).error ≠ some .readError) :
    (readPageMapped s i true).page = pageAt s i := by
  unfold readPageMapped Memory.mapRead at h ⊢
  split at h
  · exact absurd rfl h
  · next page hpage =>
    split at hpage
    · obtain rfl := Option.some_inj.mp hpage
      split <;> rfl
    · cases hpage

theorem wp_readInode (hq : Settled s) (hi : i < s.header.maxInodes) :
    wp (readInode i) (fun r t => SameCount s t ∧ ReadsInode s i r) (fun _ _ => True) s := by
  have hsame := samePage_mapped s i
  have hnone : ¬ CrcValid s i → ReadsInode s i none := by
    intro hno
    rw [ReadsInode, if_neg hno]
    intro h hh
    cases hh
  have hfree : ¬ CrcValid s i → ReadsInode s i (some {}) := by
    intro hno
    rw [ReadsInode, if_neg hno]
    intro h hh
    rw [← Option.some_inj.mp hh]
  have hfound : ∀ page, page = pageAt s i → CrcValid s i →
      wp (some <$> getInode page false) (fun r t => SameCount s t ∧ ReadsInode s i r) (fun _ _ => True) s := by
    intro page hp hok
    rw [wp_map]
    apply wp_mono (wp_getInode_raw hq hi hp)
    · rintro h t ⟨rfl, hc, hm, hraw⟩
      rw [ReadsInode, if_pos hok]
      exact ⟨SameCount.refl t, h, rfl, hc, hm, hraw⟩
    · exact fun _ _ h => h
  simp only [readInode, readInodeWith, wp_bind, wp_get]
  rw [wp_ite]
  constructor
  · intro _
    cases he : (readPageMapped s i true).error with
    | none =>
      have hok : CrcValid s i := hsame.error.mp he
      exact hfound _ (mapped_page (by simp [he])) hok
    | some e =>
      have hno : ¬ CrcValid s i := by
        intro hok
        have := hsame.error.mpr hok
        rw [he] at this
        cases this
      cases e with
      | readError => exact ⟨SameCount.refl s, hnone hno⟩
      | crcError =>
        have hp : (readPageMapped s i true).page = pageAt s i := mapped_page (by simp [he])
        dsimp only
        rw [wp_ite]
        refine ⟨fun _ => ⟨SameCount.refl s, hfree hno⟩, fun _ => ?_⟩
        rw [wp_bind]
        apply wp_mono (wp_getInode_raw hq hi hp)
        · rintro h t ⟨rfl, -, hm, -⟩
          rw [wp_bind]
          apply wp_mono (wp_closeHandle_counts hm _)
          · exact fun _ _ hu => ⟨hu, hnone hno⟩
          · exact fun _ _ h => h
        · exact fun _ _ h => h
  · intro _
    cases he : (readPage s i true).error with
    | none => exact hfound _ (readPage_page s i) he
    | some e =>
      have hno : ¬ CrcValid s i := by
        intro hok
        rw [CrcValid, he] at hok
        cases hok
      cases e with
      | readError => exact ⟨SameCount.refl s, hnone hno⟩
      | crcError =>
        dsimp only
        rw [wp_ite]
        exact ⟨fun _ => ⟨SameCount.refl s, hfree hno⟩, fun _ => ⟨SameCount.refl s, hnone hno⟩⟩

-- the statistics after the pages of l were looked at
structure Counted (s : Fs) (l : List ℕ) (t : Fs) : Prop extends Untouched s t where
  inodes : (t.ivStorage.map InodeVersion.inode).Nodup
  numbers : ∀ n, n ∈ t.ivStorage.map InodeVersion.inode ↔ ∃ i ∈ l, CrcValid s i ∧ numberAt s i = n
  used : t.stat.usedInodes = t.ivStorage.length
  all : t.stat.usedInodes + t.stat.trashInodes = (l.filter fun i => CrcValid s i).length
  size : t.stat.trashSize = s.header.pageSize * ((l.filter fun i => CrcValid s i).flatMap (listed s)).length

theorem Counted.skip (hc : Counted s l t) (hu : SameCount t u) (hi : ¬ CrcValid s i) : Counted s (l ++ [i]) u := by
  have hfilter : (l ++ [i]).filter (fun i => CrcValid s i) = l.filter fun i => CrcValid s i := by
    simp [List.filter_append, hi]
  refine ⟨hc.toUntouched.trans hu.toUntouched, ?_, fun n => ?_, ?_, ?_, ?_⟩
  · rw [hu.ivStorage]
    exact hc.inodes
  · rw [hu.ivStorage, hc.numbers]
    constructor
    · rintro ⟨j, hj, h⟩
      exact ⟨j, List.mem_append_left _ hj, h⟩
    · rintro ⟨j, hj, h⟩
      rcases List.mem_append.mp hj with hj | hj
      · exact ⟨j, hj, h⟩
      · rw [List.mem_singleton.mp hj] at h
        exact absurd h.1 hi
  · rw [hu.stat, hu.ivStorage]
    exact hc.used
  · rw [hu.stat, hfilter]
    exact hc.all
  · rw [hu.stat, hfilter]
    exact hc.size

-- the result of one more version
structure CountsPage (s : Fs) (i : ℕ) (t u : Fs) : Prop extends Untouched t u where
  ivStorage : u.ivStorage = (addInodeVersion (rawAt s i) t.ivStorage).1
  used : u.stat.usedInodes =
    t.stat.usedInodes + if (addInodeVersion (rawAt s i) t.ivStorage).2 = .inserted then 1 else 0
  all : u.stat.usedInodes + u.stat.trashInodes = t.stat.usedInodes + t.stat.trashInodes + 1
  size : u.stat.trashSize = t.stat.trashSize + s.header.pageSize * (listed s i).length

omit [Config] in
theorem addInodeVersion_added (file : FileHandle) (ivs : List InodeVersion) :
    (addInodeVersion file ivs).2 = .inserted ↔ file.inode.inodeNumber ∉ ivs.map InodeVersion.inode := by
  induction ivs with
  | nil => simp [addInodeVersion]
  | cons x rest ih =>
    rw [addInodeVersion]
    split
    · next he => simp [he]
    · next he =>
      rw [ih, List.map_cons, List.mem_cons, not_or]
      exact ⟨fun h => ⟨Ne.symm he, h⟩, fun h => h.2⟩

theorem Counted.add (hc : Counted s l t) (hu : CountsPage s i t u) (hi : CrcValid s i) : Counted s (l ++ [i]) u := by
  have hfilter : (l ++ [i]).filter (fun i => CrcValid s i) = (l.filter fun i => CrcValid s i) ++ [i] := by
    simp [List.filter_append, hi]
  have hnames := addInodeVersion_inodes (rawAt s i) t.ivStorage
  have hadded := addInodeVersion_added (rawAt s i) t.ivStorage
  rw [← hu.ivStorage] at hnames
  have hnum : (rawAt s i).inode.inodeNumber = numberAt s i := rfl
  have hlen := congrArg List.length hnames
  rw [List.length_map] at hlen
  refine ⟨hc.toUntouched.trans hu.toUntouched, ?_, fun n => ?_, ?_, ?_, ?_⟩
  · rw [hnames]
    split
    · exact hc.inodes
    · next hnot =>
      apply List.nodup_append.mpr
      refine ⟨hc.inodes, List.nodup_singleton _, fun a ha b hb hab => hnot ?_⟩
      rw [← List.mem_singleton.mp hb, ← hab]
      exact ha
  · have hmem : n ∈ u.ivStorage.map InodeVersion.inode ↔
        n ∈ t.ivStorage.map InodeVersion.inode ∨ n = numberAt s i := by
      rw [hnames, hnum]
      split
      · next hin =>
        constructor
        · exact Or.inl
        · rintro (h | rfl)
          · exact h
          · exact hin
      · rw [List.mem_append, List.mem_singleton]
    rw [hmem, hc.numbers]
    constructor
    · rintro (⟨j, hj, h⟩ | rfl)
      · exact ⟨j, List.mem_append_left _ hj, h⟩
      · exact ⟨i, List.mem_append_right _ (List.mem_singleton_self i), hi, rfl⟩
    · rintro ⟨j, hj, h⟩
      rcases List.mem_append.mp hj with hj | hj
      · exact Or.inl ⟨j, hj, h⟩
      · rw [List.mem_singleton.mp hj] at h
        exact Or.inr h.2.symm
  · rw [hu.used, hlen, hc.used]
    by_cases hin : (rawAt s i).inode.inodeNumber ∈ t.ivStorage.map InodeVersion.inode
    · rw [if_neg (fun h => hadded.mp h hin), if_pos hin, List.length_map]
      rfl
    · rw [if_pos (hadded.mpr hin), if_neg hin, List.length_append, List.length_map]
      rfl
  · rw [hu.all, hc.all, hfilter, List.length_append]
    rfl
  · rw [hu.size, hc.size, hfilter, List.flatMap_append, List.length_append, Nat.mul_add]
    simp

omit [Config] in
theorem wp_countPages (pages : List DataPage) (R : Fault → Fs → Prop) :
    wp (each (fun p : DataPage => do
        let s ← get
        modifyStat fun t => { t with trashSize := t.trashSize + s.header.pageSize }
        eraseFreeDataPage p.pageId) pages)
      (fun _ t => Untouched s t ∧ t.ivStorage = s.ivStorage ∧
        t.stat = { s.stat with trashSize := s.stat.trashSize + s.header.pageSize * pages.length }) R s := by
  induction pages generalizing s with
  | nil => exact ⟨Untouched.refl s, rfl, rfl⟩
  | cons p pages ih =>
    rw [each]
    simp only [wp_bind, wp_get, modifyStat, eraseFreeDataPage, wp_modify]
    apply wp_mono ih
    · rintro _ t ⟨hu, hiv, hstat⟩
      refine ⟨⟨hu.mem, hu.header, hu.variant⟩, hiv, ?_⟩
      rw [hstat, List.length_cons, Nat.mul_succ]
      simp only [Stat.mk.injEq, and_true, true_and]
      omega
    · exact fun _ _ h => h

omit [Config] in
theorem Settled.of_untouched (hq : Settled s) (e : Untouched s t) : Settled t := by
  unfold Settled
  simp only [e.header, e.pageAt]
  exact hq

theorem wp_noDelInodePage (hq : Settled s) (hi : i < s.header.maxInodes) (hc : Counted s l t) :
    wp (noDelInodePage i) (fun _ u => Counted s (l ++ [i]) u) (fun _ _ => True) t := by
  have e := hc.toUntouched
  have hvalid : CrcValid t i ↔ CrcValid s i := by rw [CrcValid, CrcValid, e.readPage]
  have hraw : rawAt t i = rawAt s i := rawAt_congr e.header (e.pageAt i)
  rw [noDelInodePage, noDelInodePageWith, wp_bind]
  apply wp_mono (wp_readInode (hq.of_untouched e) (by rw [e.header]; exact hi))
  · rintro r u ⟨hu, hr⟩
    by_cases hok : CrcValid s i
    · rw [ReadsInode, if_pos (hvalid.mpr hok)] at hr
      obtain ⟨h, rfl, hcon, hm, hh⟩ := hr
      rw [hraw] at hh
      have hpages : h.inode.dataPages.length = (listed s i).length := by
        rw [← rawAt_ids, ← hh]
        exact (List.length_map _).symm
      have hlen : h.inode.fileLen = (rawAt s i).inode.fileLen := by rw [← hh]
      dsimp only
      rw [if_neg (by simp [hcon])]
      simp only [wp_bind, wp_modify, addIvStorage, wp_get, wp_set, wp_pure, hh]
      have hstep : ∀ v, CountsPage s i u v → wp (closeHandle (rawAt s i))
          (fun _ w => Counted s (l ++ [i]) w) (fun _ _ => True) v := by
        intro v hv
        have hm' : (rawAt s i).modified = false := by
          rw [← hh]
          exact hm
        apply wp_mono (wp_closeHandle_counts hm' _)
        · intro _ w hw
          refine hc.add ⟨hu.toUntouched.trans (hv.toUntouched.trans hw.toUntouched), ?_, ?_, ?_, ?_⟩ hok
          · rw [hw.ivStorage, hv.ivStorage, hu.ivStorage]
          · rw [hw.stat, hv.used, hu.stat, hu.ivStorage]
          · rw [hw.stat, hv.all, hu.stat]
          · rw [hw.stat, hv.size, hu.stat]
        · exact fun _ _ h => h
      cases hadd : (addInodeVersion (rawAt s i) u.ivStorage).2 with
      | replaced =>
        simp only [modifyStat, wp_bind, wp_modify]
        apply wp_mono (wp_countPages _ _)
        · rintro _ v ⟨hv, hiv, hstat⟩
          apply hstep v
          refine ⟨⟨hv.mem, hv.header, hv.variant⟩, hiv, ?_, ?_, ?_⟩
          · rw [hstat, hadd]
            rfl
          · rw [hstat]
            dsimp only
            omega
          · rw [hstat, ← hpages, ← e.header, ← hu.header]
        · exact fun _ _ h => h
      | inserted =>
        simp only [modifyStat, wp_bind, wp_modify]
        apply wp_mono (wp_countPages _ _)
        · rintro _ v ⟨hv, hiv, hstat⟩
          apply hstep v
          refine ⟨⟨hv.mem, hv.header, hv.variant⟩, hiv, ?_, ?_, ?_⟩
          · rw [hstat, hadd]
            rfl
          · rw [hstat]
            dsimp only
            omega
          · rw [hstat, ← hpages, ← e.header, ← hu.header]
        · exact fun _ _ h => h
    · rw [ReadsInode, if_neg (fun h => hok (hvalid.mp h))] at hr
      have hskip : ∀ v, SameCount t v → Counted s (l ++ [i]) v := fun v hv => hc.skip hv hok
      cases r with
      | none => exact hskip _ ⟨⟨hu.mem, hu.header, hu.variant⟩, hu.ivStorage, hu.stat⟩
      | some h =>
        dsimp only
        rw [if_pos (by simp [hr h rfl])]
        exact hskip _ hu
  · exact fun _ _ h => h

theorem wp_noDelInodePages {rest : List ℕ} (hq : Settled s) (hc : Counted s l t)
    (hl : l ++ rest = List.range s.header.maxInodes) :
    wp (each noDelInodePage rest) (fun _ u => Counted s (List.range s.header.maxInodes) u) (fun _ _ => True) t := by
  induction rest generalizing l t with
  | nil =>
    rw [List.append_nil] at hl
    rw [← hl]
    exact hc
  | cons i rest ih =>
    have hi : i < s.header.maxInodes := by
      apply List.mem_range.mp
      rw [← hl]
      simp
    rw [each, wp_bind]
    apply wp_mono (wp_noDelInodePage hq hi hc)
    · intro _ u hu
      apply ih hu
      rw [List.append_assoc]
      exact hl
    · exact fun _ _ h => h

omit [Config] in
theorem wp_fillFreeDataPages_counts (s : Fs) : wp fillFreeDataPages (fun _ t => SameCount s t) (fun _ _ => True) s := by
  rw [fillFreeDataPages, wp_bind, wp_get]
  cases allDataPages s.header with
  | none => trivial
  | some pages =>
    rw [wp_set]
    exact ⟨⟨rfl, rfl, rfl⟩, rfl, rfl⟩

theorem Counted.withFree (hc : Counted s l t) (n : ℕ) :
    Counted s l { t with stat := { t.stat with freeInodes := n } } :=
  ⟨⟨hc.mem, hc.header, hc.variant⟩, hc.inodes, hc.numbers, hc.used, hc.all, hc.size⟩

theorem wp_readAllFreeDataPagesNoDel (hq : Settled s) :
    wp readAllFreeDataPagesNoDel (fun _ t => Counted s (List.range s.header.maxInodes) t) (fun _ _ => True) s := by
  rw [readAllFreeDataPagesNoDel, readAllFreeDataPagesNoDelWith, wp_bind, wp_modify, wp_bind]
  apply wp_mono (wp_fillFreeDataPages_counts _)
  · intro _ t ht
    have hmax : t.header.maxInodes = s.header.maxInodes := congrArg Header.maxInodes ht.header
    simp only [wp_bind, clearIvStorage, wp_modify, wp_get, hmax]
    have hstart : Counted s [] { t with ivStorage := [] } :=
      ⟨⟨ht.mem, ht.header, ht.variant⟩, List.nodup_nil, by simp, by rw [ht.stat]; rfl, by rw [ht.stat]; rfl,
        by rw [ht.stat]; rfl⟩
    have hall : [] ++ List.range s.header.maxInodes = List.range s.header.maxInodes := List.nil_append _
    apply wp_mono (wp_noDelInodePages hq hstart hall)
    · intro _ u hu
      exact hu.withFree _
    · exact fun _ _ h => h
  · exact fun _ _ h => h

end Counting

section Truth

variable [Config] {s t : Fs} {hd : Header} {i j : ℕ}

theorem exists_newest (hi : i ∈ validPages s) : ∃ j ∈ validPages s, NewestAt s j ∧ numberAt s j = numberAt s i := by
  have hmem : ∀ k, k ∈ ((validPages s).filter fun k => numberAt s k = numberAt s i).toFinset ↔
      k ∈ validPages s ∧ numberAt s k = numberAt s i := by simp
  obtain ⟨m, hm, hmax⟩ := Finset.exists_max_image _ (versionAt s) ⟨i, (hmem i).mpr ⟨hi, rfl⟩⟩
  have hmem' : ∀ k, k ∈ ((validPages s).filter fun k => numberAt s k = numberAt s i ∧ versionAt s k = versionAt s m).toFinset ↔
      k ∈ validPages s ∧ numberAt s k = numberAt s i ∧ versionAt s k = versionAt s m := by simp
  obtain ⟨hm1, hm2⟩ := (hmem m).mp hm
  obtain ⟨j, hj, hmin⟩ := Finset.exists_min_image _ id ⟨m, (hmem' m).mpr ⟨hm1, hm2, rfl⟩⟩
  obtain ⟨hj1, hj2, hj3⟩ := (hmem' j).mp hj
  refine ⟨j, hj1, fun k hk hnum => ?_, hj2⟩
  have hle := hmax k ((hmem k).mpr ⟨hk, hnum.trans hj2⟩)
  rw [hj3]
  by_cases heq : versionAt s k = versionAt s m
  · exact Or.inr ⟨heq, hmin k ((hmem' k).mpr ⟨hk, hnum.trans hj2, heq⟩)⟩
  · exact Or.inl (by omega)

theorem newestAt_unique (hi : i ∈ validPages s) (hj : j ∈ validPages s) (h1 : NewestAt s i) (h2 : NewestAt s j)
    (hnum : numberAt s i = numberAt s j) : i = j := by
  have := h1 j hj hnum.symm
  have := h2 i hi hnum
  omega

theorem validPages_nodup (s : Fs) : (validPages s).Nodup := List.nodup_range.filter _

-- one newest version for each number
theorem countP_newestAt (s : Fs) :
    ((validPages s).countP fun i => NewestAt s i) = ((validPages s).map (numberAt s)).dedup.length := by
  have hnodup : (((validPages s).filter fun i => NewestAt s i).map (numberAt s)).Nodup := by
    apply List.Nodup.map_on
    · intro i hi j hj he
      obtain ⟨hi, h1⟩ := List.mem_filter.mp hi
      obtain ⟨hj, h2⟩ := List.mem_filter.mp hj
      exact newestAt_unique hi hj (of_decide_eq_true h1) (of_decide_eq_true h2) he
    · exact (validPages_nodup s).filter _
  have hperm : (((validPages s).filter fun i => NewestAt s i).map (numberAt s)).Perm
      ((validPages s).map (numberAt s)).dedup := by
    apply (List.perm_ext_iff_of_nodup hnodup (List.nodup_dedup _)).mpr
    intro n
    rw [List.mem_dedup, List.mem_map, List.mem_map]
    constructor
    · rintro ⟨i, hi, he⟩
      exact ⟨i, (List.mem_filter.mp hi).1, he⟩
    · rintro ⟨i, hi, rfl⟩
      obtain ⟨j, hj, hnew, hnum⟩ := exists_newest hi
      exact ⟨j, List.mem_filter.mpr ⟨hj, decide_eq_true hnew⟩, hnum⟩
  rw [← hperm.length_eq, List.length_map, List.countP_eq_length_filter]

omit [Config] in
theorem countP_dedup_iff {l : List ℕ} {P : ℕ → Prop} [DecidablePred P] :
    (l.dedup.countP fun p => P p) = l.length ↔ l.Nodup ∧ ∀ p ∈ l, P p := by
  constructor
  · intro h
    have h1 := List.countP_le_length (p := fun p => decide (P p)) (l := l.dedup)
    have h2 := (List.dedup_sublist l).length_le
    have hdedup : l.dedup = l := (List.dedup_sublist l).eq_of_length (by omega)
    rw [hdedup] at h
    refine ⟨List.dedup_eq_self.mp hdedup, fun p hp => ?_⟩
    exact of_decide_eq_true (List.countP_eq_length.mp h p hp)
  · rintro ⟨hn, hall⟩
    rw [List.dedup_eq_self.mpr hn]
    exact List.countP_eq_length.mpr fun p hp => decide_eq_true (hall p hp)

theorem Counted.truthful_iff (hps : 0 < s.header.pageSize) (hc : Counted s (List.range s.header.maxInodes) t) :
    Truthful s t.stat ↔ (listedPages s).Nodup ∧ ∀ p ∈ listedPages s, Garbage s p := by
  have hused : t.stat.usedInodes = ((validPages s).map (numberAt s)).dedup.length := by
    have hperm : (t.ivStorage.map InodeVersion.inode).Perm ((validPages s).map (numberAt s)).dedup := by
      apply (List.perm_ext_iff_of_nodup hc.inodes (List.nodup_dedup _)).mpr
      intro n
      rw [hc.numbers, List.mem_dedup, List.mem_map]
      simp only [validPages, List.mem_filter, decide_eq_true_eq, and_assoc]
    rw [hc.used, ← hperm.length_eq, List.length_map]
  have htrash : t.stat.trashInodes = (validPages s).countP fun i => ¬ NewestAt s i := by
    have hall : t.stat.usedInodes + t.stat.trashInodes = (validPages s).length := hc.all
    have hsplit := List.length_eq_countP_add_countP (fun i => decide (NewestAt s i)) (l := validPages s)
    have hnew := countP_newestAt s
    have hnot : (fun i => decide ¬ decide (NewestAt s i) = true) = fun i => decide (¬ NewestAt s i) := by
      funext i
      simp
    rw [hnot] at hsplit
    omega
  have hsize : t.stat.trashSize = s.header.pageSize * (listedPages s).length := hc.size
  rw [← countP_dedup_iff]
  constructor
  · intro h
    exact (Nat.eq_of_mul_eq_mul_left hps (hsize.symm.trans h.size)).symm
  · intro h
    refine ⟨hused, htrash, by rw [hsize, h], fun treshold data inodes hclean => ?_⟩
    have hany : t.stat.trashInodes > 0 ∨ t.stat.trashSize > 0 := by
      by_contra hno
      rw [shouldCleanup, if_neg hno] at hclean
      cases hclean
    rcases hany with hany | hany
    · rw [htrash] at hany
      obtain ⟨i, hi, hold⟩ := List.countP_pos_iff.mp hany
      exact Or.inl ⟨i, hi, of_decide_eq_true hold⟩
    · rw [hsize] at hany
      have hlen := Nat.pos_of_mul_pos_left hany
      obtain ⟨p, hp⟩ := List.exists_mem_of_length_pos (by omega)
      exact Or.inr ⟨p, hp, (countP_dedup_iff.mp h).2 p hp⟩

theorem counted_of_initNoDel (hon : HeaderOn s.mem hd) (hq : Settled (s.withHeader hd))
    (hi : initNoDel s = .ok true t) : Counted (s.withHeader hd) (List.range hd.maxInodes) t := by
  have hw : wp initNoDel (fun r t => r = true → Counted (s.withHeader hd) (List.range hd.maxInodes) t)
      (fun _ _ => True) s := by
    rw [initNoDel, initNoDelWith, wp_bind, wp, hon.initBase]
    dsimp only
    rw [if_pos rfl, wp_bind]
    apply wp_mono (wp_readAllFreeDataPagesNoDel hq)
    · exact fun _ _ hu _ => hu
    · exact fun _ _ h => h
  exact wp_ok hw hi rfl

theorem trashAccounting_iff (hon : HeaderOn s.mem hd) (hq : Settled (s.withHeader hd)) (hi : initNoDel s = .ok true t) :
    Truthful (s.withHeader hd) t.stat ↔
      (listedPages (s.withHeader hd)).Nodup ∧ ∀ p ∈ listedPages (s.withHeader hd), Garbage (s.withHeader hd) p := by
  have hps : 0 < hd.pageSize := by
    have hmin := hon.minPage
    rw [minPageSize] at hmin
    omega
  exact (counted_of_initNoDel hon hq hi).truthful_iff hps

end Truth

section PagedImage

def pagedImage : Fs := formattedWith pagedInode .noDel

theorem pagedImage_header : @HeaderOn dynamicConfig pagedImage.mem magicHeader := by
  apply @HeaderOn.mk dynamicConfig <;> decide +kernel

theorem pagedImage_settled : Settled (pagedImage.withHeader magicHeader) := by
  have hall : ∀ i < 4, (decodeInode magicHeader (pageAt (pagedImage.withHeader magicHeader) i) false).toOption.all
      (!·.modified) = true := by
    decide +kernel
  intro i hi
  exact decoded_unmodified (hall i hi)

theorem pagedImage_init : ∃ t, @initNoDel dynamicConfig pagedImage = .ok true t ∧ t.stat.trashSize = 128 := by
  have hrun : passes (@initNoDel dynamicConfig) (fun r t => decide (r = true ∧ t.stat.trashSize = 128)) pagedImage = true := by
    decide +kernel
  obtain ⟨r, t, ht, hstat⟩ := returns_of_passes hrun
  obtain ⟨rfl, hsize⟩ := of_decide_eq_true hstat
  exact ⟨t, ht, hsize⟩

-- both pages of the only file are trash
theorem trashAccounting_live : ∃ t, @initNoDel dynamicConfig pagedImage = .ok true t ∧
    ¬ @Truthful dynamicConfig (pagedImage.withHeader magicHeader) t.stat := by
  obtain ⟨t, ht, hsize⟩ := pagedImage_init
  refine ⟨t, ht, fun h => ?_⟩
  have hclaimed := @Truthful.size dynamicConfig _ _ h
  rw [hsize] at hclaimed
  revert hclaimed
  decide +kernel

theorem trashAccounting_iff_paged : ∃ t, @initNoDel dynamicConfig pagedImage = .ok true t ∧
    (@Truthful dynamicConfig (pagedImage.withHeader magicHeader) t.stat ↔
      (@listedPages dynamicConfig (pagedImage.withHeader magicHeader)).Nodup ∧
        ∀ p ∈ @listedPages dynamicConfig (pagedImage.withHeader magicHeader),
          @Garbage dynamicConfig (pagedImage.withHeader magicHeader) p) := by
  obtain ⟨t, ht, -⟩ := pagedImage_init
  exact ⟨t, ht, @trashAccounting_iff dynamicConfig _ _ _ pagedImage_header pagedImage_settled ht⟩

end PagedImage

end SimpleFlashFs
