import SimpleFlashFs.Catalog

namespace SimpleFlashFs

open Lib

section Lookup

variable [Config] {s t u : Fs} {h : FileHandle} {i : ℕ} {name : List UInt8} {reader : Fs → ℕ → ReadPageReturn}

theorem Freed.trans (a : Freed s t) (b : Freed t u) : Freed s u where
  mem := b.mem.trans a.mem
  header := b.header.trans a.header
  variant := b.variant.trans a.variant
  numbers := b.numbers.trans a.numbers
  ready := b.ready
  whole := b.whole
  kept i hi hr hn := b.kept i (by rw [a.header]; exact hi) (a.kept i hi hr hn) fun hv => hn (a.valid_iff.mp hv)
  less i hi := a.less i (b.less i hi)

-- what the first pass remembers of page i
def entryAt (s : Fs) (i : ℕ) : InodeVersion := ⟨numberAt s i, i, versionAt s i⟩

omit [Config] in
theorem entryAt_congr (hh : t.header = s.header) (hp : pageAt t i = pageAt s i) : entryAt t i = entryAt s i := by
  rw [entryAt, entryAt, numberAt, numberAt, versionAt, versionAt, rawAt_congr hh hp]

omit [Config] in
theorem addInodeVersion_new {file : FileHandle} {ivs : List InodeVersion} (hn : ∀ iv ∈ ivs, iv.inode ≠ file.inode.inodeNumber) :
    (addInodeVersion file ivs).1 = ivs ++ [⟨file.inode.inodeNumber, file.page, file.inode.inodeVersionNumber⟩] := by
  induction ivs with
  | nil => rfl
  | cons x rest ih =>
    rw [addInodeVersion, if_neg (hn x List.mem_cons_self)]
    dsimp only
    rw [ih fun iv hiv => hn iv (List.mem_cons_of_mem _ hiv)]
    rfl

theorem Catalog.wp_recordInodePage (hrd : Reads reader) (hc : Catalog s) (hi : i < s.header.maxInodes)
    (hnew : ∀ iv ∈ s.ivStorage, ∃ j, j ≠ i ∧ Valid s j ∧ iv.inode = numberAt s j) :
    wp (recordInodePage reader i)
      (fun _ t => Freed s t ∧ t.ivStorage = s.ivStorage ++ ([i].filter (Valid s ·)).map (entryAt s)) (fun _ _ => False) s := by
  have L := hc.ready.layout
  simp only [recordInodePage, wp_bind, wp_get, hrd s i L hi]
  rw [wp_ite]
  by_cases hv : Valid s i
  · rw [readPage_of_valid L.toGeometry hv]
    refine ⟨fun _ => ?_, fun hn => absurd rfl hn⟩
    obtain ⟨n, -, ho⟩ := hc.holds hv
    have hne : ∀ iv ∈ s.ivStorage, iv.inode ≠ (rawAt s i).inode.inodeNumber := by
      intro iv hiv he
      obtain ⟨j, hj, hvj, hej⟩ := hnew iv hiv
      exact hj (hc.numbers j i hvj hv (hej.symm.trans he))
    have hraw := ho.rawAt_eq
    simp only [getInode, wp_bind, wp_get, ho.raw, liftFault, wp_pure, addIvStorage, wp_set]
    rw [← hraw, addInodeVersion_new hne]
    have hf := hc.freed_ivStorage (s.ivStorage ++
      [⟨(rawAt s i).inode.inodeNumber, (rawAt s i).page, (rawAt s i).inode.inodeVersionNumber⟩])
    have hsame := rawAt_congr hf.header (hf.pageAt_eq i)
    rw [← hsame]
    apply wp_mono ((hf.catalog hc).wp_closeRaw (hf.valid_iff.mpr hv))
    · rintro _ t ⟨ht, hiv⟩
      refine ⟨hf.trans ht, ?_⟩
      rw [hiv, List.filter_cons_of_pos (by simpa using hv)]
      dsimp only
      rw [rawAt_page]
      rfl
    · exact fun _ _ h => h
  · rw [readPage_of_not_valid L.toGeometry hi hv]
    refine ⟨fun hn => (by cases hn), fun _ => ⟨hc.freed_ivStorage s.ivStorage, ?_⟩⟩
    rw [List.filter_cons_of_neg (by simpa using hv)]
    exact (List.append_nil _).symm

theorem Catalog.wp_recordInodePages (hrd : Reads reader) (l : List ℕ) (hc : Catalog s) (hl : ∀ i ∈ l, i < s.header.maxInodes)
    (hnd : l.Nodup) (hnew : ∀ iv ∈ s.ivStorage, ∃ j, j ∉ l ∧ Valid s j ∧ iv.inode = numberAt s j) :
    wp (each (recordInodePage reader) l)
      (fun _ t => Freed s t ∧ t.ivStorage = s.ivStorage ++ (l.filter (Valid s ·)).map (entryAt s)) (fun _ _ => False) s := by
  induction l generalizing s with
  | nil => exact ⟨hc.freed_ivStorage s.ivStorage, (List.append_nil _).symm⟩
  | cons i l ih =>
    obtain ⟨hil, hnd⟩ := List.nodup_cons.mp hnd
    rw [each, wp_bind]
    apply wp_mono (hc.wp_recordInodePage hrd (hl i List.mem_cons_self) ?_)
    · rintro _ t ⟨ht, hiv⟩
      have hnew' : ∀ iv ∈ t.ivStorage, ∃ j, j ∉ l ∧ Valid t j ∧ iv.inode = numberAt t j := by
        intro iv hmem
        rw [hiv, List.mem_append] at hmem
        have hfrom : ∃ j, j ∉ l ∧ Valid s j ∧ iv.inode = numberAt s j := by
          rcases hmem with hmem | hmem
          · obtain ⟨j, hj, hvj, hej⟩ := hnew iv hmem
            exact ⟨j, fun h => hj (List.mem_cons_of_mem i h), hvj, hej⟩
          · obtain ⟨j, hj, rfl⟩ := List.mem_map.mp hmem
            obtain ⟨hj, hvj⟩ := List.mem_filter.mp hj
            rw [List.mem_singleton.mp hj] at hvj ⊢
            exact ⟨i, hil, of_decide_eq_true hvj, rfl⟩
        obtain ⟨j, hj, hvj, hej⟩ := hfrom
        exact ⟨j, hj, ht.valid_iff.mpr hvj, by rw [numberAt_congr ht.header (ht.pageAt_eq j)]; exact hej⟩
      have hl' : ∀ j ∈ l, j < t.header.maxInodes := by
        rw [ht.header]
        exact fun j hj => hl j (List.mem_cons_of_mem i hj)
      apply wp_mono (ih (ht.catalog hc) hl' hnd hnew')
      · rintro _ u ⟨hu, hiv'⟩
        refine ⟨ht.trans hu, ?_⟩
        have hfilter : l.filter (Valid t ·) = l.filter (Valid s ·) :=
          List.filter_congr fun j _ => decide_eq_decide.mpr ht.valid_iff
        have hentry : (l.filter (Valid s ·)).map (entryAt t) = (l.filter (Valid s ·)).map (entryAt s) :=
          List.map_congr_left fun j _ => entryAt_congr ht.header (ht.pageAt_eq j)
        rw [hiv', hiv, hfilter, hentry, List.append_assoc, ← List.map_append, ← List.filter_append]
        rfl
      · exact fun _ _ h => h
    · exact fun _ _ h => h
    · intro iv hiv
      obtain ⟨j, hj, hvj, hej⟩ := hnew iv hiv
      exact ⟨j, fun e => hj (e ▸ List.mem_cons_self), hvj, hej⟩

-- a search among the pages of l ends with the file of that name, still at its page, or there is none
def Found (s t : Fs) (name : List UInt8) (l : List ℕ) (h : FileHandle) : Prop :=
  (h = {} ∧ ∀ i ∈ l, nameAt s i = name → name = []) ∨
    ∃ i ∈ l, nameAt s i = name ∧ name ≠ [] ∧ h = openedAt s i ∧ Valid t i ∧ pageAt t i = pageAt s i

theorem Found.skip {l : List ℕ} (e : Looks s t i) (hf : Found t u name l h) (hl : ∀ j ∈ l, Valid s j) (hi : i ∉ l)
    (hname : nameAt s i = name → name = []) : Found s u name (i :: l) h := by
  have hsame : ∀ j ∈ l, pageAt t j = pageAt s j := fun j hj => (e.others j (hl j hj) fun he => hi (he ▸ hj)).2
  rcases hf with ⟨he, hno⟩ | ⟨j, hj, hn, hne, he, hv, hp⟩
  · refine Or.inl ⟨he, fun j hj hn => ?_⟩
    rcases List.mem_cons.mp hj with rfl | hj
    · exact hname hn
    · exact hno j hj (by rw [nameAt_congr e.shifted.header (hsame j hj)]; exact hn)
  · refine Or.inr ⟨j, List.mem_cons_of_mem i hj, ?_, hne, ?_, hv, hp.trans (hsame j hj)⟩
    · rwa [nameAt_congr e.shifted.header (hsame j hj)] at hn
    · rwa [openedAt_congr e.shifted.header (hsame j hj)] at he

theorem Catalog.wp_findVersion (hrd : Reads reader) (ivs : List InodeVersion) (hc : Catalog s)
    (hl : ∀ i ∈ ivs.map InodeVersion.page, Valid s i) (hnd : (ivs.map InodeVersion.page).Nodup) :
    wp (findVersion reader name ivs)
      (fun h t => Catalog t ∧ Shifted s t ∧ Found s t name (ivs.map InodeVersion.page) h) (fun _ _ => False) s := by
  induction ivs generalizing s with
  | nil => exact ⟨hc, (hc.freed_ivStorage s.ivStorage).shifted, Or.inl ⟨rfl, nofun⟩⟩
  | cons iv rest ih =>
    have L := hc.ready.layout
    have hv := hl iv.page (List.mem_map_of_mem List.mem_cons_self)
    have hlrest : ∀ i ∈ rest.map InodeVersion.page, Valid s i := fun i hi => hl i (List.mem_cons_of_mem _ hi)
    obtain ⟨hiv, hnd⟩ := List.nodup_cons.mp hnd
    obtain ⟨n, -, ho⟩ := hc.holds hv
    have hop := hc.opened hv
    have hnext : (nameAt s iv.page = name → name = []) → wp (closeHandle (openedAt s iv.page))
        (fun _ t => wp (findVersion reader name rest)
          (fun h t => Catalog t ∧ Shifted s t ∧ Found s t name ((iv :: rest).map InodeVersion.page) h) (fun _ _ => False) t)
        (fun _ _ => False) s := by
      intro hname
      apply wp_mono (hc.wp_closeOpened hv)
      · intro _ t ht
        have hl' : ∀ i ∈ rest.map InodeVersion.page, Valid t i :=
          fun i hi => (ht.others i (hlrest i hi) fun e => hiv (e ▸ hi)).1
        apply wp_mono (ih ht.catalog hl' hnd)
        · exact fun h u hu => ⟨hu.1, ht.shifted.trans hu.2.1, Found.skip ht hu.2.2 hlrest hiv hname⟩
        · exact fun _ _ h => h
      · exact fun _ _ h => h
    simp only [findVersion, wp_bind, wp_get, hrd s iv.page L hv.1]
    rw [readPage_of_valid L.toGeometry hv, if_pos rfl]
    simp only [getInode, wp_bind, wp_get, ho.opened, liftFault, wp_pure]
    rw [ho.openedAt_eq] at hnext
    have hfile : (n.decoded s.header true).inode.fileName = nameAt s iv.page := by
      have hname := hop.name
      rw [ho.openedAt_eq] at hname
      exact hname
    rw [hfile, wp_ite]
    constructor
    · intro hempty
      rw [wp_bind]
      exact hnext fun he => he ▸ hempty
    · intro hne
      rw [wp_ite]
      constructor
      · intro hname
        refine ⟨hc, (hc.freed_ivStorage s.ivStorage).shifted,
          Or.inr ⟨iv.page, List.mem_cons_self, hname, ?_, ho.openedAt_eq.symm, hv, rfl⟩⟩
        rwa [← hname]
      · intro hname
        rw [wp_bind]
        exact hnext fun he => absurd he hname

def recordPages (s : Fs) : List ℕ := (List.range s.header.maxInodes).filter (Valid s ·)

theorem mem_recordPages : i ∈ recordPages s ↔ Valid s i := by
  rw [recordPages, List.mem_filter, List.mem_range, decide_eq_true_eq]
  exact and_iff_right_of_imp And.left

theorem recordPages_nodup (s : Fs) : (recordPages s).Nodup := List.nodup_range.filter _

theorem Freed.recordPages_eq (e : Freed s t) : recordPages t = recordPages s := by
  rw [recordPages, recordPages, e.header]
  exact List.filter_congr fun j _ => decide_eq_decide.mpr e.valid_iff

theorem Freed.found {l : List ℕ} (e : Freed s t) (hf : Found t u name l h) : Found s u name l h := by
  unfold Found at hf ⊢
  have hname := fun i => nameAt_congr e.header (e.pageAt_eq i)
  have hopen := fun i => openedAt_congr e.header (e.pageAt_eq i)
  simp only [hname, hopen, e.pageAt_eq] at hf
  exact hf

theorem Catalog.wp_findFile (hc : Catalog s) (name : List UInt8) :
    wp (findFile name) (fun h t => Catalog t ∧ Shifted s t ∧ Found s t name (recordPages s) h) (fun _ _ => False) s := by
  have hwith : ∀ {reader}, Reads reader → wp (findFileWith reader name)
      (fun h t => Catalog t ∧ Shifted s t ∧ Found s t name (recordPages s) h) (fun _ _ => False) s := by
    intro reader hrd
    have hf0 := hc.freed_ivStorage []
    simp only [findFileWith, clearIvStorage, wp_bind, wp_modify, wp_get]
    apply wp_mono ((hf0.catalog hc).wp_recordInodePages hrd (List.range s.header.maxInodes)
      (fun i hi => List.mem_range.mp hi) List.nodup_range (by simp))
    · rintro _ t ⟨ht, hiv⟩
      have hf := hf0.trans ht
      have hpages : t.ivStorage.map InodeVersion.page = recordPages t := by
        rw [hf.recordPages_eq, ← hf0.recordPages_eq, hiv, List.nil_append, List.map_map]
        exact List.map_id _
      have hvalid : ∀ i ∈ t.ivStorage.map InodeVersion.page, Valid t i := by
        rw [hpages]
        exact fun i hi => mem_recordPages.mp hi
      apply wp_mono ((hf.catalog hc).wp_findVersion hrd t.ivStorage hvalid (by rw [hpages]; exact recordPages_nodup t))
      · rintro h u ⟨hu, hs, hfound⟩
        rw [hpages, hf.recordPages_eq] at hfound
        exact ⟨hu, hf.shifted.trans hs, hf.found hfound⟩
      · exact fun _ _ h => h
    · exact fun _ _ h => h
  rw [findFile, wp_bind, wp_get, wp_ite]
  exact ⟨fun _ => hwith reads_mapped, fun _ => hwith reads_unmapped⟩

end Lookup

section Listing

variable [Config] {s t u : Fs} {h k : FileHandle} {i : ℕ} {name : List UInt8}

-- list_files of FramFsImplDetail, with a callback that takes every file
def listFiles : FsM (List (List UInt8 × ℕ)) := do
  let inodes ← getAllInodes
  let files := (inodes.filter (·.inode.fileName ≠ [])).map fun inode => (inode.inode.fileName, inode.inode.fileLen)
  each closeHandle inodes
  pure files

-- the listing has the files that open( name, in ) finds, once each and with their sizes
def ListingAgrees (s : Fs) : Prop := ∃ files t, listFiles s = .ok files t ∧ ∀ name,
  ∃ h u, openFile name { in_ := true } s = .ok h u ∧
    files.filter (·.1 = name) = if h.connected then [(name, h.inode.fileLen)] else []

theorem Catalog.wp_collectAllInodes (hc : Catalog s) (l : List ℕ) (files : List FileHandle)
    (hl : ∀ i ∈ l, i < s.header.maxInodes) :
    wp (collectAllInodes true l files)
      (fun r t => t = s ∧ r = files ++ (l.filter (Valid s ·)).map (openedAt s)) (fun _ _ => False) s := by
  have L := hc.ready.layout
  induction l generalizing files with
  | nil => exact ⟨rfl, (List.append_nil _).symm⟩
  | cons i l ih =>
    have hi := hl i List.mem_cons_self
    have hrest := fun j hj => hl j (List.mem_cons_of_mem i hj)
    simp only [collectAllInodes, wp_bind, wp_get]
    by_cases hv : Valid s i
    · obtain ⟨n, -, ho⟩ := hc.holds hv
      rw [readPage_of_valid L.toGeometry hv, if_pos rfl]
      simp only [getInode, wp_bind, wp_get, ho.opened, liftFault, wp_pure]
      rw [← ho.openedAt_eq, List.filter_cons_of_pos (by simpa using hv), List.map_cons]
      have h := ih (files ++ [openedAt s i]) hrest
      rwa [List.append_assoc] at h
    · rw [readPage_of_not_valid L.toGeometry hi hv, if_neg (by simp), List.filter_cons_of_neg (by simpa using hv)]
      exact ih _ hrest

theorem Catalog.wp_closeAll (l : List ℕ) (hc : Catalog s) (hl : ∀ i ∈ l, Valid s i) (hnd : l.Nodup) :
    wp (each closeHandle (l.map (openedAt s))) (fun _ _ => True) (fun _ _ => False) s := by
  have hfrom : ∀ (l : List ℕ) (t : Fs), Catalog t → (∀ i ∈ l, Valid t i ∧ openedAt t i = openedAt s i) → l.Nodup →
      wp (each closeHandle (l.map (openedAt s))) (fun _ _ => True) (fun _ _ => False) t := by
    intro l
    induction l with
    | nil => exact fun t _ _ _ => trivial
    | cons i l ih =>
      intro t ht hl hnd
      obtain ⟨hi, hnd⟩ := List.nodup_cons.mp hnd
      obtain ⟨hv, he⟩ := hl i List.mem_cons_self
      rw [List.map_cons, each, wp_bind, ← he]
      apply wp_mono (ht.wp_closeOpened hv)
      · intro _ u hu
        apply ih u hu.catalog
        · intro j hj
          obtain ⟨hvj, hej⟩ := hl j (List.mem_cons_of_mem i hj)
          obtain ⟨hvu, hp⟩ := hu.others j hvj fun e => hi (e ▸ hj)
          exact ⟨hvu, (openedAt_congr hu.shifted.header hp).trans hej⟩
        · exact hnd
      · exact fun _ _ h => h
  exact hfrom l s hc (fun i hi => ⟨hl i hi, rfl⟩) hnd

def reportedFiles (s : Fs) : List (List UInt8 × ℕ) :=
  (((recordPages s).map (openedAt s)).filter (·.inode.fileName ≠ [])).map fun inode => (inode.inode.fileName, inode.inode.fileLen)

theorem Catalog.listFiles_eq (hc : Catalog s) : ∃ t, listFiles s = .ok (reportedFiles s) t := by
  have hw : wp listFiles (fun r _ => r = reportedFiles s) (fun _ _ => False) s := by
    simp only [listFiles, getAllInodes, wp_bind, wp_get]
    apply wp_mono (hc.wp_collectAllInodes (List.range s.header.maxInodes) [] fun i hi => List.mem_range.mp hi)
    · rintro r t ⟨rfl, rfl⟩
      rw [List.nil_append]
      apply wp_mono (hc.wp_closeAll (recordPages t) (fun i hi => mem_recordPages.mp hi) (recordPages_nodup t))
      · exact fun _ _ _ => rfl
      · exact fun _ _ h => h
    · exact fun _ _ h => h
  unfold wp at hw
  cases hrun : listFiles s with
  | ok files t =>
    rw [hrun] at hw
    exact ⟨t, by rw [hw]⟩
  | error e t =>
    rw [hrun] at hw
    exact hw.elim

omit [Config] in
theorem filter_eq_singleton {α : Type} {p : α → Bool} {l : List α} {x : α} (hnd : l.Nodup) (hx : x ∈ l)
    (hp : ∀ y ∈ l, p y = true ↔ y = x) : l.filter p = [x] := by
  have heq : ∀ y ∈ l.filter p, y = x := fun y hy => (hp y (List.mem_filter.mp hy).1).mp (List.mem_filter.mp hy).2
  have hmem : x ∈ l.filter p := List.mem_filter.mpr ⟨hx, (hp x hx).mpr rfl⟩
  have hnd' := hnd.filter p
  rw [List.eq_replicate_of_mem heq] at hmem hnd' ⊢
  have hle := List.nodup_replicate.mp hnd'
  have hpos : (l.filter p).length ≠ 0 := (List.mem_replicate.mp hmem).1
  rw [show (l.filter p).length = 1 by omega]
  rfl

theorem Catalog.entry (hc : Catalog s) (hi : Valid s i) :
    (openedAt s i).inode.fileName = nameAt s i ∧ (openedAt s i).connected = true := by
  have ho := hc.opened hi
  exact ⟨ho.name, ho.connected⟩

theorem Catalog.openIn (hc : Catalog s) (name : List UInt8) :
    ∃ h u, openFile name { in_ := true } s = .ok h u ∧ ∃ t, Found s t name (recordPages s) h := by
  have hfind := hc.wp_findFile name
  have hw : wp (openFile name { in_ := true }) (fun h _ => ∃ t, Found s t name (recordPages s) h) (fun _ _ => False) s := by
    rw [openFile, wp_bind]
    apply wp_mono hfind
    · rintro h t ⟨-, -, hf⟩
      have hsame : handleAppendMode { in_ := true } h = h := rfl
      rw [wp_ite]
      refine ⟨fun hcon => ?_, fun _ => ?_⟩
      · rw [if_pos ⟨by simp, by simp⟩]
        rcases hf with ⟨rfl, hno⟩ | ⟨i, hi, -, -, rfl, -⟩
        · exact ⟨t, Or.inl ⟨rfl, hno⟩⟩
        · exact absurd (hc.entry (mem_recordPages.mp hi)).2 hcon
      · rw [if_neg (by simp), hsame]
        exact ⟨t, hf⟩
    · exact fun _ _ h => h
  unfold wp at hw
  cases hrun : openFile name { in_ := true } s with
  | ok h u =>
    rw [hrun] at hw
    exact ⟨h, u, rfl, hw⟩
  | error e u =>
    rw [hrun] at hw
    exact hw.elim

theorem Catalog.reportedFiles_eq (hc : Catalog s) : reportedFiles s =
    ((recordPages s).filter (nameAt s · ≠ [])).map fun i => (nameAt s i, (openedAt s i).inode.fileLen) := by
  have hname : ∀ i ∈ recordPages s, (openedAt s i).inode.fileName = nameAt s i :=
    fun i hi => (hc.entry (mem_recordPages.mp hi)).1
  rw [reportedFiles, List.filter_map, List.map_map]
  have hfilter : (recordPages s).filter ((fun h : FileHandle => decide (h.inode.fileName ≠ [])) ∘ openedAt s) =
      (recordPages s).filter (nameAt s · ≠ []) := by
    apply List.filter_congr
    intro i hi
    rw [Function.comp_apply, hname i hi]
  rw [hfilter]
  apply List.map_congr_left
  intro i hi
  rw [Function.comp_apply, hname i (List.mem_filter.mp hi).1]

theorem Catalog.listingAgrees (hc : Catalog s) : ListingAgrees s := by
  obtain ⟨t, ht⟩ := hc.listFiles_eq
  refine ⟨reportedFiles s, t, ht, fun name => ?_⟩
  obtain ⟨h, u, ho, v, hf⟩ := hc.openIn name
  refine ⟨h, u, ho, ?_⟩
  rw [hc.reportedFiles_eq, List.filter_map, List.filter_filter]
  rcases hf with ⟨rfl, hno⟩ | ⟨i, hi, hname, hne, rfl, -⟩
  · rw [if_neg nofun, List.map_eq_nil_iff, List.filter_eq_nil_iff]
    intro j hj hboth
    simp only [Function.comp_apply, Bool.and_eq_true, decide_eq_true_eq] at hboth
    exact hboth.2 (hboth.1 ▸ hno j hj hboth.1)
  · have hone : (recordPages s).filter (fun j => (((·.1 = name) : List UInt8 × ℕ → Bool) ∘ fun i =>
        (nameAt s i, (openedAt s i).inode.fileLen)) j && decide (nameAt s j ≠ [])) = [i] := by
      apply filter_eq_singleton (recordPages_nodup s) hi
      intro j hj
      simp only [Function.comp_apply, Bool.and_eq_true, decide_eq_true_eq]
      constructor
      · rintro ⟨he, hnj⟩
        exact hc.names j i (mem_recordPages.mp hj) (mem_recordPages.mp hi) (he.trans hname.symm) hnj
      · rintro rfl
        exact ⟨hname, hname ▸ hne⟩
    rw [if_pos (hc.entry (mem_recordPages.mp hi)).2, hone, List.map_cons, List.map_nil, hname]

end Listing

end SimpleFlashFs
