import SimpleFlashFs.ReadOnly

namespace SimpleFlashFs

open Lib

section Table

-- what one more record leaves of a table that has one entry for each inode
theorem mem_addInodeVersion_iff {file : FileHandle} {ivs : List InodeVersion} (hn : (ivs.map InodeVersion.inode).Nodup)
    {iv : InodeVersion} : iv ∈ (addInodeVersion file ivs).1 ↔
      (iv ∈ ivs ∧ (iv.inode = file.inode.inodeNumber → file.inode.inodeVersionNumber ≤ iv.version)) ∨
      (iv = ⟨file.inode.inodeNumber, file.page, file.inode.inodeVersionNumber⟩ ∧
        ∀ jv ∈ ivs, jv.inode = file.inode.inodeNumber → jv.version < file.inode.inodeVersionNumber) := by
  induction ivs with
  | nil => simp [addInodeVersion]
  | cons x rest ih =>
    obtain ⟨hx, hrest⟩ := List.nodup_cons.mp hn
    have hother : ∀ jv ∈ rest, jv.inode ≠ x.inode := by
      intro jv hjv he
      exact hx (he ▸ List.mem_map_of_mem hjv)
    rw [addInodeVersion]
    split
    · next he =>
      have hne : ∀ jv ∈ rest, jv.inode ≠ file.inode.inodeNumber := fun jv hjv => he ▸ hother jv hjv
      dsimp only
      split
      · next hlt =>
        have hnew : ({ x with version := file.inode.inodeVersionNumber, page := file.page } : InodeVersion) =
            ⟨file.inode.inodeNumber, file.page, file.inode.inodeVersionNumber⟩ := by
          rw [← he]
        rw [hnew, List.mem_cons]
        constructor
        · rintro (rfl | hiv)
          · refine Or.inr ⟨rfl, fun jv hjv hj => ?_⟩
            rcases List.mem_cons.mp hjv with rfl | hjv
            · exact hlt
            · exact absurd hj (hne jv hjv)
          · exact Or.inl ⟨List.mem_cons_of_mem _ hiv, fun h => absurd h (hne iv hiv)⟩
        · rintro (⟨hiv, hle⟩ | ⟨hiv, -⟩)
          · rcases List.mem_cons.mp hiv with rfl | hiv
            · have := hle he
              omega
            · exact Or.inr hiv
          · exact Or.inl hiv
      · next hnlt =>
        constructor
        · intro hiv
          refine Or.inl ⟨hiv, fun h => ?_⟩
          rcases List.mem_cons.mp hiv with rfl | hiv
          · omega
          · exact absurd h (hne iv hiv)
        · rintro (⟨hiv, -⟩ | ⟨-, hall⟩)
          · exact hiv
          · exact absurd (hall x (List.mem_cons_self ..) he) hnlt
    · next he =>
      dsimp only
      rw [List.mem_cons, ih hrest]
      constructor
      · rintro (rfl | ⟨hiv, hle⟩ | ⟨hiv, hall⟩)
        · exact Or.inl ⟨List.mem_cons_self .., fun h => absurd h he⟩
        · exact Or.inl ⟨List.mem_cons_of_mem _ hiv, hle⟩
        · refine Or.inr ⟨hiv, fun jv hjv hj => ?_⟩
          rcases List.mem_cons.mp hjv with rfl | hjv
          · exact absurd hj he
          · exact hall jv hjv hj
      · rintro (⟨hiv, hle⟩ | ⟨hiv, hall⟩)
        · rcases List.mem_cons.mp hiv with rfl | hiv
          · exact Or.inl rfl
          · exact Or.inr (Or.inl ⟨hiv, hle⟩)
        · exact Or.inr (Or.inr ⟨hiv, fun jv hjv => hall jv (List.mem_cons_of_mem _ hjv)⟩)

theorem addInodeVersion_inodes (file : FileHandle) (ivs : List InodeVersion) :
    (addInodeVersion file ivs).1.map InodeVersion.inode =
      if file.inode.inodeNumber ∈ ivs.map InodeVersion.inode then ivs.map InodeVersion.inode
      else ivs.map InodeVersion.inode ++ [file.inode.inodeNumber] := by
  induction ivs with
  | nil => simp [addInodeVersion]
  | cons x rest ih =>
    rw [addInodeVersion]
    split
    · next he =>
      have hin : file.inode.inodeNumber ∈ (x :: rest).map InodeVersion.inode := by
        rw [List.map_cons, he]
        exact List.mem_cons_self ..
      rw [if_pos hin]
      dsimp only
      split <;> rfl
    · next he =>
      simp only [List.map_cons, ih, List.mem_cons, Ne.symm he, false_or]
      split <;> rfl

end Table

section Uncorrected

theorem readPages_marks {hd : Header} {corr : Bool} {page : List UInt8} (left pos lenRead : ℕ) {d d' : DecodedPages}
    (hm : d.modified = true) (hr : readPages hd corr page left pos lenRead d = .ok d') : d'.modified = true := by
  induction left generalizing pos lenRead d with
  | zero =>
    rw [← Except.ok.inj hr]
    exact hm
  | succ left ih =>
    rw [readPages] at hr
    obtain ⟨id, -, hr⟩ := bind_eq_ok.mp hr
    split at hr
    · exact ih _ _ rfl hr
    · split at hr
      · rw [← Except.ok.inj hr]
      · apply ih _ _ _ hr
        exact hm

theorem readPages_uncorrected {hd : Header} {page : List UInt8} (left pos lenRead : ℕ) {d d' : DecodedPages}
    (hr : readPages hd true page left pos lenRead d = .ok d') (hm : d'.modified = false) :
    readPages hd false page left pos lenRead d = .ok d' := by
  induction left generalizing pos lenRead d with
  | zero => exact hr
  | succ left ih =>
    rw [readPages] at hr ⊢
    obtain ⟨id, hid, hr⟩ := bind_eq_ok.mp hr
    rw [hid]
    simp only [true_and, Bool.false_eq_true, false_and, if_false] at hr ⊢
    split at hr
    · rw [readPages_marks _ _ _ rfl hr] at hm
      cases hm
    · split at hr
      · rw [← Except.ok.inj hr] at hm
        cases hm
      · exact ih _ _ hr

-- without a correction both ways of decoding give the same
theorem decodeInode_uncorrected {hd : Header} {page : List UInt8} {h : FileHandle}
    (hdec : decodeInode hd page true = .ok h) (hm : h.modified = false) : decodeInode hd page false = .ok h := by
  unfold decodeInode at hdec ⊢
  obtain ⟨inodeNumber, h1, hdec⟩ := bind_eq_ok.mp hdec
  obtain ⟨inodeVersionNumber, h2, hdec⟩ := bind_eq_ok.mp hdec
  obtain ⟨fileNameLen, h3, hdec⟩ := bind_eq_ok.mp hdec
  obtain ⟨fileName, h4, hdec⟩ := bind_eq_ok.mp hdec
  obtain ⟨attributes, h5, hdec⟩ := bind_eq_ok.mp hdec
  obtain ⟨fileLen, h6, hdec⟩ := bind_eq_ok.mp hdec
  obtain ⟨pages, h7, hdec⟩ := bind_eq_ok.mp hdec
  apply bind_eq_ok.mpr ⟨_, h1, ?_⟩
  apply bind_eq_ok.mpr ⟨_, h2, ?_⟩
  apply bind_eq_ok.mpr ⟨_, h3, ?_⟩
  apply bind_eq_ok.mpr ⟨_, h4, ?_⟩
  apply bind_eq_ok.mpr ⟨_, h5, ?_⟩
  apply bind_eq_ok.mpr ⟨_, h6, ?_⟩
  apply bind_eq_ok.mpr ⟨_, h7, ?_⟩
  split at hdec
  · next hp =>
    obtain ⟨d, hd', hdec⟩ := bind_eq_ok.mp hdec
    have hdm : d.modified = false := by
      rw [← Except.ok.inj hdec] at hm
      exact hm
    rw [if_pos hp]
    exact bind_eq_ok.mpr ⟨d, readPages_uncorrected _ _ _ hd' hdm, hdec⟩
  · next hp =>
    rw [if_neg hp]
    exact hdec

end Uncorrected

section Newest

variable [Config] {s : Fs} {name : List UInt8} {i : ℕ} {ivs : List InodeVersion}

-- an inode page whose checksum is right
def Readable (s : Fs) (i : ℕ) : Prop := i < s.header.maxInodes ∧ (lookupPage s i).error = none

def Uncorrected (s : Fs) : Prop := ∀ i, Readable s i → ∃ h,
  decodeInode s.header (lookupPage s i).page true = .ok h ∧ h.modified = false

def recordAt (s : Fs) (i : ℕ) : FileHandle :=
  match decodeInode s.header (lookupPage s i).page true with
  | .ok h => { h with page := i }
  | .error _ => {}

def HighestVersion (s : Fs) (i : ℕ) : Prop := Readable s i ∧ ∀ j, Readable s j →
  (recordAt s j).inode.inodeNumber = (recordAt s i).inode.inodeNumber →
    (recordAt s j).inode.inodeVersionNumber ≤ (recordAt s i).inode.inodeVersionNumber

def DistinctVersions (s : Fs) : Prop := ∀ i j, Readable s i → Readable s j →
  (recordAt s i).inode.inodeNumber = (recordAt s j).inode.inodeNumber →
    (recordAt s i).inode.inodeVersionNumber = (recordAt s j).inode.inodeVersionNumber → i = j

theorem Uncorrected.decode (hu : Uncorrected s) (hi : Readable s i) (corr : Bool) : ∃ h,
    decodeInode s.header (lookupPage s i).page corr = .ok h ∧ h.modified = false ∧ { h with page := i } = recordAt s i := by
  obtain ⟨h, hdec, hm⟩ := hu i hi
  refine ⟨h, ?_, hm, ?_⟩
  · cases corr with
    | true => exact hdec
    | false => exact decodeInode_uncorrected hdec hm
  · rw [recordAt, hdec]

theorem recordAt_page (hu : Uncorrected s) (hi : Readable s i) :
    (recordAt s i).page = i ∧ (recordAt s i).connected = true := by
  obtain ⟨h, hdec, -, he⟩ := hu.decode hi true
  have hc := decodeInode_connected hdec
  rw [← he]
  exact ⟨rfl, hc⟩

theorem Uncorrected.quiet (hu : Uncorrected s) : Quiet s := by
  constructor
  · intro i hi hok h hdec
    obtain ⟨k, hdec', hm, -⟩ := hu.decode ⟨hi, hok⟩ false
    rw [hdec] at hdec'
    rwa [Except.ok.inj hdec']
  · intro ivs hivs iv hiv hok h hdec
    have hat := collectVersions_atInodes (List.range s.header.maxInodes) (fun i hi => List.mem_range.mp hi)
      (fun _ hiv => absurd hiv List.not_mem_nil) hivs
    obtain ⟨k, hdec', hm, -⟩ := hu.decode ⟨hat iv hiv, hok⟩ true
    rw [hdec] at hdec'
    rwa [Except.ok.inj hdec']

-- the table after the pages of l
structure Table (s : Fs) (l : List ℕ) (ivs : List InodeVersion) : Prop where
  inodes : (ivs.map InodeVersion.inode).Nodup
  entry : ∀ iv ∈ ivs, ∃ i ∈ l, Readable s i ∧
    iv = ⟨(recordAt s i).inode.inodeNumber, i, (recordAt s i).inode.inodeVersionNumber⟩
  newest : ∀ i ∈ l, Readable s i → ∃ iv ∈ ivs, iv.inode = (recordAt s i).inode.inodeNumber ∧
    (recordAt s i).inode.inodeVersionNumber ≤ iv.version

theorem Table.skip {l : List ℕ} (ht : Table s l ivs) (hi : ¬ Readable s i) : Table s (l ++ [i]) ivs where
  inodes := ht.inodes
  entry iv hiv := by
    obtain ⟨j, hj, he⟩ := ht.entry iv hiv
    exact ⟨j, List.mem_append_left _ hj, he⟩
  newest j hj hr := by
    rcases List.mem_append.mp hj with hj | hj
    · exact ht.newest j hj hr
    · rw [List.mem_singleton.mp hj] at hr
      exact absurd hr hi

theorem Table.add {l : List ℕ} (ht : Table s l ivs) (hu : Uncorrected s) (hi : Readable s i) :
    Table s (l ++ [i]) (addInodeVersion (recordAt s i) ivs).1 := by
  have hpage := (recordAt_page hu hi).1
  have hmem : ∀ iv, iv ∈ (addInodeVersion (recordAt s i) ivs).1 ↔ _ := fun iv => mem_addInodeVersion_iff ht.inodes
  rw [hpage] at hmem
  have hbest : ∀ iv ∈ ivs, ∃ jv ∈ (addInodeVersion (recordAt s i) ivs).1, jv.inode = iv.inode ∧
      iv.version ≤ jv.version := by
    intro iv hiv
    by_cases hkeep : iv.inode = (recordAt s i).inode.inodeNumber → (recordAt s i).inode.inodeVersionNumber ≤ iv.version
    · exact ⟨iv, (hmem iv).mpr (Or.inl ⟨hiv, hkeep⟩), rfl, le_rfl⟩
    · obtain ⟨he, hlt⟩ := Classical.not_imp.mp hkeep
      refine ⟨_, (hmem _).mpr (Or.inr ⟨rfl, fun jv hjv hj => ?_⟩), he.symm, by dsimp only; omega⟩
      rw [List.inj_on_of_nodup_map ht.inodes hjv hiv (hj.trans he.symm)]
      omega
  constructor
  · rw [addInodeVersion_inodes]
    split
    · exact ht.inodes
    · next hnot =>
      exact List.nodup_append.mpr ⟨ht.inodes, List.nodup_singleton _,
        fun a ha b hb hab => hnot (List.mem_singleton.mp hb ▸ hab ▸ ha)⟩
  · intro iv hiv
    rcases (hmem iv).mp hiv with ⟨hiv, -⟩ | ⟨rfl, -⟩
    · obtain ⟨j, hj, he⟩ := ht.entry iv hiv
      exact ⟨j, List.mem_append_left _ hj, he⟩
    · exact ⟨i, by simp, hi, rfl⟩
  · intro j hj hr
    rcases List.mem_append.mp hj with hj | hj
    · obtain ⟨iv, hiv, hnum, hver⟩ := ht.newest j hj hr
      obtain ⟨jv, hjv, hn', hv'⟩ := hbest iv hiv
      exact ⟨jv, hjv, hn'.trans hnum, hver.trans hv'⟩
    · rw [List.mem_singleton.mp hj]
      by_cases hold : ∀ jv ∈ ivs, jv.inode = (recordAt s i).inode.inodeNumber →
          jv.version < (recordAt s i).inode.inodeVersionNumber
      · exact ⟨_, (hmem _).mpr (Or.inr ⟨rfl, hold⟩), rfl, le_rfl⟩
      · push Not at hold
        obtain ⟨jv, hjv, hnum, hle⟩ := hold
        exact ⟨jv, (hmem jv).mpr (Or.inl ⟨hjv, fun _ => hle⟩), hnum, hle⟩

theorem Table.collect (hu : Uncorrected s) (l : List ℕ) (hl : ∀ i ∈ l, i < s.header.maxInodes) {before : List ℕ}
    (ht : Table s before ivs) : ∃ ivs', collectVersions s l ivs = .ok ivs' ∧ Table s (before ++ l) ivs' := by
  induction l generalizing before ivs with
  | nil => exact ⟨ivs, rfl, by rwa [List.append_nil]⟩
  | cons i rest ih =>
    have hrest := fun j hj => hl j (List.mem_cons_of_mem _ hj)
    rw [collectVersions, List.append_cons before i rest]
    by_cases hok : (lookupPage s i).error = none
    · have hi : Readable s i := ⟨hl i (List.mem_cons_self ..), hok⟩
      obtain ⟨h, hdec, -, he⟩ := hu.decode hi false
      rw [if_pos hok, hdec]
      dsimp only
      rw [he]
      exact ih hrest (ht.add hu hi)
    · rw [if_neg hok]
      exact ih hrest (ht.skip fun hi => hok hi.2)

theorem Table.highest (ht : Table s (List.range s.header.maxInodes) ivs) (hd : DistinctVersions s) :
    (∃ iv ∈ ivs, iv.page = i) ↔ HighestVersion s i := by
  constructor
  · rintro ⟨iv, hiv, rfl⟩
    obtain ⟨j, -, hj, he⟩ := ht.entry iv hiv
    have hpage : iv.page = j := by rw [he]
    rw [hpage]
    refine ⟨hj, fun k hk hnum => ?_⟩
    obtain ⟨jv, hjv, hn', hv'⟩ := ht.newest k (List.mem_range.mpr hk.1) hk
    have hsame : jv = iv := List.inj_on_of_nodup_map ht.inodes hjv hiv (by rw [hn', hnum, he])
    rw [hsame, he] at hv'
    exact hv'
  · rintro ⟨hi, hmax⟩
    obtain ⟨iv, hiv, hnum, hle⟩ := ht.newest i (List.mem_range.mpr hi.1) hi
    obtain ⟨j, -, hj, he⟩ := ht.entry iv hiv
    rw [he] at hnum hle
    have hji := hd j i hj hi hnum (le_antisymm (hmax j hj hnum) hle)
    exact ⟨iv, hiv, by rw [he, hji]⟩

theorem matchVersion_uncorrected (hu : Uncorrected s) (hname : name ≠ []) (hr : ∀ iv ∈ ivs, Readable s iv.page) :
    ∃ h, matchVersion s name ivs = .ok h ∧
      ((h = {} ∧ ∀ iv ∈ ivs, (recordAt s iv.page).inode.fileName ≠ name) ∨
        ∃ iv ∈ ivs, h = recordAt s iv.page ∧ (recordAt s iv.page).inode.fileName = name) := by
  induction ivs with
  | nil => exact ⟨{}, rfl, Or.inl ⟨rfl, fun _ hiv => absurd hiv List.not_mem_nil⟩⟩
  | cons iv rest ih =>
    have hi := hr iv (List.mem_cons_self ..)
    obtain ⟨k, hdec, -, he⟩ := hu.decode hi true
    have hnext : (recordAt s iv.page).inode.fileName ≠ name → ∃ h, matchVersion s name rest = .ok h ∧
        ((h = {} ∧ ∀ jv ∈ iv :: rest, (recordAt s jv.page).inode.fileName ≠ name) ∨
          ∃ jv ∈ iv :: rest, h = recordAt s jv.page ∧ (recordAt s jv.page).inode.fileName = name) := by
      intro hne
      obtain ⟨h, hm, hres⟩ := ih fun jv hjv => hr jv (List.mem_cons_of_mem _ hjv)
      refine ⟨h, hm, hres.imp (fun ⟨h0, hall⟩ => ⟨h0, fun jv hjv => ?_⟩) fun ⟨jv, hjv, hj⟩ => ?_⟩
      · rcases List.mem_cons.mp hjv with rfl | hjv
        · exact hne
        · exact hall jv hjv
      · exact ⟨jv, List.mem_cons_of_mem _ hjv, hj⟩
    have hfile : k.inode.fileName = (recordAt s iv.page).inode.fileName := by rw [← he]
    rw [matchVersion, if_pos hi.2, hdec]
    dsimp only
    rw [hfile]
    split
    · next hempty => exact hnext (by rw [hempty]; exact hname.symm)
    · split
      · next heq => exact ⟨_, rfl, Or.inr ⟨iv, List.mem_cons_self .., he, heq⟩⟩
      · next hne => exact hnext hne

-- what find_file is to return
structure FindsNewest (s : Fs) (name : List UInt8) (h : FileHandle) : Prop where
  found : h.connected = true ↔ ∃ i, HighestVersion s i ∧ (recordAt s i).inode.fileName = name
  newest : h.connected = true → HighestVersion s h.page ∧ h = recordAt s h.page ∧ h.inode.fileName = name

theorem lookup_newest (hu : Uncorrected s) (hd : DistinctVersions s) (hname : name ≠ []) :
    ∃ h, lookup s name = .ok h ∧ FindsNewest s name h := by
  have hempty : Table s [] [] := ⟨List.nodup_nil, fun _ h => absurd h List.not_mem_nil,
    fun _ h => absurd h List.not_mem_nil⟩
  obtain ⟨ivs, hivs, ht⟩ := Table.collect hu (List.range s.header.maxInodes) (fun i hi => List.mem_range.mp hi) hempty
  rw [List.nil_append] at ht
  have hhigh := fun i => ht.highest (i := i) hd
  have hr : ∀ iv ∈ ivs, Readable s iv.page := fun iv hiv => ((hhigh iv.page).mp ⟨iv, hiv, rfl⟩).1
  obtain ⟨h, hm, hres⟩ := matchVersion_uncorrected hu hname hr
  refine ⟨h, ?_, ?_⟩
  · rw [lookup, newestVersions, hivs]
    exact hm
  · rcases hres with ⟨rfl, hall⟩ | ⟨iv, hiv, rfl, heq⟩
    · refine ⟨⟨by simp, ?_⟩, by simp⟩
      rintro ⟨i, hi, heq⟩
      obtain ⟨iv, hiv, rfl⟩ := (hhigh i).mpr hi
      exact absurd heq (hall iv hiv)
    · obtain ⟨hpage, hc⟩ := recordAt_page hu (hr iv hiv)
      have hhi := (hhigh iv.page).mp ⟨iv, hiv, rfl⟩
      refine ⟨⟨fun _ => ⟨iv.page, hhi, heq⟩, fun _ => hc⟩, fun _ => ?_⟩
      rw [hpage]
      exact ⟨hhi, rfl, heq⟩

theorem findFile_newest (hu : Uncorrected s) (hd : DistinctVersions s) (hname : name ≠ []) :
    ∃ h, FindsNewest s name h ∧ ∀ find ∈ [findFile name, findFileMapped name, findFileUnmapped name],
      ∃ t, find s = .ok h t := by
  obtain ⟨h, hl, hf⟩ := lookup_newest hu hd hname
  refine ⟨h, hf, fun find hfind => ?_⟩
  have hall : wp find (fun h t => LookedAt s t ∧ lookup s name = .ok h)
      (fun f t => LookedAt s t ∧ lookup s name = .error f) s := by
    simp only [List.mem_cons, List.not_mem_nil, or_false] at hfind
    rcases hfind with rfl | rfl | rfl
    · exact wp_findFile_quiet hu.quiet name
    · exact wp_findFileWith_quiet hu.quiet (sees_mapped s) name
    · exact wp_findFileWith_quiet hu.quiet (sees_unmapped s) name
  cases hrun : find s with
  | ok k t =>
    have hk := (wp_ok hall hrun).2
    rw [hl] at hk
    exact ⟨t, by rw [Except.ok.inj hk]⟩
  | error f t =>
    have hk := (wp_error hall hrun).2
    rw [hl] at hk
    cases hk

end Newest

def recordBytes (inode : Inode) : List UInt8 :=
  match inode2page erasedHeader inode with
  | .ok img => @inodeImage dynamicConfig erasedHeader img
  | .error _ => []

def versionOf (inodeNumber inodeVersionNumber : ℕ) (fileName : List UInt8) : Inode where
  inodeNumber := inodeNumber
  inodeVersionNumber := inodeVersionNumber
  fileNameLen := fileName.length
  fileName := fileName

-- a file that was renamed from "a" to "b", and one called "c" that was deleted; the new versions lie in front
def renamedFs : Fs := { erasedFs with
  mem := { bytes := overwrite erasedFs.mem.bytes 64 <|
    [versionOf 1 2 [98], versionOf 1 1 [97], versionOf 2 2 [], versionOf 2 1 [99]].flatMap recordBytes } }

theorem findFile_newest_renamed : (∃ h, @FindsNewest dynamicConfig renamedFs [98] h ∧
      ∀ find ∈ [@findFile dynamicConfig [98], @findFileMapped dynamicConfig [98], @findFileUnmapped dynamicConfig [98]],
        ∃ t, find renamedFs = .ok h t) ∧
    (∃ h, @FindsNewest dynamicConfig renamedFs [97] h ∧
      ∀ find ∈ [@findFile dynamicConfig [97], @findFileMapped dynamicConfig [97], @findFileUnmapped dynamicConfig [97]],
        ∃ t, find renamedFs = .ok h t) ∧
    ∃ h, @FindsNewest dynamicConfig renamedFs [99] h ∧
      ∀ find ∈ [@findFile dynamicConfig [99], @findFileMapped dynamicConfig [99], @findFileUnmapped dynamicConfig [99]],
        ∃ t, find renamedFs = .ok h t := by
  have hdecoded : ∀ i < 4, (decodeInode renamedFs.header (@lookupPage dynamicConfig renamedFs i).page true).toOption.any
      (fun h => !h.modified) = true := by
    decide +kernel
  have hdistinct : ∀ i < 4, ∀ j < 4, (@recordAt dynamicConfig renamedFs i).inode.inodeNumber =
      (@recordAt dynamicConfig renamedFs j).inode.inodeNumber → (@recordAt dynamicConfig renamedFs i).inode.inodeVersionNumber =
        (@recordAt dynamicConfig renamedFs j).inode.inodeVersionNumber → i = j := by
    decide +kernel
  have hu : @Uncorrected dynamicConfig renamedFs := by
    intro i hi
    obtain ⟨h, hdec, hm⟩ := ok_of_any (hdecoded i hi.1)
    exact ⟨h, hdec, by simpa using hm⟩
  have hd : @DistinctVersions dynamicConfig renamedFs := fun i j hi hj => hdistinct i hi.1 j hj.1
  exact ⟨@findFile_newest dynamicConfig _ _ hu hd (by decide), @findFile_newest dynamicConfig _ _ hu hd (by decide),
    @findFile_newest dynamicConfig _ _ hu hd (by decide)⟩

end SimpleFlashFs
