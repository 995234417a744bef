import SimpleFlashFs.Reclaim
import SimpleFlashFs.LookupRule

namespace SimpleFlashFs

open Lib

-- nothing was written to the memory
structure Untouched (s t : Fs) : Prop where
  mem : t.mem = s.mem
  header : t.header = s.header
  variant : t.variant = s.variant

theorem Untouched.refl (s : Fs) : Untouched s s := ⟨rfl, rfl, rfl⟩

theorem Untouched.trans {s t u : Fs} (a : Untouched s t) (b : Untouched t u) : Untouched s u :=
  ⟨b.mem.trans a.mem, b.header.trans a.header, b.variant.trans a.variant⟩

-- and no number was given out
structure LookedAt (s t : Fs) : Prop extends Untouched s t where
  numbers : t.maxInodeNumber = s.maxInodeNumber

theorem LookedAt.refl (s : Fs) : LookedAt s s := ⟨Untouched.refl s, rfl⟩

theorem LookedAt.trans {s t u : Fs} (a : LookedAt s t) (b : LookedAt t u) : LookedAt s u :=
  ⟨a.toUntouched.trans b.toUntouched, b.numbers.trans a.numbers⟩

section Lookup

variable [Config] {s t : Fs} {name : List UInt8}

-- the way of find_file to read an inode page
def lookupPage (s : Fs) (i : ℕ) : ReadPageReturn :=
  if s.mem.canMapRead then readPageMapped s i true else readPage s i true

-- the versions that the first pass remembers
def collectVersions (s : Fs) : List ℕ → List InodeVersion → Except Fault (List InodeVersion)
  | [], ivs => .ok ivs
  | i :: rest, ivs =>
    if (lookupPage s i).error = none then
      match decodeInode s.header (lookupPage s i).page false with
      | .ok h => collectVersions s rest (addInodeVersion { h with page := i } ivs).1
      | .error e => .error e
    else collectVersions s rest ivs

-- the first of them with that name
def matchVersion (s : Fs) (name : List UInt8) : List InodeVersion → Except Fault FileHandle
  | [] => .ok {}
  | iv :: rest =>
    if (lookupPage s iv.page).error = none then
      match decodeInode s.header (lookupPage s iv.page).page true with
      | .ok h =>
        if h.inode.fileName = [] then matchVersion s name rest
        else if h.inode.fileName = name then .ok { h with page := iv.page }
        else matchVersion s name rest
      | .error e => .error e
    else matchVersion s name rest

def newestVersions (s : Fs) : Except Fault (List InodeVersion) :=
  collectVersions s (List.range s.header.maxInodes) []

def lookup (s : Fs) (name : List UInt8) : Except Fault FileHandle :=
  match newestVersions s with
  | .ok ivs => matchVersion s name ivs
  | .error e => .error e

-- no record needs a correction: neither one that is read without corrections nor a newest one
structure Quiet (s : Fs) : Prop where
  raw : ∀ i < s.header.maxInodes, (lookupPage s i).error = none → ∀ h,
    decodeInode s.header (lookupPage s i).page false = .ok h → h.modified = false
  newest : ∀ ivs, newestVersions s = .ok ivs → ∀ iv ∈ ivs, (lookupPage s iv.page).error = none → ∀ h,
    decodeInode s.header (lookupPage s iv.page).page true = .ok h → h.modified = false

theorem Untouched.lookupPage (e : Untouched s t) (i : ℕ) : lookupPage t i = lookupPage s i := by
  simp only [SimpleFlashFs.lookupPage, readPage, readPageMapped, e.mem, e.header]

theorem Untouched.collectVersions (e : Untouched s t) (l : List ℕ) (ivs : List InodeVersion) :
    collectVersions t l ivs = collectVersions s l ivs := by
  induction l generalizing ivs with
  | nil => rfl
  | cons i rest ih => simp only [SimpleFlashFs.collectVersions, e.lookupPage, e.header, ih]

theorem Untouched.newestVersions (e : Untouched s t) : newestVersions t = newestVersions s := by
  rw [SimpleFlashFs.newestVersions, e.collectVersions, e.header]
  rfl

theorem Untouched.matchVersion (e : Untouched s t) (ivs : List InodeVersion) :
    matchVersion t name ivs = matchVersion s name ivs := by
  induction ivs with
  | nil => rfl
  | cons iv rest ih => simp only [SimpleFlashFs.matchVersion, e.lookupPage, e.header, ih]

theorem Untouched.lookup (e : Untouched s t) : lookup t name = lookup s name := by
  simp only [SimpleFlashFs.lookup, e.newestVersions, e.matchVersion]

theorem Quiet.of_untouched (e : Untouched s t) (hq : Quiet s) : Quiet t where
  raw := by
    simp only [e.lookupPage, e.header]
    exact hq.raw
  newest := by
    simp only [e.lookupPage, e.header, e.newestVersions]
    exact hq.newest

omit [Config] in
theorem wp_freePages_untouched (l : List DataPage) (R : Fault → Fs → Prop) :
    wp (each (fun p : DataPage => freeUnwrittenPages p.pageId) l)
      (fun _ t => LookedAt s t ∧ t.ivStorage = s.ivStorage) R s := by
  induction l generalizing s with
  | nil => exact ⟨LookedAt.refl s, rfl⟩
  | cons m l ih =>
    rw [each, freeUnwrittenPages, wp_bind, wp_modify]
    exact wp_mono ih (fun _ _ hu => ⟨⟨⟨hu.1.mem, hu.1.header, hu.1.variant⟩, hu.1.numbers⟩, hu.2⟩) (fun _ _ h => h)

theorem wp_closeHandle_quiet {h : FileHandle} (hm : h.modified = false) (R : Fault → Fs → Prop) :
    wp (closeHandle h) (fun _ t => LookedAt s t ∧ t.ivStorage = s.ivStorage) R s := by
  rw [closeHandle]
  split
  · next hc =>
    rw [flush, if_neg (by simp [hc]), if_pos (by simp [hm]), wp_bind, wp_pure, wp_bind, freeUnwrittenPages,
      wp_modify]
    apply wp_mono (wp_freePages_untouched h.inode.dataPages R)
    · exact fun _ _ hu => ⟨⟨⟨hu.1.mem, hu.1.header, hu.1.variant⟩, hu.1.numbers⟩, hu.2⟩
    · exact fun _ _ h => h
  · exact ⟨LookedAt.refl s, rfl⟩

-- what was read is the same, if anything was
structure SamePage (a b : ReadPageReturn) : Prop where
  error : a.error = none ↔ b.error = none
  page : b.error = none → a.page = b.page

-- a way to read that gets the inode pages as find_file does
def Sees (s : Fs) (reader : Fs → ℕ → ReadPageReturn) : Prop :=
  ∀ t, Untouched s t → ∀ i < s.header.maxInodes, SamePage (reader t i) (lookupPage s i)

theorem samePage_mapped (s : Fs) (i : ℕ) : SamePage (readPageMapped s i true) (readPage s i true) := by
  have hlen := slice_length s.mem.bytes (pageOffset s.header i) s.header.pageSize
  by_cases hin : pageOffset s.header i + s.header.pageSize ≤ s.mem.bytes.length
  · have hfull : (s.mem.read (pageOffset s.header i) s.header.pageSize).length = s.header.pageSize := by
      rw [Memory.read, hlen]
      omega
    have he : readPageMapped s i true = readPage s i true := by
      simp only [readPageMapped, readPage, Memory.mapRead, if_pos hin, hfull, ne_eq, not_true_eq_false, if_false]
      rfl
    rw [he]
    exact ⟨Iff.rfl, fun _ => rfl⟩
  · have hshort : (s.mem.read (pageOffset s.header i) s.header.pageSize).length ≠ s.header.pageSize := by
      rw [Memory.read, hlen]
      have hzero : s.header.pageSize = 0 → pageOffset s.header i = 0 := by
        intro h0
        rw [pageOffset, h0, Nat.mul_zero]
      omega
    have hmapped : readPageMapped s i true = ⟨some .readError, []⟩ := by
      simp only [readPageMapped, Memory.mapRead, if_neg hin]
    have hread : (readPage s i true).error = some .readError := by
      simp only [readPage, if_pos hshort]
    rw [hmapped]
    exact ⟨by simp [hread], fun h => by rw [hread] at h; cases h⟩

theorem sees_mapped (s : Fs) : Sees s (readPageMapped · · true) := by
  intro t e i _
  rw [← e.lookupPage, lookupPage]
  split
  · exact ⟨Iff.rfl, fun _ => rfl⟩
  · exact samePage_mapped t i

theorem sees_unmapped (s : Fs) : Sees s (readPage · · true) := by
  intro t e i _
  rw [← e.lookupPage, lookupPage]
  split
  · have h := samePage_mapped t i
    exact ⟨h.error.symm, fun hok => (h.page (h.error.mp hok)).symm⟩
  · exact ⟨Iff.rfl, fun _ => rfl⟩

theorem wp_recordInodePage_quiet {reader : Fs → ℕ → ReadPageReturn} (hread : Sees s reader)
    (hq : Quiet s) {i : ℕ} (hi : i < s.header.maxInodes) (rest : List ℕ) (e : LookedAt s t) :
    wp (recordInodePage reader i)
      (fun _ u => LookedAt s u ∧
        collectVersions s rest u.ivStorage = collectVersions s (i :: rest) t.ivStorage)
      (fun f u => LookedAt s u ∧ collectVersions s (i :: rest) t.ivStorage = .error f) t := by
  have hsame := hread t e.toUntouched i hi
  simp only [recordInodePage, wp_bind, wp_get, collectVersions]
  rw [wp_ite, hsame.error]
  constructor
  · intro hok
    simp only [getInode, wp_bind, wp_get, e.header, hsame.page hok, hok, if_true]
    cases hdec : decodeInode s.header (lookupPage s i).page false with
    | error f => exact ⟨e, rfl⟩
    | ok h =>
      have hm := hq.raw i hi hok h hdec
      simp only [liftFault, wp_pure, addIvStorage, wp_bind, wp_get, wp_set]
      apply wp_mono (wp_closeHandle_quiet (h := { h with page := i }) hm _)
      · rintro _ u ⟨hu, hiv⟩
        refine ⟨e.trans ⟨⟨hu.mem, hu.header, hu.variant⟩, hu.numbers⟩, ?_⟩
        rw [hiv]
      · exact fun _ _ h => h
  · intro hno
    rw [if_neg hno]
    exact ⟨e, rfl⟩

theorem wp_findVersion_quiet {reader : Fs → ℕ → ReadPageReturn} (hread : Sees s reader)
    (name : List UInt8) (ivs : List InodeVersion) (hat : VersionsAtInodes s.header ivs)
    (hq : ∀ iv ∈ ivs, (lookupPage s iv.page).error = none → ∀ h,
      decodeInode s.header (lookupPage s iv.page).page true = .ok h → h.modified = false) (e : LookedAt s t) :
    wp (findVersion reader name ivs) (fun h u => LookedAt s u ∧ matchVersion s name ivs = .ok h)
      (fun f u => LookedAt s u ∧ matchVersion s name ivs = .error f) t := by
  induction ivs generalizing t with
  | nil => exact ⟨e, rfl⟩
  | cons iv rest ih =>
    have hrest := fun t => ih (t := t) (fun iv hiv => hat iv (List.mem_cons_of_mem _ hiv))
      fun iv hiv => hq iv (List.mem_cons_of_mem _ hiv)
    have hsame := hread t e.toUntouched _ (hat iv (List.mem_cons_self ..))
    simp only [findVersion, wp_bind, wp_get, matchVersion]
    rw [wp_ite, hsame.error]
    constructor
    · intro hok
      simp only [getInode, wp_bind, wp_get, e.header, hsame.page hok, hok, if_true]
      cases hdec : decodeInode s.header (lookupPage s iv.page).page true with
      | error f => exact ⟨e, rfl⟩
      | ok h =>
        have hm := hq iv (List.mem_cons_self ..) hok h hdec
        have hclose : wp (closeHandle { h with page := iv.page })
            (fun _ u => wp (findVersion reader name rest)
              (fun h u => LookedAt s u ∧ matchVersion s name rest = .ok h)
              (fun f u => LookedAt s u ∧ matchVersion s name rest = .error f) u)
            (fun f u => LookedAt s u ∧ matchVersion s name rest = .error f) t :=
          wp_mono (wp_closeHandle_quiet (h := { h with page := iv.page }) hm _)
            (fun _ u hu => hrest u (e.trans hu.1)) (fun _ _ h => h)
        simp only [liftFault, wp_pure]
        rw [wp_ite]
        constructor
        · intro hempty
          rw [if_pos hempty, wp_bind]
          exact hclose
        · intro hne
          rw [wp_ite, if_neg hne]
          constructor
          · intro hname
            rw [if_pos hname]
            exact ⟨e, rfl⟩
          · intro hname
            rw [if_neg hname, wp_bind]
            exact hclose
    · intro hno
      rw [if_neg hno]
      exact hrest t e

theorem collectVersions_atInodes (l : List ℕ) (hl : ∀ i ∈ l, i < s.header.maxInodes) {ivs ivs' : List InodeVersion}
    (hat : VersionsAtInodes s.header ivs) (hc : collectVersions s l ivs = .ok ivs') :
    VersionsAtInodes s.header ivs' := by
  induction l generalizing ivs with
  | nil =>
    rw [← Except.ok.inj hc]
    exact hat
  | cons i rest ih =>
    have hrest := fun j hj => hl j (List.mem_cons_of_mem _ hj)
    rw [collectVersions] at hc
    split at hc
    · cases hdec : decodeInode s.header (lookupPage s i).page false with
      | error f =>
        rw [hdec] at hc
        cases hc
      | ok h =>
        rw [hdec] at hc
        exact ih hrest (addInodeVersion_atInodes (hl i (List.mem_cons_self ..)) hat) hc
    · exact ih hrest hat hc

theorem wp_findFileWith_quiet (hq : Quiet s) {reader : Fs → ℕ → ReadPageReturn} (hread : Sees s reader)
    (name : List UInt8) :
    wp (findFileWith reader name) (fun h t => LookedAt s t ∧ lookup s name = .ok h)
      (fun f t => LookedAt s t ∧ lookup s name = .error f) s := by
  have hpass : ∀ (l : List ℕ) (t : Fs), (∀ i ∈ l, i < s.header.maxInodes) → LookedAt s t →
      wp (each (recordInodePage reader) l)
        (fun _ u => LookedAt s u ∧ collectVersions s l t.ivStorage = .ok u.ivStorage)
        (fun f u => LookedAt s u ∧ collectVersions s l t.ivStorage = .error f) t := by
    intro l
    induction l with
    | nil => exact fun t _ e => ⟨e, rfl⟩
    | cons i rest ih =>
      intro t hl e
      rw [each, wp_bind]
      apply wp_mono (wp_recordInodePage_quiet hread hq (hl i (List.mem_cons_self ..)) rest e)
      · rintro _ u ⟨hu, hc⟩
        rw [← hc]
        exact ih u (fun j hj => hl j (List.mem_cons_of_mem _ hj)) hu
      · exact fun _ _ h => h
  have hrange : ∀ i ∈ List.range s.header.maxInodes, i < s.header.maxInodes := fun i hi => List.mem_range.mp hi
  simp only [findFileWith, clearIvStorage, wp_bind, wp_modify, wp_get]
  apply wp_mono (hpass (List.range s.header.maxInodes) { s with ivStorage := [] } hrange ⟨⟨rfl, rfl, rfl⟩, rfl⟩)
  · rintro _ u ⟨hu, hc⟩
    have hnew : newestVersions s = .ok u.ivStorage := hc
    rw [lookup, hnew]
    exact wp_findVersion_quiet hread name u.ivStorage (collectVersions_atInodes _ hrange (fun _ hiv => absurd hiv List.not_mem_nil) hnew)
      (hq.newest _ hnew) hu
  · rintro f u ⟨hu, hc⟩
    have hnew : newestVersions s = .error f := hc
    rw [lookup, hnew]
    exact ⟨hu, rfl⟩

theorem wp_findFile_quiet (hq : Quiet s) (name : List UInt8) :
    wp (findFile name) (fun h t => LookedAt s t ∧ lookup s name = .ok h)
      (fun f t => LookedAt s t ∧ lookup s name = .error f) s := by
  simp only [findFile, wp_bind, wp_get]
  rw [wp_ite]
  constructor
  · exact fun _ => wp_findFileWith_quiet hq (sees_mapped s) name
  · exact fun _ => wp_findFileWith_quiet hq (sees_unmapped s) name

end Lookup

-- the calls of a reader of the base filesystem on the handles it holds
inductive ReadOp
  | openIn (name : List UInt8)
  | read (i size : ℕ)
  | seek (i pos : ℕ)
  | close (i : ℕ)
deriving DecidableEq, Repr

-- the calls of a filesystem that is only listed
inductive ListOp
  | init
  | getAllInodes
deriving DecidableEq, Repr

section Reader

variable [Config]

def ReadOp.run (l : List FileHandle) : ReadOp → FsM (List FileHandle)
  | .openIn name => do
    let h ← openFile name { in_ := true }
    pure (l ++ [h])
  | .read i size =>
    match l[i]? with
    | none => pure l
    | some h => do
      let r ← SimpleFlashFs.read h size
      pure (l.set i r.2)
  | .seek i pos =>
    match l[i]? with
    | none => pure l
    | some h => do
      let r ← SimpleFlashFs.seek h pos
      pure (l.set i r.2)
  | .close i =>
    match l[i]? with
    | none => pure l
    | some h => do
      closeHandle h
      pure (l.set i {})

def ReadOp.Inside (l : List FileHandle) : ReadOp → Prop
  | .seek i pos => ∀ h, l[i]? = some h → pos ≤ h.inode.fileLen
  | _ => True

-- the states of a reader; the last call may also fail
inductive ReadRun (s : Fs) : List FileHandle → Fs → Prop
  | start : ReadRun s [] s
  | step {l l' : List FileHandle} {t u : Fs} {op : ReadOp} : ReadRun s l t → op.Inside l →
      op.run l t = .ok l' u → ReadRun s l' u
  | failed {l : List FileHandle} {t u : Fs} {op : ReadOp} {f : Fault} : ReadRun s l t → op.Inside l →
      op.run l t = .error f u → ReadRun s l u

def ListOp.run : ListOp → FsM Unit
  | .init => do
    let _ ← initDynamic
    pure ()
  | .getAllInodes => do
    let files ← SimpleFlashFs.getAllInodes false
    each closeHandle files

variable {s t u : Fs} {l : List FileHandle}

theorem readDataPages_modified (h : FileHandle) (size : ℕ) : (readDataPages s h size).2.modified = h.modified := by
  have hh := (readDataPages_upTo (s := s) (h := h) size).handle
  rw [hh]

theorem wp_read_untouched (h : FileHandle) (size : ℕ) :
    wp (read h size) (fun r t => t = s ∧ r.2.modified = h.modified) (fun _ t => t = s) s := by
  have hadvance : ∀ len, (h.advance len).modified = h.modified := fun _ => rfl
  rw [read, wp_ite]
  refine ⟨fun _ => ?_, fun _ => rfl⟩
  simp only [readFs, wp_bind, wp_get]
  generalize (if subU64 h.inode.fileLen h.pos < size then subU64 h.inode.fileLen h.pos else size) = n
  generalize min (subU64 h.inode.fileLen h.pos) n = len
  rw [wp_ite]
  constructor
  · intro _
    exact ⟨rfl, rfl⟩
  · intro _
    rw [wp_ite]
    constructor
    · intro _
      rw [wp_ite]
      exact ⟨fun _ => rfl, fun _ => ⟨rfl, hadvance len⟩⟩
    · intro _
      exact ⟨rfl, readDataPages_modified h n⟩

omit [Config] in
theorem decodeInode_connected {hd : Header} {page : List UInt8} {corr : Bool} {h : FileHandle}
    (hdec : decodeInode hd page corr = .ok h) : h.connected = true := by
  unfold decodeInode at hdec
  obtain ⟨inodeNumber, -, hdec⟩ := bind_eq_ok.mp hdec
  obtain ⟨inodeVersionNumber, -, hdec⟩ := bind_eq_ok.mp hdec
  obtain ⟨fileNameLen, -, hdec⟩ := bind_eq_ok.mp hdec
  obtain ⟨fileName, -, hdec⟩ := bind_eq_ok.mp hdec
  obtain ⟨attributes, -, hdec⟩ := bind_eq_ok.mp hdec
  obtain ⟨fileLen, -, hdec⟩ := bind_eq_ok.mp hdec
  obtain ⟨pages, -, hdec⟩ := bind_eq_ok.mp hdec
  split at hdec
  · obtain ⟨d, -, hdec⟩ := bind_eq_ok.mp hdec
    rw [← Except.ok.inj hdec]
  · split at hdec
    · dsimp only at hdec
      split at hdec
      · obtain ⟨data, -, hdec⟩ := bind_eq_ok.mp hdec
        obtain ⟨bytes, -, hdec⟩ := bind_eq_ok.mp hdec
        rw [← Except.ok.inj hdec]
      · rw [← Except.ok.inj hdec]
    · rw [← Except.ok.inj hdec]

-- a file is found as its record is decoded
theorem matchVersion_found {name : List UInt8} {ivs : List InodeVersion} {h : FileHandle}
    (hm : matchVersion s name ivs = .ok h) : h = {} ∨ ∃ iv ∈ ivs, (lookupPage s iv.page).error = none ∧
      ∃ k, decodeInode s.header (lookupPage s iv.page).page true = .ok k ∧ h = { k with page := iv.page } := by
  induction ivs with
  | nil => exact Or.inl (Except.ok.inj hm).symm
  | cons iv rest ih =>
    have hrest : matchVersion s name rest = .ok h → h = {} ∨ ∃ iv' ∈ iv :: rest,
        (lookupPage s iv'.page).error = none ∧ ∃ k,
          decodeInode s.header (lookupPage s iv'.page).page true = .ok k ∧ h = { k with page := iv'.page } := by
      intro hm'
      rcases ih hm' with he | ⟨iv', hiv, hk⟩
      · exact Or.inl he
      · exact Or.inr ⟨iv', List.mem_cons_of_mem _ hiv, hk⟩
    rw [matchVersion] at hm
    split at hm
    · next hok =>
      cases hdec : decodeInode s.header (lookupPage s iv.page).page true with
      | error f =>
        rw [hdec] at hm
        cases hm
      | ok k =>
        rw [hdec] at hm
        dsimp only at hm
        split at hm
        · exact hrest hm
        · split at hm
          · exact Or.inr ⟨iv, List.mem_cons_self .., hok, k, hdec, (Except.ok.inj hm).symm⟩
          · exact hrest hm
    · exact hrest hm

theorem Quiet.lookup_unmodified (hq : Quiet s) {name : List UInt8} {h : FileHandle}
    (hl : lookup s name = .ok h) : h.modified = false ∧ (h.connected = false → h = {}) := by
  rw [lookup] at hl
  cases hnew : newestVersions s with
  | error f =>
    rw [hnew] at hl
    cases hl
  | ok ivs =>
    rw [hnew] at hl
    rcases matchVersion_found hl with rfl | ⟨iv, hiv, hok, k, hdec, rfl⟩
    · exact ⟨rfl, fun _ => rfl⟩
    · refine ⟨hq.newest ivs hnew iv hiv hok k hdec, fun hc => ?_⟩
      rw [decodeInode_connected hdec] at hc
      cases hc

theorem wp_openIn_quiet (hq : Quiet s) (name : List UInt8) :
    wp (openFile name { in_ := true })
      (fun h t => LookedAt s t ∧ lookup s name = .ok h ∧ h.modified = false)
      (fun f t => LookedAt s t ∧ lookup s name = .error f) s := by
  rw [openFile, wp_bind]
  apply wp_mono (wp_findFile_quiet hq name)
  · rintro h t ⟨ht, hl⟩
    obtain ⟨hm, hnone⟩ := hq.lookup_unmodified hl
    rw [wp_ite]
    constructor
    · intro hc
      have he := hnone (by simpa using hc)
      rw [if_pos (by simp), wp_pure]
      rw [he] at hl
      exact ⟨ht, hl, rfl⟩
    · intro _
      rw [if_neg (by simp), wp_pure]
      exact ⟨ht, hl, hm⟩
  · exact fun _ _ h => h

-- what a reader leaves as it is
structure Reading (s : Fs) (l : List FileHandle) (t : Fs) : Prop where
  untouched : Untouched s t
  unmodified : ∀ h ∈ l, h.modified = false

omit [Config] in
theorem Reading.set (hr : Reading s l t) (i : ℕ) {h : FileHandle} (hm : h.modified = false) (hu : Untouched t u) :
    Reading s (l.set i h) u := by
  refine ⟨hr.untouched.trans hu, fun k hk => ?_⟩
  rcases List.mem_or_eq_of_mem_set hk with hk | rfl
  · exact hr.unmodified k hk
  · exact hm

theorem Reading.run (hq : Quiet s) (hr : Reading s l t) {op : ReadOp} (hin : op.Inside l) :
    wp (op.run l) (fun l' u => Reading s l' u) (fun _ u => Untouched s u) t := by
  cases op with
  | openIn name =>
    rw [ReadOp.run, wp_bind]
    apply wp_mono (wp_openIn_quiet (hq.of_untouched hr.untouched) name)
    · rintro h u ⟨hu, -, hm⟩
      refine ⟨hr.untouched.trans hu.toUntouched, fun k hk => ?_⟩
      rcases List.mem_append.mp hk with hk | hk
      · exact hr.unmodified k hk
      · rw [List.mem_singleton.mp hk]
        exact hm
    · exact fun _ u hu => hr.untouched.trans hu.1.toUntouched
  | read i size =>
    rw [ReadOp.run]
    cases hi : l[i]? with
    | none => exact hr
    | some h =>
      have hm := hr.unmodified h (List.mem_of_getElem? hi)
      dsimp only
      rw [wp_bind]
      apply wp_mono (wp_read_untouched h size)
      · rintro r u ⟨rfl, hru⟩
        exact hr.set i (hru.trans hm) (Untouched.refl _)
      · rintro _ u rfl
        exact hr.untouched
  | seek i pos =>
    rw [ReadOp.run]
    cases hi : l[i]? with
    | none => exact hr
    | some h =>
      have hm := hr.unmodified h (List.mem_of_getElem? hi)
      dsimp only
      rw [wp_bind, SimpleFlashFs.seek, if_pos (hin h hi), wp_pure]
      exact hr.set i hm (Untouched.refl _)
  | close i =>
    rw [ReadOp.run]
    cases hi : l[i]? with
    | none => exact hr
    | some h =>
      have hm := hr.unmodified h (List.mem_of_getElem? hi)
      dsimp only
      rw [wp_bind]
      exact wp_mono (wp_closeHandle_quiet hm _) (fun _ u hu => hr.set i rfl hu.1.toUntouched) (fun _ _ h => h)

theorem ReadRun.untouched (hq : Quiet s) (hr : ReadRun s l t) : Untouched s t := by
  have hall : Reading s l t := by
    induction hr with
    | start => exact ⟨Untouched.refl s, nofun⟩
    | step _ hin hrun ih => exact wp_ok (ih.run hq hin) hrun
    | failed _ hin hrun ih => exact ⟨wp_error (R := fun _ u => Untouched s u) (ih.run hq hin) hrun, ih.unmodified⟩
  exact hall.untouched

end Reader

section Listing

variable [Config] {s t u : Fs} {l : List FileHandle}

-- no valid inode page comes out of its decoding without corrections as modified
def ListsQuiet (s : Fs) : Prop :=
  ∀ i < s.header.maxInodes, (readPage s i true).error = none → ∀ h,
    decodeInode s.header (readPage s i true).page false = .ok h → h.modified = false

theorem ListsQuiet.congr (hq : ListsQuiet s) (hm : t.mem = s.mem) (hh : t.header = s.header) : ListsQuiet t := by
  have hread : ∀ i, readPage t i true = readPage s i true := fun i => by simp only [readPage, hm, hh]
  simp only [ListsQuiet, hread, hh]
  exact hq

theorem wp_closeAll_quiet (hl : ∀ h ∈ l, h.modified = false) :
    wp (each closeHandle l) (fun _ t => Untouched s t) (fun _ t => Untouched s t) s := by
  induction l generalizing s with
  | nil => exact Untouched.refl s
  | cons h l ih =>
    rw [each, wp_bind]
    apply wp_mono (wp_closeHandle_quiet (hl h (List.mem_cons_self ..)) (fun _ t => Untouched s t))
    · rintro _ t ⟨ht, -⟩
      apply wp_mono (ih fun k hk => hl k (List.mem_cons_of_mem _ hk))
      · exact fun _ _ hu => ht.toUntouched.trans hu
      · exact fun _ _ hu => ht.toUntouched.trans hu
    · exact fun _ _ h => h

theorem wp_collectAllInodes_quiet (is : List ℕ) (his : ∀ i ∈ is, i < s.header.maxInodes) (hq : ListsQuiet s)
    (hl : ∀ h ∈ l, h.modified = false) :
    wp (collectAllInodes false is l) (fun r t => t = s ∧ ∀ h ∈ r, h.modified = false) (fun _ t => t = s) s := by
  induction is generalizing l with
  | nil => exact ⟨rfl, hl⟩
  | cons i rest ih =>
    have hrest := fun j hj => his j (List.mem_cons_of_mem _ hj)
    simp only [collectAllInodes, wp_bind, wp_get]
    rw [wp_ite]
    constructor
    · intro hok
      simp only [getInode, wp_bind, wp_get]
      cases hdec : decodeInode s.header (readPage s i true).page false with
      | error f => exact rfl
      | ok h =>
        apply ih hrest
        intro k hk
        rcases List.mem_append.mp hk with hk | hk
        · exact hl k hk
        · rw [List.mem_singleton.mp hk]
          exact hq i (his i (List.mem_cons_self ..)) hok h hdec
    · exact fun _ => ih hrest hl

theorem wp_collectInodes_quiet (is : List ℕ) (his : ∀ i ∈ is, i < s.header.maxInodes) (hq : ListsQuiet s)
    {groups : List (ℕ × List FileHandle)} (hl : ∀ h ∈ flat groups, h.modified = false) :
    wp (collectInodes is groups) (fun r t => Untouched s t ∧ ∀ h ∈ flat r, h.modified = false)
      (fun _ t => Untouched s t) s := by
  induction is generalizing s groups with
  | nil => exact ⟨Untouched.refl s, hl⟩
  | cons i rest ih =>
    have hrest := fun j hj => his j (List.mem_cons_of_mem _ hj)
    simp only [collectInodes, wp_bind, wp_get]
    rw [wp_ite]
    constructor
    · intro hok
      simp only [getInode, wp_bind, wp_get]
      cases hdec : decodeInode s.header (readPage s i true).page false with
      | error f => exact Untouched.refl s
      | ok h =>
        simp only [liftFault, wp_pure, wp_modify]
        have hsame : Untouched s { s with maxInodeNumber := max s.maxInodeNumber h.inode.inodeNumber } :=
          ⟨rfl, rfl, rfl⟩
        have hgroups : ∀ k ∈ flat (insertInode { h with page := i } groups), k.modified = false := by
          intro k hk
          rcases List.mem_cons.mp ((flat_insertInode _ groups).mem_iff.mp hk) with rfl | hk
          · exact hq i (his i (List.mem_cons_self ..)) hok h hdec
          · exact hl k hk
        apply wp_mono (ih (s := { s with maxInodeNumber := max s.maxInodeNumber h.inode.inodeNumber }) hrest
          (hq.congr hsame.mem hsame.header) hgroups)
        · exact fun _ _ hu => ⟨hsame.trans hu.1, hu.2⟩
        · exact fun _ _ hu => hsame.trans hu
    · exact fun _ => ih hrest hq hl

theorem wp_clearOldVersions_quiet (hv : s.variant = .noDel) {file : FileHandle} (hf : file.modified = false)
    (hl : ∀ h ∈ l, h.modified = false) :
    wp (clearOldVersions file l) (fun r t => Untouched s t ∧ r.modified = false) (fun _ t => Untouched s t) s := by
  induction l generalizing s file with
  | nil => exact ⟨Untouched.refl s, hf⟩
  | cons next rest ih =>
    simp only [clearOldVersions, eraseInodeAndUnusedPages, wp_bind, wp_get, hv, wp_pure]
    apply wp_mono (wp_closeHandle_quiet hf (fun _ t => Untouched s t))
    · rintro _ t ⟨ht, -⟩
      apply wp_mono (ih (ht.variant.trans hv) (hl next (List.mem_cons_self ..))
        fun h hh => hl h (List.mem_cons_of_mem _ hh))
      · exact fun _ _ hu => ⟨ht.toUntouched.trans hu.1, hu.2⟩
      · exact fun _ _ hu => ht.toUntouched.trans hu
    · exact fun _ _ h => h

theorem wp_clearOldInodes_quiet (hv : s.variant = .noDel) {groups : List (ℕ × List FileHandle)}
    (hl : ∀ h ∈ flat groups, h.modified = false) :
    wp (clearOldInodes groups) (fun r t => Untouched s t ∧ ∀ h ∈ r, h.modified = false)
      (fun _ t => Untouched s t) s := by
  induction groups generalizing s with
  | nil => exact ⟨Untouched.refl s, nofun⟩
  | cons g rest ih =>
    obtain ⟨n, files⟩ := g
    have hrest : ∀ h ∈ flat rest, h.modified = false := fun h hh => hl h (List.mem_append_right _ hh)
    have hfiles : ∀ h ∈ sortVersions files, h.modified = false :=
      fun h hh => hl h (List.mem_append_left _ ((sortVersions_perm files).mem_iff.mp hh))
    rw [clearOldInodes]
    cases hs : sortVersions files with
    | nil => exact ih hv hrest
    | cons file newer =>
      rw [hs] at hfiles
      dsimp only
      rw [wp_bind]
      apply wp_mono (wp_clearOldVersions_quiet hv (hfiles file (List.mem_cons_self ..))
        fun h hh => hfiles h (List.mem_cons_of_mem _ hh))
      · rintro r t ⟨ht, hr⟩
        rw [wp_bind]
        apply wp_mono (ih (ht.variant.trans hv) hrest)
        · rintro rs u ⟨hu, hrs⟩
          refine ⟨ht.trans hu, fun h hh => ?_⟩
          rcases List.mem_cons.mp hh with rfl | hh
          · exact hr
          · exact hrs h hh
        · exact fun _ _ hu => ht.trans hu
      · exact fun _ _ h => h

omit [Config] in
theorem wp_eraseUsedPages_quiet (R : Fault → Fs → Prop) :
    wp (each eraseUsedPages l) (fun _ t => Untouched s t) R s := by
  have hone : ∀ (pages : List DataPage) (s : Fs),
      wp (each (fun p : DataPage => eraseFreeDataPage p.pageId) pages) (fun _ t => Untouched s t) R s := by
    intro pages
    induction pages with
    | nil => exact fun s => Untouched.refl s
    | cons p pages ih =>
      intro s
      rw [each, eraseFreeDataPage, wp_bind, wp_modify]
      exact wp_mono (ih _) (fun _ _ hu => ⟨hu.mem, hu.header, hu.variant⟩) (fun _ _ h => h)
  induction l generalizing s with
  | nil => exact Untouched.refl s
  | cons h l ih =>
    rw [each, wp_bind]
    exact wp_mono (hone h.inode.dataPages s) (fun _ _ ht => wp_mono ih (fun _ _ hu => ht.trans hu) (fun _ _ h => h))
      (fun _ _ h => h)

theorem wp_readAllFreeDataPages_quiet (hv : s.variant = .noDel) (hq : ListsQuiet s) :
    wp readAllFreeDataPages (fun _ t => Untouched s t) (fun _ t => Untouched s t) s := by
  have hfill : wp fillFreeDataPages (fun _ t => Untouched s t) (fun _ t => Untouched s t) s := by
    simp only [fillFreeDataPages, wp_bind, wp_get]
    cases allDataPages s.header with
    | none => exact Untouched.refl s
    | some pages => exact ⟨rfl, rfl, rfl⟩
  rw [readAllFreeDataPages, wp_bind]
  apply wp_mono hfill
  · intro _ t ht
    have hnil : ∀ h ∈ flat [], h.modified = false := nofun
    simp only [wp_bind, wp_get]
    apply wp_mono (wp_collectInodes_quiet (List.range t.header.maxInodes) (fun i hi => List.mem_range.mp hi)
      (hq.congr ht.mem ht.header) hnil)
    · rintro groups u ⟨hu, hgroups⟩
      have hsu := ht.trans hu
      apply wp_mono (wp_clearOldInodes_quiet (hsu.variant.trans hv) hgroups)
      · rintro survivors v ⟨hv', hsur⟩
        have hsv := hsu.trans hv'
        apply wp_mono (wp_eraseUsedPages_quiet _)
        · intro _ w hw
          have hsw := hsv.trans hw
          apply wp_mono (wp_closeAll_quiet hsur)
          · exact fun _ _ hx => hsw.trans hx
          · exact fun _ _ hx => hsw.trans hx
        · exact fun _ _ hw => hw
      · exact fun _ _ hx => hsu.trans hx
    · exact fun _ _ hx => ht.trans hx
  · exact fun _ _ h => h

-- an image that is only listed, with the header that its instance holds
structure ListsSame (s t : Fs) : Prop where
  mem : t.mem = s.mem
  variant : t.variant = s.variant
  quiet : ListsQuiet t

theorem ListsQuiet.of_noInodes (hn : s.header.maxInodes = 0) : ListsQuiet s := by
  intro i hi
  rw [hn] at hi
  exact absurd hi (Nat.not_lt_zero i)

theorem ListsSame.of_untouched (hs : ListsSame s t) (hu : Untouched t u) : ListsSame s u :=
  ⟨hu.mem.trans hs.mem, hu.variant.trans hs.variant, hs.quiet.congr hu.mem hu.header⟩

theorem wp_initBase_quiet (hs : ListsSame s t)
    (hq : ∀ hd, HeaderOn s.mem hd → ListsQuiet { s with header := hd }) (R : Fault → Fs → Prop) :
    wp initBase (fun _ u => ListsSame s u) R t := by
  cases hi : initBase t with
  | ok r u =>
    rw [wp, hi]
    cases r with
    | true =>
      obtain ⟨hon, hu⟩ := headerOn_of_initBase hi
      have hmem : u.mem = t.mem := by rw [hu]; rfl
      have hvariant : u.variant = t.variant := by rw [hu]; rfl
      rw [hs.mem] at hon
      exact ⟨hmem.trans hs.mem, hvariant.trans hs.variant, (hq _ hon).congr (hmem.trans hs.mem) rfl⟩
    | false =>
      have hno : wp initBase (fun r u => r = false → u = t ∨ u.mem = t.mem ∧ u.variant = t.variant ∧ u.header.maxInodes = 0)
          (fun _ _ => True) t := by
        simp only [initBase, wp_bind, wp_get]
        split
        · exact fun _ => Or.inl rfl
        · cases parseEndianness (readHeaderPage t.mem minPageSize) with
          | none => exact fun _ => Or.inl rfl
          | some e =>
            simp only [setHeader, wp_bind, wp_modify]
            split
            · exact fun _ => Or.inr ⟨rfl, rfl, rfl⟩
            · split
              · exact fun _ => Or.inr ⟨rfl, rfl, rfl⟩
              · split
                · exact fun _ => Or.inr ⟨rfl, rfl, rfl⟩
                · simp
      rcases wp_ok hno hi rfl with rfl | ⟨hmem, hvariant, hn⟩
      · exact hs
      · exact ⟨hmem.trans hs.mem, hvariant.trans hs.variant, ListsQuiet.of_noInodes hn⟩
  | error f u =>
    have hok : wp initBase (fun _ _ => True) (fun _ _ => False) t := by
      simp only [initBase, wp_bind, wp_get]
      split
      · exact trivial
      · cases parseEndianness (readHeaderPage t.mem minPageSize) with
        | none => exact trivial
        | some e =>
          simp only [setHeader, wp_bind, wp_modify]
          split
          · exact trivial
          · split
            · exact trivial
            · split
              · exact trivial
              · exact trivial
    exact (wp_error hok hi).elim

theorem wp_listOp_quiet (hv : s.variant = .noDel)
    (hq : ∀ hd, HeaderOn s.mem hd → ListsQuiet { s with header := hd }) (hs : ListsSame s t) (op : ListOp) :
    wp op.run (fun _ u => ListsSame s u) (fun _ u => u.mem = s.mem) t := by
  cases op with
  | init =>
    rw [ListOp.run, initDynamic, wp_bind, wp_bind]
    apply wp_mono (wp_initBase_quiet hs hq _)
    · intro ok u hu
      rw [wp_ite]
      constructor
      · intro _
        rw [wp_bind]
        apply wp_mono (wp_readAllFreeDataPages_quiet (hu.variant.trans hv) hu.quiet)
        · exact fun _ _ hw => hu.of_untouched hw
        · exact fun _ _ hw => hw.mem.trans hu.mem
      · exact fun _ => hu
    · exact fun _ _ h => h
  | getAllInodes =>
    simp only [ListOp.run, SimpleFlashFs.getAllInodes, wp_bind, wp_get]
    apply wp_mono (wp_collectAllInodes_quiet (List.range t.header.maxInodes) (fun i hi => List.mem_range.mp hi)
      hs.quiet (l := []) (by simp))
    · rintro files u ⟨rfl, hfiles⟩
      apply wp_mono (wp_closeAll_quiet hfiles)
      · exact fun _ _ hw => hs.of_untouched hw
      · exact fun _ _ hw => hw.mem.trans hs.mem
    · rintro _ u rfl
      exact hs.mem

theorem wp_listOps_quiet (hv : s.variant = .noDel)
    (hq : ∀ hd, HeaderOn s.mem hd → ListsQuiet { s with header := hd }) (hs : ListsSame s t) (ops : List ListOp) :
    wp (each ListOp.run ops) (fun _ u => ListsSame s u) (fun _ u => u.mem = s.mem) t := by
  induction ops generalizing t with
  | nil => exact hs
  | cons op ops ih =>
    rw [each, wp_bind]
    exact wp_mono (wp_listOp_quiet hv hq hs op) (fun _ _ hu => ih hu) (fun _ _ h => h)

end Listing

theorem readOnly_keepsMemory [Config] (s : Fs) :
    (Quiet s → ∀ l t, ReadRun s l t → t.mem = s.mem) ∧
      (s.variant = .noDel → ListsQuiet s → (∀ hd, HeaderOn s.mem hd → ListsQuiet { s with header := hd }) →
        ∀ ops, wp (each ListOp.run ops) (fun _ t => t.mem = s.mem) (fun _ t => t.mem = s.mem) s) := by
  constructor
  · intro hq l t hr
    exact (hr.untouched hq).mem
  · intro hv hl hq ops
    apply wp_mono (wp_listOps_quiet hv hq ⟨rfl, rfl, hl⟩ ops)
    · exact fun _ _ hu => hu.mem
    · exact fun _ _ hu => hu

def magicHeader : Header := { erasedHeader with magicString := magickString }

-- one file on a formatted medium
def formattedWith (inode : Inode) (variant : Variant) : Fs :=
  match @writeHeader dynamicConfig magicHeader { storedOn 0 inode [] with variant } with
  | .ok _ t => t
  | .error _ t => t

theorem decoded_unmodified {hd : Header} {page : List UInt8} {corr : Bool}
    (hall : (decodeInode hd page corr).toOption.all (!·.modified) = true) (h : FileHandle)
    (hdec : decodeInode hd page corr = .ok h) : h.modified = false := by
  rw [hdec] at hall
  simpa [Except.toOption] using hall

theorem pagedFs_quiet : @Quiet dynamicConfig pagedFs := by
  apply @Quiet.mk dynamicConfig
  · intro i hi _
    have hall : ∀ i < 4, (decodeInode pagedFs.header (@lookupPage dynamicConfig pagedFs i).page false).toOption.all
        (!·.modified) = true := by
      decide +kernel
    exact decoded_unmodified (hall i hi)
  · intro ivs hivs iv hiv _
    have hnew : @newestVersions dynamicConfig pagedFs = .ok [⟨1, 0, 1⟩] := by
      decide +kernel
    rw [hnew] at hivs
    rw [← Except.ok.inj hivs] at hiv
    rw [List.mem_singleton.mp hiv]
    apply decoded_unmodified
    decide +kernel

theorem formattedWith_lists {hd : Header} (hon : @HeaderOn dynamicConfig (formattedWith pagedInode .noDel).mem hd) :
    @ListsQuiet dynamicConfig { formattedWith pagedInode .noDel with header := hd } := by
  have hhd : hd = magicHeader := by
    have he := @HeaderOn.endianness dynamicConfig _ _ hon
    have hparsed := @HeaderOn.parsed dynamicConfig _ _ hon
    rw [show parseEndianness (readHeaderPage (formattedWith pagedInode .noDel).mem minPageSize) = some .le by
      decide +kernel] at he
    rw [← hparsed, ← Option.some.inj he]
    decide +kernel
  rw [hhd]
  intro i hi _
  have hall : ∀ i < 4, (decodeInode magicHeader (@readPage dynamicConfig
      { formattedWith pagedInode .noDel with header := magicHeader } i true).page false).toOption.all (!·.modified) = true := by
    decide +kernel
  exact decoded_unmodified (hall i hi)

theorem readOnly_keepsMemory_paged :
    (∀ l t, @ReadRun dynamicConfig pagedFs l t → t.mem = pagedFs.mem) ∧
      ∀ ops, wp (each (@ListOp.run dynamicConfig) ops) (fun _ t => t.mem = (formattedWith pagedInode .noDel).mem)
        (fun _ t => t.mem = (formattedWith pagedInode .noDel).mem) (formattedWith pagedInode .noDel) := by
  constructor
  · exact (@readOnly_keepsMemory dynamicConfig pagedFs).1 pagedFs_quiet
  · have hheader : (formattedWith pagedInode .noDel).header = magicHeader := by
      decide +kernel
    have hon : @HeaderOn dynamicConfig (formattedWith pagedInode .noDel).mem magicHeader := by
      apply @HeaderOn.mk dynamicConfig <;> decide +kernel
    have hlists := formattedWith_lists hon
    have hvariant : (formattedWith pagedInode .noDel).variant = .noDel := by
      decide +kernel
    have hq := fun hd => @formattedWith_lists hd
    generalize formattedWith pagedInode .noDel = s at hheader hlists hvariant hq ⊢
    rw [← hheader] at hlists
    exact (@readOnly_keepsMemory dynamicConfig s).2 hvariant hlists hq

-- two pages are listed for ten bytes
def surplusInode : Inode := { pagedInode with fileLen := 10 }

-- the data does not fit beside the record, and no page is listed
def overlongInode : Inode := { pagedInode with fileLen := 100, pages := 0, dataPages := [] }

def openAndClose (s : Fs) : Bool :=
  match @initDynamic dynamicConfig s with
  | .ok true s =>
    match @ReadOp.run dynamicConfig [] (.openIn [97]) s with
    | .ok l t =>
      match @ReadOp.run dynamicConfig l (.close 0) t with
      | .ok _ u => decide (u.mem.trace ≠ s.mem.trace)
      | .error _ _ => false
    | .error _ _ => false
  | _ => false

def initOnce (s : Fs) : Bool :=
  match each (@ListOp.run dynamicConfig) [.init] s with
  | .ok _ t => decide (t.mem.trace ≠ s.mem.trace)
  | .error _ _ => false

theorem readOnly_writes :
    (∃ s, @initDynamic dynamicConfig (formattedWith surplusInode .dynamic) = .ok true s ∧
      ∃ l t, @ReadRun dynamicConfig s l t ∧ t.mem.trace ≠ s.mem.trace) ∧
    ∃ ops t, each (@ListOp.run dynamicConfig) ops (formattedWith overlongInode .noDel) = .ok () t ∧
      t.mem.trace ≠ (formattedWith overlongInode .noDel).mem.trace := by
  constructor
  · have hrun : openAndClose (formattedWith surplusInode .dynamic) = true := by
      decide +kernel
    rw [openAndClose] at hrun
    split at hrun
    · next s hs =>
      refine ⟨s, hs, ?_⟩
      split at hrun
      · next l t hopen =>
        split at hrun
        · next l' u hclose =>
          have hopened : @ReadRun dynamicConfig s l t :=
            @ReadRun.step dynamicConfig s _ _ _ _ (.openIn [97]) (@ReadRun.start dynamicConfig s) trivial hopen
          exact ⟨l', u, @ReadRun.step dynamicConfig s _ _ _ _ (.close 0) hopened trivial hclose,
            of_decide_eq_true hrun⟩
        · cases hrun
      · cases hrun
    · cases hrun
  · have hrun : initOnce (formattedWith overlongInode .noDel) = true := by
      decide +kernel
    rw [initOnce] at hrun
    split at hrun
    · next t ht =>
      exact ⟨[.init], t, ht, of_decide_eq_true hrun⟩
    · cases hrun

end SimpleFlashFs
