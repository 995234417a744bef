import SimpleFlashFs.Lookup

namespace SimpleFlashFs.TwoFace

-- ".FS_COPY_COMPLETED" and ".FS_SEALED"
def copyCompletedFileName : List UInt8 := [46, 70, 83, 95, 67, 79, 80, 89, 95, 67, 79, 77, 80, 76, 69, 84, 69, 68]

def filesystemSealedFileName : List UInt8 := [46, 70, 83, 95, 83, 69, 65, 76, 69, 68]

def reservedNames : List (List UInt8) := [copyCompletedFileName, filesystemSealedFileName]

-- the newest version of a file
structure File where
  name : List UInt8
  content : List UInt8 := []
  special : Bool := false
  number : ℕ := 0
deriving DecidableEq, Repr

-- the flash of a bank: whether it can be mapped, is its header valid, the files a lookup finds in it, the largest
-- inode number of its records, and whether a cut write has left an inode page that get_inode cannot read
structure Bank where
  mapped : Bool := false
  header : Bool
  files : List File
  maxInodeNumber : ℕ := 0
  unreadable : Bool := false
deriving DecidableEq, Repr

inductive Side
  | one
  | two
deriving DecidableEq, Repr

def Side.other : Side → Side
  | one => two
  | two => one

-- fs: the max_inode_number of the SimpleFsNoDel, if there is one
structure Component where
  mem : Bank
  fs : Option ℕ := none
deriving DecidableEq, Repr

structure State where
  c1 : Component
  c2 : Component
  fs : Option Side := none
deriving DecidableEq, Repr

-- what the flash writes of one init do: the headers made by init_fs and by cleanup, whether an inode page is
-- found for a new handle, how many bytes of chunk j of file k are written, and which flushes succeed
structure Outcomes where
  initHeader : Side → Bool := fun _ => true
  sealPage : Bool := true
  sealed : Bool := true
  header : Bool := true
  page : ℕ → Bool := fun _ => true
  written : ℕ → ℕ → ℕ
  flushed : ℕ → Bool := fun _ => true
  completedPage : Bool := true
  completed : Bool := true

namespace Bank

def find (b : Bank) (name : List UInt8) : Option File := b.files.find? (·.name = name)

def has (b : Bank) (name : List UInt8) : Bool := b.files.any (·.name = name)

-- the record of f gets its inode page
def commit (b : Bank) (f : File) : Bank :=
  { b with
    files := if b.has f.name then b.files.map fun g => if g.name = f.name then f else g else b.files ++ [f]
    maxInodeNumber := max b.maxInodeNumber f.number }

-- mem->erase( 0, mem->size() )
def erase (b : Bank) : Bank := { mapped := b.mapped, header := false, files := [] }

-- SpecialFilesFileFilter
def userFiles (b : Bank) : List File := b.files.filter (!·.special)

-- a name belongs to one file
def Named (b : Bank) : Prop := (b.files.map (·.name)).Nodup

end Bank

structure Handle where
  file : File
  modified : Bool

namespace Component

def valid (c : Component) : Bool := c.fs.isSome

def reset (c : Component) : Component := { c with fs := none }

-- init_fs( Component ), none: on flash that is mapped read_inode decodes a page in spite of its CRC error
def init (c : Component) : Option Component :=
  if c.mem.header = false then some c.reset
  else if c.mem.mapped = true ∧ c.mem.unreadable = true then none
  else some { c with fs := some c.mem.maxInodeNumber }

def create (c : Component) (headerWritten : Bool) : Bool × Component :=
  (headerWritten, { mem := { c.mem.erase with header := headerWritten }, fs := if headerWritten then some 0 else none })

-- open( name, out | trunc )
def openTrunc (c : Component) (name : List UInt8) (page : Bool) : Option Handle :=
  if page then
    match c.mem.find name with
    | some f => some ⟨{ f with content := [] }, false⟩
    | none => some ⟨{ name := name }, true⟩
  else none

-- the destructor of a handle
def close (c : Component) (h : Handle) (flushed : Bool) : Component :=
  if h.modified then
    let number := if h.file.number = 0 then c.fs.getD 0 + 1 else h.file.number
    { mem := if flushed then c.mem.commit { h.file with number := number } else c.mem
      fs := if h.file.number = 0 then some number else c.fs }
  else c

end Component

def Handle.markSpecial (h : Handle) : Handle := { file := { h.file with special := true }, modified := true }

-- copy: cap is the capacity of the buffer, left the number of rounds that are enough
def copyLoop (cap : ℕ) (written : ℕ → ℕ) : ℕ → ℕ → List UInt8 → Handle → Bool × Handle
  | 0, _, _, target => (true, target)
  | left + 1, j, source, target =>
    if source = [] then (true, target)
    else
      let chunk := source.take cap
      let n := min (written j) chunk.length
      let target := { file := { target.file with content := target.file.content ++ chunk.take n }, modified := true }
      if n = chunk.length then copyLoop cap written left (j + 1) (source.drop cap) target else (false, target)

def copy (cap : ℕ) (written : ℕ → ℕ) (source : File) (target : Handle) : Bool × Handle :=
  copyLoop cap written source.content.length 0 source.content target

-- the callback of list_files for file k; none: a write through a handle without a filesystem
def copyFile (o : Outcomes) (cap k : ℕ) (source : File) (c : Component) : Option (Bool × Component) :=
  match c.openTrunc source.name (o.page k) with
  | some target =>
    let r := copy cap (o.written k) source target
    some (r.1, c.close r.2 (o.flushed k))
  | none => if source.content = [] then some (true, c) else none

def copyFiles (o : Outcomes) (cap : ℕ) : ℕ → List File → Component → Option (Bool × Component)
  | _, [], c => some (true, c)
  | k, source :: rest, c =>
    match copyFile o cap k source c with
    | none => none
    | some (false, c) => some (false, c)
    | some (true, c) => copyFiles o cap (k + 1) rest c

namespace State

def get (s : State) : Side → Component
  | .one => s.c1
  | .two => s.c2

def set (s : State) (side : Side) (c : Component) : State :=
  match side with
  | .one => { s with c1 := c }
  | .two => { s with c2 := c }

def resetSide (s : State) (side : Side) : State := s.set side (s.get side).reset

def active (s : State) : Side := if s.c1.valid then .one else .two

def inactive (s : State) : Side := if ¬ s.c1.valid then .one else .two

-- the end of init_fs, with both filesystems at hand
def select (s : State) : State :=
  let copied1 := s.c1.mem.has copyCompletedFileName
  let copied2 := s.c2.mem.has copyCompletedFileName
  let sealed1 := s.c1.mem.has filesystemSealedFileName
  let sealed2 := s.c2.mem.has filesystemSealedFileName
  if copied1 ∧ sealed2 then s.resetSide .two
  else if copied2 ∧ sealed1 then s.resetSide .one
  else if ¬ copied1 ∧ sealed2 then s.resetSide .one
  else if ¬ copied2 ∧ sealed1 then s.resetSide .two
  else if s.c1.fs.getD 0 > s.c2.fs.getD 0 then s.resetSide .two
  else s.resetSide .one

-- init_fs after both banks were mounted
def choose (o : Outcomes) (s : State) : Bool × State :=
  if s.c1.valid = false ∧ s.c2.valid = false then
    let r1 := s.c1.create (o.initHeader .one)
    if r1.1 = false then (false, { s with c1 := r1.2 })
    else
      let r2 := s.c2.create (o.initHeader .two)
      if r2.1 = false then (false, { s with c1 := r1.2, c2 := r2.2 })
      else (true, select { s with c1 := r1.2, c2 := r2.2 })
  else if s.c1.valid = false ∨ s.c2.valid = false then (true, s)
  else (true, s.select)

-- none: a mount does not return
def initFs (o : Outcomes) (s : State) : Option (Bool × State) :=
  match s.c1.init, s.c2.init with
  | some c1, some c2 => some (choose o { s with c1 := c1, c2 := c2 })
  | _, _ => none

def sealFs (o : Outcomes) (c : Component) : Option Component :=
  (c.openTrunc filesystemSealedFileName o.sealPage).map fun h => c.close h.markSpecial o.sealed

-- the copies are complete, active becomes inactive
def markCompleted (o : Outcomes) (s : State) (active inactive : Side) (target : Component) : Bool × State :=
  match target.openTrunc copyCompletedFileName o.completedPage with
  | none => (false, s.set inactive target)
  | some h =>
    (true, { (s.set inactive (target.close h.markSpecial o.completed)).resetSide active with fs := some inactive })

def cleanup (o : Outcomes) (cap : ℕ) (s : State) : Option (Bool × State) :=
  let inactive := s.inactive
  let active := s.active
  match sealFs o (s.get active) with
  | none => some (false, s)
  | some c =>
    let s := s.set active c
    let created := (s.get inactive).create o.header
    if created.1 = false then some (false, s.set inactive created.2)
    else
      let target := { created.2 with fs := some (c.fs.getD 0 + 1) }
      match copyFiles o cap 0 c.mem.userFiles target with
      | none => none
      | some (false, target) => some (false, s.set inactive target)
      | some (true, target) => some (s.markCompleted o active inactive target)

-- should_cleanup compares usage statistics
def init (o : Outcomes) (cap : ℕ) (shouldCleanup : Bool) (s : State) : Option (Bool × State) :=
  match s.initFs o with
  | none => none
  | some (false, s) => some (false, s)
  | some (true, s) =>
    let s := { s with fs := some s.active }
    if shouldCleanup then (s.cleanup o cap).map fun r => (true, { r.2 with fs := some r.2.active })
    else some (true, s)

end State

def Bank.entries (b : Bank) : List (List UInt8 × List UInt8) := b.userFiles.map fun f => (f.name, f.content)

def SameFiles (a b : Bank) : Prop := ∀ entry, entry ∈ a.entries ↔ entry ∈ b.entries

-- a user has a file of that name
def Bank.hasUser (b : Bank) (name : List UInt8) : Bool := b.userFiles.any (·.name = name)

-- the files of which the target got an inode page and a flush
def kept (o : Outcomes) : ℕ → List File → List File
  | _, [] => []
  | k, f :: rest => if o.page k = true ∧ o.flushed k = true then f :: kept o (k + 1) rest else kept o (k + 1) rest

section Copy

variable {o : Outcomes} {cap k left j : ℕ} {written : ℕ → ℕ} {source : List UInt8} {h g : Handle} {c t : Component}
  {f : File} {files : List File}

theorem copyLoop_file : (copyLoop cap written left j source h).2.file =
    { h.file with content := (copyLoop cap written left j source h).2.file.content } := by
  induction left generalizing j source h with
  | zero => rfl
  | succ left ih =>
    rw [copyLoop]
    dsimp only
    split
    · rfl
    · split
      · rw [ih]
      · rfl

theorem copyLoop_content (hcap : 0 < cap) (hleft : source.length ≤ left)
    (hok : (copyLoop cap written left j source h).1 = true) :
    (copyLoop cap written left j source h).2.file.content = h.file.content ++ source := by
  induction left generalizing j source h with
  | zero =>
    obtain rfl := List.length_eq_zero_iff.mp (Nat.le_zero.mp hleft)
    simp [copyLoop]
  | succ left ih =>
    rw [copyLoop] at hok ⊢
    dsimp only at hok ⊢
    split at hok
    · next hs => simp [hs]
    · next hs =>
      have hpos := List.length_pos_iff.mpr hs
      split at hok
      · next hn =>
        rw [if_neg hs, if_pos hn, ih (by rw [List.length_drop]; omega) hok]
        simp only [hn, List.take_length, List.append_assoc, List.take_append_drop]
      · cases hok

theorem copyLoop_modified (hm : h.modified = true) : (copyLoop cap written left j source h).2.modified = true := by
  induction left generalizing j source h with
  | zero => exact hm
  | succ left ih =>
    rw [copyLoop]
    dsimp only
    split
    · exact hm
    · split
      · exact ih rfl
      · rfl

theorem Bank.find_eq_none {b : Bank} {name : List UInt8} (hn : name ∉ b.files.map (·.name)) : b.find name = none := by
  refine List.find?_eq_none.mpr fun f hf => ?_
  rw [decide_eq_true_eq]
  rintro rfl
  exact hn (List.mem_map_of_mem hf)

theorem Bank.commit_new {b : Bank} (hn : f.name ∉ b.files.map (·.name)) :
    (b.commit f).files = b.files ++ [f] := by
  have hh : b.has f.name = false := by
    refine List.any_eq_false.mpr fun g hg => ?_
    rw [decide_eq_true_eq]
    intro he
    exact hn (he ▸ List.mem_map_of_mem hg)
  rw [commit, if_neg (by rw [hh]; decide)]

theorem openTrunc_new {name : List UInt8} (hn : name ∉ c.mem.files.map (·.name)) (page : Bool) :
    c.openTrunc name page = if page then some ⟨{ name := name }, true⟩ else none := by
  rw [Component.openTrunc, Bank.find_eq_none hn]

theorem valid_close (hc : c.valid = true) (flushed : Bool) : (c.close h flushed).valid = true := by
  unfold Component.close
  split
  · dsimp only [Component.valid]
    split
    · rfl
    · exact hc
  · exact hc

def File.shown (f : File) : List UInt8 × List UInt8 × Bool := (f.name, f.content, f.special)

end Copy

namespace State

-- the seal makes a special file of what the users call .FS_SEALED
def SealLoses (o : Outcomes) (b : Bank) : Prop := o.sealed = true ∧ b.hasUser filesystemSealedFileName = true

-- what list_files gives of the sealed bank
def sealedFiles (o : Outcomes) (b : Bank) : List File :=
  if o.sealed then b.userFiles.filter (·.name ≠ filesystemSealedFileName) else b.userFiles

end State

section Cleanup

variable {o : Outcomes} {cap : ℕ} {s t : State} {a : Side} {c : Component} {b : Bank} {f : File}

@[simp] theorem other_other : a.other.other = a := by
  cases a <;> rfl

@[simp] theorem get_set_self : (s.set a c).get a = c := by
  cases a <;> rfl

@[simp] theorem get_set_other : (s.set a c).get a.other = s.get a.other := by
  cases a <;> rfl

@[simp] theorem get_set_of_other : (s.set a.other c).get a = s.get a := by
  cases a <;> rfl

structure OnlyValid (s : State) (a : Side) : Prop where
  valid : (s.get a).valid = true
  invalid : (s.get a.other).valid = false

theorem OnlyValid.active (h : OnlyValid s a) : s.active = a := by
  obtain ⟨h1, h2⟩ := h
  cases a with
  | one =>
    have hc : s.c1.valid = true := h1
    rw [State.active, if_pos hc]
  | two =>
    have hc : s.c1.valid = false := h2
    rw [State.active, if_neg (by rw [hc]; decide)]

theorem OnlyValid.inactive (h : OnlyValid s a) : s.inactive = a.other := by
  obtain ⟨h1, h2⟩ := h
  cases a with
  | one =>
    have hc : s.c1.valid = true := h1
    rw [State.inactive, if_neg (not_not.mpr hc)]
    rfl
  | two =>
    have hc : s.c1.valid = false := h2
    rw [State.inactive, if_pos (by rw [hc]; decide)]
    rfl

theorem userFiles_commit (hs : f.special = true) : (b.commit f).userFiles = b.userFiles.filter (·.name ≠ f.name) := by
  unfold Bank.commit Bank.userFiles
  dsimp only
  split
  · induction b.files with
    | nil => rfl
    | cons g l ih =>
      by_cases hg : g.name = f.name
      · cases hgs : g.special with
        | true => simpa [hg, hs, hgs] using ih
        | false => simpa [hg, hs, hgs] using ih
      · cases hgs : g.special with
        | true => simpa [hg, hgs] using ih
        | false => simpa [hg, hgs] using ih
  · next hno =>
    have hother : ∀ g ∈ b.files.filter (!·.special), g.name ≠ f.name := by
      intro g hg he
      apply hno
      rw [Bank.has, List.any_eq_true]
      exact ⟨g, List.mem_of_mem_filter hg, decide_eq_true he⟩
    rw [List.filter_append, List.filter_cons_of_neg (by simp [hs]), List.filter_nil, List.append_nil,
      List.filter_eq_self.mpr fun g hg => decide_eq_true (hother g hg)]

theorem openTrunc_name {h : Handle} {name : List UInt8} {page : Bool} (ho : c.openTrunc name page = some h) :
    h.file.name = name := by
  unfold Component.openTrunc at ho
  split at ho
  · split at ho
    · next f hf =>
      cases ho
      have hname := List.find?_some hf
      rwa [decide_eq_true_eq] at hname
    · cases ho
      rfl
  · cases ho

theorem openTrunc_eq_none {name : List UInt8} {page : Bool} : c.openTrunc name page = none ↔ page = false := by
  unfold Component.openTrunc
  cases page with
  | false => simp
  | true =>
    simp only [if_true]
    split <;> simp

-- closing a special file takes its name from the users
theorem close_special {h : Handle} (flushed : Bool) : (c.close h.markSpecial flushed).mem.userFiles =
    if flushed then c.mem.userFiles.filter (·.name ≠ h.file.name) else c.mem.userFiles := by
  have hm : h.markSpecial.modified = true := rfl
  rw [Component.close, if_pos hm]
  cases flushed with
  | false => rfl
  | true => exact userFiles_commit rfl

theorem sealFs_spec (hc : c.valid = true) : (State.sealFs o c = none ↔ o.sealPage = false) ∧
    ∀ d, State.sealFs o c = some d → d.valid = true ∧ d.mem.userFiles = State.sealedFiles o c.mem := by
  unfold State.sealFs
  refine ⟨by rw [Option.map_eq_none_iff]; exact openTrunc_eq_none, fun d hd => ?_⟩
  obtain ⟨h, hh, rfl⟩ := Option.map_eq_some_iff.mp hd
  refine ⟨valid_close hc _, ?_⟩
  rw [close_special, openTrunc_name hh]
  rfl

theorem mem_sealedFiles : f ∈ State.sealedFiles o b ↔
    f ∈ b.userFiles ∧ (o.sealed = true → f.name ≠ filesystemSealedFileName) := by
  unfold State.sealedFiles
  cases o.sealed with
  | false => simp
  | true => simp [List.mem_filter]

theorem sealedFiles_all_iff : (∀ f ∈ b.userFiles, f ∈ State.sealedFiles o b) ↔ ¬ State.SealLoses o b := by
  unfold State.SealLoses Bank.hasUser
  rw [List.any_eq_true]
  constructor
  · rintro h ⟨hs, f, hf, hname⟩
    exact (mem_sealedFiles.mp (h f hf)).2 hs (of_decide_eq_true hname)
  · intro h f hf
    exact mem_sealedFiles.mpr ⟨hf, fun hs he => h ⟨hs, f, hf, decide_eq_true he⟩⟩

theorem sealedFiles_eq (h : ¬ State.SealLoses o b) : State.sealedFiles o b = b.userFiles := by
  unfold State.sealedFiles
  split
  · next hs =>
    apply List.filter_eq_self.mpr
    exact fun f hf => decide_eq_true ((mem_sealedFiles.mp (sealedFiles_all_iff.mpr h f hf)).2 hs)
  · rfl

theorem entries_eq : b.entries = ((b.files.map File.shown).filter fun x => !x.2.2).map fun x => (x.1, x.2.1) := by
  unfold Bank.entries Bank.userFiles
  induction b.files with
  | nil => rfl
  | cons f l ih =>
    cases hs : f.special with
    | true => simpa [File.shown, hs] using ih
    | false => simpa [File.shown, hs] using ih

theorem userFiles_nodup (hn : b.Named) : (b.userFiles.map (·.name)).Nodup :=
  hn.sublist (List.filter_sublist.map _)

-- a result of cleanup: the files of bank a are as they were, and bank a is active after a failure
def Keeps (s : State) (a : Side) (r : Bool × State) : Prop :=
  SameFiles (r.2.get r.2.active).mem (s.get a).mem ∧ (r.1 = false → r.2.active = a)

theorem mem_resetSide (side : Side) : ((s.resetSide a).get side).mem = (s.get side).mem := by
  cases a <;> cases side <;> rfl

end Cleanup

end SimpleFlashFs.TwoFace
