import SimpleFlashFs.InodePages
import SimpleFlashFs.InodeTable
import SimpleFlashFs.Scan

namespace SimpleFlashFs

open Lib

section Race

variable [Config]

def recAt (s : Fs) (p : ℕ) : VersionRec where
  number := numberAt s p
  version := versionAt s p
  name := (rawAt s p).inode.fileName
  exact := !(rawAt s p).modified

def tableAt (s : Fs) : InodeTable := fun p => if Valid s p then some (recAt s p) else none

-- what the first pass makes of a page it has read
def readRecord (hd : Header) (i : ℕ) (ret : ReadPageReturn) : Option FileHandle :=
  if ret.error = none then
    match decodeInode hd ret.page false with
    | .ok file => some { file with page := i }
    | .error _ => none
  else none

def roleAfter (hd : Header) (n : ℕ) {β : Type} : Section β → β → Role → Role
  | .clearIv, _, .lookup .idle => .lookup (.first 0 [] none)
  | .read _ i, ret, .lookup (.first _ seen _) =>
    match readRecord hd i ret with
    | some file => .lookup (.first (i + 1) (addInodeVersion file seen).1 (some file))
    | none => .lookup (.first (i + 1) seen none)
  | .read _ i, ret, .lookup (.second (_ :: rest)) =>
    match readRecord hd i ret with
    | some file =>
      if file.inode.inodeNumber = n then .lookup (.found file.inode.inodeVersionNumber)
      else .lookup (.second rest)
    | none => .lookup (.second rest)
  | .addIv _, _, .lookup (.first i seen _) => .lookup (.first i seen none)
  | .ivStorage, ivs, .lookup _ => .lookup (.second ivs)
  | .writeInode _ data, true, .writer version =>
    match decodeInode hd data false with
    | .ok file => .writer file.inode.inodeVersionNumber
    | .error _ => .writer version
  | _, _, role => role

def lookups (hd : Header) (n : ℕ) : Machine Section Shared Role := ⟨runSection, roleAfter hd n⟩

-- the flushes of an open file, with what happens to its record between them
def editsT : List HandleOp → FileHandle → FsT FileHandle
  | [], file => pure file
  | op :: rest, file => do
    let file ← handleOpT file op
    editsT rest file

def NotNeededNow (n : ℕ) (s : Fs) (l : List Role) (p : ℕ) : Prop :=
  ∀ v, IsVersion n (tableAt s) p v → ∀ q, Role.lookup q ∈ l → NotNeeded n (tableAt s) p v q

-- a page with a version of the file is erased or overwritten only when the lookup can do without it; besides,
-- versions do not wrap around, the file's record fits what it says, data is written to data pages, and an
-- erased or badly written inode page fails its checksum
def KeepsFindable (n : ℕ) : Pool.Condition Section Shared Role := fun _ _ a s l b t =>
  match a, b with
  | .erase p, _ => InRange s.fs p ∧ ¬ Valid t.fs p ∧ NotNeededNow n s.fs l p
  | .writeInode p data, done => (done = false → ¬ Valid t.fs p) ∧ NotNeededNow n s.fs l p ∧
    ∀ file, decodeInode s.fs.header data false = .ok file →
      file.inode.inodeVersionNumber ≠ 0 ∧ (file.inode.inodeNumber = n → file.modified = false)
  | .write _ p data, _ => DataRegion s.fs p ∧ data.length = s.fs.header.pageSize
  | .unreserve p, _ => p < noData
  | _, _ => True

structure ImageOf (hd : Header) (inode : Inode) (data : List UInt8) : Prop where
  encoded : ∃ img, Encodes hd inode img ∧ data = inodeImage hd img
  nameLen : inode.fileNameLen < 2 ^ 16

def Foreign (n : ℕ) (name : List UInt8) (inode : Inode) : Prop :=
  inode.inodeNumber % 2 ^ 64 ≠ n ∧ inode.inodeNumber % 2 ^ 64 ≠ 0 ∧ inode.flashName ≠ name

def WritesFor (n : ℕ) (name : List UInt8) : Role → Inode → Prop
  | .writer v, inode => inode.inodeNumber % 2 ^ 64 = n ∧ inode.flashName = name ∧
    (inode.inodeVersionNumber % 2 ^ 64 = 0 ∨ v < inode.inodeVersionNumber % 2 ^ 64)
  | _, inode => Foreign n name inode

-- a valid page belongs to the file or to another one
def ReadsAs (hd : Header) (n : ℕ) (name : List UInt8) (page : List UInt8) : Prop :=
  ∃ inode, ImageOf hd inode page ∧ (Foreign n name inode ∨
    inode.inodeNumber % 2 ^ 64 = n ∧ inode.flashName = name ∧ (inode.decoded hd false).modified = false)

def raceRules (hd : Header) (n : ℕ) (name : List UInt8) : Discipline Section Role where
  pre a role :=
    match a with
    | .writeInode p data => p < hd.maxInodes ∧ ∃ inode, ImageOf hd inode data ∧ WritesFor n name role inode
    | .write h _ _ => h = hd
    | .clearIv => role = .lookup .idle
    | .addIv file => ∃ i seen, role = .lookup (.first i seen (some file))
    | .ivStorage => ∃ seen, role = .lookup (.first hd.maxInodes seen none)
    | .read _ i => i < hd.maxInodes ∧ ((∃ seen, role = .lookup (.first i seen none)) ∨
      ∃ iv rest, role = .lookup (.second (iv :: rest)) ∧ iv.page = i)
    | _ => True
  post a _ b :=
    match a, b with
    | .header, h => h = hd
    | .claim, r => ∀ p, r = some p → p < hd.maxInodes
    | .read _ _, ret => ret.error = none → ReadsAs hd n name ret.page
    | .ivStorage, ivs => ∀ iv ∈ ivs, iv.page < hd.maxInodes
    | .writeInode _ data, _ => ∀ file, decodeInode hd data false = .ok file → file.inode.inodeVersionNumber ≠ 0
    | _, _ => True

theorem raceRules_plain (hd : Header) (n : ℕ) (name : List UInt8) : Plain hd (lookups hd n) (raceRules hd n name) where
  header _ := ⟨trivial, fun _ hh => ⟨hh, rfl⟩⟩
  takeData _ := ⟨trivial, fun _ => rfl⟩
  write _ _ _ := ⟨rfl, fun _ => rfl⟩
  fault _ _ := trivial

-- a handle whose flushes are those of its role
structure Flushes (n : ℕ) (name : List UInt8) (role : Role) (file : FileHandle) : Prop where
  connected : file.connected = true
  nameLen : file.inode.fileNameLen < 2 ^ 16
  number : 0 < file.inode.inodeNumber ∧ file.inode.inodeNumber < 2 ^ 64
  version : file.inode.inodeVersionNumber < 2 ^ 64
  role : match role with
    | .writer v => file.inode.inodeNumber = n ∧ file.inode.flashName = name ∧ v ≤ file.inode.inodeVersionNumber
    | _ => file.inode.inodeNumber ≠ n ∧ file.inode.flashName ≠ name

section Programs

variable {hd : Header} {n : ℕ} {name : List UInt8} {role : Role} {file : FileHandle}

theorem ImageOf.decode {inode : Inode} {data : List UInt8} (h : ImageOf hd inode data) (corr : Bool) :
    decodeInode hd data corr = .ok (inode.decoded hd corr) := by
  obtain ⟨⟨img, h1, rfl⟩, h2⟩ := h
  exact h1.decodeInode_eq h2 corr

theorem keeps_erasing (old next : FileHandle) : (eraseInodeAndUnusedPagesT old next).Keeps (lookups hd n)
    (raceRules hd n name) (fun _ role' => role' = role) role := by
  refine ⟨trivial, fun v _ => ?_⟩
  have hpage : ∀ p r, (eraseDataPageT p).Keeps (lookups hd n) (raceRules hd n name) (fun _ role' => role' = r) r := by
    intro p r
    refine ⟨trivial, fun h _ => ⟨trivial, fun _ _ => ?_⟩⟩
    by_cases hp : p > h.maxInodes
    · simp only [if_pos hp]
      exact ⟨trivial, fun _ _ => rfl⟩
    · simp only [if_neg hp]
      exact ⟨trivial, fun _ _ => rfl⟩
  have h : (do
      Prog.each eraseDataPageT (pagesToErase old next)
      pure { old with modified := false } : FsT FileHandle).Keeps (lookups hd n) (raceRules hd n name)
      (fun _ role' => role' = role) role := by
    apply (Prog.Keeps.each (I := fun role' => role' = role) rfl ?_).bind
    · exact fun _ _ h => h
    · rintro p - _ rfl
      exact hpage p _
  cases v with
  | noDel => exact rfl
  | dynamic => exact h
  | fram => exact h

omit [Config] in
theorem Flushes.of_unmoved {file' : FileHandle} {role' : Role} (h : Flushes n name role file)
    (hu : Unmoved file role file' role') : Flushes n name role' file' := by
  obtain ⟨rfl, -, h2, h3, h4, h5, h6⟩ := hu
  refine ⟨h6.trans h.connected, by rw [h5]; exact h.nameLen, by rw [h2]; exact h.number, by rw [h3]; exact h.version, ?_⟩
  have := h.role
  rwa [Inode.flashName, h4, h5, h2, h3]

-- the record that a flush writes
omit [Config] in
theorem Flushes.writesFor (h : Flushes n name role file) (p : ℕ) : WritesFor n name role (file.nextVersion p).inode := by
  have hnum := Nat.mod_eq_of_lt h.number.2
  have hpos := h.number.1
  have hv := h.version
  have hr := h.role
  have hver : (file.nextVersion p).inode.inodeVersionNumber = (file.inode.inodeVersionNumber + 1) % 2 ^ 64 := rfl
  cases role with
  | writer v =>
    obtain ⟨h1, h2, h3⟩ := hr
    refine ⟨hnum.trans h1, h2, ?_⟩
    rw [hver]
    omega
  | lookup q => exact ⟨fun e => hr.1 (hnum.symm.trans e), fun e => hpos.ne' (hnum.symm.trans e), hr.2⟩
  | other => exact ⟨fun e => hr.1 (hnum.symm.trans e), fun e => hpos.ne' (hnum.symm.trans e), hr.2⟩

theorem Flushes.next (h : Flushes n name role file) {p : ℕ} {data : List UInt8} {done : Bool}
    (hd' : ImageOf hd (file.nextVersion p).inode data)
    (hv : ∀ f, decodeInode hd data false = .ok f → f.inode.inodeVersionNumber ≠ 0) :
    Flushes n name (roleAfter hd n (.writeInode p data) done role) (file.nextVersion p) := by
  have hdec := hd'.decode false
  obtain ⟨h1, h2, h3⟩ := decoded_record hd false (file.nextVersion p).inode
  have hver : (file.nextVersion p).inode.inodeVersionNumber = (file.inode.inodeVersionNumber + 1) % 2 ^ 64 := rfl
  have hne := hv _ hdec
  have hlt := h.version
  rw [h2, hver] at hne
  have hlt' : (file.nextVersion p).inode.inodeVersionNumber < 2 ^ 64 := by
    rw [hver]
    omega
  refine ⟨h.connected, h.nameLen, h.number, hlt', ?_⟩
  have hr := h.role
  cases role with
  | writer v =>
    obtain ⟨h4, h5, h6⟩ := hr
    cases done with
    | false =>
      refine ⟨h4, h5, ?_⟩
      rw [hver]
      omega
    | true =>
      simp only [roleAfter, hdec, h2]
      exact ⟨h4, h5, Nat.mod_le _ _⟩
  | lookup q => cases done <;> exact hr
  | other => cases done <;> exact hr

theorem keeps_flushing (h : Flushes n name role file) : (flushNextVersionT file).Keeps (lookups hd n)
    (raceRules hd n name) (fun r role' => Flushes n name role' r.2 ∧ ∀ q, role = .lookup q → role' = .lookup q) role := by
  refine ⟨trivial, fun newPage hclaim => ?_⟩
  cases newPage with
  | none => exact ⟨h, fun _ h => h⟩
  | some p =>
    have hp : p < hd.maxInodes := hclaim p rfl
    apply (raceRules_plain hd n name).keeps_header.bind
    rintro hd role ⟨rfl, rfl⟩
    apply ((raceRules_plain hd n name).keeps_liftT
      (Q := fun page role' => ImageOf hd (file.nextVersion p).inode (addPageChecksum hd.endianness page) ∧ role' = role)
      fun page hpage => ⟨⟨⟨page, inode2page_eq_ok hpage, rfl⟩, h.nameLen⟩, rfl⟩).bind
    rintro page _ ⟨himage, rfl⟩
    apply (raceRules_plain hd n name).keeps_writeZeroPagesT.bind
    intro r role' hu
    have hrole := hu.note
    subst hrole
    have hpage : r.2.page = p := hu.page
    refine ⟨⟨hpage ▸ hp, _, himage, h.writesFor p⟩, fun done hv => ?_⟩
    rw [hpage]
    have hnext : Flushes n name (roleAfter hd n (.writeInode p (addPageChecksum hd.endianness page)) done role') r.2 :=
      (h.next himage hv).of_unmoved ⟨rfl, hu.page, hu.number, hu.version, hu.name, hu.nameLen, hu.connected⟩
    have hlookup : ∀ q, role' = .lookup q →
        roleAfter hd n (.writeInode p (addPageChecksum hd.endianness page)) done role' = .lookup q := by
      rintro q rfl
      cases done <;> rfl
    cases done with
    | false => exact ⟨hnext, hlookup⟩
    | true =>
      apply (keeps_erasing _ _).bind
      rintro _ role'' rfl
      exact ⟨⟨hnext.connected, hnext.nameLen, hnext.number, hnext.version, hnext.role⟩, hlookup⟩

theorem keeps_flushRace (h : Flushes n name role file) : (flushT file).Keeps (lookups hd n)
    (raceRules hd n name) (fun r role' => Flushes n name role' r.2 ∧ ∀ q, role = .lookup q → role' = .lookup q) role := by
  unfold flushT
  rw [if_neg (not_not.mpr h.connected)]
  split
  · exact ⟨h, fun _ h => h⟩
  · rw [if_neg h.number.1.ne']
    exact keeps_flushing h

theorem keeps_edits (ops : List HandleOp) (h : Flushes n name role file) : (editsT ops file).Keeps (lookups hd n)
    (raceRules hd n name) (fun _ _ => True) role := by
  induction ops generalizing file role with
  | nil => trivial
  | cons op rest ih =>
    cases op with
    | edit fileLen dataPages inodeData =>
      have h' : Flushes n name role (file.edited fileLen dataPages inodeData) :=
        ⟨h.connected, h.nameLen, h.number, h.version, h.role⟩
      exact ih h'
    | program page data =>
      apply Prog.Keeps.bind (Q := fun f role' => f = file ∧ role' = role)
      · apply (raceRules_plain hd n name).keeps_header.bind
        rintro hd _ ⟨rfl, rfl⟩
        exact ⟨rfl, fun done _ => ⟨rfl, rfl⟩⟩
      · rintro _ _ ⟨rfl, rfl⟩
        exact ih h
    | flush =>
      apply Prog.Keeps.bind (Q := fun f role' => Flushes n name role' f)
      · apply (keeps_flushRace h).bind
        exact fun r role' hr => hr.1
      · exact fun f role' hf => ih hf

theorem keeps_releases (l : List DataPage) : (Prog.each (fun p : DataPage => Prog.one (.unreserve p.pageId)) l).Keeps
    (lookups hd n) (raceRules hd n name) (fun _ role' => role' = role) role := by
  apply Prog.Keeps.each (I := fun role' => role' = role) rfl
  rintro p - _ rfl
  exact ⟨trivial, fun _ _ => rfl⟩

-- a temporary handle of the lookup
theorem keeps_closeTemporary {q : Progress} (h : Flushes n name (.lookup q) file ∨
    file.connected = true ∧ file.modified = false) : (closeT file).Keeps (lookups hd n) (raceRules hd n name)
    (fun _ role' => role' = .lookup q) (.lookup q) := by
  have hc : file.connected = true := h.elim (·.connected) (·.1)
  unfold closeT
  rw [if_pos hc]
  apply Prog.Keeps.bind (Q := fun _ role' => role' = .lookup q)
  · rcases h with h | ⟨-, hm⟩
    · apply (keeps_flushRace h).mono
      exact fun r role' hr => hr.2 q rfl
    · unfold flushT
      rw [if_neg (not_not.mpr hc), if_pos (by simp [hm])]
      exact rfl
  · rintro r _ rfl
    exact ⟨trivial, fun _ _ => keeps_releases _⟩

omit [Config] in
theorem Foreign.flushes {inode : Inode} (h : Foreign n name inode) (hlen : inode.fileNameLen < 2 ^ 16) (corr : Bool)
    (i : ℕ) (q : Progress) : Flushes n name (.lookup q) { inode.decoded hd corr with page := i } := by
  obtain ⟨h1, h2, h3⟩ := decoded_record hd corr inode
  have h4 := decoded_nameLen hd corr inode
  refine ⟨decoded_connected hd corr inode, h4.trans_lt hlen, ?_, ?_, ?_⟩
  · rw [h1]
    exact ⟨Nat.pos_of_ne_zero h.2.1, Nat.mod_lt _ (by decide)⟩
  · rw [h2]
    exact Nat.mod_lt _ (by decide)
  · refine ⟨by rw [h1]; exact h.1, ?_⟩
    rw [Inode.flashName, h3, h4, Inode.flashName, List.take_take, Nat.min_self]
    exact h.2.2

-- the end of a lookup: it has the file, unless the whole second pass went by
def Returns (n : ℕ) (name : List UInt8) (file : FileHandle) (role : Role) : Prop :=
  role = .lookup (.second []) ∨ role = .lookup (.found file.inode.inodeVersionNumber) ∧ file.connected = true ∧
    file.inode.inodeNumber = n ∧ file.inode.fileName = name

theorem keeps_recordPage (mapped : Bool) {i : ℕ} (hi : i < hd.maxInodes) (seen : List InodeVersion) :
    (recordInodePageT mapped i).Keeps (lookups hd n) (raceRules hd n name)
      (fun _ role' => ∃ seen', role' = .lookup (.first (i + 1) seen' none)) (.lookup (.first i seen none)) := by
  refine ⟨⟨hi, Or.inl ⟨seen, rfl⟩⟩, fun ret hret => ?_⟩
  dsimp only [Prog.bind]
  by_cases he : ret.error = none
  · rw [if_pos he]
    obtain ⟨inode, himage, hkind⟩ := hret he
    have hdec := himage.decode false
    have hrole : roleAfter hd n (.read mapped i) ret (.lookup (.first i seen none)) = .lookup (.first (i + 1)
        (addInodeVersion { inode.decoded hd false with page := i } seen).1
        (some { inode.decoded hd false with page := i })) := by
      simp only [roleAfter, readRecord, he, if_true, hdec]
    change Prog.Keeps _ _ _ _ (roleAfter hd n (.read mapped i) ret (.lookup (.first i seen none)))
    rw [hrole]
    refine Prog.Keeps.bind (Q := fun file role' => file = inode.decoded hd false ∧ role' = .lookup (.first (i + 1)
        (addInodeVersion { inode.decoded hd false with page := i } seen).1
        (some { inode.decoded hd false with page := i }))) ?_ ?_
    · apply (raceRules_plain hd n name).keeps_header.bind
      rintro hd role ⟨rfl, rfl⟩
      apply (raceRules_plain hd n name).keeps_liftT
      intro file hfile
      rw [hdec] at hfile
      cases hfile
      exact ⟨rfl, rfl⟩
    · rintro _ _ ⟨rfl, rfl⟩
      refine ⟨⟨_, _, rfl⟩, fun _ _ => ?_⟩
      apply (keeps_closeTemporary (q := .first (i + 1) _ none) ?_).mono
      · exact fun _ role' h => ⟨_, h⟩
      · rcases hkind with hforeign | ⟨-, -, hm⟩
        · exact Or.inl (hforeign.flushes himage.nameLen false i _)
        · exact Or.inr ⟨decoded_connected hd false inode, hm⟩
  · rw [if_neg he]
    refine ⟨seen, ?_⟩
    change roleAfter hd n (.read mapped i) ret (.lookup (.first i seen none)) = _
    simp only [roleAfter, readRecord, he, if_false]

theorem keeps_firstPass (mapped : Bool) (k i : ℕ) (hi : i + k ≤ hd.maxInodes) (seen : List InodeVersion) :
    (Prog.each (recordInodePageT mapped) (List.range' i k)).Keeps (lookups hd n) (raceRules hd n name)
      (fun _ role' => ∃ seen', role' = .lookup (.first (i + k) seen' none)) (.lookup (.first i seen none)) := by
  induction k generalizing i seen with
  | zero => exact ⟨seen, rfl⟩
  | succ k ih =>
    apply (keeps_recordPage mapped (by omega) seen).bind
    rintro _ _ ⟨seen', rfl⟩
    have h := ih (i + 1) (by omega) seen'
    rwa [Nat.add_right_comm, Nat.add_assoc] at h

theorem keeps_secondPass (mapped : Bool) (hname : name ≠ []) {ivs : List InodeVersion}
    (hivs : ∀ iv ∈ ivs, iv.page < hd.maxInodes) : (findVersionT mapped name ivs).Keeps (lookups hd n)
      (raceRules hd n name) (Returns n name) (.lookup (.second ivs)) := by
  induction ivs with
  | nil => exact Or.inl rfl
  | cons iv rest ih =>
    have hrest := ih fun iv hiv => hivs iv (List.mem_cons_of_mem _ hiv)
    refine ⟨⟨hivs iv List.mem_cons_self, Or.inr ⟨iv, rest, rfl, rfl⟩⟩, fun ret hret => ?_⟩
    dsimp only [Prog.bind]
    by_cases he : ret.error = none
    · rw [if_pos he]
      obtain ⟨inode, himage, hkind⟩ := hret he
      have hdec := himage.decode false
      obtain ⟨h1, h2, -⟩ := decoded_record hd false inode
      obtain ⟨h3, h4, h5⟩ := decoded_record hd true inode
      have hrole : roleAfter hd n (.read mapped iv.page) ret (.lookup (.second (iv :: rest))) =
          if inode.inodeNumber % 2 ^ 64 = n then .lookup (.found (inode.inodeVersionNumber % 2 ^ 64))
          else .lookup (.second rest) := by
        simp only [roleAfter, readRecord, he, if_true, hdec, h1, h2]
      change Prog.Keeps _ _ _ _ (roleAfter hd n (.read mapped iv.page) ret (.lookup (.second (iv :: rest))))
      rw [hrole]
      refine Prog.Keeps.bind (Q := fun file role' => file = inode.decoded hd true ∧ role' =
        if inode.inodeNumber % 2 ^ 64 = n then .lookup (.found (inode.inodeVersionNumber % 2 ^ 64))
        else .lookup (.second rest)) ?_ ?_
      · apply (raceRules_plain hd n name).keeps_header.bind
        rintro hd role ⟨rfl, rfl⟩
        apply (raceRules_plain hd n name).keeps_liftT
        intro file hfile
        rw [himage.decode true] at hfile
        cases hfile
        exact ⟨rfl, rfl⟩
      · rintro _ _ ⟨rfl, rfl⟩
        rw [h5]
        rcases hkind with hforeign | ⟨hn, hname', -⟩
        · rw [if_neg hforeign.1]
          have hclose : ((do
              closeT { inode.decoded hd true with page := iv.page }
              findVersionT mapped name rest : FsT FileHandle)).Keeps (lookups hd n) (raceRules hd n name)
              (Returns n name) (.lookup (.second rest)) := by
            apply (keeps_closeTemporary (Or.inl (hforeign.flushes himage.nameLen true iv.page _))).bind
            rintro _ _ rfl
            exact hrest
          split
          · exact hclose
          · split
            · next hn => exact absurd hn hforeign.2.2
            · exact hclose
        · rw [if_pos hn, hname', if_neg hname, if_pos rfl]
          refine Or.inr ⟨?_, decoded_connected hd true inode, h3.trans hn, h5.trans hname'⟩
          rw [h4]
    · rw [if_neg he]
      have hrole : roleAfter hd n (.read mapped iv.page) ret (.lookup (.second (iv :: rest))) =
          .lookup (.second rest) := by
        simp only [roleAfter, readRecord, he, if_false]
      change Prog.Keeps _ _ _ _ (roleAfter hd n (.read mapped iv.page) ret (.lookup (.second (iv :: rest))))
      rw [hrole]
      exact hrest

theorem keeps_lookup (hname : name ≠ []) : (findFileT name).Keeps (lookups hd n) (raceRules hd n name)
    (Returns n name) (.lookup .idle) := by
  refine ⟨trivial, fun mapped _ => ⟨trivial, fun _ _ => ⟨rfl, fun _ _ => ?_⟩⟩⟩
  apply (raceRules_plain hd n name).keeps_header.bind
  rintro hd role ⟨rfl, rfl⟩
  have hfirst : (Prog.each (recordInodePageT mapped) (List.range' 0 hd.maxInodes)).Keeps (lookups hd n)
      (raceRules hd n name) _ _ := keeps_firstPass mapped hd.maxInodes 0 (Nat.zero_add _).le []
  rw [← List.range_eq_range'] at hfirst
  apply hfirst.bind
  rintro _ _ ⟨seen, rfl⟩
  rw [Nat.zero_add]
  refine ⟨⟨seen, rfl⟩, fun ivs hivs => ?_⟩
  apply (keeps_secondPass mapped hname hivs).bind
  intro file role h
  exact ⟨trivial, fun _ _ => h⟩

end Programs

def recOf (hd : Header) (inode : Inode) : VersionRec where
  number := inode.inodeNumber % 2 ^ 64
  version := inode.inodeVersionNumber % 2 ^ 64
  name := inode.flashName
  exact := !(inode.decoded hd false).modified

structure RaceState (hd : Header) (n base : ℕ) (name : List UInt8) (s : Fs) (l : List Role) : Prop where
  header : s.header = hd
  ready : ClaimReady s
  stored : ∀ p, Valid s p → ∃ inode, ImageOf hd inode (pageAt s p)
  findable : Findable n hd.maxInodes base name (tableAt s) s.ivStorage l

section Steps

variable {hd : Header} {n base : ℕ} {name : List UInt8} {s t : Fs} {l : List Role} {i p : ℕ} {role : Role}

theorem tableAt_of_image {inode : Inode} (hv : Valid s p) (h : ImageOf s.header inode (pageAt s p)) :
    tableAt s p = some (recOf s.header inode) := by
  have hdec := h.decode false
  obtain ⟨h1, h2, h3⟩ := decoded_record s.header false inode
  have hraw : rawAt s p = { inode.decoded s.header false with page := p } := by rw [rawAt, hdec]
  rw [tableAt, if_pos hv, recAt, numberAt, versionAt, hraw, recOf, h1, h2, h3]

theorem tableAt_congr (hh : t.header = s.header) (hp : pageAt t p = pageAt s p) : tableAt t p = tableAt s p := by
  have hv := valid_congr (s := s) (t := t) hh hp
  have hr := rawAt_congr hh hp
  simp only [tableAt, hv, recAt, numberAt, versionAt, hr]

theorem tableAt_same (hh : t.header = s.header) (hp : ∀ p < s.header.maxInodes, pageAt t p = pageAt s p) :
    tableAt t = tableAt s := by
  funext p
  by_cases hlt : p < s.header.maxInodes
  · exact tableAt_congr hh (hp p hlt)
  · rw [tableAt, tableAt, if_neg fun h : Valid t p => hlt (hh ▸ h.1), if_neg fun h : Valid s p => hlt h.1]

theorem Touched.tableAt {op : PhysOp} (h : Touched s t p op) (L : Geometry s) :
    tableAt t = Function.update (tableAt s) p (SimpleFlashFs.tableAt t p) := by
  funext x
  by_cases hx : x = p
  · subst hx
    rw [Function.update_self]
  · rw [Function.update_of_ne hx]
    by_cases hlt : x < s.header.maxInodes
    · exact tableAt_congr h.header (h.others x hx (L.lt_inRange hlt))
    · have hlt' : ¬ x < t.header.maxInodes := by rwa [h.header]
      rw [SimpleFlashFs.tableAt, SimpleFlashFs.tableAt, if_neg fun h : Valid t x => hlt' h.1,
        if_neg fun h : Valid s x => hlt h.1]

theorem RaceState.quiet (h : RaceState hd n base name s l) (hh : t.header = s.header) (hm : t.mem = s.mem)
    (hr : ClaimReady t) {ivs : List InodeVersion} {l' : List Role} (hivs : t.ivStorage = ivs)
    (hf : Findable n hd.maxInodes base name (tableAt s) ivs l') : RaceState hd n base name t l' := by
  have hpage : ∀ p, pageAt t p = pageAt s p := fun p => by rw [pageAt, pageAt, hm, hh]
  refine ⟨hh.trans h.header, hr, fun p hp => ?_, ?_⟩
  · rw [hpage]
    exact h.stored p ((valid_congr hh (hpage p)).mp hp)
  · rw [tableAt_same hh fun p _ => hpage p, hivs]
    exact hf

-- page p has changed
theorem RaceState.touched {op : PhysOp} (h : RaceState hd n base name s l) (ht : Touched s t p op)
    (hp : Valid t p → ∃ inode, ImageOf hd inode (pageAt t p)) {l' : List Role}
    (hf : Findable n hd.maxInodes base name (Function.update (tableAt s) p (tableAt t p)) s.ivStorage l') :
    RaceState hd n base name t l' := by
  have L := h.ready.layout.toGeometry
  refine ⟨ht.header.trans h.header, ht.claimReady h.ready, fun x hx => ?_, ?_⟩
  · by_cases he : x = p
    · subst he
      exact hp hx
    · have hlt : x < s.header.maxInodes := by rw [← ht.header]; exact hx.1
      have hpage := ht.others x he (L.lt_inRange hlt)
      rw [hpage]
      exact h.stored x ((valid_congr ht.header hpage).mp hx)
  · have hivs : t.ivStorage = s.ivStorage := by rw [ht.rest]
    rw [ht.tableAt L, hivs]
    exact hf

theorem checksumOk_of_image {inode : Inode} {data : List UInt8} (h : ImageOf hd inode data) :
    checksumOk hd.endianness data = true := by
  obtain ⟨⟨img, h1, rfl⟩, -⟩ := h
  have h2 := h1.length
  have h3 := h1.fits
  exact checksumOk_addPageChecksum _ (by omega)

theorem RaceState.writeInode {data : List UInt8} {done : Bool} (h : RaceState hd n base name s l) (h0 : n ≠ 0)
    (hi : l[i]? = some role) {op : PhysOp} (ht : Touched s t p op) (hcontent : done = true → pageAt t p = data)
    (hp : p < hd.maxInodes) {inode : Inode} (himage : ImageOf hd inode data) (hw : WritesFor n name role inode)
    (hfail : done = false → ¬ Valid t p) (hneed : NotNeededNow n s l p)
    (hv : ∀ file, decodeInode hd data false = .ok file →
      file.inode.inodeVersionNumber ≠ 0 ∧ (file.inode.inodeNumber = n → file.modified = false)) :
    RaceState hd n base name t (l.set i (roleAfter hd n (.writeInode p data) done role)) := by
  have hself : l.set i role = l := by
    obtain ⟨hlt, rfl⟩ := List.getElem?_eq_some_iff.mp hi
    exact List.set_getElem_self hlt
  have hclear := h.findable.clear hneed
  have hheader : t.header = hd := ht.header.trans h.header
  cases done with
  | false =>
    have hnv := hfail rfl
    have hrole : roleAfter hd n (.writeInode p data) false role = role := by cases role <;> rfl
    rw [hrole, hself]
    refine h.touched ht (fun hv => absurd hv hnv) ?_
    rw [tableAt, if_neg hnv]
    exact hclear
  | true =>
    have hpage := hcontent rfl
    have hvalid : Valid t p := ⟨by rwa [hheader], by rw [hpage, hheader]; exact checksumOk_of_image himage⟩
    have himage' : ImageOf t.header inode (pageAt t p) := by rw [hpage, hheader]; exact himage
    refine h.touched ht (fun _ => ⟨inode, by rw [hpage]; exact himage⟩) ?_
    rw [tableAt_of_image hvalid himage', hheader, ← Function.update_idem (a := p) none]
    have hnone : Function.update (tableAt s) p none p = none := Function.update_self ..
    have hdec := himage.decode false
    obtain ⟨h1, h2, -⟩ := decoded_record hd false inode
    obtain ⟨hne, hexact⟩ := hv _ hdec
    rw [h2] at hne
    rw [h1] at hexact
    cases role with
    | writer v =>
      obtain ⟨h3, h4, h5⟩ := hw
      have hrole : roleAfter hd n (.writeInode p data) true (.writer v) = .writer (recOf hd inode).version := by
        simp only [roleAfter, hdec, h2, recOf]
      rw [hrole]
      exact hclear.own hnone hp h0 h3 h4 (by rw [recOf, hexact h3]; rfl) hi (h5.resolve_left hne)
    | lookup q =>
      rw [show roleAfter hd n (.writeInode p data) true (.lookup q) = .lookup q from rfl, hself]
      exact hclear.foreign hnone hp hw.2.1 hw.1 hw.2.2
    | other =>
      rw [show roleAfter hd n (.writeInode p data) true .other = .other from rfl, hself]
      exact hclear.foreign hnone hp hw.2.1 hw.1 hw.2.2

theorem ImageOf.length {inode : Inode} {data : List UInt8} (h : ImageOf hd inode data) :
    data.length = hd.pageSize := by
  obtain ⟨⟨img, h1, rfl⟩, -⟩ := h
  exact h1.addPageChecksum_length

-- the page that a pass of the lookup reads
theorem reads_section {mapped : Bool} (L : Layout s) (hp : p < s.header.maxInodes) :
    (if mapped then readPageMapped s p true else readPage s p true) = readPage s p true := by
  cases mapped with
  | false => rfl
  | true => exact readPageMapped_eq L.toGeometry (L.lt_inRange hp) true

theorem RaceState.readsAs (h : RaceState hd n base name s l) (hv : Valid s p) : ReadsAs hd n name (pageAt s p) := by
  obtain ⟨inode, himage⟩ := h.stored p hv
  have htab := tableAt_of_image hv (by rw [h.header]; exact himage)
  rw [h.header] at htab
  refine ⟨inode, himage, ?_⟩
  by_cases hn : inode.inodeNumber % 2 ^ 64 = n
  · obtain ⟨h1, h2⟩ := h.findable.table.named p _ htab hn
    exact Or.inr ⟨hn, h1, by simpa [recOf] using h2⟩
  · refine Or.inl ⟨hn, h.findable.table.numbered p _ htab, fun he => hn ?_⟩
    exact h.findable.table.others p _ htab he

theorem RaceState.readFirst (h : RaceState hd n base name s l) {mapped : Bool} {seen : List InodeVersion}
    (hi : l[i]? = some (.lookup (.first p seen none))) (hp : p < hd.maxInodes) :
    Findable n hd.maxInodes base name (tableAt s) s.ivStorage
      (l.set 0 (roleAfter hd n (.read mapped p) (readPage s p true) (.lookup (.first p seen none)))) := by
  have L := h.ready.layout.toGeometry
  have ht := (h.findable.tracks i _ hi).2
  by_cases hv : Valid s p
  · obtain ⟨inode, himage⟩ := h.stored p hv
    have htab := tableAt_of_image hv (by rw [h.header]; exact himage)
    obtain ⟨h1, h2, -⟩ := decoded_record hd false inode
    rw [h.header] at htab
    simp only [roleAfter, readRecord, readPage_of_valid L hv, if_true, himage.decode false]
    exact h.findable.advance (ht.record h.findable htab rfl h1 h2)
  · have hnone : tableAt s p = none := if_neg hv
    rw [readPage_of_not_valid L (by rw [h.header]; exact hp) hv]
    exact h.findable.advance (ht.pass hnone)

theorem RaceState.readSecond (h : RaceState hd n base name s l) {mapped : Bool} {iv : InodeVersion}
    {rest : List InodeVersion} (hi : l[i]? = some (.lookup (.second (iv :: rest)))) (hp : iv.page < hd.maxInodes) :
    Findable n hd.maxInodes base name (tableAt s) s.ivStorage
      (l.set 0 (roleAfter hd n (.read mapped iv.page) (readPage s iv.page true) (.lookup (.second (iv :: rest))))) := by
  have L := h.ready.layout.toGeometry
  have ht := (h.findable.tracks i _ hi).2
  by_cases hv : Valid s iv.page
  · obtain ⟨inode, himage⟩ := h.stored iv.page hv
    have htab := tableAt_of_image hv (by rw [h.header]; exact himage)
    obtain ⟨h1, h2, -⟩ := decoded_record hd false inode
    rw [h.header] at htab
    simp only [roleAfter, readRecord, readPage_of_valid L hv, if_true, himage.decode false, h1, h2]
    split
    · next hn => exact h.findable.advance (ht.find h.findable htab hn)
    · next hn =>
      refine h.findable.advance (ht.skip fun r hr => ?_)
      rw [htab] at hr
      obtain rfl := Option.some_inj.mp hr
      exact hn
  · have hnone : tableAt s iv.page = none := if_neg hv
    rw [readPage_of_not_valid L (by rw [h.header]; exact hp) hv]
    refine h.findable.advance (ht.skip fun r hr => ?_)
    rw [hnone] at hr
    cases hr

theorem RaceState.step {β : Type} {a : Section β} {s t : Shared} {b : β} (h0 : n ≠ 0)
    (h : RaceState hd n base name s.fs l) (hi : l[i]? = some role) (hpre : (raceRules hd n name).pre a role)
    (he : (lookups hd n).exec i a s = some (b, t)) (hok : KeepsFindable n i a s l b t) :
    (raceRules hd n name).post a role b ∧ RaceState hd n base name t.fs (l.set i ((lookups hd n).note a b role)) := by
  have hsec := runSection_eq he
  have hself : l.set i role = l := by
    obtain ⟨hlt, rfl⟩ := List.getElem?_eq_some_iff.mp hi
    exact List.set_getElem_self hlt
  have L := h.ready.layout
  obtain rfl := h.header
  have first : ∀ q, role = .lookup q → i = 0 := fun q hq => (h.findable.tracks i q (hq ▸ hi)).1
  have quiet : t.fs.header = s.fs.header → t.fs.mem = s.fs.mem → ClaimReady t.fs →
      t.fs.ivStorage = s.fs.ivStorage → RaceState s.fs.header n base name t.fs (l.set i role) := by
    intro h1 h2 h3 h4
    rw [hself]
    exact h.quiet h1 h2 h3 h4 h.findable
  have same : t.fs = s.fs → RaceState s.fs.header n base name t.fs (l.set i role) := by
    intro ht
    rw [hself, ht]
    exact h
  have hready : ∀ u : Fs, u.header = s.fs.header → u.mem = s.fs.mem →
      u.allocatedUnwrittenPages = s.fs.allocatedUnwrittenPages → u.headerInodeRange = s.fs.headerInodeRange →
      ClaimReady u := fun u h1 h2 h3 h4 => ⟨L.of_eq h1 (by rw [h2]), by rw [h3]; exact h.ready.allocatedWF,
    by rw [h1, h4]; exact h.ready.range⟩
  cases a with
  | header =>
    injection hsec with hb ht
    exact ⟨hb.symm, same ht.symm⟩
  | canMapRead =>
    injection hsec with hb ht
    exact ⟨trivial, same ht.symm⟩
  | variant =>
    injection hsec with hb ht
    exact ⟨trivial, same ht.symm⟩
  | read mapped p =>
    injection hsec with hb ht
    obtain ⟨hp, hrole⟩ := hpre
    rw [reads_section L hp] at hb
    have hfs := ht.symm
    refine ⟨fun hn => ?_, ?_⟩
    · by_cases hv : Valid s.fs p
      · rw [← hb, readPage_of_valid L.toGeometry hv]
        exact h.readsAs hv
      · rw [← hb, readPage_of_not_valid L.toGeometry hp hv] at hn
        cases hn
    · change RaceState _ n base name _ (l.set i (roleAfter _ n (.read mapped p) b role))
      rw [hfs, ← hb]
      refine h.quiet rfl rfl h.ready rfl ?_
      rcases hrole with ⟨seen, rfl⟩ | ⟨iv, rest, rfl, rfl⟩
      · obtain rfl := first _ rfl
        exact h.readFirst hi hp
      · obtain rfl := first _ rfl
        exact h.readSecond hi hp
  | lockMeta =>
    injection hsec with hb ht
    exact ⟨trivial, same ht.symm⟩
  | unlockMeta =>
    injection hsec with hb ht
    exact ⟨trivial, same ht.symm⟩
  | clearIv =>
    injection hsec with hb ht
    obtain rfl : role = .lookup .idle := hpre
    obtain rfl := first _ rfl
    refine ⟨trivial, ?_⟩
    change RaceState _ n base name _ (l.set 0 (.lookup (.first 0 [] none)))
    have hf := h.findable.advance (h.findable.tracks 0 _ hi).2.start
    exact h.quiet (by rw [← ht]) (by rw [← ht])
      (hready _ (by rw [← ht]) (by rw [← ht]) (by rw [← ht]) (by rw [← ht])) (by rw [← ht]) hf
  | addIv file =>
    injection hsec with hb ht
    obtain ⟨k, seen, rfl⟩ := hpre
    obtain rfl := first _ rfl
    refine ⟨trivial, ?_⟩
    change RaceState _ n base name _ (l.set 0 (.lookup (.first k seen none)))
    have hf := h.findable.advance (h.findable.tracks 0 _ hi).2.add
    exact h.quiet (by rw [← ht]) (by rw [← ht])
      (hready _ (by rw [← ht]) (by rw [← ht]) (by rw [← ht]) (by rw [← ht])) (by rw [← ht]) hf
  | ivStorage =>
    injection hsec with hb ht
    obtain ⟨seen, rfl⟩ := hpre
    obtain rfl := first _ rfl
    obtain ⟨h1, h2, h3⟩ := (h.findable.tracks 0 _ hi).2.turn h.findable
    have hbs : b = seen := hb.symm.trans h1
    refine ⟨by rw [hbs]; exact h2, ?_⟩
    change RaceState _ n base name _ (l.set 0 (.lookup (.second b)))
    rw [← ht, hbs]
    exact h.quiet rfl rfl h.ready rfl (h.findable.advance h3)
  | claim =>
    have ht := wp_ok (wp_allocateFreeInodePageNumber (R := fun _ _ => True) h.ready fun _ => trivial) hsec
    have hrest := ht.rest
    refine ⟨fun p hp => (ht.claimable p hp).1, ?_⟩
    refine quiet (by rw [hrest]) (by rw [hrest]) ⟨L.of_eq (by rw [hrest]) (by rw [hrest]), ht.wf, ?_⟩ (by rw [hrest])
    rw [show t.fs.header = s.fs.header by rw [hrest]]
    exact ht.range
  | number =>
    injection hsec with hb ht
    refine ⟨trivial, quiet (by rw [← ht]) (by rw [← ht]) ?_ (by rw [← ht])⟩
    rw [← ht]
    exact hready _ rfl rfl rfl rfl
  | takeData =>
    obtain ⟨h1, h2, h3, h4, h5⟩ := wp_ok (wp_takeData (fun _ _ => True)) hsec
    exact ⟨trivial, quiet h1 h2 (hready _ h1 h2 h3 h4) h5⟩
  | write hd' page data =>
    obtain ⟨⟨hge, hin⟩, hlen⟩ := hok
    obtain rfl : hd' = s.fs.header := hpre
    obtain ⟨ht, -⟩ := wp_ok (wp_perform_any (x := .write _ data) L.toGeometry hin (L.writeAddress_eq hin) hlen) hsec
    have hnot : ∀ u : Fs, u.header = s.fs.header → ¬ Valid u page := by
      rintro u hu ⟨hlt, -⟩
      rw [hu] at hlt
      omega
    refine ⟨trivial, ?_⟩
    change RaceState _ n base name _ (l.set i role)
    rw [hself]
    refine h.touched ht (fun hv => absurd hv (hnot _ ht.header)) ?_
    have hold : tableAt s.fs page = none := if_neg (hnot _ rfl)
    have hnew : tableAt t.fs page = none := if_neg (hnot _ ht.header)
    rw [hnew, ← hold, Function.update_eq_self]
    exact h.findable
  | writeInode page data =>
    obtain ⟨hp, inode, himage, hw⟩ := hpre
    obtain ⟨hfail, hneed, hv⟩ := hok
    have hin := L.lt_inRange hp
    have hwp : wp (sec (.writeInode page data)) (fun b u => Touched s.fs u page
        (.write (writeAddress s.fs.header page) data) ∧ (b = true → pageAt u page = data)) (fun _ _ => True) s.fs := by
      simp only [sec, writeMetaPage, wp_bind, wp_get]
      exact wp_perform_any (x := .write _ data) L.toGeometry hin (L.writeAddress_eq hin) himage.length
    obtain ⟨ht, hcontent⟩ := wp_ok hwp hsec
    exact ⟨fun file hf => (hv file hf).1, h.writeInode h0 hi ht hcontent hp himage hw hfail hneed hv⟩
  | erase page =>
    obtain ⟨hin, hnv, hneed⟩ := hok
    have hwp : wp (sec (.erase page)) (fun _ u => Touched s.fs u page
        (.erase (writeAddress s.fs.header page) s.fs.header.pageSize)) (fun _ _ => True) s.fs := by
      simp only [sec, wp_bind, wp_get, wp_pure]
      exact wp_mono (wp_perform_any (x := .erase _ _) L.toGeometry hin (L.writeAddress_eq hin)
        List.length_replicate) (fun _ _ h => h.1) (fun _ _ _ => trivial)
    have ht := wp_ok hwp hsec
    refine ⟨trivial, ?_⟩
    change RaceState _ n base name _ (l.set i role)
    rw [hself]
    refine h.touched ht (fun hv => absurd hv hnv) ?_
    have hnew : tableAt t.fs page = none := if_neg hnv
    rw [hnew]
    exact h.findable.clear hneed
  | giveBack page =>
    injection hsec with hb ht
    refine ⟨trivial, quiet (by rw [← ht]) (by rw [← ht]) ?_ (by rw [← ht])⟩
    rw [← ht]
    exact hready _ rfl rfl rfl rfl
  | unreserve page =>
    injection hsec with hb ht
    refine ⟨trivial, quiet (by rw [← ht]) (by rw [← ht]) ?_ (by rw [← ht])⟩
    rw [← ht]
    exact ⟨L.of_eq rfl rfl, PageSet.erase_wf h.ready.allocatedWF hok, h.ready.range⟩
  | fault e => exact by cases b

end Steps

def openRole (n : ℕ) (file : FileHandle) : Role :=
  if file.inode.inodeNumber = n then .writer file.inode.inodeVersionNumber else .other

-- a lookup, and clients that each flush the file they have open
def startLookup (s : Fs) (n : ℕ) (name : List UInt8) (handles : List (FileHandle × List HandleOp)) :
    Pool Section Shared Role FileHandle where
  shared := { fs := s }
  threads := ⟨findFileT name, .lookup .idle⟩ :: handles.map fun h => ⟨editsT h.2 h.1, openRole n h.1⟩

-- the file n exists, its newest version on the flash is base
structure Exists (s : Fs) (n base : ℕ) (name : List UInt8) : Prop where
  ready : ClaimReady s
  stored : ∀ p, Valid s p → ∃ inode, ImageOf s.header inode (pageAt s p)
  table : FileTable n s.header.maxInodes name (tableAt s)
  present : ∃ p, IsVersion n (tableAt s) p base
  newest : ∀ p v, IsVersion n (tableAt s) p v → v ≤ base

structure OpenFor (n base : ℕ) (name : List UInt8) (file : FileHandle) : Prop where
  connected : file.connected = true
  nameLen : file.inode.fileNameLen < 2 ^ 16
  number : 0 < file.inode.inodeNumber ∧ file.inode.inodeNumber < 2 ^ 64
  version : file.inode.inodeVersionNumber < 2 ^ 64
  named : file.inode.flashName = name ↔ file.inode.inodeNumber = n
  newest : file.inode.inodeNumber = n → base ≤ file.inode.inodeVersionNumber

omit [Config] in
theorem OpenFor.flushes {n base : ℕ} {name : List UInt8} {file : FileHandle} (h : OpenFor n base name file) :
    Flushes n name (openRole n file) file := by
  refine ⟨h.connected, h.nameLen, h.number, h.version, ?_⟩
  by_cases hn : file.inode.inodeNumber = n
  · rw [openRole, if_pos hn]
    exact ⟨hn, h.named.mpr hn, le_rfl⟩
  · rw [openRole, if_neg hn]
    exact ⟨hn, fun he => hn (h.named.mp he)⟩

-- each file is open at most once
def OpenOnce (n : ℕ) (handles : List (FileHandle × List HandleOp)) : Prop :=
  ∀ (i j : ℕ) (h k : FileHandle × List HandleOp), handles[i]? = some h → handles[j]? = some k →
    h.1.inode.inodeNumber = n → k.1.inode.inodeNumber = n → i = j

theorem startLookup_findable {s : Fs} {n base : ℕ} {name : List UInt8} {handles : List (FileHandle × List HandleOp)}
    (hs : Exists s n base name) (ho : ∀ h ∈ handles, OpenFor n base name h.1) (honce : OpenOnce n handles) :
    Findable n s.header.maxInodes base name (tableAt s) s.ivStorage (startLookup s n name handles).notes := by
  have hnotes : (startLookup s n name handles).notes = .lookup .idle :: handles.map fun h => openRole n h.1 := by
    simp [Pool.notes, startLookup]
  have hget : ∀ (i : ℕ) (v : ℕ), (startLookup s n name handles).notes[i + 1]? = some (.writer v) →
      ∃ h, handles[i]? = some h ∧ h.1.inode.inodeNumber = n ∧ h.1.inode.inodeVersionNumber = v := by
    intro i v hi
    rw [hnotes, List.getElem?_cons_succ, List.getElem?_map, Option.map_eq_some_iff] at hi
    obtain ⟨h, hh, hr⟩ := hi
    unfold openRole at hr
    split at hr
    · next hn =>
      injection hr with hv
      exact ⟨h, hh, hn, hv⟩
    · cases hr
  have hzero : ∀ v, (startLookup s n name handles).notes[0]? ≠ some (.writer v) := by
    intro v h0
    rw [hnotes] at h0
    cases h0
  refine ⟨hs.table, fun w hw => ?_, fun i j v w hi hj => ?_, fun i q hi => ?_⟩
  · obtain ⟨i, hi⟩ := List.mem_iff_getElem?.mp hw
    cases i with
    | zero => exact absurd hi (hzero w)
    | succ i =>
      obtain ⟨h, hh, hn, rfl⟩ := hget i w hi
      have hb := (ho h (List.mem_of_getElem? hh)).newest hn
      exact ⟨hb, fun p v hv => (hs.newest p v hv).trans hb⟩
  · cases i with
    | zero => exact absurd hi (hzero v)
    | succ i =>
      cases j with
      | zero => exact absurd hj (hzero w)
      | succ j =>
        obtain ⟨h, hh, hn, -⟩ := hget i v hi
        obtain ⟨k, hk, hn', -⟩ := hget j w hj
        rw [honce i j h k hh hk hn hn']
  · cases i with
    | zero =>
      rw [hnotes] at hi
      injection hi with hi
      injection hi with hi
      obtain ⟨p, hp⟩ := hs.present
      rw [← hi]
      exact ⟨rfl, p, base, hp, le_rfl⟩
    | succ i =>
      rw [hnotes, List.getElem?_cons_succ, List.getElem?_map, Option.map_eq_some_iff] at hi
      obtain ⟨h, -, hr⟩ := hi
      unfold openRole at hr
      split at hr <;> cases hr

-- what a finished lookup has found, in a version between the oldest and the newest
def FindsFile (n base : ℕ) (name : List UInt8) (d : Pool Section Shared Role FileHandle) : Prop :=
  ∀ file role, d.threads[0]? = some ⟨.done file, role⟩ →
    file.connected = true ∧ file.inode.inodeNumber = n ∧ file.inode.fileName = name ∧
      base ≤ file.inode.inodeVersionNumber ∧ ∀ w, Role.writer w ∈ d.notes → file.inode.inodeVersionNumber ≤ w

def missed (d : Pool Section Shared Role FileHandle) : Bool :=
  match d.threads.head? with
  | some ⟨.done file, _⟩ => !file.connected
  | _ => false

def finished (d : Pool Section Shared Role FileHandle) : Bool :=
  match d.threads.head? with
  | some ⟨.done _, _⟩ => true
  | _ => false

def Role.finds : Role → Bool
  | .lookup (.found _) => true
  | .lookup _ => false
  | _ => true

-- a special case of KeepsFindable: a version of the file goes only when the lookup has found one
def Undisturbed (n : ℕ) : Pool.Condition Section Shared Role := fun _ _ a s l b t =>
  match a, b with
  | .erase p, _ => p + 1 < s.fs.header.filesystemSize ∧ ¬ Valid t.fs p ∧
    (numberAt s.fs p = n → ∀ role ∈ l, role.finds = true)
  | .writeInode p data, done => (done = false → ¬ Valid t.fs p) ∧
    (numberAt s.fs p = n → ∀ role ∈ l, role.finds = true) ∧
    (decodeInode s.fs.header data false).toOption.all (fun file => decide
      (file.inode.inodeVersionNumber ≠ 0 ∧ (file.inode.inodeNumber = n → file.modified = false))) = true
  | .write _ p data, _ => (s.fs.header.maxInodes ≤ p ∧ p + 1 < s.fs.header.filesystemSize) ∧
    data.length = s.fs.header.pageSize
  | .unreserve p, _ => p < noData
  | _, _ => True

theorem lookup_findsFile {s : Fs} {n base : ℕ} {name : List UInt8} {handles : List (FileHandle × List HandleOp)}
    (hname : name ≠ []) (hn : n ≠ 0) (hs : Exists s n base name) (ho : ∀ h ∈ handles, OpenFor n base name h.1)
    (honce : OpenOnce n handles) {d : Pool Section Shared Role FileHandle}
    (hd : Pool.Reaches (lookups s.header n) (KeepsFindable n) (startLookup s n name handles) d) :
    FindsFile n base name d := by
  have h0 : RaceState s.header n base name (startLookup s n name handles).shared.fs
      (startLookup s n name handles).notes :=
    ⟨rfl, hs.ready, hs.stored, startLookup_findable hs ho honce⟩
  have hk : (startLookup s n name handles).AllKeep (lookups s.header n) (raceRules s.header n name)
      (fun i file role => i = 0 → Returns n name file role) := by
    intro i t ht
    cases i with
    | zero =>
      injection ht with ht
      rw [← ht]
      exact (keeps_lookup hname).mono fun _ _ h _ => h
    | succ i =>
      simp only [startLookup, List.getElem?_cons_succ, List.getElem?_map, Option.map_eq_some_iff] at ht
      obtain ⟨h, hh, rfl⟩ := ht
      exact (keeps_edits h.2 (ho h (List.mem_of_getElem? hh)).flushes).mono fun _ _ _ => nofun
  obtain ⟨h1, h2⟩ := Pool.Reaches.invariant (I := fun (t : Shared) l => RaceState s.header n base name t.fs l)
    (fun h hi hpre he hok => h.step hn hi hpre he hok) h0 hk hd
  intro file role ht
  have hi : d.notes[0]? = some role := by rw [Pool.notes, List.getElem?_map, ht]; rfl
  rcases h2 0 _ ht rfl with rfl | ⟨rfl, hc, hnum, hfile⟩
  · obtain ⟨-, -, iv, v, he, -⟩ := h1.findable.tracks 0 _ hi
    cases he
  · obtain ⟨-, hb, hw⟩ := h1.findable.tracks 0 _ hi
    exact ⟨hc, hnum, hfile, hb, hw⟩

theorem NotNeededNow.of_finds {n p : ℕ} {s : Fs} {l : List Role}
    (h : numberAt s p = n → ∀ role ∈ l, role.finds = true) : NotNeededNow n s l p := by
  rintro v ⟨r, hr, hn, -⟩ q hq
  have hnum : numberAt s p = n := by
    unfold tableAt at hr
    split at hr
    · injection hr with hr
      rwa [← hr] at hn
    · cases hr
  have hf := h hnum _ hq
  cases q with
  | found v => trivial
  | idle => cases hf
  | first i seen pending => cases hf
  | second rest => cases hf

theorem Undisturbed.keepsFindable {n i : ℕ} {β : Type} {a : Section β} {s t : Shared} {l : List Role} {b : β}
    (h : Undisturbed n i a s l b t) : KeepsFindable n i a s l b t := by
  cases a with
  | erase p => exact ⟨h.1, h.2.1, .of_finds h.2.2⟩
  | writeInode p data =>
    obtain ⟨h1, h2, h3⟩ := h
    refine ⟨h1, .of_finds h2, fun file hf => ?_⟩
    rw [hf] at h3
    exact of_decide_eq_true h3
  | write hd p data => exact h
  | unreserve p => exact h
  | header | canMapRead | variant | read | lockMeta | unlockMeta | clearIv | addIv | ivStorage | claim | number
    | takeData | giveBack | fault => trivial

instance (i : ℕ) {β : Type} (a : Section β) (s t : Shared) (l : List Role) (b : β) (n : ℕ) :
    Decidable (Undisturbed n i a s l b t) := by
  unfold Undisturbed
  cases a <;> infer_instance

end Race

def onePage (page : ℕ) (inode : Inode) : Fs :=
  match inode2page fourPages.header inode with
  | .ok img =>
    { fourPages with
      mem := { bytes := overwrite fourPages.mem.bytes (64 * (page + 1)) (@inodeImage dynamicConfig fourPages.header img) } }
  | .error _ => fourPages

def firstVersion : Inode where
  inodeNumber := 1
  inodeVersionNumber := 1
  fileNameLen := 1
  fileName := [97]

-- the file lies on page 1, page 0 is free
def behindFree : Fs := onePage 1 firstVersion

def writtenFile : FileHandle := { connected := true, modified := true, page := 1, inode := firstVersion }

-- the lookup has read page 0 when the new version is written there; the old one on page 1 is erased before the
-- lookup comes to it
theorem lookup_misses : ∃ d, Pool.Reaches (@lookups dynamicConfig behindFree.header 1) (fun _ _ _ _ _ _ _ => True)
    (@startLookup dynamicConfig behindFree 1 [97] [(writtenFile, [.flush])]) d ∧ ¬ FindsFile 1 1 [97] d := by
  have h : ((@startLookup dynamicConfig behindFree 1 [97] [(writtenFile, [.flush])]).runChecked
      (@lookups dynamicConfig behindFree.header 1) (fun _ {_} _ _ _ _ _ => true)
      ([1, 1] ++ List.replicate 5 0 ++ List.replicate 4 1 ++ List.replicate 5 0)).any missed = true := by
    decide +kernel
  obtain ⟨d, hd, hm⟩ := (Option.any_eq_true _ _).mp h
  refine ⟨d, Pool.reaches_of_runChecked (fun _ => trivial) hd, fun he => ?_⟩
  unfold missed at hm
  split at hm
  · next file role ht =>
    obtain ⟨hc, -⟩ := he file role (List.head?_eq_getElem? ▸ ht)
    rw [hc] at hm
    cases hm
  · cases hm

theorem behindFree_page : @pageAt behindFree 1 = @inodeImage dynamicConfig behindFree.header
    ((inode2page behindFree.header firstVersion).toOption.getD []) := by
  decide +kernel

theorem behindFree_tableAt (p : ℕ) : @tableAt dynamicConfig behindFree p =
    if p = 1 then some ⟨1, 1, [97], true⟩ else none := by
  have h : ∀ p < 4, @tableAt dynamicConfig behindFree p = if p = 1 then some ⟨1, 1, [97], true⟩ else none := by
    decide +kernel
  by_cases hp : p < 4
  · exact h p hp
  · have hv : ¬ @Valid dynamicConfig behindFree p := fun hv => hp hv.1
    rw [if_neg (show p ≠ 1 by omega)]
    exact if_neg hv

theorem behindFree_image : @ImageOf dynamicConfig behindFree.header firstVersion (pageAt behindFree 1) := by
  obtain ⟨img, himg⟩ : ∃ img, inode2page behindFree.header firstVersion = .ok img := by
    refine ⟨(inode2page behindFree.header firstVersion).toOption.getD [], ?_⟩
    decide +kernel
  refine @ImageOf.mk dynamicConfig _ _ _ ⟨img, inode2page_eq_ok himg, ?_⟩ (by decide)
  rw [behindFree_page, himg]
  rfl

theorem behindFree_record {p : ℕ} {r : VersionRec} (h : @tableAt dynamicConfig behindFree p = some r) :
    p = 1 ∧ r = ⟨1, 1, [97], true⟩ := by
  rw [behindFree_tableAt] at h
  split at h
  · next hp => exact ⟨hp, (Option.some_inj.mp h).symm⟩
  · cases h

theorem behindFree_table : FileTable 1 4 [97] (@tableAt dynamicConfig behindFree) where
  bound p r h := by
    rw [(behindFree_record h).1]
    decide
  numbered p r h := by
    rw [(behindFree_record h).2]
    decide
  named p r h _ := by
    rw [(behindFree_record h).2]
    exact ⟨rfl, rfl⟩
  others p r h _ := by
    rw [(behindFree_record h).2]
  unique p q v hp hq := by
    obtain ⟨r, hr, -⟩ := hp
    obtain ⟨r', hr', -⟩ := hq
    rw [(behindFree_record hr).1, (behindFree_record hr').1]

theorem behindFree_exists : @Exists dynamicConfig behindFree 1 1 [97] := by
  have hlayout : Layout behindFree := ⟨⟨by decide, by decide +kernel, by decide⟩, by decide⟩
  have hvalid : ∀ p < 4, @Valid dynamicConfig behindFree p → p = 1 := by
    decide +kernel
  refine @Exists.mk dynamicConfig _ _ _ _ ⟨hlayout, PageSet.wf_empty, fun i hi => List.mem_range.mp hi⟩
    (fun p hp => ?_) behindFree_table ⟨1, ⟨1, 1, [97], true⟩, behindFree_tableAt 1, rfl, rfl⟩ ?_
  · rw [hvalid p hp.1 hp]
    exact ⟨firstVersion, behindFree_image⟩
  · rintro p v ⟨r, hr, -, rfl⟩
    rw [(behindFree_record hr).2]

theorem writtenFile_openFor : OpenFor 1 1 [97] writtenFile := by
  refine ⟨rfl, by decide, by decide, by decide, by decide, by decide⟩

-- the old version is erased when the lookup has read it again
theorem lookup_findsFile_beforeErase : ∃ d, FindsFile 1 1 [97] d ∧ ∃ file role,
    d.threads[0]? = some ⟨.done file, role⟩ := by
  have h : ((@startLookup dynamicConfig behindFree 1 [97] [(writtenFile, [.flush])]).runChecked
      (@lookups dynamicConfig behindFree.header 1)
      (fun i {_} a s l b t => decide (@Undisturbed dynamicConfig 1 i _ a s l b t))
      ([1, 1] ++ List.replicate 5 0 ++ [1] ++ List.replicate 10 0 ++ List.replicate 3 1)).any finished = true := by
    decide +kernel
  obtain ⟨d, hd, hm⟩ := (Option.any_eq_true _ _).mp h
  have hreach : Pool.Reaches (@lookups dynamicConfig behindFree.header 1) (@KeepsFindable dynamicConfig 1)
      (@startLookup dynamicConfig behindFree 1 [97] [(writtenFile, [.flush])]) d := by
    refine Pool.reaches_of_runChecked (fun h => ?_) hd
    exact @Undisturbed.keepsFindable dynamicConfig _ _ _ _ _ _ _ _ (of_decide_eq_true h)
  refine ⟨d, @lookup_findsFile dynamicConfig behindFree 1 1 [97] [(writtenFile, [.flush])] (by decide) (by decide)
    behindFree_exists ?_ ?_ d hreach, ?_⟩
  · rintro h hh
    rw [List.mem_singleton.mp hh]
    exact writtenFile_openFor
  · intro i j h k hi hj _ _
    have h0 : ∀ {i : ℕ} {h : FileHandle × List HandleOp}, [(writtenFile, [HandleOp.flush])][i]? = some h → i = 0 := by
      intro i h hi
      obtain ⟨hlt, -⟩ := List.getElem?_eq_some_iff.mp hi
      simpa using hlt
    rw [h0 hi, h0 hj]
  · unfold finished at hm
    split at hm
    · next file role ht => exact ⟨file, role, List.head?_eq_getElem? ▸ ht⟩
    · cases hm

end SimpleFlashFs
