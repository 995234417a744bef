import SimpleFlashFs.Lookup

namespace SimpleFlashFs.Vfs

-- what the inode pages of a drive say about a file; an empty name marks a deleted one
inductive Record
  | unwritten
  | named (name : List UInt8)
  | deleted
deriving DecidableEq, Repr

structure Drive where
  name : List UInt8
  initialized : Bool := true
  canInit : Bool := true
  files : List Record := []
deriving DecidableEq, Repr

-- the handle of a drive that an OpenFile owns
structure Underlying where
  drive : ℕ
  file : ℕ
  name : List UInt8
  connected : Bool := true
deriving DecidableEq, Repr

-- SimpleFlashFsVfsServer: openFiles are all OpenFiles ever made, openTable is m_open_files, and handles says to
-- which OpenFile each ThreadedFileHandle holds a shared_ptr
structure Server where
  drives : List Drive
  openFiles : List Underlying := []
  openTable : List (List UInt8 × ℕ) := []
  handles : List (Option ℕ) := []
deriving DecidableEq, Repr

def slash : UInt8 := 47

def colon : UInt8 := 58

def parseDriveName (path : List UInt8) : List UInt8 × List UInt8 :=
  let start := if path.head? = some slash then 1 else 0
  let driveName := path.drop start
  let pos := driveName.idxOf slash
  if pos < driveName.length then
    let rest := path.drop (pos + start)
    (driveName.take pos, if rest.head? = some slash then rest.drop 1 else rest)
  else (driveName, path)

def openKey (driveName filePath : List UInt8) : List UInt8 := driveName ++ colon :: filePath

namespace Drive

-- find_file takes no notice of deleted files
def find (d : Drive) (name : List UInt8) : Option ℕ :=
  if name = [] then none else d.files.findIdx? (· = .named name)

-- room: there is a free inode page and the name is not too long
def openFile (d : Drive) (path : List UInt8) (mode : OpenMode) (room : Bool) : Option (ℕ × Drive) :=
  match d.find path with
  | some j => if mode.trunc = true ∧ room = false then none else some (j, d)
  | none =>
    if mode.out = false ∧ mode.app = false then none
    else if room then some (d.files.length, { d with files := d.files ++ [.unwritten] })
    else none

def put (d : Drive) (file : ℕ) (name : List UInt8) : Drive :=
  { d with files := d.files.set file (if name = [] then .deleted else .named name) }

end Drive

-- the loop over m_drives in open
def openOnDrives (driveName filePath : List UInt8) (mode : OpenMode) (room : ℕ → Bool) :
    ℕ → List Drive → Option (ℕ × ℕ) × List Drive
  | _, [] => (none, [])
  | k, d :: rest =>
    if d.name ≠ driveName then
      let r := openOnDrives driveName filePath mode room (k + 1) rest
      (r.1, d :: r.2)
    else if d.initialized = false ∧ d.canInit = false then (none, d :: rest)
    else
      let d := { d with initialized := true }
      match d.openFile filePath mode (room k) with
      | some (j, d) => (some (k, j), d :: rest)
      | none =>
        let r := openOnDrives driveName filePath mode room (k + 1) rest
        (r.1, d :: r.2)

namespace Server

def expired (s : Server) (e : ℕ) : Bool := !s.handles.contains (some e)

def connected (s : Server) (e : ℕ) : Bool := (s.openFiles[e]?).any (·.connected)

def findOpen (s : Server) (key : List UInt8) : Option ℕ := (s.openTable.find? (·.1 = key)).map (·.2)

def eraseOpen (s : Server) (key : List UInt8) : Server := { s with openTable := s.openTable.filter (·.1 ≠ key) }

def newHandle (s : Server) (e : ℕ) : Server × Option ℕ :=
  ({ s with handles := s.handles ++ [some e] }, some s.handles.length)

def openFirst (s : Server) (driveName filePath : List UInt8) (mode : OpenMode) (room : ℕ → Bool) :
    Server × Option ℕ :=
  let r := openOnDrives driveName filePath mode room 0 s.drives
  match r.1 with
  | some (k, j) =>
    let e := s.openFiles.length
    let key := openKey driveName filePath
    newHandle { s with
      drives := r.2,
      openFiles := s.openFiles ++ [{ drive := k, file := j, name := filePath }],
      openTable := (key, e) :: (s.eraseOpen key).openTable } e
  | none => ({ s with drives := r.2 }, none)

def openPath (s : Server) (path : List UInt8) (mode : OpenMode) (room : ℕ → Bool) : Server × Option ℕ :=
  let (driveName, filePath) := parseDriveName path
  let key := openKey driveName filePath
  match s.findOpen key with
  | some e =>
    if s.expired e = false ∧ s.connected e = true then s.newHandle e
    else (s.eraseOpen key).openFirst driveName filePath mode room
  | none => s.openFirst driveName filePath mode room

def put (s : Server) (drive file : ℕ) (name : List UInt8) : Server :=
  { s with drives := s.drives.modify drive (·.put file name) }

def setOpen (s : Server) (e : ℕ) (h : Underlying) : Server := { s with openFiles := s.openFiles.set e h }

-- the OpenFile behind a handle, if it is usable
def usable (s : Server) (i : ℕ) : Option (ℕ × Underlying) :=
  match (s.handles[i]?).join with
  | none => none
  | some e =>
    match s.openFiles[e]? with
    | none => none
    | some h => if h.connected then some (e, h) else none

def flushed (s : Server) (h : Underlying) (done : Bool) : Server := if done then s.put h.drive h.file h.name else s

-- the destructors of the last handle and of its OpenFile
def close (s : Server) (i : ℕ) (done : Bool) : Server :=
  let t := { s with handles := s.handles.set i none }
  match s.usable i with
  | some (e, h) => if t.expired e then t.flushed h done else t
  | none => t

def findOn (s : Server) (drive : ℕ) (name : List UInt8) : Option ℕ := (s.drives[drive]?).bind (·.find name)

-- a file that already has the new name is deleted first; the result of the flush is ignored
def renameFile (s : Server) (i : ℕ) (newName : List UInt8) (doneOther done : Bool) : Server :=
  match s.usable i with
  | none => s
  | some (e, h) =>
    let t :=
      match s.findOn h.drive newName with
      | some j => if doneOther then s.put h.drive j [] else s
      | none => s
    let h := { h with name := newName }
    (t.setOpen e h).flushed h done

-- without a flush the handle stays connected, with its name gone
def deleteFile (s : Server) (i : ℕ) (done : Bool) : Server :=
  match s.usable i with
  | none => s
  | some (e, h) =>
    let h := { h with name := [] }
    if done then (s.setOpen e { h with connected := false }).put h.drive h.file [] else s.setOpen e h

-- the drives erase the inode pages of deleted files; purge_expired_open_files
def cleanup (s : Server) : Server := { s with openTable := s.openTable.filter fun entry => !s.expired entry.2 }

end Server

-- done says for each flush whether the inode page has been written
inductive Op
  | open (path : List UInt8) (mode : OpenMode) (room : ℕ → Bool)
  | close (i : ℕ) (done : Bool)
  | rename (i : ℕ) (newName : List UInt8) (doneOther done : Bool)
  | delete (i : ℕ) (done : Bool)
  | cleanup

def Server.step (s : Server) : Op → Server
  | .open path mode room => (s.openPath path mode room).1
  | .close i done => s.close i done
  | .rename i newName doneOther done => s.renameFile i newName doneOther done
  | .delete i done => s.deleteFile i done
  | .cleanup => s.cleanup

def Server.record (s : Server) (drive file : ℕ) : Option Record := (s.drives[drive]?).bind (·.files[file]?)

def Server.driveName (s : Server) (drive : ℕ) : Option (List UInt8) := (s.drives[drive]?).map (·.name)

-- a live OpenFile whose handle is valid
structure Live (s : Server) (e : ℕ) (h : Underlying) : Prop where
  held : some e ∈ s.handles
  file : s.openFiles[e]? = some h
  connected : h.connected = true

-- what the calls so far did to an OpenFile: the path of its first open, and whether the last rename_file gave it
-- another name than that, or a delete_file took the name
structure Opened where
  driveName : List UInt8
  filePath : List UInt8
  renamed : Bool := false
deriving DecidableEq, Repr

def Opened.key (o : Opened) : List UInt8 := openKey o.driveName o.filePath

-- an entry for the OpenFile that t has more
def Server.noteOpened (s t : Server) (log : List Opened) (o : Opened) : List Opened :=
  if t.openFiles.length = s.openFiles.length then log else log ++ [o]

def Server.note (s : Server) (log : List Opened) : Op → List Opened
  | .open path mode room =>
    let (driveName, filePath) := parseDriveName path
    s.noteOpened (s.openPath path mode room).1 log { driveName := driveName, filePath := filePath }
  | .rename i newName _ _ =>
    match s.usable i with
    | some (e, _) => log.modify e fun o => { o with renamed := decide (newName ≠ o.filePath) }
    | none => log
  | .delete i _ =>
    match s.usable i with
    | some (e, _) => log.modify e fun o => { o with renamed := true }
    | none => log
  | _ => log

-- a live OpenFile was first opened under that key
def OpenedAs (s : Server) (log : List Opened) (key : List UInt8) (o : Opened) : Prop :=
  ∃ e h, Live s e h ∧ log[e]? = some o ∧ o.key = key

-- an open under the key of a live OpenFile is for the same drive, and the file was not renamed; else the name is not
-- that of a live file, which was renamed to it; no file is renamed onto a live one
def KeepsNames (s : Server) (log : List Opened) : Op → Prop
  | .open path _ _ =>
    let (driveName, filePath) := parseDriveName path
    (∀ o, OpenedAs s log (openKey driveName filePath) o → o.driveName = driveName ∧ o.renamed = false) ∧
    ((∀ o, ¬ OpenedAs s log (openKey driveName filePath) o) → ∀ e h, Live s e h →
      s.driveName h.drive = some driveName → s.findOn h.drive filePath ≠ some h.file)
  | .rename i newName _ _ => newName ≠ [] ∧ ∀ e h, s.usable i = some (e, h) → ∀ e' h', Live s e' h' →
    h'.drive = h.drive → s.findOn h.drive newName ≠ some h'.file
  | _ => True

inductive Reaches (ok : Server → List Opened → Op → Prop) (s : Server) : Server → List Opened → Prop
  | start : Reaches ok s s []
  | step {t : Server} {log : List Opened} {op : Op} (h : Reaches ok s t log) (hc : ok t log op) :
    Reaches ok s (t.step op) (t.note log op)

-- a handle that open returns is one of the file that the path names
def OpensNamed (s : Server) (path : List UInt8) (mode : OpenMode) (room : ℕ → Bool) : Prop :=
  ∀ i, (s.openPath path mode room).2 = some i → ∃ e h, (s.openPath path mode room).1.usable i = some (e, h) ∧
    h.name = (parseDriveName path).2 ∧
    (s.openPath path mode room).1.driveName h.drive = some (parseDriveName path).1

theorem openKey_inj {d f f' : List UInt8} (h : openKey d f = openKey d f') : f = f' :=
  (List.cons.inj (List.append_cancel_left h)).2

section Drives

variable {s : Server} {k j d f : ℕ} {name : List UInt8}

@[simp] theorem driveName_put : (s.put d f name).driveName k = s.driveName k := by
  unfold Server.driveName Server.put
  dsimp only
  rw [List.getElem?_modify]
  split
  · cases s.drives[k]? <;> rfl
  · cases s.drives[k]? <;> rfl

theorem record_put : (s.put d f name).record k j =
    if k = d ∧ j = f then (s.record k j).map fun _ => if name = [] then .deleted else .named name
    else s.record k j := by
  unfold Server.record Server.put
  dsimp only
  rw [List.getElem?_modify]
  cases hk : s.drives[k]? with
  | none => simp
  | some drive =>
    by_cases hd : d = k
    · subst hd
      by_cases hf : f = j
      · subst hf
        simp [Drive.put, List.getElem?_set, Option.map_eq_bind, Option.bind]
        split <;> simp_all
      · have hne : ¬ j = f := fun h => hf h.symm
        simp [Drive.put, hf, hne]
    · have hne : ¬ k = d := fun h => hd h.symm
      simp [hd, hne]

-- what the loop over the drives finds
structure OpensOn (driveName filePath : List UInt8) (start : ℕ) (ds : List Drive) (r : Option (ℕ × ℕ) × List Drive) :
    Prop where
  grown : ∀ (i : ℕ) (d : Drive), ds[i]? = some d → ∃ d' : Drive, r.2[i]? = some d' ∧ d'.name = d.name ∧
    d.files <+: d'.files
  found : ∀ k j, r.1 = some (k, j) → ∃ i, k = start + i ∧ ∃ d d' : Drive, ds[i]? = some d ∧ r.2[i]? = some d' ∧
    d.name = driveName ∧ (d.find filePath = some j ∨ d.files.length = j ∧ d'.files[j]? = some .unwritten)

theorem OpensOn.next {driveName filePath : List UInt8} {start : ℕ} {drive drive' : Drive} {ds : List Drive}
    {r : Option (ℕ × ℕ) × List Drive} (h : OpensOn driveName filePath (start + 1) ds r) (hn : drive'.name = drive.name)
    (hf : drive'.files = drive.files) : OpensOn driveName filePath start (drive :: ds) (r.1, drive' :: r.2) where
  grown i x hi := by
    cases i with
    | zero =>
      injection hi with hi
      subst hi
      exact ⟨drive', rfl, hn, hf ▸ List.prefix_rfl⟩
    | succ i => exact h.grown i x hi
  found k j hk := by
    obtain ⟨i, hi, x, x', h1, h2, h3⟩ := h.found k j hk
    exact ⟨i + 1, by omega, x, x', h1, h2, h3⟩

theorem openOnDrives_spec (driveName filePath : List UInt8) (mode : OpenMode) (room : ℕ → Bool) (start : ℕ)
    (ds : List Drive) : OpensOn driveName filePath start ds (openOnDrives driveName filePath mode room start ds) := by
  induction ds generalizing start with
  | nil => exact ⟨nofun, nofun⟩
  | cons drive ds ih =>
    rw [openOnDrives]
    split
    · exact (ih (start + 1)).next rfl rfl
    · next hname =>
      have hname' : drive.name = driveName := not_not.mp hname
      split
      · exact ⟨fun i x hx => ⟨x, hx, rfl, List.prefix_rfl⟩, nofun⟩
      · dsimp only
        split
        · next j drive' hopen =>
          unfold Drive.openFile at hopen
          refine ⟨fun i x hi => ?_, fun k j' hk => ?_⟩
          · cases i with
            | zero =>
              injection hi with hi
              subst hi
              refine ⟨drive', rfl, ?_⟩
              split at hopen
              · split at hopen
                · cases hopen
                · cases hopen
                  exact ⟨rfl, List.prefix_rfl⟩
              · split at hopen
                · cases hopen
                · split at hopen
                  · cases hopen
                    exact ⟨rfl, List.prefix_append ..⟩
                  · cases hopen
            | succ i => exact ⟨x, hi, rfl, List.prefix_rfl⟩
          · cases hk
            refine ⟨0, rfl, drive, drive', rfl, rfl, hname', ?_⟩
            split at hopen
            · next hfind =>
              split at hopen
              · cases hopen
              · cases hopen
                exact Or.inl hfind
            · split at hopen
              · cases hopen
              · split at hopen
                · cases hopen
                  right
                  simp
                · cases hopen
        · exact (ih (start + 1)).next rfl rfl

theorem Drive.find_record {drive : Drive} {name : List UInt8} {j : ℕ} (h : drive.find name = some j) :
    drive.files[j]? = some (.named name) := by
  unfold Drive.find at h
  split at h
  · cases h
  · obtain ⟨hlt, hj, -⟩ := List.findIdx?_eq_some_iff_getElem.mp h
    rw [List.getElem?_eq_getElem hlt]
    exact congrArg some (of_decide_eq_true hj)

end Drives

structure Consistent (s : Server) (log : List Opened) : Prop where
  logged : log.length = s.openFiles.length
  bound : ∀ e, some e ∈ s.handles → e < s.openFiles.length
  tableBound : ∀ key e, (key, e) ∈ s.openTable → e < s.openFiles.length
  keys : ∀ key e f, (key, e) ∈ s.openTable → (key, f) ∈ s.openTable → e = f
  tracked : ∀ e h o, Live s e h → log[e]? = some o → s.driveName h.drive = some o.driveName ∧
    (o.key, e) ∈ s.openTable ∧ ∀ key, (key, e) ∈ s.openTable → key = o.key
  named : ∀ e h o, Live s e h → log[e]? = some o → o.renamed = false → h.name = o.filePath
  existing : ∀ e h, Live s e h → ∃ r, s.record h.drive h.file = some r ∧ r ≠ .deleted
  single : ∀ e f h k, Live s e h → Live s f k → h.drive = k.drive → h.file = k.file → e = f

section Steps

variable {s t : Server} {log log' : List Opened}

theorem Consistent.entry (h : Consistent s log) {e : ℕ} {x : Underlying} (hl : Live s e x) : ∃ o, log[e]? = some o := by
  have hlt := h.bound e hl.held
  rw [← h.logged] at hlt
  exact ⟨log[e], List.getElem?_eq_getElem hlt⟩

-- nothing is opened, and the live files keep their entries and records
structure Shrinks (s t : Server) : Prop where
  length : t.openFiles.length = s.openFiles.length
  held : ∀ e, some e ∈ t.handles → some e ∈ s.handles
  live : ∀ e k, Live t e k → ∃ h, Live s e h ∧ h.drive = k.drive ∧ h.file = k.file
  table : ∀ entry, entry ∈ t.openTable → entry ∈ s.openTable
  kept : ∀ key e k, Live t e k → (key, e) ∈ s.openTable → (key, e) ∈ t.openTable
  driveName : ∀ k dn, s.driveName k = some dn → t.driveName k = some dn
  record : ∀ e k r, Live t e k → s.record k.drive k.file = some r → r ≠ .deleted →
    ∃ r', t.record k.drive k.file = some r' ∧ r' ≠ .deleted

-- the log tells the names that the live files have afterwards
structure Notes (s : Server) (log : List Opened) (t : Server) (log' : List Opened) : Prop where
  length : log'.length = log.length
  path : ∀ (e : ℕ) (o' : Opened), log'[e]? = some o' → ∃ o : Opened, log[e]? = some o ∧ o'.driveName = o.driveName ∧ o'.filePath = o.filePath
  named : ∀ (e : ℕ) (k : Underlying) (o' : Opened), Live t e k → log'[e]? = some o' → o'.renamed = false →
    k.name = o'.filePath ∨ Live s e k ∧ log[e]? = some o'

theorem notes_same (hlive : ∀ e k, Live t e k → Live s e k) : Notes s log t log :=
  ⟨rfl, fun _ o ho => ⟨o, ho, rfl, rfl⟩, fun e k _ hk ho _ => Or.inr ⟨hlive e k hk, ho⟩⟩

theorem Consistent.shrinks (h : Consistent s log) (hs : Shrinks s t) (hn : Notes s log t log') : Consistent t log' where
  logged := by rw [hn.length, hs.length, h.logged]
  bound e he := by
    rw [hs.length]
    exact h.bound e (hs.held e he)
  tableBound key e he := by
    rw [hs.length]
    exact h.tableBound key e (hs.table _ he)
  keys key e f he hf := h.keys key e f (hs.table _ he) (hs.table _ hf)
  tracked e k o' hk ho' := by
    obtain ⟨h', hl, hd, -⟩ := hs.live e k hk
    obtain ⟨o, ho, hdn, hfp⟩ := hn.path e o' ho'
    obtain ⟨h1, h2, h3⟩ := h.tracked e h' o hl ho
    have hkey : o'.key = o.key := by rw [Opened.key, Opened.key, hdn, hfp]
    rw [hkey, hdn]
    exact ⟨hs.driveName _ _ (hd ▸ h1), hs.kept _ e k hk h2, fun key hkey => h3 key (hs.table _ hkey)⟩
  named e k o' hk ho' hr := by
    rcases hn.named e k o' hk ho' hr with hname | ⟨hl, ho⟩
    · exact hname
    · exact h.named e k o' hl ho hr
  existing e k hk := by
    obtain ⟨h', hl, hd, hf⟩ := hs.live e k hk
    obtain ⟨r, hr, hne⟩ := h.existing e h' hl
    rw [hd, hf] at hr
    exact hs.record e k r hk hr hne
  single e f k l hk hl hd hf := by
    obtain ⟨k', hk', hkd, hkf⟩ := hs.live e k hk
    obtain ⟨l', hl', hld, hlf⟩ := hs.live f l hl
    exact h.single e f k' l' hk' hl' (hkd.trans (hd.trans hld.symm)) (hkf.trans (hf.trans hlf.symm))

theorem usable_eq {i e : ℕ} {h : Underlying} (hu : s.usable i = some (e, h)) : s.handles[i]? = some (some e) ∧ Live s e h := by
  unfold Server.usable at hu
  split at hu
  · cases hu
  · next e' he =>
    split at hu
    · cases hu
    · next h' hh =>
      split at hu
      · next hc =>
        injection hu with hu
        injection hu with h1 h2
        subst h1 h2
        have hi : s.handles[i]? = some (some e') := Option.join_eq_some_iff.mp he
        exact ⟨hi, List.mem_of_getElem? hi, hh, hc⟩
      · cases hu

theorem usable_of_live {i e : ℕ} {h : Underlying} (hi : s.handles[i]? = some (some e)) (hl : Live s e h) :
    s.usable i = some (e, h) := by
  unfold Server.usable
  simp only [hi, Option.join_some, hl.file, hl.connected, if_true]

theorem Live.congr {e : ℕ} {h : Underlying} (hl : Live t e h) (hh : some e ∈ t.handles → some e ∈ s.handles)
    (hf : t.openFiles = s.openFiles) : Live s e h := ⟨hh hl.held, hf ▸ hl.file, hl.connected⟩

theorem not_live_of_expired {e : ℕ} {h : Underlying} (he : s.expired e = true) : ¬ Live s e h := by
  intro hl
  have : s.handles.contains (some e) = true := List.contains_iff_mem.mpr hl.held
  rw [Server.expired, this] at he
  cases he

theorem shrinks_erase {key : List UInt8} (hk : ∀ e h, (key, e) ∈ s.openTable → ¬ Live s e h) :
    Shrinks s (s.eraseOpen key) where
  length := rfl
  held _ he := he
  live e k hl := ⟨k, ⟨hl.held, hl.file, hl.connected⟩, rfl, rfl⟩
  table _ he := (List.mem_filter.mp he).1
  kept key' e k hl he := by
    refine List.mem_filter.mpr ⟨he, decide_eq_true fun hkey => ?_⟩
    exact hk e k (hkey ▸ he) ⟨hl.held, hl.file, hl.connected⟩
  driveName _ _ h := h
  record _ _ r _ hr hne := ⟨r, hr, hne⟩

theorem shrinks_newHandle {e : ℕ} (he : s.expired e = false) : Shrinks s (s.newHandle e).1 := by
  have hheld : ∀ f, some f ∈ (s.newHandle e).1.handles → some f ∈ s.handles := by
    intro f hf
    rcases List.mem_append.mp hf with hf | hf
    · exact hf
    · obtain rfl := Option.some_inj.mp (List.mem_singleton.mp hf)
      simpa [Server.expired] using he
  exact ⟨rfl, hheld, fun f k hl => ⟨k, hl.congr (hheld f) rfl, rfl, rfl⟩, fun _ h => h, fun _ _ _ _ h => h,
    fun _ _ h => h, fun _ _ r _ hr hne => ⟨r, hr, hne⟩⟩

theorem shrinks_cleanup : Shrinks s s.cleanup where
  length := rfl
  held _ he := he
  live e k hl := ⟨k, ⟨hl.held, hl.file, hl.connected⟩, rfl, rfl⟩
  table _ he := (List.mem_filter.mp he).1
  kept key e k hl he := by
    have hne : ¬ s.expired e = true := fun hx => not_live_of_expired hx ⟨hl.held, hl.file, hl.connected⟩
    exact List.mem_filter.mpr ⟨he, by simpa using hne⟩
  driveName _ _ h := h
  record _ _ r _ hr hne := ⟨r, hr, hne⟩

theorem shrinks_put {d f : ℕ} {name : List UInt8}
    (hok : name = [] → ∀ e k, Live s e k → ¬ (k.drive = d ∧ k.file = f)) : Shrinks s (s.put d f name) where
  length := rfl
  held _ he := he
  live e k hl := ⟨k, ⟨hl.held, hl.file, hl.connected⟩, rfl, rfl⟩
  table _ he := he
  kept _ _ _ _ he := he
  driveName k dn h := by rwa [driveName_put]
  record e k r hl hr hne := by
    rw [record_put]
    split
    · next heq =>
      rw [hr]
      by_cases hn : name = []
      · exact absurd heq (hok hn e k ⟨hl.held, hl.file, hl.connected⟩)
      · exact ⟨.named name, by simp [hn], nofun⟩
    · exact ⟨r, hr, hne⟩

theorem shrinks_setOpen {e : ℕ} {h : Underlying} (h' : Underlying) (hl : Live s e h) (hd : h'.drive = h.drive)
    (hf : h'.file = h.file) : Shrinks s (s.setOpen e h') := by
  have hlive : ∀ f k, Live (s.setOpen e h') f k → ∃ h, Live s f h ∧ h.drive = k.drive ∧ h.file = k.file := by
    intro f k hk
    have hget := hk.file
    rw [Server.setOpen, List.getElem?_set] at hget
    split at hget
    · next heq =>
      subst heq
      split at hget
      · obtain rfl := Option.some_inj.mp hget
        exact ⟨h, hl, hd.symm, hf.symm⟩
      · cases hget
    · exact ⟨k, ⟨hk.held, hget, hk.connected⟩, rfl, rfl⟩
  exact ⟨List.length_set, fun _ he => he, hlive, fun _ he => he, fun _ _ _ _ he => he, fun _ _ h => h,
    fun _ _ r _ hr hne => ⟨r, hr, hne⟩⟩

theorem shrinks_setNone (i : ℕ) : Shrinks s { s with handles := s.handles.set i none } := by
  have hheld : ∀ e, some e ∈ s.handles.set i none → some e ∈ s.handles := by
    intro e he
    exact (List.mem_or_eq_of_mem_set he).resolve_right nofun
  exact ⟨rfl, hheld, fun e k hl => ⟨k, hl.congr (hheld e) rfl, rfl, rfl⟩, fun _ h => h, fun _ _ _ _ h => h,
    fun _ _ h => h, fun _ _ r _ hr hne => ⟨r, hr, hne⟩⟩

theorem Consistent.close (h : Consistent s log) (i : ℕ) (done : Bool) : Consistent (s.close i done) log := by
  have hheld := (shrinks_setNone (s := s) i).held
  have hset := h.shrinks (shrinks_setNone (s := s) i) (notes_same fun e k hl => hl.congr (hheld e) rfl)
  unfold Server.close
  dsimp only
  split
  · next e x hu =>
    obtain ⟨-, hl⟩ := usable_eq hu
    split
    · next hexp =>
      cases done with
      | false => exact hset
      | true =>
        refine hset.shrinks (shrinks_put fun _ f k hk hsame => ?_) (notes_same fun e k hl => ⟨hl.held, hl.file, hl.connected⟩)
        obtain ⟨k', hk', hd, hf⟩ := (shrinks_setNone (s := s) i).live f k hk
        have hef := h.single f e k' x hk' hl (hd.trans hsame.1) (hf.trans hsame.2)
        subst hef
        exact not_live_of_expired hexp hk
    · exact hset
  · exact hset

-- the name of a live file changes, and the log says so
theorem notes_setOpen {e : ℕ} {x : Underlying} (mark : Opened → Opened) (hlt : e < s.openFiles.length)
    (hpath : ∀ o, (mark o).driveName = o.driveName ∧ (mark o).filePath = o.filePath)
    (hname : x.connected = true → ∀ o, (mark o).renamed = false → x.name = o.filePath) :
    Notes s log (s.setOpen e x) (log.modify e mark) where
  length := List.length_modify ..
  path f o' ho' := by
    rw [List.getElem?_modify] at ho'
    obtain ⟨o, ho, rfl⟩ := Option.map_eq_some_iff.mp ho'
    refine ⟨o, ho, ?_⟩
    split
    · exact hpath o
    · exact ⟨rfl, rfl⟩
  named f k o' hk ho' hr := by
    rw [List.getElem?_modify] at ho'
    obtain ⟨o, ho, rfl⟩ := Option.map_eq_some_iff.mp ho'
    have hget := hk.file
    by_cases hef : e = f
    · subst hef
      rw [Server.setOpen, List.getElem?_set_self hlt] at hget
      obtain rfl := Option.some_inj.mp hget
      rw [if_pos rfl] at hr ⊢
      left
      rw [(hpath o).2]
      exact hname hk.connected o hr
    · rw [Server.setOpen, List.getElem?_set_ne hef] at hget
      rw [if_neg hef]
      exact Or.inr ⟨⟨hk.held, hget, hk.connected⟩, ho⟩

theorem Consistent.renameFile (h : Consistent s log) {i : ℕ} {newName : List UInt8} {doneOther done : Bool}
    (hc : KeepsNames s log (.rename i newName doneOther done)) :
    Consistent (s.renameFile i newName doneOther done) (s.note log (.rename i newName doneOther done)) := by
  obtain ⟨hne, hc⟩ := hc
  unfold Server.renameFile Server.note
  dsimp only
  cases hu : s.usable i with
  | none => exact h
  | some r =>
    obtain ⟨e, x⟩ := r
    obtain ⟨-, hl⟩ := usable_eq hu
    dsimp only
    have hother : ∀ t, (t = s ∨ ∃ j, s.findOn x.drive newName = some j ∧ t = s.put x.drive j []) →
        Consistent ((t.setOpen e { x with name := newName }).flushed { x with name := newName } done)
          (log.modify e fun o => { o with renamed := decide (newName ≠ o.filePath) }) := by
      intro t ht
      have hct : Consistent t log ∧ Live t e x := by
        rcases ht with rfl | ⟨j, hj, rfl⟩
        · exact ⟨h, hl⟩
        · refine ⟨h.shrinks (shrinks_put fun _ f k hk hsame => ?_)
            (notes_same fun e k hl => ⟨hl.held, hl.file, hl.connected⟩), hl.held, hl.file, hl.connected⟩
          refine hc e x hu f k hk hsame.1 ?_
          rw [hj, hsame.2]
      have hset := hct.1.shrinks (shrinks_setOpen { x with name := newName } hct.2 rfl rfl)
        (notes_setOpen (fun o => { o with renamed := decide (newName ≠ o.filePath) }) (hct.1.bound e hct.2.held)
          (fun _ => ⟨rfl, rfl⟩) fun _ o hr => not_not.mp (of_decide_eq_false hr))
      cases done with
      | false => exact hset
      | true =>
        exact hset.shrinks (shrinks_put fun hn => absurd hn hne) (notes_same fun e k hl => ⟨hl.held, hl.file, hl.connected⟩)
    refine hother _ ?_
    split
    · next j hj =>
      cases doneOther with
      | false => exact Or.inl rfl
      | true => exact Or.inr ⟨j, hj, rfl⟩
    · exact Or.inl rfl

theorem Consistent.deleteFile (h : Consistent s log) (i : ℕ) (done : Bool) :
    Consistent (s.deleteFile i done) (s.note log (.delete i done)) := by
  unfold Server.deleteFile Server.note
  dsimp only
  cases hu : s.usable i with
  | none => exact h
  | some r =>
    obtain ⟨e, x⟩ := r
    obtain ⟨-, hl⟩ := usable_eq hu
    dsimp only
    have hset : ∀ connected, Consistent (s.setOpen e { x with name := [], connected := connected })
        (log.modify e fun o => { o with renamed := true }) := fun connected =>
      h.shrinks (shrinks_setOpen _ hl rfl rfl) (notes_setOpen (fun o => { o with renamed := true }) (h.bound e hl.held)
        (fun _ => ⟨rfl, rfl⟩) fun _ _ hr => by cases hr)
    cases done with
    | false => exact hset x.connected
    | true =>
      refine (hset false).shrinks (shrinks_put fun _ f k hk hsame => ?_)
        (notes_same fun e k hl => ⟨hl.held, hl.file, hl.connected⟩)
      obtain ⟨k', hk', hd, hf⟩ := (shrinks_setOpen { x with name := [], connected := false } hl rfl rfl).live f k hk
      have hef := h.single f e k' x hk' hl (hd.trans hsame.1) (hf.trans hsame.2)
      subst hef
      have hget := hk.file
      rw [Server.setOpen, List.getElem?_set_self (h.bound f hl.held)] at hget
      have hc := hk.connected
      rw [← Option.some_inj.mp hget] at hc
      cases hc

end Steps

section Opening

variable {s : Server} {log : List Opened} {driveName filePath : List UInt8} {mode : OpenMode} {room : ℕ → Bool}

-- the key is free, and no drive finds a live file under the name
structure Opens (s : Server) (driveName filePath : List UInt8) : Prop where
  free : ∀ e h, (openKey driveName filePath, e) ∈ s.openTable → ¬ Live s e h
  fresh : ∀ e h, Live s e h → s.driveName h.drive = some driveName → s.findOn h.drive filePath ≠ some h.file

def NamesFile (r : Server × Option ℕ) (driveName filePath : List UInt8) : Prop :=
  ∀ i, r.2 = some i → ∃ e h, r.1.usable i = some (e, h) ∧ h.name = filePath ∧ r.1.driveName h.drive = some driveName

theorem Drive.record_of_prefix {d d' : Drive} {j : ℕ} {r : Record} (h : d.files <+: d'.files) (hj : d.files[j]? = some r) :
    d'.files[j]? = some r := by
  obtain ⟨l, hl⟩ := h
  rw [← hl, List.getElem?_append_left (List.getElem?_eq_some_iff.mp hj).1]
  exact hj

theorem OpensOn.driveName_eq {ds : List Drive} {r : Option (ℕ × ℕ) × List Drive}
    (h : OpensOn driveName filePath 0 ds r) {t t' : Server} (ht : t.drives = ds) (ht' : t'.drives = r.2) {k : ℕ}
    {dn : List UInt8} (hk : t.driveName k = some dn) : t'.driveName k = some dn := by
  unfold Server.driveName at hk ⊢
  rw [ht, Option.map_eq_some_iff] at hk
  obtain ⟨d, hd, rfl⟩ := hk
  obtain ⟨d', hd', hn, -⟩ := h.grown k d hd
  rw [ht', hd', Option.map_some, hn]

theorem OpensOn.record_eq {ds : List Drive} {r : Option (ℕ × ℕ) × List Drive}
    (h : OpensOn driveName filePath 0 ds r) {t t' : Server} (ht : t.drives = ds) (ht' : t'.drives = r.2) {k j : ℕ}
    {x : Record} (hk : t.record k j = some x) : t'.record k j = some x := by
  unfold Server.record at hk ⊢
  rw [ht, Option.bind_eq_some_iff] at hk
  obtain ⟨d, hd, hx⟩ := hk
  obtain ⟨d', hd', -, hp⟩ := h.grown k d hd
  rw [ht', hd']
  exact Drive.record_of_prefix hp hx

theorem Consistent.openFirst (h : Consistent s log) (ho : Opens s driveName filePath) :
    Consistent (s.openFirst driveName filePath mode room).1
        (s.noteOpened (s.openFirst driveName filePath mode room).1 log { driveName := driveName, filePath := filePath }) ∧
      NamesFile (s.openFirst driveName filePath mode room) driveName filePath := by
  have hspec := openOnDrives_spec driveName filePath mode room 0 s.drives
  unfold Server.openFirst
  dsimp only
  split
  · next k j hr =>
    obtain ⟨i, hk, d, d', hd, hd', hname, hfile⟩ := hspec.found k j hr
    obtain rfl : k = i := by omega
    obtain ⟨d'', hd'', hname', hprefix⟩ := hspec.grown k d hd
    obtain rfl : d'' = d' := Option.some_inj.mp (hd''.symm.trans hd')
    set x : Underlying := { drive := k, file := j, name := filePath } with hx
    set t : Server := (Server.newHandle _ s.openFiles.length).1 with ht
    have hdrives : t.drives = (openOnDrives driveName filePath mode room 0 s.drives).2 := rfl
    have htable : t.openTable = (openKey driveName filePath, s.openFiles.length) ::
        (s.eraseOpen (openKey driveName filePath)).openTable := rfl
    have hhandles : t.handles = s.handles ++ [some s.openFiles.length] := rfl
    have hfiles : t.openFiles = s.openFiles ++ [x] := rfl
    have hdriveName : t.driveName k = some driveName := by
      rw [Server.driveName, hdrives, hd', Option.map_some, hname', hname]
    have hlive : ∀ e y, Live t e y → e = s.openFiles.length ∧ y = x ∨ e < s.openFiles.length ∧ Live s e y := by
      intro e y hl
      have hy := hl.file
      rw [hfiles] at hy
      rcases List.mem_append.mp (hhandles ▸ hl.held) with he | he
      · have hlt := h.bound e he
        rw [List.getElem?_append_left hlt] at hy
        exact Or.inr ⟨hlt, he, hy, hl.connected⟩
      · obtain rfl := Option.some_inj.mp (List.mem_singleton.mp he)
        rw [List.getElem?_concat_length] at hy
        exact Or.inl ⟨rfl, (Option.some_inj.mp hy).symm⟩
    have hmem : ∀ key e, (key, e) ∈ t.openTable → key = openKey driveName filePath ∧ e = s.openFiles.length ∨
        key ≠ openKey driveName filePath ∧ (key, e) ∈ s.openTable := by
      intro key e he
      rw [htable] at he
      rcases List.mem_cons.mp he with he | he
      · injection he with h1 h2
        exact Or.inl ⟨h1, h2⟩
      · obtain ⟨h1, h2⟩ := List.mem_filter.mp he
        exact Or.inr ⟨of_decide_eq_true h2, h1⟩
    have hrecord : t.record k j = some (.named filePath) ∨ t.record k j = some .unwritten := by
      rw [Server.record, hdrives, hd']
      rcases hfile with hfind | ⟨-, hnew⟩
      · exact Or.inl (Drive.record_of_prefix hprefix (Drive.find_record hfind))
      · exact Or.inr hnew
    have hapart : ∀ e y, Live s e y → ¬ (y.drive = k ∧ y.file = j) := by
      rintro e y hl ⟨hyd, hyf⟩
      have hn : s.driveName y.drive = some driveName := by
        rw [hyd, Server.driveName, hd, Option.map_some, hname]
      rcases hfile with hfind | ⟨hlen, -⟩
      · refine ho.fresh e y hl hn ?_
        rw [hyd, hyf, Server.findOn, hd]
        exact hfind
      · obtain ⟨r, hrec, -⟩ := h.existing e y hl
        rw [hyd, hyf, Server.record, hd] at hrec
        have hlt := (List.getElem?_eq_some_iff.mp hrec).1
        omega
    have hgrown : t.openFiles.length = s.openFiles.length + 1 := by
      rw [hfiles, List.length_append, List.length_singleton]
    rw [Server.noteOpened, if_neg (by omega)]
    -- the entry of the new OpenFile is the last one
    have hold : ∀ (e : ℕ) (o : Opened), e < s.openFiles.length →
        (log ++ [{ driveName := driveName, filePath := filePath }])[e]? = some o → log[e]? = some o := by
      intro e o hlt ho
      rwa [List.getElem?_append_left (by rw [h.logged]; exact hlt)] at ho
    have hnew : ∀ o : Opened, (log ++ [{ driveName := driveName, filePath := filePath }])[s.openFiles.length]? = some o →
        o = { driveName := driveName, filePath := filePath } := by
      intro o ho
      rw [← h.logged, List.getElem?_concat_length] at ho
      exact (Option.some_inj.mp ho).symm
    refine ⟨⟨?_, fun e he => ?_, fun key e he => ?_, fun key e f he hf => ?_, fun e y o hl hentry => ?_,
      fun e y o hl hentry hr => ?_, fun e y hl => ?_, fun e f y z hy hz hyd hyf => ?_⟩, fun i hi => ?_⟩
    · rw [hgrown, List.length_append, List.length_singleton, h.logged]
    · rw [hfiles, List.length_append, List.length_singleton]
      rcases List.mem_append.mp (hhandles ▸ he) with he | he
      · exact Nat.lt_succ_of_lt (h.bound e he)
      · obtain rfl := Option.some_inj.mp (List.mem_singleton.mp he)
        exact Nat.lt_succ_self _
    · rw [hfiles, List.length_append, List.length_singleton]
      rcases hmem key e he with ⟨-, rfl⟩ | ⟨-, he⟩
      · exact Nat.lt_succ_self _
      · exact Nat.lt_succ_of_lt (h.tableBound key e he)
    · rcases hmem key e he with ⟨h1, rfl⟩ | ⟨h1, he⟩
      · rcases hmem key f hf with ⟨-, rfl⟩ | ⟨h2, -⟩
        · rfl
        · exact absurd h1 h2
      · rcases hmem key f hf with ⟨h2, -⟩ | ⟨-, hf⟩
        · exact absurd h2 h1
        · exact h.keys key e f he hf
    · rcases hlive e y hl with ⟨rfl, rfl⟩ | ⟨hlt, hl⟩
      · obtain rfl := hnew o hentry
        refine ⟨hdriveName, htable ▸ List.mem_cons_self, fun key hkey => ?_⟩
        rcases hmem key _ hkey with ⟨h1, -⟩ | ⟨-, he⟩
        · exact h1
        · exact absurd (h.tableBound key _ he) (lt_irrefl _)
      · obtain ⟨h1, h2, h3⟩ := h.tracked e y o hl (hold e o hlt hentry)
        refine ⟨hspec.driveName_eq rfl hdrives h1, ?_, fun key hkey => ?_⟩
        · rw [htable]
          refine List.mem_cons_of_mem _ (List.mem_filter.mpr ⟨h2, decide_eq_true fun hkey => ?_⟩)
          dsimp only at hkey
          rw [hkey] at h2
          exact ho.free e y h2 hl
        · rcases hmem key e hkey with ⟨-, he⟩ | ⟨-, he⟩
          · omega
          · exact h3 key he
    · rcases hlive e y hl with ⟨rfl, rfl⟩ | ⟨hlt, hl⟩
      · obtain rfl := hnew o hentry
        rfl
      · exact h.named e y o hl (hold e o hlt hentry) hr
    · rcases hlive e y hl with ⟨rfl, rfl⟩ | ⟨-, hl⟩
      · rcases hrecord with hrec | hrec
        · exact ⟨_, hrec, nofun⟩
        · exact ⟨_, hrec, nofun⟩
      · obtain ⟨r, hrec, hne⟩ := h.existing e y hl
        exact ⟨r, hspec.record_eq rfl hdrives hrec, hne⟩
    · rcases hlive e y hy with ⟨rfl, rfl⟩ | ⟨-, hy⟩
      · rcases hlive f z hz with ⟨rfl, rfl⟩ | ⟨-, hz⟩
        · rfl
        · exact absurd ⟨hyd.symm, hyf.symm⟩ (hapart f z hz)
      · rcases hlive f z hz with ⟨rfl, rfl⟩ | ⟨-, hz⟩
        · exact absurd ⟨hyd, hyf⟩ (hapart e y hy)
        · exact h.single e f y z hy hz hyd hyf
    · obtain rfl := Option.some_inj.mp hi
      refine ⟨s.openFiles.length, x, usable_of_live ?_ ⟨?_, ?_, rfl⟩, rfl, hdriveName⟩
      · rw [hhandles, List.getElem?_concat_length]
      · rw [hhandles]
        exact List.mem_append_right _ (List.mem_singleton_self _)
      · rw [hfiles, List.getElem?_concat_length]
  · rw [Server.noteOpened, if_pos rfl]
    refine ⟨h.shrinks ⟨rfl, fun _ he => he, fun e k hl => ⟨k, ⟨hl.held, hl.file, hl.connected⟩, rfl, rfl⟩,
      fun _ he => he, fun _ _ _ _ he => he, fun k dn hk => hspec.driveName_eq rfl rfl hk,
      fun e k r _ hr hne => ⟨r, hspec.record_eq rfl rfl hr, hne⟩⟩
      (notes_same fun e k hl => ⟨hl.held, hl.file, hl.connected⟩), nofun⟩

theorem findOpen_eq_some {key : List UInt8} {e : ℕ} (h : s.findOpen key = some e) : (key, e) ∈ s.openTable := by
  obtain ⟨entry, he, rfl⟩ := Option.map_eq_some_iff.mp h
  have hkey := List.find?_some he
  rw [decide_eq_true_eq] at hkey
  rw [← hkey]
  exact List.mem_of_find?_eq_some he

theorem findOpen_eq_none {key : List UInt8} (h : s.findOpen key = none) (e : ℕ) : (key, e) ∉ s.openTable := by
  intro he
  have hnone := List.find?_eq_none.mp (Option.map_eq_none_iff.mp h) _ he
  exact hnone (decide_eq_true rfl)

theorem openPath_eq {path : List UInt8} (hp : parseDriveName path = (driveName, filePath)) :
    s.openPath path mode room =
      match s.findOpen (openKey driveName filePath) with
      | some e =>
        if s.expired e = false ∧ s.connected e = true then s.newHandle e
        else (s.eraseOpen (openKey driveName filePath)).openFirst driveName filePath mode room
      | none => s.openFirst driveName filePath mode room := by
  rw [Server.openPath, hp]

theorem Consistent.openPath (h : Consistent s log) {path : List UInt8} (hc : KeepsNames s log (.open path mode room)) :
    Consistent (s.openPath path mode room).1 (s.note log (.open path mode room)) ∧ OpensNamed s path mode room := by
  obtain ⟨driveName, filePath, hp⟩ : ∃ driveName filePath, parseDriveName path = (driveName, filePath) := ⟨_, _, rfl⟩
  simp only [KeepsNames, hp] at hc
  obtain ⟨hkept, hfound⟩ := hc
  have hnote : s.note log (.open path mode room) =
      s.noteOpened (s.openPath path mode room).1 log { driveName := driveName, filePath := filePath } := by
    rw [Server.note, hp]
  unfold OpensNamed
  rw [hnote, hp, openPath_eq hp]
  dsimp only
  split
  · next e he =>
    have hin := findOpen_eq_some he
    split
    · next hlive =>
      obtain ⟨hexp, hconn⟩ := hlive
      obtain ⟨y, hy, hyc⟩ := (Option.any_eq_true _ _).mp hconn
      have hheld : some e ∈ s.handles := by simpa [Server.expired] using hexp
      have hl : Live s e y := ⟨hheld, hy, hyc⟩
      have hsh := shrinks_newHandle hexp
      obtain ⟨o, ho⟩ := h.entry hl
      obtain ⟨hdrive, -, honly⟩ := h.tracked e y o hl ho
      obtain ⟨hown, hr⟩ := hkept o ⟨e, y, hl, ho, (honly _ hin).symm⟩
      have hname : y.name = filePath := by
        have hkey : openKey o.driveName o.filePath = openKey driveName filePath := (honly _ hin).symm
        rw [hown] at hkey
        rw [h.named e y o hl ho hr, openKey_inj hkey]
      have hlength : (s.newHandle e).1.openFiles.length = s.openFiles.length := rfl
      rw [Server.noteOpened, if_pos hlength]
      refine ⟨h.shrinks hsh (notes_same fun f k hk => hk.congr (hsh.held f) rfl), fun i hi => ?_⟩
      obtain rfl := Option.some_inj.mp hi
      refine ⟨e, y, usable_of_live ?_ ⟨?_, hy, hyc⟩, hname, hsh.driveName _ _ (hown ▸ hdrive)⟩
      · exact List.getElem?_concat_length
      · exact List.mem_append_right _ (List.mem_singleton_self _)
    · next hdead =>
      have hfree : ∀ f y, (openKey driveName filePath, f) ∈ s.openTable → ¬ Live s f y := by
        intro f y hf hl
        obtain rfl := h.keys _ _ _ hf hin
        refine hdead ⟨?_, ?_⟩
        · by_contra hexp
          exact not_live_of_expired (Bool.eq_true_of_not_eq_false hexp) hl
        · rw [Server.connected, hl.file]
          exact hl.connected
      have hsame : ∀ f y, Live (s.eraseOpen (openKey driveName filePath)) f y → Live s f y :=
        fun f y hl => ⟨hl.held, hl.file, hl.connected⟩
      refine (h.shrinks (shrinks_erase hfree) (notes_same hsame)).openFirst ⟨fun f y hf hl => ?_, fun f y hl hn => ?_⟩
      · exact hfree f y (List.mem_filter.mp hf).1 (hsame f y hl)
      · apply hfound _ f y (hsame f y hl) hn
        rintro o ⟨f', y', hl', ho', hkey⟩
        exact hfree f' y' (hkey ▸ (h.tracked f' y' o hl' ho').2.1) hl'
  · next hnone =>
    refine h.openFirst ⟨fun e y he => absurd he (findOpen_eq_none hnone e), fun e y hl hn => hfound ?_ e y hl hn⟩
    rintro o ⟨f', y', hl', ho', hkey⟩
    exact findOpen_eq_none hnone f' (hkey ▸ (h.tracked f' y' o hl' ho').2.1)

theorem Consistent.step (h : Consistent s log) {op : Op} (hc : KeepsNames s log op) : Consistent (s.step op) (s.note log op) := by
  cases op with
  | «open» path mode room => exact (h.openPath hc).1
  | close i done => exact h.close i done
  | rename i newName doneOther done => exact h.renameFile hc
  | delete i done => exact h.deleteFile i done
  | cleanup => exact h.shrinks shrinks_cleanup (notes_same fun e k hl => ⟨hl.held, hl.file, hl.connected⟩)

end Opening

theorem Reaches.run {ok : Server → List Opened → Op → Prop} {s t : Server} {log : List Opened} (h : Reaches ok s t log)
    (op : Op) (hc : ok t log op) : Reaches ok s (t.step op) (t.note log op) := h.step hc

end SimpleFlashFs.Vfs
