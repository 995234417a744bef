import SimpleFlashFs.Lib.Threads
import SimpleFlashFs.Dynamic

namespace SimpleFlashFs

open Lib

-- what a lock of the source makes atomic, and the single accesses that take no lock
inductive Section : Type → Type
  | header : Section Header
  | canMapRead : Section Bool
  | variant : Section Variant
  | read (mapped : Bool) (i : ℕ) : Section ReadPageReturn
  | lockMeta : Section Unit
  | unlockMeta : Section Unit
  | clearIv : Section Unit
  | addIv (file : FileHandle) : Section AddRet
  | ivStorage : Section (List InodeVersion)
  | claim : Section (Option ℕ)
  | number : Section ℕ
  | takeData : Section (Option ℕ)
  | write (hd : Header) (page : ℕ) (data : List UInt8) : Section Bool
  | writeInode (page : ℕ) (data : List UInt8) : Section Bool
  | erase (page : ℕ) : Section Unit
  | giveBack (page : ℕ) : Section Unit
  | unreserve (page : ℕ) : Section Unit
  | fault (e : Fault) : Section Empty

section Sections

variable [Config]

def sec {β : Type} : Section β → FsM β
  | .header => do
    let s ← get
    pure s.header
  | .canMapRead => do
    let s ← get
    pure s.mem.canMapRead
  | .variant => do
    let s ← get
    pure s.variant
  | .read mapped i => do
    let s ← get
    pure (if mapped then readPageMapped s i true else readPage s i true)
  | .lockMeta => pure ()
  | .unlockMeta => pure ()
  | .clearIv => clearIvStorage
  | .addIv file => addIvStorage file
  | .ivStorage => do
    let s ← get
    pure s.ivStorage
  | .claim => allocateFreeInodePageNumber
  | .number => do
    let s ← get
    let number := (s.maxInodeNumber + 1) % 2 ^ 64
    set { s with maxInodeNumber := number }
    pure number
  | .takeData => allocateFreeDataPageBase
  | .write hd page data => perform (.write (writeAddress hd page) data)
  | .writeInode page data => writeMetaPage data page
  | .erase page => do
    let s ← get
    let _ ← perform (.erase (writeAddress s.header page) s.header.pageSize)
    pure ()
  | .giveBack page => modify fun s => { s with freeDataPages := s.freeDataPages.insert page }
  | .unreserve page => freeUnwrittenPages page
  | .fault e => throw e

end Sections

abbrev FsT := Prog Section

def liftT {α : Type} : Except Fault α → FsT α
  | .ok a => pure a
  | .error e => .act (.fault e) fun x => nomatch x

def writePageT (file : FileHandle) (page : List UInt8) (idx : ℕ) : FsT (Bool × FileHandle) := do
  let hd ← Prog.one .header
  match file.inode.dataPages[idx]? with
  | none => liftT (.error .thrown)
  | some meta_ =>
    if meta_.state = .new then do
      let done ← Prog.one (.write hd meta_.pageId page)
      if done then
        pure (true, file.setPages (file.inode.dataPages.set idx { meta_ with state := .stored }))
      else pure (false, file)
    else do
      let newPage ← Prog.one .takeData
      match newPage with
      | none => pure (false, file)
      | some newPage =>
        let done ← Prog.one (.write hd newPage page)
        if done then
          pure (true, file.setPages (replacePage meta_.pageId newPage file.inode.dataPages))
        else pure (false, file)

def writeZeroPagesFromT : ℕ → ℕ → FileHandle → FsT (Bool × FileHandle)
  | 0, _, file => pure (true, file)
  | left + 1, idx, file => do
    let hd ← Prog.one .header
    match file.inode.dataPages[idx]? with
    | none => pure (true, file)
    | some p =>
      if p.state = .new then do
        let r ← writePageT file (List.replicate hd.pageSize 0) idx
        if r.1 then writeZeroPagesFromT left (idx + 1) r.2 else pure r
      else writeZeroPagesFromT left (idx + 1) file

def writeZeroPagesT (file : FileHandle) : FsT (Bool × FileHandle) :=
  writeZeroPagesFromT file.inode.dataPages.length 0 file

def eraseDataPageT (page : ℕ) : FsT Unit := do
  let hd ← Prog.one .header
  Prog.one (.erase page)
  if page > hd.maxInodes then Prog.one (.giveBack page) else Prog.one (.unreserve page)

def eraseInodeAndUnusedPagesT (inodeToErase nextInodeVersion : FileHandle) : FsT FileHandle := do
  let variant ← Prog.one .variant
  match variant with
  | .noDel => pure inodeToErase
  | _ => do
    Prog.each eraseDataPageT (pagesToErase inodeToErase nextInodeVersion)
    pure { inodeToErase with modified := false }

section Programs

variable [Config]

def flushNewT (file : FileHandle) : FsT (Bool × FileHandle) := do
  let hd ← Prog.one .header
  let number ← Prog.one .number
  let r ← writeZeroPagesT (file.numbered number)
  let file := r.2
  let page ← liftT (inode2page hd file.inode)
  let done ← Prog.one (.writeInode file.page (addPageChecksum hd.endianness page))
  if done then pure (true, { file with modified := false }) else pure (false, file)

def flushNextVersionT (file : FileHandle) : FsT (Bool × FileHandle) := do
  let oldFile := { file with connected := false }
  let page ← Prog.one .claim
  match page with
  | none => pure (false, file)
  | some newPage => do
    let hd ← Prog.one .header
    let file := file.nextVersion newPage
    let page ← liftT (inode2page hd file.inode)
    let r ← writeZeroPagesT file
    let file := r.2
    let done ← Prog.one (.writeInode file.page (addPageChecksum hd.endianness page))
    if done then do
      let file := { file with modified := false }
      let _ ← eraseInodeAndUnusedPagesT oldFile file
      pure (true, file)
    else pure (false, file)

def flushT (file : FileHandle) : FsT (Bool × FileHandle) :=
  if ¬ file.connected then liftT (.error .undefined)
  else if ¬ file.modified then pure (true, file)
  else if file.inode.inodeNumber = 0 then flushNewT file
  else flushNextVersionT file

def closeT (file : FileHandle) : FsT Unit :=
  if file.connected then do
    let r ← flushT file
    Prog.one (.unreserve r.2.page)
    Prog.each (fun p => Prog.one (.unreserve p.pageId)) r.2.inode.dataPages
  else pure ()

def getInodeT (page : List UInt8) (doErrorCorrections : Bool := true) : FsT FileHandle := do
  let hd ← Prog.one .header
  liftT (decodeInode hd page doErrorCorrections)

def recordInodePageT (mapped : Bool) (i : ℕ) : FsT Unit := do
  let ret ← Prog.one (.read mapped i)
  if ret.error = none then do
    let file ← getInodeT ret.page false
    let file := { file with page := i }
    let _ ← Prog.one (.addIv file)
    closeT file
  else pure ()

def findVersionT (mapped : Bool) (name : List UInt8) : List InodeVersion → FsT FileHandle
  | [] => pure {}
  | iv :: rest => do
    let ret ← Prog.one (.read mapped iv.page)
    if ret.error = none then do
      let file ← getInodeT ret.page
      let file := { file with page := iv.page }
      if file.inode.fileName = [] then do
        closeT file
        findVersionT mapped name rest
      else if file.inode.fileName = name then pure file
      else do
        closeT file
        findVersionT mapped name rest
    else findVersionT mapped name rest

-- m_inode_meta_mutex is held for the whole function
def findFileT (name : List UInt8) : FsT FileHandle := do
  let mapped ← Prog.one .canMapRead
  Prog.one .lockMeta
  Prog.one .clearIv
  let hd ← Prog.one .header
  Prog.each (recordInodePageT mapped) (List.range hd.maxInodes)
  let versions ← Prog.one .ivStorage
  let file ← findVersionT mapped name versions
  Prog.one .unlockMeta
  pure file

def openNewT (name : List UInt8) (mode : OpenMode) : FsT FileHandle := do
  let page ← Prog.one .claim
  let hd ← Prog.one .header
  let handle := FileHandle.ofPage page
  if ¬ handle.connected then pure {}
  else if name.length > hd.maxPathLen then do
    closeT handle
    pure {}
  else
    let handle := { handle with
      inode := { handle.inode with fileName := name, fileNameLen := name.length % 2 ^ 16 },
      modified := true }
    pure (handleAppendMode mode handle)

def openTruncT (handle : FileHandle) : FsT FileHandle := do
  let page ← Prog.one .claim
  let newHandle := FileHandle.ofPage page
  if ¬ newHandle.connected then do
    closeT handle
    pure {}
  else do
    closeT handle
    pure { newHandle with
      inode := { handle.inode with fileLen := 0, pages := 0, dataPages := [], inodeData := [] } }

def openFileT (name : List UInt8) (mode : OpenMode) : FsT FileHandle := do
  let handle ← findFileT name
  if ¬ handle.connected then
    if ¬ mode.out ∧ ¬ mode.app then pure {} else openNewT name mode
  else if mode.trunc then openTruncT handle
  else pure (handleAppendMode mode handle)

def collectAllInodesT : List ℕ → List FileHandle → FsT (List FileHandle)
  | [], files => pure files
  | i :: rest, files => do
    let ret ← Prog.one (.read false i)
    if ret.error = none then do
      let file ← getInodeT ret.page
      collectAllInodesT rest (files ++ [{ file with page := i }])
    else collectAllInodesT rest files

-- list_files: the handles live until all of them are read
def listFilesT : FsT Unit := do
  let hd ← Prog.one .header
  let files ← collectAllInodesT (List.range hd.maxInodes) []
  Prog.each closeT files

section Alone

theorem alone_liftT {α : Type} (x : Except Fault α) : (liftT x).alone sec = liftFault x := by
  cases x with
  | ok a => rfl
  | error e => rfl

theorem alone_each {α : Type} {m : α → FsT PUnit} {n : α → FsM PUnit} (h : ∀ a, (m a).alone sec = n a)
    (l : List α) : (Prog.each m l).alone sec = each n l := by
  induction l with
  | nil => rfl
  | cons a l ih => rw [Prog.each, Prog.alone_bind, h, ih, each]

theorem alone_writePageT (file : FileHandle) (page : List UInt8) (idx : ℕ) :
    (writePageT file page idx).alone sec = writePage file page idx := by
  funext s
  rw [writePageT, writePage, Prog.alone_bind]
  cases file.inode.dataPages[idx]? with
  | none => rfl
  | some meta_ =>
    by_cases hs : meta_.state = .new
    · simp only [hs, if_true, Prog.alone_bind, Prog.alone_one, Prog.alone_ite, Prog.alone_pure]
      rfl
    · simp only [hs, if_false, Prog.alone_bind, Prog.alone_one]
      refine congrFun (congrArg (allocateFreeDataPageBase >>= ·) ?_) s
      funext newPage
      cases newPage with
      | none => rfl
      | some newPage =>
        simp only [Prog.alone_bind, Prog.alone_one, Prog.alone_ite, Prog.alone_pure]
        rfl

theorem alone_writeZeroPagesFromT (left idx : ℕ) (file : FileHandle) :
    (writeZeroPagesFromT left idx file).alone sec = writeZeroPagesFrom left idx file := by
  induction left generalizing idx file with
  | zero => rfl
  | succ left ih =>
    funext s
    rw [writeZeroPagesFromT, writeZeroPagesFrom, Prog.alone_bind]
    cases file.inode.dataPages[idx]? with
    | none => rfl
    | some p =>
      simp only [Prog.alone_ite, Prog.alone_bind, Prog.alone_one, alone_writePageT, Prog.alone_pure, ih]
      rfl

theorem alone_writeZeroPagesT (file : FileHandle) : (writeZeroPagesT file).alone sec = writeZeroPages file :=
  alone_writeZeroPagesFromT _ _ _

theorem alone_eraseDataPageT (page : ℕ) : (eraseDataPageT page).alone sec = eraseDataPage page := by
  funext s
  simp only [eraseDataPageT, Prog.alone_bind, Prog.alone_one, Prog.alone_ite, sec, bind_assoc, pure_bind]
  rfl

theorem alone_eraseInodeAndUnusedPagesT (old next : FileHandle) :
    (eraseInodeAndUnusedPagesT old next).alone sec = eraseInodeAndUnusedPages old next := by
  simp only [eraseInodeAndUnusedPagesT, eraseInodeAndUnusedPages, Prog.alone_bind, Prog.alone_one, sec, bind_assoc,
    pure_bind]
  refine congrArg (get >>= ·) (funext fun s => ?_)
  cases s.variant with
  | noDel => rfl
  | dynamic => simp only [Prog.alone_bind, alone_each alone_eraseDataPageT, Prog.alone_pure]; rfl
  | fram => simp only [Prog.alone_bind, alone_each alone_eraseDataPageT, Prog.alone_pure]; rfl

theorem alone_flushNewT (file : FileHandle) : (flushNewT file).alone sec = flushNew file := by
  funext s
  simp only [flushNewT, Prog.alone_bind, Prog.alone_one, Prog.alone_ite, Prog.alone_pure, alone_writeZeroPagesT,
    alone_liftT]
  rfl

theorem alone_flushNextVersionT (file : FileHandle) :
    (flushNextVersionT file).alone sec = flushNextVersion file := by
  simp only [flushNextVersionT, flushNextVersion, Prog.alone_bind, Prog.alone_one]
  refine congrArg (allocateFreeInodePageNumber >>= ·) ?_
  funext page s
  cases page with
  | none => rfl
  | some newPage =>
    simp only [Prog.alone_bind, Prog.alone_one, Prog.alone_ite, Prog.alone_pure, alone_writeZeroPagesT, alone_liftT,
      alone_eraseInodeAndUnusedPagesT]
    rfl

-- a flush that is not interrupted is the flush of the sequential model
theorem alone_flushT (file : FileHandle) : (flushT file).alone sec = flush file := by
  simp only [flushT, flush, Prog.alone_ite, alone_liftT, Prog.alone_pure, alone_flushNewT, alone_flushNextVersionT]
  rfl

theorem alone_closeT (file : FileHandle) : (closeT file).alone sec = closeHandle file := by
  simp only [closeT, closeHandle, Prog.alone_ite, Prog.alone_bind, alone_flushT, Prog.alone_one, Prog.alone_pure,
    alone_each (m := fun p : DataPage => Prog.one (.unreserve p.pageId)) (n := fun p => freeUnwrittenPages p.pageId)
      fun p => Prog.alone_one sec _]
  rfl

theorem alone_recordInodePageT (mapped : Bool) (i : ℕ) : (recordInodePageT mapped i).alone sec =
    recordInodePage (if mapped then (readPageMapped · · true) else (readPage · · true)) i := by
  funext s
  simp only [recordInodePageT, getInodeT, Prog.alone_bind, Prog.alone_one, Prog.alone_ite, Prog.alone_pure, alone_liftT,
    alone_closeT]
  cases mapped <;> rfl

theorem alone_findVersionT (mapped : Bool) (name : List UInt8) (l : List InodeVersion) :
    (findVersionT mapped name l).alone sec =
      findVersion (if mapped then (readPageMapped · · true) else (readPage · · true)) name l := by
  induction l with
  | nil => rfl
  | cons iv rest ih =>
    funext s
    simp only [findVersionT, getInodeT, Prog.alone_bind, Prog.alone_one, Prog.alone_ite, Prog.alone_pure, alone_liftT,
      alone_closeT, ih]
    cases mapped <;> rfl

theorem alone_findFileT (name : List UInt8) : (findFileT name).alone sec = findFile name := by
  simp only [findFileT, Prog.alone_bind, Prog.alone_one, Prog.alone_pure, alone_each (alone_recordInodePageT _),
    alone_findVersionT, sec, bind_assoc, pure_bind, bind_pure]
  refine congrArg (get >>= ·) (funext fun s => ?_)
  cases s.mem.canMapRead <;> rfl

theorem alone_allocate : (FileHandle.ofPage <$> allocateFreeInodePageNumber : FsM FileHandle) = allocateFreeInodePage := by
  funext s
  simp only [allocateFreeInodePageNumber, allocateFreeInodePage, allocateFreeInodePageNumberMapped,
    allocateFreeInodePageNumberUnmapped, allocateFreeInodePageMapped, allocateFreeInodePageUnmapped, map_bind]
  change (FileHandle.ofPage <$> (if s.mem.canMapRead = true then _ else _) : FsM FileHandle) s =
    (if s.mem.canMapRead = true then _ else _ : FsM FileHandle) s
  split <;> rw [map_bind]

theorem alone_openFileT (name : List UInt8) (mode : OpenMode) :
    (openFileT name mode).alone sec = openFile name mode := by
  have hnew : (openNewT name mode).alone sec = openNew name mode := by
    rw [openNew, ← alone_allocate, bind_map_left]
    simp only [openNewT, Prog.alone_bind, Prog.alone_one, Prog.alone_ite, Prog.alone_pure, alone_closeT]
    rfl
  have htrunc : ∀ handle, (openTruncT handle).alone sec = openTrunc handle := by
    intro handle
    rw [openTrunc, ← alone_allocate, bind_map_left]
    simp only [openTruncT, Prog.alone_bind, Prog.alone_one, Prog.alone_ite, Prog.alone_pure, alone_closeT]
    rfl
  simp only [openFileT, openFile, Prog.alone_bind, Prog.alone_ite, Prog.alone_pure, alone_findFileT, hnew, htrunc]

theorem alone_collectAllInodesT (l : List ℕ) (files : List FileHandle) :
    (collectAllInodesT l files).alone sec = collectAllInodes true l files := by
  induction l generalizing files with
  | nil => rfl
  | cons i rest ih =>
    funext s
    simp only [collectAllInodesT, getInodeT, Prog.alone_bind, Prog.alone_one, Prog.alone_ite, alone_liftT, ih]
    rfl

theorem alone_listFilesT : listFilesT.alone sec = getAllInodes >>= each closeHandle := by
  funext s
  simp only [listFilesT, Prog.alone_bind, Prog.alone_one, alone_collectAllInodesT, alone_each alone_closeT]
  rfl

end Alone

end Programs

-- what a thread may rely on, the header it has read and nothing else
structure Plain {σ G : Type} (hd : Header) (M : Machine Section σ G) (D : Discipline Section G) : Prop where
  header : ∀ g, D.pre .header g ∧ ∀ h, D.post .header g h → h = hd ∧ M.note .header h g = g
  takeData : ∀ g, D.pre .takeData g ∧ ∀ b, M.note .takeData b g = g
  write : ∀ page data g, D.pre (.write hd page data) g ∧ ∀ b, M.note (.write hd page data) b g = g
  fault : ∀ e g, D.pre (.fault e) g

-- a call that leaves the notes, and the identity of the file
structure Unmoved {G : Type} (file : FileHandle) (g : G) (file' : FileHandle) (g' : G) : Prop where
  note : g' = g
  page : file'.page = file.page
  number : file'.inode.inodeNumber = file.inode.inodeNumber
  version : file'.inode.inodeVersionNumber = file.inode.inodeVersionNumber
  name : file'.inode.fileName = file.inode.fileName
  nameLen : file'.inode.fileNameLen = file.inode.fileNameLen
  connected : file'.connected = file.connected

section Plain

variable {σ G : Type} {hd : Header} {M : Machine Section σ G} {D : Discipline Section G} {g : G} {file : FileHandle}

theorem Unmoved.refl (file : FileHandle) (g : G) : Unmoved file g file g := ⟨rfl, rfl, rfl, rfl, rfl, rfl, rfl⟩

theorem Unmoved.trans {file1 file2 : FileHandle} {g1 g2 : G} (a : Unmoved file g file1 g1)
    (b : Unmoved file1 g1 file2 g2) : Unmoved file g file2 g2 :=
  ⟨b.1.trans a.1, b.2.trans a.2, b.3.trans a.3, b.4.trans a.4, b.5.trans a.5, b.6.trans a.6, b.7.trans a.7⟩

theorem Plain.keeps_liftT (pl : Plain hd M D) {α : Type} {x : Except Fault α} {Q : α → G → Prop}
    (h : ∀ a, x = .ok a → Q a g) : (liftT x).Keeps M D Q g := by
  cases x with
  | ok a => exact h a rfl
  | error e => exact ⟨pl.fault e g, fun b => nomatch b⟩

theorem Plain.keeps_header (pl : Plain hd M D) :
    (Prog.one .header).Keeps M D (fun h g' => h = hd ∧ g' = g) g :=
  ⟨(pl.header g).1, fun h hh => (pl.header g).2 h hh⟩

theorem Plain.keeps_write (pl : Plain hd M D) (page : ℕ) (data : List UInt8) :
    (Prog.one (.write hd page data)).Keeps M D (fun _ g' => g' = g) g :=
  ⟨(pl.write page data g).1, fun b _ => (pl.write page data g).2 b⟩

theorem Plain.keeps_writePageT (pl : Plain hd M D) (data : List UInt8) (idx : ℕ) :
    (writePageT file data idx).Keeps M D (fun r g' => Unmoved file g r.2 g') g := by
  apply pl.keeps_header.bind
  rintro h g' ⟨rfl, rfl⟩
  cases file.inode.dataPages[idx]? with
  | none => exact pl.keeps_liftT fun a ha => nomatch ha
  | some m =>
    dsimp only
    split
    · apply (pl.keeps_write _ _).bind
      rintro done g' rfl
      cases done
      · exact Unmoved.refl file g'
      · exact ⟨rfl, rfl, rfl, rfl, rfl, rfl, rfl⟩
    · refine ⟨(pl.takeData _).1, fun newPage _ => ?_⟩
      rw [(pl.takeData _).2]
      cases newPage with
      | none => exact Unmoved.refl file _
      | some newPage =>
        apply (pl.keeps_write _ _).bind
        rintro done g' rfl
        cases done
        · exact Unmoved.refl file g'
        · exact ⟨rfl, rfl, rfl, rfl, rfl, rfl, rfl⟩

theorem Plain.keeps_writeZeroPagesFromT (pl : Plain hd M D) (left idx : ℕ) :
    (writeZeroPagesFromT left idx file).Keeps M D (fun r g' => Unmoved file g r.2 g') g := by
  induction left generalizing file idx g with
  | zero => exact Unmoved.refl file g
  | succ left ih =>
    apply pl.keeps_header.bind
    rintro h g' ⟨rfl, rfl⟩
    cases file.inode.dataPages[idx]? with
    | none => exact Unmoved.refl file _
    | some m =>
      dsimp only
      split
      · apply (pl.keeps_writePageT _ idx).bind
        intro r g' hr
        split
        · apply (ih (idx + 1)).mono
          exact fun r' l h => hr.trans h
        · exact hr
      · exact ih (idx + 1)

theorem Plain.keeps_writeZeroPagesT (pl : Plain hd M D) :
    (writeZeroPagesT file).Keeps M D (fun r g' => Unmoved file g r.2 g') g := pl.keeps_writeZeroPagesFromT _ _

end Plain

end SimpleFlashFs
