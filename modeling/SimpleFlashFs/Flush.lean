import SimpleFlashFs.Alloc

namespace SimpleFlashFs

open Lib

def FileHandle.setPages (file : FileHandle) (dataPages : List DataPage) : FileHandle :=
  { file with inode := { file.inode with dataPages := dataPages } }

-- the loop of write_page that replaces the first entry with the old page number
def replacePage (oldPage newPage : ℕ) : List DataPage → List DataPage
  | [] => []
  | p :: rest =>
    if p.pageId = oldPage then ⟨newPage, .stored⟩ :: rest else p :: replacePage oldPage newPage rest

-- page_meta is a reference to the entry `idx` of the data pages of the file
def writePage (file : FileHandle) (page : List UInt8) (idx : ℕ) : FsM (Bool × FileHandle) := do
  let s ← get
  match file.inode.dataPages[idx]? with
  | none => throw .thrown
  | some meta_ =>
    if meta_.state = .new then
      let done ← perform (.write (writeAddress s.header meta_.pageId) page)
      if done then
        pure (true, file.setPages (file.inode.dataPages.set idx { meta_ with state := .stored }))
      else pure (false, file)
    else
      let newPage ← allocateFreeDataPageBase
      match newPage with
      | none => pure (false, file)
      | some newPage =>
        let done ← perform (.write (writeAddress s.header newPage) page)
        if done then
          pure (true, file.setPages (replacePage meta_.pageId newPage file.inode.dataPages))
        else pure (false, file)

def writeMetaPage (page : List UInt8) (idx : ℕ) : FsM Bool := do
  let s ← get
  perform (.write (writeAddress s.header idx) page)

-- the iteration over the entries from `idx` on
def writeZeroPagesFrom : ℕ → ℕ → FileHandle → FsM (Bool × FileHandle)
  | 0, _, file => pure (true, file)
  | left + 1, idx, file => do
    let s ← get
    match file.inode.dataPages[idx]? with
    | none => pure (true, file)
    | some p =>
      if p.state = .new then
        let r ← writePage file (List.replicate s.header.pageSize 0) idx
        if r.1 then writeZeroPagesFrom left (idx + 1) r.2 else pure r
      else writeZeroPagesFrom left (idx + 1) file

def writeZeroPages (file : FileHandle) : FsM (Bool × FileHandle) :=
  writeZeroPagesFrom file.inode.dataPages.length 0 file

def eraseDataPage (page : ℕ) : FsM Unit := do
  let s ← get
  let _ ← perform (.erase (writeAddress s.header page) s.header.pageSize)
  if page > s.header.maxInodes then
    modify fun s => { s with freeDataPages := s.freeDataPages.insert page }
  else freeUnwrittenPages page

def pagesToErase (inodeToErase nextInodeVersion : FileHandle) : List ℕ :=
  let pages := inodeToErase.inode.dataPages.foldl (fun s p => s.unorderedInsert p.pageId) ({} : PageSet)
  let pages := nextInodeVersion.inode.dataPages.foldl (fun s p => (s.erase p.pageId).1) pages
  (pages.insert inodeToErase.page).getData.2

def eraseInodeAndUnusedPagesBase (inodeToErase nextInodeVersion : FileHandle) : FsM FileHandle := do
  each eraseDataPage (pagesToErase inodeToErase nextInodeVersion)
  pure { inodeToErase with modified := false }

-- virtual
def eraseInodeAndUnusedPages (inodeToErase nextInodeVersion : FileHandle) : FsM FileHandle := do
  let s ← get
  match s.variant with
  | .noDel => pure inodeToErase
  | _ => eraseInodeAndUnusedPagesBase inodeToErase nextInodeVersion

def FileHandle.stripDeleted (file : FileHandle) : FileHandle :=
  file.setPages (file.inode.dataPages.filter (·.state ≠ .deleted))

def FileHandle.numbered (file : FileHandle) (number : ℕ) : FileHandle :=
  { file with inode := { file.inode with inodeNumber := number } }

def FileHandle.nextVersion (file : FileHandle) (page : ℕ) : FileHandle :=
  { file with
    page := page
    inode := { file.inode with
      inodeVersionNumber := (file.inode.inodeVersionNumber + 1) % 2 ^ 64 } }.stripDeleted

section Flush

variable [Config]

def flushNew (file : FileHandle) : FsM (Bool × FileHandle) := do
  let s ← get
  let number := (s.maxInodeNumber + 1) % 2 ^ 64
  let file := file.numbered number
  set { s with maxInodeNumber := number }
  let r ← writeZeroPages file
  let file := r.2
  let page ← liftFault (inode2page s.header file.inode)
  let done ← writeMetaPage (addPageChecksum s.header.endianness page) file.page
  if done then pure (true, { file with modified := false }) else pure (false, file)

def flushNextVersion (file : FileHandle) : FsM (Bool × FileHandle) := do
  let oldFile := { file with connected := false }
  let page ← allocateFreeInodePageNumber
  match page with
  | none => pure (false, file)
  | some newPage =>
    let s ← get
    let file := file.nextVersion newPage
    let page ← liftFault (inode2page s.header file.inode)
    let r ← writeZeroPages file
    let file := r.2
    let done ← writeMetaPage (addPageChecksum s.header.endianness page) file.page
    if done then
      let file := { file with modified := false }
      let _ ← eraseInodeAndUnusedPages oldFile file
      pure (true, file)
    else pure (false, file)

def flush (file : FileHandle) : FsM (Bool × FileHandle) :=
  if ¬ file.connected then throw .undefined
  else if ¬ file.modified then pure (true, file)
  else if file.inode.inodeNumber = 0 then flushNew file
  else flushNextVersion file

-- ~FileHandle
def closeHandle (file : FileHandle) : FsM Unit :=
  if file.connected then do
    let r ← flush file
    freeUnwrittenPages r.2.page
    each (fun p => freeUnwrittenPages p.pageId) r.2.inode.dataPages
  else pure ()

end Flush

end SimpleFlashFs
