import SimpleFlashFs.File

namespace SimpleFlashFs

open Lib

structure OpenMode where
  in_ : Bool := false
  out : Bool := false
  app : Bool := false
  trunc : Bool := false
  ate : Bool := false
deriving DecidableEq, Repr

inductive AddRet
  | replaced
  | inserted
deriving DecidableEq, Repr

-- InodeVersionStore::add
def addInodeVersion (file : FileHandle) : List InodeVersion → List InodeVersion × AddRet
  | [] => ([⟨file.inode.inodeNumber, file.page, file.inode.inodeVersionNumber⟩], .inserted)
  | iv :: rest =>
    if iv.inode = file.inode.inodeNumber then
      (if file.inode.inodeVersionNumber > iv.version then
          { iv with version := file.inode.inodeVersionNumber, page := file.page } :: rest
        else iv :: rest, .replaced)
    else
      let r := addInodeVersion file rest
      (iv :: r.1, r.2)

def clearIvStorage : FsM Unit := modify fun s => { s with ivStorage := [] }

def addIvStorage (file : FileHandle) : FsM AddRet := do
  let s ← get
  let r := addInodeVersion file s.ivStorage
  set { s with ivStorage := r.1 }
  pure r.2

section Lookup

variable [Config]

-- the first pass of find_file and list_files over the inode page i
def recordInodePage (reader : Fs → ℕ → ReadPageReturn) (i : ℕ) : FsM Unit := do
  let s ← get
  let ret := reader s i
  if ret.error = none then
    let file ← getInode ret.page false
    let file := { file with page := i }
    let _ ← addIvStorage file
    closeHandle file
  else pure ()

def findVersion (reader : Fs → ℕ → ReadPageReturn) (name : List UInt8) :
    List InodeVersion → FsM FileHandle
  | [] => pure {}
  | iv :: rest => do
    let s ← get
    let ret := reader s iv.page
    if ret.error = none then
      let file ← getInode ret.page
      let file := { file with page := iv.page }
      if file.inode.fileName = [] then
        closeHandle file
        findVersion reader name rest
      else if file.inode.fileName = name then pure file
      else
        closeHandle file
        findVersion reader name rest
    else findVersion reader name rest

def findFileWith (reader : Fs → ℕ → ReadPageReturn) (name : List UInt8) : FsM FileHandle := do
  clearIvStorage
  let s ← get
  each (recordInodePage reader) (List.range s.header.maxInodes)
  let s ← get
  findVersion reader name s.ivStorage

def findFileUnmapped (name : List UInt8) : FsM FileHandle := findFileWith (readPage · · true) name

def findFileMapped (name : List UInt8) : FsM FileHandle := findFileWith (readPageMapped · · true) name

def findFile (name : List UInt8) : FsM FileHandle := do
  let s ← get
  if s.mem.canMapRead then findFileMapped name else findFileUnmapped name

def handleAppendMode (mode : OpenMode) (handle : FileHandle) : FileHandle :=
  { handle with
    append := if mode.app then true else handle.append,
    pos := if mode.ate ∧ handle.inode.fileLen > 0 then handle.inode.fileLen - 1 else handle.pos }

def openNew (name : List UInt8) (mode : OpenMode) : FsM FileHandle := do
  let handle ← allocateFreeInodePage
  let s ← get
  if ¬ handle.connected then pure {}
  else if name.length > s.header.maxPathLen then
    closeHandle handle
    pure {}
  else
    let handle := { handle with
      inode := { handle.inode with fileName := name, fileNameLen := name.length % 2 ^ 16 },
      modified := true }
    pure (handleAppendMode mode handle)

def openTrunc (handle : FileHandle) : FsM FileHandle := do
  let newHandle ← allocateFreeInodePage
  if ¬ newHandle.connected then
    closeHandle handle
    pure {}
  else
    closeHandle handle
    pure { newHandle with
      inode := { handle.inode with fileLen := 0, pages := 0, dataPages := [], inodeData := [] } }

def openFile (name : List UInt8) (mode : OpenMode) : FsM FileHandle := do
  let handle ← findFile name
  if ¬ handle.connected then
    if ¬ mode.out ∧ ¬ mode.app then pure {} else openNew name mode
  else if mode.trunc then openTrunc handle
  else pure (handleAppendMode mode handle)

def renameFile (file : FileHandle) (newFileName : List UInt8) : FsM (Bool × FileHandle) := do
  if ¬ file.connected then throw .undefined
  else
    let otherFile ← findFile newFileName
    if otherFile.connected then
      let r ← deleteFile otherFile
      let file := { file with
        modified := true,
        inode := { file.inode with fileName := newFileName, fileNameLen := newFileName.length % 2 ^ 16 } }
      let f ← flush file
      closeHandle r.2
      pure (true, f.2)
    else
      let file := { file with
        modified := true,
        inode := { file.inode with fileName := newFileName, fileNameLen := newFileName.length % 2 ^ 16 } }
      let f ← flush file
      pure (true, f.2)

end Lookup

end SimpleFlashFs
