import SimpleFlashFs.Lookup
import SimpleFlashFs.Crc

namespace SimpleFlashFs

open Lib

-- dynamic::Config
@[reducible] def dynamicConfig : Config where
  crc32 := crcFast
  pageSize := 0

section Mount

variable [Config]

def checkPageSize (h : Header) : Bool :=
  minPageSize ≤ h.pageSize ∧ (Config.pageSize = 0 ∨ h.pageSize ≤ Config.pageSize)

-- mem->read into a page of zeros
def readHeaderPage (m : Memory) (size : ℕ) : List UInt8 :=
  let bytes := m.read 0 size
  bytes ++ List.replicate (size - bytes.length) 0

def setHeader (h : Header) (range : Bool) : FsM Unit :=
  modify fun s => { s with
    header := h,
    headerInodeRange := match s.headerInodeRange with
      | .default max current => if range then .default h.maxInodes 0 else .default max current
      | .shuffled numbers current => .shuffled numbers current }

-- SimpleFlashFsBase::init
def initBase : FsM Bool := do
  let s ← get
  let page := readHeaderPage s.mem minPageSize
  if slice page 0 13 ≠ magickString then pure false
  else
    match parseEndianness page with
    | none => pure false
    | some e =>
      setHeader { Header.empty with endianness := e, magicString := magickString } false
      let h := parseHeader e page
      if parseChecksumType e page ≠ 0 then pure false
      else if ¬ checkPageSize h then pure false
      else
        let page := readHeaderPage s.mem h.pageSize
        if calcPageChecksum page ≠ getPageChecksum e page then pure false
        else
          setHeader h true
          pure true

-- for( unsigned i = max_inodes; i < filesystem_size - 1; i++ ) unordered_insert( i );
-- none: the 32 bits of i never reach the bound
@[irreducible] def allDataPages (hd : Header) : Option PageSet :=
  let bound := subU64 hd.filesystemSize 1
  if bound ≥ 2 ^ 32 then none
  else some ((List.range' hd.maxInodes (bound - hd.maxInodes)).foldl PageSet.unorderedInsert {})

def fillFreeDataPages : FsM Unit := do
  let s ← get
  match allDataPages s.header with
  | none => throw .diverges
  | some pages => set { s with freeDataPages := pages }

def eraseFreeDataPage (page : ℕ) : FsM Unit :=
  modify fun s => { s with freeDataPages := (s.freeDataPages.erase page).1 }

-- the inodes found so far, grouped by number, in ascending order of the numbers
def insertInode (file : FileHandle) : List (ℕ × List FileHandle) → List (ℕ × List FileHandle)
  | [] => [(file.inode.inodeNumber, [file])]
  | (n, files) :: rest =>
    if file.inode.inodeNumber < n then (file.inode.inodeNumber, [file]) :: (n, files) :: rest
    else if file.inode.inodeNumber = n then (n, files ++ [file]) :: rest
    else (n, files) :: insertInode file rest

def collectInodes : List ℕ → List (ℕ × List FileHandle) → FsM (List (ℕ × List FileHandle))
  | [], inodes => pure inodes
  | i :: rest, inodes => do
    let s ← get
    let ret := readPage s i true
    if ret.error = none then
      let file ← getInode ret.page false
      let file := { file with page := i }
      modify fun s => { s with maxInodeNumber := max s.maxInodeNumber file.inode.inodeNumber }
      collectInodes rest (insertInode file inodes)
    else collectInodes rest inodes

-- the versions of one inode, ascending; the older one of each neighbouring pair is erased
def clearOldVersions : FileHandle → List FileHandle → FsM FileHandle
  | file, [] => pure file
  | file, next :: rest => do
    let old ← eraseInodeAndUnusedPages file next
    closeHandle old
    clearOldVersions next rest

def sortVersions (files : List FileHandle) : List FileHandle :=
  files.insertionSort (fun a b => a.inode.inodeVersionNumber ≤ b.inode.inodeVersionNumber)

def clearOldInodes : List (ℕ × List FileHandle) → FsM (List FileHandle)
  | [] => pure []
  | (_, files) :: rest => do
    match sortVersions files with
    | [] => clearOldInodes rest
    | file :: newer =>
      let survivor ← clearOldVersions file newer
      let survivors ← clearOldInodes rest
      pure (survivor :: survivors)

def eraseUsedPages (file : FileHandle) : FsM Unit :=
  each (fun p => eraseFreeDataPage p.pageId) file.inode.dataPages

def readAllFreeDataPages : FsM Unit := do
  fillFreeDataPages
  let s ← get
  let inodes ← collectInodes (List.range s.header.maxInodes) []
  let survivors ← clearOldInodes inodes
  each eraseUsedPages survivors
  each closeHandle survivors

def initDynamic : FsM Bool := do
  let ok ← initBase
  if ok then
    readAllFreeDataPages
    pure true
  else pure false

def initFram : FsM Bool := do
  let ok ← initDynamic
  if ok then
    modify fun s => { s with headerInodeRange := InodeRange.reinit s.header }
    pure true
  else pure false

def collectAllInodes (doErrorCorrections : Bool) : List ℕ → List FileHandle → FsM (List FileHandle)
  | [], files => pure files
  | i :: rest, files => do
    let s ← get
    let ret := readPage s i true
    if ret.error = none then
      let file ← getInode ret.page doErrorCorrections
      collectAllInodes doErrorCorrections rest (files ++ [{ file with page := i }])
    else collectAllInodes doErrorCorrections rest files

def getAllInodes (doErrorCorrections : Bool := true) : FsM (List FileHandle) := do
  let s ← get
  collectAllInodes doErrorCorrections (List.range s.header.maxInodes) []

end Mount

end SimpleFlashFs
