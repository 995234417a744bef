import SimpleFlashFs.Dynamic

namespace SimpleFlashFs

open Lib

section NoDel

variable [Config]

def isEmptyPage (page : List UInt8) : Bool := page.all (· == 0xFF)

-- decode is get_inode without correction; none: read error; a handle that is not connected: free page
def readInodeWith (decode : Header → List UInt8 → Except Fault FileHandle) (index : ℕ) : FsM (Option FileHandle) := do
  let getInode := fun (page : List UInt8) => do
    let s ← get
    liftFault (decode s.header page)
  let s ← get
  if s.mem.canMapRead then
    let ret := readPageMapped s index true
    match ret.error with
    | some .readError => pure none
    | some .crcError =>
      if isEmptyPage ret.page then pure (some {})
      else
        let inode ← getInode ret.page
        closeHandle inode
        pure none
    | none => some <$> getInode ret.page
  else
    let ret := readPage s index true
    match ret.error with
    | some .readError => pure none
    | some .crcError => if isEmptyPage ret.page then pure (some {}) else pure none
    | none => some <$> getInode ret.page

def modifyStat (f : Stat → Stat) : FsM Unit := modify fun s => { s with stat := f s.stat }

def noDelInodePageWith (decode : Header → List UInt8 → Except Fault FileHandle) (i : ℕ) : FsM Unit := do
  let ret ← readInodeWith decode i
  match ret with
  | none => eraseFreeDataPage i
  | some inode =>
    if ¬ inode.connected then pure ()
    else
      let inode := { inode with page := i }
      modify fun s => { s with maxInodeNumber := max s.maxInodeNumber inode.inode.inodeNumber }
      let added ← addIvStorage inode
      match added with
      | .replaced => modifyStat fun t => { t with trashInodes := t.trashInodes + 1 }
      | .inserted => modifyStat fun t => { t with usedInodes := t.usedInodes + 1 }
      modifyStat fun t => { t with largestFileSize := max t.largestFileSize inode.inode.fileLen }
      each (fun p => do
        let s ← get
        modifyStat fun t => { t with trashSize := t.trashSize + s.header.pageSize }
        eraseFreeDataPage p.pageId) inode.inode.dataPages
      closeHandle inode

def readAllFreeDataPagesNoDelWith (decode : Header → List UInt8 → Except Fault FileHandle) : FsM Unit := do
  modify fun s => { s with stat := {} }
  fillFreeDataPages
  clearIvStorage
  let s ← get
  each (noDelInodePageWith decode) (List.range s.header.maxInodes)
  modify fun s => { s with stat := { s.stat with
    freeInodes := subU64 (subU64 s.header.maxInodes s.stat.usedInodes) s.stat.trashInodes } }

def initNoDelWith (decode : Header → List UInt8 → Except Fault FileHandle) : FsM Bool := do
  let ok ← initBase
  if ok then
    readAllFreeDataPagesNoDelWith decode
    pure true
  else pure false

def readInode (index : ℕ) : FsM (Option FileHandle) := readInodeWith (decodeInode · · false) index

def noDelInodePage (i : ℕ) : FsM Unit := noDelInodePageWith (decodeInode · · false) i

def readAllFreeDataPagesNoDel : FsM Unit := readAllFreeDataPagesNoDelWith (decodeInode · · false)

def initNoDel : FsM Bool := initNoDelWith (decodeInode · · false)

-- the virtual init
def init : FsM Bool := do
  let s ← get
  match s.variant with
  | .dynamic => initDynamic
  | .fram => initFram
  | .noDel => initNoDel

-- SimpleFlashFsBase::write( Header )
def writeHeader (h : Header) : FsM Bool := do
  setHeader h false
  let page ← liftFault (header2page h)
  let _ ← perform (.write 0 page)
  pure true

def create (h : Header) : FsM Bool := do
  let s ← get
  if (h.pageSize * h.filesystemSize) % 2 ^ 64 > s.mem.size then pure false
  else if h.pageSize = 0 ∨ h.filesystemSize = 0 then pure false
  else if h.pageSize < minPageSize then pure false
  else if h.filesystemSize < 4 then pure false
  else
    let _ ← perform (.erase 0 ((h.pageSize * h.filesystemSize) % 2 ^ 64))
    let ok ← writeHeader h
    if ok then init else pure false

end NoDel

def maxInodesOf (filesystemSize : ℕ) : ℕ :=
  let maxInodes := max ((filesystemSize / 10 * 2) % 2 ^ 32) 10
  if maxInodes > filesystemSize then 2 else maxInodes

theorem maxInodesOf_lt (filesystemSize : ℕ) : maxInodesOf filesystemSize < 2 ^ 32 := by
  have h := Nat.mod_lt (filesystemSize / 10 * 2) (show 2 ^ 32 > 0 by decide)
  simp only [maxInodesOf]
  split <;> omega

def createDefaultHeader (pageSize filesystemSize : ℕ) (hp : pageSize < 2 ^ 32)
    (hf : filesystemSize < 2 ^ 64) : Header where
  magicString := magickString
  version := 1
  pageSize := pageSize
  filesystemSize := filesystemSize
  maxInodes := maxInodesOf filesystemSize
  maxPathLen := 50
  pageSize_lt := hp
  filesystemSize_lt := hf
  maxInodes_lt := maxInodesOf_lt filesystemSize

end SimpleFlashFs
