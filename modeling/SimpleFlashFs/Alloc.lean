import SimpleFlashFs.InodePage

namespace SimpleFlashFs

open Lib

inductive ReadError
  | readError
  | crcError
deriving DecidableEq, Repr

structure ReadPageReturn where
  error : Option ReadError
  page : List UInt8
deriving DecidableEq, Repr

section Reading

variable [Config]

def pageOffset (hd : Header) (idx : ℕ) : ℕ := hd.pageSize + idx * hd.pageSize

def readPage (s : Fs) (idx : ℕ) (checkCrc : Bool := false) : ReadPageReturn :=
  let page := s.mem.read (pageOffset s.header idx) s.header.pageSize
  if page.length ≠ s.header.pageSize then ⟨some .readError, page⟩
  else if checkCrc = true ∧ ¬ checksumOk s.header.endianness page then ⟨some .crcError, page⟩
  else ⟨none, page⟩

def readPageMapped (s : Fs) (idx : ℕ) (checkCrc : Bool := false) : ReadPageReturn :=
  match s.mem.mapRead (pageOffset s.header idx) s.header.pageSize with
  | none => ⟨some .readError, []⟩
  | some page =>
    if checkCrc = true ∧ ¬ checksumOk s.header.endianness page then ⟨some .crcError, page⟩
    else ⟨none, page⟩

end Reading

-- the page number arithmetic of the writing side is done in 32 bits
def writeAddress (hd : Header) (pageId : ℕ) : ℕ := (hd.pageSize + hd.pageSize * pageId) % 2 ^ 32

namespace InodeRange

def hasNext : InodeRange → Bool
  | default max current => current < max
  | shuffled numbers current => current < numbers.length

def next : InodeRange → Option (ℕ × InodeRange)
  | default max current => some (current, default max (current + 1))
  | shuffled numbers current => numbers[current]?.map fun i => (i, shuffled numbers (current + 1))

def reinit (hd : Header) : InodeRange := shuffled (List.range hd.maxInodes) 0

-- the values of i for which the body of for( i = start(); has_next(); i = next() ) runs
def visited : ℕ → ℕ → InodeRange → List ℕ
  | 0, _, _ => []
  | fuel + 1, i, r =>
    if r.hasNext then
      i :: match r.next with
        | some (j, t) => visited fuel j t
        | none => []
    else []

def length : InodeRange → ℕ
  | default max _ => max
  | shuffled numbers _ => numbers.length

end InodeRange

def shuffle : ℕ → List ℕ → FsM (List ℕ)
  | 0, l => pure l
  | n + 1, l => do
    let k ← draw
    let k := k % l.length
    let r ← shuffle n (l.eraseIdx k)
    pure (l.getD k 0 :: r)

def InodeRange.reset : InodeRange → FsM InodeRange
  | .default max _ => pure (.default max 0)
  | .shuffled numbers _ => do
    let l ← shuffle numbers.length numbers
    pure (.shuffled l 0)

def startHeaderInodeRange : FsM (List ℕ) := do
  let s ← get
  let r ← s.headerInodeRange.reset
  modify fun s => { s with headerInodeRange := r }
  match r.next with
  | some (i, t) => pure (InodeRange.visited (r.length + 1) i t)
  | none => throw .undefined

def countAllocated (i : ℕ) : FsM ℕ := do
  let s ← get
  let r := s.allocatedUnwrittenPages.count i
  set { s with allocatedUnwrittenPages := r.1 }
  pure r.2

def insertAllocated (i : ℕ) : FsM Unit :=
  modify fun s => { s with allocatedUnwrittenPages := s.allocatedUnwrittenPages.insert i }

def freeUnwrittenPages (page : ℕ) : FsM Unit :=
  modify fun s => { s with allocatedUnwrittenPages := (s.allocatedUnwrittenPages.erase page).1 }

section Inodes

variable [Config]

-- the loop of the four allocators: they differ in how a page is read and in what they return
def claimInodePage (reader : Fs → ℕ → ReadPageReturn) : List ℕ → FsM (Option ℕ)
  | [] => pure none
  | i :: rest => do
    let s ← get
    if (reader s i).error = some .crcError then
      let n ← countAllocated i
      if n = 0 then
        insertAllocated i
        pure (some i)
      else claimInodePage reader rest
    else claimInodePage reader rest

def allocateFreeInodePageNumberUnmapped : FsM (Option ℕ) := do
  let is ← startHeaderInodeRange
  claimInodePage (readPage · · true) is

def allocateFreeInodePageNumberMapped : FsM (Option ℕ) := do
  let is ← startHeaderInodeRange
  claimInodePage (readPageMapped · · true) is

def allocateFreeInodePageNumber : FsM (Option ℕ) := do
  let s ← get
  if s.mem.canMapRead then allocateFreeInodePageNumberMapped
  else allocateFreeInodePageNumberUnmapped

def FileHandle.ofPage : Option ℕ → FileHandle
  | some i => { page := i, connected := true }
  | none => {}

def allocateFreeInodePageUnmapped : FsM FileHandle := do
  let is ← startHeaderInodeRange
  FileHandle.ofPage <$> claimInodePage (readPage · · true) is

def allocateFreeInodePageMapped : FsM FileHandle := do
  let is ← startHeaderInodeRange
  FileHandle.ofPage <$> claimInodePage (readPageMapped · · true) is

def allocateFreeInodePage : FsM FileHandle := do
  let s ← get
  if s.mem.canMapRead then allocateFreeInodePageMapped else allocateFreeInodePageUnmapped

end Inodes

def freeDataPagesEmpty : FsM Bool := do
  let s ← get
  let r := s.freeDataPages.empty
  set { s with freeDataPages := r.1 }
  pure r.2

def eraseFreeDataPageAt (index : ℕ) : FsM Unit :=
  modify fun s => { s with freeDataPages := s.freeDataPages.eraseAt index }

def allocateFreeDataPageBase : FsM (Option ℕ) := do
  let isEmpty ← freeDataPagesEmpty
  if isEmpty then pure none
  else
    let s ← get
    eraseFreeDataPageAt 0
    pure s.freeDataPages.data[0]?

def allocateFreeDataPageFram : FsM (Option ℕ) := do
  let isEmpty ← freeDataPagesEmpty
  if isEmpty then pure none
  else
    let s ← get
    let r := s.freeDataPages.size
    set { s with freeDataPages := r.1 }
    let k ← draw
    let targetIndex := k % r.2
    let s ← get
    eraseFreeDataPageAt targetIndex
    pure s.freeDataPages.data[targetIndex]?

-- virtual
def allocateFreeDataPage : FsM (Option ℕ) := do
  let s ← get
  match s.variant with
  | .fram => allocateFreeDataPageFram
  | _ => allocateFreeDataPageBase

def allocateFreeDataPageFor (file : FileHandle) : FsM (Option ℕ) := do
  let s ← get
  if file.inode.dataPages.length + 1 ≥ getMaxInodeDataPages s.header file then pure none
  else allocateFreeDataPage

end SimpleFlashFs
