import SimpleFlashFs.Lib.Wp
import SimpleFlashFs.Memory
import SimpleFlashFs.PageSet

namespace SimpleFlashFs

inductive Endianness
  | le
  | be
deriving DecidableEq, Repr

structure Header where
  magicString : List UInt8 := []
  endianness : Endianness := .le
  version : ℕ := 0
  pageSize : ℕ := 0
  filesystemSize : ℕ := 0
  maxInodes : ℕ := 0
  maxPathLen : ℕ := 0
  version_lt : version < 2 ^ 16 := by decide
  pageSize_lt : pageSize < 2 ^ 32 := by decide
  filesystemSize_lt : filesystemSize < 2 ^ 64 := by decide
  maxInodes_lt : maxInodes < 2 ^ 32 := by decide
  maxPathLen_lt : maxPathLen < 2 ^ 16 := by decide
deriving DecidableEq

def Header.empty : Header := {}

def Header.ofFields (version : UInt16) (pageSize : UInt32) (filesystemSize : UInt64) (maxInodes : UInt32)
    (maxPathLen : UInt16) : Header where
  version := version.toNat
  pageSize := pageSize.toNat
  filesystemSize := filesystemSize.toNat
  maxInodes := maxInodes.toNat
  maxPathLen := maxPathLen.toNat
  version_lt := version.toNat_lt
  pageSize_lt := pageSize.toNat_lt
  filesystemSize_lt := filesystemSize.toNat_lt
  maxInodes_lt := maxInodes.toNat_lt
  maxPathLen_lt := maxPathLen.toNat_lt

inductive PageState
  | new
  | stored
  | deleted
deriving DecidableEq, Repr

structure DataPage where
  pageId : ℕ
  state : PageState := .stored
deriving DecidableEq, Repr

def attributeSpecial : ℕ := 1

structure Inode where
  inodeNumber : ℕ := 0
  inodeVersionNumber : ℕ := 0
  fileNameLen : ℕ := 0
  fileName : List UInt8 := []
  attributes : ℕ := 0
  fileLen : ℕ := 0
  pages : ℕ := 0
  dataPages : List DataPage := []
  inodeData : List UInt8 := []
deriving DecidableEq, Repr

def Inode.countValidDataPages (inode : Inode) : ℕ :=
  inode.dataPages.countP (·.state ≠ .deleted)

structure FileHandle where
  inode : Inode := {}
  page : ℕ := 0
  pos : ℕ := 0
  modified : Bool := false
  append : Bool := false
  connected : Bool := false
deriving DecidableEq, Repr

structure InodeVersion where
  inode : ℕ
  page : ℕ
  version : ℕ
deriving DecidableEq, Repr

inductive InodeRange
  | default (max current : ℕ)
  | shuffled (numbers : List ℕ) (current : ℕ)
deriving DecidableEq, Repr

inductive Variant
  | dynamic
  | fram
  | noDel
deriving DecidableEq, Repr

structure Stat where
  largestFileSize : ℕ := 0
  trashSize : ℕ := 0
  usedInodes : ℕ := 0
  trashInodes : ℕ := 0
  freeInodes : ℕ := 0
deriving DecidableEq, Repr

structure Fs where
  variant : Variant
  mem : Memory
  header : Header := .empty
  allocatedUnwrittenPages : PageSet := {}
  freeDataPages : PageSet := {}
  maxInodeNumber : ℕ := 0
  ivStorage : List InodeVersion := []
  headerInodeRange : InodeRange := .default 0 0
  stat : Stat := {}
  rng : ℕ → ℕ := fun _ => 0

inductive Fault
  | powerLoss
  | undefined
  | thrown
  | diverges
deriving DecidableEq, Repr

abbrev FsM := EStateM Fault Fs

-- the template parameter of the source: its checksum and its page size limit (0: none)
class Config where
  crc32 : List UInt8 → UInt32
  pageSize : ℕ := 0

def liftFault {α : Type} : Except Fault α → FsM α
  | .ok a => pure a
  | .error e => throw e

def perform (op : PhysOp) : FsM Bool := do
  let s ← get
  let r := s.mem.perform op
  set { s with mem := r.1 }
  match r.2 with
  | .ok => pure true
  | .short _ => pure false
  | .cut _ => throw .powerLoss

def draw : FsM ℕ := do
  let s ← get
  set { s with rng := fun n => s.rng (n + 1) }
  pure (s.rng 0)

end SimpleFlashFs
