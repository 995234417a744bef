import SimpleFlashFs.Codec

namespace SimpleFlashFs

open Lib

-- unsigned 64 bit: the space wraps around when the record does not fit the page
def inodeDataSpaceSize (hd : Header) (fileNameLen : ℕ) : ℕ :=
  (hd.pageSize + 2 ^ 64 - (42 + fileNameLen)) % 2 ^ 64

def getInodeDataSpaceSize (hd : Header) (file : FileHandle) : ℕ :=
  inodeDataSpaceSize hd file.inode.fileNameLen

def getMaxInodeDataPages (hd : Header) (file : FileHandle) : ℕ := getInodeDataSpaceSize hd file / 4

-- the lambda of inode2page tests for the size of a size_t, whatever the size of the field
def emit (hd : Header) (page field : List UInt8) : Except Fault (List UInt8) :=
  if page.length + 8 > hd.pageSize then .error .thrown else .ok (page ++ field)

def copyBytes (hd : Header) (page data : List UInt8) : Except Fault (List UInt8) :=
  if page.length + data.length > hd.pageSize then .error .undefined else .ok (page ++ data)

def emitPages (hd : Header) : List DataPage → List UInt8 → Except Fault (List UInt8)
  | [], page => .ok page
  | p :: rest, page => do
    let page ← emit hd page (putField hd.endianness 4 p.pageId)
    emitPages hd rest page

def copyName (hd : Header) (page : List UInt8) (inode : Inode) : Except Fault (List UInt8) :=
  if inode.fileName.length < inode.fileNameLen then .error .undefined
  else copyBytes hd page (inode.fileName.take inode.fileNameLen)

def copyInodeData (hd : Header) (page : List UInt8) (inode : Inode) : Except Fault (List UInt8) :=
  if inode.dataPages.length = 0 ∧ inode.fileLen > 0 then copyBytes hd page inode.inodeData else .ok page

def inode2page (hd : Header) (inode : Inode) : Except Fault (List UInt8) := do
  let e := hd.endianness
  let page ← emit hd [] (putField e 8 inode.inodeNumber)
  let page ← emit hd page (putField e 8 inode.inodeVersionNumber)
  let page ← emit hd page (putField e 2 inode.fileNameLen)
  let page ← copyName hd page inode
  let page ← emit hd page (putField e 8 inode.attributes)
  let page ← emit hd page (putField e 8 inode.fileLen)
  let page ← emit hd page (putField e 4 inode.dataPages.length)
  let page ← emitPages hd inode.dataPages page
  let page ← copyInodeData hd page inode
  .ok (page ++ List.replicate (hd.pageSize - page.length) 0)

def readField (hd : Header) (page : List UInt8) (pos size : ℕ) : Except Fault ℕ :=
  if pos + size ≤ page.length then .ok (getField hd.endianness (slice page pos size))
  else .error .undefined

def readBytes (page : List UInt8) (pos size : ℕ) : Except Fault (List UInt8) :=
  if pos + size ≤ page.length then .ok (slice page pos size) else .error .undefined

def toInt32 (n : ℤ) : ℤ := Int.bmod n (2 ^ 32)

-- the new file_len after a page id outside the filesystem: computed in an int, stored in 64 bits
def reducedFileLen (hd : Header) (fileLen : ℕ) (isLastPage : Bool) : ℕ :=
  let len := toInt32 fileLen
  let reduced :=
    if isLastPage then
      let partLen := toInt32 (len % 2 ^ 32 % hd.pageSize)
      toInt32 (len - if partLen = 0 then toInt32 hd.pageSize else partLen)
    else toInt32 (len - hd.pageSize)
  (reduced % 2 ^ 64).toNat

structure DecodedPages where
  dataPages : List DataPage
  fileLen : ℕ
  modified : Bool
deriving DecidableEq

-- `left` pages are still to be read, the next one at `pos`
def readPages (hd : Header) (doErrorCorrections : Bool) (page : List UInt8) :
    (left pos lenRead : ℕ) → DecodedPages → Except Fault DecodedPages
  | 0, _, _, d => .ok d
  | left + 1, pos, lenRead, d => do
    let pageId ← readField hd page pos 4
    if doErrorCorrections = true ∧ pageId ≥ hd.filesystemSize then
      readPages hd doErrorCorrections page left (pos + 4) lenRead
        { d with fileLen := reducedFileLen hd d.fileLen (left = 0), modified := true }
    else if doErrorCorrections = true ∧ lenRead ≥ d.fileLen then
      .ok { d with modified := true }
    else
      readPages hd doErrorCorrections page left (pos + 4) (lenRead + hd.pageSize)
        { d with dataPages := d.dataPages ++ [{ pageId := pageId }] }

-- vectors refuse sizes beyond half of the address space
def maxVectorSize : ℕ := 2 ^ 63 - 1

def resizeBytes (data : List UInt8) (size : ℕ) : Except Fault (List UInt8) :=
  if size > maxVectorSize then .error .thrown
  else .ok (data.take size ++ List.replicate (size - data.length) 0)

def decodeInode (hd : Header) (page : List UInt8) (doErrorCorrections : Bool := true) :
    Except Fault FileHandle := do
  let inodeNumber ← readField hd page 0 8
  let inodeVersionNumber ← readField hd page 8 8
  let fileNameLen ← readField hd page 16 2
  let fileName ← readBytes page 18 fileNameLen
  let attributes ← readField hd page (18 + fileNameLen) 8
  let fileLen ← readField hd page (26 + fileNameLen) 8
  let pages ← readField hd page (34 + fileNameLen) 4
  let inode : Inode := { inodeNumber, inodeVersionNumber, fileNameLen, fileName, attributes, fileLen, pages }
  if pages ≠ 0 then
    let d ← readPages hd doErrorCorrections page pages (38 + fileNameLen) 0 ⟨[], fileLen, false⟩
    .ok { inode := { inode with dataPages := d.dataPages, fileLen := d.fileLen },
          modified := d.modified, connected := true }
  else if fileLen > 0 then
    let inodeSpace := inodeDataSpaceSize hd fileNameLen
    if fileLen ≤ inodeSpace then
      let data ← resizeBytes [] inodeSpace
      let bytes ← readBytes page (38 + fileNameLen) fileLen
      .ok { inode := { inode with inodeData := overwrite data 0 bytes }, connected := true }
    else .ok { inode := { inode with fileLen := 0 }, modified := true, connected := true }
  else .ok { inode := inode, connected := true }

def getInode (page : List UInt8) (doErrorCorrections : Bool := true) : FsM FileHandle := do
  let s ← get
  liftFault (decodeInode s.header page doErrorCorrections)

end SimpleFlashFs
