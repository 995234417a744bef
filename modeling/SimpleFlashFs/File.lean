import SimpleFlashFs.Flush

namespace SimpleFlashFs

open Lib

def subU64 (a b : ℕ) : ℕ := (a + 2 ^ 64 - b) % 2 ^ 64

-- one iteration for each missing page
def allocateNewDataPagesLoop (pageIdx : ℕ) : ℕ → FileHandle → FsM (Bool × FileHandle)
  | 0, file => pure (true, file)
  | fuel + 1, file =>
    if pageIdx ≥ file.inode.countValidDataPages then do
      let newPage ← allocateFreeDataPageFor file
      match newPage with
      | none => pure (false, file)
      | some newPage =>
        let pages := file.inode.dataPages.insertIdx file.inode.countValidDataPages ⟨newPage, .new⟩
        allocateNewDataPagesLoop pageIdx fuel (file.setPages pages)
    else pure (true, file)

def allocateNewDataPages (pageIdx : ℕ) (file : FileHandle) : FsM (Bool × FileHandle) :=
  allocateNewDataPagesLoop pageIdx (pageIdx + 1 - file.inode.countValidDataPages) file

def allocateNewDataPageAt (pageIdx : ℕ) (file : FileHandle) : FsM (Bool × FileHandle) := do
  let newPage ← allocateFreeDataPageFor file
  match newPage with
  | none => pure (false, file)
  | some newPage =>
    match file.inode.dataPages[pageIdx]? with
    | none => throw .thrown
    | some old =>
      let pages := file.inode.dataPages ++ [{ old with state := .deleted }]
      pure (true, file.setPages (pages.set pageIdx ⟨newPage, .new⟩))

-- a call whose result is only tested where it is needed
def whenNeeded (needed : Bool) (file : FileHandle) (call : FsM (Bool × FileHandle)) :
    FsM (Bool × FileHandle) := if needed then call else pure (true, file)

def growInodeData (file : FileHandle) (space : ℕ) : FsM (List UInt8) :=
  if file.inode.inodeData.length < space then liftFault (resizeBytes file.inode.inodeData space)
  else pure file.inode.inodeData

section Write

variable [Config]

-- reads the page with the entry `idx`, allocates its replacement when stored, writes it
def rewritePage (file : FileHandle) (page : List UInt8) (idx : ℕ) : FsM (Bool × FileHandle) :=
  match file.inode.dataPages[idx]? with
  | none => throw .thrown
  | some meta_ => do
    let r ← whenNeeded (meta_.state = .stored) file (allocateNewDataPageAt idx file)
    if r.1 then writePage r.2 page idx else pure (false, r.2)

def FileHandle.advance (file : FileHandle) (len : ℕ) : FileHandle := { file with pos := file.pos + len }

-- the part of write for a position inside of a page; none: write returns 0
def writeUnaligned (file : FileHandle) (data : List UInt8) (pageIdx : ℕ) :
    FsM (Option ℕ × FileHandle) := do
  let s ← get
  let start := file.pos % s.header.pageSize
  let r ← whenNeeded (pageIdx > 0) file (allocateNewDataPages (pageIdx - 1) file)
  if ¬ r.1 then pure (none, r.2)
  else
    let file := r.2
    let doReadPage := file.inode.dataPages[pageIdx]?.map (·.state) ≠ some .new
    let r ← whenNeeded doReadPage file (allocateNewDataPages pageIdx file)
    if ¬ r.1 then pure (none, r.2)
    else
      let file := r.2
      match file.inode.dataPages[pageIdx]? with
      | none => throw .thrown
      | some meta_ =>
        let s ← get
        let read := readPage s meta_.pageId
        if doReadPage ∧ read.error ≠ none then pure (none, file)
        else
          let page := if doReadPage then read.page else List.replicate s.header.pageSize 0
          let len := min data.length (s.header.pageSize - start)
          let page := overwrite page start (data.take len)
          let r ← rewritePage file page pageIdx
          if r.1 then pure (some len, r.2.advance len) else pure (none, r.2)

def writeLoop : ℕ → FileHandle → List UInt8 → ℕ → FsM (Option ℕ × FileHandle)
  | 0, file, data, written => if written < data.length then throw .diverges else pure (some written, file)
  | fuel + 1, file, data, written =>
    if written < data.length then do
      let s ← get
      let ps := s.header.pageSize
      let pageIdx := file.pos / ps
      let r ← allocateNewDataPages pageIdx file
      if ¬ r.1 then pure (none, r.2)
      else
        let file := r.2
        match file.inode.dataPages[pageIdx]? with
        | none => throw .thrown
        | some meta_ =>
          if written + ps > data.length then
            let s ← get
            let read := readPage s meta_.pageId
            if meta_.state = .stored ∧ read.error ≠ none then pure (none, file)
            else
              let page := if meta_.state = .stored then read.page else List.replicate ps 0
              let len := min (data.length - written) ps
              let page := overwrite page 0 (slice data written len)
              let r ← rewritePage file page pageIdx
              if r.1 then writeLoop fuel (r.2.advance len) data (written + len) else pure (none, r.2)
          else
            let r ← writePage file (slice data written ps) pageIdx
            if r.1 then writeLoop fuel (r.2.advance ps) data (written + ps) else pure (none, r.2)
    else pure (some written, file)

def writeFirst (file : FileHandle) (data : List UInt8) (pageIdx : ℕ) : FsM (Option ℕ × FileHandle) := do
  let s ← get
  if file.pos % s.header.pageSize ≠ 0 then writeUnaligned file data pageIdx else pure (some 0, file)

-- write from the unaligned page on; `already` bytes went out with the inline data
def writePages (file : FileHandle) (data : List UInt8) (pageIdx already : ℕ) : FsM (ℕ × FileHandle) := do
  let r ← writeFirst file data pageIdx
  match r with
  | (none, file) => pure (0, file)
  | (some written, file) =>
    let r ← writeLoop data.length file data written
    match r with
    | (none, file) => pure (0, file)
    | (some written, file) =>
      pure (written + already, { file with
        modified := true, inode := { file.inode with fileLen := max file.pos file.inode.fileLen } })

def writeInline (file : FileHandle) (data : List UInt8) (space : ℕ) : FsM (ℕ × FileHandle) := do
  let inodeData ← growInodeData file space
  let pos := file.pos + data.length
  pure (data.length, { file with
    pos := pos, modified := true,
    inode := { file.inode with
      inodeData := overwrite inodeData file.pos data, fileLen := max pos file.inode.fileLen } })

-- copies the data inside of the inode to the first page; `again` is the recursive call
def migrateInline (again : FileHandle → List UInt8 → FsM (ℕ × FileHandle)) (file : FileHandle)
    (data : List UInt8) (pageIdx : ℕ) : FsM (ℕ × FileHandle) := do
  let s ← get
  let ps := s.header.pageSize
  let inodeDataSize := file.pos
  if inodeDataSize > ps ∨ inodeDataSize > file.inode.inodeData.length then throw .undefined
  else
    let bytesLeft := min (ps - inodeDataSize) data.length
    let totalSize := inodeDataSize + bytesLeft
    let page := file.inode.inodeData.take inodeDataSize ++ data.take bytesLeft
    let file := { file with pos := 0, modified := true, inode := { file.inode with inodeData := [] } }
    let r ← again file page
    if r.1 ≠ totalSize then pure (0, r.2)
    else if totalSize ≤ ps ∧ data.length = bytesLeft then pure (data.length, r.2)
    else writePages r.2 (data.drop bytesLeft) pageIdx bytesLeft

def writeWith (again : FileHandle → List UInt8 → FsM (ℕ × FileHandle)) (file : FileHandle)
    (data : List UInt8) : FsM (ℕ × FileHandle) := do
  let s ← get
  let pageIdx := file.pos / s.header.pageSize
  let space := getInodeDataSpaceSize s.header file
  if space > file.pos + data.length ∧ file.inode.fileLen < space then writeInline file data space
  else if file.inode.inodeData.length ≠ 0 then migrateInline again file data pageIdx
  else writePages file data pageIdx 0

-- the recursive call finds inode_data empty: there is no third level
def writeFs (file : FileHandle) (data : List UInt8) : FsM (ℕ × FileHandle) :=
  writeWith (writeWith fun _ _ => throw .diverges) file data

def getNumberOfFreeDataPages (s : Fs) : ℕ := s.freeDataPages.sizeConst

def getMaxFileSize (hd : Header) : ℕ :=
  subU64 ((hd.pageSize * subU64 hd.filesystemSize 1) % 2 ^ 64) ((hd.maxInodes * hd.pageSize) % 2 ^ 32)

def enlargeStorage (file : FileHandle) (targetSize : ℕ) : FsM (Bool × FileHandle) := do
  let s ← get
  let space := getInodeDataSpaceSize s.header file
  if space ≥ targetSize then
    let inodeData ← growInodeData file space
    pure (true, { file with inode := { file.inode with inodeData := inodeData } })
  else allocateNewDataPages (targetSize / s.header.pageSize) file

def enlargeFile (file : FileHandle) (amount : ℕ) : FsM (Bool × FileHandle) := do
  let s ← get
  let targetSize := file.inode.fileLen + amount
  if amount ≥ getNumberOfFreeDataPages s * s.header.pageSize then pure (false, file)
  else if targetSize ≥ getMaxFileSize s.header then pure (false, file)
  else
    let r ← enlargeStorage file targetSize
    if ¬ r.1 then pure (false, r.2)
    else
      let file := r.2
      pure (true, { file with
        modified := true, inode := { file.inode with fileLen := file.inode.fileLen + amount } })

def seek (file : FileHandle) (pos : ℕ) : FsM (Bool × FileHandle) :=
  if pos ≤ file.inode.fileLen then pure (true, { file with pos := pos })
  else if ¬ file.connected then throw .undefined
  else do
    let r ← enlargeFile file (pos - file.inode.fileLen - 1)
    if r.1 then pure (true, { r.2 with pos := pos }) else pure (false, r.2)

-- the operations of FileHandle: fs is null in a handle that is not connected
def write (file : FileHandle) (data : List UInt8) : FsM (ℕ × FileHandle) := do
  let r ← whenNeeded file.append file (seek file file.inode.fileLen)
  if r.2.connected then writeFs r.2 data else throw .undefined

def truncate (file : FileHandle) (newSize : ℕ) : FsM (Bool × FileHandle) := do
  let s ← get
  if ¬ file.connected then pure (false, file)
  else if newSize = file.inode.fileLen then pure (true, file)
  else if newSize > file.inode.fileLen then enlargeFile file (newSize - file.inode.fileLen)
  else
    let inode := file.inode
    let inode :=
      if inode.dataPages.isEmpty then
        if inode.inodeData.length > newSize then { inode with inodeData := inode.inodeData.take newSize }
        else inode
      else
        let neededPages := (newSize + s.header.pageSize - 1) / s.header.pageSize
        if neededPages < inode.dataPages.length then { inode with dataPages := inode.dataPages.take neededPages }
        else inode
    pure (true, { file with
      inode := { inode with fileLen := newSize },
      pos := if file.pos > newSize then newSize else file.pos,
      modified := true })

def readUnaligned (s : Fs) (file : FileHandle) (size : ℕ) : Option (List UInt8) :=
  let ps := s.header.pageSize
  let start := file.pos % ps
  match file.inode.dataPages[file.pos / ps]? with
  | none => none
  | some meta_ =>
    let len := min size (ps - start)
    if meta_.state = .new then some (List.replicate len 0)
    else
      let read := readPage s meta_.pageId
      if read.error ≠ none then none else some (slice read.page start len)

-- `acc` holds the bytes read so far
def readLoop (s : Fs) : ℕ → FileHandle → ℕ → List UInt8 → List UInt8 × FileHandle
  | 0, file, _, acc => (acc, file)
  | fuel + 1, file, size, acc =>
    let ps := s.header.pageSize
    if acc.length < size then
      match file.inode.dataPages[file.pos / ps]? with
      | none => (acc, file)
      | some meta_ =>
        let read := readPage s meta_.pageId
        if acc.length + ps > size then
          if meta_.state = .stored ∧ read.error ≠ none then (acc, file)
          else
            let page := if meta_.state = .stored then read.page else List.replicate ps 0
            let len := min (size - acc.length) ps
            readLoop s fuel (file.advance len) size (acc ++ page.take len)
        else if meta_.state = .new then
          readLoop s fuel (file.advance ps) size (acc ++ List.replicate ps 0)
        else if read.error ≠ none then (acc, file)
        else readLoop s fuel (file.advance ps) size (acc ++ read.page)
    else (acc, file)

def readDataPages (s : Fs) (file : FileHandle) (size : ℕ) : List UInt8 × FileHandle :=
  if file.pos % s.header.pageSize ≠ 0 then
    match readUnaligned s file size with
    | none => ([], file)
    | some bytes => readLoop s size (file.advance bytes.length) size bytes
  else readLoop s size file size []

def readFs (file : FileHandle) (size : ℕ) : FsM (List UInt8 × FileHandle) := do
  let s ← get
  let left := subU64 file.inode.fileLen file.pos
  let size := if left < size then left else size
  if size = 0 then pure ([], file)
  else
    let space := getInodeDataSpaceSize s.header file
    if space > file.pos + size ∧ file.inode.fileLen < space ∧ file.inode.inodeData ≠ [] then
      let len := min left size
      if file.pos + len > file.inode.inodeData.length then throw .undefined
      else pure (slice file.inode.inodeData file.pos len, file.advance len)
    else pure (readDataPages s file size)

def read (file : FileHandle) (size : ℕ) : FsM (List UInt8 × FileHandle) :=
  if file.connected then readFs file size else throw .undefined

def deleteFile (file : FileHandle) : FsM (Bool × FileHandle) := do
  let file := { file with
    modified := true,
    inode := { file.inode with
      fileName := [], fileNameLen := 0, pages := 0, dataPages := [], inodeData := [], fileLen := 0 } }
  let r ← flush file
  if r.1 then pure (true, { r.2 with connected := false }) else pure (false, r.2)

end Write

end SimpleFlashFs
