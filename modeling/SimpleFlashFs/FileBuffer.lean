import SimpleFlashFs.Lib.ByteFile
import SimpleFlashFs.File

namespace SimpleFlashFs

open Lib

-- current_buffer is the prefix of `currentSize` bytes of the buffer
structure FileBuffer where
  file : ByteFile
  buffer : List UInt8
  currentSize : ℕ := 0
  currentBufferStart : ℕ := 0
  pos : ℕ := 0
  currentBufferModified : Bool := false
deriving DecidableEq, Repr

namespace FileBuffer

def currentBuffer (b : FileBuffer) : List UInt8 := b.buffer.take b.currentSize

def tellg (b : FileBuffer) : ℕ := if b.currentSize ≠ 0 then b.currentBufferStart + b.pos else b.file.pos

def fileSize (b : FileBuffer) : ℕ :=
  if b.currentSize ≠ 0 ∧ b.currentBufferModified then max (b.currentBufferStart + b.currentSize) b.file.size
  else max (b.currentBufferStart + b.pos) b.file.size

def eof (b : FileBuffer) : Bool :=
  if b.currentSize ≠ 0 then b.currentBufferStart + b.pos ≥ b.fileSize else b.file.eof

def flushBuffer (b : FileBuffer) : Bool × FileBuffer :=
  if b.currentBufferModified then
    let file := (b.file.seek b.currentBufferStart).2
    let r := file.write b.currentBuffer
    if r.1 ≠ b.currentSize then (false, { b with file := r.2 })
    else (true, { b with file := r.2, currentBufferModified := false })
  else (true, { b with currentBufferModified := false })

def discardBuffer (b : FileBuffer) : Bool × FileBuffer :=
  let r := b.flushBuffer
  if ¬ r.1 then (false, r.2)
  else (true, { r.2 with pos := 0, currentBufferStart := 0, currentSize := 0 })

def flush (b : FileBuffer) : Bool × FileBuffer := b.flushBuffer

def seek (b : FileBuffer) (posToSeekTo : ℕ) : Bool × FileBuffer :=
  if b.currentSize ≠ 0 ∧ b.currentBufferStart ≤ posToSeekTo ∧
      posToSeekTo < b.currentBufferStart + b.currentSize then
    let r := b.file.seek posToSeekTo
    (r.1, { b with pos := posToSeekTo - b.currentBufferStart, file := r.2 })
  else if b.file.pos = posToSeekTo ∧ (b.currentSize = 0 ∨ ¬ b.currentBufferModified) then (true, b)
  else
    let r := b.discardBuffer
    if ¬ r.1 then (false, r.2)
    else
      let f := r.2.file.seek posToSeekTo
      (f.1, { r.2 with file := f.2 })

def readToBuffer (b : FileBuffer) (size : ℕ) : Bool × FileBuffer :=
  let b := { b with currentBufferStart := b.file.pos }
  let sizeToRead := min (subU64 b.file.size b.file.pos) b.buffer.length
  if sizeToRead = 0 then (false, b)
  else
    let r := b.file.read sizeToRead
    let b := { b with currentSize := sizeToRead, buffer := overwrite b.buffer 0 r.1, file := r.2 }
    if r.1.length ≠ sizeToRead then (false, b.discardBuffer.2)
    else (true, { b with pos := if sizeToRead < size then sizeToRead else size })

-- the part of read behind the tests that find the bytes in the buffer
def refill (b : FileBuffer) (size : ℕ) : List UInt8 × FileBuffer :=
  let r := b.readToBuffer size
  if ¬ r.1 then ([], r.2) else (r.2.currentBuffer.take (min size r.2.currentSize), r.2)

-- read( size ); none: the subspan begins behind the end of current_buffer
def readSpan (b : FileBuffer) (size : ℕ) : Except Fault (List UInt8 × FileBuffer) :=
  if size > b.buffer.length then .ok ([], b)
  else if b.currentSize ≠ 0 ∧ b.pos + size < b.currentSize then
    .ok (slice b.currentBuffer b.pos size, { b with pos := b.pos + size })
  else if b.currentSize ≠ 0 ∧ b.currentBufferStart + b.currentSize ≥ b.fileSize then
    if b.pos > b.currentSize then .error .undefined
    else
      let sizeToRead := min size (b.currentSize - b.pos)
      .ok (slice b.currentBuffer b.pos sizeToRead, { b with pos := b.pos + sizeToRead })
  else if b.currentSize ≠ 0 then
    let posInFile := b.currentBufferStart + b.pos
    let r := b.discardBuffer
    if ¬ r.1 then .ok ([], r.2)
    else .ok (refill { r.2 with file := (r.2.file.seek posInFile).2 } size)
  else .ok (b.refill size)

-- read( data, size )
def read (b : FileBuffer) (size : ℕ) : Except Fault (List UInt8 × FileBuffer) :=
  if size > b.buffer.length then
    let r := b.discardBuffer
    if ¬ r.1 then .ok ([], r.2)
    else
      let f := r.2.file.read size
      .ok (f.1, { r.2 with file := f.2 })
  else b.readSpan size

-- write with an empty current_buffer
def writeEmpty (b : FileBuffer) (data : List UInt8) : ℕ × FileBuffer :=
  (data.length, { b with
    currentBufferStart := b.file.pos,
    currentSize := data.length,
    buffer := overwrite b.buffer 0 data,
    currentBufferModified := true,
    pos := data.length })

-- write with bytes in current_buffer; the recursive call finds it empty
def writeCurrent (b : FileBuffer) (data : List UInt8) : Except Fault (ℕ × FileBuffer) :=
  let grows := subU64 b.buffer.length (b.pos + 1) > data.length
  if grows ∧ b.pos + data.length > b.buffer.length then .error .undefined
  else
    let b := if grows then { b with currentSize := b.pos + data.length } else b
    if b.pos + data.length ≤ b.currentSize then
      .ok (data.length, { b with
        buffer := overwrite b.buffer b.pos data,
        currentBufferModified := true,
        pos := b.pos + data.length })
    else
      let posInFile := b.currentBufferStart + b.pos
      let r := b.discardBuffer
      if ¬ r.1 then .ok (0, r.2)
      else
        let f := r.2.file.seek posInFile
        if ¬ f.1 then .ok (0, { r.2 with file := f.2 })
        else .ok (writeEmpty { r.2 with file := f.2 } data)

def write (b : FileBuffer) (data : List UInt8) : Except Fault (ℕ × FileBuffer) :=
  if data.length > b.buffer.length then
    let posInFile := b.file.pos
    let r := b.discardBuffer
    if ¬ r.1 then .ok (0, r.2)
    else
      let f := r.2.file.seek posInFile
      if ¬ f.1 then .ok (0, { r.2 with file := f.2 })
      else
        let w := f.2.write data
        .ok (w.1, { r.2 with file := w.2 })
  else
    let r := if b.currentSize ≠ 0 ∧ ¬ b.currentBufferModified ∧ b.file.append then b.discardBuffer else (true, b)
    if ¬ r.1 then .ok (0, r.2)
    else if r.2.currentSize ≠ 0 then r.2.writeCurrent data
    else .ok (r.2.writeEmpty data)

end FileBuffer

end SimpleFlashFs
