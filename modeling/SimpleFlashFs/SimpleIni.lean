import SimpleFlashFs.Lib.ByteFile
import SimpleFlashFs.Lib.Text
import SimpleFlashFs.Inode

namespace SimpleFlashFs

open Lib

def newLine : UInt8 := 10

def tab : UInt8 := 9

def blank : UInt8 := 32

def equals : UInt8 := 61

def openBracket : UInt8 := 91

def closeBracket : UInt8 := 93

abbrev Line := List UInt8

-- line_buffer_size is also the capacity of line_buffer, file_buffer_size the buffer of the file
structure LineBuffer where
  lineBufferSize : ℕ
  fileBufferSize : ℕ
  buffer_pos : 0 < fileBufferSize

-- white: what strip_view removes; BUFFER_SIZE of insert is a 32-bit line_buffer_size
structure SimpleIni extends LineBuffer where
  buffer_lt : lineBufferSize < 2 ^ 32
  commentSigns : List UInt8
  white : UInt8 → Bool
  signs_ne : commentSigns ≠ []
  signs_tab : tab ∉ commentSigns
  signs_bracket : openBracket ∉ commentSigns
  signs_newLine : newLine ∉ commentSigns
  white_tab : white tab = true
  white_blank : white blank = true
  white_equals : white equals = false
  white_open : white openBracket = false
  white_close : white closeBracket = false

namespace LineBuffer

variable (lb : LineBuffer)

-- the loop of get_line; push_back throws when line_buffer is full
def getLineLoop : ℕ → Line → ByteFile → Except Fault (Option Line × ByteFile)
  | 0, _, f => .ok (none, f)
  | left + 1, ret, f =>
    let sizeToRead := if lb.lineBufferSize > 0 then min lb.lineBufferSize lb.fileBufferSize else lb.fileBufferSize
    let r := f.read sizeToRead
    if f.eof ∨ sizeToRead = 0 ∨ r.1 = [] then .ok (if ret = [] then none else some ret, f)
    else
      let bytes := r.1.takeWhile (· ≠ newLine)
      if ret.length + bytes.length > lb.lineBufferSize then .error .thrown
      else if newLine ∈ r.1 then .ok (some (ret ++ bytes), (r.2.seek (f.pos + bytes.length + 1)).2)
      else getLineLoop left (ret ++ bytes) r.2

def getLine (f : ByteFile) : Except Fault (Option Line × ByteFile) := lb.getLineLoop (f.size + 1) [] f

end LineBuffer

namespace SimpleIni

variable (ini : SimpleIni)

def isComment (line : Line) : Bool :=
  match line with
  | [] => false
  | c :: _ => decide (c ∈ ini.commentSigns)

def getCommentSign : Line := [ini.commentSigns.head ini.signs_ne]

def getSectionName (line : Line) : Line :=
  strip ini.white (strip (fun c => decide (c = openBracket ∨ c = closeBracket)) line)

def getKeyValue (line : Line) : Line × Line :=
  if equals ∈ line then
    (strip ini.white (line.takeWhile (· ≠ equals)), strip ini.white ((line.dropWhile (· ≠ equals)).drop 1))
  else ([], [])

-- what every loop looks at: nothing of a comment, else the line without white spaces
def visible (line : Line) : Line := if line = [] ∨ ini.isComment line then [] else strip ini.white line

def readLoop (sectionName key : Line) : ℕ → Bool → ByteFile → Except Fault (Option Line × ByteFile)
  | 0, _, f => .ok (none, f)
  | left + 1, foundSection, f =>
    match ini.getLine f with
    | .error e => .error e
    | .ok (none, f) => .ok (none, f)
    | .ok (some line, f) =>
      match ini.visible line with
      | [] => readLoop sectionName key left foundSection f
      | c :: sv =>
        if c = openBracket then
          readLoop sectionName key left (decide (ini.getSectionName (c :: sv) = sectionName)) f
        else if ¬ foundSection then readLoop sectionName key left foundSection f
        else if equals ∉ c :: sv then readLoop sectionName key left foundSection f
        else
          let keyValue := ini.getKeyValue (c :: sv)
          if keyValue.1 ≠ key then readLoop sectionName key left foundSection f
          else .ok (some keyValue.2, f)

def read (sectionName key : Line) (f : ByteFile) : Except Fault (Option Line × ByteFile) :=
  ini.readLoop sectionName key (f.size + 1) false (f.seek 0).2

def findSectionLoop (sectionName : Line) : ℕ → ByteFile → Except Fault (Option ℕ × ByteFile)
  | 0, f => .ok (none, f)
  | left + 1, f =>
    match ini.getLine f with
    | .error e => .error e
    | .ok (none, f) => .ok (none, f)
    | .ok (some line, f) =>
      match ini.visible line with
      | [] => findSectionLoop sectionName left f
      | c :: sv =>
        if c = openBracket ∧ ini.getSectionName (c :: sv) = sectionName then .ok (some f.pos, f)
        else findSectionLoop sectionName left f

def findSection (sectionName : Line) (f : ByteFile) : Except Fault (Option ℕ × ByteFile) :=
  ini.findSectionLoop sectionName (f.size + 1) (f.seek 0).2

def findNextKeyLoop : ℕ → ByteFile → Except Fault (Option ℕ × ByteFile)
  | 0, f => .ok (none, f)
  | left + 1, f =>
    let posBeforeReadLine := f.pos
    match ini.getLine f with
    | .error e => .error e
    | .ok (none, f) => .ok (none, f)
    | .ok (some line, f) =>
      match ini.visible line with
      | [] => findNextKeyLoop left f
      | c :: sv =>
        if c = openBracket then .ok (none, (f.seek posBeforeReadLine).2)
        else if equals ∉ c :: sv then findNextKeyLoop left f
        else .ok (some posBeforeReadLine, f)

def findNextKey (f : ByteFile) : Except Fault (Option ℕ × ByteFile) := ini.findNextKeyLoop (f.size + 1) f

-- write( initializer_list ) and write( span )
def writeAll : List Line → ByteFile → Bool × ByteFile
  | [], f => (true, f)
  | s :: rest, f =>
    let r := f.write s
    if r.1 = s.length then writeAll rest r.2 else (false, r.2)

-- the comment and the key as they are written
def entry (key value comment : Line) : List Line :=
  (if comment ≠ [] then [ini.getCommentSign, [tab], comment, [newLine]] else []) ++
    [[tab], key, [blank, equals, blank], value, [newLine]]

def appendSection (sectionName : Line) (f : ByteFile) : Bool × ByteFile :=
  let r :=
    if f.size > 0 then
      let c := (f.seek (f.size - 1)).2.read 1
      if c.1 ≠ [] ∧ c.1 ≠ [newLine] then writeAll [[newLine]] c.2 else (true, c.2)
    else (true, f)
  if r.1 = false then r
  else
    let r := if r.2.pos > 0 then writeAll [[newLine]] r.2 else (true, r.2)
    if r.1 = false then r else writeAll [[openBracket], sectionName, [closeBracket, newLine]] r.2

def appendKey (key value comment : Line) (f : ByteFile) : Bool × ByteFile := writeAll (ini.entry key value comment) f

-- pending is *p_buffer_b
def insertLoop (newFileSize : ℕ) : ℕ → ℕ → Line → ByteFile → Bool × ByteFile
  | 0, _, _, f => (true, f)
  | left + 1, p, pending, f =>
    if p < newFileSize ∧ pending ≠ [] then
      let posBeforeRead := f.pos
      let r := f.read ini.lineBufferSize
      let w := (r.2.seek posBeforeRead).2.write pending
      if w.1 ≠ pending.length then (false, w.2)
      else insertLoop newFileSize left (p + pending.length) r.1 w.2
    else (true, f)

-- the first buffer throws when values is too long for it
def insert (posInFile : ℕ) (values : List Line) (f : ByteFile) : Except Fault (Bool × ByteFile) :=
  if values.flatten.length > ini.lineBufferSize then .error .thrown
  else
    let newFileSize := f.size + values.flatten.length
    .ok (ini.insertLoop newFileSize (newFileSize + 1) posInFile values.flatten (f.seek posInFile).2)

inductive KeySearch
  | unreadable
  | same
  | found (lastKeyEnd : Option ℕ)
  | missing (lastKeyEnd : Option ℕ)
deriving DecidableEq, Repr

-- the loop of write over the keys of the section
def searchKey (key value : Line) : ℕ → Option ℕ → ByteFile → Except Fault (KeySearch × ByteFile)
  | 0, lastKeyEnd, f => .ok (.missing lastKeyEnd, f)
  | left + 1, lastKeyEnd, f =>
    match ini.findNextKey f with
    | .error e => .error e
    | .ok (none, f) => .ok (.missing lastKeyEnd, f)
    | .ok (some pos, f) =>
      match ini.getLine (f.seek pos).2 with
      | .error e => .error e
      | .ok (none, f) => .ok (.unreadable, f)
      | .ok (some line, f) =>
        let keyValue := ini.getKeyValue line
        if keyValue.1 ≠ key then searchKey key value left (some f.pos) f
        else if keyValue.2 = value then .ok (.same, f)
        else .ok (.found lastKeyEnd, f)

inductive Shift
  | done
  | unread
  | short
deriving DecidableEq, Repr

def shiftLoop : ℕ → ℕ → ℕ → ℕ → ByteFile → Shift × ByteFile
  | 0, _, _, _, f => (.done, f)
  | left + 1, bytesRemaining, readPos, writePos, f =>
    if bytesRemaining > 0 then
      let r := (f.seek readPos).2.read (min bytesRemaining ini.lineBufferSize)
      if r.1 = [] then (.unread, r.2)
      else
        let w := (r.2.seek writePos).2.write r.1
        if w.1 ≠ r.1.length then (.short, w.2)
        else shiftLoop left (bytesRemaining - r.1.length) (readPos + r.1.length) (writePos + r.1.length) w.2
    else (.done, f)

def padWithSpaces (start shrinkAmount : ℕ) (sl : List Line) (f : ByteFile) : Bool × ByteFile :=
  writeAll (sl.dropLast ++ List.replicate shrinkAmount [blank] ++ [[newLine]]) (f.seek start).2

-- the new key needs less space than the lines from start to tail_start_old
def shrink (start sizeToOverwrite : ℕ) (sl : List Line) (f : ByteFile) : Bool × ByteFile :=
  let shrinkAmount := sizeToOverwrite - sl.flatten.length
  let tailStartOld := start + sizeToOverwrite
  let oldFileSize := f.size
  let tailSize := oldFileSize - tailStartOld
  let newFileSize := oldFileSize - shrinkAmount
  let w := writeAll sl (f.seek start).2
  if w.1 = false then w
  else
    let r := ini.shiftLoop (tailSize + 1) tailSize tailStartOld (tailStartOld - shrinkAmount) w.2
    match r.1 with
    | .short => (false, r.2)
    | .unread => padWithSpaces start shrinkAmount sl r.2
    | .done =>
      let t := r.2.truncate newFileSize
      if t.1 = false then padWithSpaces start shrinkAmount sl t.2 else (true, t.2)

-- write, when the key was found and its value is another one
def replaceKey (start : ℕ) (sl : List Line) (f : ByteFile) : Except Fault (Bool × ByteFile) :=
  let sizeToOverwrite := f.pos - start
  if sizeToOverwrite > sl.flatten.length then .ok (ini.shrink start sizeToOverwrite sl f)
  else
    let w := (f.seek start).2.write (sl.flatten.take sizeToOverwrite)
    if w.1 ≠ sizeToOverwrite then .ok (false, w.2)
    else ini.insert w.2.pos [sl.flatten.drop sizeToOverwrite] w.2

-- the end of write: one character back when that is a '\n'
def stepBack (f : ByteFile) : ByteFile :=
  if f.pos > 0 then
    let c := (f.seek (f.pos - 1)).2.read 1
    if c.1 = [newLine] then (c.2.seek (f.pos - 1)).2 else c.2
  else f

def write (sectionName key value comment : Line) (f : ByteFile) : Except Fault (Bool × ByteFile) :=
  match ini.findSection sectionName f with
  | .error e => .error e
  | .ok (none, f) =>
    let r := appendSection sectionName f
    .ok (if r.1 = false then r else ini.appendKey key value comment r.2)
  | .ok (some _, f) =>
    let sectionKeysStart := f.pos
    match ini.searchKey key value (f.size + 1) none f with
    | .error e => .error e
    | .ok (.unreadable, f) => .ok (false, f)
    | .ok (.same, f) => .ok (true, f)
    | .ok (.found lastKeyEnd, f) =>
      ini.replaceKey (lastKeyEnd.getD sectionKeysStart) (ini.entry key value comment) f
    | .ok (.missing lastKeyEnd, f) =>
      let f := stepBack f
      ini.insert (lastKeyEnd.getD f.pos) (ini.entry key value comment) f

-- the white space of strip_view
def whiteSpaces (c : UInt8) : Bool := decide (c ∈ [blank, tab, newLine, 13])

-- SimpleIni<N> with its default comment signs
def simpleIni (lineBufferSize : ℕ) (h : lineBufferSize < 2 ^ 32 := by decide) : SimpleIni where
  lineBufferSize := lineBufferSize
  fileBufferSize := 512
  buffer_lt := h
  commentSigns := [34, 44]
  white := whiteSpaces
  buffer_pos := by decide
  signs_ne := by decide
  signs_tab := by decide
  signs_bracket := by decide
  signs_newLine := by decide
  white_tab := by decide
  white_blank := by decide
  white_equals := by decide
  white_open := by decide
  white_close := by decide

end SimpleIni

end SimpleFlashFs
