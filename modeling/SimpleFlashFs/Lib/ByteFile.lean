import SimpleFlashFs.Lib.Bytes

namespace SimpleFlashFs.Lib

-- an ideal file: a byte array with a cursor
structure ByteFile where
  content : List UInt8
  pos : ℕ := 0
  append : Bool := false
deriving DecidableEq, Repr

namespace ByteFile

def size (f : ByteFile) : ℕ := f.content.length

def eof (f : ByteFile) : Bool := f.content.length ≤ f.pos

def seek (f : ByteFile) (p : ℕ) : Bool × ByteFile :=
  if p ≤ f.content.length then (true, { f with pos := p }) else (false, f)

def write (f : ByteFile) (data : List UInt8) : ℕ × ByteFile :=
  let pos := if f.append then f.content.length else f.pos
  (data.length, { f with content := overwrite f.content pos data, pos := pos + data.length })

def read (f : ByteFile) (size : ℕ) : List UInt8 × ByteFile :=
  let bytes := slice f.content f.pos size
  (bytes, { f with pos := f.pos + bytes.length })

def truncate (f : ByteFile) (newSize : ℕ) : Bool × ByteFile :=
  (true, { f with
    content := f.content.take newSize ++ List.replicate (newSize - f.content.length) 0,
    pos := min f.pos newSize })

variable {f : ByteFile}

theorem seek_of_le {p : ℕ} (h : p ≤ f.content.length) : f.seek p = (true, { f with pos := p }) := by
  rw [seek, if_pos h]

def moved (f : ByteFile) (p : ℕ) : ByteFile := { f with pos := p }

@[simp] theorem moved_content (f : ByteFile) (p : ℕ) : (f.moved p).content = f.content := rfl

@[simp] theorem moved_pos (f : ByteFile) (p : ℕ) : (f.moved p).pos = p := rfl

@[simp] theorem moved_append (f : ByteFile) (p : ℕ) : (f.moved p).append = f.append := rfl

@[simp] theorem moved_moved (f : ByteFile) (p q : ℕ) : (f.moved p).moved q = f.moved q := rfl

theorem seek_moved {p : ℕ} (h : p ≤ f.content.length) : (f.seek p).2 = f.moved p := by
  rw [seek_of_le h]
  rfl

theorem seek_append (f : ByteFile) (p : ℕ) : (f.seek p).2.append = f.append := by
  rw [seek]
  split <;> rfl

theorem write_of_not_append (h : f.append = false) (data : List UInt8) :
    f.write data = (data.length, { f with
      content := overwrite f.content f.pos data, pos := f.pos + data.length }) := by
  rw [write, h]
  rfl

end ByteFile

section Overwrite

variable {α : Type} {l d e : List α} {p q : ℕ}

theorem overwrite_length_max (h : p ≤ l.length) :
    (overwrite l p d).length = max l.length (p + d.length) := by
  simp only [overwrite, List.length_append, List.length_take, List.length_drop]
  omega

@[simp] theorem overwrite_nil (l : List α) (p : ℕ) : overwrite l p [] = l := by
  simp [overwrite]

theorem overwrite_end (l d : List α) : overwrite l l.length d = l ++ d := by
  rw [overwrite, List.take_length, List.drop_eq_nil_of_le (Nat.le_add_right _ _), List.append_nil]

theorem getElem?_overwrite_of_le (h : p ≤ l.length) (i : ℕ) : (overwrite l p d)[i]? =
    if i < p then l[i]? else if i < p + d.length then d[i - p]? else l[i]? := by
  have hp : min p l.length = p := Nat.min_eq_left h
  simp only [overwrite, List.getElem?_append, List.length_append, List.length_take, hp]
  by_cases h1 : i < p
  · rw [if_pos (by omega), if_pos h1, if_pos h1, List.getElem?_take_of_lt h1]
  · by_cases h2 : i < p + d.length
    · rw [if_pos h2, if_neg h1, if_neg h1, if_pos h2]
    · rw [if_neg h2, if_neg h1, if_neg h2, List.getElem?_drop]
      congr 1
      omega

-- writing inside of what was written before
theorem overwrite_overwrite_inside (hl : p ≤ l.length) (hq : q ≤ d.length) :
    overwrite (overwrite l p d) (p + q) e = overwrite l p (overwrite d q e) := by
  have h1 := overwrite_length_max (d := d) hl
  have h2 := overwrite_length_max (d := e) hq
  apply List.ext_getElem?
  intro i
  rw [getElem?_overwrite_of_le (by omega), getElem?_overwrite_of_le hl, getElem?_overwrite_of_le hl,
    getElem?_overwrite_of_le hq, h2]
  by_cases hi : i < p
  · rw [if_pos (by omega), if_pos hi, if_pos hi]
  · rw [if_neg hi, if_neg hi]
    by_cases hi2 : i < p + q
    · rw [if_pos hi2, if_pos (by omega), if_pos (by omega), if_pos (by omega)]
    · rw [if_neg hi2]
      by_cases hi3 : i < p + q + e.length
      · rw [if_pos hi3, if_pos (by omega), if_neg (by omega), if_pos (by omega), Nat.sub_sub]
      · rw [if_neg hi3]
        by_cases hi4 : i < p + d.length
        · rw [if_pos hi4, if_pos (by omega), if_neg (by omega), if_neg (by omega)]
        · rw [if_neg hi4, if_neg (by omega)]

-- a window of a list written back changes nothing
theorem overwrite_slice (h : p + q ≤ l.length) : overwrite l p (slice l p q) = l := by
  have hl : (slice l p q).length = q := by
    rw [slice_length]
    omega
  apply List.ext_getElem?
  intro i
  rw [getElem?_overwrite_of_le (by omega), getElem?_slice, hl]
  by_cases h1 : i < p
  · rw [if_pos h1]
  · rw [if_neg h1]
    by_cases h2 : i < p + q
    · rw [if_pos h2, if_pos (by omega), show p + (i - p) = i by omega]
    · rw [if_neg h2]

end Overwrite

end SimpleFlashFs.Lib
