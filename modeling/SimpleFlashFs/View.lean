import SimpleFlashFs.NoDel
import Mathlib.Tactic.Linarith

namespace SimpleFlashFs

open Lib

def pageAt (s : Fs) (i : ℕ) : List UInt8 := s.mem.read (pageOffset s.header i) s.header.pageSize

def headerPage (s : Fs) : List UInt8 := s.mem.read 0 s.header.pageSize

-- pages after the header page, as numbered by the inodes
def InRange (s : Fs) (i : ℕ) : Prop := i + 1 < s.header.filesystemSize

instance (s : Fs) (i : ℕ) : Decidable (InRange s i) := inferInstanceAs (Decidable (_ < _))

structure Geometry (s : Fs) : Prop where
  minPage : minPageSize ≤ s.header.pageSize
  fits : s.header.pageSize * s.header.filesystemSize ≤ s.mem.bytes.length
  inodes : s.header.maxInodes < s.header.filesystemSize

structure Layout (s : Fs) : Prop extends Geometry s where
  addressable : s.header.pageSize * s.header.filesystemSize ≤ 2 ^ 32

-- byte a was written after its last erase; the newest event comes first
def written : List Event → ℕ → Bool
  | [], _ => false
  | e :: rest, a =>
    match e.op with
    | .write address data => (address ≤ a && a < address + data.length) || written rest a
    | .erase address size => !(address ≤ a && a < address + size) && written rest a

def writeOnce : List Event → Prop
  | [] => True
  | e :: rest => writeOnce rest ∧
    match e.op with
    | .write address data => ∀ k < data.length, written rest (address + k) = false
    | .erase _ _ => True

def Fresh (s : Fs) (i : ℕ) : Prop :=
  ∀ k < s.header.pageSize, written s.mem.trace (pageOffset s.header i + k) = false

def NoShort (s : Fs) : Prop := ∀ left, Outcome.short left ∉ s.mem.plan

section Put

theorem put_length (bytes : List UInt8) (address : ℕ) (data : List UInt8) :
    (Memory.put bytes address data).length = bytes.length := by
  simp only [Memory.put, overwrite, List.length_append, List.length_take, List.length_drop]
  omega

theorem put_eq {bytes : List UInt8} {address : ℕ} {data : List UInt8}
    (h : address + data.length ≤ bytes.length) :
    Memory.put bytes address data = overwrite bytes address data := by
  rw [Memory.put, List.take_of_length_le (by omega)]

theorem slice_put_same {bytes : List UInt8} {address : ℕ} {data : List UInt8}
    (h : address + data.length ≤ bytes.length) :
    slice (Memory.put bytes address data) address data.length = data := by
  rw [put_eq h, slice_overwrite_same h]

theorem slice_put_disjoint {bytes : List UInt8} {address : ℕ} {data : List UInt8}
    (h : address + data.length ≤ bytes.length) {a n : ℕ}
    (hd : a + n ≤ address ∨ address + data.length ≤ a) :
    slice (Memory.put bytes address data) a n = slice bytes a n := by
  rw [put_eq h, slice_overwrite_disjoint h hd]

end Put

section Addresses

variable {s : Fs}

theorem pageOffset_eq (hd : Header) (i : ℕ) : pageOffset hd i = hd.pageSize * (i + 1) := by
  rw [pageOffset]
  ring

theorem offset_le {i : ℕ} (hi : InRange s i) :
    pageOffset s.header i + s.header.pageSize ≤ s.header.pageSize * s.header.filesystemSize := by
  have h := Nat.mul_le_mul_left s.header.pageSize (show i + 2 ≤ s.header.filesystemSize from hi)
  rw [pageOffset_eq]
  linarith

theorem Layout.of_eq {t : Fs} (L : Layout s) (hh : t.header = s.header)
    (hl : t.mem.bytes.length = s.mem.bytes.length) : Layout t where
  minPage := by rw [hh]; exact L.minPage
  fits := by rw [hh, hl]; exact L.fits
  inodes := by rw [hh]; exact L.inodes
  addressable := by rw [hh]; exact L.addressable

theorem Geometry.offset_fits (L : Geometry s) {i : ℕ} (hi : InRange s i) :
    pageOffset s.header i + s.header.pageSize ≤ s.mem.bytes.length :=
  (offset_le hi).trans L.fits

theorem Geometry.pageSize_pos (L : Geometry s) : 0 < s.header.pageSize := by
  have h := L.minPage
  simp only [minPageSize] at h
  omega

theorem Layout.writeAddress_eq (L : Layout s) {i : ℕ} (hi : InRange s i) :
    writeAddress s.header i = pageOffset s.header i := by
  have h := offset_le hi
  have hp := L.pageSize_pos
  have ha := L.addressable
  rw [writeAddress, show s.header.pageSize + s.header.pageSize * i = pageOffset s.header i by
    rw [pageOffset_eq]; ring]
  exact Nat.mod_eq_of_lt (by omega)

theorem Geometry.pageAt_length (L : Geometry s) {i : ℕ} (hi : InRange s i) :
    (pageAt s i).length = s.header.pageSize := by
  have h := L.offset_fits hi
  rw [pageAt, Memory.read, slice_length]
  omega

theorem Geometry.lt_inRange (L : Geometry s) {i : ℕ} (hi : i < s.header.maxInodes) : InRange s i := by
  have h := L.inodes
  unfold InRange
  omega

theorem offset_disjoint (hd : Header) {i j : ℕ} (h : i ≠ j) :
    pageOffset hd i + hd.pageSize ≤ pageOffset hd j ∨ pageOffset hd j + hd.pageSize ≤ pageOffset hd i := by
  rw [pageOffset_eq, pageOffset_eq]
  rcases Nat.lt_or_gt_of_ne h with h | h
  · left
    have := Nat.mul_le_mul_left hd.pageSize (show i + 2 ≤ j + 1 by omega)
    linarith
  · right
    have := Nat.mul_le_mul_left hd.pageSize (show j + 2 ≤ i + 1 by omega)
    linarith

end Addresses

theorem written_cons_of_disjoint {e : Event} {rest : List Event} {a : ℕ}
    (h : a < e.op.address ∨ e.op.address + e.op.content.length ≤ a) :
    written (e :: rest) a = written rest a := by
  cases hop : e.op with
  | write address data =>
    rw [hop] at h
    simp only [PhysOp.address, PhysOp.content] at h
    simp only [written, hop]
    rcases h with h | h
    · simp [Nat.not_le.mpr h]
    · simp [Nat.not_lt.mpr h]
  | erase address size =>
    rw [hop] at h
    simp only [PhysOp.address, PhysOp.content, List.length_replicate] at h
    simp only [written, hop]
    rcases h with h | h
    · simp [Nat.not_le.mpr h]
    · simp [Nat.not_lt.mpr h]

-- everything outside of page i is as before
structure Touched (s t : Fs) (i : ℕ) (op : PhysOp) : Prop where
  rest : t = { s with mem := t.mem }
  canMapRead : t.mem.canMapRead = s.mem.canMapRead
  length : t.mem.bytes.length = s.mem.bytes.length
  others : ∀ j, j ≠ i → InRange s j → pageAt t j = pageAt s j
  headerPage : headerPage t = headerPage s
  plan : t.mem.plan = s.mem.plan.tail
  fresh : ∀ j, j ≠ i → (Fresh t j ↔ Fresh s j)
  once : (∀ address data, op = .write address data → Fresh s i) → writeOnce s.mem.trace →
    writeOnce t.mem.trace

structure Programmed (s t : Fs) (i : ℕ) (op : PhysOp) : Prop extends Touched s t i op where
  page : pageAt t i = op.content
  trace : t.mem.trace = ⟨op, s.mem.bytes, true⟩ :: s.mem.trace

structure Torn (s t : Fs) (i : ℕ) (op : PhysOp) : Prop extends Touched s t i op where
  started : (t.mem.bytes = s.mem.bytes ∧ t.mem.trace = s.mem.trace) ∨
    t.mem.trace = ⟨op, s.mem.bytes, false⟩ :: s.mem.trace

section Perform

variable {s : Fs} {i : ℕ} {x : PhysOp}

theorem touched_record (L : Geometry s) (hi : InRange s i) (ha : x.address = pageOffset s.header i)
    (hc : x.content.length = s.header.pageSize) (left : List UInt8)
    (hl : left.length ≤ s.header.pageSize) (rest : List Outcome) (hr : rest = s.mem.plan.tail)
    (done : Bool) : Touched s { s with mem := s.mem.record x left rest done } i x where
  rest := rfl
  canMapRead := rfl
  length := put_length _ _ _
  others j hj hr' := by
    have h1 := offset_disjoint s.header hj
    have h2 := L.offset_fits hi
    simp only [pageAt, Memory.read, Memory.record, ha]
    exact slice_put_disjoint (by omega) (by omega)
  headerPage := by
    have h2 := L.offset_fits hi
    have h3 : s.header.pageSize ≤ pageOffset s.header i := by simp [pageOffset]
    simp only [headerPage, Memory.read, Memory.record, ha]
    exact slice_put_disjoint (by omega) (by omega)
  plan := hr
  fresh j hj := by
    have h1 := offset_disjoint s.header hj
    refine forall₂_congr fun k (hk : k < s.header.pageSize) => ?_
    simp only [Memory.record]
    rw [written_cons_of_disjoint]
    simp only [ha, hc]
    omega
  once hw hs := by
    refine ⟨hs, ?_⟩
    cases x with
    | erase address size => trivial
    | write address data =>
      intro k hk
      have h := hw address data rfl k (by rw [← hc]; exact hk)
      rwa [← ha] at h

theorem programmed_record (L : Geometry s) (hi : InRange s i)
    (ha : x.address = pageOffset s.header i) (hc : x.content.length = s.header.pageSize)
    (rest : List Outcome) (hr : rest = s.mem.plan.tail) :
    Programmed s { s with mem := s.mem.record x x.content rest true } i x where
  toTouched := touched_record L hi ha hc x.content hc.le rest hr true
  page := by
    have h2 := L.offset_fits hi
    simp only [pageAt, Memory.read, Memory.record, ha, ← hc]
    exact slice_put_same (by omega)
  trace := rfl

theorem wp_perform (L : Geometry s) (hn : NoShort s) (hi : InRange s i)
    (ha : x.address = pageOffset s.header i) (hc : x.content.length = s.header.pageSize)
    {Q : Bool → Fs → Prop} {R : Fault → Fs → Prop} (hQ : ∀ t, Programmed s t i x → Q true t)
    (hR : ∀ t, Torn s t i x → R .powerLoss t) : wp (perform x) Q R s := by
  have hdone := fun rest hr => hQ _ (programmed_record L hi ha hc rest hr)
  simp only [perform, wp_bind, wp_get, wp_set, Memory.perform]
  rcases hp : s.mem.plan with _ | ⟨o, rest⟩
  · exact hdone [] (by simp [hp])
  · cases o with
    | ok => exact hdone rest (by simp [hp])
    | short left => exact absurd (by simp [hp]) (hn left)
    | cut left =>
      cases left with
      | none =>
        apply hR
        constructor
        · exact ⟨rfl, rfl, rfl, fun _ _ _ => rfl, rfl, by simp [hp], fun _ _ => Iff.rfl, fun _ h => h⟩
        · exact Or.inl ⟨rfl, rfl⟩
      | some left =>
        apply hR
        refine ⟨touched_record L hi ha hc _ ?_ rest (by simp [hp]) false, Or.inr rfl⟩
        rw [List.length_take, hc]
        exact Nat.min_le_left _ _

-- also where a call may fail
theorem wp_perform_any (L : Geometry s) (hi : InRange s i) (ha : x.address = pageOffset s.header i)
    (hc : x.content.length = s.header.pageSize) :
    wp (perform x) (fun done t => Touched s t i x ∧ (done = true → pageAt t i = x.content)) (fun _ _ => True) s := by
  have hdone := fun rest hr => programmed_record L hi ha hc rest hr
  simp only [perform, wp_bind, wp_get, wp_set, Memory.perform]
  rcases hp : s.mem.plan with _ | ⟨o, rest⟩
  · exact ⟨(hdone [] (by simp [hp])).toTouched, fun _ => (hdone [] (by simp [hp])).page⟩
  · cases o with
    | ok => exact ⟨(hdone rest (by simp [hp])).toTouched, fun _ => (hdone rest (by simp [hp])).page⟩
    | short left =>
      refine ⟨touched_record L hi ha hc _ ?_ rest (by simp [hp]) false, fun h => by cases h⟩
      rw [List.length_take, hc]
      exact Nat.min_le_left _ _
    | cut left => cases left <;> trivial

theorem Touched.header {t : Fs} (h : Touched s t i x) : t.header = s.header := by rw [h.rest]

theorem Touched.noShort {t : Fs} (h : Touched s t i x) (hn : NoShort s) : NoShort t := by
  intro left hm
  rw [h.plan] at hm
  exact hn left (List.mem_of_mem_tail hm)

end Perform

section Reading

variable [Config] {s : Fs} {i : ℕ}

theorem readPage_eq (L : Geometry s) (hi : InRange s i) (checkCrc : Bool) :
    readPage s i checkCrc = if checkCrc = true ∧ ¬ checksumOk s.header.endianness (pageAt s i)
      then ⟨some .crcError, pageAt s i⟩ else ⟨none, pageAt s i⟩ := by
  have hl := L.pageAt_length hi
  rw [pageAt] at hl
  simp only [readPage, hl, ne_eq, not_true_eq_false, if_false, pageAt]
  rfl

theorem readPageMapped_eq (L : Geometry s) (hi : InRange s i) (checkCrc : Bool) :
    readPageMapped s i checkCrc = readPage s i checkCrc := by
  rw [readPage_eq L hi]
  simp only [readPageMapped, Memory.mapRead, if_pos (L.offset_fits hi)]
  rfl

end Reading

end SimpleFlashFs
