import SimpleFlashFs.Mount

namespace SimpleFlashFs

open Lib

section Header

variable [Config] {s t : Fs} {hd : Header} {m m' : Memory}

-- what initBase accepts
structure HeaderOn (m : Memory) (hd : Header) : Prop where
  magic : slice (readHeaderPage m minPageSize) 0 13 = magickString
  endianness : parseEndianness (readHeaderPage m minPageSize) = some hd.endianness
  parsed : parseHeader hd.endianness (readHeaderPage m minPageSize) = hd
  checksumType : parseChecksumType hd.endianness (readHeaderPage m minPageSize) = 0
  pageSize : checkPageSize hd = true
  checksum : calcPageChecksum (readHeaderPage m hd.pageSize) =
    getPageChecksum hd.endianness (readHeaderPage m hd.pageSize)

def Fs.withHeader (s : Fs) (hd : Header) : Fs :=
  { s with
    header := hd
    headerInodeRange := match s.headerInodeRange with
      | .default _ _ => .default hd.maxInodes 0
      | .shuffled numbers current => .shuffled numbers current }

theorem HeaderOn.initBase (h : HeaderOn s.mem hd) : initBase s = .ok true (s.withHeader hd) := by
  have hw : wp SimpleFlashFs.initBase (fun r t => r = true ∧ t = s.withHeader hd) (fun _ _ => False) s := by
    simp only [SimpleFlashFs.initBase, wp_bind, wp_get]
    rw [if_neg (by simp [h.magic])]
    simp only [h.endianness, setHeader, wp_bind, wp_modify, h.parsed]
    rw [if_neg (by simp [h.checksumType]), if_neg (by simp [h.pageSize]), if_neg (by simp [h.checksum])]
    simp only [wp_bind, wp_modify, wp_pure, true_and, Fs.withHeader]
    cases s.headerInodeRange <;> rfl
  unfold wp at hw
  cases hi : SimpleFlashFs.initBase s with
  | ok r t =>
    rw [hi] at hw
    rw [hw.1, hw.2]
  | error e t =>
    rw [hi] at hw
    exact hw.elim

theorem headerOn_of_initBase (h : initBase s = .ok true t) :
    HeaderOn s.mem t.header ∧ t = s.withHeader t.header := by
  have hw : wp SimpleFlashFs.initBase
      (fun r t => r = true → HeaderOn s.mem t.header ∧ t = s.withHeader t.header) (fun _ _ => True) s := by
    simp only [SimpleFlashFs.initBase, wp_bind, wp_get]
    split
    · simp
    · next hmagic =>
      cases he : parseEndianness (readHeaderPage s.mem minPageSize) with
      | none => simp
      | some e =>
        simp only [setHeader, wp_bind, wp_modify]
        split
        · simp
        · next htype =>
          split
          · simp
          · next hsize =>
            split
            · simp
            · next hcrc =>
              simp only [wp_bind, wp_modify, wp_pure]
              refine fun _ => ⟨⟨by simpa using hmagic, he, rfl, not_not.mp htype, by simpa using hsize,
                not_not.mp hcrc⟩, ?_⟩
              simp only [Fs.withHeader]
              cases s.headerInodeRange <;> rfl
  exact wp_ok hw h rfl

omit [Config] in
theorem readHeaderPage_eq {n : ℕ} (h : n ≤ m.bytes.length) : readHeaderPage m n = m.bytes.take n := by
  simp only [readHeaderPage, Memory.read, slice, List.drop_zero, List.length_take, Nat.min_eq_left h,
    Nat.sub_self, List.replicate_zero, List.append_nil]

theorem HeaderOn.minPage (h : HeaderOn m hd) : minPageSize ≤ hd.pageSize := by
  have := h.pageSize
  simp only [checkPageSize, decide_eq_true_eq] at this
  exact this.1

theorem HeaderOn.congr (h : HeaderOn m hd) (hl : hd.pageSize ≤ m.bytes.length)
    (hl' : m'.bytes.length = m.bytes.length)
    (hp : m'.bytes.take hd.pageSize = m.bytes.take hd.pageSize) : HeaderOn m' hd := by
  have hmin := h.minPage
  have h1 : readHeaderPage m' hd.pageSize = readHeaderPage m hd.pageSize := by
    rw [readHeaderPage_eq (by omega), readHeaderPage_eq hl, hp]
  have h2 : readHeaderPage m' minPageSize = readHeaderPage m minPageSize := by
    rw [readHeaderPage_eq (by omega), readHeaderPage_eq (by omega), ← Nat.min_eq_left hmin,
      ← List.take_take, hp, List.take_take]
  exact ⟨by rw [h2]; exact h.magic, by rw [h2]; exact h.endianness, by rw [h2]; exact h.parsed,
    by rw [h2]; exact h.checksumType, h.pageSize, by rw [h1]; exact h.checksum⟩

end Header

section Create

variable [Config]

-- the fields that decide where things lie
structure SameGeometry (hd h : Header) : Prop where
  endianness : hd.endianness = h.endianness
  pageSize : hd.pageSize = h.pageSize
  filesystemSize : hd.filesystemSize = h.filesystemSize
  maxInodes : hd.maxInodes = h.maxInodes

omit [Config] in
theorem encodeEndianness_length (e : Endianness) : (Header.encodeEndianness e).length = 2 := by
  cases e <;> rfl

omit [Config] in
theorem parseEndianness_of_slice {page : List UInt8} {e : Endianness}
    (h : slice page 13 2 = Header.encodeEndianness e) : parseEndianness page = some e := by
  rw [parseEndianness, h]
  cases e <;> rfl

omit [Config] in
theorem slice_slice {l : List UInt8} {p n q k : ℕ} (h : q + k ≤ n) :
    slice (slice l p n) q k = slice l (p + q) k := by
  simp only [slice, List.drop_take, List.drop_drop, List.take_take]
  congr 1
  omega

structure HeaderPage (h : Header) (page : List UInt8) : Prop where
  minPage : minPageSize ≤ h.pageSize
  length : page.length = h.pageSize
  endianness : slice page 13 2 = Header.encodeEndianness h.endianness
  fields : slice page 15 18 = slice h.fields 0 18

theorem header2page_spec {h : Header} {page : List UInt8} (hp : header2page h = .ok page) :
    HeaderPage h page := by
  unfold header2page at hp
  split at hp
  swap
  · cases hp
  next hsize =>
  obtain ⟨hm, hmin⟩ := hsize
  have h37 : 37 ≤ h.pageSize := hmin
  have hfl : h.fields.length = 22 := by simp [Header.fields]
  have hel := encodeEndianness_length h.endianness
  obtain rfl := Except.ok.inj hp
  have l0 : (List.replicate h.pageSize (0 : UInt8)).length = h.pageSize := List.length_replicate
  have l1 := overwrite_length (l := List.replicate h.pageSize (0 : UInt8)) (p := 0) (d := h.magicString)
    (by omega)
  have l2 := overwrite_length (l := overwrite (List.replicate h.pageSize (0 : UInt8)) 0 h.magicString)
    (p := 13) (d := Header.encodeEndianness h.endianness) (by omega)
  have l3 := overwrite_length (l := overwrite (overwrite (List.replicate h.pageSize (0 : UInt8)) 0
    h.magicString) 13 (Header.encodeEndianness h.endianness)) (p := 15) (d := h.fields) (by omega)
  refine ⟨hmin, ?_, ?_, ?_⟩
  · rw [addPageChecksum_length _ (by omega)]
    omega
  · rw [slice_addPageChecksum _ (by omega) (by omega), slice_overwrite_disjoint (by omega) (by omega),
      ← hel, slice_overwrite_same (by omega)]
  · rw [slice_addPageChecksum _ (by omega) (by omega),
      show (15 : ℕ) = 15 + 0 from rfl, ← slice_slice (n := h.fields.length) (by omega),
      slice_overwrite_same (by omega)]

omit [Config] in
theorem HeaderPage.field {h : Header} {page a b c : List UInt8} (hp : HeaderPage h page)
    (hf : h.fields = a ++ (b ++ c)) (hl : a.length + b.length ≤ 18) :
    slice page (15 + a.length) b.length = b := by
  rw [← slice_slice (n := 18) (by omega), hp.fields, hf, slice_slice (by omega), Nat.zero_add, slice_middle]

omit [Config] in
theorem HeaderPage.sameGeometry {h : Header} {page : List UInt8} (hp : HeaderPage h page) :
    SameGeometry (parseHeader h.endianness page) h := by
  have h1 : slice page 17 4 = putField h.endianness 4 h.pageSize := by
    have := hp.field (a := putField h.endianness 2 h.version) (b := putField h.endianness 4 h.pageSize)
      (c := putField h.endianness 8 h.filesystemSize ++ (putField h.endianness 4 h.maxInodes ++
        (putField h.endianness 2 h.maxPathLen ++ putField h.endianness 2 0)))
      (by simp only [Header.fields, List.append_assoc]) (by simp)
    simpa using this
  have h2 : slice page 21 8 = putField h.endianness 8 h.filesystemSize := by
    have := hp.field (a := putField h.endianness 2 h.version ++ putField h.endianness 4 h.pageSize)
      (b := putField h.endianness 8 h.filesystemSize)
      (c := putField h.endianness 4 h.maxInodes ++
        (putField h.endianness 2 h.maxPathLen ++ putField h.endianness 2 0))
      (by simp only [Header.fields, List.append_assoc]) (by simp)
    simpa using this
  have h3 : slice page 29 4 = putField h.endianness 4 h.maxInodes := by
    have := hp.field (a := putField h.endianness 2 h.version ++ (putField h.endianness 4 h.pageSize ++
        putField h.endianness 8 h.filesystemSize)) (b := putField h.endianness 4 h.maxInodes)
      (c := putField h.endianness 2 h.maxPathLen ++ putField h.endianness 2 0)
      (by simp only [Header.fields, List.append_assoc]) (by simp)
    simpa using this
  refine ⟨rfl, ?_, ?_, ?_⟩
  · change getField h.endianness (slice page 17 4) = h.pageSize
    rw [h1, getField_putField h.pageSize_lt]
  · change getField h.endianness (slice page 21 8) = h.filesystemSize
    rw [h2, getField_putField h.filesystemSize_lt]
  · change getField h.endianness (slice page 29 4) = h.maxInodes
    rw [h3, getField_putField h.maxInodes_lt]

-- the memory that create leaves to init
structure Formatted (s t : Fs) (h : Header) (page : List UInt8) : Prop where
  rest : t = { s with mem := t.mem, header := h }
  canMapRead : t.mem.canMapRead = s.mem.canMapRead
  plan : t.mem.plan = []
  bytes : t.mem.bytes = page ++ List.replicate (h.pageSize * h.filesystemSize - h.pageSize) 0xFF ++
    s.mem.bytes.drop (h.pageSize * h.filesystemSize)
  headerPage : HeaderPage h page
  size : h.pageSize * h.filesystemSize ≤ s.mem.bytes.length
  filesystemSize : 4 ≤ h.filesystemSize
  trace : t.mem.trace =
    [⟨.write 0 page, List.replicate (h.pageSize * h.filesystemSize) 0xFF ++
        s.mem.bytes.drop (h.pageSize * h.filesystemSize), true⟩,
      ⟨.erase 0 (h.pageSize * h.filesystemSize), s.mem.bytes, true⟩] ++ s.mem.trace

variable {s t : Fs} {h : Header}

theorem create_ok (hp : s.mem.plan = []) (hN : h.pageSize * h.filesystemSize < 2 ^ 64)
    (hc : create h s = .ok true t) : ∃ u page, Formatted s u h page ∧ init u = .ok true t := by
  have hw : wp (create h) (fun r t => r = true → ∃ u page, Formatted s u h page ∧ init u = .ok true t)
      (fun _ _ => True) s := by
    simp only [create, wp_bind, wp_get, Nat.mod_eq_of_lt hN, Memory.size]
    split
    · simp
    next hsize =>
    split
    · simp
    next hpos =>
    split
    · simp
    next hmin =>
    split
    · simp
    next hfour =>
    have hsize : h.pageSize * h.filesystemSize ≤ s.mem.bytes.length := by omega
    simp only [perform, wp_bind, wp_get, wp_set, Memory.perform, hp, wp_pure, writeHeader, setHeader, wp_modify]
    cases hpage : header2page h with
    | error e => exact trivial
    | ok page =>
      have hpg := header2page_spec hpage
      have hlen := hpg.length
      have hle : h.pageSize ≤ h.pageSize * h.filesystemSize := Nat.le_mul_of_pos_right _ (by omega)
      have he : Memory.put s.mem.bytes 0 (List.replicate (h.pageSize * h.filesystemSize) 0xFF) =
          List.replicate (h.pageSize * h.filesystemSize) 0xFF ++
            s.mem.bytes.drop (h.pageSize * h.filesystemSize) := by
        rw [put_eq (by simpa using hsize)]
        simp [overwrite]
      simp only [liftFault, wp_pure, if_true, Memory.record]
      refine wp_run (fun r t hi hr => ?_) (fun _ _ _ => trivial)
      subst hr
      refine ⟨_, page, ?_, hi⟩
      refine ⟨?_, rfl, rfl, ?_, hpg, hsize, by omega, ?_⟩
      · cases s.headerInodeRange <;> rfl
      swap
      · simp only [PhysOp.address, PhysOp.content, he, List.cons_append, List.nil_append]
      simp only [PhysOp.address, PhysOp.content, he]
      rw [put_eq (by simp; omega)]
      simp only [overwrite, List.take_zero, List.nil_append, Nat.zero_add, hlen, List.append_assoc]
      rw [List.drop_append_of_le_length (by simpa using hle), List.drop_replicate]
  exact wp_ok hw hc rfl

omit [Config] in
theorem slice_take {l : List UInt8} {n p k : ℕ} (h : p + k ≤ n) : slice (l.take n) p k = slice l p k := by
  have := slice_slice (l := l) (p := 0) (n := n) h
  rwa [Nat.zero_add] at this

omit [Config] in
theorem parseHeader_take {e : Endianness} {l : List UInt8} {n : ℕ} (h : minPageSize ≤ n) :
    parseHeader e (l.take n) = parseHeader e l ∧ parseEndianness (l.take n) = parseEndianness l := by
  unfold minPageSize at h
  constructor
  · simp only [parseHeader, slice_take (show 0 + 13 ≤ n by omega), slice_take (show 15 + 2 ≤ n by omega),
      slice_take (show 17 + 4 ≤ n by omega), slice_take (show 21 + 8 ≤ n by omega),
      slice_take (show 29 + 4 ≤ n by omega), slice_take (show 33 + 2 ≤ n by omega)]
  · simp only [parseEndianness, slice_take (show 13 + 2 ≤ n by omega)]

-- an image without files
structure Blank (s : Fs) : Prop where
  geometry : Geometry s
  pages : ∀ i, InRange s i → pageAt s i = List.replicate s.header.pageSize 0xFF
  fresh : ∀ i, InRange s i → Fresh s i

omit [Config] in
theorem Formatted.blank {page : List UInt8} (f : Formatted s t h page) (hm : h.maxInodes < h.filesystemSize) :
    Blank t := by
  have hh : t.header = h := by rw [f.rest]
  have hlen := f.headerPage.length
  have hle : h.pageSize ≤ h.pageSize * h.filesystemSize :=
    Nat.le_mul_of_pos_right _ (by have := f.filesystemSize; omega)
  have hsize := f.size
  have hbytes : t.mem.bytes.length = s.mem.bytes.length := by
    rw [f.bytes]
    simp only [List.length_append, List.length_replicate, List.length_drop, hlen]
    omega
  have hrange : ∀ {i}, InRange t i → pageOffset h i + h.pageSize ≤ h.pageSize * h.filesystemSize := by
    intro i hi
    have := offset_le hi
    rwa [hh] at this
  refine ⟨⟨by rw [hh]; exact f.headerPage.minPage, by rw [hh, hbytes]; exact hsize, by rw [hh]; exact hm⟩,
    fun i hi => ?_, fun i hi k hk => ?_⟩
  · have hi := hrange hi
    have hge : h.pageSize ≤ pageOffset h i := by simp [pageOffset]
    rw [pageAt, hh, Memory.read, f.bytes, List.append_assoc, slice, List.drop_append, hlen,
      List.drop_eq_nil_of_le (by omega), List.nil_append, List.drop_append_of_le_length (by simp; omega),
      List.take_append_of_le_length (by simp; omega), List.drop_replicate, List.take_replicate]
    congr 1
    omega
  · rw [hh] at hk
    have hi := hrange hi
    have hge : h.pageSize ≤ pageOffset h i := by simp [pageOffset]
    rw [f.trace, hh]
    simp only [List.cons_append, List.nil_append, written, hlen]
    simp only [Bool.or_eq_false_iff, Bool.and_eq_false_iff, decide_eq_false_iff_not, Bool.not_eq_false',
      Bool.and_eq_true, decide_eq_true_eq]
    omega

theorem Formatted.initBase {u : Fs} {page : List UInt8} (f : Formatted s t h page)
    (hi : initBase t = .ok true u) : HeaderOn t.mem u.header ∧ SameGeometry u.header h ∧
      u = t.withHeader u.header := by
  obtain ⟨hon, hu⟩ := headerOn_of_initBase hi
  have hmin := f.headerPage.minPage
  have hlen := f.headerPage.length
  have hl : minPageSize ≤ t.mem.bytes.length := by
    rw [f.bytes]
    simp only [List.length_append, hlen]
    omega
  have hread : readHeaderPage t.mem minPageSize = page.take minPageSize := by
    rw [readHeaderPage_eq hl, f.bytes, List.append_assoc, List.take_append_of_le_length (by omega)]
  obtain ⟨h1, h2⟩ := parseHeader_take (e := u.header.endianness) (l := page) (n := minPageSize) le_rfl
  have he := hon.endianness
  have hp := hon.parsed
  rw [hread, h2, parseEndianness_of_slice f.headerPage.endianness] at he
  rw [hread, h1, ← Option.some_inj.mp he] at hp
  refine ⟨hon, ?_, hu⟩
  rw [← hp]
  exact f.headerPage.sameGeometry

end Create

end SimpleFlashFs
