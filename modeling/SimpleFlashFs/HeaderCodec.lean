import SimpleFlashFs.Create

namespace SimpleFlashFs

open Lib

theorem headerFields_length (h : Header) : h.fields.length = 22 := by
  simp [Header.fields]

section HeaderCodec

variable [Config] {s : Fs} {h : Header} {page : List UInt8}

-- the header page when the checksum lies behind the fields
structure HeaderImage (h : Header) (page : List UInt8) : Prop where
  length : page.length = h.pageSize
  magic : slice page 0 13 = h.magicString
  endianness : slice page 13 2 = Header.encodeEndianness h.endianness
  fields : slice page 15 22 = h.fields
  checksum : checksumOk h.endianness page = true

theorem header2page_image (hm : h.magicString.length = 13) (hp : 41 ≤ h.pageSize) :
    ∃ page, header2page h = .ok page ∧ HeaderImage h page := by
  have hel := encodeEndianness_length h.endianness
  have hfl := headerFields_length h
  have l0 : (List.replicate h.pageSize (0 : UInt8)).length = h.pageSize := List.length_replicate
  have l1 := overwrite_length (l := List.replicate h.pageSize (0 : UInt8)) (p := 0) (d := h.magicString)
    (by omega)
  have l2 := overwrite_length (l := overwrite (List.replicate h.pageSize (0 : UInt8)) 0 h.magicString)
    (p := 13) (d := Header.encodeEndianness h.endianness) (by omega)
  have l3 := overwrite_length (l := overwrite (overwrite (List.replicate h.pageSize (0 : UInt8)) 0
    h.magicString) 13 (Header.encodeEndianness h.endianness)) (p := 15) (d := h.fields) (by omega)
  have hmin : minPageSize ≤ h.pageSize := by
    unfold minPageSize
    omega
  refine ⟨_, by rw [header2page, if_pos ⟨by omega, hmin⟩], ?_, ?_, ?_, ?_, ?_⟩
  · rw [addPageChecksum_length _ (by omega)]
    omega
  · rw [slice_addPageChecksum _ (by omega) (by omega), slice_overwrite_disjoint (by omega) (by omega),
      slice_overwrite_disjoint (by omega) (by omega), ← hm, slice_overwrite_same (by omega)]
  · rw [slice_addPageChecksum _ (by omega) (by omega), slice_overwrite_disjoint (by omega) (by omega),
      ← hel, slice_overwrite_same (by omega)]
  · rw [slice_addPageChecksum _ (by omega) (by omega), ← hfl, slice_overwrite_same (by omega)]
  · exact checksumOk_addPageChecksum _ (by omega)

theorem HeaderImage.field {a b c : List UInt8} (hi : HeaderImage h page)
    (hf : h.fields = a ++ (b ++ c)) : slice page (15 + a.length) b.length = b := by
  have hl := headerFields_length h
  rw [hf] at hl
  simp only [List.length_append] at hl
  rw [← slice_slice (n := 22) (by omega), hi.fields, hf, slice_middle]

-- every field is found again where init looks for it
theorem HeaderImage.parseHeader (hi : HeaderImage h page) : parseHeader h.endianness page = h := by
  have h1 := hi.field (a := []) (b := putField h.endianness 2 h.version)
    (c := putField h.endianness 4 h.pageSize ++ (putField h.endianness 8 h.filesystemSize ++
      (putField h.endianness 4 h.maxInodes ++ (putField h.endianness 2 h.maxPathLen ++
        putField h.endianness 2 0))))
    (by simp only [Header.fields, List.append_assoc, List.nil_append])
  have h2 := hi.field (a := putField h.endianness 2 h.version) (b := putField h.endianness 4 h.pageSize)
    (c := putField h.endianness 8 h.filesystemSize ++ (putField h.endianness 4 h.maxInodes ++
      (putField h.endianness 2 h.maxPathLen ++ putField h.endianness 2 0)))
    (by simp only [Header.fields, List.append_assoc])
  have h3 := hi.field (a := putField h.endianness 2 h.version ++ putField h.endianness 4 h.pageSize)
    (b := putField h.endianness 8 h.filesystemSize)
    (c := putField h.endianness 4 h.maxInodes ++ (putField h.endianness 2 h.maxPathLen ++
      putField h.endianness 2 0))
    (by simp only [Header.fields, List.append_assoc])
  have h4 := hi.field (a := putField h.endianness 2 h.version ++ (putField h.endianness 4 h.pageSize ++
      putField h.endianness 8 h.filesystemSize)) (b := putField h.endianness 4 h.maxInodes)
    (c := putField h.endianness 2 h.maxPathLen ++ putField h.endianness 2 0)
    (by simp only [Header.fields, List.append_assoc])
  have h5 := hi.field (a := putField h.endianness 2 h.version ++ (putField h.endianness 4 h.pageSize ++
      (putField h.endianness 8 h.filesystemSize ++ putField h.endianness 4 h.maxInodes)))
    (b := putField h.endianness 2 h.maxPathLen) (c := putField h.endianness 2 0)
    (by simp only [Header.fields, List.append_assoc])
  simp only [List.length_append, List.length_nil, putField_length, Nat.add_zero, Nat.reduceAdd] at h1 h2 h3 h4 h5
  have g1 : getField h.endianness (slice page 15 2) = h.version := by
    rw [h1, getField_putField h.version_lt]
  have g2 : getField h.endianness (slice page 17 4) = h.pageSize := by
    rw [h2, getField_putField h.pageSize_lt]
  have g3 : getField h.endianness (slice page 21 8) = h.filesystemSize := by
    rw [h3, getField_putField h.filesystemSize_lt]
  have g4 : getField h.endianness (slice page 29 4) = h.maxInodes := by
    rw [h4, getField_putField h.maxInodes_lt]
  have g5 : getField h.endianness (slice page 33 2) = h.maxPathLen := by
    rw [h5, getField_putField h.maxPathLen_lt]
  have g0 := hi.magic
  cases h
  simp only [SimpleFlashFs.parseHeader, Header.mk.injEq]
  exact ⟨g0, trivial, g1, g2, g3, g4, g5⟩

theorem HeaderImage.parseChecksumType (hi : HeaderImage h page) :
    parseChecksumType h.endianness page = 0 := by
  have h6 := hi.field (a := putField h.endianness 2 h.version ++ (putField h.endianness 4 h.pageSize ++
      (putField h.endianness 8 h.filesystemSize ++ (putField h.endianness 4 h.maxInodes ++
        putField h.endianness 2 h.maxPathLen)))) (b := putField h.endianness 2 0) (c := [])
    (by simp only [Header.fields, List.append_assoc, List.append_nil])
  simp only [List.length_append, putField_length, Nat.reduceAdd] at h6
  rw [SimpleFlashFs.parseChecksumType, h6, getField_putField (by norm_num)]

omit [Config] in
theorem parseChecksumType_take {e : Endianness} {l : List UInt8} {n : ℕ} (hn : minPageSize ≤ n) :
    parseChecksumType e (l.take n) = parseChecksumType e l := by
  unfold minPageSize at hn
  rw [parseChecksumType, parseChecksumType, slice_take (show 35 + 2 ≤ n by omega)]

theorem HeaderImage.headerOn {m : Memory} {rest : List UInt8} (hi : HeaderImage h page)
    (hm : h.magicString = magickString) (hp : 41 ≤ h.pageSize) (hc : checkPageSize h = true)
    (hb : m.bytes = page ++ rest) : HeaderOn m h := by
  have hlen := hi.length
  have hfull : readHeaderPage m h.pageSize = page := by
    rw [readHeaderPage_eq (by rw [hb, List.length_append]; omega), hb, ← hlen, List.take_left]
  have hmin : readHeaderPage m minPageSize = page.take minPageSize := by
    have hle : minPageSize ≤ page.length := by
      unfold minPageSize
      omega
    rw [readHeaderPage_eq (by rw [hb, List.length_append]; omega), hb, List.take_append_of_le_length hle]
  obtain ⟨h1, h2⟩ := parseHeader_take (e := h.endianness) (l := page) (n := minPageSize) le_rfl
  constructor
  · rw [hmin, slice_take (by decide), hi.magic, hm]
  · rw [hmin, h2, parseEndianness_of_slice hi.endianness]
  · rw [hmin, h1, hi.parseHeader]
  · rw [hmin, parseChecksumType_take le_rfl, hi.parseChecksumType]
  · exact hc
  · rw [hfull]
    have := hi.checksum
    rw [checksumOk, decide_eq_true_eq] at this
    exact this.symm

-- what writing a header and mounting it again should give
structure HeaderRoundTrip (s : Fs) (h : Header) : Prop where
  init : ∃ t u, writeHeader h s = .ok true t ∧ initBase t = .ok true u ∧ u.header = h
  apart : 15 + h.fields.length ≤ h.pageSize - 4

theorem writeHeader_initBase_iff (hcfg : Config.pageSize = 0) (hmagic : h.magicString = magickString)
    (hmin : minPageSize ≤ h.pageSize) (hsize : 4 ≤ h.filesystemSize)
    (hfits : h.pageSize * h.filesystemSize ≤ s.mem.size) (hplan : s.mem.plan = []) :
    HeaderRoundTrip s h ↔ 41 ≤ h.pageSize := by
  constructor
  · intro hr
    have := hr.apart
    rw [headerFields_length] at this
    omega
  · intro hp
    obtain ⟨page, hpage, hi⟩ := header2page_image (h := h) (by rw [hmagic]; rfl) hp
    have hlen := hi.length
    have hle : h.pageSize ≤ s.mem.bytes.length :=
      (Nat.le_mul_of_pos_right _ (by omega)).trans hfits
    have hw : wp (writeHeader h) (fun r t => r = true ∧ t.mem.bytes = page ++ s.mem.bytes.drop h.pageSize)
        (fun _ _ => False) s := by
      simp only [writeHeader, setHeader, wp_bind, wp_modify, hpage, liftFault, wp_pure, perform, wp_get, wp_set,
        Memory.perform, hplan, true_and, Memory.record, PhysOp.address, PhysOp.content]
      rw [put_eq (by omega), overwrite, List.take_zero, List.nil_append, Nat.zero_add, hlen]
    have hc : checkPageSize h = true := by simp [checkPageSize, hmin, hcfg]
    unfold wp at hw
    cases ht : writeHeader h s with
    | error e t =>
      rw [ht] at hw
      exact hw.elim
    | ok r t =>
      rw [ht] at hw
      obtain ⟨rfl, hb⟩ := hw
      exact ⟨⟨t, t.withHeader h, ht, (hi.headerOn hmagic hp hc hb).initBase, rfl⟩,
        by rw [headerFields_length]; omega⟩

end HeaderCodec

-- the smallest filesystem that create accepts
def smallestHeader : Header := { Header.ofFields 1 37 4 2 50 with magicString := magickString }

def smallestFs : Fs := { variant := .dynamic, mem := { bytes := List.replicate 148 0xFF } }

-- what init says of a header that was just written
def remounted [Config] (s : Fs) (h : Header) : Option Bool :=
  match writeHeader h s with
  | .ok _ t =>
    match initBase t with
    | .ok mounted _ => some mounted
    | .error _ _ => none
  | .error _ _ => none

theorem headerRoundTrip_smallest : ¬ @HeaderRoundTrip dynamicConfig smallestFs smallestHeader ∧
    @remounted dynamicConfig smallestFs smallestHeader = some false := by
  refine ⟨fun h => ?_, by decide +kernel⟩
  have hl := @HeaderRoundTrip.apart dynamicConfig _ _ h
  rw [headerFields_length] at hl
  exact absurd hl (by decide)

def plainHeader : Header := { smallestHeader with
  endianness := .be
  pageSize := 41
  pageSize_lt := by decide }

theorem plain_fits :
    plainHeader.pageSize * plainHeader.filesystemSize ≤ (List.replicate 164 (0xFF : UInt8)).length := by
  rw [List.length_replicate]
  decide

theorem writeHeader_initBase_iff_plain :
    @HeaderRoundTrip dynamicConfig { variant := .dynamic, mem := { bytes := List.replicate 164 0xFF } }
      plainHeader ↔ 41 ≤ plainHeader.pageSize :=
  @writeHeader_initBase_iff dynamicConfig _ _ rfl rfl (by decide) (by decide) plain_fits rfl

end SimpleFlashFs
