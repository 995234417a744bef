import SimpleFlashFs.NoDel
import SimpleFlashFs.Cursor

namespace SimpleFlashFs

open Lib

-- max_inodes of create_default_header without the 32 bits of the field
def intendedMaxInodes (filesystemSize : ℕ) : ℕ :=
  let maxInodes := max (filesystemSize / 10 * 2) 10
  if maxInodes > filesystemSize then 2 else maxInodes

-- the header page, the inode pages and at least one data page lie inside of the memory
structure SoundLayout (hd : Header) : Prop where
  inodes : 1 ≤ hd.maxInodes
  inside : hd.maxInodes + 2 ≤ hd.filesystemSize
  exact : hd.maxInodes = intendedMaxInodes hd.filesystemSize
  maxFileSize : getMaxFileSize hd = hd.pageSize * (hd.filesystemSize - 1 - hd.maxInodes)
  filled : allDataPages hd ≠ none

def LayoutFits (pageSize filesystemSize : ℕ) : Prop :=
  filesystemSize < 10 ∧ 2 * pageSize < 2 ^ 32 ∨
    12 ≤ filesystemSize ∧ filesystemSize ≤ 2 ^ 32 ∧ max (filesystemSize / 10 * 2) 10 * pageSize < 2 ^ 32

section Layout

variable {hd : Header} {p f : ℕ}

theorem allDataPages_eq_none : allDataPages hd = none ↔ 2 ^ 32 ≤ subU64 hd.filesystemSize 1 := by
  unfold allDataPages
  dsimp only
  split
  · next h => exact iff_of_true rfl h
  · next h => exact iff_of_false (Option.some_ne_none _) h

theorem subU64_one (h : 1 ≤ f) (hf : f < 2 ^ 64) : subU64 f 1 = f - 1 := by
  rw [subU64, show f + 2 ^ 64 - 1 = (f - 1) + 2 ^ 64 by omega, Nat.add_mod_right, Nat.mod_eq_of_lt (by omega)]

theorem filled_iff (h : 1 ≤ hd.filesystemSize) : allDataPages hd ≠ none ↔ hd.filesystemSize ≤ 2 ^ 32 := by
  have hlt := hd.filesystemSize_lt
  rw [Ne, allDataPages_eq_none, subU64_one h hlt]
  omega

theorem intended_cases (h : 4 ≤ f) : f < 10 ∧ intendedMaxInodes f = 2 ∨
    10 ≤ f ∧ intendedMaxInodes f = max (f / 10 * 2) 10 := by
  simp only [intendedMaxInodes]
  split
  · left
    omega
  · right
    omega

theorem maxInodesOf_eq (hf : f ≤ 2 ^ 32) : maxInodesOf f = intendedMaxInodes f := by
  rw [maxInodesOf, intendedMaxInodes, Nat.mod_eq_of_lt (by omega)]

-- the product of the two 32 bit fields is taken in 32 bits
theorem getMaxFileSize_eq (hf : hd.filesystemSize ≤ 2 ^ 32) (hin : hd.maxInodes + 1 ≤ hd.filesystemSize) :
    getMaxFileSize hd = hd.pageSize * (hd.filesystemSize - 1) - (hd.maxInodes * hd.pageSize) % 2 ^ 32 := by
  have hp := hd.pageSize_lt
  have hlt := hd.filesystemSize_lt
  have hprod : hd.pageSize * (hd.filesystemSize - 1) < 2 ^ 64 := by
    calc hd.pageSize * (hd.filesystemSize - 1) ≤ hd.pageSize * 2 ^ 32 := Nat.mul_le_mul_left _ (by omega)
      _ < 2 ^ 32 * 2 ^ 32 := Nat.mul_lt_mul_of_pos_right hp (by decide)
      _ = 2 ^ 64 := by decide
  have hle : hd.maxInodes * hd.pageSize ≤ hd.pageSize * (hd.filesystemSize - 1) := by
    rw [Nat.mul_comm]
    exact Nat.mul_le_mul_left _ (by omega)
  have hmod := Nat.mod_le (hd.maxInodes * hd.pageSize) (2 ^ 32)
  rw [getMaxFileSize, subU64_one (by omega) hlt, Nat.mod_eq_of_lt hprod]
  generalize hd.pageSize * (hd.filesystemSize - 1) = total at *
  generalize (hd.maxInodes * hd.pageSize) % 2 ^ 32 = inodes at *
  rw [subU64, show total + 2 ^ 64 - inodes = (total - inodes) + 2 ^ 64 by omega, Nat.add_mod_right,
    Nat.mod_eq_of_lt (by omega)]

theorem maxFileSize_iff (hf : hd.filesystemSize ≤ 2 ^ 32) (hin : hd.maxInodes + 1 ≤ hd.filesystemSize) :
    getMaxFileSize hd = hd.pageSize * (hd.filesystemSize - 1 - hd.maxInodes) ↔ hd.maxInodes * hd.pageSize < 2 ^ 32 := by
  have hle : hd.maxInodes * hd.pageSize ≤ hd.pageSize * (hd.filesystemSize - 1) := by
    rw [Nat.mul_comm]
    exact Nat.mul_le_mul_left _ (by omega)
  have hdiv := Nat.div_add_mod (hd.maxInodes * hd.pageSize) (2 ^ 32)
  have hdata : hd.pageSize * (hd.filesystemSize - 1 - hd.maxInodes) =
      hd.pageSize * (hd.filesystemSize - 1) - hd.maxInodes * hd.pageSize := by
    rw [Nat.mul_sub, Nat.mul_comm _ hd.maxInodes]
  rw [getMaxFileSize_eq hf hin, hdata]
  constructor
  · intro he
    by_contra hge
    have hmod := Nat.mod_lt (hd.maxInodes * hd.pageSize) (show 2 ^ 32 > 0 by decide)
    omega
  · intro hlt
    rw [Nat.mod_eq_of_lt hlt]

end Layout

theorem defaultLayout_iff {p f : ℕ} (hp : p < 2 ^ 32) (hf : f < 2 ^ 64) (hmin : minPageSize ≤ p) (hfour : 4 ≤ f) :
    SoundLayout (createDefaultHeader p f hp hf) ↔ LayoutFits p f := by
  have hpos : 37 ≤ p := hmin
  have hcases := intended_cases hfour
  generalize hd' : createDefaultHeader p f hp hf = hd
  have hpage : hd.pageSize = p := by rw [← hd']; rfl
  have hsize : hd.filesystemSize = f := by rw [← hd']; rfl
  have hinodes : hd.maxInodes = maxInodesOf f := by rw [← hd']; rfl
  constructor
  · intro hs
    have hfill := (filled_iff (by omega)).mp hs.filled
    have hin := hs.inside
    have hex := hs.exact
    have hmax := (maxFileSize_iff hfill (by omega)).mp hs.maxFileSize
    rw [hsize] at hfill hin hex
    rw [hex, hpage] at hmax
    rw [hex] at hin
    rcases hcases with ⟨hlt, he⟩ | ⟨hge, he⟩
    · rw [he] at hmax
      exact Or.inl ⟨hlt, hmax⟩
    · rw [he] at hmax hin
      exact Or.inr ⟨by omega, hfill, hmax⟩
  · intro hfits
    have hle : f ≤ 2 ^ 32 := by
      rcases hfits with ⟨h, -⟩ | ⟨-, h, -⟩
      · omega
      · exact h
    have hex : hd.maxInodes = intendedMaxInodes f := hinodes.trans (maxInodesOf_eq hle)
    have hval : hd.maxInodes + 2 ≤ f ∧ 1 ≤ hd.maxInodes ∧ hd.maxInodes * p < 2 ^ 32 := by
      rw [hex]
      rcases hfits with ⟨hlt, hprod⟩ | ⟨hge, -, hprod⟩
      · obtain ⟨-, he⟩ := hcases.resolve_right (by omega)
        rw [he]
        exact ⟨by omega, by omega, hprod⟩
      · obtain ⟨-, he⟩ := hcases.resolve_left (by omega)
        rw [he]
        exact ⟨by omega, by omega, hprod⟩
    obtain ⟨hin, hone, hprod⟩ := hval
    refine ⟨hone, by rw [hsize]; exact hin, by rw [hsize]; exact hex, ?_, ?_⟩
    · apply (maxFileSize_iff (by rw [hsize]; exact hle) (by omega)).mpr
      rwa [hpage]
    · exact (filled_iff (by omega)).mpr (by rw [hsize]; exact hle)

theorem defaultLayout_iff_large : SoundLayout (createDefaultHeader 256 512 (by decide) (by decide)) ↔ LayoutFits 256 512 :=
  defaultLayout_iff _ _ (by decide) (by decide)

-- a memory of ten pages
def tenPages : Fs where
  variant := .dynamic
  mem := { bytes := List.replicate 640 0 }

-- the inode pages reach behind the end of the memory, and there is no data page
theorem defaultLayout_tenPages :
    ∃ t, @create dynamicConfig (createDefaultHeader 64 10 (by decide) (by decide)) tenPages = .ok true t ∧
      ¬ SoundLayout t.header := by
  have hrun : passes (@create dynamicConfig (createDefaultHeader 64 10 (by decide) (by decide)))
      (fun r t => decide (r = true ∧ t.header.maxInodes = 10 ∧ t.header.filesystemSize = 10)) tenPages = true := by
    decide +kernel
  obtain ⟨r, t, hc, ht⟩ := returns_of_passes hrun
  obtain ⟨rfl, hm, hf⟩ := of_decide_eq_true ht
  refine ⟨t, hc, fun hs => ?_⟩
  have hin := hs.inside
  omega

section Capacity

-- the space for data inside of the inode, and for page ids, without a wrap
structure CapacityExact (hd : Header) (h : FileHandle) : Prop where
  fits : 42 + h.inode.fileNameLen ≤ hd.pageSize
  space : getInodeDataSpaceSize hd h = hd.pageSize - (42 + h.inode.fileNameLen)
  pages : getMaxInodeDataPages hd h = (hd.pageSize - (42 + h.inode.fileNameLen)) / 4
  below : getInodeDataSpaceSize hd h < hd.pageSize

theorem capacityExact_iff (hd : Header) (h : FileHandle) : CapacityExact hd h ↔ 42 + h.inode.fileNameLen ≤ hd.pageSize := by
  constructor
  · exact CapacityExact.fits
  · intro hfit
    have hspace : getInodeDataSpaceSize hd h = hd.pageSize - (42 + h.inode.fileNameLen) := inodeDataSpaceSize_eq hfit
    refine ⟨hfit, hspace, ?_, ?_⟩
    · rw [getMaxInodeDataPages, hspace]
    · rw [hspace]
      omega

variable [Config] {s t : Fs} {h : FileHandle} {name : List UInt8} {mode : OpenMode}

omit [Config] in
theorem handleAppendMode_inode (mode : OpenMode) (h : FileHandle) : (handleAppendMode mode h).inode = h.inode := rfl

-- the name of a created file was accepted
theorem wp_openNew_nameLen (name : List UInt8) (mode : OpenMode) :
    wp (openNew name mode) (fun h t => h.connected = true →
      h.inode.fileNameLen = name.length ∧ name.length ≤ t.header.maxPathLen) (fun _ _ => True) s := by
  rw [openNew]
  apply wp_bind_any
  intro handle u
  rw [wp_bind, wp_get, wp_ite]
  refine ⟨fun _ => by simp, fun _ => ?_⟩
  rw [wp_ite]
  constructor
  · exact fun _ => wp_bind_any fun _ _ => by simp
  · intro hlen _
    have hlen := Nat.le_of_not_gt hlen
    have hlt := u.header.maxPathLen_lt
    refine ⟨?_, hlen⟩
    rw [handleAppendMode_inode]
    exact Nat.mod_eq_of_lt (by omega)

theorem inlineCapacity_iff (hd : Header) :
    ((∀ h : FileHandle, h.inode.fileNameLen ≤ hd.maxPathLen → CapacityExact hd h) ↔
      42 + hd.maxPathLen ≤ hd.pageSize) ∧
    ∀ (s t : Fs) (name : List UInt8) (mode : OpenMode) (h : FileHandle), openNew name mode s = .ok h t →
      h.connected = true → t.header = hd → h.inode.fileNameLen = name.length ∧ h.inode.fileNameLen ≤ hd.maxPathLen := by
  constructor
  · constructor
    · intro hall
      exact (hall { inode := { fileNameLen := hd.maxPathLen } } le_rfl).fits
    · intro hfit h hlen
      exact (capacityExact_iff hd h).mpr (by omega)
  · rintro s t name mode h hopen hc rfl
    obtain ⟨hlen, hle⟩ := wp_ok (wp_openNew_nameLen name mode) hopen hc
    exact ⟨hlen, hlen ▸ hle⟩

end Capacity

-- a name of thirty bytes in pages of 64 bytes
theorem openNew_wrapsCapacity : ∃ h t, @openNew dynamicConfig (List.replicate 30 97) { out := true } erasedFs = .ok h t ∧
    h.connected = true ∧ minPageSize ≤ t.header.pageSize ∧ h.inode.fileNameLen ≤ t.header.maxPathLen ∧
      ¬ CapacityExact t.header h := by
  have hrun : passes (@openNew dynamicConfig (List.replicate 30 97) { out := true })
      (fun h t => decide (h.connected = true ∧ minPageSize ≤ t.header.pageSize ∧
        h.inode.fileNameLen ≤ t.header.maxPathLen ∧ t.header.pageSize < 42 + h.inode.fileNameLen)) erasedFs = true := by
    decide +kernel
  obtain ⟨h, t, hopen, ht⟩ := returns_of_passes hrun
  obtain ⟨hc, hmin, hlen, hshort⟩ := of_decide_eq_true ht
  exact ⟨h, t, hopen, hc, hmin, hlen, fun he => absurd he.fits (Nat.not_le.mpr hshort)⟩

end SimpleFlashFs
