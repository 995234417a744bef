import Mathlib.Logic.Function.Iterate
import SimpleFlashFs.InodeCodec
import SimpleFlashFs.NewestVersion

namespace SimpleFlashFs

open Lib

section Storage

-- what a container does with more than it can hold
inductive Overflow
  | throws
  | shortens
deriving DecidableEq, Repr

-- the containers of a configuration
structure Storage where
  nameCapacity : ℕ
  pagesCapacity : ℕ
  dataCapacity : ℕ
  name : Overflow := .throws
  reserve : Overflow := .throws
  pages : Overflow := .throws
  data_le : dataCapacity ≤ maxVectorSize := by decide
deriving DecidableEq, Repr

def dynamicStorage : Storage where
  nameCapacity := maxVectorSize
  pagesCapacity := maxVectorSize
  dataCapacity := maxVectorSize

namespace Storage

variable (c : Storage)

def assignName (page : List UInt8) (pos size : ℕ) : Except Fault (List UInt8) :=
  if size ≤ c.nameCapacity then readBytes page pos size
  else match c.name with
    | .throws => .error .thrown
    | .shortens => readBytes page pos c.nameCapacity

def reservePages (count : ℕ) : Except Fault Unit :=
  if count ≤ c.pagesCapacity ∨ c.reserve = .shortens then .ok () else .error .thrown

def pushPage (pages : List DataPage) (p : DataPage) : Except Fault (List DataPage) :=
  if pages.length < c.pagesCapacity then .ok (pages ++ [p])
  else match c.pages with
    | .throws => .error .thrown
    | .shortens => .ok pages

def resizeData (size : ℕ) : Except Fault (List UInt8) :=
  if size ≤ c.dataCapacity then .ok (List.replicate size 0) else .error .thrown

end Storage

end Storage

section Decoder

variable (c : Storage) (hd : Header) (corr : Bool) (page : List UInt8)

def readPagesIn : (left pos lenRead : ℕ) → DecodedPages → Except Fault DecodedPages
  | 0, _, _, d => .ok d
  | left + 1, pos, lenRead, d => do
    let pageId ← readField hd page pos 4
    if corr = true ∧ pageId ≥ hd.filesystemSize then
      readPagesIn left (pos + 4) lenRead
        { d with fileLen := reducedFileLen hd d.fileLen (left = 0), modified := true }
    else if corr = true ∧ lenRead ≥ d.fileLen then .ok { d with modified := true }
    else do
      let dataPages ← c.pushPage d.dataPages { pageId := pageId }
      readPagesIn left (pos + 4) (lenRead + hd.pageSize) { d with dataPages := dataPages }

-- what follows the fields of the record
def decodeDataIn (inode : Inode) : Except Fault FileHandle :=
  if inode.pages ≠ 0 then do
    c.reservePages inode.pages
    let d ← readPagesIn c hd corr page inode.pages (38 + inode.fileNameLen) 0 ⟨[], inode.fileLen, false⟩
    .ok { inode := { inode with dataPages := d.dataPages, fileLen := d.fileLen },
          modified := d.modified, connected := true }
  else if inode.fileLen > 0 then
    let inodeSpace := inodeDataSpaceSize hd inode.fileNameLen
    if inode.fileLen ≤ inodeSpace then do
      let data ← c.resizeData inodeSpace
      let bytes ← readBytes page (38 + inode.fileNameLen) inode.fileLen
      .ok { inode := { inode with inodeData := overwrite data 0 bytes }, connected := true }
    else .ok { inode := { inode with fileLen := 0 }, modified := true, connected := true }
  else .ok { inode := inode, connected := true }

def decodeInodeIn : Except Fault FileHandle := do
  let inodeNumber ← readField hd page 0 8
  let inodeVersionNumber ← readField hd page 8 8
  let fileNameLen ← readField hd page 16 2
  let fileName ← c.assignName page 18 fileNameLen
  let attributes ← readField hd page (18 + fileNameLen) 8
  let fileLen ← readField hd page (26 + fileNameLen) 8
  let pages ← readField hd page (34 + fileNameLen) 4
  decodeDataIn c hd corr page { inodeNumber, inodeVersionNumber, fileNameLen, fileName, attributes, fileLen, pages }

end Decoder

section Dynamic

variable {hd : Header} {corr : Bool} {page : List UInt8}

theorem bind_congr_ok {α β : Type} {x : Except Fault α} {f g : α → Except Fault β}
    (h : ∀ a, x = .ok a → f a = g a) : (x >>= f) = (x >>= g) := by
  cases x with
  | error e => rfl
  | ok a => exact h a rfl

theorem le_maxVectorSize {n : ℕ} (h : n < 2 ^ 32) : n ≤ maxVectorSize := by
  rw [maxVectorSize]
  omega

theorem resizeData_dynamic (size : ℕ) : dynamicStorage.resizeData size = resizeBytes [] size := by
  have hcapacity : dynamicStorage.dataCapacity = maxVectorSize := rfl
  rw [Storage.resizeData, resizeBytes, hcapacity, List.take_nil, List.nil_append, List.length_nil, Nat.sub_zero]
  generalize maxVectorSize = m
  by_cases h : size ≤ m
  · rw [if_pos h, if_neg (Nat.not_lt.mpr h)]
  · rw [if_neg h, if_pos (Nat.lt_of_not_le h)]

theorem readPagesIn_dynamic (left pos lenRead : ℕ) (d : DecodedPages)
    (hd' : d.dataPages.length + left ≤ maxVectorSize) :
    readPagesIn dynamicStorage hd corr page left pos lenRead d = readPages hd corr page left pos lenRead d := by
  induction left generalizing pos lenRead d with
  | zero => rfl
  | succ left ih =>
    rw [readPagesIn, readPages]
    apply congrArg (Except.bind _)
    funext pageId
    have hpush : dynamicStorage.pushPage d.dataPages { pageId := pageId } =
        .ok (d.dataPages ++ [{ pageId := pageId }]) := if_pos (by dsimp only [dynamicStorage]; omega)
    rw [hpush, ih _ _ _ (by dsimp only; omega)]
    split
    · rfl
    · split
      · rfl
      · apply ih
        rw [List.length_append, List.length_singleton]
        omega

theorem decodeInodeIn_dynamic (hd : Header) (corr : Bool) (page : List UInt8) :
    decodeInodeIn dynamicStorage hd corr page = decodeInode hd page corr := by
  unfold decodeInodeIn decodeInode
  apply bind_congr_ok
  intro inodeNumber _
  apply bind_congr_ok
  intro inodeVersionNumber _
  apply bind_congr_ok
  intro fileNameLen hname
  have hlt : fileNameLen < 2 ^ 16 := readField_lt hname
  have hassign : dynamicStorage.assignName page 18 fileNameLen = readBytes page 18 fileNameLen :=
    if_pos (le_maxVectorSize (by omega))
  rw [hassign]
  apply bind_congr_ok
  intro fileName _
  apply bind_congr_ok
  intro attributes _
  apply bind_congr_ok
  intro fileLen _
  apply bind_congr_ok
  intro pages hpages
  have hlt' : pages < 2 ^ 32 := readField_lt hpages
  have hreserve : dynamicStorage.reservePages pages = .ok () :=
    if_pos (Or.inl (le_maxVectorSize hlt'))
  unfold decodeDataIn
  dsimp only
  rw [hreserve, readPagesIn_dynamic _ _ _ _ (by rw [List.length_nil, Nat.zero_add]; exact le_maxVectorSize hlt')]
  split
  · rfl
  · split
    · split
      · rw [resizeData_dynamic]
      · rfl
    · rfl

end Dynamic

section Inside

variable {c : Storage} {hd : Header} {corr : Bool} {page : List UInt8}

-- the entries that are read from `pos` on
def entriesAt (hd : Header) (page : List UInt8) : (pos count : ℕ) → List ℕ
  | _, 0 => []
  | pos, count + 1 => getField hd.endianness (slice page pos 4) :: entriesAt hd page (pos + 4) count

-- get_inode drops the entry
def Outside (hd : Header) (corr : Bool) (pageId : ℕ) : Bool := corr && decide (pageId ≥ hd.filesystemSize)

-- the entry ends the loop: a surplus page, or one that the container refuses
def Storage.Stops (c : Storage) (hd : Header) (corr : Bool) (lenRead fileLen stored : ℕ) (read : List ℕ) (pageId : ℕ) :
    Prop :=
  Outside hd corr pageId = false ∧
    (corr = true ∧ (fun len => reducedFileLen hd len false)^[read.countP (Outside hd corr)] fileLen ≤
        lenRead + hd.pageSize * read.countP (fun id => ! Outside hd corr id) ∨
      c.pages = .throws ∧ c.pagesCapacity ≤ stored + read.countP (fun id => ! Outside hd corr id))

def Storage.EntriesInside (c : Storage) (hd : Header) (corr : Bool) (page : List UInt8)
    (left pos lenRead fileLen stored : ℕ) : Prop :=
  pos + 4 * left ≤ page.length ∨ ∃ k < left, pos + 4 * (k + 1) ≤ page.length ∧
    c.Stops hd corr lenRead fileLen stored (entriesAt hd page pos k) (getField hd.endianness (slice page (pos + 4 * k) 4))

theorem readField_eq_ok {pos size : ℕ} (h : pos + size ≤ page.length) :
    readField hd page pos size = .ok (getField hd.endianness (slice page pos size)) := if_pos h

theorem Storage.stops_cons_outside {lenRead fileLen stored id pageId : ℕ} {read : List ℕ} (ho : Outside hd corr id = true) :
    c.Stops hd corr lenRead fileLen stored (id :: read) pageId ↔
      c.Stops hd corr lenRead (reducedFileLen hd fileLen false) stored read pageId := by
  unfold Stops
  rw [List.countP_cons_of_pos ho, List.countP_cons_of_neg (by simp [ho]), Function.iterate_succ_apply]

theorem Storage.stops_cons_kept {lenRead fileLen stored id pageId : ℕ} {read : List ℕ} (ho : Outside hd corr id = false) :
    c.Stops hd corr lenRead fileLen stored (id :: read) pageId ↔
      c.Stops hd corr (lenRead + hd.pageSize) fileLen (stored + 1) read pageId := by
  unfold Stops
  rw [List.countP_cons_of_neg (by simp [ho]), List.countP_cons_of_pos (by simp [ho])]
  have hlen : lenRead + hd.pageSize * (read.countP (fun id => ! Outside hd corr id) + 1) =
      lenRead + hd.pageSize + hd.pageSize * read.countP (fun id => ! Outside hd corr id) := by ring
  have hcount : stored + (read.countP (fun id => ! Outside hd corr id) + 1) =
      stored + 1 + read.countP (fun id => ! Outside hd corr id) := by ring
  rw [hlen, hcount]

theorem Storage.entriesInside_cons {left pos lenRead fileLen stored lenRead' fileLen' stored' : ℕ}
    (hstop : ¬ c.Stops hd corr lenRead fileLen stored [] (getField hd.endianness (slice page pos 4)))
    (hnext : ∀ read pageId, left ≠ 0 → (c.Stops hd corr lenRead fileLen stored
        (getField hd.endianness (slice page pos 4) :: read) pageId ↔
      c.Stops hd corr lenRead' fileLen' stored' read pageId)) :
    c.EntriesInside hd corr page (left + 1) pos lenRead fileLen stored ↔
      c.EntriesInside hd corr page left (pos + 4) lenRead' fileLen' stored' := by
  unfold EntriesInside
  have hpos : ∀ k, pos + 4 * (k + 1) = pos + 4 + 4 * k := fun k => by ring
  rw [Nat.exists_lt_succ_left, hpos]
  apply or_congr Iff.rfl
  constructor
  · rintro (⟨-, h⟩ | ⟨k, hk, hin, h⟩)
    · exact absurd h hstop
    · rw [hpos] at hin h
      exact ⟨k, hk, hin, (hnext _ _ (by omega)).mp h⟩
  · rintro ⟨k, hk, hin, h⟩
    apply Or.inr
    apply Exists.intro k
    rw [hpos, hpos]
    exact ⟨hk, hin, (hnext _ _ (by omega)).mpr h⟩

theorem readPagesIn_inside (left : ℕ) {pos : ℕ} (lenRead : ℕ) (d : DecodedPages) (hpos : pos ≤ page.length) :
    readPagesIn c hd corr page left pos lenRead d ≠ .error .undefined ↔
      c.EntriesInside hd corr page left pos lenRead d.fileLen d.dataPages.length := by
  induction left generalizing pos lenRead d with
  | zero => exact iff_of_true nofun (Or.inl hpos)
  | succ left ih =>
    rw [readPagesIn]
    by_cases hin : pos + 4 ≤ page.length
    · rw [readField_eq_ok hin, ok_bind]
      generalize hid : getField hd.endianness (slice page pos 4) = id
      split
      · next ho =>
        have hout : Outside hd corr id = true := by simpa [Outside] using ho
        rw [ih _ _ hin]
        symm
        apply Storage.entriesInside_cons
        · rw [hid]
          exact fun h => absurd (h.1.symm.trans hout) (by decide)
        · intro read pageId hleft
          rw [hid, Storage.stops_cons_outside hout, decide_eq_false hleft]
      · next ho =>
        have hout : Outside hd corr id = false := by simpa [Outside] using ho
        have hfirst : c.Stops hd corr lenRead d.fileLen d.dataPages.length [] id →
            c.EntriesInside hd corr page (left + 1) pos lenRead d.fileLen d.dataPages.length := by
          intro h
          apply Or.inr
          exact ⟨0, Nat.succ_pos left, hin, by rw [Nat.mul_zero, Nat.add_zero, hid]; exact h⟩
        split
        · next hs => exact iff_of_true nofun (hfirst ⟨hout, Or.inl hs⟩)
        · next hs =>
          have hopen : (d.dataPages.length < c.pagesCapacity ∨ c.pages = .shortens) →
              ¬ c.Stops hd corr lenRead d.fileLen d.dataPages.length [] id := by
            rintro hroom ⟨-, h | ⟨h1, h2⟩⟩
            · exact hs h
            · rw [h1] at hroom
              exact absurd (hroom.resolve_right nofun) (Nat.not_lt.mpr h2)
          unfold Storage.pushPage
          by_cases hroom : d.dataPages.length < c.pagesCapacity
          · rw [if_pos hroom, ok_bind, ih _ _ hin, List.length_append, List.length_singleton]
            symm
            apply Storage.entriesInside_cons
            · rw [hid]
              exact hopen (Or.inl hroom)
            · intro read pageId _
              rw [hid, Storage.stops_cons_kept hout]
          · rw [if_neg hroom]
            cases hfull : c.pages with
            | throws => exact iff_of_true nofun (hfirst ⟨hout, Or.inr ⟨hfull, Nat.le_of_not_lt hroom⟩⟩)
            | shortens =>
              dsimp only
              rw [ok_bind, ih _ _ hin]
              symm
              apply Storage.entriesInside_cons
              · rw [hid]
                exact hopen (Or.inr hfull)
              · intro read pageId _
                rw [hid, Storage.stops_cons_kept hout, Storage.Stops, Storage.Stops, hfull]
                simp only [reduceCtorEq, false_and]
    · have hread : readField hd page pos 4 = .error .undefined := if_neg hin
      rw [hread]
      apply iff_of_false
      · exact not_not.mpr rfl
      · rintro (h | ⟨k, -, h, -⟩)
        · omega
        · omega

theorem Storage.pushPage_stored {pages pages' : List DataPage} {p : DataPage} (hle : pages.length ≤ c.pagesCapacity)
    (h : c.pushPage pages p = .ok pages') : pages'.length ≤ c.pagesCapacity := by
  unfold pushPage at h
  split at h
  · rw [← Except.ok.inj h, List.length_append, List.length_singleton]
    omega
  · split at h
    · cases h
    · rw [← Except.ok.inj h]
      exact hle

theorem readPagesIn_stored (left pos lenRead : ℕ) {d d' : DecodedPages} (hle : d.dataPages.length ≤ c.pagesCapacity)
    (h : readPagesIn c hd corr page left pos lenRead d = .ok d') : d'.dataPages.length ≤ c.pagesCapacity := by
  induction left generalizing pos lenRead d with
  | zero =>
    rw [← Except.ok.inj h]
    exact hle
  | succ left ih =>
    rw [readPagesIn] at h
    obtain ⟨id, -, h⟩ := bind_eq_ok.mp h
    split at h
    · apply ih _ _ _ h
      exact hle
    · split at h
      · rw [← Except.ok.inj h]
        exact hle
      · obtain ⟨pages, hpush, h⟩ := bind_eq_ok.mp h
        apply ih _ _ _ h
        exact Storage.pushPage_stored hle hpush

theorem Storage.assignName_stored {name : List UInt8} {pos size : ℕ} (h : c.assignName page pos size = .ok name) :
    name.length ≤ c.nameCapacity := by
  unfold assignName at h
  split at h
  · next hle => exact (readBytes_length h).trans_le hle
  · split at h
    · cases h
    · exact (readBytes_length h).le

theorem decodeInodeIn_stored {h : FileHandle} (hdec : decodeInodeIn c hd corr page = .ok h) :
    h.inode.fileName.length ≤ c.nameCapacity ∧ h.inode.dataPages.length ≤ c.pagesCapacity := by
  unfold decodeInodeIn at hdec
  obtain ⟨inodeNumber, -, hdec⟩ := bind_eq_ok.mp hdec
  obtain ⟨inodeVersionNumber, -, hdec⟩ := bind_eq_ok.mp hdec
  obtain ⟨fileNameLen, -, hdec⟩ := bind_eq_ok.mp hdec
  obtain ⟨fileName, hname, hdec⟩ := bind_eq_ok.mp hdec
  obtain ⟨attributes, -, hdec⟩ := bind_eq_ok.mp hdec
  obtain ⟨fileLen, -, hdec⟩ := bind_eq_ok.mp hdec
  obtain ⟨pages, -, hdec⟩ := bind_eq_ok.mp hdec
  have hstored := Storage.assignName_stored hname
  unfold decodeDataIn at hdec
  dsimp only at hdec
  split at hdec
  · obtain ⟨-, -, hdec⟩ := bind_eq_ok.mp hdec
    obtain ⟨d, hpages, hdec⟩ := bind_eq_ok.mp hdec
    rw [← Except.ok.inj hdec]
    exact ⟨hstored, readPagesIn_stored _ _ _ (Nat.zero_le _) hpages⟩
  · split at hdec
    · split at hdec
      · obtain ⟨data, -, hdec⟩ := bind_eq_ok.mp hdec
        obtain ⟨bytes, -, hdec⟩ := bind_eq_ok.mp hdec
        rw [← Except.ok.inj hdec]
        exact ⟨hstored, Nat.zero_le _⟩
      · rw [← Except.ok.inj hdec]
        exact ⟨hstored, Nat.zero_le _⟩
    · rw [← Except.ok.inj hdec]
      exact ⟨hstored, Nat.zero_le _⟩

def nameLenOf (hd : Header) (page : List UInt8) : ℕ := getField hd.endianness (slice page 16 2)

def fileLenOf (hd : Header) (page : List UInt8) : ℕ := getField hd.endianness (slice page (26 + nameLenOf hd page) 8)

def pagesOf (hd : Header) (page : List UInt8) : ℕ := getField hd.endianness (slice page (34 + nameLenOf hd page) 4)

-- the lengths of the record fit into the page, as far as the containers let get_inode follow them
def Storage.ReadsInside (c : Storage) (hd : Header) (corr : Bool) (page : List UInt8) : Prop :=
  18 ≤ page.length ∧ (c.name = .throws ∧ c.nameCapacity < nameLenOf hd page ∨
    38 + nameLenOf hd page ≤ page.length ∧ (pagesOf hd page = 0 ∨
      c.reserve = .throws ∧ c.pagesCapacity < pagesOf hd page ∨
      c.EntriesInside hd corr page (pagesOf hd page) (38 + nameLenOf hd page) 0 (fileLenOf hd page) 0))

theorem bind_ne_undefined {α β : Type} {x : Except Fault α} {f : α → Except Fault β} :
    (x >>= f) ≠ .error .undefined ↔ x ≠ .error .undefined ∧ ∀ a, x = .ok a → f a ≠ .error .undefined := by
  cases x with
  | error e =>
    constructor
    · intro h
      exact ⟨fun he => h (congrArg Except.error (Except.error.inj he)), nofun⟩
    · intro h he
      exact h.1 (congrArg Except.error (Except.error.inj he))
  | ok a => exact ⟨fun h => ⟨nofun, fun b hb => Except.ok.inj hb ▸ h⟩, fun h => h.2 a rfl⟩

theorem readField_bind_ne {β : Type} {pos size : ℕ} {f : ℕ → Except Fault β} :
    (readField hd page pos size >>= f) ≠ .error .undefined ↔
      pos + size ≤ page.length ∧ f (getField hd.endianness (slice page pos size)) ≠ .error .undefined := by
  by_cases hin : pos + size ≤ page.length
  · rw [readField_eq_ok hin, ok_bind]
    exact (and_iff_right hin).symm
  · have hread : readField hd page pos size = .error .undefined := if_neg hin
    rw [hread]
    exact iff_of_false (not_not.mpr rfl) (fun h => hin h.1)

theorem Storage.assignName_cases (c : Storage) (page : List UInt8) (pos size : ℕ) :
    (c.name = .throws ∧ c.nameCapacity < size) ∧ c.assignName page pos size = .error .thrown ∨
      ¬ (c.name = .throws ∧ c.nameCapacity < size) ∧ ((∃ name, c.assignName page pos size = .ok name) ∨
        c.assignName page pos size = .error .undefined ∧ page.length < pos + size) := by
  have hread : ∀ n ≤ size, (∃ name, readBytes page pos n = .ok name) ∨
      readBytes page pos n = .error .undefined ∧ page.length < pos + size := by
    intro n hn
    unfold readBytes
    split
    · exact Or.inl ⟨_, rfl⟩
    · exact Or.inr ⟨rfl, by omega⟩
  unfold assignName
  by_cases hle : size ≤ c.nameCapacity
  · rw [if_pos hle]
    exact Or.inr ⟨fun h => absurd h.2 (Nat.not_lt.mpr hle), hread size le_rfl⟩
  · rw [if_neg hle]
    cases hn : c.name with
    | throws => exact Or.inl ⟨⟨rfl, Nat.lt_of_not_le hle⟩, rfl⟩
    | shortens => exact Or.inr ⟨nofun, hread _ (Nat.le_of_not_le hle)⟩

-- the length of the data is compared with the space, which throws when it wraps around
theorem resizeData_wrapped {n : ℕ} (hn : n < 2 ^ 16) (hfit : hd.pageSize < 42 + n) :
    c.resizeData (inodeDataSpaceSize hd n) = .error .thrown := by
  have hcap := c.data_le
  rw [maxVectorSize] at hcap
  apply if_neg
  rw [inodeDataSpaceSize, Nat.mod_eq_of_lt (by omega)]
  omega

theorem decodeDataIn_inside {inode : Inode} (hlen : page.length = hd.pageSize) (hn : inode.fileNameLen < 2 ^ 16)
    (hin : 38 + inode.fileNameLen ≤ page.length) :
    decodeDataIn c hd corr page inode ≠ .error .undefined ↔
      inode.pages = 0 ∨ c.reserve = .throws ∧ c.pagesCapacity < inode.pages ∨
        c.EntriesInside hd corr page inode.pages (38 + inode.fileNameLen) 0 inode.fileLen 0 := by
  unfold decodeDataIn
  split
  · next hp =>
    rw [or_iff_right hp, bind_ne_undefined]
    unfold Storage.reservePages
    by_cases hcap : inode.pages ≤ c.pagesCapacity ∨ c.reserve = .shortens
    · have hloop : _ ↔ c.EntriesInside hd corr page inode.pages (38 + inode.fileNameLen) 0 inode.fileLen 0 :=
        readPagesIn_inside inode.pages 0 ⟨[], inode.fileLen, false⟩ hin
      rw [if_pos hcap, or_iff_right, ← hloop]
      · constructor
        · intro h
          exact (bind_ne_undefined.mp (h.2 () rfl)).1
        · intro h
          apply And.intro nofun
          intro _ _
          exact bind_ne_undefined.mpr ⟨h, nofun⟩
      · rintro ⟨h1, h2⟩
        rw [h1] at hcap
        exact absurd (hcap.resolve_right nofun) (Nat.not_le.mpr h2)
    · rw [if_neg hcap]
      apply iff_of_true ⟨nofun, nofun⟩
      obtain ⟨h1, h2⟩ := not_or.mp hcap
      apply Or.inl
      apply And.intro _ (Nat.lt_of_not_le h1)
      cases hr : c.reserve with
      | throws => rfl
      | shortens => exact absurd hr h2
  · next hp =>
    apply iff_of_true _ (Or.inl (not_not.mp hp))
    split
    · dsimp only
      split
      · next hle =>
        by_cases hfit : 42 + inode.fileNameLen ≤ hd.pageSize
        · rw [inodeDataSpaceSize_eq hfit] at hle
          have hbytes : readBytes page (38 + inode.fileNameLen) inode.fileLen =
              .ok (slice page (38 + inode.fileNameLen) inode.fileLen) := if_pos (by omega)
          rw [hbytes, bind_ne_undefined]
          constructor
          · unfold Storage.resizeData
            split <;> nofun
          · nofun
        · rw [resizeData_wrapped hn (Nat.lt_of_not_le hfit)]
          nofun
      · nofun
    · nofun

-- the code compares none of these lengths with the page
theorem decodeInodeIn_inside (c : Storage) (hd : Header) (corr : Bool) (page : List UInt8)
    (hlen : page.length = hd.pageSize) :
    (decodeInodeIn c hd corr page ≠ .error .undefined ∧ ∀ h, decodeInodeIn c hd corr page = .ok h →
      h.inode.fileName.length ≤ c.nameCapacity ∧ h.inode.dataPages.length ≤ c.pagesCapacity) ↔
        c.ReadsInside hd corr page := by
  apply (and_iff_left fun h => decodeInodeIn_stored).trans
  have hn : nameLenOf hd page < 2 ^ 16 := getField_slice_lt _ _ _ _
  unfold decodeInodeIn Storage.ReadsInside
  rw [readField_bind_ne, readField_bind_ne, readField_bind_ne, bind_ne_undefined]
  simp only [readField_bind_ne]
  change 0 + 8 ≤ page.length ∧ 8 + 8 ≤ page.length ∧ 16 + 2 ≤ page.length ∧
    c.assignName page 18 (nameLenOf hd page) ≠ _ ∧ (∀ name, c.assignName page 18 (nameLenOf hd page) = .ok name →
      18 + nameLenOf hd page + 8 ≤ page.length ∧ 26 + nameLenOf hd page + 8 ≤ page.length ∧
        34 + nameLenOf hd page + 4 ≤ page.length ∧ decodeDataIn c hd corr page _ ≠ _) ↔ _
  rcases c.assignName_cases page 18 (nameLenOf hd page) with ⟨hrefused, hname⟩ | ⟨hkept, hname⟩
  · rw [hname]
    constructor
    · rintro ⟨-, -, h18, -, -⟩
      exact ⟨h18, Or.inl hrefused⟩
    · rintro ⟨h18, -⟩
      exact ⟨by omega, by omega, h18, nofun, nofun⟩
  · rw [or_iff_right hkept]
    constructor
    · rintro ⟨-, -, h18, hne, hrest⟩
      obtain ⟨name, hok⟩ := hname.resolve_right (fun h => hne h.1)
      obtain ⟨-, -, h38, hdata⟩ := hrest name hok
      have hin : 38 + nameLenOf hd page ≤ page.length := by omega
      exact ⟨h18, hin, (decodeDataIn_inside hlen hn hin).mp hdata⟩
    · rintro ⟨h18, hin, hdata⟩
      have hne : c.assignName page 18 (nameLenOf hd page) ≠ .error .undefined := by
        intro h
        obtain ⟨name, hok⟩ := hname.resolve_right (fun h => absurd h.2 (by omega))
        rw [h] at hok
        cases hok
      refine ⟨by omega, by omega, h18, hne, fun name _ => ⟨by omega, by omega, by omega, ?_⟩⟩
      exact (decodeDataIn_inside hlen hn hin).mpr hdata

end Inside

def fixedStorage : Storage where
  nameCapacity := 32
  pagesCapacity := 8
  dataCapacity := 64

-- a record that names a length of 65535 bytes
def longNamePage : List UInt8 :=
  @addPageChecksum dynamicConfig .be (List.replicate 16 0 ++ [255, 255] ++ List.replicate 46 0)

theorem decodeInodeIn_inside_refused : (decodeInodeIn fixedStorage codecHeader true longNamePage ≠ .error .undefined ∧
    ∀ h, decodeInodeIn fixedStorage codecHeader true longNamePage = .ok h →
      h.inode.fileName.length ≤ 32 ∧ h.inode.dataPages.length ≤ 8) ↔
        fixedStorage.ReadsInside codecHeader true longNamePage :=
  decodeInodeIn_inside fixedStorage codecHeader true longNamePage (by decide +kernel)

theorem decodeInode_readsOutside : longNamePage.length = codecHeader.pageSize ∧
    @checksumOk dynamicConfig codecHeader.endianness longNamePage = true ∧
      decodeInodeIn dynamicStorage codecHeader true longNamePage = .error .undefined := by
  decide +kernel

end SimpleFlashFs
