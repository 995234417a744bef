import SimpleFlashFs.View

namespace SimpleFlashFs

open Lib

section Lists

theorem slice_middle {α : Type} (a b c : List α) : slice (a ++ (b ++ c)) a.length b.length = b := by
  simp [slice]

theorem putField_mod (e : Endianness) (w v : ℕ) : putField e w v = putField e w (v % 256 ^ w) := by
  have h : leBytes w v = leBytes w (v % 256 ^ w) := by
    have h1 := leBytes_leValue (leBytes w v)
    rwa [leBytes_length, leValue_leBytes, eq_comm] at h1
  cases e with
  | le => rw [putField, putField, autoEndianess, autoEndianess, h]
  | be => rw [putField_be, putField_be, h]

theorem getField_putField_mod (e : Endianness) (w v : ℕ) :
    getField e (putField e w v) = v % 256 ^ w := by
  rw [putField_mod, getField_putField (Nat.mod_lt _ (by positivity))]

end Lists

def idBytes (e : Endianness) (dataPages : List DataPage) : List UInt8 :=
  dataPages.flatMap fun p => putField e 4 p.pageId

theorem idBytes_length (e : Endianness) (dataPages : List DataPage) :
    (idBytes e dataPages).length = 4 * dataPages.length := by
  induction dataPages with
  | nil => rfl
  | cons p rest ih =>
    simp only [idBytes, List.flatMap_cons, List.length_append, putField_length,
      List.length_cons] at ih ⊢
    omega

def inlineBytes (inode : Inode) : List UInt8 :=
  if inode.dataPages.length = 0 ∧ inode.fileLen > 0 then inode.inodeData else []

def inodeBytes (e : Endianness) (inode : Inode) : List UInt8 :=
  putField e 8 inode.inodeNumber ++ (putField e 8 inode.inodeVersionNumber ++
    (putField e 2 inode.fileNameLen ++ (inode.fileName.take inode.fileNameLen ++
      (putField e 8 inode.attributes ++ (putField e 8 inode.fileLen ++
        (putField e 4 inode.dataPages.length ++ (idBytes e inode.dataPages ++ inlineBytes inode)))))))

-- the record has room on a page
structure FitsPage (hd : Header) (inode : Inode) : Prop where
  name_le : inode.fileNameLen ≤ inode.fileName.length
  fits : 42 + inode.fileNameLen ≤ hd.pageSize
  ids_fit : inode.dataPages ≠ [] → 42 + inode.fileNameLen + 4 * inode.dataPages.length ≤ hd.pageSize
  length_le : (inodeBytes hd.endianness inode).length ≤ hd.pageSize

-- what a successful inode2page says about the record
structure Encodes (hd : Header) (inode : Inode) (page : List UInt8) : Prop extends FitsPage hd inode where
  page_eq : page = inodeBytes hd.endianness inode ++
    List.replicate (hd.pageSize - (inodeBytes hd.endianness inode).length) 0

theorem emit_eq_ok {hd : Header} {page field r : List UInt8} :
    emit hd page field = .ok r ↔ page.length + 8 ≤ hd.pageSize ∧ r = page ++ field := by
  unfold emit
  split
  · next h => simp; omega
  · next h => simp [eq_comm]; omega

theorem copyBytes_eq_ok {hd : Header} {page data r : List UInt8} :
    copyBytes hd page data = .ok r ↔ page.length + data.length ≤ hd.pageSize ∧ r = page ++ data := by
  unfold copyBytes
  split
  · next h => simp; omega
  · next h => simp [eq_comm]; omega

theorem emitPages_eq_ok {hd : Header} (dataPages : List DataPage) {page r : List UInt8} :
    emitPages hd dataPages page = .ok r ↔
      (dataPages ≠ [] → page.length + 4 * dataPages.length + 4 ≤ hd.pageSize) ∧
        r = page ++ idBytes hd.endianness dataPages := by
  induction dataPages generalizing page with
  | nil => simp [emitPages, idBytes, eq_comm]
  | cons p rest ih =>
    have hl : ∀ a, (page ++ putField hd.endianness 4 a).length = page.length + 4 := by simp
    simp only [emitPages, bind, Except.bind]
    cases he : emit hd page (putField hd.endianness 4 p.pageId) with
    | error x =>
      have h0 : ¬ page.length + 8 ≤ hd.pageSize := by
        intro h
        rw [emit_eq_ok.mpr ⟨h, rfl⟩] at he
        cases he
      simp only [reduceCtorEq, false_iff, not_and]
      intro h
      have := h (by simp)
      simp only [List.length_cons] at this
      omega
    | ok q =>
      obtain ⟨h1, rfl⟩ := emit_eq_ok.mp he
      simp only
      rw [ih, hl]
      have hids : idBytes hd.endianness (p :: rest) =
          putField hd.endianness 4 p.pageId ++ idBytes hd.endianness rest := by simp [idBytes]
      rw [hids, List.append_assoc]
      refine and_congr_left fun _ => ?_
      simp only [List.length_cons, ne_eq, reduceCtorEq, not_false_eq_true, true_implies]
      cases rest with
      | nil => simp; omega
      | cons q rest => 
        simp only [List.length_cons]
        constructor
        · intro h
          have hlt := h (by simp)
          omega
        · intro h _
          omega

theorem bind_eq_ok {α β : Type} {x : Except Fault α} {f : α → Except Fault β} {b : β} :
    x.bind f = .ok b ↔ ∃ a, x = .ok a ∧ f a = .ok b := by
  cases x <;> simp [Except.bind]

theorem copyName_eq_ok {hd : Header} {page r : List UInt8} {inode : Inode}
    (h : copyName hd page inode = .ok r) :
    inode.fileNameLen ≤ inode.fileName.length ∧ page.length + inode.fileNameLen ≤ hd.pageSize ∧
      r = page ++ inode.fileName.take inode.fileNameLen := by
  unfold copyName at h
  split at h
  · cases h
  · next hlen =>
    obtain ⟨hl, rfl⟩ := copyBytes_eq_ok.mp h
    rw [List.length_take] at hl
    exact ⟨by omega, by omega, rfl⟩

theorem copyInodeData_eq_ok {hd : Header} {page r : List UInt8} {inode : Inode}
    (h : copyInodeData hd page inode = .ok r) :
    r = page ++ inlineBytes inode ∧ (page.length ≤ hd.pageSize → r.length ≤ hd.pageSize) := by
  unfold copyInodeData at h
  split at h
  · next hc =>
    obtain ⟨hl, rfl⟩ := copyBytes_eq_ok.mp h
    rw [inlineBytes, if_pos hc]
    exact ⟨rfl, fun _ => by simpa using hl⟩
  · next hc =>
    obtain rfl := Except.ok.inj h
    rw [inlineBytes, if_neg hc, List.append_nil]
    exact ⟨rfl, id⟩

theorem ok_bind {α β : Type} (a : α) (f : α → Except Fault β) : (Except.ok a >>= f) = f a := rfl

theorem inode2page_eq_ok {hd : Header} {inode : Inode} {page : List UInt8}
    (h : inode2page hd inode = .ok page) : Encodes hd inode page := by
  simp only [inode2page, bind, bind_eq_ok] at h
  obtain ⟨p1, h1, p2, h2, p3, h3, p4, h4, p5, h5, p6, h6, p7, h7, p8, h8, p9, h9, h⟩ := h
  obtain ⟨l1, rfl⟩ := emit_eq_ok.mp h1
  obtain ⟨l2, rfl⟩ := emit_eq_ok.mp h2
  obtain ⟨l3, rfl⟩ := emit_eq_ok.mp h3
  obtain ⟨hname, l4, rfl⟩ := copyName_eq_ok h4
  obtain ⟨l5, rfl⟩ := emit_eq_ok.mp h5
  obtain ⟨l6, rfl⟩ := emit_eq_ok.mp h6
  obtain ⟨l7, rfl⟩ := emit_eq_ok.mp h7
  obtain ⟨l8, rfl⟩ := (emitPages_eq_ok _).mp h8
  obtain ⟨rfl, l9⟩ := copyInodeData_eq_ok h9
  have hn : (inode.fileName.take inode.fileNameLen).length = inode.fileNameLen := by
    rw [List.length_take]; omega
  simp only [List.length_append, putField_length, hn, List.nil_append,
    idBytes_length] at l4 l5 l6 l7 l8 l9
  have hids : inode.dataPages ≠ [] →
      42 + inode.fileNameLen + 4 * inode.dataPages.length ≤ hd.pageSize := by
    intro hne
    have := l8 hne
    omega
  have hle : 38 + inode.fileNameLen + 4 * inode.dataPages.length ≤ hd.pageSize := by
    by_cases hne : inode.dataPages = []
    · simp only [hne, List.length_nil]
      omega
    · have := hids hne
      omega
  obtain rfl := Except.ok.inj h
  refine ⟨⟨hname, by omega, hids, ?_⟩, ?_⟩
  · simp only [inodeBytes, List.length_append, putField_length, hn, idBytes_length]
    have := l9 (by omega)
    omega
  · simp only [inodeBytes, List.nil_append, List.append_assoc]

theorem inodeBytes_length (e : Endianness) {inode : Inode} (hname : inode.fileNameLen ≤ inode.fileName.length) :
    (inodeBytes e inode).length =
      38 + inode.fileNameLen + 4 * inode.dataPages.length + (inlineBytes inode).length := by
  have hn : (inode.fileName.take inode.fileNameLen).length = inode.fileNameLen := by
    rw [List.length_take]
    omega
  simp only [inodeBytes, List.length_append, putField_length, hn, idBytes_length]
  omega

theorem FitsPage.of_noData {hd : Header} {inode : Inode} (hname : inode.fileNameLen ≤ inode.fileName.length)
    (hids : 42 + inode.fileNameLen + 4 * inode.dataPages.length ≤ hd.pageSize) (hdata : inode.inodeData = []) :
    FitsPage hd inode := by
  refine ⟨hname, by omega, fun _ => hids, ?_⟩
  have hnone : inlineBytes inode = [] := by rw [inlineBytes, hdata, ite_self]
  rw [inodeBytes_length _ hname, hnone, List.length_nil]
  omega

-- the only things that inode2page throws on
theorem inode2page_ok {hd : Header} {inode : Inode} (hf : FitsPage hd inode) : ∃ page, inode2page hd inode = .ok page := by
  obtain ⟨hname, hfits, hids, hle⟩ := hf
  have hlen : (inode.fileName.take inode.fileNameLen).length = inode.fileNameLen := by
    rw [List.length_take]
    omega
  rw [inodeBytes_length _ hname] at hle
  have hcopy : ∀ page : List UInt8, page.length + inode.fileNameLen ≤ hd.pageSize →
      copyName hd page inode = .ok (page ++ inode.fileName.take inode.fileNameLen) := by
    intro page hp
    rw [copyName, if_neg (by omega)]
    exact copyBytes_eq_ok.mpr ⟨by rw [hlen]; exact hp, rfl⟩
  have hinline : ∀ page : List UInt8, page.length + (inlineBytes inode).length ≤ hd.pageSize →
      ∃ r, copyInodeData hd page inode = .ok r := by
    intro page hp
    rw [copyInodeData]
    split
    · next hc =>
      rw [inlineBytes, if_pos hc] at hp
      exact ⟨_, copyBytes_eq_ok.mpr ⟨hp, rfl⟩⟩
    · exact ⟨_, rfl⟩
  unfold inode2page
  dsimp only
  rw [emit_eq_ok.mpr ⟨by simp; omega, rfl⟩, ok_bind, emit_eq_ok.mpr ⟨by simp; omega, rfl⟩, ok_bind,
    emit_eq_ok.mpr ⟨by simp; omega, rfl⟩, ok_bind, hcopy _ (by simp; omega), ok_bind,
    emit_eq_ok.mpr ⟨by simp [hlen]; omega, rfl⟩, ok_bind, emit_eq_ok.mpr ⟨by simp [hlen]; omega, rfl⟩, ok_bind,
    emit_eq_ok.mpr ⟨by simp [hlen]; omega, rfl⟩, ok_bind, (emitPages_eq_ok _).mpr ⟨?_, rfl⟩, ok_bind]
  · apply Exists.elim (hinline _ ?_)
    · intro r hr
      rw [hr, ok_bind]
      exact ⟨_, rfl⟩
    · simp [hlen, idBytes_length]
      omega
  · intro hne
    have := hids hne
    simp [hlen]
    omega

theorem Encodes.length {hd : Header} {inode : Inode} {page : List UInt8} (h : Encodes hd inode page) :
    page.length = hd.pageSize := by
  have := h.length_le
  rw [h.page_eq, List.length_append, List.length_replicate]
  omega

section Page

variable [Config] {hd : Header} {inode : Inode} {page : List UInt8}

theorem addPageChecksum_length (e : Endianness) {page : List UInt8} (h : 4 ≤ page.length) :
    (addPageChecksum e page).length = page.length := by
  rw [addPageChecksum, overwrite_length]
  rw [putField_length]
  omega

theorem slice_addPageChecksum (e : Endianness) {page : List UInt8} {p n : ℕ}
    (hl : 4 ≤ page.length) (h : p + n ≤ page.length - 4) :
    slice (addPageChecksum e page) p n = slice page p n := by
  rw [addPageChecksum, slice_overwrite_disjoint]
  · rw [putField_length]; omega
  · left; exact h

theorem checksumOk_addPageChecksum (e : Endianness) {page : List UInt8} (h : 4 ≤ page.length) :
    checksumOk e (addPageChecksum e page) = true := by
  have hl : (addPageChecksum e page).length = page.length := addPageChecksum_length e h
  have hcalc : calcPageChecksum (addPageChecksum e page) = calcPageChecksum page := by
    have ht : (addPageChecksum e page).take (page.length - 4) = page.take (page.length - 4) := by
      have := slice_addPageChecksum e h (p := 0) (n := page.length - 4) (by omega)
      simpa [slice] using this
    rw [calcPageChecksum, hl, ht, calcPageChecksum]
  have hget : getPageChecksum e (addPageChecksum e page) = calcPageChecksum page := by
    have hs := slice_overwrite_same (l := page) (p := page.length - 4)
      (d := putField e 4 (calcPageChecksum page)) (by rw [putField_length]; omega)
    rw [putField_length] at hs
    rw [getPageChecksum, hl, addPageChecksum, hs, getField_putField]
    exact (Config.crc32 _).toNat_lt
  simp [checksumOk, hget, hcalc]

theorem Encodes.addPageChecksum_length (h : Encodes hd inode page) :
    (addPageChecksum hd.endianness page).length = hd.pageSize := by
  have h1 := h.length
  have h2 := h.fits
  rw [SimpleFlashFs.addPageChecksum_length _ (by omega), h1]

theorem Encodes.slice_eq (h : Encodes hd inode page) {a b c : List UInt8} {pos n : ℕ}
    (he : inodeBytes hd.endianness inode = a ++ (b ++ c)) (ha : a.length = pos) (hb : b.length = n)
    (hp : pos + n ≤ hd.pageSize - 4) : slice (addPageChecksum hd.endianness page) pos n = b := by
  have hl := h.length
  have hf := h.fits
  rw [slice_addPageChecksum _ (by omega) (by omega), h.page_eq, he, List.append_assoc,
    List.append_assoc, ← ha, ← hb, slice_middle]

theorem Encodes.readField_eq (h : Encodes hd inode page) {a c : List UInt8} {p w v : ℕ}
    (he : inodeBytes hd.endianness inode = a ++ (putField hd.endianness w v ++ c)) (ha : a.length = p)
    (hp : p + w ≤ hd.pageSize - 4) :
    readField hd (addPageChecksum hd.endianness page) p w = .ok (v % 256 ^ w) := by
  have hf := h.fits
  rw [readField, h.addPageChecksum_length, if_pos (by omega),
    h.slice_eq he ha (putField_length _ _ _) hp, getField_putField_mod]

end Page

-- the part of get_inode that follows the page numbers once they are read
def correctPages (hd : Header) (doErrorCorrections : Bool) : List ℕ → ℕ → DecodedPages → DecodedPages
  | [], _, d => d
  | pageId :: rest, lenRead, d =>
    if doErrorCorrections = true ∧ pageId ≥ hd.filesystemSize then
      correctPages hd doErrorCorrections rest lenRead
        { d with fileLen := reducedFileLen hd d.fileLen (rest.length = 0), modified := true }
    else if doErrorCorrections = true ∧ lenRead ≥ d.fileLen then { d with modified := true }
    else
      correctPages hd doErrorCorrections rest (lenRead + hd.pageSize)
        { d with dataPages := d.dataPages ++ [{ pageId := pageId }] }

def resized (l : List UInt8) (n : ℕ) : List UInt8 := l.take n ++ List.replicate (n - l.length) 0

@[simp] theorem resized_length (l : List UInt8) (n : ℕ) : (resized l n).length = n := by
  simp only [resized, List.length_append, List.length_take, List.length_replicate]
  omega

theorem resized_of_length_le {l : List UInt8} {n : ℕ} (h : l.length ≤ n) :
    resized l n = l ++ List.replicate (n - l.length) 0 := by
  rw [resized, List.take_of_length_le h]

-- the record as its fields are found again on flash
def Inode.recorded (inode : Inode) : Inode where
  inodeNumber := inode.inodeNumber % 2 ^ 64
  inodeVersionNumber := inode.inodeVersionNumber % 2 ^ 64
  fileNameLen := inode.fileNameLen
  fileName := inode.fileName.take inode.fileNameLen
  attributes := inode.attributes % 2 ^ 64
  fileLen := inode.fileLen % 2 ^ 64
  pages := inode.dataPages.length

def Inode.recordedIds (inode : Inode) : List ℕ := inode.dataPages.map (·.pageId % 2 ^ 32)

def Inode.decoded (hd : Header) (doErrorCorrections : Bool) (inode : Inode) : FileHandle :=
  let r := inode.recorded
  if inode.dataPages ≠ [] then
    let d := correctPages hd doErrorCorrections inode.recordedIds 0 ⟨[], r.fileLen, false⟩
    { inode := { r with dataPages := d.dataPages, fileLen := d.fileLen }, modified := d.modified,
      connected := true }
  else if r.fileLen > 0 then
    let space := inodeDataSpaceSize hd r.fileNameLen
    if r.fileLen ≤ space then
      { inode := { r with inodeData := resized (resized inode.inodeData r.fileLen) space },
        connected := true }
    else { inode := { r with fileLen := 0 }, modified := true, connected := true }
  else { inode := r, connected := true }

theorem inodeDataSpaceSize_eq {hd : Header} {n : ℕ} (h : 42 + n ≤ hd.pageSize) :
    inodeDataSpaceSize hd n = hd.pageSize - (42 + n) := by
  have := hd.pageSize_lt
  rw [inodeDataSpaceSize, show hd.pageSize + 2 ^ 64 - (42 + n) = (hd.pageSize - (42 + n)) + 2 ^ 64 by omega,
    Nat.add_mod_right, Nat.mod_eq_of_lt (by omega)]

section Decode

variable [Config] {hd : Header} {inode : Inode} {page : List UInt8}

theorem Encodes.readPages_eq (h : Encodes hd inode page) (corr : Bool) :
    ∀ (rest done : List DataPage), inode.dataPages = done ++ rest → ∀ (lenRead : ℕ) (d : DecodedPages),
      readPages hd corr (addPageChecksum hd.endianness page) rest.length
        (38 + inode.fileNameLen + 4 * done.length) lenRead d =
      .ok (correctPages hd corr (rest.map (·.pageId % 2 ^ 32)) lenRead d) := by
  intro rest
  induction rest with
  | nil => intro done _ lenRead d; rfl
  | cons p rest ih =>
    intro done hdone lenRead d
    have hids := h.ids_fit (by rw [hdone]; simp)
    have hn : (inode.fileName.take inode.fileNameLen).length = inode.fileNameLen := by
      rw [List.length_take]; have := h.name_le; omega
    rw [hdone, List.length_append, List.length_cons] at hids
    have hread : readField hd (addPageChecksum hd.endianness page)
        (38 + inode.fileNameLen + 4 * done.length) 4 = .ok (p.pageId % 2 ^ 32) := by
      have hb : inodeBytes hd.endianness inode =
          (putField hd.endianness 8 inode.inodeNumber ++ (putField hd.endianness 8 inode.inodeVersionNumber ++
            (putField hd.endianness 2 inode.fileNameLen ++ (inode.fileName.take inode.fileNameLen ++
            (putField hd.endianness 8 inode.attributes ++ (putField hd.endianness 8 inode.fileLen ++
            (putField hd.endianness 4 inode.dataPages.length ++ idBytes hd.endianness done))))))) ++
          (putField hd.endianness 4 p.pageId ++ (idBytes hd.endianness rest ++ inlineBytes inode)) := by
        simp only [inodeBytes, hdone, idBytes, List.flatMap_append, List.flatMap_cons, List.append_assoc]
      refine h.readField_eq hb ?_ (by omega)
      simp only [List.length_append, putField_length, hn, idBytes_length]
      omega
    have hnext := ih (done ++ [p]) (by rw [hdone, List.append_assoc]; rfl)
    rw [List.length_append, List.length_singleton, Nat.mul_add, ← Nat.add_assoc] at hnext
    simp only [List.length_cons, List.map_cons, readPages, correctPages, hread, bind, Except.bind,
      List.length_map]
    split
    · rw [hnext]
    · split
      · rfl
      · rw [hnext]

theorem Encodes.inline_eq (h : Encodes hd inode page) (hp : inode.dataPages = []) {n : ℕ}
    (hpos : 0 < inode.fileLen) (hn : 42 + inode.fileNameLen + n ≤ hd.pageSize) :
    slice (addPageChecksum hd.endianness page) (38 + inode.fileNameLen) n = resized inode.inodeData n := by
  have hl := h.length
  have hname : (inode.fileName.take inode.fileNameLen).length = inode.fileNameLen := by
    rw [List.length_take]; have := h.name_le; omega
  rw [slice_addPageChecksum _ (by omega) (by omega), h.page_eq]
  have hb : inodeBytes hd.endianness inode =
      (putField hd.endianness 8 inode.inodeNumber ++ (putField hd.endianness 8 inode.inodeVersionNumber ++
        (putField hd.endianness 2 inode.fileNameLen ++ (inode.fileName.take inode.fileNameLen ++
        (putField hd.endianness 8 inode.attributes ++ (putField hd.endianness 8 inode.fileLen ++
        putField hd.endianness 4 inode.dataPages.length)))))) ++ inode.inodeData := by
    simp only [inodeBytes, hp, idBytes, List.flatMap_nil, inlineBytes, List.length_nil, hpos, true_and,
      if_true, List.append_assoc, List.nil_append]
  have hlen : (inodeBytes hd.endianness inode).length =
      38 + inode.fileNameLen + inode.inodeData.length := by
    rw [hb]
    simp only [List.length_append, putField_length, hname]
    omega
  rw [hlen, hb, List.append_assoc, slice_append_right]
  · simp only [resized, List.take_append, List.take_replicate]
    congr 2
    omega
  · simp only [List.length_append, putField_length, hname]
    omega

theorem Encodes.decodeInode_eq (h : Encodes hd inode page) (hn : inode.fileNameLen < 2 ^ 16) (corr : Bool) :
    decodeInode hd (addPageChecksum hd.endianness page) corr = .ok (inode.decoded hd corr) := by
  have hf := h.fits
  have hlen := h.addPageChecksum_length
  have hps := hd.pageSize_lt
  have hname : (inode.fileName.take inode.fileNameLen).length = inode.fileNameLen := by
    rw [List.length_take]; have := h.name_le; omega
  have hcount : inode.dataPages.length < 256 ^ 4 := by
    by_cases hne : inode.dataPages = []
    · simp [hne]
    · have := h.ids_fit hne
      omega
  have r1 := h.readField_eq (a := []) (p := 0) (by rw [List.nil_append, inodeBytes]) rfl (by omega)
  have r2 := h.readField_eq (a := putField hd.endianness 8 inode.inodeNumber) (p := 8)
    (by rw [inodeBytes]) (by simp) (by omega)
  have r3 := h.readField_eq (p := 16)
    (a := putField hd.endianness 8 inode.inodeNumber ++ putField hd.endianness 8 inode.inodeVersionNumber)
    (by rw [inodeBytes, List.append_assoc]) (by simp) (by omega)
  have r4 : slice (addPageChecksum hd.endianness page) 18 inode.fileNameLen =
      inode.fileName.take inode.fileNameLen :=
    h.slice_eq (a := putField hd.endianness 8 inode.inodeNumber ++
        (putField hd.endianness 8 inode.inodeVersionNumber ++ putField hd.endianness 2 inode.fileNameLen))
      (by simp only [inodeBytes, List.append_assoc]; rfl) (by simp) hname (by omega)
  have r5 := h.readField_eq (p := 18 + inode.fileNameLen)
    (a := putField hd.endianness 8 inode.inodeNumber ++ (putField hd.endianness 8 inode.inodeVersionNumber ++
      (putField hd.endianness 2 inode.fileNameLen ++ inode.fileName.take inode.fileNameLen)))
    (by simp only [inodeBytes, List.append_assoc]; rfl) (by simp [hname]; omega) (by omega)
  have r6 := h.readField_eq (p := 26 + inode.fileNameLen)
    (a := putField hd.endianness 8 inode.inodeNumber ++ (putField hd.endianness 8 inode.inodeVersionNumber ++
      (putField hd.endianness 2 inode.fileNameLen ++ (inode.fileName.take inode.fileNameLen ++
        putField hd.endianness 8 inode.attributes))))
    (by simp only [inodeBytes, List.append_assoc]; rfl) (by simp [hname]; omega) (by omega)
  have r7 := h.readField_eq (p := 34 + inode.fileNameLen)
    (a := putField hd.endianness 8 inode.inodeNumber ++ (putField hd.endianness 8 inode.inodeVersionNumber ++
      (putField hd.endianness 2 inode.fileNameLen ++ (inode.fileName.take inode.fileNameLen ++
        (putField hd.endianness 8 inode.attributes ++ putField hd.endianness 8 inode.fileLen)))))
    (by simp only [inodeBytes, List.append_assoc]; rfl) (by simp [hname]; omega) (by omega)
  rw [Nat.mod_eq_of_lt (by omega : inode.fileNameLen < 256 ^ 2)] at r3
  rw [Nat.mod_eq_of_lt hcount] at r7
  rw [show (256 : ℕ) ^ 8 = 2 ^ 64 by norm_num] at r1 r2 r5 r6
  have r4' : readBytes (addPageChecksum hd.endianness page) 18 inode.fileNameLen =
      .ok (inode.fileName.take inode.fileNameLen) := by
    rw [readBytes, hlen, if_pos (by omega), r4]
  rw [decodeInode, r1, ok_bind, r2, ok_bind, r3, ok_bind, r4', ok_bind, r5, ok_bind, r6, ok_bind, r7, ok_bind]
  simp only [Inode.decoded, Inode.recorded]
  by_cases hne : inode.dataPages = []
  · simp only [hne, List.length_nil, ne_eq, not_true_eq_false, if_false]
    split
    · next hpos =>
      split
      · next hle =>
        rw [inodeDataSpaceSize_eq hf] at hle ⊢
        have hr : resizeBytes [] (hd.pageSize - (42 + inode.fileNameLen)) =
            .ok (List.replicate (hd.pageSize - (42 + inode.fileNameLen)) 0) := by
          rw [resizeBytes, maxVectorSize, if_neg (by omega)]
          simp
        have hraw : 0 < inode.fileLen := Nat.pos_of_ne_zero fun h0 => by simp [h0] at hpos
        rw [hr, ok_bind, readBytes, hlen, if_pos (by omega), ok_bind]
        simp only [h.inline_eq hne hraw (n := inode.fileLen % 2 ^ 64) (by omega)]
        congr 3
        rw [overwrite, resized_length, List.take_zero, List.nil_append, Nat.zero_add, List.drop_replicate,
          resized_of_length_le (l := resized _ _) (by rw [resized_length]; exact hle), resized_length]
      · rfl
    · rfl
  · have hl : inode.dataPages.length ≠ 0 := by simpa using hne
    have hr := h.readPages_eq corr inode.dataPages [] rfl 0 ⟨[], inode.fileLen % 2 ^ 64, false⟩
    rw [List.length_nil, Nat.mul_zero, Nat.add_zero] at hr
    rw [if_pos hl, if_pos hne, hr, ok_bind, Inode.recordedIds]

end Decode

section Corrections

variable {hd : Header} {inode : Inode}

def storedPages (ids : List ℕ) : List DataPage := ids.map fun i => { pageId := i }

theorem correctPages_raw (ids : List ℕ) (lenRead : ℕ) (d : DecodedPages) :
    correctPages hd false ids lenRead d = { d with dataPages := d.dataPages ++ storedPages ids } := by
  induction ids generalizing lenRead d with
  | nil => simp [correctPages, storedPages]
  | cons i rest ih =>
    simp only [correctPages, Bool.false_eq_true, false_and, if_false, ih, storedPages, List.map_cons,
      List.append_assoc, List.singleton_append]

-- how many pages of `left` hold bytes of a file of length fileLen, from lenRead on
def pagesLeft (hd : Header) (fileLen lenRead : ℕ) : ℕ := (fileLen - lenRead + hd.pageSize - 1) / hd.pageSize

theorem pagesLeft_eq_zero {fileLen lenRead : ℕ} (hps : 0 < hd.pageSize) (h : fileLen ≤ lenRead) :
    pagesLeft hd fileLen lenRead = 0 := by
  rw [pagesLeft, show fileLen - lenRead = 0 by omega]
  exact Nat.div_eq_of_lt (by omega)

theorem pagesLeft_succ {n k : ℕ} (hps : 0 < hd.pageSize) (h : k < n) :
    pagesLeft hd n k = pagesLeft hd n (k + hd.pageSize) + 1 := by
  rw [pagesLeft, pagesLeft]
  by_cases hle : k + hd.pageSize ≤ n
  · rw [show n - k + hd.pageSize - 1 =
      (n - (k + hd.pageSize) + hd.pageSize - 1) + hd.pageSize by omega,
      Nat.add_div_right _ hps]
  · rw [show n - (k + hd.pageSize) = 0 by omega,
      Nat.div_eq_of_lt (show 0 + hd.pageSize - 1 < hd.pageSize by omega),
      show n - k + hd.pageSize - 1 = (n - k - 1) + hd.pageSize by omega,
      Nat.add_div_right _ hps, Nat.div_eq_of_lt (by omega)]

theorem correctPages_corrected {ids : List ℕ} (hps : 0 < hd.pageSize)
    (hids : ∀ i ∈ ids, i < hd.filesystemSize) (lenRead : ℕ) (d : DecodedPages) :
    correctPages hd true ids lenRead d =
      { d with
        dataPages := d.dataPages ++ storedPages (ids.take (pagesLeft hd d.fileLen lenRead)),
        modified := d.modified || decide (pagesLeft hd d.fileLen lenRead < ids.length) } := by
  induction ids generalizing lenRead d with
  | nil => simp [correctPages, storedPages]
  | cons i rest ih =>
    have hi := hids i (by simp)
    have hrest : ∀ j ∈ rest, j < hd.filesystemSize := fun j hj => hids j (by simp [hj])
    rw [correctPages, if_neg (by omega)]
    by_cases hlen : lenRead ≥ d.fileLen
    · rw [if_pos ⟨rfl, hlen⟩, pagesLeft_eq_zero hps hlen]
      simp [storedPages]
    · rw [if_neg (by omega), ih hrest, pagesLeft_succ (n := d.fileLen) (k := lenRead) hps
        (by omega)]
      simp [storedPages]

end Corrections

end SimpleFlashFs
