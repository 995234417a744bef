import SimpleFlashFs.Listing
import SimpleFlashFs.Remount
import SimpleFlashFs.ReadOnly

namespace SimpleFlashFs

open Lib

section Steps

variable [Config] {s t u : Fs} {h k : FileHandle} {i : ℕ} {name new : List UInt8}

theorem DataOnly.keeps (e : DataOnly s h t k) (hc : Catalog s) (hh : Held s h) : CloseKeeps s t ∧ Held t k := by
  have hnum : t.maxInodeNumber = s.maxInodeNumber := by rw [e.rest]
  have hcat : Catalog t := by
    apply hc.congr e.header
    · rw [e.rest]
    · exact hnum
    · exact e.plan hc.plan
    · exact e.ready hc.ready
    · apply hc.whole.congr e.header
      rw [e.rest]
    · exact e.inodes
  refine ⟨⟨hcat, e.header, hnum.ge⟩, ?_, e.inRegion hc.ready hh.region, ?_, ?_⟩
  · rw [e.same.page, e.header]
    exact hh.page
  · rw [e.same.fileNameLen]
    exact hh.nameLen
  · rw [e.same.inodeNumber, hnum]
    exact hh.number_le

theorem Catalog.wp_write (hc : Catalog s) (hh : Held s h) (data : List UInt8) :
    wp (write h data) (fun r t => CloseKeeps s t ∧ Held t r.2) (fun _ _ => True) s := by
  apply wp_mono (confined_write data hc.ready hh.region)
  · exact fun _ _ ht => ht.keeps hc hh
  · exact fun _ _ h => h

theorem Catalog.wp_seek (hc : Catalog s) (hh : Held s h) (pos : ℕ) :
    wp (seek h pos) (fun r t => CloseKeeps s t ∧ Held t r.2) (fun _ _ => True) s := by
  apply wp_mono (confined_seek pos hc.ready hh.region)
  · exact fun _ _ ht => ht.keeps hc hh
  · exact fun _ _ h => h

theorem Shifted.keeps (e : Shifted s t) (ht : Catalog t) : CloseKeeps s t := ⟨ht, e.header, e.numbers.ge⟩

theorem SameFlash.keeps (e : SameFlash s t) (hc : Catalog s) : CloseKeeps s t :=
  ⟨e.catalog hc, e.header, e.numbers.ge⟩

theorem Takes.held (ht : Takes s t (some i)) (hc : Catalog s) : Held t (FileHandle.ofPage (some i)) where
  page := by
    rw [(ht.sameFlash hc.ready).header]
    exact (ht.claimable i rfl).1
  region := nofun
  nameLen := Nat.two_pow_pos 16
  number_le := Nat.zero_le _

omit [Config] in
theorem Held.handleAppendMode (hh : Held s h) (mode : OpenMode) : Held s (handleAppendMode mode h) :=
  ⟨hh.page, hh.region, hh.nameLen, hh.number_le⟩

theorem Catalog.wp_openNew (hc : Catalog s) (name : List UInt8) (mode : OpenMode) :
    wp (openNew name mode) (fun h t => CloseKeeps s t ∧ (h.connected = true → Held t h)) (fun _ _ => True) s := by
  rw [openNew, wp_bind]
  apply wp_mono (wp_allocateFreeInodePage_start hc.ready hc.whole)
  · rintro _ t ⟨r, rfl, ht⟩
    have e := ht.sameFlash hc.ready
    have hkeep := e.keeps hc
    rw [wp_bind, wp_get]
    cases r with
    | none => exact ⟨hkeep, by simp⟩
    | some p =>
      have hh := ht.held hc
      rw [if_neg (by simp [FileHandle.ofPage])]
      split
      · rw [wp_bind]
        apply wp_mono ((e.catalog hc).wp_closeHandle (fun _ => hh) (by simp [FileHandle.ofPage]))
        · exact fun _ u hu => ⟨hkeep.trans hu, by simp⟩
        · exact fun _ _ h => h
      · refine ⟨hkeep, fun _ => Held.handleAppendMode ?_ mode⟩
        exact ⟨hh.page, hh.region, Nat.mod_lt _ (Nat.two_pow_pos 16), hh.number_le⟩
  · exact fun _ _ h => h.elim

theorem Catalog.wp_openTrunc (hc : Catalog s) (hi : Valid s i) :
    wp (openTrunc (openedAt s i)) (fun h t => CloseKeeps s t ∧ (h.connected = true → Held t h)) (fun _ _ => True) s := by
  rw [openTrunc, wp_bind]
  apply wp_mono (wp_allocateFreeInodePage_start hc.ready hc.whole)
  · rintro _ t ⟨r, rfl, ht⟩
    have e := ht.sameFlash hc.ready
    have hkeep := e.keeps hc
    have hclose := (e.catalog hc).wp_closeOpened (e.valid_iff.mpr hi)
    rw [openedAt_congr e.header (e.pageAt_eq i)] at hclose
    have hfound := hkeep.held (hc.opened hi).toHeld
    cases r with
    | none =>
      rw [if_pos (by simp [FileHandle.ofPage]), wp_bind]
      apply wp_mono hclose
      · exact fun _ u hu => ⟨hkeep.trans (hu.shifted.keeps hu.catalog), by simp⟩
      · exact fun _ _ h => h.elim
    | some p =>
      rw [if_neg (by simp [FileHandle.ofPage]), wp_bind]
      apply wp_mono hclose
      · intro _ u hu
        have hku := hu.shifted.keeps hu.catalog
        have hh := hku.held (ht.held hc)
        have hf := hku.held hfound
        exact ⟨hkeep.trans hku, fun _ => ⟨hh.page, List.forall_mem_nil _, hf.nameLen, hf.number_le⟩⟩
      · exact fun _ _ h => h.elim
  · exact fun _ _ h => h.elim

theorem Catalog.wp_openFile (hc : Catalog s) (name : List UInt8) (mode : OpenMode) :
    wp (openFile name mode) (fun h t => CloseKeeps s t ∧ (h.connected = true → Held t h)) (fun _ _ => True) s := by
  rw [openFile, wp_bind]
  apply wp_mono (hc.wp_findFile name)
  · rintro h t ⟨ht, hs, hf⟩
    have hkeep := hs.keeps ht
    rcases hf with ⟨rfl, -⟩ | ⟨i, hi, -, -, rfl, hv, hp⟩
    · rw [if_pos (by simp)]
      split
      · exact ⟨hkeep, by simp⟩
      · apply wp_mono (ht.wp_openNew name mode)
        · exact fun _ u hu => ⟨hkeep.trans hu.1, hu.2⟩
        · exact fun _ _ h => h
    · rw [← openedAt_congr hs.header hp, if_neg (by simp [(ht.entry hv).2])]
      split
      · apply wp_mono (ht.wp_openTrunc hv)
        · exact fun _ u hu => ⟨hkeep.trans hu.1, hu.2⟩
        · exact fun _ _ h => h
      · exact ⟨hkeep, fun _ => (ht.opened hv).toHeld.handleAppendMode mode⟩
  · exact fun _ _ h => h.elim

def FileHandle.nameless (h : FileHandle) : FileHandle :=
  { h with
    modified := true,
    inode := { h.inode with
      fileName := [], fileNameLen := 0, pages := 0, dataPages := [], inodeData := [], fileLen := 0 } }

def FileHandle.renamed (h : FileHandle) (new : List UInt8) : FileHandle :=
  { h with modified := true, inode := { h.inode with fileName := new, fileNameLen := new.length % 2 ^ 16 } }

-- the state in which a delete leaves one record of the file
structure Deletable (s : Fs) (h : FileHandle) : Prop where
  own : OwnPage s h
  numbers : h.inode.inodeNumber = 0 → s.maxInodeNumber + 1 < 2 ^ 64

omit [Config] in
theorem Held.nameless (hh : Held s h) : Held s h.nameless := ⟨hh.page, nofun, Nat.two_pow_pos 16, hh.number_le⟩

omit [Config] in
theorem Held.renamed (hh : Held s h) (new : List UInt8) : Held s (h.renamed new) :=
  ⟨hh.page, hh.region, Nat.mod_lt _ (Nat.two_pow_pos 16), hh.number_le⟩

theorem Deletable.flushable (hd : Deletable s h) : Flushable s h.nameless :=
  ⟨hd.own, hd.numbers, fun _ => Nat.zero_le _, fun _ _ _ => Or.inl rfl⟩

theorem Catalog.wp_deleteFile (hc : Catalog s) (hh : Held s h) (hd : Deletable s h) :
    wp (deleteFile h) (fun r t => CloseKeeps s t ∧ Held t r.2) (fun _ _ => True) s := by
  have hflush := hc.wp_flush hh.nameless fun _ => hd.flushable
  rw [deleteFile, wp_bind]
  apply wp_mono hflush
  · intro r t ht
    have hkeep : CloseKeeps s t := ⟨ht.catalog, ht.header, ht.numbers⟩
    have hheld := ht.held
    split
    · exact ⟨hkeep, hheld.page, hheld.region, hheld.nameLen, hheld.number_le⟩
    · exact ⟨hkeep, hheld⟩
  · exact fun _ _ h => h

-- the state in which a rename leaves one record of the file and one of the name
structure Renamable (s : Fs) (h : FileHandle) (new : List UInt8) : Prop extends Deletable s h where
  inline : FitsInline s.header (h.renamed new)
  clean : Valid s h.page → (openedAt s h.page).modified = false
  reserved : h.inode.inodeNumber = 0 → h.page ∈ s.allocatedUnwrittenPages
  other : Valid s h.page → nameAt s h.page = new → new = []
  short : new.length < 2 ^ 16
  room : ∀ i, Valid s i → nameAt s i = new → new = [] ∨ Spare s

theorem Deletable.renamed (hd : Deletable s h) (hin : FitsInline s.header (h.renamed new)) (hlen : new.length < 2 ^ 16)
    (hname : ∀ i, Valid s i → nameAt s i = new → new = []) : Flushable s (h.renamed new) where
  own := hd.own
  numbers := hd.numbers
  inline := hin
  name i hi he := by
    have hflash : (h.renamed new).inode.flashName = new := by
      rw [Inode.flashName, FileHandle.renamed]
      dsimp only
      rw [Nat.mod_eq_of_lt hlen, List.take_length]
    rw [hflash] at he ⊢
    exact Or.inl (hname i hi he)

-- the lookup of the new name leaves the record of the file and its reservation
structure Stays (s t : Fs) (h : FileHandle) : Prop where
  deletable : Deletable t h
  reserved : h.inode.inodeNumber = 0 → h.page ∈ t.allocatedUnwrittenPages
  valid : Valid t h.page → Valid s h.page ∧ pageAt t h.page = pageAt s h.page

theorem Renamable.stays (hr : Renamable s h new) (hh : Held s h) (e : Shifted s t) : Stays s t h := by
  have hnumbers : h.inode.inodeNumber = 0 → t.maxInodeNumber + 1 < 2 ^ 64 := by
    rw [e.numbers]
    exact hr.numbers
  by_cases hn : h.inode.inodeNumber = 0
  · have hnv : ¬ Valid s h.page := by
      rw [hr.own.valid_iff_number]
      exact not_not.mpr hn
    obtain ⟨hres, hnt⟩ := e.reserved h.page hh.page (hr.reserved hn) hnv
    refine ⟨⟨?_, hnumbers⟩, fun _ => hres, fun hv => absurd hv hnt⟩
    rwa [OwnPage, if_pos hn]
  · have hv := hr.own.valid_iff_number.mpr hn
    obtain ⟨hvt, hp⟩ := e.clean h.page hv (hr.clean hv)
    refine ⟨⟨?_, hnumbers⟩, fun h0 => absurd h0 hn, fun _ => ⟨hv, hp⟩⟩
    rw [OwnPage, if_neg hn]
    refine ⟨hvt, ?_⟩
    rw [numberAt_congr e.header hp]
    exact hr.own.numberAt_eq hn

-- the other file of the new name is gone
theorem Stays.deleted (hst : Stays s t h) (ht : Catalog t) (hv : Valid t i) (hne : i ≠ h.page)
    (r : Relocated t (openedAt t i).nameless u k) : Catalog u ∧ CloseKeeps t u ∧ Deletable u h ∧
      ∀ j, Valid u j → nameAt u j = nameAt t i → nameAt t i = [] := by
  have ho := ht.opened hv
  have hd : Deletable t (openedAt t i) := ⟨(ho.flushable ht).own, (ho.flushable ht).numbers⟩
  have hf := hd.flushable
  have hcat := ht.relocated ho.toHeld.nameless hf r
  obtain ⟨-, hle, -⟩ := r.fresh_number ht hf
  obtain ⟨n, -, hn, hw, -⟩ := r.stores_regular ht ho.toHeld.nameless hf
  have hpage : (openedAt t i).nameless.page = i := ho.page_eq
  have hnum : u.maxInodeNumber = t.maxInodeNumber ∧ k.page ∉ t.allocatedUnwrittenPages := by
    rcases r.number with ⟨he, -⟩ | ⟨-, hcl, -, -, -, he⟩
    · exact absurd he ho.numbered
    · exact ⟨he, hcl.2.2⟩
  have hold := fun j => r.valid_iff (j := j) ht
  refine ⟨hcat, ⟨hcat, r.header, hle⟩, ⟨?_, ?_⟩, ?_⟩
  · have hhown := hst.deletable.own
    unfold OwnPage at hhown ⊢
    split
    · next h0 =>
      rw [if_pos h0] at hhown
      intro hvu
      rcases (hold h.page).mp hvu with he | ⟨hvt, -⟩
      · exact hnum.2 (he ▸ hst.reserved h0)
      · exact hhown hvt
    · next h0 =>
      rw [if_neg h0] at hhown
      have hne' : h.page ≠ (openedAt t i).nameless.page := by
        rw [hpage]
        exact fun e => hne e.symm
      refine ⟨(hold h.page).mpr (Or.inr ⟨hhown.1, hne'⟩), ?_⟩
      rw [numberAt_congr r.header (r.other hhown.1 hne').2]
      exact hhown.2
  · rw [hnum.1]
    exact hst.deletable.numbers
  · intro j hj he
    rcases (hold j).mp hj with rfl | ⟨hvj, hnj⟩
    · rw [← he, hn.name, hw.flashName]
      rfl
    · rw [nameAt_congr r.header (r.other hvj hnj).2] at he
      rw [hpage] at hnj
      by_contra hnil
      exact hnj (ht.names j i hvj hv he (by rwa [he]))

theorem Catalog.wp_flushRenamed (hc : Catalog s) (hh : Held s h) (hf : Flushable s (h.renamed new)) :
    wp (flush (h.renamed new)) (fun r t => CloseKeeps s t ∧ Held t r.2) (fun _ _ => True) s := by
  apply wp_mono (hc.wp_flush (hh.renamed new) fun _ => hf)
  · exact fun r t ht => ⟨⟨ht.catalog, ht.header, ht.numbers⟩, ht.held⟩
  · exact fun _ _ h => h

theorem Catalog.wp_renameFile (hc : Catalog s) (hh : Held s h) (hr : Renamable s h new) :
    wp (renameFile h new) (fun r t => CloseKeeps s t ∧ Held t r.2) (fun _ _ => True) s := by
  rw [renameFile]
  split
  · trivial
  · rw [wp_bind]
    apply wp_mono (hc.wp_findFile new)
    · rintro o t ⟨ht, hs, hf⟩
      have hkeep := hs.keeps ht
      have hst := hr.stays hh hs
      have hin : FitsInline t.header (h.renamed new) := by
        rw [hs.header]
        exact hr.inline
      rcases hf with ⟨rfl, hno⟩ | ⟨i, hi, hname, hne, rfl, hv, hp⟩
      · rw [if_neg (by simp), wp_bind]
        have hfree : ∀ j, Valid t j → nameAt t j = new → new = [] := by
          intro j hj he
          obtain ⟨j', hj', hn', -⟩ := (hs.entries new _).mp ⟨j, hj, he, rfl⟩
          exact hno j' (mem_recordPages.mpr hj') hn'
        apply wp_mono (ht.wp_flushRenamed (hkeep.held hh) (hst.deletable.renamed hin hr.short hfree))
        · exact fun f u hu => ⟨hkeep.trans hu.1, hu.2⟩
        · exact fun _ _ h => h
      · have ho := ht.opened hv
        have hnt : nameAt t i = new := (nameAt_congr hs.header hp).trans hname
        have hpage : i ≠ h.page := by
          rintro rfl
          exact hne (hr.other (hst.valid hv).1 hname)
        rw [← openedAt_congr hs.header hp, if_pos ho.connected, wp_bind, deleteFile, wp_bind]
        have hdel : Deletable t (openedAt t i) := ⟨(ho.flushable ht).own, (ho.flushable ht).numbers⟩
        apply wp_mono (ht.wp_flush ho.toHeld.nameless fun _ => hdel.flushable)
        · intro r u hu
          cases hu.rewritten with
          | unmodified hm => cases hm
          | full u htk =>
            obtain ⟨a, b, hab, ha, hb⟩ := hs.spare ((hr.room i (mem_recordPages.mp hi) hname).resolve_left hne)
            exact absurd (htk.full rfl a b ha hb) hab
          | relocated hm u k r =>
            obtain ⟨hcu, hku, hdu, hfree⟩ := hst.deleted ht hv hpage r
            rw [hnt] at hfree
            rw [if_pos rfl, wp_pure, wp_bind]
            have hinu : FitsInline u.header (h.renamed new) := by
              rw [hku.header]
              exact hin
            apply wp_mono (hcu.wp_flushRenamed (hku.held (hkeep.held hh)) (hdu.renamed hinu hr.short hfree))
            · intro f v hv
              rw [wp_bind, closeHandle, if_neg (by simp)]
              exact ⟨(hkeep.trans hku).trans hv.1, hv.2⟩
            · exact fun _ _ h => h
        · exact fun _ _ h => h
    · exact fun _ _ h => h.elim

end Steps

section Runs

variable [Config] {s t u : Fs} {l m n : List FileHandle} {i : ℕ}

-- an operation on a drive and on the handles that are open on it
inductive DriveOp
  | open (name : List UInt8) (mode : OpenMode)
  | seek (i pos : ℕ)
  | write (i : ℕ) (data : List UInt8)
  | flush (i : ℕ)
  | rename (i : ℕ) (new : List UInt8)
  | delete (i : ℕ)
  | close (i : ℕ)

def onHandle {α : Type} (i : ℕ) (call : FileHandle → FsM (α × FileHandle)) (l : List FileHandle) : FsM (List FileHandle) :=
  match l[i]? with
  | none => pure l
  | some h => do
    let r ← call h
    pure (l.set i r.2)

def DriveOp.run (l : List FileHandle) : DriveOp → FsM (List FileHandle)
  | .open name mode => do
    let h ← openFile name mode
    pure (if h.connected then l ++ [h] else l)
  | .seek i pos => onHandle i (SimpleFlashFs.seek · pos) l
  | .write i data => onHandle i (SimpleFlashFs.write · data) l
  | .flush i => onHandle i SimpleFlashFs.flush l
  | .rename i new => onHandle i (renameFile · new) l
  | .delete i => onHandle i deleteFile l
  | .close i =>
    match l[i]? with
    | none => pure l
    | some h => do
      closeHandle h
      pure (l.eraseIdx i)

-- no record is left behind, and no name is given twice
def DriveOp.Tidy (s : Fs) (l : List FileHandle) : DriveOp → Prop
  | .open _ _ | .seek _ _ | .write _ _ => True
  | .flush i | .close i => ∀ h, l[i]? = some h → h.connected = true → h.modified = true → Flushable s h
  | .rename i new => ∀ h, l[i]? = some h → Renamable s h new
  | .delete i => ∀ h, l[i]? = some h → Deletable s h

-- a drive and its open handles after some operations
inductive DriveRun (ok : Fs → List FileHandle → DriveOp → Prop) (s : Fs) (l : List FileHandle) :
    Fs → List FileHandle → Prop
  | start : DriveRun ok s l s l
  | step {t u : Fs} {m n : List FileHandle} (op : DriveOp) (hr : DriveRun ok s l t m) (hok : ok t m op)
      (hs : op.run m t = .ok n u) : DriveRun ok s l u n

structure Serves (s : Fs) (l : List FileHandle) : Prop where
  catalog : Catalog s
  held : ∀ h ∈ l, Held s h

theorem Serves.set (hs : Serves s l) {h : FileHandle} (i : ℕ) (e : CloseKeeps s t) (hh : Held t h) :
    Serves t (l.set i h) where
  catalog := e.catalog
  held k hk := (List.mem_or_eq_of_mem_set hk).elim (fun hk => e.held (hs.held k hk)) fun hk => hk ▸ hh

theorem Serves.wp_onHandle {α : Type} {call : FileHandle → FsM (α × FileHandle)} (hs : Serves s l)
    (hcall : ∀ h, l[i]? = some h → Held s h →
      wp (call h) (fun r t => CloseKeeps s t ∧ Held t r.2) (fun _ _ => True) s) :
    wp (onHandle i call l) (fun l t => Serves t l) (fun _ _ => True) s := by
  rw [onHandle]
  cases hi : l[i]? with
  | none => exact hs
  | some h =>
    dsimp only
    rw [wp_bind]
    apply wp_mono (hcall h hi (hs.held h (List.mem_of_getElem? hi)))
    · exact fun r t ht => hs.set i ht.1 ht.2
    · exact fun _ _ h => h

theorem Serves.wp_run (hs : Serves s l) {op : DriveOp} (hop : op.Tidy s l) :
    wp (op.run l) (fun l t => Serves t l) (fun _ _ => True) s := by
  have hc := hs.catalog
  cases op with
  | «open» name mode =>
    rw [DriveOp.run, wp_bind]
    apply wp_mono (hc.wp_openFile name mode)
    · rintro h t ⟨ht, hh⟩
      refine ⟨ht.catalog, fun k hk => ?_⟩
      split at hk
      · next hcon =>
        rcases List.mem_append.mp hk with hk | hk
        · exact ht.held (hs.held k hk)
        · rw [List.mem_singleton.mp hk]
          exact hh hcon
      · exact ht.held (hs.held k hk)
    · exact fun _ _ h => h
  | seek i pos => exact hs.wp_onHandle fun h _ hh => hc.wp_seek hh pos
  | write i data => exact hs.wp_onHandle fun h _ hh => hc.wp_write hh data
  | flush i =>
    apply hs.wp_onHandle
    intro h hi hh
    by_cases hcon : h.connected = true
    · apply wp_mono (hc.wp_flush hh (hop h hi hcon))
      · exact fun r t ht => ⟨⟨ht.catalog, ht.header, ht.numbers⟩, ht.held⟩
      · exact fun _ _ h => h
    · rw [SimpleFlashFs.flush, if_pos hcon]
      trivial
  | rename i new => exact hs.wp_onHandle fun h hi hh => hc.wp_renameFile hh (hop h hi)
  | delete i => exact hs.wp_onHandle fun h hi hh => hc.wp_deleteFile hh (hop h hi)
  | close i =>
    rw [DriveOp.run]
    cases hi : l[i]? with
    | none => exact hs
    | some h =>
      dsimp only
      rw [wp_bind]
      apply wp_mono (hc.wp_closeHandle (fun _ => hs.held h (List.mem_of_getElem? hi)) (hop h hi))
      · exact fun _ t ht => ⟨ht.catalog, fun k hk => ht.held (hs.held k (List.mem_of_mem_eraseIdx hk))⟩
      · exact fun _ _ h => h

theorem DriveRun.serves (hr : DriveRun (fun s l op => op.Tidy s l) s l t m) (hs : Serves s l) : Serves t m := by
  induction hr with
  | start => exact hs
  | step op _ hok hrun ih =>
    have h := wp_ok (ih.wp_run hok) hrun
    exact h

end Runs

section Start

variable [Config] {s t u : Fs} {m : List FileHandle}

-- a formatted FRAM
structure EmptyDrive (s : Fs) : Prop where
  variant : s.variant = .fram
  plan : s.mem.plan = []
  header : HeaderOn s.mem s.header
  layout : Layout s
  inodes : 0 < s.header.maxInodes
  pages : ∀ i < s.header.maxInodes, pageAt s i = List.replicate s.header.pageSize 0xFF
  erased : checksumOk s.header.endianness (List.replicate s.header.pageSize 0xFF) = false

theorem EmptyDrive.not_valid (he : EmptyDrive s) (i : ℕ) : ¬ Valid s i := by
  rintro ⟨hi, hsum⟩
  rw [he.pages i hi, he.erased] at hsum
  cases hsum

theorem wp_collectInodes_empty (L : Layout s) (l : List ℕ) (hl : ∀ i ∈ l, i < s.header.maxInodes)
    (hno : ∀ i, ¬ Valid s i) (found : List (ℕ × List FileHandle)) :
    wp (collectInodes l found) (fun r t => r = found ∧ t = s) (fun _ _ => False) s := by
  induction l with
  | nil => exact ⟨rfl, rfl⟩
  | cons i l ih =>
    rw [collectInodes, wp_bind, wp_get, readPage_of_not_valid L.toGeometry (hl i List.mem_cons_self) (hno i)]
    exact ih fun j hj => hl j (List.mem_cons_of_mem i hj)

-- what the mount of an empty drive leaves
structure MountedEmpty (s t : Fs) : Prop where
  header : t.header = s.header
  variant : t.variant = s.variant
  mem : t.mem = s.mem
  numbers : t.maxInodeNumber = 0
  allocated : t.allocatedUnwrittenPages = {}
  freeWF : t.freeDataPages.WF
  free : ∀ q, q ∈ t.freeDataPages ↔ DataRegion s q

omit [Config] in
theorem Filled.mountedEmpty (hf : Filled s.headed t) : MountedEmpty s t := by
  have hrest := hf.rest
  constructor
  · rw [hrest]
    rfl
  · rw [hrest]
    rfl
  · rw [hrest]
    rfl
  · rw [hrest]
    rfl
  · rw [hrest]
    rfl
  · exact hf.wf
  · exact hf.mem_iff

omit [Config] in
theorem MountedEmpty.pageAt_eq (e : MountedEmpty s t) (i : ℕ) : pageAt t i = pageAt s i := by
  rw [pageAt, pageAt, e.mem, e.header]

omit [Config] in
theorem MountedEmpty.layout (e : MountedEmpty s t) (L : Layout s) : Layout t := by
  apply L.of_eq e.header
  rw [e.mem]

theorem MountedEmpty.not_valid (e : MountedEmpty s t) (he : EmptyDrive s) (i : ℕ) : ¬ Valid t i := by
  rw [valid_congr e.header (e.pageAt_eq i)]
  exact he.not_valid i

theorem MountedEmpty.catalog (e : MountedEmpty s t) (he : EmptyDrive s) (hr : t.headerInodeRange = InodeRange.reinit t.header) :
    Catalog t := by
  have L := he.layout
  have hnumbers : t.headerInodeRange.numbers = List.range t.header.maxInodes := by
    rw [hr]
    rfl
  constructor
  · constructor
    · exact e.layout L
    · intro left hl
      rw [e.mem, he.plan] at hl
      cases hl
    · exact e.freeWF
    · rw [e.allocated]
      exact PageSet.wf_empty
    · rw [hnumbers]
      exact fun i hi => List.mem_range.mp hi
    · intro p hp
      rw [DataRegion, InRange, e.header]
      exact (e.free p).mp hp
  · rw [e.mem]
    exact he.plan
  · constructor
    · rw [hr]
      intro hnil
      have hpos := he.inodes
      rw [List.range_eq_nil, e.header] at hnil
      omega
    · rw [hnumbers]
  · rw [e.variant, he.variant]
    simp
  · rw [e.header]
    exact he.erased
  · rw [e.numbers]
    exact Nat.two_pow_pos 64
  · exact fun i hi => absurd hi (e.not_valid he i)
  · exact fun i _ hi => absurd hi (e.not_valid he i)
  · exact fun i _ hi => absurd hi (e.not_valid he i)

theorem EmptyDrive.wp_initDynamic (he : EmptyDrive s) :
    wp initDynamic (fun ok t => ok = true ∧ MountedEmpty s t) (fun _ _ => False) s.restarted := by
  have L := he.layout
  have hL : Layout s.headed := L.of_eq rfl rfl
  rw [initDynamic, wp_bind]
  apply wp_mono he.header.wp_initBase
  · rintro ok t ⟨rfl, rfl⟩
    rw [if_pos rfl, wp_bind, readAllFreeDataPages, wp_bind]
    apply wp_mono (wp_fillFreeDataPages hL.toGeometry hL.filesystemSize_lt _)
    · intro _ t ht
      have e := ht.mountedEmpty
      rw [wp_bind, wp_get, wp_bind]
      apply wp_mono (wp_collectInodes_empty (e.layout L) _ (fun i hi => List.mem_range.mp hi) (e.not_valid he) [])
      · rintro r u ⟨rfl, rfl⟩
        exact ⟨rfl, e⟩
      · exact fun _ _ h => h
    · exact fun _ _ h => h
  · exact fun _ _ h => h

theorem EmptyDrive.wp_initFram (he : EmptyDrive s) :
    wp initFram (fun ok t => ok = true ∧ MountedEmpty s t ∧ t.headerInodeRange = InodeRange.reinit t.header)
      (fun _ _ => False) s.restarted := by
  rw [initFram, wp_bind]
  apply wp_mono he.wp_initDynamic
  · rintro ok t ⟨rfl, e⟩
    rw [if_pos rfl, wp_bind, wp_modify]
    exact ⟨rfl, ⟨e.header, e.variant, e.mem, e.numbers, e.allocated, e.freeWF, e.free⟩, rfl⟩
  · exact fun _ _ h => h

-- a FRAM drive that was formatted and mounted, after any tidy operations
theorem listFiles_agrees (he : EmptyDrive s) (hi : initFram s.restarted = .ok true t)
    (hr : DriveRun (fun s l op => op.Tidy s l) t [] u m) : ListingAgrees u := by
  obtain ⟨-, e, hre⟩ := wp_ok he.wp_initFram hi
  have hs := hr.serves ⟨e.catalog he hre, nofun⟩
  exact hs.catalog.listingAgrees

def runOps : List DriveOp → List FileHandle → FsM (List FileHandle)
  | [], l => pure l
  | op :: ops, l => do
    let l ← op.run l
    runOps ops l

theorem DriveRun.runOps {ok : Fs → List FileHandle → DriveOp → Prop} {l n : List FileHandle} {v : Fs} (ops : List DriveOp)
    (hr : DriveRun ok s l t m) (hok : ∀ op ∈ ops, ∀ t m, ok t m op) (hops : SimpleFlashFs.runOps ops m t = .ok n v) :
    DriveRun ok s l v n := by
  induction ops generalizing t m n v with
  | nil =>
    cases hops
    exact hr
  | cons op ops ih =>
    have hw : wp (SimpleFlashFs.runOps (op :: ops) m) (fun n v => DriveRun ok s l v n) (fun _ _ => True) t := by
      rw [SimpleFlashFs.runOps, wp_bind]
      apply wp_run
      · intro m' t' hrun
        apply wp_run
        · exact fun n v hrest => ih (hr.step op (hok op List.mem_cons_self t m) hrun)
            (fun o ho => hok o (List.mem_cons_of_mem op ho)) hrest
        · exact fun _ _ _ => trivial
      · exact fun _ _ _ => trivial
    have h := wp_ok hw hops
    exact h

end Start

section Example

def formattedFram : Fs :=
  match @writeHeader dynamicConfig magicHeader { variant := .fram, mem := { bytes := List.replicate (64 * 12) 0xFF } } with
  | .ok _ t => t
  | .error _ t => t

theorem formattedFram_empty : @EmptyDrive dynamicConfig formattedFram := by
  apply @EmptyDrive.mk dynamicConfig
  · decide +kernel
  · decide +kernel
  · apply @HeaderOn.mk dynamicConfig <;> decide +kernel
  · constructor
    · constructor <;> decide +kernel
    · decide +kernel
  · decide +kernel
  · decide +kernel
  · decide +kernel

-- what is found after a mount of the formatted drive and some operations
def afterOps (s : Fs) (ops : List DriveOp) (found : List FileHandle → Fs → Bool) : Bool :=
  match @initFram dynamicConfig s.restarted with
  | .ok true t =>
    match @runOps dynamicConfig ops [] t with
    | .ok m u => found m u
    | .error _ _ => false
  | _ => false

theorem afterOps_spec {s : Fs} {ops : List DriveOp} {found : List FileHandle → Fs → Bool}
    (h : afterOps s ops found = true) : ∃ t m u, @initFram dynamicConfig s.restarted = .ok true t ∧ @runOps dynamicConfig ops [] t = .ok m u ∧
      found m u = true := by
  rw [afterOps] at h
  split at h
  · next t ht =>
    split at h
    · next m u hu => exact ⟨t, m, u, ht, hu, h⟩
    · cases h
  · cases h

def writeFile (mode : OpenMode) (data : List UInt8) : List DriveOp := [.open [97] mode, .write 0 data]

def listsTwice (s : Fs) : Bool :=
  match @listFiles dynamicConfig s with
  | .ok files _ => 1 < (files.filter (·.1 = [97])).length
  | .error _ _ => false

theorem not_listingAgrees {s : Fs} (h : listsTwice s = true) : ¬ @ListingAgrees dynamicConfig s := by
  rintro ⟨files, t, hl, hall⟩
  obtain ⟨k, u, -, hf⟩ := hall [97]
  rw [listsTwice, hl] at h
  simp only [decide_eq_true_eq] at h
  rw [hf] at h
  split at h
  · simp at h
  · simp at h

-- a new file can be closed
def closable [Config] (s : Fs) (h : FileHandle) : Bool :=
  h.inode.inodeNumber = 0 ∧ ¬ Valid s h.page ∧ s.maxInodeNumber + 1 < 2 ^ 32 ∧
    h.inode.fileLen ≤ getInodeDataSpaceSize s.header h ∧ ∀ i < s.header.maxInodes, ¬ Valid s i

theorem flushable_of_closable [Config] {s : Fs} {h : FileHandle} (hc : closable s h = true) : Flushable s h := by
  obtain ⟨hn, hv, hnum, hin, hno⟩ := of_decide_eq_true hc
  constructor
  · rw [OwnPage, if_pos hn]
    exact hv
  · exact fun _ => hnum.trans (Nat.pow_lt_pow_right (by omega) (by omega))
  · exact fun _ => hin
  · exact fun i hi _ => absurd hi (hno i hi.1)

-- the one handle that is left can be closed, and no handle is left then
def closesOnly (m : List FileHandle) (u : Fs) : Bool :=
  match m with
  | [h] => @closable dynamicConfig u h && match @DriveOp.run dynamicConfig [h] (.close 0) u with
    | .ok n _ => n.isEmpty
    | .error _ _ => false
  | _ => false

theorem listFiles_agrees_oneFile : ∃ t u, @initFram dynamicConfig formattedFram.restarted = .ok true t ∧
    @DriveRun dynamicConfig (fun s l op => @DriveOp.Tidy dynamicConfig s l op) t [] u [] ∧
    @ListingAgrees dynamicConfig u := by
  have hops : afterOps formattedFram (writeFile { out := true } [1, 2, 3]) closesOnly = true := by
    decide +kernel
  obtain ⟨t, m, u, ht, hu, hfound⟩ := afterOps_spec hops
  rw [closesOnly.eq_def] at hfound
  split at hfound
  · next h =>
    rw [Bool.and_eq_true] at hfound
    obtain ⟨hclosable, hclose⟩ := hfound
    split at hclose
    · next n v hv =>
      rw [List.isEmpty_iff] at hclose
      subst hclose
      have hrun : @DriveRun dynamicConfig (fun s l op => @DriveOp.Tidy dynamicConfig s l op) t [] u [h] := by
        apply @DriveRun.runOps dynamicConfig _ _ _ _ _ _ _ _ (@DriveRun.start dynamicConfig _ _ _) ?_ hu
        intro op hop t m
        rcases List.mem_cons.mp hop with rfl | hop
        · trivial
        · rw [List.mem_singleton.mp hop]
          trivial
      have hall := @DriveRun.step dynamicConfig _ _ _ _ _ _ _ (.close 0) hrun ?_ hv
      · exact ⟨t, v, ht, hall, @listFiles_agrees dynamicConfig _ _ _ _ formattedFram_empty ht hall⟩
      · intro k hk _ _
        obtain rfl := Option.some.inj hk
        exact @flushable_of_closable dynamicConfig _ _ hclosable
    · cases hclose
  · cases hfound

theorem listFiles_truncated_disagrees : ∃ t u, @initFram dynamicConfig formattedFram.restarted = .ok true t ∧
    @DriveRun dynamicConfig (fun _ _ _ => True) t [] u [] ∧ ¬ @ListingAgrees dynamicConfig u := by
  have hops : afterOps formattedFram (writeFile { out := true } [1, 2, 3] ++ [.close 0] ++
      writeFile { out := true, trunc := true } [4] ++ [.close 0]) (fun m u => m.isEmpty && listsTwice u) = true := by
    decide +kernel
  obtain ⟨t, m, u, ht, hu, hfound⟩ := afterOps_spec hops
  simp only [Bool.and_eq_true, List.isEmpty_iff] at hfound
  obtain ⟨rfl, hlist⟩ := hfound
  exact ⟨t, u, ht, @DriveRun.runOps dynamicConfig _ _ _ _ _ _ _ _ (@DriveRun.start dynamicConfig _ _ _) (fun _ _ _ _ => trivial) hu,
    not_listingAgrees hlist⟩

end Example

end SimpleFlashFs
