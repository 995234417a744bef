import SimpleFlashFs.Concurrent
import SimpleFlashFs.RoundTrip
import SimpleFlashFs.Allocation

namespace SimpleFlashFs

open Lib

-- the filesystem with the owner of m_inode_meta_mutex
structure Shared where
  fs : Fs
  lock : Option ℕ := none

namespace Section

def underMeta {β : Type} : Section β → Bool
  | .lockMeta => true
  | .claim => true
  | .unreserve _ => true
  | _ => false

def lockAfter {β : Type} (i : ℕ) (lock : Option ℕ) : Section β → Option ℕ
  | .lockMeta => some i
  | .unlockMeta => none
  | _ => lock

-- the inode pages that a client has allocated and not yet written
def held {β : Type} : Section β → β → List ℕ → List ℕ
  | .claim, some p, pages => p :: pages
  | .writeInode p _, true, pages => pages.filter (· ≠ p)
  | .erase p, _, pages => pages.filter (· ≠ p)
  | .unreserve p, _, pages => pages.filter (· ≠ p)
  | _, _, pages => pages

end Section

-- what a client does to the record and the data pages of its handle between two flushes
inductive HandleOp
  | edit (fileLen : ℕ) (dataPages : List DataPage) (inodeData : List UInt8)
  | program (page : ℕ) (data : List UInt8)
  | flush

inductive ClientOp
  | use (name : List UInt8) (mode : OpenMode) (ops : List HandleOp)
  | list

def FileHandle.edited (file : FileHandle) (fileLen : ℕ) (dataPages : List DataPage) (inodeData : List UInt8) :
    FileHandle :=
  { file with
    modified := true
    inode := { file.inode with fileLen := fileLen, dataPages := dataPages, inodeData := inodeData } }

section Clients

variable [Config]

def runSection (i : ℕ) {β : Type} (a : Section β) (s : Shared) : Option (β × Shared) :=
  if a.underMeta = true ∧ s.lock.any (· ≠ i) = true then none
  else
    match sec a s.fs with
    | .ok b t => some (b, ⟨t, a.lockAfter i s.lock⟩)
    | .error _ _ => none

def clients : Machine Section Shared (List ℕ) := ⟨runSection, Section.held⟩

def handleOpT (file : FileHandle) : HandleOp → FsT FileHandle
  | .edit fileLen dataPages inodeData => pure (file.edited fileLen dataPages inodeData)
  | .program page data => do
    let hd ← Prog.one .header
    let _ ← Prog.one (.write hd page data)
    pure file
  | .flush => do
    let r ← flushT file
    pure r.2

def sessionT : List HandleOp → FileHandle → FsT Unit
  | [], file => closeT file
  | op :: rest, file => do
    let file ← handleOpT file op
    sessionT rest file

def clientOpT : ClientOp → FsT Unit
  | .use name mode ops => do
    let file ← openFileT name mode
    if file.connected then sessionT ops file else pure ()
  | .list => listFilesT

def clientT (ops : List ClientOp) : FsT Unit := Prog.each clientOpT ops

def HeldByOther (i p : ℕ) (l : List (List ℕ)) : Prop := ∃ j pages, j ≠ i ∧ l[j]? = some pages ∧ p ∈ pages

instance (i p : ℕ) (l : List (List ℕ)) : Decidable (HeldByOther i p l) :=
  decidable_of_iff (∃ j ∈ List.range l.length, j ≠ i ∧ p ∈ l.getD j []) <| by
    constructor
    · rintro ⟨j, hj, hn, hp⟩
      have hlt := List.mem_range.mp hj
      rw [List.getD_eq_getElem?_getD, List.getElem?_eq_getElem hlt] at hp
      exact ⟨j, l[j], hn, List.getElem?_eq_getElem hlt, hp⟩
    · rintro ⟨j, pages, hn, hj, hp⟩
      obtain ⟨hlt, rfl⟩ := List.getElem?_eq_some_iff.mp hj
      refine ⟨j, List.mem_range.mpr hlt, hn, ?_⟩
      rw [List.getD_eq_getElem?_getD, List.getElem?_eq_getElem hlt]
      exact hp

-- the inode of a page has a number, whichever way it is decoded
def NumberedPage (hd : Header) (page : List UInt8) : Prop :=
  ∀ corr file, decodeInode hd page corr = .ok file → file.inode.inodeNumber ≠ 0

def hasNumber : Except Fault FileHandle → Bool
  | .ok file => file.inode.inodeNumber ≠ 0
  | .error _ => true

instance (hd : Header) (page : List UInt8) : Decidable (NumberedPage hd page) :=
  decidable_of_iff (∀ corr, hasNumber (decodeInode hd page corr) = true) <| forall_congr' fun corr => by
    cases decodeInode hd page corr <;> simp [hasNumber]

-- nobody erases or un-reserves an inode page that another client holds; besides, no inode has the number 0,
-- data is written to data pages, and a failed inode write leaves a page that fails its checksum
def DropsOwn : Pool.Condition Section Shared (List ℕ) := fun i _ a s l b t =>
  match a, b with
  | .erase p, _ => InRange s.fs p ∧ ¬ HeldByOther i p l
  | .unreserve p, _ => p < noData ∧ ¬ HeldByOther i p l
  | .writeInode p _, done => done = false → ¬ Valid t.fs p
  | .write _ p data, _ => DataRegion s.fs p ∧ data.length = s.fs.header.pageSize
  | .number, number => number ≠ 0
  | .read _ _, ret => ret.error = none → NumberedPage s.fs.header ret.page
  | _, _ => True

instance (i : ℕ) {β : Type} (a : Section β) (s : Shared) (l : List (List ℕ)) (b : β) (t : Shared) :
    Decidable (DropsOwn i a s l b t) :=
  match a, b with
  | .erase p, _ => inferInstanceAs (Decidable (InRange s.fs p ∧ ¬ HeldByOther i p l))
  | .unreserve p, _ => inferInstanceAs (Decidable (p < noData ∧ ¬ HeldByOther i p l))
  | .writeInode p _, done => inferInstanceAs (Decidable (done = false → ¬ Valid t.fs p))
  | .write _ p data, _ => inferInstanceAs (Decidable (DataRegion s.fs p ∧ data.length = s.fs.header.pageSize))
  | .number, number => inferInstanceAs (Decidable ((number : ℕ) ≠ 0))
  | .read _ _, ret =>
    inferInstanceAs (Decidable ((ret : ReadPageReturn).error = none → NumberedPage s.fs.header ret.page))
  | .header, _ => isTrue trivial
  | .canMapRead, _ => isTrue trivial
  | .variant, _ => isTrue trivial
  | .lockMeta, _ => isTrue trivial
  | .unlockMeta, _ => isTrue trivial
  | .clearIv, _ => isTrue trivial
  | .addIv _, _ => isTrue trivial
  | .ivStorage, _ => isTrue trivial
  | .claim, _ => isTrue trivial
  | .takeData, _ => isTrue trivial
  | .giveBack _, _ => isTrue trivial
  | .fault _, b => nomatch b

def writesHeld (hd : Header) : Discipline Section (List ℕ) where
  pre a pages :=
    match a with
    | .writeInode p data => p ∈ pages ∧ data.length = hd.pageSize
    | .write h _ _ => h = hd
    | _ => True
  post a _ b :=
    match a, b with
    | .header, h => h = hd
    | .number, number => number ≠ 0
    | .read _ _, ret => ret.error = none → NumberedPage hd ret.page
    | _, _ => True

-- a handle without an inode number holds its page
def OwnsPage (file : FileHandle) (pages : List ℕ) : Prop :=
  file.connected = true → file.inode.inodeNumber = 0 → file.page ∈ pages

section Programs

variable {hd : Header} {pages : List ℕ} {file : FileHandle}

theorem writesHeld_plain (hd : Header) : Plain hd clients (writesHeld hd) where
  header _ := ⟨trivial, fun _ hh => ⟨hh, rfl⟩⟩
  takeData _ := ⟨trivial, fun _ => rfl⟩
  write _ _ _ := ⟨rfl, fun _ => rfl⟩
  fault _ _ := trivial

theorem keeps_eraseDataPageT (page : ℕ) :
    (eraseDataPageT page).Keeps clients (writesHeld hd) (fun _ _ => True) pages := by
  refine ⟨trivial, fun h _ => ⟨trivial, fun _ _ => ?_⟩⟩
  by_cases hp : page > h.maxInodes
  · simp only [if_pos hp]
    exact ⟨trivial, fun _ _ => trivial⟩
  · simp only [if_neg hp]
    exact ⟨trivial, fun _ _ => trivial⟩

theorem keeps_eraseInodeAndUnusedPagesT (old next : FileHandle) :
    (eraseInodeAndUnusedPagesT old next).Keeps clients (writesHeld hd) (fun _ _ => True) pages := by
  refine ⟨trivial, fun v _ => ?_⟩
  have h : ∀ l, (do
      Prog.each eraseDataPageT (pagesToErase old next)
      pure { old with modified := false } : FsT FileHandle).Keeps clients (writesHeld hd) (fun _ _ => True) l :=
    fun l => (Prog.Keeps.each (I := fun _ => True) trivial fun p _ l _ => keeps_eraseDataPageT p).bind
      fun _ _ _ => trivial
  cases v with
  | noDel => trivial
  | dynamic => exact h _
  | fram => exact h _

theorem addPageChecksum_inode2page_length {inode : Inode} {page : List UInt8} (h : inode2page hd inode = .ok page) :
    (addPageChecksum hd.endianness page).length = hd.pageSize := (inode2page_eq_ok h).addPageChecksum_length

theorem keeps_inode2page (inode : Inode) : (liftT (inode2page hd inode)).Keeps clients (writesHeld hd)
    (fun page l => (addPageChecksum hd.endianness page).length = hd.pageSize ∧ l = pages) pages :=
  (writesHeld_plain hd).keeps_liftT fun _ hp => ⟨addPageChecksum_inode2page_length hp, rfl⟩

theorem keeps_flushNewT (h : file.page ∈ pages) :
    (flushNewT file).Keeps clients (writesHeld hd) (fun r _ => r.2.inode.inodeNumber ≠ 0) pages := by
  apply (writesHeld_plain hd).keeps_header.bind
  rintro hd _ ⟨rfl, rfl⟩
  refine ⟨trivial, fun number hn => ?_⟩
  apply (writesHeld_plain hd).keeps_writeZeroPagesT.bind
  rintro r l ⟨rfl, hpage, hnumber, -, -, -, -⟩
  apply Prog.Keeps.bind (keeps_inode2page _)
  rintro page l ⟨hlen, rfl⟩
  have hn' : r.2.inode.inodeNumber ≠ 0 := by rw [hnumber]; exact hn
  refine ⟨⟨by rw [hpage]; exact h, hlen⟩, fun done _ => ?_⟩
  cases done <;> exact hn'

theorem keeps_flushNextVersionT (h : file.inode.inodeNumber ≠ 0) :
    (flushNextVersionT file).Keeps clients (writesHeld hd) (fun r _ => r.2.inode.inodeNumber ≠ 0) pages := by
  refine ⟨trivial, fun newPage _ => ?_⟩
  cases newPage with
  | none => exact h
  | some p =>
    apply (writesHeld_plain hd).keeps_header.bind
    rintro hd _ ⟨rfl, rfl⟩
    apply Prog.Keeps.bind (keeps_inode2page _)
    rintro page l ⟨hlen, rfl⟩
    apply (writesHeld_plain hd).keeps_writeZeroPagesT.bind
    rintro r l ⟨rfl, hpage, hnumber, -, -, -, -⟩
    have hn' : r.2.inode.inodeNumber ≠ 0 := by rw [hnumber]; exact h
    refine ⟨⟨by rw [hpage]; exact List.mem_cons_self, hlen⟩, fun done _ => ?_⟩
    cases done with
    | false => exact hn'
    | true => exact (keeps_eraseInodeAndUnusedPagesT _ _).bind fun _ _ _ => hn'

theorem keeps_flushT (h : OwnsPage file pages) :
    (flushT file).Keeps clients (writesHeld hd) (fun r l => OwnsPage r.2 l) pages := by
  unfold flushT
  split
  · exact (writesHeld_plain _).keeps_liftT fun _ ha => nomatch ha
  · next hc =>
    split
    · exact h
    · split
      · next hn =>
        exact (keeps_flushNewT (h (not_not.mp hc) hn)).mono fun r l hr _ h0 => absurd h0 hr
      · next hn => exact (keeps_flushNextVersionT hn).mono fun r l hr _ h0 => absurd h0 hr

theorem keeps_closeT (h : OwnsPage file pages) :
    (closeT file).Keeps clients (writesHeld hd) (fun _ _ => True) pages := by
  unfold closeT
  split
  · apply Prog.Keeps.bind (keeps_flushT h)
    intro r l _
    refine ⟨trivial, fun _ _ => ?_⟩
    exact Prog.Keeps.each (I := fun _ => True) trivial fun _ _ _ _ => ⟨trivial, fun _ _ => trivial⟩
  · trivial

-- a handle that was read from the medium
def Numbered (file : FileHandle) : Prop := file.connected = true → file.inode.inodeNumber ≠ 0

omit [Config] in
theorem Numbered.ownsPage (h : Numbered file) (pages : List ℕ) : OwnsPage file pages := fun hc h0 => absurd h0 (h hc)

theorem keeps_read {mapped : Bool} {i : ℕ} {corr : Bool} {α : Type} {next : FileHandle → FsT α} {other : FsT α}
    {Q : α → List ℕ → Prop} (h1 : ∀ file, Numbered file → (next file).Keeps clients (writesHeld hd) Q pages)
    (h2 : other.Keeps clients (writesHeld hd) Q pages) :
    (do
      let ret ← Prog.one (.read mapped i)
      if ret.error = none then do
        let file ← getInodeT ret.page corr
        next file
      else other : FsT α).Keeps clients (writesHeld hd) Q pages := by
  refine ⟨trivial, fun ret hret => ?_⟩
  dsimp only [Prog.bind]
  by_cases he : ret.error = none
  · rw [if_pos he]
    refine Prog.Keeps.bind (Q := fun file l => Numbered file ∧ l = pages) ?_ fun file l ⟨hn, hl⟩ => hl ▸ h1 file hn
    apply (writesHeld_plain hd).keeps_header.bind
    rintro hd _ ⟨rfl, rfl⟩
    exact (writesHeld_plain _).keeps_liftT fun file hf => ⟨fun _ => hret he corr file hf, rfl⟩
  · rw [if_neg he]
    exact h2

theorem Numbered.closeT (h : Numbered file) :
    (closeT file).Keeps clients (writesHeld hd) (fun _ _ => True) pages := keeps_closeT (h.ownsPage pages)

theorem keeps_recordInodePageT (mapped : Bool) (i : ℕ) :
    (recordInodePageT mapped i).Keeps clients (writesHeld hd) (fun _ _ => True) pages := by
  apply keeps_read
  · intro file hn
    have hn' : Numbered { file with page := i } := hn
    exact ⟨trivial, fun _ _ => hn'.closeT⟩
  · trivial

theorem keeps_findVersionT (mapped : Bool) (name : List UInt8) (l : List InodeVersion) :
    (findVersionT mapped name l).Keeps clients (writesHeld hd) (fun file _ => Numbered file) pages := by
  induction l generalizing pages with
  | nil => exact fun h => nomatch h
  | cons iv rest ih =>
    apply keeps_read
    · intro file hn
      have hn' : Numbered { file with page := iv.page } := hn
      dsimp only
      split
      · exact hn'.closeT.bind fun _ _ _ => ih
      · split
        · exact hn'
        · exact hn'.closeT.bind fun _ _ _ => ih
    · exact ih

theorem keeps_findFileT (name : List UInt8) :
    (findFileT name).Keeps clients (writesHeld hd) (fun file _ => Numbered file) pages := by
  refine ⟨trivial, fun mapped _ => ⟨trivial, fun _ _ => ⟨trivial, fun _ _ => ⟨trivial, fun h _ => ?_⟩⟩⟩⟩
  apply Prog.Keeps.bind (Prog.Keeps.each (I := fun _ => True) trivial fun i _ l _ => keeps_recordInodePageT mapped i)
  intro _ l _
  refine ⟨trivial, fun versions _ => ?_⟩
  apply Prog.Keeps.bind (keeps_findVersionT mapped name versions)
  intro file l hn
  exact ⟨trivial, fun _ _ => hn⟩

theorem keeps_openNewT (name : List UInt8) (mode : OpenMode) :
    (openNewT name mode).Keeps clients (writesHeld hd) OwnsPage pages := by
  refine ⟨trivial, fun page _ => ⟨trivial, fun h _ => ?_⟩⟩
  cases page with
  | none => exact fun h => nomatch h
  | some p =>
    have hown : OwnsPage (FileHandle.ofPage (some p)) (p :: pages) := fun _ _ => List.mem_cons_self
    dsimp only [Prog.bind]
    rw [if_neg (show ¬ ¬ (FileHandle.ofPage (some p)).connected = true from not_not.mpr rfl)]
    split
    · apply (keeps_closeT hown).bind
      exact fun _ _ _ h => nomatch h
    · exact fun _ _ => List.mem_cons_self

theorem keeps_openTruncT (hn : Numbered file) (hc : file.connected = true) :
    (openTruncT file).Keeps clients (writesHeld hd) OwnsPage pages := by
  refine ⟨trivial, fun page _ => ?_⟩
  dsimp only [Prog.bind]
  cases page with
  | none =>
    apply hn.closeT.bind
    exact fun _ _ _ h => nomatch h
  | some p =>
    apply hn.closeT.bind
    exact fun _ _ _ _ h0 => absurd h0 (hn hc)

theorem keeps_openFileT (name : List UInt8) (mode : OpenMode) :
    (openFileT name mode).Keeps clients (writesHeld hd) OwnsPage pages := by
  apply (keeps_findFileT name).bind
  intro file l hn
  split
  · split
    · exact fun h => nomatch h
    · exact keeps_openNewT name mode
  · next hc =>
    split
    · exact keeps_openTruncT hn (not_not.mp hc)
    · exact fun h0 h1 => absurd h1 (hn h0)

theorem keeps_handleOpT (op : HandleOp) (h : OwnsPage file pages) :
    (handleOpT file op).Keeps clients (writesHeld hd) OwnsPage pages := by
  cases op with
  | edit fileLen dataPages inodeData => exact h
  | program page data =>
    apply (writesHeld_plain hd).keeps_header.bind
    rintro hd _ ⟨rfl, rfl⟩
    exact ⟨rfl, fun done _ => h⟩
  | flush =>
    apply (keeps_flushT h).bind
    exact fun r l hr => hr

theorem keeps_sessionT (ops : List HandleOp) (h : OwnsPage file pages) :
    (sessionT ops file).Keeps clients (writesHeld hd) (fun _ _ => True) pages := by
  induction ops generalizing file pages with
  | nil => exact keeps_closeT h
  | cons op rest ih =>
    apply (keeps_handleOpT op h).bind
    exact fun file l hf => ih hf

theorem keeps_collectAllInodesT (l : List ℕ) {files : List FileHandle} (h : ∀ f ∈ files, Numbered f) :
    (collectAllInodesT l files).Keeps clients (writesHeld hd) (fun files _ => ∀ f ∈ files, Numbered f) pages := by
  induction l generalizing files with
  | nil => exact h
  | cons i rest ih =>
    apply keeps_read
    · intro file hn
      apply ih
      intro f hf
      rcases List.mem_append.mp hf with hf | hf
      · exact h f hf
      · obtain rfl := List.mem_singleton.mp hf
        exact hn
    · exact ih h

theorem keeps_listFilesT : listFilesT.Keeps clients (writesHeld hd) (fun _ _ => True) pages := by
  refine ⟨trivial, fun h _ => ?_⟩
  apply (keeps_collectAllInodesT (List.range h.maxInodes) (by simp)).bind
  intro files l hf
  exact Prog.Keeps.each (I := fun _ => True) trivial fun f hm _ _ => (hf f hm).closeT

-- a client writes inodes only to pages it holds
theorem keeps_clientT (ops : List ClientOp) :
    (clientT ops).Keeps clients (writesHeld hd) (fun _ _ => True) pages := by
  refine Prog.Keeps.each (I := fun _ => True) trivial fun op _ l _ => ?_
  cases op with
  | use name mode ops =>
    apply (keeps_openFileT name mode).bind
    intro file l h
    split
    · exact keeps_sessionT ops h
    · trivial
  | list => exact keeps_listFilesT

end Programs

-- what holds between the steps: reserved, unwritten, and each page with one client
structure HeldApart (hd : Header) (s : Fs) (l : List (List ℕ)) : Prop where
  header : s.header = hd
  ready : ClaimReady s
  reserved : ∀ pages ∈ l, ∀ p ∈ pages, p ∈ s.allocatedUnwrittenPages
  unwritten : ∀ pages ∈ l, ∀ p ∈ pages, p < hd.maxInodes ∧ ¬ Valid s p
  apart : ∀ (i j : ℕ) (pages pages' : List ℕ) (p : ℕ), l[i]? = some pages → l[j]? = some pages' →
    p ∈ pages → p ∈ pages' → i = j

section Steps

variable {hd : Header} {s t : Fs} {l : List (List ℕ)} {i : ℕ} {pages pages' : List ℕ}

theorem HeldApart.shrink (h : HeldApart hd s l) (hi : l[i]? = some pages) (hsub : ∀ p ∈ pages', p ∈ pages) :
    HeldApart hd s (l.set i pages') := by
  have hmem := List.mem_of_getElem? hi
  have hset : ∀ x ∈ l.set i pages', ∃ y ∈ l, ∀ p ∈ x, p ∈ y := by
    intro x hx
    rcases List.mem_or_eq_of_mem_set hx with hx | rfl
    · exact ⟨x, hx, fun _ hp => hp⟩
    · exact ⟨pages, hmem, hsub⟩
  have hget : ∀ (j : ℕ) (x : List ℕ), (l.set i pages')[j]? = some x → ∃ y, l[j]? = some y ∧ ∀ p ∈ x, p ∈ y := by
    intro j x hx
    rw [List.getElem?_set] at hx
    split at hx
    · next he =>
      split at hx
      · obtain rfl := Option.some_inj.mp hx
        exact ⟨pages, he ▸ hi, hsub⟩
      · cases hx
    · exact ⟨x, hx, fun _ hp => hp⟩
  refine ⟨h.header, h.ready, fun x hx p hp => ?_, fun x hx p hp => ?_, fun j k x y p hx hy hpx hpy => ?_⟩
  · obtain ⟨y, hy, hxy⟩ := hset x hx
    exact h.reserved y hy p (hxy p hp)
  · obtain ⟨y, hy, hxy⟩ := hset x hx
    exact h.unwritten y hy p (hxy p hp)
  · obtain ⟨x', hx', hxx⟩ := hget j x hx
    obtain ⟨y', hy', hyy⟩ := hget k y hy
    exact h.apart j k x' y' p hx' hy' (hxx p hpx) (hyy p hpy)

theorem HeldApart.of_state (h : HeldApart hd s l) (hh : t.header = s.header) (hr : ClaimReady t)
    (hres : ∀ pages ∈ l, ∀ p ∈ pages, p ∈ t.allocatedUnwrittenPages)
    (hval : ∀ pages ∈ l, ∀ p ∈ pages, ¬ Valid t p) : HeldApart hd t l :=
  ⟨hh.trans h.header, hr, hres, fun x hx p hp => ⟨(h.unwritten x hx p hp).1, hval x hx p hp⟩, h.apart⟩

theorem HeldApart.same (h : HeldApart hd s l) (hh : t.header = s.header) (hm : t.mem = s.mem)
    (ha : t.allocatedUnwrittenPages = s.allocatedUnwrittenPages) (hr : t.headerInodeRange = s.headerInodeRange) :
    HeldApart hd t l := by
  refine h.of_state hh ⟨h.ready.layout.of_eq hh (by rw [hm]), by rw [ha]; exact h.ready.allocatedWF,
    by rw [hh, hr]; exact h.ready.range⟩ (fun x hx p hp => by rw [ha]; exact h.reserved x hx p hp) ?_
  intro x hx p hp
  have := (h.unwritten x hx p hp).2
  rwa [Valid, pageAt, hm, hh]

omit [Config] in
theorem Touched.claimReady {q : ℕ} {op : PhysOp} (h : Touched s t q op) (hr : ClaimReady s) : ClaimReady t := by
  have hrest := h.rest
  refine ⟨hr.layout.of_eq h.header h.length, ?_, ?_⟩
  · rw [hrest]; exact hr.allocatedWF
  · rw [hrest]; exact hr.range

theorem Touched.valid {q p : ℕ} {op : PhysOp} (h : Touched s t q op) (L : Geometry s) (hp : p < s.header.maxInodes)
    (hn : p ≠ q) : Valid t p ↔ Valid s p := by
  rw [Valid, Valid, h.others p hn (L.lt_inRange hp), h.header]

-- the memory changed in the page q, which holds no unwritten inode any more
theorem HeldApart.touched {q : ℕ} {op : PhysOp} (h : HeldApart hd s l) (ht : Touched s t q op)
    (hq : ∀ pages ∈ l, q ∈ pages → ¬ Valid t q) : HeldApart hd t l := by
  refine h.of_state ht.header (ht.claimReady h.ready) (fun x hx p hp => ?_) fun x hx p hp => ?_
  · have := h.reserved x hx p hp
    rw [ht.rest]
    exact this
  · obtain ⟨hlt, hv⟩ := h.unwritten x hx p hp
    by_cases he : p = q
    · exact he ▸ hq x hx (he ▸ hp)
    · rw [ht.valid h.ready.layout.toGeometry (by rw [h.header]; exact hlt) he]
      exact hv

theorem runSection_eq {β : Type} {a : Section β} {s t : Shared} {b : β} (h : runSection i a s = some (b, t)) :
    sec a s.fs = .ok b t.fs := by
  rw [runSection] at h
  split at h
  · cases h
  · split at h
    · next b' u hs =>
      cases h
      exact hs
    · cases h

omit [Config] in
theorem not_mem_filter_ne (p : ℕ) (pages : List ℕ) : p ∉ pages.filter (· ≠ p) := by simp

-- the client i lets go of page p
theorem HeldApart.drop {p : ℕ} (h : HeldApart hd s l) (hi : l[i]? = some pages) (hn : ¬ HeldByOther i p l) :
    HeldApart hd s (l.set i (pages.filter (· ≠ p))) ∧ ∀ x ∈ l.set i (pages.filter (· ≠ p)), p ∉ x := by
  refine ⟨h.shrink hi fun q hq => List.mem_of_mem_filter hq, fun x hx hp => ?_⟩
  obtain ⟨j, hj⟩ := List.mem_iff_getElem?.mp hx
  rw [List.getElem?_set] at hj
  split at hj
  · split at hj
    · obtain rfl := Option.some_inj.mp hj
      exact not_mem_filter_ne p pages hp
    · cases hj
  · next he => exact hn ⟨j, x, fun e => he e.symm, hj, hp⟩

theorem HeldApart.claim {r : Option ℕ} (h : HeldApart hd s l) (hi : l[i]? = some pages) (ht : TakesInode s t r) :
    HeldApart hd t (l.set i (Section.held .claim r pages)) := by
  have hrest := ht.rest
  have hh : t.header = s.header := by rw [hrest]
  have hm : t.mem = s.mem := by rw [hrest]
  have hvalid : ∀ p, Valid t p ↔ Valid s p := fun p => by rw [Valid, Valid, pageAt, pageAt, hh, hm]
  have hbase : HeldApart hd t l := by
    refine h.of_state hh ⟨h.ready.layout.of_eq hh (by rw [hm]), ht.wf, by rw [hh]; exact ht.range⟩ ?_ ?_
    · exact fun x hx p hp => (ht.mem_iff p).mpr (Or.inl (h.reserved x hx p hp))
    · exact fun x hx p hp => (hvalid p).not.mpr (h.unwritten x hx p hp).2
  cases r with
  | none => exact hbase.shrink hi fun _ hp => hp
  | some p =>
    obtain ⟨hlt, hv, hfree⟩ := ht.claimable p rfl
    rw [h.header] at hlt
    have hfresh : ∀ x ∈ l, p ∉ x := fun x hx hp => hfree (h.reserved x hx p hp)
    have hset : ∀ x ∈ l.set i (p :: pages), ∀ q ∈ x, q = p ∨ ∃ y ∈ l, q ∈ y := by
      intro x hx q hq
      rcases List.mem_or_eq_of_mem_set hx with hx | rfl
      · exact Or.inr ⟨x, hx, hq⟩
      · rcases List.mem_cons.mp hq with rfl | hq
        · exact Or.inl rfl
        · exact Or.inr ⟨pages, List.mem_of_getElem? hi, hq⟩
    have hget : ∀ (j : ℕ) (x : List ℕ) (q : ℕ), (l.set i (p :: pages))[j]? = some x → q ∈ x →
        (q = p ∧ j = i) ∨ ∃ y, l[j]? = some y ∧ q ∈ y := by
      intro j x q hj hq
      rw [List.getElem?_set] at hj
      split at hj
      · next he =>
        split at hj
        · obtain rfl := Option.some_inj.mp hj
          rcases List.mem_cons.mp hq with rfl | hq
          · exact Or.inl ⟨rfl, he.symm⟩
          · exact Or.inr ⟨pages, he ▸ hi, hq⟩
        · cases hj
      · exact Or.inr ⟨x, hj, hq⟩
    refine ⟨hbase.header, hbase.ready, fun x hx q hq => ?_, fun x hx q hq => ?_, fun j k x y q hx hy hqx hqy => ?_⟩
    · rcases hset x hx q hq with rfl | ⟨y, hy, hqy⟩
      · exact (ht.mem_iff q).mpr (Or.inr rfl)
      · exact hbase.reserved y hy q hqy
    · rcases hset x hx q hq with rfl | ⟨y, hy, hqy⟩
      · exact ⟨hlt, (hvalid q).not.mpr hv⟩
      · exact hbase.unwritten y hy q hqy
    · rcases hget j x q hx hqx with ⟨rfl, rfl⟩ | ⟨x', hx', hqx'⟩
      · rcases hget k y q hy hqy with ⟨-, rfl⟩ | ⟨y', hy', hqy'⟩
        · rfl
        · exact absurd hqy' (hfresh y' (List.mem_of_getElem? hy'))
      · rcases hget k y q hy hqy with ⟨rfl, -⟩ | ⟨y', hy', hqy'⟩
        · exact absurd hqx' (hfresh x' (List.mem_of_getElem? hx'))
        · exact hbase.apart j k x' y' q hx' hy' hqx' hqy'

omit [Config] in
theorem wp_takeData (R : Fault → Fs → Prop) : wp allocateFreeDataPageBase (fun _ t => t.header = s.header ∧
    t.mem = s.mem ∧ t.allocatedUnwrittenPages = s.allocatedUnwrittenPages ∧
    t.headerInodeRange = s.headerInodeRange ∧ t.ivStorage = s.ivStorage) R s := by
  simp only [allocateFreeDataPageBase, freeDataPagesEmpty, wp_bind, wp_get, wp_set, wp_pure, wp_ite,
    eraseFreeDataPageAt, wp_modify, implies_true, and_self]

theorem HeldApart.step {β : Type} {a : Section β} {s t : Shared} {b : β} (h : HeldApart hd s.fs l) (hi : l[i]? = some pages)
    (hpre : (writesHeld hd).pre a pages) (he : clients.exec i a s = some (b, t))
    (hok : DropsOwn i a s l b t) :
    (writesHeld hd).post a pages b ∧ HeldApart hd t.fs (l.set i (clients.note a b pages)) := by
  have hsec := runSection_eq he
  have hself : l.set i pages = l := by
    obtain ⟨hlt, rfl⟩ := List.getElem?_eq_some_iff.mp hi
    exact List.set_getElem_self hlt
  have L := h.ready.layout
  have hown : ∀ p ∈ pages, ¬ HeldByOther i p l := by
    rintro p hp ⟨j, x, hj, hx, hpx⟩
    exact hj (h.apart j i x pages p hx hi hpx hp)
  have quiet : t.fs.header = s.fs.header → t.fs.mem = s.fs.mem →
      t.fs.allocatedUnwrittenPages = s.fs.allocatedUnwrittenPages →
      t.fs.headerInodeRange = s.fs.headerInodeRange → HeldApart hd t.fs (l.set i pages) := by
    intro h1 h2 h3 h4
    rw [hself]
    exact h.same h1 h2 h3 h4
  cases a with
  | header =>
    injection hsec with hb ht
    rw [← hb, ← ht]
    exact ⟨h.header, by rw [ht]; exact quiet (by rw [ht]) (by rw [ht]) (by rw [ht]) (by rw [ht])⟩
  | canMapRead =>
    injection hsec with hb ht
    exact ⟨trivial, quiet (by rw [ht]) (by rw [ht]) (by rw [ht]) (by rw [ht])⟩
  | variant =>
    injection hsec with hb ht
    exact ⟨trivial, quiet (by rw [ht]) (by rw [ht]) (by rw [ht]) (by rw [ht])⟩
  | read mapped i =>
    injection hsec with hb ht
    refine ⟨fun hn => by rw [← h.header]; exact hok hn, ?_⟩
    exact quiet (by rw [ht]) (by rw [ht]) (by rw [ht]) (by rw [ht])
  | lockMeta =>
    injection hsec with hb ht
    exact ⟨trivial, quiet (by rw [ht]) (by rw [ht]) (by rw [ht]) (by rw [ht])⟩
  | unlockMeta =>
    injection hsec with hb ht
    exact ⟨trivial, quiet (by rw [ht]) (by rw [ht]) (by rw [ht]) (by rw [ht])⟩
  | clearIv =>
    injection hsec with hb ht
    exact ⟨trivial, quiet (by rw [← ht]) (by rw [← ht]) (by rw [← ht]) (by rw [← ht])⟩
  | addIv file =>
    injection hsec with hb ht
    exact ⟨trivial, quiet (by rw [← ht]) (by rw [← ht]) (by rw [← ht]) (by rw [← ht])⟩
  | ivStorage =>
    injection hsec with hb ht
    exact ⟨trivial, quiet (by rw [ht]) (by rw [ht]) (by rw [ht]) (by rw [ht])⟩
  | claim =>
    have ht := wp_ok (wp_allocateFreeInodePageNumber (R := fun _ _ => True) h.ready fun _ => trivial) hsec
    exact ⟨trivial, h.claim hi ht⟩
  | number =>
    injection hsec with hb ht
    exact ⟨hok, quiet (by rw [← ht]) (by rw [← ht]) (by rw [← ht]) (by rw [← ht])⟩
  | takeData =>
    obtain ⟨h1, h2, h3, h4, -⟩ := wp_ok (wp_takeData (fun _ _ => True)) hsec
    exact ⟨trivial, quiet h1 h2 h3 h4⟩
  | write hd' page data =>
    obtain ⟨⟨hge, hin⟩, hlen⟩ := hok
    obtain rfl : hd' = hd := hpre
    obtain rfl := h.header
    obtain ⟨ht, -⟩ := wp_ok (wp_perform_any (x := .write _ data) L.toGeometry hin (L.writeAddress_eq hin) hlen) hsec
    refine ⟨trivial, ?_⟩
    change HeldApart _ _ (l.set i pages)
    rw [hself]
    refine h.touched ht fun x hx hp => ?_
    have := (h.unwritten x hx page hp).1
    omega
  | writeInode page data =>
    obtain ⟨hp, hlen⟩ := hpre
    obtain rfl := h.header
    have hin := L.lt_inRange (h.unwritten pages (List.mem_of_getElem? hi) page hp).1
    have hw : wp (sec (.writeInode page data)) (fun _ u => Touched s.fs u page
        (.write (writeAddress s.fs.header page) data)) (fun _ _ => True) s.fs := by
      simp only [sec, writeMetaPage, wp_bind, wp_get]
      exact wp_mono (wp_perform_any (x := .write _ data) L.toGeometry hin (L.writeAddress_eq hin) hlen)
        (fun _ _ h => h.1) (fun _ _ _ => trivial)
    have ht := wp_ok hw hsec
    refine ⟨trivial, ?_⟩
    cases b with
    | true =>
      obtain ⟨h1, h2⟩ := h.drop hi (hown page hp)
      exact h1.touched ht fun x hx hpx => absurd hpx (h2 x hx)
    | false =>
      change HeldApart _ _ (l.set i pages)
      rw [hself]
      exact h.touched ht fun _ _ _ => hok rfl
  | erase page =>
    obtain ⟨hin, hother⟩ := hok
    obtain rfl := h.header
    have hw : wp (sec (.erase page)) (fun _ u => Touched s.fs u page
        (.erase (writeAddress s.fs.header page) s.fs.header.pageSize)) (fun _ _ => True) s.fs := by
      simp only [sec, wp_bind, wp_get, wp_pure]
      exact wp_mono (wp_perform_any (x := .erase _ _) L.toGeometry hin (L.writeAddress_eq hin)
        List.length_replicate) (fun _ _ h => h.1) (fun _ _ _ => trivial)
    have ht := wp_ok hw hsec
    obtain ⟨h1, h2⟩ := h.drop hi hother
    exact ⟨trivial, h1.touched ht fun x hx hpx => absurd hpx (h2 x hx)⟩
  | giveBack page =>
    injection hsec with hb ht
    exact ⟨trivial, quiet (by rw [← ht]) (by rw [← ht]) (by rw [← ht]) (by rw [← ht])⟩
  | unreserve page =>
    injection hsec with hb ht
    obtain ⟨hnd, hother⟩ := hok
    obtain ⟨h1, h2⟩ := h.drop hi hother
    refine ⟨trivial, ?_⟩
    have hwf := h.ready.allocatedWF
    rw [← ht]
    refine h1.of_state rfl ⟨L.of_eq rfl rfl, PageSet.erase_wf hwf hnd, h.ready.range⟩ (fun x hx p hp => ?_)
      fun x hx p hp => (h1.unwritten x hx p hp).2
    exact (PageSet.mem_erase hwf hnd).mpr ⟨h1.reserved x hx p hp, fun e => h2 x hx (e ▸ hp)⟩
  | fault e => exact by cases b

end Steps

-- clients before their first step
def startClients (s : Fs) (ops : List (List ClientOp)) : Pool Section Shared (List ℕ) Unit where
  shared := { fs := s }
  threads := ops.map fun l => ⟨clientT l, []⟩

def Excludes (d : Pool Section Shared (List ℕ) Unit) : Prop :=
  (∀ (i j : ℕ) (pages pages' : List ℕ) (p : ℕ), d.notes[i]? = some pages → d.notes[j]? = some pages' →
    p ∈ pages → p ∈ pages' → i = j) ∧
  ∀ (i p : ℕ) (data : List UInt8) (next : Bool → FsT Unit) (pages : List ℕ),
    d.threads[i]? = some ⟨.act (.writeInode p data) next, pages⟩ → p ∈ pages ∧ ¬ Valid d.shared.fs p

theorem inodePages_exclusive {s : Fs} (hs : ClaimReady s) (ops : List (List ClientOp))
    {d : Pool Section Shared (List ℕ) Unit} (hd : Pool.Reaches clients DropsOwn (startClients s ops) d) :
    Excludes d := by
  have hnotes : ∀ pages ∈ (startClients s ops).notes, pages = [] := by
    intro pages hp
    simp only [Pool.notes, startClients, List.map_map, List.mem_map] at hp
    obtain ⟨l, -, rfl⟩ := hp
    rfl
  have hget : ∀ (i : ℕ) (pages : List ℕ), (startClients s ops).notes[i]? = some pages → pages = [] :=
    fun i pages hi => hnotes pages (List.mem_of_getElem? hi)
  have h0 : HeldApart s.header (startClients s ops).shared.fs (startClients s ops).notes := by
    refine ⟨rfl, hs, fun x hx p hp => ?_, fun x hx p hp => ?_, fun i j x y p hx _ hp _ => ?_⟩
    · rw [hnotes x hx] at hp
      cases hp
    · rw [hnotes x hx] at hp
      cases hp
    · rw [hget i x hx] at hp
      cases hp
  have hk : (startClients s ops).AllKeep clients (writesHeld s.header) (fun _ _ _ => True) := by
    intro i t ht
    simp only [startClients, List.getElem?_map, Option.map_eq_some_iff] at ht
    obtain ⟨l, -, rfl⟩ := ht
    exact keeps_clientT l
  obtain ⟨h1, h2⟩ := Pool.Reaches.invariant (I := fun (t : Shared) l => HeldApart s.header t.fs l)
    (fun h hi hpre he hok => h.step hi hpre he hok) h0 hk hd
  refine ⟨h1.apart, fun i p data next pages ht => ?_⟩
  have hi : d.notes[i]? = some pages := by rw [Pool.notes, List.getElem?_map, ht]; rfl
  have hp := (h2 i _ ht).1.1
  exact ⟨hp, (h1.unwritten pages (List.mem_of_getElem? hi) p hp).2⟩

end Clients

def fourPages : Fs where
  variant := .dynamic
  mem := { bytes := List.replicate 512 0xFF }
  header := .ofFields 0 64 8 4 8
  headerInodeRange := .default 4 0

-- the first client writes a file and then a new version of it, the others create files
def threeClients : List (List ClientOp) :=
  [[.use [97] { out := true } [], .use [97] { in_ := true } [.edit 0 [] [], .flush]],
    [.use [98] { out := true } []], [.use [99] { out := true } []]]

-- the old page 0 is erased, the second client allocates it, the first one drops the reservation, the third
-- client allocates it too
def dropForeign : List ℕ := List.replicate 37 0 ++ List.replicate 17 1 ++ [0] ++ List.replicate 17 2

theorem inodePages_dropForeign : ∃ d, Pool.Reaches (@clients dynamicConfig) (fun _ _ _ _ _ _ _ => True)
    (@startClients dynamicConfig fourPages threeClients) d ∧ ¬ @Excludes dynamicConfig d := by
  have h : ((@startClients dynamicConfig fourPages threeClients).runChecked (@clients dynamicConfig)
      (fun _ {_} _ _ _ _ _ => true) dropForeign).any (fun d => d.notes = [[], [0], [0]]) = true := by
    decide +kernel
  obtain ⟨d, hd, hn⟩ := (Option.any_eq_true _ _).mp h
  refine ⟨d, Pool.reaches_of_runChecked (fun _ => trivial) hd, fun he => ?_⟩
  have := he.1 1 2 [0] [0] 0
  simp [of_decide_eq_true hn] at this

theorem fourPages_claimReady : ClaimReady fourPages where
  layout := ⟨⟨by decide, List.length_replicate.ge, by decide⟩, by decide⟩
  allocatedWF := PageSet.wf_empty
  range := by
    intro i hi
    exact List.mem_range.mp hi

-- the same clients, the first one going through with its flush
theorem inodePages_exclusive_inTurn : ∃ d, d.notes = [[], [0], [2]] ∧ @Excludes dynamicConfig d := by
  have h : ((@startClients dynamicConfig fourPages threeClients).runChecked (@clients dynamicConfig)
      (fun i {_} a s l b t => decide (@DropsOwn dynamicConfig i _ a s l b t))
      (List.replicate 38 0 ++ List.replicate 17 1 ++ List.replicate 17 2)).any (fun d => d.notes = [[], [0], [2]]) =
      true := by
    decide +kernel
  obtain ⟨d, hd, hn⟩ := (Option.any_eq_true _ _).mp h
  exact ⟨d, of_decide_eq_true hn, @inodePages_exclusive dynamicConfig fourPages fourPages_claimReady threeClients d
    (Pool.reaches_of_runChecked (fun h => of_decide_eq_true h) hd)⟩

end SimpleFlashFs
