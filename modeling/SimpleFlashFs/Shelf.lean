import SimpleFlashFs.Sessions
import SimpleFlashFs.History

namespace SimpleFlashFs

open Lib

-- the files of a drive by their names
abbrev Store := List UInt8 → Option (List UInt8)

section Shelf

variable [Config] {hd : Header} {N : ℕ} {s t u : Fs} {m m' : Store} {live : List FileHandle} {h k : FileHandle}
  {name : List UInt8} {content : List UInt8} {saved : Option (List UInt8)} {i : ℕ}

-- the record at page i is that of a file of the store, or of a deleted file
def Shelved (s : Fs) (m : Store) (i : ℕ) : Prop :=
  ∃ content, SavedAt s i content ∧ (nameAt s i ≠ [] → m (nameAt s i) = some content)

theorem Shelved.spared (hs : Shelved s m i) (hf : FlashSound s) (hps : 0 < s.header.pageSize) (e : SparedAt s t i) :
    Shelved t m i := by
  obtain ⟨content, hsaved, hname⟩ := hs
  refine ⟨content, hsaved.spared hf hps e, ?_⟩
  rw [nameAt_congr e.header e.record]
  exact hname

theorem Shelved.congr (hs : Shelved s m i) (hm : nameAt s i ≠ [] → m' (nameAt s i) = m (nameAt s i)) : Shelved s m' i := by
  obtain ⟨content, hsaved, hname⟩ := hs
  exact ⟨content, hsaved, fun hne => (hm hne).trans (hname hne)⟩

theorem SparedAt.of_sameFlash (e : SameFlash s t) (i : ℕ) : SparedAt s t i :=
  ⟨e.header, e.pageAt_eq i, fun _ p _ => e.pageAt_eq p⟩

-- the header page is left alone
structure SameHeader (s t : Fs) : Prop where
  header : t.header = s.header
  length : t.mem.bytes.length = s.mem.bytes.length
  page : headerPage t = headerPage s

omit [Config] in
theorem SameHeader.of_mem (hh : t.header = s.header) (hm : t.mem = s.mem) : SameHeader s t := by
  refine ⟨hh, by rw [hm], ?_⟩
  rw [headerPage, headerPage, hm, hh]

omit [Config] in
theorem SameHeader.trans (a : SameHeader s t) (b : SameHeader t u) : SameHeader s u :=
  ⟨b.header.trans a.header, b.length.trans a.length, b.page.trans a.page⟩

omit [Config] in
theorem Within.sameHeader {may : ℕ → Prop} (w : Within s t may) : SameHeader s t := ⟨w.header, w.length, w.headerPage⟩

theorem Committed.sameHeader (hc : Committed s h t) : SameHeader s t := by
  obtain ⟨u, img, -, -, he, ht⟩ := hc
  exact he.within.sameHeader.trans ⟨ht.header, ht.length, ht.headerPage⟩

theorem Flushed.sameHeader {r : Bool × FileHandle} (hf : Flushed s h t r) : SameHeader s t := by
  cases hf with
  | unmodified => exact .of_mem rfl rfl
  | first hm hn t hc => exact ⟨hc.sameHeader.header, hc.sameHeader.length, hc.sameHeader.page⟩
  | full hm hn t ht => exact .of_mem (by rw [ht.rest]) (by rw [ht.rest])
  | next hm hn p u v t hu hc he =>
    have hv : SameHeader s v := (SameHeader.of_mem (by rw [hu.rest]) (by rw [hu.rest])).trans hc.sameHeader
    split at he
    · rw [he]
      exact hv
    · obtain ⟨l, -, hl⟩ := he
      exact hv.trans hl.within.sameHeader

theorem HeaderOn.kept (hon : HeaderOn s.mem s.header) (L : Layout s) (e : SameHeader s t) : HeaderOn t.mem t.header :=
  hon.of_headerPage L e.header e.length e.page

theorem HeaderOn.onSame (hon : HeaderOn s.mem s.header) (L : Layout s) (e : SameHeader s t) : HeaderOn t.mem s.header := by
  have hon' := hon.kept L e
  rwa [e.header] at hon'

-- the records of the drive are the files of the store; no more than N inode numbers are given
structure Shelf (hd : Header) (N : ℕ) (s : Fs) (live : List FileHandle) (m : Store) : Prop where
  header : s.header = hd
  onFlash : HeaderOn s.mem s.header
  catalog : Catalog s
  sound : Sound s live
  numbers : s.maxInodeNumber ≤ N
  deleted : ∀ i, Valid s i → nameAt s i = [] → (openedAt s i).modified = false
  records : ∀ i, Valid s i → Shelved s m i
  files : ∀ name content, name ≠ [] → m name = some content → ∃ i, Valid s i ∧ nameAt s i = name

theorem Shelf.congr (hs : Shelf hd N s live m) (hm : ∀ name ≠ [], m' name = m name) : Shelf hd N s live m' where
  header := hs.header
  onFlash := hs.onFlash
  catalog := hs.catalog
  sound := hs.sound
  numbers := hs.numbers
  deleted := hs.deleted
  records i hi := (hs.records i hi).congr fun hne => hm _ hne
  files name content hne he := hs.files name content hne ((hm name hne).symm.trans he)

-- of the records only some of deleted files are gone
theorem Shelf.fewer {live' : List FileHandle} (hs : Shelf hd N s live m) (e : SameHeader s t) (hc : Catalog t) (ht : Sound t live')
    (hn : t.maxInodeNumber ≤ N) (hp : ∀ i, Valid t i → Valid s i ∧ SparedAt s t i)
    (hnamed : ∀ i, Valid s i → nameAt s i ≠ [] → Valid t i) : Shelf hd N t live' m where
  header := e.header.trans hs.header
  onFlash := hs.onFlash.kept hs.sound.ready.layout e
  catalog := hc
  sound := ht
  numbers := hn
  deleted i hi hnil := by
    obtain ⟨hv, hsp⟩ := hp i hi
    rw [nameAt_congr e.header hsp.record] at hnil
    rw [openedAt_congr e.header hsp.record]
    exact hs.deleted i hv hnil
  records i hi := by
    obtain ⟨hv, hsp⟩ := hp i hi
    exact (hs.records i hv).spared hs.sound.flash hs.sound.ready.layout.pageSize_pos hsp
  files name content hne he := by
    obtain ⟨i, hi, hname⟩ := hs.files name content hne he
    have hv := hnamed i hi (by rw [hname]; exact hne)
    exact ⟨i, hv, (nameAt_congr e.header (hp i hv).2.record).trans hname⟩

theorem Shelf.sameFlash (hs : Shelf hd N s live m) (e : SameFlash s t) (ht : Sound t live) : Shelf hd N t live m := by
  apply hs.fewer (.of_mem e.header e.mem) (e.catalog hs.catalog) ht
  · rw [e.numbers]
    exact hs.numbers
  · exact fun i hi => ⟨e.valid_iff.mp hi, .of_sameFlash e i⟩
  · exact fun i hi _ => e.valid_iff.mpr hi

-- the file of this name is open with these bytes, and the others are on the shelf
structure Desk (hd : Header) (N : ℕ) (s : Fs) (live : List FileHandle) (m : Store) (name : List UInt8) (h : FileHandle)
    (content : List UInt8) (saved : Option (List UInt8)) : Prop where
  header : s.header = hd
  onFlash : HeaderOn s.mem s.header
  catalog : Catalog s
  sound : Sound s (h :: live)
  numbers : s.maxInodeNumber ≤ N
  fresh : h.inode.inodeNumber = 0 → s.maxInodeNumber + 1 ≤ N
  unrecorded : Unrecorded s h
  backed : Backed s h content saved
  held : Held s h
  own : OwnPage s h
  named : Valid s h.page → nameAt s h.page = name
  handle : h.inode.flashName = name ∨ h.inode.flashName = []
  alone : ∀ i, Valid s i → nameAt s i = name → name = [] ∨ i = h.page
  blank : h.inode.flashName = [] → h.modified = true → h.inode.dataPages = [] ∧ h.inode.fileLen = 0
  deleted : ∀ i, Valid s i → nameAt s i = [] → (openedAt s i).modified = false
  records : ∀ i, Valid s i → i ≠ h.page → Shelved s m i
  files : ∀ other content, other ≠ [] → other ≠ name → m other = some content → ∃ i, Valid s i ∧ nameAt s i = other

theorem Desk.name_ne (hd' : Desk hd N s live m name h content saved) (hi : Valid s i) (hne : i ≠ h.page) (hnil : nameAt s i ≠ []) :
    nameAt s i ≠ name := by
  intro he
  rcases hd'.alone i hi he with hnil' | hpage
  · exact hnil (he.trans hnil')
  · exact hne hpage

theorem Desk.congr (hd' : Desk hd N s live m name h content saved) (hm : ∀ other ≠ [], other ≠ name → m' other = m other) :
    Desk hd N s live m' name h content saved :=
  { hd' with
    records := fun i hi hne => (hd'.records i hi hne).congr fun hnil => hm _ hnil (hd'.name_ne hi hne hnil)
    files := fun other content hnil hne he => hd'.files other content hnil hne ((hm other hnil hne).symm.trans he) }

omit [Config] in
theorem Carries.fitsInline (hc : Carries s h content) : FitsInline s.header h := by
  intro hcount
  rw [hc.length]
  rcases hc.storage with hin | hon
  · rcases hin.short with hlt | hnil
    · exact hlt.le
    · rw [hnil]
      exact Nat.zero_le _
  · obtain ⟨pages, hs, hn, -⟩ := hon.pages
    have hvalid := hs.valid
    rw [hcount] at hvalid
    rw [List.length_eq_zero_iff.mp hvalid.symm] at hn
    exact hn.trans (Nat.zero_le _)

theorem Desk.flushable (hd' : Desk hd N s live m name h content saved) (hN : N < 2 ^ 64) : Flushable s h where
  own := hd'.own
  numbers hn := (hd'.fresh hn).trans_lt hN
  inline := hd'.backed.carries.fitsInline
  name i hi he := by
    rcases hd'.handle with hname | hnil
    · rw [hname] at he ⊢
      exact hd'.alone i hi he
    · exact Or.inl hnil

-- a page of the inode region that a flush of h leaves alone
theorem Desk.flushSpares (hd' : Desk hd N s live m name h content saved) {r : Bool × FileHandle} (hf : Flushed s h t r) (hi : Valid s i)
    (hne : i ≠ h.page) : SparedAt s t i :=
  hd'.sound.flushSpares_spared (hd'.sound.flushSpares hd'.catalog.variant hf) hi.1 hne (Or.inl hi)

theorem Flushed.cleaned {r : Bool × FileHandle} (hf : Flushed s h t r) (hr : r.1 = true) : r.2.modified = false := by
  cases hf with
  | unmodified hm => exact hm
  | first => rfl
  | full => cases hr
  | next => rfl

omit [Config] in
theorem Inode.decoded_blank {hd : Header} {n : Inode} {corr : Bool} (hp : n.dataPages = []) (hl : n.fileLen = 0) :
    (n.decoded hd corr).modified = false := by
  have hlen : n.recorded.fileLen = 0 := by
    rw [Inode.recorded, hl]
    rfl
  rw [Inode.decoded]
  dsimp only
  rw [if_neg (by simp [hp]), if_neg (by simp [hlen])]

theorem Stores.openedAt_blank {n : Inode} (hs : Stores t i n) (hn : n.fileNameLen < 2 ^ 16) (hp : n.dataPages = [])
    (hl : n.fileLen = 0) : (openedAt t i).modified = false := by
  rw [openedAt, hs.decode hn true]
  exact Inode.decoded_blank hp hl

-- the record of a file without bytes is read as it is
theorem Sound.flushed_blank {r : Bool × FileHandle} (hs : Sound s (h :: live)) (hv : s.variant ≠ .noDel) (hf : Flushed s h t r)
    (hr : r.1 = true) (hm : h.modified = true) (hp : h.inode.dataPages = []) (hl : h.inode.fileLen = 0) :
    (openedAt t r.2.page).modified = false := by
  have hlive := hs.head
  cases hf with
  | unmodified hm' => exact absurd hm (by simp [hm'])
  | full => cases hr
  | first _ _ t hc =>
    have hst := (hlive.recorded hs.ready hc).stores
    exact hst.openedAt_blank hlive.name hp hl
  | next _ _ p u w t hu hc he =>
    rw [if_neg hv] at he
    obtain ⟨l, hplan, hl'⟩ := he
    have hst := (hlive.moved hs.ready hu hc hplan hl').stores
    have hpages : (h.nextVersion p).inode.dataPages = [] := by
      rw [FileHandle.nextVersion, FileHandle.stripDeleted, FileHandle.setPages]
      dsimp only
      rw [hp, List.filter_nil]
    exact hst.openedAt_blank hlive.name hpages hl

-- the file has a new record, under the name that the handle has
theorem Desk.relocated (hd' : Desk hd N s live m name h content saved) (hN : N < 2 ^ 64)
    (hf : Flushed s h t (true, k)) (r : Relocated s h t k) (hm : h.modified = true) (hgone : h.inode.flashName = name ∨ m name = none) :
    Desk hd N t live m h.inode.flashName k content (some content) := by
  have hc := hd'.catalog
  have hflush := hd'.flushable hN
  have hsound := hd'.sound.flushed hc.variant hf
  have hlt := hc.numbers_lt
  obtain ⟨hne0, -, -, -, -⟩ := r.fresh_number hc hflush
  obtain ⟨n, -, hn, hw, hnum⟩ := r.stores_regular hc hd'.held hflush
  have hname : nameAt t k.page = h.inode.flashName := hn.name.trans hw.flashName
  have hold := fun i => r.valid_iff (j := i) hc
  have hother : ∀ i, Valid s i → i ≠ h.page → nameAt t i = nameAt s i := fun i hi hne =>
    nameAt_congr r.header (r.other hi hne).2
  constructor
  · exact r.header.trans hd'.header
  · exact hd'.onFlash.kept hd'.sound.ready.layout hf.sameHeader
  · exact hc.relocated hd'.held hflush r
  · exact hsound
  · rcases r.number with ⟨h0, -, -, he⟩ | ⟨-, -, -, -, -, he⟩
    · have hfresh := hd'.fresh h0
      rw [he, Nat.mod_eq_of_lt (by omega)]
      exact hfresh
    · rw [he]
      exact hd'.numbers
  · exact fun h0 => absurd h0 hne0
  · exact hf.unrecorded hd'.unrecorded
  · exact hd'.backed.flushed hd'.sound hc.variant hf
  · exact r.held hc hd'.held hflush
  · rw [OwnPage, if_neg hne0]
    exact ⟨r.valid_self, hn.number.trans hnum⟩
  · exact fun _ => hname
  · left
    rw [Inode.flashName, Inode.flashName, r.nameLen, r.name]
  · intro i hi he
    rcases (hold i).mp hi with rfl | ⟨hi, hne⟩
    · exact Or.inr rfl
    · rw [hother i hi hne] at he
      rcases hflush.name i hi he with hnil | hpage
      · exact Or.inl hnil
      · exact absurd hpage hne
  · intro _ hmod
    rw [hf.cleaned rfl] at hmod
    cases hmod
  · intro i hi hnil
    rcases (hold i).mp hi with rfl | ⟨hi, hne⟩
    · rw [hname] at hnil
      obtain ⟨hpages, hlen⟩ := hd'.blank hnil hm
      exact hd'.sound.flushed_blank hc.variant hf rfl hm hpages hlen
    · rw [hother i hi hne] at hnil
      rw [openedAt_congr r.header (r.other hi hne).2]
      exact hd'.deleted i hi hnil
  · intro i hi hne
    rcases (hold i).mp hi with he | ⟨hi, hne'⟩
    · exact absurd he hne
    · apply (hd'.records i hi hne').spared hd'.sound.flash hd'.sound.ready.layout.pageSize_pos
      exact hd'.flushSpares hf hi hne'
  · intro other content hnil hne he
    have hne' : other ≠ name := by
      rintro rfl
      rcases hgone with hsame | hnone
      · exact hne hsame.symm
      · rw [hnone] at he
        cases he
    obtain ⟨i, hi, hio⟩ := hd'.files other content hnil hne' he
    have hpage : i ≠ h.page := by
      rintro rfl
      exact hne' (hio.symm.trans (hd'.named hi))
    exact ⟨i, (hold i).mpr (Or.inr ⟨hi, hpage⟩), (hother i hi hpage).trans hio⟩

-- the records are as they were, and the open file is still that of its record
theorem Desk.carried {content' : List UInt8} {saved' : Option (List UInt8)} (hd' : Desk hd N s live m name h content saved)
    (e : SameInodes s t) (hon : SameHeader s t) (hnum : t.maxInodeNumber = s.maxInodeNumber) (hpage : k.page = h.page)
    (hid : k.inode.inodeNumber = h.inode.inodeNumber) (hname : k.inode.flashName = name ∨ k.inode.flashName = [])
    (hblank : k.inode.flashName = [] → k.modified = true → k.inode.dataPages = [] ∧ k.inode.fileLen = 0)
    (hspared : ∀ i, Valid s i → i ≠ h.page → SparedAt s t i) (hc : Catalog t) (hs : Sound t (k :: live)) (hu : Unrecorded t k)
    (hb : Backed t k content' saved') (hheld : Held t k) : Desk hd N t live m name k content' saved' := by
  have hsame : ∀ i, Valid s i → nameAt t i = nameAt s i := fun i hi => nameAt_congr e.header (e.pages i hi.1)
  constructor
  · exact e.header.trans hd'.header
  · exact hd'.onFlash.kept hd'.sound.ready.layout hon
  · exact hc
  · exact hs
  · rw [hnum]
    exact hd'.numbers
  · rw [hid, hnum]
    exact hd'.fresh
  · exact hu
  · exact hb
  · exact hheld
  · have hown := hd'.own
    unfold OwnPage VersionAt at hown ⊢
    rw [hid, hpage, e.valid]
    split
    · next h0 =>
      rw [if_pos h0] at hown
      exact hown
    · next h0 =>
      rw [if_neg h0] at hown
      rw [numberAt_congr e.header (e.pages h.page hown.1.1)]
      exact hown
  · intro hi
    rw [hpage] at hi ⊢
    have hi := e.valid.mp hi
    exact (hsame h.page hi).trans (hd'.named hi)
  · exact hname
  · intro i hi he
    have hi := e.valid.mp hi
    rw [hpage]
    rw [hsame i hi] at he
    exact hd'.alone i hi he
  · exact hblank
  · intro i hi hnil
    have hi := e.valid.mp hi
    rw [hsame i hi] at hnil
    rw [openedAt_congr e.header (e.pages i hi.1)]
    exact hd'.deleted i hi hnil
  · intro i hi hne
    have hi := e.valid.mp hi
    rw [hpage] at hne
    apply (hd'.records i hi hne).spared hd'.sound.flash hd'.sound.ready.layout.pageSize_pos
    exact hspared i hi hne
  · intro other content hnil hne he
    obtain ⟨i, hi, hio⟩ := hd'.files other content hnil hne he
    exact ⟨i, e.valid.mpr hi, (hsame i hi).trans hio⟩

theorem Desk.sameFlash (hd' : Desk hd N s live m name h content saved) (e : SameFlash s t) (ht : Sound t (h :: live))
    (hu : Unrecorded t h) (hb : Backed t h content saved) : Desk hd N t live m name h content saved := by
  apply hd'.carried ⟨e.header, fun i _ => e.pageAt_eq i⟩ (.of_mem e.header e.mem) e.numbers rfl rfl hd'.handle hd'.blank
  · exact fun i _ _ => .of_sameFlash e i
  · exact e.catalog hd'.catalog
  · exact ht
  · exact hu
  · exact hb
  · exact hd'.held.mono e.header e.numbers.ge

-- what a flush of the open file leaves
inductive DeskFlushed (hd : Header) (N : ℕ) (s : Fs) (live : List FileHandle) (m : Store) (name : List UInt8) (h : FileHandle)
    (content : List UInt8) (saved : Option (List UInt8)) : Fs → Bool × FileHandle → Prop
  | unmodified (hm : h.modified = false) : DeskFlushed hd N s live m name h content saved s (true, h)
  | full (t : Fs) (hm : h.modified = true) (ht : Desk hd N t live m name h content saved) :
      DeskFlushed hd N s live m name h content saved t (false, h)
  | recorded (t : Fs) (k : FileHandle) (hm : k.modified = false) (hk : k.inode.flashName = h.inode.flashName)
      (ht : ∀ m', (h.inode.flashName = name ∨ m' name = none) → (∀ other ≠ [], other ≠ name → m' other = m other) →
        Desk hd N t live m' h.inode.flashName k content (some content)) :
      DeskFlushed hd N s live m name h content saved t (true, k)

theorem Desk.wp_flush (hd' : Desk hd N s live m name h content saved) (hN : N < 2 ^ 64) :
    wp (flush h) (fun r t => Flushed s h t r ∧ DeskFlushed hd N s live m name h content saved t r) (fun _ _ => True) s := by
  have hc := hd'.catalog
  have hl := hd'.sound.head
  have hcommit := SimpleFlashFs.wp_flush hd'.sound.ready hl.toOwns hl.page
  apply wp_mono (wp_and hcommit (hc.wp_flush hd'.held fun _ => hd'.flushable hN))
  · rintro r t ⟨hf, hkeep⟩
    refine ⟨hf, ?_⟩
    have hrew := hkeep.rewritten
    cases hrew with
    | unmodified hm => exact .unmodified hm
    | full t ht =>
      have hm : h.modified = true := by
        cases hf
        assumption
      apply DeskFlushed.full t hm
      apply hd'.sameFlash (ht.sameFlash hc.ready) (hd'.sound.flushed hc.variant hf) (hf.unrecorded hd'.unrecorded)
      exact hd'.backed.flushed hd'.sound hc.variant hf
    | relocated hm t k r =>
      apply DeskFlushed.recorded t k (hf.cleaned rfl)
      · rw [Inode.flashName, Inode.flashName, r.nameLen, r.name]
      · exact fun m' hgone hm' => (hd'.congr hm').relocated hN hf r hm hgone
  · exact fun _ _ _ => trivial

theorem DeskFlushed.named {r : Bool × FileHandle} (hf : DeskFlushed hd N s live m name h content saved t r)
    (hd' : Desk hd N s live m name h content saved) (hname : h.inode.flashName = name) :
    Desk hd N t live m name r.2 content (if r.1 then some content else saved) ∧ r.2.inode.flashName = name := by
  cases hf with
  | unmodified hm =>
    rw [if_pos rfl, ← hd'.backed.clean hm]
    exact ⟨hd', hname⟩
  | full t hm ht => exact ⟨ht, hname⟩
  | recorded t k hm hk ht =>
    have hdesk := ht m (Or.inl hname) fun _ _ _ => rfl
    rw [hname] at hdesk
    exact ⟨hdesk, hk.trans hname⟩

-- the handle is gone
theorem Desk.dropped (hd' : Desk hd N s live m name h content saved) : Shelf hd N s live (Function.update m name saved) := by
  refine ⟨hd'.header, hd'.onFlash, hd'.catalog, hd'.sound.tail, hd'.numbers, hd'.deleted, fun i hi => ?_, fun other bytes hnil he => ?_⟩
  · by_cases hpage : i = h.page
    · subst hpage
      have hsaved := hd'.backed.saved
      cases saved with
      | none => exact absurd hi hsaved
      | some bytes =>
        refine ⟨bytes, hsaved, fun _ => ?_⟩
        rw [hd'.named hi, Function.update_self]
    · apply (hd'.records i hi hpage).congr
      intro hnil
      exact Function.update_of_ne (hd'.name_ne hi hpage hnil) _ _
  · by_cases hother : other = name
    · subst hother
      rw [Function.update_self] at he
      have hsaved := hd'.backed.saved
      rw [he] at hsaved
      exact ⟨h.page, hsaved.valid, hd'.named hsaved.valid⟩
    · rw [Function.update_of_ne hother] at he
      exact hd'.files other bytes hnil hother he

-- and with it its reservations
theorem Desk.shelf (hd' : Desk hd N s live m name h content saved) (hr : Released s u (h.page :: h.ids)) :
    Shelf hd N u live (Function.update m name saved) := by
  apply hd'.dropped.sameFlash (hr.sameFlash hd'.catalog)
  apply hd'.sound.tail.released hr
  intro k hk hmem
  rcases List.mem_cons.mp hmem with hmem | hmem
  · exact ((List.pairwise_cons.mp hd'.sound.live_apart).1 k hk).1 hmem.symm
  · have hge := (hd'.held.region _ hmem).1
    have hlt := (hd'.sound.handles k (List.mem_cons_of_mem _ hk)).page
    omega

theorem Desk.wp_closeHandle (hd' : Desk hd N s live m name h content saved) (hN : N < 2 ^ 64) (hname : h.inode.flashName = name) :
    wp (closeHandle h) (fun _ t => ∃ ok : Bool, Shelf hd N t live (Function.update m name (if ok then some content else saved)))
      (fun _ _ => True) s := by
  apply wp_closeHandle_after hd'.backed.connected
  apply wp_mono (hd'.wp_flush hN)
  · rintro r t ⟨-, hf⟩
    have hk := (hf.named hd' hname).1
    exact ⟨hk.sound.ready, hk.held, fun u hu => ⟨r.1, hk.shelf hu⟩⟩
  · exact fun _ _ h => h

end Shelf

section Opening

variable [Config] {hd : Header} {N : ℕ} {s t u : Fs} {m m' : Store} {live : List FileHandle} {h k : FileHandle}
  {name : List UInt8} {content : List UInt8} {saved : Option (List UInt8)} {i : ℕ} {content : List UInt8}

omit [Config] in
theorem decoded_cursor (hd : Header) (corr : Bool) (inode : Inode) :
    (inode.decoded hd corr).pos = 0 ∧ (inode.decoded hd corr).append = false := by
  unfold Inode.decoded
  dsimp only
  split
  · exact ⟨rfl, rfl⟩
  · split
    · split <;> exact ⟨rfl, rfl⟩
    · exact ⟨rfl, rfl⟩

theorem Catalog.openedAt_cursor (hc : Catalog s) (hi : Valid s i) : (openedAt s i).pos = 0 ∧ (openedAt s i).append = false := by
  obtain ⟨n, -, hn⟩ := hc.holds hi
  rw [hn.openedAt_eq]
  exact decoded_cursor s.header true n

theorem Sound.openedAt (hs : Sound s live) (hi : Valid s i) (hlive : ∀ k ∈ live, k.page ≠ i) :
    Sound s (openedAt s i :: live) := by
  obtain ⟨h, hdec, -, hsound⟩ := hs.decode hi hlive true
  rw [SimpleFlashFs.openedAt, hdec]
  exact hsound

theorem Sound.rawAt (hs : Sound s live) (hi : Valid s i) (hlive : ∀ k ∈ live, k.page ≠ i) :
    Sound s (rawAt s i :: live) := by
  obtain ⟨h, hdec, -, hsound⟩ := hs.decode hi hlive false
  rw [SimpleFlashFs.rawAt, hdec]
  exact hsound

-- a file of the shelf is opened
theorem Shelf.desk (hs : Shelf hd N s live m) (hi : Valid s i) (hlive : ∀ k ∈ live, k.page ≠ i) :
    ∃ content, (nameAt s i ≠ [] → m (nameAt s i) = some content) ∧
      Desk hd N s live m (nameAt s i) (openedAt s i) content (some content) := by
  have hc := hs.catalog
  have ho := hc.opened hi
  obtain ⟨content, hsaved, hname⟩ := hs.records i hi
  refine ⟨content, hname, ?_⟩
  constructor
  · exact hs.header
  · exact hs.onFlash
  · exact hc
  · exact hs.sound.openedAt hi hlive
  · exact hs.numbers
  · exact fun h0 => absurd h0 ho.numbered
  · intro _ p hp
    obtain ⟨x, hx, hxs, -⟩ := (FileHandle.mem_newIds_iff (List.Perm.refl _)).mp hp
    rw [ho.stored x hx] at hxs
    cases hxs
  · refine ⟨hsaved.carries, ho.connected, fun _ => rfl, ?_⟩
    rw [ho.page_eq]
    exact hsaved
  · exact ho.toHeld
  · exact (ho.flushable hc).own
  · rw [ho.page_eq]
    exact fun _ => rfl
  · exact Or.inl ho.flashName
  · intro j hj he
    by_cases hnil : nameAt s i = []
    · exact Or.inl hnil
    · rw [ho.page_eq]
      exact Or.inr (hc.names j i hj hi he (by rwa [he]))
  · intro hnil hm
    rw [hs.deleted i hi (ho.flashName.symm.trans hnil)] at hm
    cases hm
  · exact hs.deleted
  · exact fun j hj _ => hs.records j hj
  · exact fun other c hnil _ he => hs.files other c hnil he

theorem Shelf.remember (hs : Shelf hd N s live m) (ivs : List InodeVersion) : Shelf hd N { s with ivStorage := ivs } live m :=
  hs.sameFlash (hs.catalog.freed_ivStorage ivs).toSameFlash (hs.sound.remember ivs)

-- a file that was only looked at is on the shelf again
theorem Shelf.wp_closeOpened (hs : Shelf hd N s live m) (hN : N < 2 ^ 64) (hi : Valid s i) (hlive : ∀ k ∈ live, k.page ≠ i) :
    wp (closeHandle (openedAt s i)) (fun _ t => Shelf hd N t live m) (fun _ _ => True) s := by
  obtain ⟨content, hname, hd'⟩ := hs.desk hi hlive
  apply wp_mono (hd'.wp_closeHandle hN (hs.catalog.opened hi).flashName)
  · rintro _ t ⟨ok, ht⟩
    rw [ite_self] at ht
    apply ht.congr
    intro other hnil
    by_cases he : other = nameAt s i
    · subst he
      rw [Function.update_self]
      exact hname hnil
    · rw [Function.update_of_ne he]
  · exact fun _ _ h => h

theorem Shelf.wp_closeRaw (hs : Shelf hd N s live m) (hi : Valid s i) (hlive : ∀ k ∈ live, k.page ≠ i) :
    wp (closeHandle (rawAt s i)) (fun _ t => Shelf hd N t live m) (fun _ _ => True) s := by
  have hsound := hs.sound.rawAt hi hlive
  have hl := hsound.head
  apply wp_mono (wp_and (hs.catalog.wp_closeRaw hi) (wp_closeHandle hsound.ready hl.toOwns hl.page))
  · rintro _ t ⟨⟨e, -⟩, hclosed⟩
    exact hs.sameFlash e.toSameFlash (hsound.closed hs.catalog.variant hclosed)
  · exact fun _ _ _ => trivial

-- a record that a lookup has read
def Looking (hd : Header) (N : ℕ) (m : Store) (s : Fs) (h : FileHandle) : Prop :=
  Shelf hd N s [] m ∧ ∃ i, Valid s i ∧ (h = openedAt s i ∨ h = rawAt s i)

theorem shelf_rule (hN : N < 2 ^ 64) : LookupRule hd (fun s => Shelf hd N s [] m) (Looking hd N m) (fun _ _ => True) where
  header _ hs := hs.header
  layout _ hs := hs.sound.ready.layout
  versions _ ivs hs := hs.remember ivs
  handle s h ivs hl := by
    obtain ⟨hs, i, hi, hh⟩ := hl
    exact ⟨hs.remember ivs, i, hi, hh⟩
  decode s i corr hs hi := by
    obtain ⟨h, hdec, -, -⟩ := hs.sound.decode hi (List.forall_mem_nil _) corr
    refine ⟨h, hdec, hs, i, hi, ?_⟩
    cases corr with
    | true =>
      left
      rw [openedAt, hdec]
    | false =>
      right
      rw [rawAt, hdec]
  close s h hl := by
    obtain ⟨hs, i, hi, hh⟩ := hl
    have hclose : wp (closeHandle h) (fun _ t => Shelf hd N t [] m) (fun _ _ => True) s := by
      rcases hh with rfl | rfl
      · exact hs.wp_closeOpened hN hi (List.forall_mem_nil _)
      · exact hs.wp_closeRaw hi (List.forall_mem_nil _)
    have hlive : LiveHandle s h := by
      rcases hh with rfl | rfl
      · exact (hs.sound.openedAt hi (List.forall_mem_nil _)).head
      · exact (hs.sound.rawAt hi (List.forall_mem_nil _)).head
    apply wp_mono (wp_and hclose (wp_closeHandle hs.sound.ready hlive.toOwns hlive.page))
    · exact fun _ t ht => ⟨ht.1, ht.2.keeps.ivStorage⟩
    · exact fun _ _ _ => trivial

-- what a lookup of a name finds on a drive
inductive ShelfFound (hd : Header) (N : ℕ) (s : Fs) (m : Store) (name : List UInt8) : FileHandle → Fs → Prop
  | absent (t : Fs) (ht : Shelf hd N t [] m) (hn : t.maxInodeNumber = s.maxInodeNumber) (hm : name ≠ [] → m name = none) :
      ShelfFound hd N s m name {} t
  | present (t : Fs) (i : ℕ) (ht : Shelf hd N t [] m) (hi : Valid t i) (hname : nameAt t i = name) (hnil : name ≠ []) :
      ShelfFound hd N s m name (openedAt t i) t

theorem Looking.connected (hl : Looking hd N m s h) : h.connected = true := by
  obtain ⟨hs, i, hi, rfl | rfl⟩ := hl
  · exact (hs.catalog.opened hi).connected
  · obtain ⟨n, -, hn⟩ := hs.catalog.holds hi
    rw [hn.rawAt_eq]
    exact decoded_connected _ _ _

theorem Shelf.wp_findFile (hs : Shelf hd N s [] m) (hN : N < 2 ^ 64) (name : List UInt8) :
    wp (findFile name) (fun h t => ShelfFound hd N s m name h t) (fun _ _ => True) s := by
  apply wp_mono (wp_and ((shelf_rule hN).wp_findFile name hs) (hs.catalog.wp_findFile name))
  · rintro h t ⟨hlooked, -, hshift, hfound⟩
    rcases hlooked with ⟨rfl, ht⟩ | ⟨-, -, hlook⟩
    · rcases hfound with ⟨-, hno⟩ | ⟨i, hi, -, -, he, -⟩
      · apply ShelfFound.absent t ht hshift.numbers
        intro hnil
        by_contra hm
        obtain ⟨content, hm⟩ := Option.ne_none_iff_exists'.mp hm
        obtain ⟨i, hi, hname⟩ := hs.files name content hnil hm
        exact hnil (hno i (mem_recordPages.mpr hi) hname)
      · have hcon := (hs.catalog.opened (mem_recordPages.mp hi)).connected
        rw [← he] at hcon
        cases hcon
    · rcases hfound with ⟨rfl, -⟩ | ⟨i, hi, hname, hnil, rfl, hv, hp⟩
      · cases hlook.connected
      · rw [← openedAt_congr hshift.header hp]
        exact .present t i hlook.1 hv ((nameAt_congr hshift.header hp).trans hname) hnil
  · exact fun _ _ _ => trivial

-- the file as an open with this mode shows it
def opened (mode : OpenMode) (saved : Option (List UInt8)) : IdealFile where
  file := {
    content := saved.getD [],
    pos := if mode.ate ∧ (saved.getD []).length > 0 then (saved.getD []).length - 1 else 0,
    append := mode.app }
  saved := saved

-- the state is the same, and another handle stands for the open file
theorem Desk.replaced {content' : List UInt8} (hd' : Desk hd N s live m name h content saved) (hpage : k.page = h.page)
    (hid : k.inode.inodeNumber = h.inode.inodeNumber) (hname : k.inode.flashName = name ∨ k.inode.flashName = [])
    (hblank : k.inode.flashName = [] → k.modified = true → k.inode.dataPages = [] ∧ k.inode.fileLen = 0)
    (hs : Sound s (k :: live)) (hu : Unrecorded s k) (hb : Backed s k content' saved) (hheld : Held s k) :
    Desk hd N s live m name k content' saved := by
  apply hd'.carried ⟨rfl, fun _ _ => rfl⟩ (.of_mem rfl rfl) rfl hpage hid hname hblank
  · exact fun _ _ _ => ⟨rfl, rfl, fun _ _ _ => rfl⟩
  · exact hd'.catalog
  · exact hs
  · exact hu
  · exact hb
  · exact hheld

-- only the cursor is another
theorem Desk.moved (hd' : Desk hd N s live m name h content saved) (hp : k.page = h.page) (hi : k.inode = h.inode)
    (hm : k.modified = h.modified) (hb : Backed s k content saved) : Desk hd N s live m name k content saved := by
  have hh := hd'.held
  apply hd'.replaced hp
  · rw [hi]
  · rw [hi]
    exact hd'.handle
  · rw [hi, hm]
    exact hd'.blank
  · apply hd'.sound.replaced hp
    · rw [FileHandle.ids, FileHandle.ids, hi]
    · rw [hi]
      exact hh.nameLen
  · rw [Unrecorded, hp, FileHandle.newIds, hi]
    exact hd'.unrecorded
  · exact hb
  · constructor
    · rw [hp]
      exact hh.page
    · rw [InRegion, FileHandle.ids, hi]
      exact hh.region
    · rw [hi]
      exact hh.nameLen
    · rw [hi]
      exact hh.number_le

-- what an open leaves
inductive DeskOpened (hd : Header) (N : ℕ) (m : Store) (name : List UInt8) (mode : OpenMode) : FileHandle → Fs → Prop
  | refused (t : Fs) (ht : Shelf hd N t [] m) (hm : m name = none) : DeskOpened hd N m name mode {} t
  | opened (h : FileHandle) (t : Fs) (hname : h.inode.flashName = name) (hm : Mirrors t h (opened mode (m name)))
      (ht : Desk hd N t [] m name h ((m name).getD []) (m name)) : DeskOpened hd N m name mode h t

theorem Desk.opened (hd' : Desk hd N t [] m name h (saved.getD []) saved) (hname : h.inode.flashName = name)
    (hcursor : h.pos = 0 ∧ h.append = false) (hm : m name = saved) (mode : OpenMode) :
    DeskOpened hd N m name mode (handleAppendMode mode h) t := by
  have hb := hd'.backed
  have hback : Backed t (handleAppendMode mode h) (saved.getD []) saved :=
    ⟨hb.carries.of_inode rfl, hb.connected, hb.clean, hb.saved⟩
  have hlen : h.inode.fileLen = (saved.getD []).length := hb.carries.length
  apply DeskOpened.opened (handleAppendMode mode h) t hname
  · rw [hm]
    refine ⟨hback, ?_, ?_, ?_⟩
    · rw [handleAppendMode, SimpleFlashFs.opened]
      dsimp only
      rw [hlen, hcursor.1]
    · rw [SimpleFlashFs.opened, ByteFile.size]
      dsimp only
      split <;> omega
    · rw [handleAppendMode, SimpleFlashFs.opened]
      dsimp only
      rw [hcursor.2]
      cases mode.app <;> rfl
  · rw [hm]
    exact hd'.moved rfl rfl rfl hback

theorem Sound.takes {r : Option ℕ} (hs : Sound s []) (ht : TakesInode s t r) : Sound t [] := by
  have hsame : SameInodes s t := ⟨by rw [ht.rest], fun i _ => by rw [ht.rest]; rfl⟩
  have hfree : t.freeDataPages = s.freeDataPages := by rw [ht.rest]
  refine ⟨ht.ready hs.ready, by rw [hsame.header]; exact hs.erased, hs.flash.of_same hsame, ?_, List.forall_mem_nil _,
    List.Pairwise.nil⟩
  intro i hi p hp
  have hi' := hsame.valid.mp hi
  rw [hsame.listed hi'.1] at hp
  rw [hfree]
  exact hs.notFree i hi' p hp

theorem Shelf.takes {r : Option ℕ} (hs : Shelf hd N s [] m) (ht : Takes s t r) : Shelf hd N t [] m :=
  hs.sameFlash (ht.sameFlash hs.catalog.ready) (hs.sound.takes ht.toTakesInode)

-- a new file has its inode page
theorem Shelf.newDesk {p : ℕ} (hs : Shelf hd N s [] m) (hroom : 42 + name.length ≤ hd.pageSize) (hshort : name.length < 2 ^ 16)
    (hnum : s.maxInodeNumber + 1 ≤ N) (hnone : m name = none) (ht : Takes s t (some p))
    (hh : h = { FileHandle.ofPage (some p) with
      inode := { (FileHandle.ofPage (some p)).inode with fileName := name, fileNameLen := name.length % 2 ^ 16 },
      modified := true }) : h.inode.flashName = name ∧ Desk hd N t [] m name h [] none := by
  have e := ht.sameFlash hs.catalog.ready
  have hclaim := ht.claimable p rfl
  have hst := hs.takes ht
  have hnot : ¬ Valid t p := fun hv => hclaim.2.1 (e.valid_iff.mp hv)
  have hpage : h.page = p := by
    rw [hh]
    rfl
  have hnum0 : h.inode.inodeNumber = 0 := by
    rw [hh]
    rfl
  have hflash : h.inode.flashName = name := by
    rw [hh, Inode.flashName]
    dsimp only
    rw [Nat.mod_eq_of_lt hshort, List.take_length]
  have hlen : h.inode.fileNameLen = name.length := by
    rw [hh]
    exact Nat.mod_eq_of_lt hshort
  have hdata : h.inode.dataPages = [] := by
    rw [hh]
    rfl
  have hids : h.ids = [] := by rw [FileHandle.ids, hdata, List.map_nil]
  refine ⟨hflash, ?_⟩
  constructor
  · exact hst.header
  · exact hst.onFlash
  · exact hst.catalog
  · apply hs.sound.claimed ht.toTakesInode hpage hdata
    rw [hlen]
    exact hshort
  · exact hst.numbers
  · intro _
    rw [e.numbers]
    exact hnum
  · intro hv
    rw [hpage] at hv
    exact absurd hv hnot
  · rw [hh]
    refine ⟨⟨rfl, ?_, Or.inl ⟨rfl, Or.inr rfl, rfl⟩⟩, rfl, by simp, hnot⟩
    dsimp only
    rw [Nat.mod_eq_of_lt hshort, hst.header]
    exact hroom
  · refine ⟨?_, ?_, ?_, ?_⟩
    · rw [hpage, e.header]
      exact hclaim.1
    · rw [InRegion, hids]
      exact List.forall_mem_nil _
    · rw [hlen]
      exact hshort
    · rw [hnum0]
      exact Nat.zero_le _
  · rw [OwnPage, if_pos hnum0, hpage]
    exact hnot
  · intro hv
    rw [hpage] at hv
    exact absurd hv hnot
  · exact Or.inl hflash
  · intro i hi he
    by_contra hne
    have hnil := fun h => hne (Or.inl h)
    obtain ⟨content, -, hname⟩ := hst.records i hi
    rw [he, hnone] at hname
    cases hname hnil
  · intro _ _
    rw [hh]
    exact ⟨rfl, rfl⟩
  · exact hst.deleted
  · exact fun i hi _ => hst.records i hi
  · exact fun other content hnil _ he => hst.files other content hnil he

theorem Shelf.wp_openNew (hs : Shelf hd N s [] m) (hroom : 42 + hd.maxPathLen ≤ hd.pageSize)
    (hnum : s.maxInodeNumber + 1 ≤ N) (hnone : m name = none) (mode : OpenMode) :
    wp (openNew name mode) (fun h t => DeskOpened hd N m name mode h t) (fun _ _ => True) s := by
  have hc := hs.catalog
  rw [openNew, wp_bind]
  apply wp_mono (wp_allocateFreeInodePage_start hc.ready hc.whole)
  · rintro _ t ⟨r, rfl, ht⟩
    have hst := hs.takes ht
    rw [wp_bind, wp_get]
    cases r with
    | none =>
      rw [if_pos (by simp [FileHandle.ofPage])]
      exact .refused t hst hnone
    | some p =>
      rw [if_neg (by simp [FileHandle.ofPage]), wp_ite, wp_bind]
      constructor
      · intro _
        have hnd : ∀ q ∈ (FileHandle.ofPage (some p)).page :: (FileHandle.ofPage (some p)).ids, q < noData := by
          apply Held.pages_lt _ hst.sound.ready.layout
          exact ht.held hc
        apply wp_mono (wp_closeHandle_unmodified hst.sound.ready.allocatedWF rfl rfl hnd)
        · intro _ u hu
          apply DeskOpened.refused u _ hnone
          exact hst.sameFlash (hu.sameFlash hst.catalog) (hst.sound.released hu (List.forall_mem_nil _))
        · exact fun _ _ h => h
      · intro hle
        have hle : name.length ≤ hd.maxPathLen := by
          rw [hst.header] at hle
          exact Nat.le_of_not_lt hle
        have hlt := hd.maxPathLen_lt
        obtain ⟨hname, hdesk⟩ := hs.newDesk (by omega) (by omega) hnum hnone ht rfl
        exact hdesk.opened hname ⟨rfl, rfl⟩ hnone mode
  · exact fun _ _ h => h.elim

theorem Shelf.wp_openFile (hs : Shelf hd N s [] m) (hroom : 42 + hd.maxPathLen ≤ hd.pageSize)
    (hN : N < 2 ^ 64) (hnum : s.maxInodeNumber + 1 ≤ N) (hname : name ≠ []) {mode : OpenMode} (hmode : mode.trunc = false) :
    wp (openFile name mode) (fun h t => DeskOpened hd N m name mode h t) (fun _ _ => True) s := by
  rw [openFile, wp_bind]
  apply wp_mono (hs.wp_findFile hN name)
  · intro h t hfound
    cases hfound with
    | absent t ht hn hm =>
      rw [if_pos (by simp)]
      split
      · exact .refused t ht (hm hname)
      · apply ht.wp_openNew hroom _ (hm hname)
        rw [hn]
        exact hnum
    | present t i ht hi hni hnil =>
      have ho := ht.catalog.opened hi
      obtain ⟨content, hm, hdesk⟩ := ht.desk hi (List.forall_mem_nil _)
      rw [hni] at hm hdesk
      rw [if_neg (by simp [ho.connected]), if_neg (by simp [hmode])]
      exact hdesk.opened (ho.flashName.trans hni) (ht.catalog.openedAt_cursor hi) (hm hnil) mode
  · exact fun _ _ h => h

end Opening

end SimpleFlashFs
