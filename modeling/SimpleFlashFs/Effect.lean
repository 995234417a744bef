import SimpleFlashFs.Allocation

namespace SimpleFlashFs

open Lib

namespace FileHandle

def ids (h : FileHandle) : List ℕ := h.inode.dataPages.map (·.pageId)

-- the pages that are listed and not programmed yet
def newIds (h : FileHandle) : List ℕ := (h.inode.dataPages.filter (·.state = .new)).map (·.pageId)

theorem mem_ids_of_newIds {h : FileHandle} {p : ℕ} (hp : p ∈ h.newIds) : p ∈ h.ids := by
  simp only [newIds, ids, List.mem_map, List.mem_filter] at hp ⊢
  obtain ⟨m, ⟨hm, -⟩, rfl⟩ := hp
  exact ⟨m, hm, rfl⟩

theorem mem_newIds {h : FileHandle} {m : DataPage} (hm : m ∈ h.inode.dataPages) (hs : m.state = .new) :
    m.pageId ∈ h.newIds := List.mem_map_of_mem (List.mem_filter.mpr ⟨hm, by simp [hs]⟩)

end FileHandle

-- a file keeps its identity: the operations on the data do not change these fields
structure SameFile (h h' : FileHandle) : Prop where
  page : h'.page = h.page
  connected : h'.connected = h.connected
  append : h'.append = h.append
  inodeNumber : h'.inode.inodeNumber = h.inode.inodeNumber
  inodeVersionNumber : h'.inode.inodeVersionNumber = h.inode.inodeVersionNumber
  fileNameLen : h'.inode.fileNameLen = h.inode.fileNameLen
  fileName : h'.inode.fileName = h.inode.fileName
  attributes : h'.inode.attributes = h.inode.attributes

theorem SameFile.refl (h : FileHandle) : SameFile h h := ⟨rfl, rfl, rfl, rfl, rfl, rfl, rfl, rfl⟩

theorem SameFile.trans {h h1 h2 : FileHandle} (a : SameFile h h1) (b : SameFile h1 h2) : SameFile h h2 :=
  ⟨b.1.trans a.1, b.2.trans a.2, b.3.trans a.3, b.4.trans a.4, b.5.trans a.5, b.6.trans a.6,
    b.7.trans a.7, b.8.trans a.8⟩

-- t is s but for the pages that `may` allows
structure Within (s t : Fs) (may : ℕ → Prop) : Prop where
  header : t.header = s.header
  variant : t.variant = s.variant
  canMapRead : t.mem.canMapRead = s.mem.canMapRead
  length : t.mem.bytes.length = s.mem.bytes.length
  headerPage : headerPage t = headerPage s
  pages : ∀ i, InRange s i → ¬ may i → pageAt t i = pageAt s i
  fresh : ∀ i, ¬ may i → (Fresh t i ↔ Fresh s i)
  noShort : NoShort s → NoShort t
  reliable : s.mem.plan = [] → t.mem.plan = []

section Within

variable {s t u : Fs} {may may' : ℕ → Prop}

theorem Within.of_mem (hh : t.header = s.header) (hv : t.variant = s.variant) (hm : t.mem = s.mem) :
    Within s t may where
  header := hh
  variant := hv
  canMapRead := by rw [hm]
  length := by rw [hm]
  headerPage := by simp only [SimpleFlashFs.headerPage, hm, hh]
  pages i _ _ := by rw [pageAt, pageAt, hm, hh]
  fresh i _ := by rw [Fresh, Fresh, hm, hh]
  noShort h := by rwa [NoShort, hm]
  reliable h := by rwa [hm]

theorem Within.refl (s : Fs) (may : ℕ → Prop) : Within s s may := .of_mem rfl rfl rfl

theorem Within.mono (h : Within s t may) (hm : ∀ i, may i → may' i) : Within s t may' :=
  { h with
    pages := fun i hi hn => h.pages i hi fun hx => hn (hm i hx)
    fresh := fun i hn => h.fresh i fun hx => hn (hm i hx) }

theorem Within.trans (h : Within s t may) (h' : Within t u may) : Within s u may where
  header := h'.header.trans h.header
  variant := h'.variant.trans h.variant
  canMapRead := h'.canMapRead.trans h.canMapRead
  length := h'.length.trans h.length
  headerPage := h'.headerPage.trans h.headerPage
  pages i hi hn := by
    have hi' : InRange t i := by rwa [InRange, h.header]
    exact (h'.pages i hi' hn).trans (h.pages i hi hn)
  fresh i hn := (h'.fresh i hn).trans (h.fresh i hn)
  noShort hs := h'.noShort (h.noShort hs)
  reliable hs := h'.reliable (h.reliable hs)

theorem Within.inRange (h : Within s t may) {i : ℕ} : InRange t i ↔ InRange s i := by
  rw [InRange, InRange, h.header]

theorem Within.dataRegion (h : Within s t may) {i : ℕ} : DataRegion t i ↔ DataRegion s i := by
  rw [DataRegion, DataRegion, h.inRange, h.header]

theorem Within.layout (h : Within s t may) (L : Layout s) : Layout t := L.of_eq h.header h.length

theorem Touched.within {m : ℕ → Prop} {i : ℕ} {op : PhysOp} (h : Touched s t i op) (hm : m i) : Within s t m where
  header := h.header
  variant := by rw [h.rest]
  canMapRead := h.canMapRead
  length := h.length
  headerPage := h.headerPage
  pages j hj hn := h.others j (fun e => hn (e ▸ hm)) hj
  fresh j hn := h.fresh j (fun e => hn (e ▸ hm))
  noShort := h.noShort
  reliable hp := by rw [h.plan, hp]; rfl

end Within

-- the handle lists pages of the data region once, none of them free
structure Owns (s : Fs) (h : FileHandle) : Prop where
  nodup : h.ids.Nodup
  region : ∀ p ∈ h.ids, DataRegion s p
  notFree : ∀ p ∈ h.ids, p ∉ s.freeDataPages

def Unwritten (s : Fs) (h : FileHandle) : Prop :=
  (∀ p ∈ s.freeDataPages, Fresh s p) ∧ ∀ p ∈ h.newIds, Fresh s p

def Usable (s : Fs) (h : FileHandle) (p : ℕ) : Prop := p ∈ s.freeDataPages ∨ p ∈ h.newIds

-- what the operations on the data of one file do
structure DataEffect (s : Fs) (h : FileHandle) (t : Fs) (h' : FileHandle) : Prop where
  within : Within s t (Usable s h)
  rest : t = { s with mem := t.mem, freeDataPages := t.freeDataPages, rng := t.rng }
  freeWF : t.freeDataPages.WF
  free : ∀ p ∈ t.freeDataPages, p ∈ s.freeDataPages
  ids : ∀ p ∈ h'.ids, p ∈ h.ids ∨ p ∈ s.freeDataPages
  newIds : ∀ p ∈ h'.newIds, Usable s h p
  nodup : h'.ids.Nodup
  notFree : ∀ p ∈ h'.ids, p ∉ t.freeDataPages
  same : SameFile h h'
  once : Unwritten s h → writeOnce s.mem.trace → Unwritten t h' ∧ writeOnce t.mem.trace

-- what is left of them when the power is lost
structure Lost (s : Fs) (h : FileHandle) (t : Fs) : Prop where
  within : Within s t (Usable s h)
  once : Unwritten s h → writeOnce s.mem.trace → writeOnce t.mem.trace

section DataEffect

variable {s t u : Fs} {h h1 h2 : FileHandle}

theorem DataEffect.ready (e : DataEffect s h t h1) (hr : Ready s) : Ready t where
  layout := e.within.layout hr.layout
  noShort := e.within.noShort hr.noShort
  freeWF := e.freeWF
  allocatedWF := by rw [e.rest]; exact hr.allocatedWF
  range := by rw [e.rest]; exact hr.range
  free p hp := e.within.dataRegion.mpr (hr.free p (e.free p hp))

theorem DataEffect.owns (e : DataEffect s h t h1) (hr : Ready s) (ho : Owns s h) : Owns t h1 where
  nodup := e.nodup
  region p hp := e.within.dataRegion.mpr ((e.ids p hp).elim (ho.region p) (hr.free p))
  notFree := e.notFree

theorem DataEffect.usable (e : DataEffect s h t h1) {p : ℕ} (hp : Usable t h1 p) : Usable s h p :=
  hp.elim (fun hp => Or.inl (e.free p hp)) (e.newIds p)

theorem DataEffect.of_pages (hr : Ready s) (ho : Owns s h) (hp : h1.inode.dataPages = h.inode.dataPages)
    (hs : SameFile h h1) : DataEffect s h s h1 := by
  have hids : h1.ids = h.ids := by rw [FileHandle.ids, hp]; rfl
  have hnew : h1.newIds = h.newIds := by rw [FileHandle.newIds, hp]; rfl
  constructor
  · exact Within.refl _ _
  · rfl
  · exact hr.freeWF
  · exact fun _ hp => hp
  · rw [hids]; exact fun _ hp => Or.inl hp
  · rw [hnew]; exact fun _ hp => Or.inr hp
  · rw [hids]; exact ho.nodup
  · rw [hids]; exact ho.notFree
  · exact hs
  · rw [Unwritten, Unwritten, hnew]; exact fun a b => ⟨a, b⟩

theorem DataEffect.trans (a : DataEffect s h t h1) (b : DataEffect t h1 u h2) : DataEffect s h u h2 where
  within := a.within.trans (b.within.mono fun _ hp => a.usable hp)
  rest := by rw [b.rest, a.rest]
  freeWF := b.freeWF
  free p hp := a.free p (b.free p hp)
  ids p hp := (b.ids p hp).elim (a.ids p) fun hp => Or.inr (a.free p hp)
  newIds p hp := a.usable (b.newIds p hp)
  nodup := b.nodup
  notFree := b.notFree
  same := a.same.trans b.same
  once hu hw := (a.once hu hw).elim b.once

theorem DataEffect.lost (a : DataEffect s h t h1) (b : Lost t h1 u) : Lost s h u where
  within := a.within.trans (b.within.mono fun _ hp => a.usable hp)
  once hu hw := (a.once hu hw).elim b.once

-- the call keeps to the pages of its own file
def Safe {α : Type} (s : Fs) (h : FileHandle) (m : FsM α) (out : α → FileHandle) : Prop :=
  Ready s → Owns s h →
    wp m (fun a t => DataEffect s h t (out a)) (fun e t => e = .powerLoss → Lost s h t) s

variable {α β : Type} {out : α → FileHandle} {out' : β → FileHandle}

theorem Safe.pure {a : α} (hp : (out a).inode.dataPages = h.inode.dataPages) (hs : SameFile h (out a)) :
    Safe s h (pure a) out := fun hr ho => DataEffect.of_pages hr ho hp hs

theorem Safe.throw {e : Fault} (he : e ≠ .powerLoss) : Safe s h (throw e) out :=
  fun _ _ hp => absurd hp he

theorem Safe.bind {o : α → FileHandle} {m : FsM α} {f : α → FsM β} (hm : Safe s h m o)
    (hf : ∀ a t, DataEffect s h t (o a) → Safe t (o a) (f a) out') : Safe s h (m >>= f) out' := by
  intro hr ho
  rw [wp_bind]
  refine wp_mono (hm hr ho) (fun a t ht => ?_) (fun _ _ h => h)
  exact wp_mono (hf a t ht (ht.ready hr) (ht.owns hr ho)) (fun b u hu => ht.trans hu)
    (fun e u hu he => ht.lost (hu he))

theorem Safe.get {f : Fs → FsM α} (hf : Safe s h (f s) out) : Safe s h (get >>= f) out := by
  intro hr ho
  rw [wp_bind, wp_get]
  exact hf hr ho

-- the handle may change in the fields that list no pages
theorem Safe.change {k : FileHandle} {m : FsM α} (hp : k.inode.dataPages = h.inode.dataPages) (hs : SameFile h k)
    (hm : Safe s k m out) : Safe s h m out := by
  intro hr ho
  have he := DataEffect.of_pages hr ho hp hs
  exact wp_mono (hm hr (he.owns hr ho)) (fun a t ht => he.trans ht) (fun e t ht hl => he.lost (ht hl))

theorem Safe.wp {m : FsM α} (hm : Safe s h m out) (hr : Ready s) (ho : Owns s h) :
    wp m (fun a t => DataEffect s h t (out a)) (fun e t => e = .powerLoss → Lost s h t) s := hm hr ho

theorem Safe.liftFault {x : Except Fault α} {f : α → FsM β} (hx : x ≠ .error .powerLoss)
    (hf : ∀ a, x = .ok a → Safe s h (f a) out') : Safe s h (liftFault x >>= f) out' := by
  intro hr ho
  cases x with
  | ok a => exact hf a rfl hr ho
  | error e =>
    intro he
    exact absurd (by rw [he]) hx

end DataEffect

end SimpleFlashFs
