import SimpleFlashFs.Commit
import SimpleFlashFs.Supply

namespace SimpleFlashFs

open Lib

def InRegion (s : Fs) (h : FileHandle) : Prop := ∀ p ∈ h.ids, DataRegion s p

-- an operation on the data of a file, whoever else lists its pages
structure DataOnly (s : Fs) (h : FileHandle) (t : Fs) (k : FileHandle) : Prop where
  rest : t = { s with mem := t.mem, freeDataPages := t.freeDataPages, rng := t.rng }
  length : t.mem.bytes.length = s.mem.bytes.length
  plan : s.mem.plan = [] → t.mem.plan = []
  noShort : NoShort s → NoShort t
  inodes : ∀ i < s.header.maxInodes, pageAt t i = pageAt s i
  freeWF : t.freeDataPages.WF
  free : ∀ p ∈ t.freeDataPages, p ∈ s.freeDataPages
  ids : ∀ p ∈ k.ids, p ∈ h.ids ∨ p ∈ s.freeDataPages
  same : SameFile h k

section DataOnly

variable {s t u : Fs} {h k k' : FileHandle} {p : ℕ}

theorem DataOnly.header (e : DataOnly s h t k) : t.header = s.header := by rw [e.rest]

theorem DataOnly.dataRegion (e : DataOnly s h t k) : DataRegion t p ↔ DataRegion s p := by
  rw [DataRegion, DataRegion, InRange, InRange, e.header]

theorem DataOnly.ready (e : DataOnly s h t k) (hr : Ready s) : Ready t where
  layout := hr.layout.of_eq e.header e.length
  noShort := e.noShort hr.noShort
  freeWF := e.freeWF
  allocatedWF := by rw [e.rest]; exact hr.allocatedWF
  range := by rw [e.rest]; exact hr.range
  free p hp := e.dataRegion.mpr (hr.free p (e.free p hp))

theorem DataOnly.inRegion (e : DataOnly s h t k) (hr : Ready s) (hi : InRegion s h) : InRegion t k :=
  fun p hp => e.dataRegion.mpr ((e.ids p hp).elim (hi p) (hr.free p))

theorem DataOnly.refl (hw : s.freeDataPages.WF) (hk : k.inode.dataPages = h.inode.dataPages) (hs : SameFile h k) :
    DataOnly s h s k where
  rest := rfl
  length := rfl
  plan := id
  noShort := id
  inodes _ _ := rfl
  freeWF := hw
  free _ hp := hp
  ids p hp := by
    rw [FileHandle.ids, hk] at hp
    exact Or.inl hp
  same := hs

theorem DataOnly.trans (a : DataOnly s h t k) (b : DataOnly t k u k') : DataOnly s h u k' where
  rest := by rw [b.rest, a.rest]
  length := b.length.trans a.length
  plan hp := b.plan (a.plan hp)
  noShort hn := b.noShort (a.noShort hn)
  inodes i hi := by rw [b.inodes i (by rwa [a.header]), a.inodes i hi]
  freeWF := b.freeWF
  free p hp := a.free p (b.free p hp)
  ids p hp := (b.ids p hp).elim (a.ids p) fun hp => Or.inr (a.free p hp)
  same := a.same.trans b.same

theorem TakesFree.dataOnly {r : Option ℕ} (ht : TakesFree s t r) (hs : SameFile h k)
    (hk : ∀ q ∈ k.ids, q ∈ h.ids ∨ r = some q) : DataOnly s h t k where
  rest := by rw [ht.rest]
  length := by rw [ht.mem]
  plan hp := by rwa [ht.mem]
  noShort hn := by rwa [NoShort, ht.mem]
  inodes i _ := by rw [ht.rest]; rfl
  freeWF := ht.wf
  free q hq := ((ht.mem_iff q).mp hq).1
  ids q hq := (hk q hq).imp id (ht.taken q)
  same := hs

theorem Programmed.dataOnly {op : PhysOp} (hp : Programmed s t p op) (hr : Ready s) (hd : DataRegion s p)
    (hs : SameFile h k) (hk : ∀ q ∈ k.ids, q ∈ h.ids) : DataOnly s h t k where
  rest := by rw [hp.rest]
  length := hp.length
  plan h := by rw [hp.plan, h]; rfl
  noShort := hp.toTouched.noShort
  inodes i hi := hp.others i (by have := hd.1; omega) (hr.layout.lt_inRange hi)
  freeWF := by rw [hp.rest]; exact hr.freeWF
  free q hq := by rwa [hp.rest] at hq
  ids q hq := Or.inl (hk q hq)
  same := hs

-- the call leaves the inode pages alone
def Confined {α : Type} (s : Fs) (h : FileHandle) (m : FsM α) (out : α → FileHandle) : Prop :=
  Ready s → InRegion s h → wp m (fun a t => DataOnly s h t (out a)) (fun _ _ => True) s

variable {α β : Type} {out : α → FileHandle} {out' : β → FileHandle}

theorem Confined.pure {a : α} (hp : (out a).inode.dataPages = h.inode.dataPages) (hs : SameFile h (out a)) :
    Confined s h (pure a) out :=
  fun hr _ => DataOnly.refl hr.freeWF hp hs

theorem Confined.same {a : α} (hp : out a = h) : Confined s h (Pure.pure a) out := by
  apply Confined.pure
  · rw [hp]
  · rw [hp]
    exact SameFile.refl h

theorem Confined.throw {e : Fault} : Confined s h (throw e) out := fun _ _ => trivial

theorem Confined.bind {o : α → FileHandle} {m : FsM α} {f : α → FsM β} (hm : Confined s h m o)
    (hf : ∀ a t, DataOnly s h t (o a) → Confined t (o a) (f a) out') : Confined s h (m >>= f) out' := by
  intro hr hi
  rw [wp_bind]
  apply wp_mono (hm hr hi)
  · intro a t ht
    exact wp_mono (hf a t ht (ht.ready hr) (ht.inRegion hr hi)) (fun b u hu => ht.trans hu) (fun _ _ h => h)
  · exact fun _ _ h => h

theorem Confined.get {f : Fs → FsM α} (hf : Confined s h (f s) out) : Confined s h (get >>= f) out := by
  intro hr hi
  rw [wp_bind, wp_get]
  exact hf hr hi

theorem Confined.change {m : FsM α} (hp : k.inode.dataPages = h.inode.dataPages) (hs : SameFile h k)
    (hm : Confined s k m out) : Confined s h m out := by
  intro hr ho
  have he := DataOnly.refl hr.freeWF hp hs
  exact wp_mono (hm hr (he.inRegion hr ho)) (fun a t ht => he.trans ht) (fun _ _ h => h)

theorem Confined.liftFault {x : Except Fault α} {f : α → FsM β} (hf : ∀ a, x = .ok a → Confined s h (f a) out') :
    Confined s h (liftFault x >>= f) out' := by
  intro hr hi
  cases x with
  | ok a => exact hf a rfl hr hi
  | error e => trivial

theorem Confined.ready {m : FsM α} (hm : Ready s → InRegion s h → Confined s h m out) : Confined s h m out :=
  fun hr hi => hm hr hi hr hi

theorem Confined.whenNeeded {needed : Bool} {call : FsM (Bool × FileHandle)} (hc : Confined s h call (·.2)) :
    Confined s h (whenNeeded needed h call) (·.2) := by
  cases needed
  · exact Confined.same rfl
  · exact hc

theorem Confined.allocate {f : Option ℕ → FsM α} (hnone : ∀ t, Confined t h (f none) out)
    (hsome : ∀ p t, TakesFree s t (some p) → ∃ k, DataOnly s h t k ∧ Confined t k (f (some p)) out) :
    Confined s h (allocateFreeDataPageFor h >>= f) out := by
  intro hr hi
  rw [wp_bind]
  apply wp_mono (wp_allocateFreeDataPageFor hr.freeWF h fun _ _ => True)
  · intro r t ht
    rcases ht with ht | ⟨rfl, rfl⟩
    · cases r with
      | none =>
        have he : DataOnly s h t h := ht.dataOnly (SameFile.refl h) fun _ hq => Or.inl hq
        exact wp_mono (hnone t (he.ready hr) (he.inRegion hr hi)) (fun _ _ hu => he.trans hu) (fun _ _ h => h)
      | some p =>
        obtain ⟨k, he, hs⟩ := hsome p t ht
        exact wp_mono (hs (he.ready hr) (he.inRegion hr hi)) (fun _ _ hu => he.trans hu) (fun _ _ h => h)
    · exact hnone t hr hi
  · exact fun _ _ _ => trivial

end DataOnly

section Operations

variable {s t : Fs} {h : FileHandle}

theorem mem_ids_set {l : List DataPage} {idx p : ℕ} {n : DataPage} (hp : p ∈ (h.setPages (l.set idx n)).ids) :
    p = n.pageId ∨ p ∈ l.map DataPage.pageId := by
  obtain ⟨m, hm, rfl⟩ := List.mem_map.mp hp
  rcases List.mem_or_eq_of_mem_set hm with hm | rfl
  · exact Or.inr (List.mem_map_of_mem hm)
  · exact Or.inl rfl

theorem mem_ids_replacePage {l : List DataPage} {old new p : ℕ}
    (hp : p ∈ (replacePage old new l).map DataPage.pageId) : p = new ∨ p ∈ l.map DataPage.pageId := by
  obtain ⟨m, hm, rfl⟩ := List.mem_map.mp hp
  rcases mem_replacePage hm with rfl | hm
  · exact Or.inl rfl
  · exact Or.inr (List.mem_map_of_mem hm)

theorem confined_writePage {d : List UInt8} (hlen : d.length = s.header.pageSize) (idx : ℕ) :
    Confined s h (writePage h d idx) (·.2) := by
  apply Confined.get
  cases hm : h.inode.dataPages[idx]? with
  | none => exact Confined.throw
  | some m =>
    have hmem := List.mem_of_getElem? hm
    have hid : m.pageId ∈ h.ids := List.mem_map_of_mem hmem
    dsimp only
    split
    · intro hr hi
      have hd := hi m.pageId hid
      rw [wp_bind]
      apply wp_perform (x := .write _ d) hr.layout.toGeometry hr.noShort hd.2 (hr.layout.writeAddress_eq hd.2) hlen
      · intro t ht
        apply ht.dataOnly hr hd (FileHandle.sameFile_setPages _ _)
        intro q hq
        rcases mem_ids_set hq with rfl | hq
        · exact hid
        · exact hq
      · exact fun _ _ => trivial
    · intro hr hi
      rw [wp_bind]
      apply wp_mono (wp_allocateFreeDataPageBase hr.freeWF fun _ _ => True)
      · intro r t ht
        cases r with
        | none => exact ht.dataOnly (SameFile.refl h) fun _ hq => Or.inl hq
        | some p =>
          have hp := hr.free p (ht.taken p rfl)
          have he : DataOnly s h t (h.setPages (⟨p, .new⟩ :: h.inode.dataPages)) := by
            apply ht.dataOnly (FileHandle.sameFile_setPages _ _)
            intro q hq
            rcases List.mem_cons.mp hq with rfl | hq
            · exact Or.inr rfl
            · exact Or.inl hq
          have hrt := he.ready hr
          have hpt := he.dataRegion.mpr hp
          have haddr : writeAddress s.header p = pageOffset t.header p := by
            rw [← he.header]
            exact hrt.layout.writeAddress_eq hpt.2
          dsimp only
          rw [wp_bind]
          apply wp_perform (x := .write _ d) hrt.layout.toGeometry hrt.noShort hpt.2 haddr
            (by rw [he.header]; exact hlen)
          · intro u hu
            apply he.trans
            apply hu.dataOnly hrt hpt
            · exact ⟨rfl, rfl, rfl, rfl, rfl, rfl, rfl, rfl⟩
            · intro q hq
              rcases mem_ids_replacePage hq with rfl | hq
              · exact List.mem_cons_self
              · exact List.mem_cons_of_mem _ hq
          · exact fun _ _ => trivial
      · exact fun _ _ _ => trivial

theorem confined_allocateNewDataPagesLoop (pageIdx fuel : ℕ) :
    Confined s h (allocateNewDataPagesLoop pageIdx fuel h) (·.2) := by
  induction fuel generalizing s h with
  | zero => exact Confined.same rfl
  | succ fuel ih =>
    rw [allocateNewDataPagesLoop]
    split
    · apply Confined.allocate
      · exact fun t => Confined.same rfl
      · intro p t ht
        have hl : (h.inode.dataPages.insertIdx h.inode.countValidDataPages ⟨p, .new⟩).Perm
            (⟨p, .new⟩ :: h.inode.dataPages) := List.perm_insertIdx _ _ List.countP_le_length
        refine ⟨_, ht.dataOnly (FileHandle.sameFile_setPages _ _) ?_, ih⟩
        intro q hq
        rcases List.mem_cons.mp ((hl.map DataPage.pageId).mem_iff.mp hq) with rfl | hq
        · exact Or.inr rfl
        · exact Or.inl hq
    · exact Confined.same rfl

theorem confined_allocateNewDataPages (pageIdx : ℕ) : Confined s h (allocateNewDataPages pageIdx h) (·.2) :=
  confined_allocateNewDataPagesLoop _ _

theorem confined_allocateNewDataPageAt (pageIdx : ℕ) : Confined s h (allocateNewDataPageAt pageIdx h) (·.2) := by
  rw [allocateNewDataPageAt]
  apply Confined.allocate
  · exact fun t => Confined.same rfl
  · intro p t ht
    cases hm : h.inode.dataPages[pageIdx]? with
    | none =>
      refine ⟨h.setPages (⟨p, .new⟩ :: h.inode.dataPages), ?_, Confined.throw⟩
      apply ht.dataOnly (FileHandle.sameFile_setPages _ _)
      intro q hq
      rcases List.mem_cons.mp hq with rfl | hq
      · exact Or.inr rfl
      · exact Or.inl hq
    | some old =>
      refine ⟨_, ht.dataOnly (FileHandle.sameFile_setPages _ _) ?_, Confined.same rfl⟩
      intro q hq
      rcases mem_ids_set hq with rfl | hq
      · exact Or.inr rfl
      · rw [List.map_append, List.mem_append] at hq
        rcases hq with hq | hq
        · exact Or.inl hq
        · rw [List.mem_singleton.mp hq]
          have hold : old.pageId ∈ h.ids := List.mem_map_of_mem (List.mem_of_getElem? hm)
          exact Or.inl hold

theorem confined_writeZeroPagesFrom (left idx : ℕ) : Confined s h (writeZeroPagesFrom left idx h) (·.2) := by
  induction left generalizing s h idx with
  | zero => exact Confined.same rfl
  | succ left ih =>
    apply Confined.get
    cases h.inode.dataPages[idx]? with
    | none => exact Confined.same rfl
    | some m =>
      dsimp only
      split
      · apply Confined.bind (confined_writePage List.length_replicate _)
        intro r t ht
        split
        · exact ih _
        · exact Confined.same rfl
      · exact ih _

section Write

variable [Config]

omit [Config] in
theorem confined_rewritePage {page : List UInt8} (hlen : page.length = s.header.pageSize) (idx : ℕ) :
    Confined s h (rewritePage h page idx) (·.2) := by
  rw [rewritePage]
  split
  · exact Confined.throw
  · apply Confined.bind (Confined.whenNeeded (confined_allocateNewDataPageAt idx))
    intro r t ht
    split
    · exact confined_writePage (by rw [ht.header]; exact hlen) idx
    · exact Confined.same rfl

theorem InRegion.readPage_length (hr : Ready s) (ho : InRegion s h) {m : DataPage} {idx : ℕ}
    (hm : h.inode.dataPages[idx]? = some m) : (readPage s m.pageId).page.length = s.header.pageSize := by
  have hi := (ho m.pageId (List.mem_map_of_mem (List.mem_of_getElem? hm))).2
  rw [readPage_eq hr.layout.toGeometry hi, if_neg (by simp)]
  exact hr.layout.pageAt_length hi

theorem confined_writeUnaligned (data : List UInt8) (pageIdx : ℕ) :
    Confined s h (writeUnaligned h data pageIdx) (·.2) := by
  apply Confined.get
  apply Confined.bind (Confined.whenNeeded (confined_allocateNewDataPages _))
  intro r t ht
  split
  · exact Confined.same rfl
  · apply Confined.bind (Confined.whenNeeded (confined_allocateNewDataPages _))
    intro r2 u hu
    split
    · exact Confined.same rfl
    · dsimp only
      cases hm : r2.2.inode.dataPages[pageIdx]? with
      | none => exact Confined.throw
      | some m =>
        apply Confined.get
        apply Confined.ready
        intro hr ho
        split
        · exact Confined.same rfl
        · have hps : u.header.pageSize = s.header.pageSize := by rw [hu.header, ht.header]
          have hpos : h.pos % s.header.pageSize < s.header.pageSize :=
            Nat.mod_lt _ (by rw [← hps]; exact hr.layout.pageSize_pos)
          apply Confined.bind (confined_rewritePage ?_ _)
          · intro r3 v hv
            split
            · exact Confined.pure rfl (sameFile_advance _ _)
            · exact Confined.same rfl
          · have hlen : ∀ (c : Prop) [Decidable c], (if c then (readPage u m.pageId).page
                else List.replicate u.header.pageSize 0).length = u.header.pageSize := by
              intro c _
              split
              · exact ho.readPage_length hr hm
              · exact List.length_replicate
            rw [overwrite_length, hlen]
            rw [hlen, List.length_take]
            omega

theorem confined_writeLoop (fuel : ℕ) (data : List UInt8) (done : ℕ) :
    Confined s h (writeLoop fuel h data done) (·.2) := by
  induction fuel generalizing s h done with
  | zero =>
    rw [writeLoop]
    split
    · exact Confined.throw
    · exact Confined.same rfl
  | succ fuel ih =>
    have hnext : ∀ {t : Fs} {k : FileHandle} (len n : ℕ),
        Confined t k (writeLoop fuel (k.advance len) data n) (·.2) := by
      intro t k len n
      apply Confined.change ?_ (sameFile_advance k len) (ih n)
      rfl
    rw [writeLoop]
    split
    · apply Confined.get
      apply Confined.bind (confined_allocateNewDataPages _)
      intro r t ht
      split
      · exact Confined.same rfl
      · dsimp only
        cases hm : r.2.inode.dataPages[h.pos / s.header.pageSize]? with
        | none => exact Confined.throw
        | some m =>
          have hps : t.header.pageSize = s.header.pageSize := by rw [ht.header]
          dsimp only
          split
          · apply Confined.get
            apply Confined.ready
            intro hr ho
            split
            · exact Confined.same rfl
            · apply Confined.bind (confined_rewritePage ?_ _)
              · intro r3 v hv
                split
                · exact hnext _ _
                · exact Confined.same rfl
              · have hlen : (if m.state = .stored then (readPage t m.pageId).page
                    else List.replicate s.header.pageSize 0).length = t.header.pageSize := by
                  split
                  · exact ho.readPage_length hr hm
                  · rw [List.length_replicate, hps]
                rw [overwrite_length, hlen]
                rw [hlen, slice_length]
                omega
          · apply Confined.bind (confined_writePage ?_ _)
            · intro r3 v hv
              split
              · exact hnext _ _
              · exact Confined.same rfl
            · rw [slice_length, hps]
              omega
    · exact Confined.same rfl

theorem confined_writePages (data : List UInt8) (pageIdx already : ℕ) :
    Confined s h (writePages h data pageIdx already) (·.2) := by
  have hfirst : Confined s h (writeFirst h data pageIdx) (·.2) := by
    apply Confined.get
    split
    · exact confined_writeUnaligned _ _
    · exact Confined.same rfl
  apply Confined.bind hfirst
  intro r t ht
  obtain ⟨r, k⟩ := r
  cases r with
  | none => exact Confined.same rfl
  | some n =>
    apply Confined.bind (confined_writeLoop _ _ _)
    intro r2 u hu
    obtain ⟨r2, k2⟩ := r2
    cases r2 with
    | none => exact Confined.same rfl
    | some n2 =>
      dsimp only
      apply Confined.pure
      · rfl
      · exact ⟨rfl, rfl, rfl, rfl, rfl, rfl, rfl, rfl⟩

omit [Config] in
theorem confined_writeInline (data : List UInt8) (space : ℕ) : Confined s h (writeInline h data space) (·.2) := by
  have hdone : ∀ bytes : List UInt8, Confined s h (pure (data.length, { h with
      pos := h.pos + data.length, modified := true,
      inode := { h.inode with
        inodeData := overwrite bytes h.pos data, fileLen := max (h.pos + data.length) h.inode.fileLen } }))
      (·.2) := by
    intro bytes
    apply Confined.pure
    · rfl
    · exact ⟨rfl, rfl, rfl, rfl, rfl, rfl, rfl, rfl⟩
  rw [writeInline, growInodeData]
  split
  · exact Confined.liftFault fun bytes _ => hdone bytes
  · exact hdone _

theorem confined_migrateInline {again : FileHandle → List UInt8 → FsM (ℕ × FileHandle)}
    (hagain : ∀ (t : Fs) k data, Confined t k (again k data) (·.2)) (data : List UInt8) (pageIdx : ℕ) :
    Confined s h (migrateInline again h data pageIdx) (·.2) := by
  apply Confined.get
  dsimp only
  split
  · exact Confined.throw
  · apply Confined.bind (o := (·.2))
    · apply Confined.change ?_ ?_ (hagain _ _ _)
      · rfl
      · exact ⟨rfl, rfl, rfl, rfl, rfl, rfl, rfl, rfl⟩
    · intro r t ht
      split
      · exact Confined.same rfl
      · split
        · exact Confined.same rfl
        · exact confined_writePages _ _ _

theorem confined_writeWith {again : FileHandle → List UInt8 → FsM (ℕ × FileHandle)}
    (hagain : ∀ (t : Fs) k data, Confined t k (again k data) (·.2)) (data : List UInt8) :
    Confined s h (writeWith again h data) (·.2) := by
  apply Confined.get
  dsimp only
  split
  · exact confined_writeInline _ _
  · split
    · exact confined_migrateInline hagain _ _
    · exact confined_writePages _ _ _

theorem confined_writeFs (data : List UInt8) : Confined s h (writeFs h data) (·.2) :=
  confined_writeWith (fun _ _ _ => confined_writeWith (fun _ _ _ => Confined.throw) _) _

omit [Config] in
theorem confined_enlargeFile (amount : ℕ) : Confined s h (enlargeFile h amount) (·.2) := by
  have hstorage : ∀ target, Confined s h (enlargeStorage h target) (·.2) := by
    intro target
    apply Confined.get
    dsimp only
    have hgrown : ∀ bytes : List UInt8,
        Confined s h (pure (true, { h with inode := { h.inode with inodeData := bytes } })) (·.2) := by
      intro bytes
      apply Confined.pure
      · rfl
      · exact ⟨rfl, rfl, rfl, rfl, rfl, rfl, rfl, rfl⟩
    split
    · rw [growInodeData]
      split
      · exact Confined.liftFault fun bytes _ => hgrown bytes
      · exact hgrown _
    · exact confined_allocateNewDataPages _
  apply Confined.get
  dsimp only
  split
  · exact Confined.same rfl
  · split
    · exact Confined.same rfl
    · apply Confined.bind (hstorage _)
      intro r t ht
      split
      · exact Confined.same rfl
      · apply Confined.pure
        · rfl
        · exact ⟨rfl, rfl, rfl, rfl, rfl, rfl, rfl, rfl⟩

omit [Config] in
theorem confined_seek (pos : ℕ) : Confined s h (seek h pos) (·.2) := by
  have hmoved : ∀ {t : Fs} {k : FileHandle}, Confined t k (pure (true, { k with pos := pos })) (·.2) := by
    intro t k
    apply Confined.pure
    · rfl
    · exact ⟨rfl, rfl, rfl, rfl, rfl, rfl, rfl, rfl⟩
  rw [seek]
  split
  · exact hmoved
  · split
    · exact Confined.throw
    · apply Confined.bind (confined_enlargeFile _)
      intro r t ht
      split
      · exact hmoved
      · exact Confined.same rfl

theorem confined_write (data : List UInt8) : Confined s h (write h data) (·.2) := by
  apply Confined.bind (Confined.whenNeeded (confined_seek _))
  intro r t ht
  split
  · exact confined_writeFs _
  · exact Confined.throw

end Write

end Operations

end SimpleFlashFs
