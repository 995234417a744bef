import SimpleFlashFs.Allocation

namespace SimpleFlashFs

open Lib

-- what the writing of data pages draws on: `state` and `readable` tell of the entries before the write
structure Supply where
  room : ℕ
  state : ℕ → PageState
  readable : ℕ → Bool
  free : ℕ
  valid : ℕ
  total : ℕ
  plan : List Outcome

namespace Supply

def missing (u : Supply) (idx : ℕ) : ℕ := idx + 1 - u.valid

-- enough for the entries up to idx
def Grows (u : Supply) (idx : ℕ) : Prop :=
  u.missing idx = 0 ∨ u.missing idx ≤ u.free ∧ u.total + u.missing idx < u.room

instance (u : Supply) (idx : ℕ) : Decidable (u.Grows idx) := by
  unfold Grows
  infer_instance

def grow (u : Supply) (idx : ℕ) : Supply :=
  { u with free := u.free - u.missing idx, valid := u.valid + u.missing idx, total := u.total + u.missing idx }

def shortNext : List Outcome → Bool
  | .short _ :: _ => true
  | _ => false

-- a programmed page is written to another one, which takes an entry more unless the whole page is new
def Writes (u : Supply) (idx : ℕ) (full : Bool) : Prop :=
  shortNext u.plan = false ∧
    (u.state idx ≠ .new → 0 < u.free ∧ (full = false → u.readable idx = true ∧ u.total + 1 < u.room))

instance (u : Supply) (idx : ℕ) (full : Bool) : Decidable (u.Writes idx full) := by
  unfold Writes
  infer_instance

def written (u : Supply) (idx : ℕ) (full : Bool) : Supply :=
  { u with
    free := if u.state idx ≠ .new then u.free - 1 else u.free
    total := if u.state idx ≠ .new ∧ full = false then u.total + 1 else u.total
    plan := u.plan.tail }

def page (u : Supply) (idx : ℕ) (full : Bool) : Option Supply :=
  if u.Grows idx ∧ (u.grow idx).Writes idx full then some ((u.grow idx).written idx full) else none

-- a write of `left` bytes from pos on stops at a page that lies behind fileLen
def stopsBehind (pageSize fileLen : ℕ) : ℕ → ℕ → ℕ → Supply → Bool
  | 0, _, _, _ => false
  | fuel + 1, pos, left, u =>
    if left = 0 then false
    else
      let len := min left (pageSize - pos % pageSize)
      match u.page (pos / pageSize) (decide (len = pageSize)) with
      | none => fileLen < pos
      | some u => stopsBehind pageSize fileLen fuel (pos + len) (left - len) u

end Supply

section Entries

-- the entries of the deleted pages come last
structure Entries (l kept dropped : List DataPage) : Prop where
  eq : l = kept ++ dropped
  kept : ∀ m ∈ kept, m.state ≠ .deleted
  dropped : ∀ m ∈ dropped, m.state = .deleted

def DeletedLast (l : List DataPage) : Prop := ∃ kept dropped, Entries l kept dropped

variable {l kept dropped : List DataPage} {m : DataPage} {idx p : ℕ}

theorem Entries.valid (e : Entries l kept dropped) : l.countP (·.state ≠ .deleted) = kept.length := by
  have h1 : kept.countP (·.state ≠ .deleted) = kept.length := by
    rw [List.countP_eq_length]
    intro m hm
    simpa using e.kept m hm
  have h2 : dropped.countP (·.state ≠ .deleted) = 0 := by
    rw [List.countP_eq_zero]
    intro m hm
    simpa using e.dropped m hm
  rw [e.eq, List.countP_append, h1, h2, Nat.add_zero]

theorem Entries.append (e : Entries l kept dropped) (hm : m.state ≠ .deleted) :
    Entries (l.insertIdx kept.length m) (kept ++ [m]) dropped where
  eq := by
    rw [e.eq]
    clear e
    induction kept with
    | nil => cases dropped <;> rfl
    | cons x xs ih => simpa using ih
  kept x hx := by
    rcases List.mem_append.mp hx with hx | hx
    · exact e.kept x hx
    · rw [List.mem_singleton.mp hx]
      exact hm
  dropped := e.dropped

theorem Entries.set (e : Entries l kept dropped) (hi : idx < kept.length) (hm : m.state ≠ .deleted) :
    Entries (l.set idx m) (kept.set idx m) dropped where
  eq := by rw [e.eq, List.set_append_left _ _ hi]
  kept x hx := by
    rcases List.mem_or_eq_of_mem_set hx with hx | rfl
    · exact e.kept x hx
    · exact hm
  dropped := e.dropped

theorem Entries.delete (e : Entries l kept dropped) (hm : m.state = .deleted) :
    Entries (l ++ [m]) kept (dropped ++ [m]) where
  eq := by rw [e.eq, List.append_assoc]
  kept := e.kept
  dropped x hx := by
    rcases List.mem_append.mp hx with hx | hx
    · exact e.dropped x hx
    · rw [List.mem_singleton.mp hx]
      exact hm

theorem replacePage_append (hm : ∃ x ∈ kept, x.pageId = idx) :
    replacePage idx p (kept ++ dropped) = replacePage idx p kept ++ dropped := by
  induction kept with
  | nil =>
    obtain ⟨x, hx, -⟩ := hm
    cases hx
  | cons y ys ih =>
    simp only [List.cons_append, replacePage]
    split
    · rfl
    · next hy =>
      obtain ⟨x, hx, he⟩ := hm
      have hxs : x ∈ ys := (List.mem_cons.mp hx).resolve_left fun e => hy (e ▸ he)
      rw [ih ⟨x, hxs, he⟩, List.cons_append]

theorem mem_replacePage {x : DataPage} (hx : x ∈ replacePage idx p l) : x = ⟨p, .stored⟩ ∨ x ∈ l := by
  induction l with
  | nil => cases hx
  | cons y ys ih =>
    rw [replacePage] at hx
    split at hx
    · rcases List.mem_cons.mp hx with rfl | hx
      · exact Or.inl rfl
      · exact Or.inr (List.mem_cons_of_mem _ hx)
    · rcases List.mem_cons.mp hx with rfl | hx
      · exact Or.inr (List.mem_cons_self ..)
      · exact (ih hx).imp_right (List.mem_cons_of_mem _)

theorem replacePage_length : (replacePage idx p l).length = l.length := by
  induction l with
  | nil => rfl
  | cons y ys ih =>
    rw [replacePage]
    split
    · rfl
    · rw [List.length_cons, ih, List.length_cons]

-- only an entry up to the one that is meant can change
theorem replacePage_getElem? {i j : ℕ} (hm : l[i]? = some m) (hj : i < j) :
    (replacePage m.pageId p l)[j]? = l[j]? := by
  induction l generalizing i j with
  | nil => cases hm
  | cons y ys ih =>
    obtain ⟨j, rfl⟩ := Nat.exists_eq_add_of_lt (Nat.zero_lt_of_lt hj)
    rw [replacePage]
    split
    · rw [Nat.zero_add, List.getElem?_cons_succ, List.getElem?_cons_succ]
    · next hy =>
      cases i with
      | zero =>
        rw [List.getElem?_cons_zero, Option.some_inj] at hm
        exact absurd (congrArg DataPage.pageId hm) hy
      | succ i =>
        rw [Nat.zero_add, List.getElem?_cons_succ, List.getElem?_cons_succ]
        exact ih (by simpa using hm) (by omega)

theorem Entries.replace (e : Entries l kept dropped) (hm : kept[idx]? = some m) :
    Entries (replacePage m.pageId p l) (replacePage m.pageId p kept) dropped where
  eq := by rw [e.eq, replacePage_append ⟨m, List.mem_of_getElem? hm, rfl⟩]
  kept x hx := by
    rcases mem_replacePage hx with rfl | hx
    · simp
    · exact e.kept x hx
  dropped := e.dropped

end Entries

-- only the list of the pages differs
structure Relisted (h h' : FileHandle) : Prop where
  eq : h' = h.setPages h'.inode.dataPages
  deletedLast : DeletedLast h'.inode.dataPages
  valid : h.inode.countValidDataPages ≤ h'.inode.countValidDataPages

theorem Relisted.trans {h h1 h2 : FileHandle} (a : Relisted h h1) (b : Relisted h1 h2) : Relisted h h2 :=
  ⟨by rw [b.eq, a.eq]; rfl, b.deletedLast, a.valid.trans b.valid⟩

-- what reading a page and allocating pages depend on, but for the free pages
structure SameMedium (s t : Fs) : Prop where
  header : t.header = s.header
  length : t.mem.bytes.length = s.mem.bytes.length

theorem SameMedium.refl (s : Fs) : SameMedium s s := ⟨rfl, rfl⟩

theorem SameMedium.trans {s t u : Fs} (a : SameMedium s t) (b : SameMedium t u) : SameMedium s u :=
  ⟨b.header.trans a.header, b.length.trans a.length⟩

theorem SameMedium.of_takesFree {s t : Fs} {r : Option ℕ} (h : TakesFree s t r) : SameMedium s t :=
  ⟨by rw [h.rest], by rw [h.rest]⟩

-- whether a page can be read depends on its number only
theorem SameMedium.readPage [Config] {s t : Fs} (h : SameMedium s t) (p : ℕ) :
    (readPage t p).error = none ↔ (readPage s p).error = none := by
  have herr : ∀ s : Fs, (SimpleFlashFs.readPage s p).error = none ↔
      (s.mem.read (pageOffset s.header p) s.header.pageSize).length = s.header.pageSize := by
    intro s
    unfold SimpleFlashFs.readPage
    dsimp only
    split
    · next hne => simp [hne]
    · next heq => simpa using heq
  rw [herr, herr, Memory.read, Memory.read, slice_length, slice_length, h.header, h.length]

section Draws

variable [Config] {s t : Fs} {h h' : FileHandle} {u : Supply} {cur idx : ℕ}

-- from the entry cur on the write has changed nothing yet
structure Draws (u : Supply) (cur : ℕ) (s : Fs) (h : FileHandle) : Prop where
  wf : s.freeDataPages.WF
  free : s.freeDataPages.sizeConst = u.free
  plan : s.mem.plan = u.plan
  room : getMaxInodeDataPages s.header h = u.room
  fresh : ∀ j, u.valid ≤ j → u.state j = .new
  entries : ∃ kept dropped, Entries h.inode.dataPages kept dropped ∧ kept.length = u.valid ∧
    h.inode.dataPages.length = u.total ∧ ∀ j m, cur ≤ j → kept[j]? = some m → m.state = u.state j ∧
      (m.state = .stored → ((readPage s m.pageId).error = none ↔ u.readable j = true))

theorem Draws.valid (d : Draws u cur s h) : h.inode.countValidDataPages = u.valid := by
  obtain ⟨kept, dropped, e, hv, -⟩ := d.entries
  rw [← hv, Inode.countValidDataPages, e.valid]

theorem Draws.deletedLast (d : Draws u cur s h) : DeletedLast h.inode.dataPages := by
  obtain ⟨kept, dropped, e, -⟩ := d.entries
  exact ⟨kept, dropped, e⟩

theorem Draws.same (d : Draws u cur s h) : Relisted h h := ⟨rfl, d.deletedLast, le_rfl⟩

theorem Draws.relisted {v : Supply} {next : ℕ} {l : List DataPage} (d : Draws u cur s h)
    (d' : Draws v next t (h.setPages l)) (hv : u.valid ≤ v.valid) : Relisted h (h.setPages l) :=
  ⟨rfl, d'.deletedLast, by rw [d.valid, d'.valid]; exact hv⟩

theorem Draws.mono (d : Draws u cur s h) {next : ℕ} (hn : cur ≤ next) : Draws u next s h := by
  obtain ⟨kept, dropped, e, hv, ht, hs⟩ := d.entries
  exact ⟨d.wf, d.free, d.plan, d.room, d.fresh, kept, dropped, e, hv, ht,
    fun j m hj => hs j m (hn.trans hj)⟩

omit [Config] in
theorem getMaxInodeDataPages_congr {hd : Header} (hn : h'.inode.fileNameLen = h.inode.fileNameLen) :
    getMaxInodeDataPages hd h' = getMaxInodeDataPages hd h := by
  rw [getMaxInodeDataPages, getMaxInodeDataPages, getInodeDataSpaceSize, getInodeDataSpaceSize, hn]

-- taking a page for one entry more
theorem wp_allocateFreeDataPageFor_counted (d : Draws u cur s h) :
    wp (allocateFreeDataPageFor h)
      (fun r t => t = { s with freeDataPages := t.freeDataPages, rng := t.rng } ∧ t.freeDataPages.WF ∧
        (r = none → u.free = 0 ∨ u.room ≤ u.total + 1) ∧
        ∀ p, r = some p → u.total + 1 < u.room ∧ t.freeDataPages.sizeConst + 1 = u.free)
      (fun _ _ => True) s := by
  obtain ⟨kept, dropped, e, hv, htotal, -⟩ := d.entries
  rw [allocateFreeDataPageFor, wp_bind, wp_get, d.room, htotal, wp_ite]
  constructor
  · intro hfull
    exact ⟨rfl, d.wf, fun _ => Or.inr hfull, nofun⟩
  · intro hroom
    apply wp_mono (wp_allocateFreeDataPage d.wf (fun _ _ => True))
    · intro r t ht
      refine ⟨ht.rest, ht.wf, ?_, ?_⟩
      · rintro rfl
        rw [← d.free]
        exact Or.inl ((PageSet.sizeConst_eq_zero d.wf).mpr (ht.exhausted rfl))
      · rintro p rfl
        refine ⟨by omega, ?_⟩
        rw [← d.free]
        apply PageSet.sizeConst_of_erased d.wf ht.wf (ht.taken p rfl)
        intro q
        rw [ht.mem_iff, ne_eq, Option.some_inj, eq_comm]
    · exact fun _ _ _ => trivial

-- a page was taken: nothing else of the filesystem changed
structure TookPage (s t : Fs) (u : Supply) : Prop where
  rest : t = { s with freeDataPages := t.freeDataPages, rng := t.rng }
  wf : t.freeDataPages.WF
  room : u.total + 1 < u.room
  size : t.freeDataPages.sizeConst + 1 = u.free

omit [Config] in
theorem TookPage.sameMedium (a : TookPage s t u) : SameMedium s t := ⟨by rw [a.rest], by rw [a.rest]⟩

theorem Draws.append (d : Draws u cur s h) {p : ℕ} (a : TookPage s t u) :
    Draws { u with free := u.free - 1, valid := u.valid + 1, total := u.total + 1 } cur t
      (h.setPages (h.inode.dataPages.insertIdx h.inode.countValidDataPages ⟨p, .new⟩)) := by
  have hvalid := d.valid
  obtain ⟨kept, dropped, e, hv, htotal, hs⟩ := d.entries
  have hsize := a.size
  refine ⟨a.wf, by dsimp only; omega, by rw [a.rest]; exact d.plan, ?_, ?_,
    kept ++ [⟨p, .new⟩], dropped, ?_, ?_, ?_, ?_⟩
  · rw [a.sameMedium.header, ← d.room]
    exact getMaxInodeDataPages_congr rfl
  · intro j hj
    exact d.fresh j (by dsimp only at hj; omega)
  · rw [hvalid, ← hv]
    exact e.append (by simp)
  · simp [hv]
  · rw [hvalid, ← hv]
    have hle : kept.length ≤ h.inode.dataPages.length := by rw [e.eq, List.length_append]; omega
    simp only [FileHandle.setPages, List.length_insertIdx_of_le_length hle, htotal]
  · intro j m hj hm
    rw [a.sameMedium.readPage]
    by_cases hlt : j < kept.length
    · rw [List.getElem?_append_left hlt] at hm
      exact hs j m hj hm
    · rw [List.getElem?_append_right (by omega)] at hm
      obtain ⟨-, rfl⟩ := List.getElem?_eq_some_iff.mp hm
      simp only [List.getElem_singleton]
      exact ⟨(d.fresh j (by omega)).symm, nofun⟩

omit [Config] in
theorem Supply.grow_eq (hm : u.missing idx = 0) : u.grow idx = u := by
  rw [Supply.grow, hm]
  rfl

theorem wp_allocateNewDataPagesLoop_counted (fuel : ℕ) (hf : fuel = u.missing idx) (d : Draws u cur s h) :
    wp (allocateNewDataPagesLoop idx fuel h)
      (fun r t => SameMedium s t ∧ Relisted h r.2 ∧ (r.1 = true ↔ u.Grows idx) ∧
        (r.1 = true → Draws (u.grow idx) cur t r.2)) (fun _ _ => True) s := by
  induction fuel generalizing s h u with
  | zero =>
    have hm : u.missing idx = 0 := hf.symm
    refine ⟨SameMedium.refl s, d.same, by simp [Supply.Grows, hm], fun _ => ?_⟩
    rw [Supply.grow_eq hm]
    exact d
  | succ fuel ih =>
    have hmissing : idx + 1 - u.valid = fuel + 1 := hf.symm
    rw [allocateNewDataPagesLoop, d.valid, if_pos (by omega), wp_bind]
    apply wp_mono (wp_allocateFreeDataPageFor_counted d)
    · intro r t ht
      obtain ⟨hrest, hwf, hnone, hsome⟩ := ht
      cases r with
      | none =>
        have hno : ¬ u.Grows idx := by
          have := hnone rfl
          simp only [Supply.Grows, Supply.missing, hmissing]
          omega
        exact ⟨⟨by rw [hrest], by rw [hrest]⟩, d.same, by simp [hno], nofun⟩
      | some p =>
        obtain ⟨hroom, hsize⟩ := hsome p rfl
        have took : TookPage s t u := ⟨hrest, hwf, hroom, hsize⟩
        have d1 := d.append (p := p) took
        rw [d.valid] at d1
        apply wp_mono (ih (u := { u with
          free := u.free - 1, valid := u.valid + 1, total := u.total + 1 })
          (by simp only [Supply.missing]; omega) d1)
        · intro r v hr
          obtain ⟨hmed, hrel, hgrows, hd⟩ := hr
          refine ⟨took.sameMedium.trans hmed, Relisted.trans (d.relisted d1 (Nat.le_succ _)) hrel, ?_, fun hok => ?_⟩
          · rw [hgrows]
            simp only [Supply.Grows, Supply.missing]
            omega
          · have hgrow : ({ u with free := u.free - 1, valid := u.valid + 1, total := u.total + 1 } :
                Supply).grow idx = u.grow idx := by
              have e1 : idx + 1 - (u.valid + 1) = fuel := by omega
              simp only [Supply.grow, Supply.missing, e1, hmissing, Supply.mk.injEq, true_and, and_true]
              omega
            rw [← hgrow]
            exact hd hok
        · exact fun _ _ _ => trivial
    · exact fun _ _ _ => trivial

theorem wp_allocateNewDataPages_counted (idx : ℕ) (d : Draws u cur s h) :
    wp (allocateNewDataPages idx h)
      (fun r t => SameMedium s t ∧ Relisted h r.2 ∧ (r.1 = true ↔ u.Grows idx) ∧
        (r.1 = true → Draws (u.grow idx) cur t r.2)) (fun _ _ => True) s := by
  rw [allocateNewDataPages, d.valid]
  exact wp_allocateNewDataPagesLoop_counted _ rfl d

omit [Config] in
theorem wp_perform_counted (op : PhysOp) :
    wp (perform op) (fun done t => t = { s with mem := t.mem } ∧ t.mem.bytes.length = s.mem.bytes.length ∧
      t.mem.plan = s.mem.plan.tail ∧ (done = true ↔ Supply.shortNext s.mem.plan = false))
      (fun _ _ => True) s := by
  simp only [perform, wp_bind, wp_get, wp_set, Memory.perform]
  cases hp : s.mem.plan with
  | nil => exact ⟨rfl, put_length _ _ _, rfl, by simp [Supply.shortNext]⟩
  | cons o rest =>
    cases o with
    | ok => exact ⟨rfl, put_length _ _ _, rfl, by simp [Supply.shortNext]⟩
    | short left => exact ⟨rfl, put_length _ _ _, rfl, by simp [Supply.shortNext]⟩
    | cut left => cases left <;> trivial

-- the entry idx is of no account any more once it is written
theorem Draws.program (d : Draws u (idx + 1) s h) (hrest : t = { s with mem := t.mem })
    (hlen : t.mem.bytes.length = s.mem.bytes.length) (hplan : t.mem.plan = s.mem.plan.tail) {l : List DataPage}
    (hl : ∀ kept dropped, Entries h.inode.dataPages kept dropped → kept.length = u.valid → ∃ kept',
      Entries l kept' dropped ∧ kept'.length = kept.length ∧ ∀ j, idx < j → kept'[j]? = kept[j]?) :
    Draws { u with plan := u.plan.tail } (idx + 1) t (h.setPages l) := by
  have hmed : SameMedium s t := ⟨by rw [hrest], hlen⟩
  obtain ⟨kept, dropped, e, hv, htotal, hs⟩ := d.entries
  obtain ⟨kept', e', hlen', hsame⟩ := hl kept dropped e hv
  refine ⟨by rw [hrest]; exact d.wf, by rw [hrest]; exact d.free, by rw [hplan, d.plan], ?_, d.fresh,
    kept', dropped, e', by rw [hlen', hv], ?_, ?_⟩
  · rw [hmed.header, ← d.room]
    exact getMaxInodeDataPages_congr rfl
  · rw [FileHandle.setPages, e'.eq, List.length_append, hlen', ← List.length_append, ← e.eq, htotal]
  · intro j m hj hm
    rw [hmed.readPage]
    rw [hsame j hj] at hm
    exact hs j m hj hm

theorem Draws.took (d : Draws u cur s h) (hrest : t = { s with freeDataPages := t.freeDataPages, rng := t.rng })
    (hwf : t.freeDataPages.WF) (hsize : t.freeDataPages.sizeConst + 1 = u.free) :
    Draws { u with free := u.free - 1 } cur t h := by
  have hmed : SameMedium s t := ⟨by rw [hrest], by rw [hrest]⟩
  obtain ⟨kept, dropped, e, hv, htotal, hs⟩ := d.entries
  refine ⟨hwf, by dsimp only; omega, by rw [hrest]; exact d.plan, by rw [hmed.header]; exact d.room, d.fresh,
    kept, dropped, e, hv, htotal, ?_⟩
  intro j m hj hm
  rw [hmed.readPage]
  exact hs j m hj hm

theorem wp_writePage_counted (page : List UInt8) (d : Draws u (idx + 1) s h) (hidx : idx < u.valid) {m : DataPage}
    (hm : h.inode.dataPages[idx]? = some m) :
    wp (writePage h page idx)
      (fun r t => SameMedium s t ∧ Relisted h r.2 ∧
        (r.1 = true ↔ Supply.shortNext u.plan = false ∧ (m.state ≠ .new → 0 < u.free)) ∧
        (r.1 = true → Draws { u with
          free := if m.state ≠ .new then u.free - 1 else u.free, plan := u.plan.tail } (idx + 1) t r.2))
      (fun _ _ => True) s := by
  have hkept : ∀ kept dropped, Entries h.inode.dataPages kept dropped → kept.length = u.valid →
      idx < kept.length ∧ kept[idx]? = some m := by
    intro kept dropped e hv
    have hlt : idx < kept.length := by omega
    rw [e.eq, List.getElem?_append_left hlt] at hm
    exact ⟨hlt, hm⟩
  simp only [writePage, wp_bind, wp_get, hm]
  rw [wp_ite]
  constructor
  · intro hs
    rw [wp_bind]
    apply wp_mono (wp_perform_counted _)
    · intro done t ht
      obtain ⟨hrest, hlen, hplan, hdone⟩ := ht
      rw [d.plan] at hdone
      have hmed : SameMedium s t := ⟨by rw [hrest], hlen⟩
      cases done with
      | false => exact ⟨hmed, d.same, by simp [← hdone], by simp⟩
      | true =>
        have d1 := d.program hrest hlen hplan (l := h.inode.dataPages.set idx { m with state := .stored })
          fun kept dropped e hv => ⟨_, e.set (hkept kept dropped e hv).1 (by simp), by simp,
            fun j hj => by rw [List.getElem?_set_ne (by omega)]⟩
        refine ⟨hmed, d.relisted d1 le_rfl, by simp [← hdone, hs], fun _ => ?_⟩
        rw [if_neg (by simp [hs])]
        exact d1
    · exact fun _ _ _ => trivial
  · intro hs
    rw [wp_bind]
    apply wp_mono (wp_allocateFreeDataPageBase d.wf (fun _ _ => True))
    · intro r v hv
      have hmed : SameMedium s v := SameMedium.of_takesFree hv
      cases r with
      | none =>
        have hzero : u.free = 0 := by
          rw [← d.free]
          exact (PageSet.sizeConst_eq_zero d.wf).mpr (hv.exhausted rfl)
        exact ⟨hmed, d.same, by simp [hs, hzero], by simp⟩
      | some p =>
        have hsize : v.freeDataPages.sizeConst + 1 = u.free := by
          rw [← d.free]
          apply PageSet.sizeConst_of_erased d.wf hv.wf (hv.taken p rfl)
          intro q
          rw [hv.mem_iff, ne_eq, Option.some_inj, eq_comm]
        have d1 := d.took hv.rest hv.wf hsize
        rw [wp_bind]
        apply wp_mono (wp_perform_counted _)
        · intro done t ht
          obtain ⟨hrest, hlen, hplan, hdone⟩ := ht
          rw [d1.plan] at hdone
          have hmed2 : SameMedium s t := hmed.trans ⟨by rw [hrest], hlen⟩
          cases done with
          | false => exact ⟨hmed2, d.same, by simp [← hdone], by simp⟩
          | true =>
            have d2 := d1.program hrest hlen hplan (l := replacePage m.pageId p h.inode.dataPages)
              fun kept dropped e hv => ⟨_, e.replace (hkept kept dropped e hv).2, replacePage_length,
                fun j hj => replacePage_getElem? (hkept kept dropped e hv).2 hj⟩
            refine ⟨hmed2, d.relisted d2 le_rfl, ?_, fun _ => ?_⟩
            · simp only [true_iff]
              exact ⟨hdone.mp rfl, fun _ => by omega⟩
            · rw [if_pos hs]
              exact d2
        · exact fun _ _ _ => trivial
    · exact fun _ _ _ => trivial

-- the entry of a page that is still to be written
theorem Draws.entry (d : Draws u idx s h) (hidx : idx < u.valid) :
    ∃ m, h.inode.dataPages[idx]? = some m ∧ m.state = u.state idx ∧ m.state ≠ .deleted ∧
      (m.state = .stored → ((readPage s m.pageId).error = none ↔ u.readable idx = true)) := by
  obtain ⟨kept, dropped, e, hv, htotal, hs⟩ := d.entries
  have hlt : idx < kept.length := by omega
  have hm := List.getElem?_eq_getElem hlt
  obtain ⟨h1, h2⟩ := hs idx _ le_rfl hm
  refine ⟨kept[idx], ?_, h1, e.kept _ (List.getElem_mem hlt), h2⟩
  rw [e.eq, List.getElem?_append_left hlt, hm]

theorem Draws.replaceEntry (d : Draws u cur s h) (hidx : idx < u.valid) (p : ℕ) (old : DataPage)
    (a : TookPage s t u) :
    Draws { u with free := u.free - 1, total := u.total + 1 } (max cur (idx + 1)) t
      (h.setPages ((h.inode.dataPages ++ [{ old with state := .deleted }]).set idx ⟨p, .new⟩)) := by
  obtain ⟨kept, dropped, e, hv, htotal, hs⟩ := d.entries
  have hsize := a.size
  have hlt : idx < kept.length := by omega
  have e1 := (e.delete (m := { old with state := .deleted }) rfl).set (m := ⟨p, .new⟩) hlt (by simp)
  refine ⟨a.wf, by dsimp only; omega, by rw [a.rest]; exact d.plan, ?_, d.fresh, _, _, e1, ?_, ?_, ?_⟩
  · rw [a.sameMedium.header, ← d.room]
    exact getMaxInodeDataPages_congr rfl
  · rw [List.length_set, hv]
  · simp [FileHandle.setPages, htotal]
  · intro j m hj hm
    rw [a.sameMedium.readPage]
    rw [List.getElem?_set_ne (by omega)] at hm
    exact hs j m (by omega) hm

theorem wp_rewritePage_counted (page : List UInt8) (d : Draws u idx s h) (hidx : idx < u.valid) :
    wp (rewritePage h page idx)
      (fun r t => SameMedium s t ∧ Relisted h r.2 ∧
        (r.1 = true ↔ Supply.shortNext u.plan = false ∧
          (u.state idx ≠ .new → 0 < u.free ∧ u.total + 1 < u.room)) ∧
        (r.1 = true → Draws (u.written idx false) (idx + 1) t r.2))
      (fun _ _ => True) s := by
  obtain ⟨m, hm, hstate, hnd, -⟩ := d.entry hidx
  simp only [rewritePage, hm, wp_bind, whenNeeded]
  by_cases hs : m.state = .stored
  · have hne : u.state idx ≠ .new := by rw [← hstate, hs]; simp
    simp only [hs, decide_true, if_true, allocateNewDataPageAt, wp_bind]
    apply wp_mono (wp_allocateFreeDataPageFor_counted d)
    · intro r v hv
      obtain ⟨hrest, hwf, hnone, hsome⟩ := hv
      have hmed : SameMedium s v := ⟨by rw [hrest], by rw [hrest]⟩
      cases r with
      | none =>
        have := hnone rfl
        refine ⟨hmed, d.same, ?_, by simp⟩
        simp only [Bool.false_eq_true, false_iff, not_and]
        intro _ hall
        have := hall hne
        omega
      | some p =>
        obtain ⟨hroom, hsize⟩ := hsome p rfl
        have took : TookPage s v u := ⟨hrest, hwf, hroom, hsize⟩
        have d1 := d.replaceEntry hidx p m took
        rw [max_eq_right (by omega)] at d1
        simp only [hm, wp_pure, if_true]
        have hlt : idx < h.inode.dataPages.length := (List.getElem?_eq_some_iff.mp hm).1
        have hnew : (h.setPages ((h.inode.dataPages ++ [{ m with state := .deleted }]).set idx
            ⟨p, .new⟩)).inode.dataPages[idx]? = some ⟨p, .new⟩ := by
          simp only [FileHandle.setPages]
          rw [List.getElem?_set_self (by rw [List.length_append]; omega)]
        apply wp_mono (wp_writePage_counted page d1 hidx hnew)
        · intro r t ht
          obtain ⟨hmed2, hrel, hok, hd⟩ := ht
          refine ⟨hmed.trans hmed2, Relisted.trans (d.relisted d1 le_rfl) hrel, ?_, fun hr => ?_⟩
          · rw [hok]
            simp only [ne_eq, not_true_eq_false, false_imp_iff, and_true]
            exact ⟨fun h => ⟨h, fun _ => by omega⟩, And.left⟩
          · have := hd hr
            simpa [Supply.written, hne] using this
        · exact fun _ _ _ => trivial
    · exact fun _ _ _ => trivial
  · have hnew : m.state = .new := by
      cases hst : m.state with
      | new => rfl
      | stored => exact absurd hst hs
      | deleted => exact absurd hst hnd
    have heq : u.state idx = .new := by rw [← hstate, hnew]
    simp only [hs, decide_false, Bool.false_eq_true, if_false, wp_pure, if_true]
    apply wp_mono (wp_writePage_counted page (d.mono (Nat.le_succ idx)) hidx hm)
    · intro r t ht
      obtain ⟨hmed, hrel, hok, hd⟩ := ht
      refine ⟨hmed, hrel, ?_, fun hr => ?_⟩
      · rw [hok, hnew, heq]
        simp
      · have := hd hr
        simpa [Supply.written, heq, hnew] using this
    · exact fun _ _ _ => trivial

-- a write moves the cursor and lists other pages
structure Advanced (h h' : FileHandle) : Prop where
  eq : h' = { h with pos := h'.pos, inode := { h.inode with dataPages := h'.inode.dataPages } }
  deletedLast : DeletedLast h'.inode.dataPages

omit [Config] in
theorem Advanced.trans {h h1 h2 : FileHandle} (a : Advanced h h1) (b : Advanced h1 h2) : Advanced h h2 :=
  ⟨by rw [b.eq, a.eq], b.deletedLast⟩

omit [Config] in
theorem Relisted.advanced (a : Relisted h h') : Advanced h h' := ⟨by rw [a.eq]; rfl, a.deletedLast⟩

omit [Config] in
theorem Relisted.pos (a : Relisted h h') : h'.pos = h.pos := by rw [a.eq]; rfl

omit [Config] in
theorem Supply.page_of_not_grows {full : Bool} (hg : ¬ u.Grows idx) : u.page idx full = none := by
  rw [Supply.page, if_neg (fun hn => hg hn.1)]

omit [Config] in
theorem Supply.page_of_not_writes {full : Bool} (hw : ¬ (u.grow idx).Writes idx full) :
    u.page idx full = none := by
  rw [Supply.page, if_neg (fun hn => hw hn.2)]

omit [Config] in
theorem Supply.page_of_writes {full : Bool} (hg : u.Grows idx) (hw : (u.grow idx).Writes idx full) :
    u.page idx full = some ((u.grow idx).written idx full) := by
  rw [Supply.page, if_pos ⟨hg, hw⟩]

omit [Config] in
theorem Supply.lt_grow (u : Supply) (idx : ℕ) : idx < (u.grow idx).valid := by
  simp only [Supply.grow, Supply.missing]
  omega

-- the page of the entry idx is written, or it cannot be
structure Wrote (u : Supply) (idx : ℕ) (full : Bool) (s t : Fs) (h : FileHandle) (r : Bool × FileHandle) :
    Prop where
  medium : SameMedium s t
  relisted : Relisted h r.2
  ok : r.1 = true ↔ u.Writes idx full
  draws : r.1 = true → Draws (u.written idx full) (idx + 1) t r.2

theorem wp_writePage_wrote (page : List UInt8) (d : Draws u idx s h) (hidx : idx < u.valid) :
    wp (writePage h page idx) (fun r t => Wrote u idx true s t h r) (fun _ _ => True) s := by
  obtain ⟨m, hm, hstate, -, -⟩ := d.entry hidx
  apply wp_mono (wp_writePage_counted page (d.mono (Nat.le_succ idx)) hidx hm)
  · intro r t ht
    obtain ⟨hmed, hrel, hok, hd⟩ := ht
    refine ⟨hmed, hrel, ?_, fun hr => ?_⟩
    · rw [hok, Supply.Writes, hstate]
      simp
    · have := hd hr
      rw [hstate] at this
      simpa [Supply.written] using this
  · exact fun _ _ _ => trivial

theorem wp_rewritePage_wrote (page : List UInt8) (d : Draws u idx s h) (hidx : idx < u.valid)
    (hread : u.state idx ≠ .new → u.readable idx = true) :
    wp (rewritePage h page idx) (fun r t => Wrote u idx false s t h r) (fun _ _ => True) s := by
  apply wp_mono (wp_rewritePage_counted page d hidx)
  · intro r t ht
    obtain ⟨hmed, hrel, hok, hd⟩ := ht
    refine ⟨hmed, hrel, ?_, hd⟩
    rw [hok, Supply.Writes]
    constructor
    · exact fun a => ⟨a.1, fun hne => ⟨(a.2 hne).1, fun _ => ⟨hread hne, (a.2 hne).2⟩⟩⟩
    · exact fun a => ⟨a.1, fun hne => ⟨(a.2 hne).1, ((a.2 hne).2 rfl).2⟩⟩
  · exact fun _ _ _ => trivial

-- the end of a write: it stopped at `pos`, or all of its bytes are behind the cursor
structure Stopped (u : Supply) (ps fuel len left : ℕ) (h : FileHandle) (r : Option ℕ × FileHandle) : Prop where
  advanced : Advanced h r.2
  stops : ∀ fileLen, r.1 = none → u.stopsBehind ps fileLen fuel h.pos left = false → r.2.pos ≤ fileLen
  all : ∀ n, r.1 = some n → n = len ∧ r.2.pos = h.pos + left

-- the first page decides, or what comes behind it
omit [Config] in
theorem Stopped.first {ps fuel len left : ℕ} {r : Option ℕ × FileHandle} (hl : left ≠ 0) (ha : Advanced h r.2)
    (hpos : r.2.pos = h.pos) (hnone : r.1 = none)
    (hpage : u.page (h.pos / ps) (decide (min left (ps - h.pos % ps) = ps)) = none) :
    Stopped u ps (fuel + 1) len left h r where
  advanced := ha
  stops fileLen _ hs := by
    simp only [Supply.stopsBehind, if_neg hl, hpage, decide_eq_false_iff_not] at hs
    omega
  all n hn := by
    rw [hnone] at hn
    cases hn

omit [Config] in
theorem Stopped.next {ps fuel len left n : ℕ} {v : Supply} {r : Option ℕ × FileHandle} {h1 : FileHandle}
    (hl : left ≠ 0) (ha : Advanced h h1) (hn : n = min left (ps - h.pos % ps)) (hpos : h1.pos = h.pos + n)
    (hpage : u.page (h.pos / ps) (decide (n = ps)) = some v) (hr : Stopped v ps fuel len (left - n) h1 r) :
    Stopped u ps (fuel + 1) len left h r where
  advanced := ha.trans hr.advanced
  stops fileLen hnone hs := by
    apply hr.stops fileLen hnone
    rw [hn] at hpage
    simp only [Supply.stopsBehind, if_neg hl, hpage] at hs
    rw [hpos, hn]
    exact hs
  all k hk := by
    obtain ⟨h1, h2⟩ := hr.all k hk
    exact ⟨h1, by omega⟩

omit [Config] in
theorem Stopped.done {ps fuel len written : ℕ} (hw : written ≤ len) (hlt : ¬ written < len)
    (hlast : DeletedLast h.inode.dataPages) : Stopped u ps fuel len (len - written) h (some written, h) where
  advanced := ⟨rfl, hlast⟩
  stops := nofun
  all n hn := by
    rw [← Option.some_inj.mp hn]
    dsimp only
    omega

-- one page of the loop: it cannot be written, or the loop goes on behind it
theorem wp_writeLoop_step {ps : ℕ} {data : List UInt8} {fuel written : ℕ} {Q : Option ℕ × FileHandle → Fs → Prop}
    (hsize : s.header.pageSize = ps) (hlt : written < data.length)
    (d : Draws u (h.pos / ps) s h)
    (hfirst : ∀ h1 t, SameMedium s t → Relisted h h1 →
      u.page (h.pos / ps) (decide (min (data.length - written) ps = ps)) = none → Q (none, h1) t)
    (hnext : ∀ len v h1 t, len = min (data.length - written) ps → SameMedium s t → Advanced h h1 →
      h1.pos = h.pos + len → u.page (h.pos / ps) (decide (len = ps)) = some v → Draws v (h.pos / ps + 1) t h1 →
      wp (writeLoop fuel h1 data (written + len)) Q (fun _ _ => True) t) :
    wp (writeLoop (fuel + 1) h data written) Q (fun _ _ => True) s := by
  rw [writeLoop, if_pos hlt]
  simp only [wp_bind, wp_get, hsize]
  apply wp_mono (wp_allocateNewDataPages_counted (h.pos / ps) d)
  · intro r v hr
    obtain ⟨hmed, hrel, hgrows, hdraws⟩ := hr
    rw [wp_ite]
    constructor
    · intro hno
      exact hfirst r.2 v hmed hrel (Supply.page_of_not_grows (hgrows.not.mp hno))
    · intro hok
      have hok := not_not.mp hok
      have hgrows := hgrows.mp hok
      have d1 := hdraws hok
      obtain ⟨x, hx, hstate, hnd, hread⟩ := d1.entry (u.lt_grow _)
      have hcont : ∀ (len : ℕ) (full : Bool), len = min (data.length - written) ps →
          full = decide (len = ps) → ∀ r2 w, Wrote (u.grow (h.pos / ps)) (h.pos / ps) full v w r.2 r2 →
          wp (if r2.1 then writeLoop fuel (r2.2.advance len) data (written + len) else pure (none, r2.2))
            Q (fun _ _ => True) w := by
        intro len full hlen hfull r2 w hr2
        have hboth := hrel.trans hr2.relisted
        have hmed2 := hmed.trans hr2.medium
        rw [wp_ite]
        constructor
        · intro htrue
          have hadv : Advanced h (r2.2.advance len) := by
            refine ⟨?_, hboth.deletedLast⟩
            rw [FileHandle.advance, hboth.eq]
            rfl
          have d2 := hr2.draws htrue
          refine hnext len _ _ w hlen hmed2 hadv (by rw [FileHandle.advance, hboth.pos]) ?_
            ⟨d2.wf, d2.free, d2.plan, d2.room, d2.fresh, d2.entries⟩
          rw [← hfull]
          exact Supply.page_of_writes hgrows (hr2.ok.mp htrue)
        · intro hfalse
          apply hfirst r2.2 w hmed2 hboth
          rw [← hlen, ← hfull]
          exact Supply.page_of_not_writes (hr2.ok.not.mp hfalse)
      simp only [hx]
      rw [wp_ite]
      constructor
      · intro hpartial
        have hfull : false = decide (min (data.length - written) ps = ps) := by
          rw [eq_comm, decide_eq_false_iff_not]
          omega
        simp only [wp_bind, wp_get]
        rw [wp_ite]
        constructor
        · intro hbad
          apply hfirst r.2 v hmed hrel
          rw [← hfull]
          apply Supply.page_of_not_writes
          intro hwr
          have hne : (u.grow (h.pos / ps)).state (h.pos / ps) ≠ .new := by rw [← hstate, hbad.1]; simp
          exact hbad.2 ((hread hbad.1).mpr ((hwr.2 hne).2 rfl).1)
        · intro hgood
          have hreadable : (u.grow (h.pos / ps)).state (h.pos / ps) ≠ .new →
              (u.grow (h.pos / ps)).readable (h.pos / ps) = true := by
            intro hne
            have hst : x.state = .stored := by
              cases hst : x.state with
              | new => exact absurd (hstate ▸ hst) hne
              | stored => rfl
              | deleted => exact absurd hst hnd
            by_contra hno
            exact hgood ⟨hst, fun he => hno ((hread hst).mp he)⟩
          rw [wp_bind]
          apply wp_mono (wp_rewritePage_wrote _ d1 (u.lt_grow _) hreadable)
          · exact fun r2 w hr2 => hcont _ false rfl hfull r2 w hr2
          · exact fun _ _ _ => trivial
      · intro hnot
        have hlen : ps = min (data.length - written) ps := by omega
        rw [wp_bind]
        apply wp_mono (wp_writePage_wrote _ d1 (u.lt_grow _))
        · exact fun r2 w hr2 => hcont ps true hlen (by simp) r2 w hr2
        · exact fun _ _ _ => trivial
  · exact fun _ _ _ => trivial

theorem wp_writeLoop_counted {ps : ℕ} (hps : 0 < ps) (data : List UInt8) (fuel m written : ℕ) (hm : fuel ≤ m)
    (hsize : s.header.pageSize = ps) (hw : written ≤ data.length) (hlast : DeletedLast h.inode.dataPages)
    (hd : written < data.length → h.pos % ps = 0 ∧ Draws u (h.pos / ps) s h) :
    wp (writeLoop fuel h data written)
      (fun r t => SameMedium s t ∧ Stopped u ps m data.length (data.length - written) h r)
      (fun _ _ => True) s := by
  induction fuel generalizing s h u written m with
  | zero =>
    rw [writeLoop, wp_ite]
    exact ⟨fun _ => trivial, fun hlt => ⟨SameMedium.refl s, Stopped.done hw hlt hlast⟩⟩
  | succ fuel ih =>
    by_cases hlt : written < data.length
    · obtain ⟨hal, d⟩ := hd hlt
      obtain ⟨m, rfl⟩ : ∃ k, m = k + 1 := ⟨m - 1, by omega⟩
      have hleft : data.length - written ≠ 0 := by omega
      have hmin : min (data.length - written) (ps - h.pos % ps) = min (data.length - written) ps := by
        rw [hal, Nat.sub_zero]
      apply wp_writeLoop_step hsize hlt d
      · intro h1 t hmed hrel hpage
        rw [← hmin] at hpage
        exact ⟨hmed, Stopped.first hleft hrel.advanced hrel.pos rfl hpage⟩
      · intro len v h1 t hlen hmed hadv hpos hpage hd1
        have hnext : written + len < data.length → h1.pos % ps = 0 ∧ Draws v (h1.pos / ps) t h1 := by
          intro hlt2
          have hlenps : len = ps := by omega
          rw [hpos, hlenps, Nat.add_mod_right, Nat.add_div_right _ hps]
          exact ⟨hal, hd1⟩
        apply wp_mono (ih m (written + len) (by omega) (by rw [hmed.header, hsize]) (by omega)
          hadv.deletedLast hnext)
        · intro r w hr
          refine ⟨hmed.trans hr.1, Stopped.next hleft hadv (by rw [hmin, hlen]) hpos hpage ?_⟩
          rw [Nat.sub_sub]
          exact hr.2
        · exact fun _ _ _ => trivial
    · rw [writeLoop, if_neg hlt]
      exact ⟨SameMedium.refl s, Stopped.done hw hlt hlast⟩

-- the entries in front of idx first, then the one of idx
omit [Config] in
theorem Supply.grow_grow {i : ℕ} (u : Supply) (hi : i ≤ idx) : (u.grow i).grow idx = u.grow idx := by
  simp only [Supply.grow, Supply.missing, Supply.mk.injEq, true_and, and_true]
  omega

omit [Config] in
theorem Supply.Grows.of_grow {i : ℕ} (hi : i ≤ idx) (h1 : u.Grows i) (h2 : (u.grow i).Grows idx) : u.Grows idx := by
  simp only [Supply.Grows, Supply.grow, Supply.missing] at *
  omega

theorem wp_whenNeeded_counted {needed : Bool} (d : Draws u cur s h) :
    wp (whenNeeded needed h (allocateNewDataPages idx h))
      (fun r t => SameMedium s t ∧ Relisted h r.2 ∧ (r.1 = true → (needed = true → u.Grows idx) ∧
        Draws (if needed then u.grow idx else u) cur t r.2))
      (fun _ _ => True) s := by
  cases needed with
  | false => exact ⟨SameMedium.refl s, d.same, fun _ => ⟨nofun, d⟩⟩
  | true =>
    apply wp_mono (wp_allocateNewDataPages_counted _ d)
    · intro r t ht
      exact ⟨ht.1, ht.2.1, fun hr => ⟨fun _ => ht.2.2.1.mp hr, ht.2.2.2 hr⟩⟩
    · exact fun _ _ _ => trivial

theorem Draws.lt_valid {m : DataPage} (d : Draws u cur s h) (hm : h.inode.dataPages[idx]? = some m)
    (hs : m.state ≠ .deleted) : idx < u.valid := by
  obtain ⟨kept, dropped, e, hv, -, -⟩ := d.entries
  rw [← hv]
  by_contra hge
  rw [e.eq, List.getElem?_append_right (by omega)] at hm
  exact hs (e.dropped m (List.mem_of_getElem? hm))

-- the pages of the entries up to idx, whether they were there or not
theorem wp_claimEntries_counted (idx : ℕ) (d : Draws u cur s h) :
    wp (do
        let r ← whenNeeded (idx > 0) h (allocateNewDataPages (idx - 1) h)
        if ¬ r.1 then pure r
        else whenNeeded (r.2.inode.dataPages[idx]?.map (·.state) ≠ some .new) r.2 (allocateNewDataPages idx r.2))
      (fun r t => SameMedium s t ∧ Relisted h r.2 ∧ (r.1 = true → u.Grows idx ∧ Draws (u.grow idx) cur t r.2))
      (fun _ _ => True) s := by
  simp only [wp_bind]
  apply wp_mono (wp_whenNeeded_counted d)
  · intro r v hr
    obtain ⟨hmed, hrel, hgrow⟩ := hr
    rw [wp_ite]
    refine ⟨fun hno => ⟨hmed, hrel, fun hyes => absurd hyes hno⟩, fun hok => ?_⟩
    obtain ⟨hg1, d1⟩ := hgrow (not_not.mp hok)
    apply wp_mono (wp_whenNeeded_counted d1)
    · intro r2 w hr2
      obtain ⟨hmed2, hrel2, hgrow2⟩ := hr2
      refine ⟨hmed.trans hmed2, hrel.trans hrel2, fun hok2 => ?_⟩
      obtain ⟨hg2, d2⟩ := hgrow2 hok2
      by_cases hread : r.2.inode.dataPages[idx]?.map (·.state) ≠ some .new
      · rw [decide_eq_true hread] at hg2 d2
        by_cases hidx : idx > 0
        · rw [decide_eq_true hidx] at hg1 hg2 d2
          have hle : idx - 1 ≤ idx := by omega
          simp only [if_true, Supply.grow_grow u hle] at hg2 d2
          exact ⟨(hg1 rfl).of_grow hle (hg2 trivial), d2⟩
        · rw [decide_eq_false hidx] at hg2 d2
          exact ⟨hg2 rfl, d2⟩
      · rw [decide_eq_false hread] at d2
        simp only [ne_eq, Decidable.not_not, Option.map_eq_some_iff] at hread
        obtain ⟨m, hm, hnew⟩ := hread
        have hlt := d1.lt_valid hm (by rw [hnew]; simp)
        have hzero : u.missing idx = 0 := by
          have hvalid : (if decide (idx > 0) = true then u.grow (idx - 1) else u).valid ≤ max u.valid idx := by
            by_cases hidx : idx > 0
            · rw [decide_eq_true hidx, if_pos rfl, Supply.grow, Supply.missing]
              dsimp only
              omega
            · rw [decide_eq_false hidx, if_neg (by simp)]
              exact le_max_left _ _
          have hlt' := lt_of_lt_of_le hlt hvalid
          rw [Supply.missing]
          omega
        rw [Supply.grow_eq hzero]
        have hzero' : u.missing (idx - 1) = 0 := by
          simp only [Supply.missing] at hzero ⊢
          omega
        rw [Supply.grow_eq hzero'] at d2
        refine ⟨Or.inl hzero, ?_⟩
        simpa using d2
    · exact fun _ _ _ => trivial
  · exact fun _ _ _ => trivial

omit [Config] in
theorem wp_whenNeeded_skip {needed : Bool} (h : FileHandle) (call : FsM (Bool × FileHandle)) (s : Fs) :
    wp (whenNeeded needed h call) (fun r _ => needed = false → r.2 = h) (fun _ _ => True) s := by
  cases needed with
  | false => exact fun _ => rfl
  | true => exact wp_run (fun _ _ _ => nofun) (fun _ _ _ => trivial)

theorem wp_writeUnaligned_counted {ps : ℕ} (hsize : s.header.pageSize = ps) (data : List UInt8)
    (d : Draws u idx s h) :
    wp (writeUnaligned h data idx)
      (fun r t => SameMedium s t ∧ (r.1 = none → Relisted h r.2) ∧ ∀ n, r.1 = some n →
        n = min data.length (ps - h.pos % ps) ∧ Advanced h r.2 ∧ r.2.pos = h.pos + n ∧
        ∃ v, u.page idx false = some v ∧ Draws v (idx + 1) t r.2)
      (fun _ _ => True) s := by
  have hclaim := wp_claimEntries_counted idx d
  simp only [wp_bind] at hclaim
  simp only [writeUnaligned, wp_bind, wp_get, hsize]
  apply wp_mono hclaim
  · intro r v hr
    rw [wp_ite] at hr ⊢
    constructor
    · intro hno
      have := hr.1 hno
      exact ⟨this.1, fun _ => this.2.1, by simp⟩
    · intro hok
      simp only [wp_bind]
      apply wp_mono (wp_and (hr.2 hok) (wp_whenNeeded_skip _ _ v))
      · intro r2 w hr2
        obtain ⟨⟨hmed, hrel, hgrow⟩, hsame⟩ := hr2
        have hsize2 : w.header.pageSize = ps := by rw [hmed.header, hsize]
        rw [wp_ite]
        refine ⟨fun _ => ⟨hmed, fun _ => hrel, by simp⟩, fun hok2 => ?_⟩
        obtain ⟨hg, d1⟩ := hgrow (not_not.mp hok2)
        obtain ⟨m, hm, hstate, hnd, hread⟩ := d1.entry (u.lt_grow _)
        simp only [hm, wp_bind, wp_get]
        rw [wp_ite]
        refine ⟨fun _ => ⟨hmed, fun _ => hrel, by simp⟩, fun hgood => ?_⟩
        have hreadable : (u.grow idx).state idx ≠ .new → (u.grow idx).readable idx = true := by
          intro hne
          have hst : m.state = .stored := by
            cases hst : m.state with
            | new => exact absurd (hstate ▸ hst) hne
            | stored => rfl
            | deleted => exact absurd hst hnd
          by_contra hno
          refine hgood ⟨?_, fun he => hno ((hread hst).mp he)⟩
          by_contra hskip
          rw [hsame (by simpa using hskip)] at hm
          simp [hm, hst] at hskip
        rw [wp_bind]
        apply wp_mono (wp_rewritePage_wrote _ d1 (u.lt_grow _) hreadable)
        · intro r3 z hr3
          rw [wp_ite]
          constructor
          · intro htrue
            have hboth := hrel.trans hr3.relisted
            refine ⟨hmed.trans hr3.medium, by simp, fun n hn => ?_⟩
            obtain rfl := Option.some_inj.mp hn
            have d2 := hr3.draws htrue
            refine ⟨by rw [hsize2], ⟨?_, hboth.deletedLast⟩, ?_, _, Supply.page_of_writes hg (hr3.ok.mp htrue),
              ⟨d2.wf, d2.free, d2.plan, d2.room, d2.fresh, d2.entries⟩⟩
            · rw [FileHandle.advance, hboth.eq]
              rfl
            · rw [FileHandle.advance, hboth.pos]
          · intro hfalse
            exact ⟨hmed.trans hr3.medium, fun _ => hrel.trans hr3.relisted, by simp⟩
        · exact fun _ _ _ => trivial
      · exact fun _ _ _ => trivial
  · exact fun _ _ _ => trivial

-- a write to the pages that was done, or that stopped
structure PagesWritten (u : Supply) (ps len already : ℕ) (h : FileHandle) (r : ℕ × FileHandle) : Prop where
  inodeData : r.2.inode.inodeData = h.inode.inodeData
  fileNameLen : r.2.inode.fileNameLen = h.inode.fileNameLen
  append : r.2.append = h.append
  deletedLast : DeletedLast r.2.inode.dataPages
  ends : (r.1 = len + already ∧ r.2.pos = h.pos + len ∧ r.2.inode.fileLen = max r.2.pos h.inode.fileLen) ∨
    (r.1 = 0 ∧ r.2.inode.fileLen = h.inode.fileLen ∧
      ∀ fileLen, h.pos ≤ fileLen → u.stopsBehind ps fileLen (len + 1) h.pos len = false → r.2.pos ≤ fileLen)

omit [Config] in
theorem PagesWritten.stopped {ps len already : ℕ} {h1 : FileHandle} (ha : Advanced h h1)
    (hs : ∀ fileLen, h.pos ≤ fileLen → u.stopsBehind ps fileLen (len + 1) h.pos len = false → h1.pos ≤ fileLen) :
    PagesWritten u ps len already h (0, h1) := by
  have he := ha.eq
  refine ⟨by rw [he], by rw [he], by rw [he], ha.deletedLast, Or.inr ⟨rfl, by rw [he], hs⟩⟩

omit [Config] in
theorem PagesWritten.all {ps already len n : ℕ} {h1 : FileHandle} (ha : Advanced h h1)
    (hn : n = len) (hpos : h1.pos = h.pos + len) :
    PagesWritten u ps len already h (n + already, { h1 with
      modified := true, inode := { h1.inode with fileLen := max h1.pos h1.inode.fileLen } }) := by
  have he := ha.eq
  refine ⟨by dsimp only; rw [he], by dsimp only; rw [he], by dsimp only; rw [he], ha.deletedLast,
    Or.inl ⟨by rw [hn], hpos, ?_⟩⟩
  dsimp only
  rw [he]

omit [Config] in
theorem Supply.stopsBehind_nothing (u : Supply) (ps fileLen fuel pos : ℕ) :
    u.stopsBehind ps fileLen fuel pos 0 = false := by
  cases fuel <;> rfl

theorem wp_writePages_counted {ps : ℕ} (hps : 0 < ps) (hsize : s.header.pageSize = ps) (data : List UInt8)
    (already : ℕ) (hidx : h.pos % ps ≠ 0 → idx = h.pos / ps) (d : Draws u (h.pos / ps) s h) :
    wp (writePages h data idx already) (fun r t => SameMedium s t ∧ PagesWritten u ps data.length already h r)
      (fun _ _ => True) s := by
  simp only [writePages, writeFirst, wp_bind, wp_get, hsize]
  rw [wp_ite]
  constructor
  · intro hun
    rw [hidx hun]
    apply wp_mono (wp_writeUnaligned_counted hsize data d)
    · intro r v hr
      obtain ⟨r, h1⟩ := r
      obtain ⟨hmed, hnone, hsome⟩ := hr
      cases r with
      | none =>
        have hrel := hnone rfl
        refine ⟨hmed, PagesWritten.stopped hrel.advanced fun fileLen hle _ => ?_⟩
        rw [hrel.pos]
        exact hle
      | some n =>
        obtain ⟨hn, hadv, hpos, v', hpage, hd⟩ := hsome n rfl
        have hmod := Nat.mod_lt h.pos hps
        have hdiv := Nat.div_add_mod h.pos ps
        have hnext : n < data.length → h1.pos % ps = 0 ∧ Draws v' (h1.pos / ps) v h1 := by
          intro hlt
          have hsum : h.pos + n = ps * (h.pos / ps + 1) := by
            rw [Nat.mul_add]
            omega
          rw [hpos, hsum, Nat.mul_mod_right, Nat.mul_div_cancel_left _ hps]
          exact ⟨rfl, hd⟩
        simp only [wp_bind]
        apply wp_mono (wp_writeLoop_counted hps data data.length data.length n le_rfl (by rw [hmed.header, hsize])
          (by omega) hadv.deletedLast hnext)
        · intro r2 w hr2
          obtain ⟨hmed2, hstop⟩ := hr2
          obtain ⟨r2, h2⟩ := r2
          have hboth := hadv.trans hstop.advanced
          cases r2 with
          | none =>
            refine ⟨hmed.trans hmed2, PagesWritten.stopped hboth fun fileLen _ hs => ?_⟩
            by_cases hzero : data.length = 0
            · apply hstop.stops fileLen rfl
              rw [hzero, Nat.zero_sub]
              exact Supply.stopsBehind_nothing _ _ _ _ _
            · have hpage' : u.page (h.pos / ps) (decide (n = ps)) = some v' := by
                rw [decide_eq_false (by omega)]
                exact hpage
              exact (Stopped.next hzero hadv hn hpos hpage' hstop).stops fileLen rfl hs
          | some k =>
            obtain ⟨hk, hpos2⟩ := hstop.all k rfl
            exact ⟨hmed.trans hmed2, PagesWritten.all hboth hk (by dsimp only at hpos hpos2 ⊢; omega)⟩
        · exact fun _ _ _ => trivial
    · exact fun _ _ _ => trivial
  · intro hal
    simp only [ne_eq, Decidable.not_not] at hal
    simp only [wp_pure, wp_bind]
    apply wp_mono (wp_writeLoop_counted hps data data.length (data.length + 1) 0 (Nat.le_succ _) hsize
      (Nat.zero_le _) d.deletedLast fun _ => ⟨hal, d⟩)
    · intro r w hr
      obtain ⟨hmed, hstop⟩ := hr
      obtain ⟨r, h1⟩ := r
      cases r with
      | none => exact ⟨hmed, PagesWritten.stopped hstop.advanced fun fileLen _ hs => hstop.stops fileLen rfl hs⟩
      | some n =>
        obtain ⟨hn, hpos⟩ := hstop.all n rfl
        exact ⟨hmed, PagesWritten.all hstop.advanced hn hpos⟩
    · exact fun _ _ _ => trivial

end Draws

end SimpleFlashFs
