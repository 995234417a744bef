import SimpleFlashFs.BankWrites

namespace SimpleFlashFs.TwoFace

open Lib

section Program

variable [Config]

-- a Component with its memory; valid: the optional holds the filesystem
structure PagedComponent where
  fs : Fs
  valid : Bool := false

namespace PagedComponent

-- init_fs( Component )
def init (c : PagedComponent) : Except Fault PagedComponent :=
  match initNoDel (emplace c.fs.mem) with
  | .ok ok t => .ok { fs := t, valid := ok }
  | .error e _ => .error e

-- create, where h is the header of SimpleFsNoDel::create
def create (h : Header) (c : PagedComponent) : Except Fault PagedComponent :=
  let made : FsM Bool := do
    let s ← get
    let _ ← perform (.erase 0 s.mem.size)
    let ok ← SimpleFlashFs.create h
    if ok then initNoDel else pure false
  match made (emplace c.fs.mem) with
  | .ok ok t => .ok { fs := t, valid := ok }
  | .error e _ => .error e

-- fs->open( name, std::ios_base::in ).valid()
def opens (name : List UInt8) (c : PagedComponent) : Except Fault (Bool × PagedComponent) :=
  let opened : FsM Bool := do
    let h ← openFile name { in_ := true }
    closeHandle h
    pure h.connected
  match opened c.fs with
  | .ok found t => .ok (found, { c with fs := t })
  | .error e _ => .error e

end PagedComponent

-- SimpleFs2FlashPages
structure FlashPages where
  c1 : PagedComponent
  c2 : PagedComponent

namespace FlashPages

def get (s : FlashPages) : Side → PagedComponent
  | .one => s.c1
  | .two => s.c2

def resetSide (s : FlashPages) : Side → FlashPages
  | .one => { s with c1 := { s.c1 with valid := false } }
  | .two => { s with c2 := { s.c2 with valid := false } }

def active (s : FlashPages) : Side := if s.c1.valid then .one else .two

-- the end of init_fs, with both filesystems at hand
def select (s : FlashPages) : Except Fault FlashPages := do
  let copied1 ← s.c1.opens copyCompletedFileName
  let copied2 ← s.c2.opens copyCompletedFileName
  let sealed1 ← copied1.2.opens filesystemSealedFileName
  let sealed2 ← copied2.2.opens filesystemSealedFileName
  let s : FlashPages := { c1 := sealed1.2, c2 := sealed2.2 }
  if copied1.1 ∧ sealed2.1 then pure (s.resetSide .two)
  else if copied2.1 ∧ sealed1.1 then pure (s.resetSide .one)
  else if ¬ copied1.1 ∧ sealed2.1 then pure (s.resetSide .one)
  else if ¬ copied2.1 ∧ sealed1.1 then pure (s.resetSide .two)
  else if s.c1.fs.maxInodeNumber > s.c2.fs.maxInodeNumber then pure (s.resetSide .two)
  else pure (s.resetSide .one)

def initFs (h : Header) (s : FlashPages) : Except Fault (Bool × FlashPages) := do
  let c1 ← s.c1.init
  let c2 ← s.c2.init
  if c1.valid = false ∧ c2.valid = false then
    let c1 ← c1.create h
    if c1.valid = false then pure (false, { c1 := c1, c2 := c2 })
    else
      let c2 ← c2.create h
      if c2.valid = false then pure (false, { c1 := c1, c2 := c2 })
      else
        let s ← select { c1 := c1, c2 := c2 }
        pure (true, s)
  else if c1.valid = false ∨ c2.valid = false then pure (true, { c1 := c1, c2 := c2 })
  else
    let s ← select { c1 := c1, c2 := c2 }
    pure (true, s)

end FlashPages

-- the power is switched on
def started (mem : Side → Memory) : FlashPages := { c1 := { fs := emplace (mem .one) }, c2 := { fs := emplace (mem .two) } }

end Program

section Mounts

variable [Config] {s t : Fs} {m : Memory} {b : Bank} {hd : Header} {p : PagedComponent} {c : Component}
  {name content : List UInt8} {n : ℕ}

theorem initBase_noHeader (hno : ∀ hd, ¬ HeaderOn s.mem hd) : ∃ t, initBase s = .ok false t ∧ t.mem = s.mem := by
  have hw : wp initBase (fun _ t => t.mem = s.mem) (fun _ _ => False) s := by
    simp only [initBase, wp_bind, wp_get]
    split
    · rfl
    · cases parseEndianness (readHeaderPage s.mem minPageSize) with
      | none => rfl
      | some e =>
        simp only [setHeader, wp_bind, wp_modify]
        split
        · rfl
        · split
          · rfl
          · split
            · rfl
            · rfl
  obtain ⟨r, t, ht, hmem⟩ := returns_of_wp hw
  cases r with
  | false => exact ⟨t, ht, hmem⟩
  | true => exact absurd (headerOn_of_initBase ht).1 (hno _)

theorem initNoDel_noHeader (hno : ∀ hd, ¬ HeaderOn s.mem hd) : ∃ t, initNoDel s = .ok false t ∧ t.mem = s.mem := by
  obtain ⟨t, ht, hmem⟩ := initBase_noHeader hno
  refine ⟨t, ?_, hmem⟩
  rw [initNoDel, initNoDelWith, bind_of_ok ht]
  rfl

theorem initNoDel_shown (hon : HeaderOn s.mem hd) (hs : ShowsBank (s.withHeader hd) b)
    (hread : s.mem.canMapRead = true → b.unreadable = false) :
    ∃ t, initNoDel s = .ok true t ∧ Untouched (s.withHeader hd) t ∧
      t.maxInodeNumber = largestNumber (s.withHeader hd) (validPages (s.withHeader hd)) := by
  have hdiscarded : ∀ i < hd.maxInodes, Discarded (s.withHeader hd) (decodeInode · · false) i := by
    intro i hi
    rcases hs.torn i hi with hfails | hdropped
    · intro hcan
      have hun := hs.unreadable.mpr ⟨hcan, i, hi, hfails⟩
      rw [hread hcan] at hun
      cases hun
    · exact hdropped
  obtain ⟨t, ht, hb⟩ := initNoDelWith_booted hon hs.recordsReadable (agreesOnRecords_self _) hdiscarded hs.countable
  rw [initNoDelWith_decodeInode] at ht
  exact ⟨t, ht, hb.toUntouched, hb.maxInodeNumber⟩

theorem initNoDel_fails (hon : HeaderOn m hd) (hs : ShowsBank (view m hd) b) (hun : b.unreadable = true) :
    ∃ e t, initNoDel (emplace m) = .error e t := by
  cases hrun : initNoDel (emplace m) with
  | error e t => exact ⟨e, t, rfl⟩
  | ok r t =>
    rw [← initNoDelWith_decodeInode] at hrun
    obtain ⟨hcan, i, hi, hfails⟩ := hs.unreadable.mp hun
    exact absurd hfails (initNoDelWith_stops (s := emplace m) hon hs.recordsReadable (agreesOnRecords_self _) hcan hs.torn
      hs.countable hrun hi)

-- the component c of the model of the banks
structure Stands (p : PagedComponent) (c : Component) : Prop where
  depicts : Depicts p.fs.mem c.mem
  valid : p.valid = c.valid
  shows : ∀ n, c.fs = some n → ShowsBank p.fs c.mem ∧ p.fs.maxInodeNumber = n

theorem Depicts.init_eq_none (h : Depicts p.fs.mem c.mem) (hc : c.init = none) : ∃ e, p.init = .error e := by
  unfold Component.init at hc
  split at hc
  · cases hc
  · next hh =>
    split at hc
    · next hm =>
      obtain ⟨hd, hon⟩ := h.header.mp (by simpa using hh)
      obtain ⟨e, t, he⟩ := initNoDel_fails hon (h.shows hd hon) hm.2
      exact ⟨e, by rw [PagedComponent.init, he]⟩
    · cases hc

theorem Depicts.init_eq_some {d : Component} (h : Depicts p.fs.mem c.mem) (hc : c.init = some d) :
    ∃ q, p.init = .ok q ∧ Stands q d ∧ q.fs.mem = p.fs.mem := by
  unfold Component.init at hc
  split at hc
  · next hh =>
    obtain rfl := Option.some_inj.mp hc
    have hno : ∀ hd, ¬ HeaderOn p.fs.mem hd := by
      intro hd hon
      rw [h.header.mpr ⟨hd, hon⟩] at hh
      cases hh
    obtain ⟨t, ht, hmem⟩ := initNoDel_noHeader (s := emplace p.fs.mem) hno
    refine ⟨⟨t, false⟩, by rw [PagedComponent.init, ht], ⟨?_, rfl, fun n hn => by cases hn⟩, hmem⟩
    dsimp only
    rw [hmem]
    exact h
  · next hh =>
    split at hc
    · cases hc
    · next hm =>
      obtain rfl := Option.some_inj.mp hc
      obtain ⟨hd, hon⟩ := h.header.mp (by simpa using hh)
      have hread : p.fs.mem.canMapRead = true → c.mem.unreadable = false := by
        intro hcan
        by_contra hun
        exact hm ⟨h.mapped.trans hcan, by simpa using hun⟩
      obtain ⟨t, ht, hu, hnumber⟩ := initNoDel_shown (s := emplace p.fs.mem) hon (h.shows hd hon) hread
      have hmem : t.mem = p.fs.mem := hu.mem
      refine ⟨⟨t, true⟩, by rw [PagedComponent.init, ht], ⟨?_, rfl, fun n hn => ?_⟩, hmem⟩
      · dsimp only
        rw [hmem]
        exact h
      · rw [← Option.some_inj.mp hn]
        exact ⟨(h.shows hd hon).of_untouched hu, hnumber.trans (h.number hd hon).symm⟩

theorem ShowsBank.wp_open (hs : ShowsBank s b) (hname : name ≠ []) :
    wp (openFile name { in_ := true }) (fun h t => LookedAt s t ∧ FindsNewest s name h ∧ h.modified = false)
      (fun _ _ => False) s := by
  obtain ⟨k, hk, hfinds⟩ := lookup_newest hs.uncorrected hs.distinctVersions hname
  apply wp_mono (wp_openIn_quiet hs.uncorrected.quiet name)
  · rintro h t ⟨ht, hl, hm⟩
    rw [hk] at hl
    rw [← Except.ok.inj hl] at hm ⊢
    exact ⟨ht, hfinds, hm⟩
  · rintro f t ⟨-, hl⟩
    rw [hk] at hl
    cases hl

theorem Stands.opens (hs : Stands p c) (hc : c.fs = some n) (hname : name ≠ []) :
    ∃ q, p.opens name = .ok (c.mem.has name, q) ∧ Stands q c := by
  obtain ⟨hshows, hn⟩ := hs.shows n hc
  have hw : wp (do
      let h ← openFile name { in_ := true }
      closeHandle h
      pure h.connected) (fun r t => r = c.mem.has name ∧ LookedAt p.fs t) (fun _ _ => False) p.fs := by
    rw [wp_bind]
    apply wp_mono (hshows.wp_open hname)
    · rintro h t ⟨ht, hfinds, hm⟩
      rw [wp_bind]
      apply wp_mono (wp_closeHandle_quiet hm _)
      · intro _ u hu
        refine ⟨?_, ht.trans hu.1⟩
        rw [Bool.eq_iff_iff, hfinds.found, hshows.has_iff hname]
      · exact fun _ _ h => h
    · exact fun _ _ h => h
  obtain ⟨r, t, hr, rfl, ht⟩ := returns_of_wp hw
  refine ⟨{ p with fs := t }, ?_, ?_, hs.valid, fun k hk => ?_⟩
  · rw [PagedComponent.opens, hr]
  · dsimp only
    rw [ht.mem]
    exact hs.depicts
  · obtain ⟨h1, h2⟩ := hs.shows k hk
    exact ⟨h1.of_untouched ht.toUntouched, ht.numbers.trans h2⟩

-- the memory that is left for a new filesystem
theorem Formatted.onlyHeader {h : Header} {u v : Fs} {page : List UInt8} (f : Formatted s u h page) (hinodes : h.maxInodes < h.filesystemSize)
    (hsize : h.filesystemSize ≤ 2 ^ 32) (hcrc : checksumOk h.endianness (List.replicate h.pageSize 0xFF) = false)
    (hv : initBase u = .ok true v) : OnlyHeader u.mem v.header := by
  obtain ⟨hon, hgeo, -⟩ := f.initBase hv
  have hfour := f.filesystemSize
  have hh : u.header = h := by rw [f.rest]
  refine ⟨hon, ⟨by rw [hgeo.filesystemSize]; omega, by rw [hgeo.filesystemSize]; exact hsize⟩, fun i hi => ?_, ?_⟩
  · rw [hgeo.maxInodes] at hi
    have hpage : pageAt (view u.mem v.header) i = pageAt u i := by
      simp only [pageAt, view, Fs.withHeader, emplace, pageOffset, hgeo.pageSize, hh]
    have hin : InRange u i := by
      rw [InRange, hh]
      omega
    rw [hpage, (f.blank hinodes).pages i hin]
    simp [isEmptyPage]
  · rw [hgeo.endianness, hgeo.pageSize]
    exact hcrc

theorem initBase_of_initNoDel (h : initNoDel s = .ok true t) : ∃ v, initBase s = .ok true v := by
  have hw : wp initNoDel (fun r _ => r = true → ∃ v, initBase s = .ok true v) (fun _ _ => True) s := by
    rw [initNoDel, initNoDelWith, wp_bind]
    refine wp_run (fun r v hv => ?_) fun _ _ _ => trivial
    cases r with
    | true => exact wp_run (fun _ _ _ _ => ⟨v, hv⟩) fun _ _ _ => trivial
    | false =>
      rw [if_neg Bool.false_ne_true, wp_pure]
      exact fun h => by cases h
  exact wp_ok hw h rfl

-- a mount of a memory with nothing but a header
theorem OnlyHeader.initNoDel (e : OnlyHeader s.mem hd) : ∃ t, initNoDel s = .ok true t ∧ t.mem = s.mem ∧
    ShowsBank t { mapped := s.mem.canMapRead, header := true, files := [] } ∧ t.maxInodeNumber = s.maxInodeNumber := by
  obtain ⟨hvalid, hshows⟩ := showsBank_blank (s := s.withHeader hd) s.mem.canMapRead e.countable e.empty e.checksum
  obtain ⟨t, ht, hu, hnumber⟩ := initNoDel_shown e.header hshows fun _ => rfl
  rw [hvalid] at hnumber
  exact ⟨t, ht, hu.mem, hshows.of_untouched hu, hnumber⟩

theorem create_stands {h : Header} {q : PagedComponent} (hplan : p.fs.mem.plan = []) (hinodes : h.maxInodes < h.filesystemSize)
    (hsize : h.filesystemSize ≤ 2 ^ 32) (hcrc : checksumOk h.endianness (List.replicate h.pageSize 0xFF) = false)
    (hd : Depicts p.fs.mem c.mem) (hc : p.create h = .ok q) (hvalid : q.valid = true) : Stands q (c.create true).2 := by
  have hN : h.pageSize * h.filesystemSize < 2 ^ 64 := by
    have := h.pageSize_lt
    nlinarith
  have hw : wp (do
      let s ← get
      let _ ← perform (.erase 0 s.mem.size)
      let ok ← SimpleFlashFs.create h
      if ok then SimpleFlashFs.initNoDel else pure false) (fun ok t => ok = true →
        t.mem.canMapRead = p.fs.mem.canMapRead ∧ (∃ hd, OnlyHeader t.mem hd) ∧
          ShowsBank t { mapped := t.mem.canMapRead, header := true, files := [] } ∧ t.maxInodeNumber = 0)
      (fun _ _ => True) (emplace p.fs.mem) := by
    have hplan' : (emplace p.fs.mem).mem.plan = [] := hplan
    simp only [perform, wp_bind, wp_get, wp_set, Memory.perform, hplan', wp_pure]
    refine wp_run (fun ok t hrun => ?_) fun _ _ _ => trivial
    cases ok with
    | false =>
      rw [if_neg Bool.false_ne_true, wp_pure]
      exact fun h => by cases h
    | true =>
      obtain ⟨u, page, f, hinit⟩ := create_ok rfl hN hrun
      have hu : init u = SimpleFlashFs.initNoDel u := by
        have hv : u.variant = .noDel := by rw [f.rest]; rfl
        simp only [init, bind_of_ok (show (get : FsM Fs) u = .ok u u from rfl), hv]
      rw [hu] at hinit
      obtain ⟨v, hv⟩ := initBase_of_initNoDel hinit
      have e := Formatted.onlyHeader f hinodes hsize hcrc hv
      -- the mount at the end of create, and the one of the component
      obtain ⟨t', ht', hmem, -, hnumber⟩ := e.initNoDel
      rw [hinit] at ht'
      injection ht' with _ ht'
      subst ht'
      have e' : OnlyHeader t.mem v.header := by rwa [hmem]
      obtain ⟨w, hw, hmem', hshows, hnumber'⟩ := e'.initNoDel
      rw [if_pos rfl]
      apply wp_of_eq hw
      intro _
      have hcan : w.mem.canMapRead = p.fs.mem.canMapRead := by
        rw [hmem', hmem, f.canMapRead]
        rfl
      refine ⟨hcan, ⟨v.header, by rwa [hmem']⟩, by rwa [hmem'], ?_⟩
      rw [hnumber', hnumber, f.rest]
      rfl
  unfold PagedComponent.create at hc
  dsimp only at hc
  split at hc
  · next ok t hrun =>
    obtain rfl := Except.ok.inj hc
    obtain ⟨hcan, ⟨hd', e⟩, hshows, hnumber⟩ := wp_ok hw hrun hvalid
    have hmem : (c.create true).2.mem = { mapped := t.mem.canMapRead, header := true, files := [] } := by
      rw [hcan, ← hd.mapped]
      rfl
    refine ⟨?_, hvalid, fun n hn => ?_⟩
    · rw [hmem]
      exact .of_onlyHeader e
    · rw [hmem]
      exact ⟨hshows, hnumber.trans (Option.some_inj.mp hn)⟩
  · cases hc

end Mounts

section Selection

variable [Config] {p q : FlashPages} {s t : State} {side : Side} {h : Header} {o : Outcomes}

-- bank by bank
def StandsFor (p : FlashPages) (s : State) : Prop := ∀ side, Stands (p.get side) (s.get side)

theorem Stands.reset {c : PagedComponent} {d : Component} (hs : Stands c d) : Stands { c with valid := false } d.reset :=
  ⟨hs.depicts, rfl, fun _ h => by cases h⟩

theorem StandsFor.resetSide (hs : StandsFor p s) (side : Side) : StandsFor (p.resetSide side) (s.resetSide side) := by
  intro x
  cases side with
  | one =>
    cases x with
    | one => exact (hs .one).reset
    | two => exact hs .two
  | two =>
    cases x with
    | one => exact hs .one
    | two => exact (hs .two).reset

theorem StandsFor.active (hs : StandsFor p s) : p.active = s.active := by
  have h1 : p.c1.valid = s.c1.valid := (hs .one).valid
  rw [FlashPages.active, State.active, h1]

theorem StandsFor.select {n1 n2 : ℕ} (hs : StandsFor p s) (h1 : s.c1.fs = some n1) (h2 : s.c2.fs = some n2) :
    ∃ q, p.select = .ok q ∧ StandsFor q s.select := by
  obtain ⟨q1, hq1, hs1⟩ := (hs .one).opens h1 (show copyCompletedFileName ≠ [] by decide)
  obtain ⟨q2, hq2, hs2⟩ := (hs .two).opens h2 (show copyCompletedFileName ≠ [] by decide)
  obtain ⟨r1, hr1, ht1⟩ := hs1.opens h1 (show filesystemSealedFileName ≠ [] by decide)
  obtain ⟨r2, hr2, ht2⟩ := hs2.opens h2 (show filesystemSealedFileName ≠ [] by decide)
  have hboth : StandsFor ⟨r1, r2⟩ s := by
    intro side
    cases side with
    | one => exact ht1
    | two => exact ht2
  have hnum1 : r1.fs.maxInodeNumber = s.c1.fs.getD 0 := by rw [(ht1.shows n1 h1).2, h1]; rfl
  have hnum2 : r2.fs.maxInodeNumber = s.c2.fs.getD 0 := by rw [(ht2.shows n2 h2).2, h2]; rfl
  simp only [FlashPages.get, State.get] at hq1 hq2 hr1 hr2
  rw [FlashPages.select, hq1, hq2]
  simp only [ok_bind, hr1, hr2, hnum1, hnum2]
  rw [State.select]
  split_ifs <;> exact ⟨_, rfl, hboth.resetSide _⟩

-- the memories show the banks
def DepictsAll (p : FlashPages) (s : State) : Prop := ∀ side, Depicts (p.get side).fs.mem (s.get side).mem

variable {d1 d2 : Component}

theorem initFs_mountFails (hd : DepictsAll p s) (hnone : s.initFs o = none) : ∃ e, p.initFs h = .error e := by
  rw [FlashPages.initFs]
  cases h1 : s.c1.init with
  | none =>
    obtain ⟨e, he⟩ := (hd .one).init_eq_none h1
    exact ⟨e, by rw [show p.c1.init = .error e from he]; rfl⟩
  | some d1 =>
    obtain ⟨q1, hq1, -⟩ := (hd .one).init_eq_some h1
    rw [show p.c1.init = .ok q1 from hq1, ok_bind]
    cases h2 : s.c2.init with
    | none =>
      obtain ⟨e, he⟩ := (hd .two).init_eq_none h2
      exact ⟨e, by rw [show p.c2.init = .error e from he]; rfl⟩
    | some d2 =>
      rw [State.initFs, h1, h2] at hnone
      cases hnone

theorem initFs_stands (hd : DepictsAll p s) (h1 : s.c1.init = some d1) (h2 : s.c2.init = some d2)
    (hsome : d1.valid = true ∨ d2.valid = true) :
    ∃ q t, p.initFs h = .ok (true, q) ∧ s.initFs o = some (true, t) ∧ StandsFor q t := by
  obtain ⟨q1, hq1, hs1, -⟩ := (hd .one).init_eq_some h1
  obtain ⟨q2, hq2, hs2, -⟩ := (hd .two).init_eq_some h2
  have hboth : StandsFor ⟨q1, q2⟩ { s with c1 := d1, c2 := d2 } := by
    intro side
    cases side with
    | one => exact hs1
    | two => exact hs2
  have hnot : ¬ (d1.valid = false ∧ d2.valid = false) := by
    rintro ⟨hf1, hf2⟩
    rw [hf1, hf2] at hsome
    cases hsome <;> contradiction
  rw [FlashPages.initFs, show p.c1.init = .ok q1 from hq1, ok_bind, show p.c2.init = .ok q2 from hq2, ok_bind, hs1.valid,
    hs2.valid, if_neg hnot, State.initFs, h1, h2]
  dsimp only
  rw [State.choose]
  dsimp only
  rw [if_neg hnot]
  by_cases hone : d1.valid = false ∨ d2.valid = false
  · rw [if_pos hone, if_pos hone]
    exact ⟨_, _, rfl, rfl, hboth⟩
  · rw [if_neg hone, if_neg hone]
    rw [not_or, Bool.not_eq_false, Bool.not_eq_false] at hone
    obtain ⟨n1, hn1⟩ := Option.isSome_iff_exists.mp hone.1
    obtain ⟨n2, hn2⟩ := Option.isSome_iff_exists.mp hone.2
    obtain ⟨q, hq, hstands⟩ := hboth.select hn1 hn2
    rw [hq, ok_bind]
    exact ⟨q, _, rfl, rfl, hstands⟩

-- a new header that fits the memory
structure NewHeader (h : Header) : Prop where
  inodes : h.maxInodes < h.filesystemSize
  size : h.filesystemSize ≤ 2 ^ 32
  checksum : checksumOk h.endianness (List.replicate h.pageSize 0xFF) = false

theorem initFs_refines (hd : DepictsAll p s) (hplan : ∀ side, (p.get side).fs.mem.plan = []) (hh : NewHeader h)
    (hrun : p.initFs h = .ok (true, q)) :
    ∃ t, s.initFs { o with initHeader := fun _ => true } = some (true, t) ∧ StandsFor q t := by
  cases hinit : s.initFs { o with initHeader := fun _ => true } with
  | none =>
    obtain ⟨e, he⟩ := initFs_mountFails (h := h) hd hinit
    rw [he] at hrun
    cases hrun
  | some r =>
    cases h1 : s.c1.init with
    | none =>
      rw [State.initFs, h1] at hinit
      cases hinit
    | some d1 =>
    cases h2 : s.c2.init with
    | none =>
      rw [State.initFs, h1, h2] at hinit
      cases hinit
    | some d2 =>
    by_cases hsome : d1.valid = true ∨ d2.valid = true
    · obtain ⟨q', t, hq, ht, hstands⟩ := initFs_stands (h := h) (o := { o with initHeader := fun _ => true }) hd h1 h2 hsome
      rw [hrun] at hq
      rw [hinit] at ht
      obtain rfl := (Prod.mk.inj (Except.ok.inj hq)).2
      exact ⟨t, ht, hstands⟩
    · rw [not_or, Bool.not_eq_true, Bool.not_eq_true] at hsome
      obtain ⟨q1, hq1, hs1, hm1⟩ := (hd .one).init_eq_some h1
      obtain ⟨q2, hq2, hs2, hm2⟩ := (hd .two).init_eq_some h2
      rw [FlashPages.initFs, show p.c1.init = .ok q1 from hq1, ok_bind, show p.c2.init = .ok q2 from hq2, ok_bind, hs1.valid,
        hs2.valid, if_pos hsome] at hrun
      obtain ⟨r1, hr1, hrun⟩ := bind_eq_ok.mp hrun
      split at hrun
      · cases hrun
      · next hv1 =>
        obtain ⟨r2, hr2, hrun⟩ := bind_eq_ok.mp hrun
        split at hrun
        · cases hrun
        · next hv2 =>
          have hp1 : q1.fs.mem.plan = [] := by rw [hm1]; exact hplan .one
          have hp2 : q2.fs.mem.plan = [] := by rw [hm2]; exact hplan .two
          have hc1 := create_stands hp1 hh.inodes hh.size hh.checksum hs1.depicts hr1 (Bool.not_eq_false _ ▸ hv1)
          have hc2 := create_stands hp2 hh.inodes hh.size hh.checksum hs2.depicts hr2 (Bool.not_eq_false _ ▸ hv2)
          have hboth : StandsFor ⟨r1, r2⟩ { s with c1 := (d1.create true).2, c2 := (d2.create true).2 } := by
            intro side
            cases side with
            | one => exact hc1
            | two => exact hc2
          obtain ⟨q', hq, hstands⟩ := hboth.select (s := { s with c1 := (d1.create true).2, c2 := (d2.create true).2 }) rfl rfl
          rw [hq, ok_bind] at hrun
          obtain rfl := (Prod.mk.inj (Except.ok.inj hrun)).2
          rw [← hinit, State.initFs, h1, h2]
          dsimp only
          rw [State.choose]
          dsimp only
          rw [if_pos hsome]
          exact ⟨_, rfl, hstands⟩

end Selection

section Copies

variable [Config] {τ : Type} {sink : Sink τ} {capacity : ℕ} {s : Fs} {h : FileHandle}

-- what a target holds grows by what it takes
def Takes (sink : Sink τ) (content : τ → List UInt8) : Prop :=
  ∀ target data w, sink target data = .ok w → w.1 ≤ data.length ∧ content w.2 = content target ++ data.take w.1

omit [Config] in
theorem copyLoop_congr (written written' : ℕ → ℕ) (cap left : ℕ) {j : ℕ} (heq : ∀ k, j ≤ k → written k = written' k)
    (source : List UInt8) (g : Handle) : copyLoop cap written left j source g = copyLoop cap written' left j source g := by
  induction left generalizing j source g with
  | zero => rfl
  | succ left ih =>
    rw [copyLoop, copyLoop, heq j le_rfl]
    dsimp only
    rw [ih fun k hk => heq k (by omega)]

-- the copy of the model of the banks, for what the target takes in each round
def Follows (cap left j : ℕ) (source before after : List UInt8) (ok : Bool) : Prop :=
  ∀ g : Handle, g.file.content = before → ∃ written,
    (copyLoop cap written left j source g).1 = ok ∧ (copyLoop cap written left j source g).2.file.content = after

omit [Config] in
theorem Follows.refused {cap left j n : ℕ} {source before after : List UInt8} (hs : source ≠ [])
    (hn : n < (source.take cap).length) (ha : after = before ++ (source.take cap).take n) :
    Follows cap (left + 1) j source before after false := by
  rintro g rfl
  refine ⟨fun _ => n, ?_⟩
  have hmin : min n (source.take cap).length = n := by omega
  rw [copyLoop, if_neg hs]
  dsimp only
  rw [hmin, if_neg (by omega), ha]
  exact ⟨rfl, rfl⟩

omit [Config] in
theorem Follows.round {cap left j : ℕ} {source before after : List UInt8} {ok : Bool} (hs : source ≠ [])
    (hrest : Follows cap left (j + 1) (source.drop cap) (before ++ source.take cap) after ok) :
    Follows cap (left + 1) j source before after ok := by
  rintro g rfl
  obtain ⟨written, hok, hafter⟩ := hrest
    { file := { g.file with content := g.file.content ++ source.take cap }, modified := true } rfl
  refine ⟨Function.update written j (source.take cap).length, ?_⟩
  have hcongr := copyLoop_congr (Function.update written j (source.take cap).length) written cap left (j := j + 1) (fun k hk => Function.update_of_ne (by omega) _ _) (source.drop cap)
    { file := { g.file with content := g.file.content ++ source.take cap }, modified := true }
  rw [copyLoop, if_neg hs, Function.update_self]
  dsimp only
  rw [Nat.min_self, if_pos rfl, List.take_length, hcongr]
  exact ⟨hok, hafter⟩

theorem wp_copyLoop_follows (hps : 0 < s.header.pageSize) (hs : Source s h) (hcap : min h.inode.fileLen capacity < 2 ^ 31)
    (hpos : 0 < capacity) (hall : h.inode.fileLen ≤ (readableBytes s h).length) {content : τ → List UInt8}
    (htakes : Takes sink content) (fuel left : ℕ) (hleft : h.inode.fileLen - h.pos ≤ left) (j : ℕ) (target : τ) :
    wp (SimpleFlashFs.copyLoop sink capacity fuel h h.pos target) (fun r _ => Follows capacity left j
      (slice (readableBytes s h) h.pos (h.inode.fileLen - h.pos)) (content target) (content r.2) r.1) (fun _ _ => True) s := by
  induction fuel generalizing h target left j with
  | zero => trivial
  | succ fuel ih =>
    by_cases hlt : h.pos < h.inode.fileLen
    · obtain ⟨left, rfl⟩ : ∃ n, left = n + 1 := ⟨left - 1, by omega⟩
      have hne : slice (readableBytes s h) h.pos (h.inode.fileLen - h.pos) ≠ [] := by
        rw [← List.length_pos_iff, slice_length]
        omega
      have hchunk : (slice (readableBytes s h) h.pos (h.inode.fileLen - h.pos)).take capacity =
          slice (readableBytes s h) h.pos (min (h.inode.fileLen - h.pos) capacity) := by
        rw [slice, slice, List.take_take, Nat.min_comm]
      apply wp_copyLoop_round hps hs hcap hlt
      · exact fun _ _ => trivial
      · intro w hw
        obtain ⟨hle, hcontent⟩ := htakes _ _ _ hw
        constructor
        · intro hshort
          rw [← hchunk] at hle hshort hcontent
          exact .refused hne (by omega) hcontent
        · intro hfull
          rw [hfull, List.take_length, ← hchunk] at hcontent
          generalize hsize : min (h.inode.fileLen - h.pos) capacity = size at *
          have hlen : (slice (readableBytes s h) h.pos size).length = size := by
            rw [slice_length]
            omega
          have hdrop : (slice (readableBytes s h) h.pos (h.inode.fileLen - h.pos)).drop capacity =
              slice (readableBytes s h) (h.pos + size) (h.inode.fileLen - (h.pos + size)) := by
            rw [slice, slice, List.drop_take, List.drop_drop]
            by_cases hlast : h.inode.fileLen - h.pos ≤ capacity
            · rw [show h.inode.fileLen - h.pos - capacity = 0 by omega, show h.inode.fileLen - (h.pos + size) = 0 by omega,
                List.take_zero, List.take_zero]
            · rw [show size = capacity by omega, Nat.sub_sub]
          rw [hlen]
          have hnext := ih (hs.advance (show h.pos + size ≤ h.inode.fileLen by omega) (by omega)) hcap hall
            left (show h.inode.fileLen - (h.pos + size) ≤ left by omega) (j + 1) w.2
          apply wp_mono hnext
          · intro r u hr
            rw [hcontent] at hr
            apply Follows.round hne
            rw [hdrop]
            exact hr
          · exact fun _ _ h => h
    · rw [copyLoop_done hlt]
      rintro g hg
      refine ⟨fun _ => 0, ?_⟩
      have hzero : h.inode.fileLen - h.pos = 0 := by omega
      rw [hzero, slice_zero]
      cases left with
      | zero => exact ⟨rfl, hg⟩
      | succ left =>
        rw [copyLoop, if_pos rfl]
        exact ⟨rfl, hg⟩

-- a run of copy on the pages of a file of a bank is a run of copy in the model of the banks
theorem copy_follows {f : File} {g : Handle} {fuel : ℕ} {ok : Bool} {target target' : τ} {t : Fs}
    {content : τ → List UInt8} (hps : 0 < s.header.pageSize) (hs : Source s h) (hstart : h.pos = 0)
    (hf : f.content = (readableBytes s h).take h.inode.fileLen) (hall : f.content.length = h.inode.fileLen)
    (hcap : min h.inode.fileLen capacity < 2 ^ 31) (hpos : 0 < capacity) (htakes : Takes sink content)
    (hg : g.file.content = content target)
    (hrun : SimpleFlashFs.copy sink capacity fuel h target s = .ok (ok, target') t) :
    ∃ written, (copy capacity written f g).1 = ok ∧ (copy capacity written f g).2.file.content = content target' := by
  rw [hf, List.length_take] at hall
  have hwhole : h.inode.fileLen ≤ (readableBytes s h).length := by omega
  have hw := wp_copyLoop_follows hps hs hcap hpos hwhole htakes fuel f.content.length
    (by rw [hf, List.length_take]; omega) 0 target
  rw [hstart, Nat.sub_zero, slice, List.drop_zero, ← hf] at hw
  exact wp_ok hw hrun g hg

end Copies

section Files

variable [Config] {s t : Fs} {b : Bank} {i : ℕ} {name content : List UInt8}

theorem readableBytes_untouched (e : Untouched s t) (h : FileHandle) : readableBytes t h = readableBytes s h := by
  rw [readableBytes, readableBytes, e.header, pagesBytes_congr e.header fun m _ => e.pageAt m.pageId]

-- reading a record to its end
theorem ShowsBank.wp_read (hs : ShowsBank s b) (hi : i ∈ validPages s) (e : Untouched s t) :
    wp (SimpleFlashFs.read (rawAt s i) (rawAt s i).inode.fileLen) (fun r _ => r.1 = (fileAt s i).content) (fun _ _ => False) t := by
  obtain ⟨h, hdec, hm, -⟩ := hs.records i hi
  have hdec := decodeInode_uncorrected hdec hm
  have hstart : h.pos = 0 := (decodeInode_fresh hdec).pos
  have hpage : (pageAt s i).length = s.header.pageSize := ((crcValid_iff s i).mp (mem_validPages.mp hi).2).1
  have hps : 0 < t.header.pageSize := by
    rw [e.header, ← hpage]
    exact (decodeInode_fileLen hdec).1
  have hdec' : decodeInode t.header (pageAt s i) false = .ok h := by rwa [e.header]
  have hsource := source_of_decodeInode hdec' i
  rw [rawAt_of_decode hdec] at hsource
  have hpos : (rawAt s i).pos = 0 := by rw [← rawAt_of_decode hdec]; exact hstart
  apply wp_mono (wp_read_exact hps hsource (by rw [hpos, Nat.zero_add]))
  · rintro r u ⟨-, rfl⟩
    rw [hpos, slice, List.drop_zero, readableBytes_untouched e]
    rfl
  · exact fun _ _ h => h

end Files

section Recovery

variable [Config] {m : Memory} {b : Bank} {name : List UInt8} {a : Side} {n number : ℕ} {flash f : Flash}
  {mem mem' : Side → Memory} {pages : File → ℕ} {hd : Header}

end Recovery

-- the record of a file that has no data page
def recordOf (f : File) : Inode where
  inodeNumber := f.number
  fileNameLen := f.name.length
  fileName := f.name
  attributes := if f.special then attributeSpecial else 0
  fileLen := f.content.length
  inodeData := f.content

def note : File := { name := [97], content := [1, 2, 3], number := 7 }

-- what there is to compute of a bank on an image
def ShownAs [Config] (s : Fs) (b : Bank) : Prop :=
  (∀ i ∈ validPages s, (decodeInode s.header (pageAt s i) true).toOption.any
    (fun h => !h.modified && h.ids.all (· < noData)) = true) ∧
  (∀ i ∈ validPages s, ∀ j ∈ validPages s, numberAt s i = numberAt s j → versionAt s i = versionAt s j → i = j) ∧
  (∀ i < s.header.maxInodes, HalfWritten s i →
    (decodeInode s.header (pageAt s i) false).toOption.any (fun h => !h.modified) = true) ∧
  b.files = newestFiles s ∧ b.unreadable = false ∧ b.maxInodeNumber = largestNumber s (validPages s)

instance [Config] (s : Fs) (b : Bank) : Decidable (ShownAs s b) := inferInstanceAs (Decidable (_ ∧ _))

section Examples

theorem decoded_of_any [Config] {hd : Header} {page : List UInt8}
    (h : (decodeInode hd page true).toOption.any (fun h => !h.modified && h.ids.all (· < noData)) = true) :
    ∃ h, decodeInode hd page true = .ok h ∧ h.modified = false ∧ ∀ q ∈ h.ids, q < noData := by
  obtain ⟨h, hdec, htest⟩ := ok_of_any h
  obtain ⟨hm, hids⟩ := (Bool.and_eq_true _ _).mp htest
  exact ⟨h, hdec, by simpa using hm, fun q hq => of_decide_eq_true (List.all_eq_true.mp hids q hq)⟩

theorem decodedHalf_of_any [Config] {hd : Header} {page : List UInt8}
    (h : (decodeInode hd page false).toOption.any (fun h => !h.modified) = true) :
    ∃ h, decodeInode hd page false = .ok h ∧ h.modified = false := by
  obtain ⟨h, hdec, hm⟩ := ok_of_any h
  exact ⟨h, hdec, by simpa using hm⟩

theorem ShownAs.showsBank [Config] {s : Fs} {b : Bank} (h : ShownAs s b) (hcount : Countable s.header) : ShowsBank s b := by
  obtain ⟨hrecords, hdistinct, htorn, hfiles, hun, -⟩ := h
  refine ⟨hcount, fun i hi => decoded_of_any (hrecords i hi), hdistinct,
    fun i hi => Or.inr fun _ hhalf => decodedHalf_of_any (htorn i hi hhalf), fun f => by rw [hfiles], ?_⟩
  rw [hun]
  refine iff_of_false Bool.false_ne_true ?_
  rintro ⟨-, i, hi, hhalf, e, he⟩
  obtain ⟨h, hdec, -⟩ := decodedHalf_of_any (htorn i hi hhalf)
  dsimp only at he
  rw [hdec] at he
  cases he

end Examples

end SimpleFlashFs.TwoFace
