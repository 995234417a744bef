import SimpleFlashFs.ReadOnly

namespace SimpleFlashFs

open Lib

-- only the cursor and the list of the pages differ
structure Repaged (h h' : FileHandle) : Prop where
  eq : h' = { h with pos := h'.pos, inode := { h.inode with dataPages := h'.inode.dataPages } }

theorem Repaged.refl (h : FileHandle) : Repaged h h := ⟨rfl⟩

theorem Repaged.trans {h h1 h2 : FileHandle} (a : Repaged h h1) (b : Repaged h1 h2) : Repaged h h2 :=
  ⟨by rw [b.eq, a.eq]⟩

theorem Repaged.setPages (h : FileHandle) (l : List DataPage) : Repaged h (h.setPages l) := ⟨rfl⟩

theorem Repaged.advance (h : FileHandle) (len : ℕ) : Repaged h (h.advance len) := ⟨rfl⟩

theorem Repaged.modified {h h' : FileHandle} (a : Repaged h h') : h'.modified = h.modified := by
  rw [a.eq]

section Marks

variable [Config] {s : Fs} {h : FileHandle}

omit [Config] in
theorem wp_whenNeeded_repaged {needed : Bool} {call : FsM (Bool × FileHandle)}
    (hcall : wp call (fun r _ => Repaged h r.2) (fun _ _ => True) s) :
    wp (whenNeeded needed h call) (fun r _ => Repaged h r.2) (fun _ _ => True) s := by
  cases needed with
  | false => exact Repaged.refl h
  | true => exact hcall

omit [Config] in
theorem wp_allocateNewDataPages_repaged (idx : ℕ) :
    wp (allocateNewDataPages idx h) (fun r _ => Repaged h r.2) (fun _ _ => True) s := by
  rw [allocateNewDataPages]
  generalize idx + 1 - h.inode.countValidDataPages = fuel
  induction fuel generalizing h s with
  | zero => exact Repaged.refl h
  | succ fuel ih =>
    rw [allocateNewDataPagesLoop, wp_ite]
    constructor
    · intro _
      apply wp_bind_any
      intro page t
      cases page with
      | none => exact Repaged.refl h
      | some p => exact wp_mono ih (fun _ _ hr => (Repaged.setPages h _).trans hr) (fun _ _ h => h)
    · exact fun _ => Repaged.refl h

omit [Config] in
theorem wp_allocateNewDataPageAt_repaged (idx : ℕ) :
    wp (allocateNewDataPageAt idx h) (fun r _ => Repaged h r.2) (fun _ _ => True) s := by
  rw [allocateNewDataPageAt]
  apply wp_bind_any
  intro page t
  cases page with
  | none => exact Repaged.refl h
  | some p =>
    cases h.inode.dataPages[idx]? with
    | none => trivial
    | some old => exact Repaged.setPages h _

omit [Config] in
theorem wp_writePage_repaged (page : List UInt8) (idx : ℕ) :
    wp (writePage h page idx) (fun r _ => Repaged h r.2) (fun _ _ => True) s := by
  simp only [writePage, wp_bind, wp_get]
  cases h.inode.dataPages[idx]? with
  | none => trivial
  | some m =>
    dsimp only
    rw [wp_ite]
    constructor
    · intro _
      apply wp_bind_any
      intro done t
      cases done with
      | false => exact Repaged.refl h
      | true => exact Repaged.setPages h _
    · intro _
      apply wp_bind_any
      intro new t
      cases new with
      | none => exact Repaged.refl h
      | some p =>
        apply wp_bind_any
        intro done u
        cases done with
        | false => exact Repaged.refl h
        | true => exact Repaged.setPages h _

omit [Config] in
theorem wp_rewritePage_repaged (page : List UInt8) (idx : ℕ) :
    wp (rewritePage h page idx) (fun r _ => Repaged h r.2) (fun _ _ => True) s := by
  rw [rewritePage]
  cases h.inode.dataPages[idx]? with
  | none => trivial
  | some m =>
    dsimp only
    rw [wp_bind]
    apply wp_mono (wp_whenNeeded_repaged (wp_allocateNewDataPageAt_repaged idx))
    · intro r t hr
      rw [wp_ite]
      constructor
      · exact fun _ => wp_mono (wp_writePage_repaged page idx) (fun _ _ hw => hr.trans hw) (fun _ _ h => h)
      · exact fun _ => hr
    · exact fun _ _ h => h

theorem wp_writeUnaligned_repaged (data : List UInt8) (idx : ℕ) :
    wp (writeUnaligned h data idx) (fun r _ => Repaged h r.2) (fun _ _ => True) s := by
  simp only [writeUnaligned, wp_bind, wp_get]
  apply wp_mono (wp_whenNeeded_repaged (wp_allocateNewDataPages_repaged _))
  · intro r1 t h1
    rw [wp_ite]
    refine ⟨fun _ => h1, fun _ => ?_⟩
    rw [wp_bind]
    apply wp_mono (wp_whenNeeded_repaged (wp_allocateNewDataPages_repaged _))
    · intro r2 u h2
      rw [wp_ite]
      refine ⟨fun _ => h1.trans h2, fun _ => ?_⟩
      cases r2.2.inode.dataPages[idx]? with
      | none => trivial
      | some m =>
        simp only [wp_bind, wp_get]
        rw [wp_ite]
        refine ⟨fun _ => h1.trans h2, fun _ => ?_⟩
        rw [wp_bind]
        apply wp_mono (wp_rewritePage_repaged _ _)
        · intro r3 v h3
          rw [wp_ite]
          constructor
          · exact fun _ => ((h1.trans h2).trans h3).trans (Repaged.advance _ _)
          · exact fun _ => (h1.trans h2).trans h3
        · exact fun _ _ h => h
    · exact fun _ _ h => h
  · exact fun _ _ h => h

-- a loop that stops had something left to write
theorem wp_writeLoop_repaged (fuel : ℕ) (data : List UInt8) (written : ℕ) :
    wp (writeLoop fuel h data written)
      (fun r _ => Repaged h r.2 ∧ (r.1 = none → written < data.length)) (fun _ _ => True) s := by
  induction fuel generalizing h s written with
  | zero =>
    rw [writeLoop, wp_ite]
    exact ⟨fun _ => trivial, fun _ => ⟨Repaged.refl h, by simp⟩⟩
  | succ fuel ih =>
    rw [writeLoop, wp_ite]
    constructor
    · intro hlt
      have hnext : ∀ {k : FileHandle} {t : Fs} (len : ℕ), Repaged h k →
          wp (writeLoop fuel (k.advance len) data (written + len))
            (fun r _ => Repaged h r.2 ∧ (r.1 = none → written < data.length)) (fun _ _ => True) t :=
        fun len hk => wp_mono (ih _) (fun _ _ hr => ⟨(hk.trans (Repaged.advance _ len)).trans hr.1, fun _ => hlt⟩)
          (fun _ _ h => h)
      simp only [wp_bind, wp_get]
      apply wp_mono (wp_allocateNewDataPages_repaged _)
      · intro r1 t h1
        rw [wp_ite]
        refine ⟨fun _ => ⟨h1, fun _ => hlt⟩, fun _ => ?_⟩
        cases r1.2.inode.dataPages[h.pos / s.header.pageSize]? with
        | none => trivial
        | some m =>
          dsimp only
          rw [wp_ite]
          constructor
          · intro _
            simp only [wp_bind, wp_get]
            rw [wp_ite]
            refine ⟨fun _ => ⟨h1, fun _ => hlt⟩, fun _ => ?_⟩
            rw [wp_bind]
            apply wp_mono (wp_rewritePage_repaged _ _)
            · intro r2 u h2
              rw [wp_ite]
              exact ⟨fun _ => hnext _ (h1.trans h2), fun _ => ⟨h1.trans h2, fun _ => hlt⟩⟩
            · exact fun _ _ h => h
          · intro _
            rw [wp_bind]
            apply wp_mono (wp_writePage_repaged _ _)
            · intro r2 u h2
              rw [wp_ite]
              exact ⟨fun _ => hnext _ (h1.trans h2), fun _ => ⟨h1.trans h2, fun _ => hlt⟩⟩
            · exact fun _ _ h => h
      · exact fun _ _ h => h
    · exact fun _ => ⟨Repaged.refl h, by simp⟩

-- a handle stays marked as modified
def Marks (h h' : FileHandle) : Prop := h.modified = true → h'.modified = true

omit [Config] in
theorem Repaged.marks {h h' : FileHandle} (a : Repaged h h') : Marks h h' := fun hm => a.modified.trans hm

theorem wp_writeRest_marks {k : FileHandle} (hk : Repaged h k) (data : List UInt8) (written already : ℕ) :
    wp (writeLoop data.length k data written >>= fun r => match r with
      | (none, file) => pure (0, file)
      | (some written, file) => pure (written + already, { file with
          modified := true, inode := { file.inode with fileLen := max file.pos file.inode.fileLen } }))
      (fun r _ => Marks h r.2 ∧ (r.1 = data.length + already → r.2.modified = true)) (fun _ _ => True) s := by
  rw [wp_bind]
  apply wp_mono (wp_writeLoop_repaged _ _ _)
  · rintro ⟨n, k'⟩ u ⟨hk', hlt⟩
    cases n with
    | none =>
      have hlt := hlt rfl
      exact ⟨(hk.trans hk').marks, fun he => absurd he (by dsimp only; omega)⟩
    | some n => exact ⟨fun _ => rfl, fun _ => rfl⟩
  · exact fun _ _ h => h

theorem wp_writePages_marks (data : List UInt8) (idx already : ℕ) :
    wp (writePages h data idx already)
      (fun r _ => Marks h r.2 ∧
        (h.pos % s.header.pageSize = 0 → r.1 = data.length + already → r.2.modified = true)) (fun _ _ => True) s := by
  simp only [writePages, writeFirst, wp_bind, wp_get]
  rw [wp_ite]
  constructor
  · intro hpos
    apply wp_mono (wp_writeUnaligned_repaged data idx)
    · rintro ⟨n, k⟩ t hk
      cases n with
      | none => exact ⟨hk.marks, fun he => absurd he hpos⟩
      | some n =>
        exact wp_mono (wp_writeRest_marks hk data n already) (fun _ _ hr => ⟨hr.1, fun _ => hr.2⟩) (fun _ _ h => h)
    · exact fun _ _ h => h
  · intro _
    rw [wp_pure]
    exact wp_mono (wp_writeRest_marks (Repaged.refl h) data 0 already) (fun _ _ hr => ⟨hr.1, fun _ => hr.2⟩) (fun _ _ h => h)

theorem wp_writeWith_marks {again : FileHandle → List UInt8 → FsM (ℕ × FileHandle)}
    (hagain : ∀ k d t, wp (again k d) (fun r _ => Marks k r.2) (fun _ _ => True) t) (data : List UInt8) :
    wp (writeWith again h data)
      (fun r _ => Marks h r.2 ∧ (h.pos = 0 → h.inode.inodeData = [] → r.1 = data.length → r.2.modified = true))
      (fun _ _ => True) s := by
  simp only [writeWith, wp_bind, wp_get]
  rw [wp_ite]
  constructor
  · intro _
    rw [writeInline]
    apply wp_bind_any
    exact fun _ _ => ⟨fun _ => rfl, fun _ _ _ => rfl⟩
  · intro _
    rw [wp_ite]
    constructor
    · intro hinline
      have hnot : h.inode.inodeData ≠ [] := fun he => hinline (by rw [he]; rfl)
      have hmark : wp (migrateInline again h data (h.pos / s.header.pageSize)) (fun r _ => r.2.modified = true)
          (fun _ _ => True) s := by
        simp only [migrateInline, wp_bind, wp_get]
        rw [wp_ite]
        refine ⟨fun _ => trivial, fun _ => ?_⟩
        rw [wp_bind]
        apply wp_mono (hagain _ _ _)
        · intro r t hr
          have hr := hr rfl
          rw [wp_ite]
          refine ⟨fun _ => hr, fun _ => ?_⟩
          rw [wp_ite]
          exact ⟨fun _ => hr, fun _ => wp_mono (wp_writePages_marks _ _ _) (fun _ _ hw => hw.1 hr) (fun _ _ h => h)⟩
        · exact fun _ _ h => h
      exact wp_mono hmark (fun _ _ hr => ⟨fun _ => hr, fun _ he => absurd he hnot⟩) (fun _ _ h => h)
    · intro _
      apply wp_mono (wp_writePages_marks _ _ _)
      · intro r t hr
        exact ⟨hr.1, fun hpos _ hlen => hr.2 (by rw [hpos, Nat.zero_mod]) (by rw [hlen, Nat.add_zero])⟩
      · exact fun _ _ h => h

-- a write marks the handle, and one at the start of an empty file that is done does
theorem wp_write_marks (data : List UInt8) :
    wp (write h data)
      (fun r _ => Marks h r.2 ∧
        (h.append = false → h.pos = 0 → h.inode.inodeData = [] → r.1 = data.length → r.2.modified = true))
      (fun _ _ => True) s := by
  have hfs : ∀ k t, wp (writeFs k data)
      (fun r _ => Marks k r.2 ∧ (k.pos = 0 → k.inode.inodeData = [] → r.1 = data.length → r.2.modified = true))
      (fun _ _ => True) t := by
    intro k t
    have hnever : ∀ k d t, wp ((fun _ _ => throw .diverges : FileHandle → List UInt8 → FsM (ℕ × FileHandle)) k d)
        (fun r _ => Marks k r.2) (fun _ _ => True) t := fun _ _ _ => trivial
    apply wp_writeWith_marks
    intro k d t
    apply wp_mono (wp_writeWith_marks hnever d)
    · exact fun _ _ hr => hr.1
    · exact fun _ _ h => h
  rw [write, wp_bind]
  cases ha : h.append with
  | false =>
    rw [whenNeeded, if_neg (by simp), wp_pure, wp_ite]
    refine ⟨fun _ => ?_, fun _ => trivial⟩
    apply wp_mono (hfs h s)
    · exact fun _ _ hr => ⟨hr.1, fun _ => hr.2⟩
    · exact fun _ _ h => h
  | true =>
    rw [whenNeeded, if_pos rfl, seek, if_pos le_rfl, wp_pure, wp_ite]
    refine ⟨fun _ => ?_, fun _ => trivial⟩
    apply wp_mono (hfs _ s)
    · exact fun _ _ hr => ⟨hr.1, by simp⟩
    · exact fun _ _ h => h

end Marks

section Law

variable [Config] {s t u : Fs} {h k : FileHandle} {live : List FileHandle} {name : List UInt8}

-- a found file is the record at its page
def FoundAt (t : Fs) (h : FileHandle) : Prop :=
  h.connected = true → ∃ reader k, Reads reader ∧ (reader t h.page).error = none ∧
    decodeInode t.header (reader t h.page).page true = .ok k ∧ h = { k with page := h.page }

theorem wp_findVersion_found {reader : Fs → ℕ → ReadPageReturn} (hrd : Reads reader) (name : List UInt8)
    (ivs : List InodeVersion) :
    wp (findVersion reader name ivs) (fun h t => FoundAt t h) (fun _ _ => True) s := by
  induction ivs generalizing s with
  | nil => exact nofun
  | cons iv rest ih =>
    have hany : ∀ {k : FileHandle}, wp (closeHandle k >>= fun _ => findVersion reader name rest)
        (fun h t => FoundAt t h) (fun _ _ => True) s := by
      intro k
      rw [wp_bind]
      exact wp_run (fun _ t _ => ih) (fun _ _ _ => trivial)
    simp only [findVersion, wp_bind, wp_get]
    rw [wp_ite]
    refine ⟨fun hok => ?_, fun _ => ih⟩
    simp only [getInode, wp_bind, wp_get]
    cases hdec : decodeInode s.header (reader s iv.page).page true with
    | error e => trivial
    | ok k =>
      simp only [liftFault, wp_pure]
      rw [wp_ite]
      refine ⟨fun _ => hany, fun _ => ?_⟩
      rw [wp_ite]
      exact ⟨fun _ _ => ⟨reader, k, hrd, hok, hdec, rfl⟩, fun _ => hany⟩

theorem wp_findFile_found (name : List UInt8) :
    wp (findFile name) (fun h t => FoundAt t h) (fun _ _ => True) s := by
  have hwith : ∀ {reader : Fs → ℕ → ReadPageReturn}, Reads reader →
      wp (findFileWith reader name) (fun h t => FoundAt t h) (fun _ _ => True) s := by
    intro reader hrd
    simp only [findFileWith, clearIvStorage, wp_bind, wp_modify, wp_get]
    exact wp_run (fun _ t _ => wp_findVersion_found hrd name _) (fun _ _ _ => trivial)
  simp only [findFile, wp_bind, wp_get]
  rw [wp_ite]
  exact ⟨fun _ => hwith reads_mapped, fun _ => hwith reads_unmapped⟩

theorem FoundAt.number (hf : FoundAt s h) (hc : h.connected = true) (hs : Sound s live) (hi : Valid s h.page) :
    numberAt s h.page = h.inode.inodeNumber := by
  obtain ⟨reader, k, hrd, -, hdec, he⟩ := hf hc
  obtain ⟨inode, hst, hn⟩ := hs.flash.stored _ hi
  rw [hrd s h.page hs.ready.layout hi.1, readPage_of_valid hs.ready.layout.toGeometry hi, hst.decode hn] at hdec
  rw [(hst.record hn).1, he, ← Except.ok.inj hdec]
  exact (decoded_record s.header true inode).1.symm

omit [Config] in
theorem SameInodes.trans (a : SameInodes s t) (b : SameInodes t u) : SameInodes s u := by
  refine ⟨b.header.trans a.header, fun i hi => ?_⟩
  rw [b.pages i (by rwa [a.header]), a.pages i hi]

omit [Config] in
theorem SameInodes.number (a : SameInodes s t) {i : ℕ} (hi : i < s.header.maxInodes) :
    numberAt t i = numberAt s i := by
  rw [numberAt, numberAt, rawAt_congr a.header (a.pages i hi)]

-- a version of the inode n
def VersionAt (s : Fs) (n i : ℕ) : Prop := Valid s i ∧ numberAt s i = n

def OneVersion (s : Fs) (n : ℕ) : Prop := ∃! i, VersionAt s n i

theorem SameInodes.versionAt (a : SameInodes s t) {n i : ℕ} : VersionAt t n i ↔ VersionAt s n i := by
  unfold VersionAt
  rw [a.valid]
  exact and_congr_right fun hi => by rw [a.number hi.1]

theorem Moved.versionAt_self {p : ℕ} (hm : Moved s h p t) (hn : h.inode.fileNameLen < 2 ^ 16)
    (hlt : h.inode.inodeNumber < 2 ^ 64) : VersionAt t h.inode.inodeNumber p := by
  refine ⟨⟨?_, hm.stores.checksumOk⟩, ?_⟩
  · rw [hm.header]
    exact hm.claimable.1
  · rw [(hm.stores.record hn).1]
    exact Nat.mod_eq_of_lt hlt

theorem Moved.versionAt {p n i : ℕ} (hm : Moved s h p t) (hi : VersionAt s n i) (hne : i ≠ h.page) :
    VersionAt t n i := by
  have hpage := hm.valid_pageAt hi.1 hne
  refine ⟨(valid_congr hm.header hpage).mpr hi.1, ?_⟩
  rw [numberAt, rawAt_congr hm.header hpage]
  exact hi.2

theorem number_lt (hs : Sound s live) {n i : ℕ} (hi : VersionAt s n i) : n < 2 ^ 64 := by
  obtain ⟨inode, hst, hn⟩ := hs.flash.stored i hi.1
  rw [← hi.2, (hst.record hn).1]
  exact Nat.mod_lt _ (by decide)

-- closing a handle leaves a version of its inode
theorem Sound.closed_version (hs : Sound s (h :: live)) (hv : s.variant ≠ .noDel) (hn : h.inode.inodeNumber ≠ 0)
    (hi : VersionAt s h.inode.inodeNumber h.page) (hc : Closed s h t) :
    ∃ i, VersionAt t h.inode.inodeNumber i := by
  unfold Closed at hc
  split at hc
  · obtain ⟨w, r, hf, ht⟩ := hc
    have hback : ∀ i, VersionAt w h.inode.inodeNumber i → ∃ i, VersionAt t h.inode.inodeNumber i :=
      fun i hw => ⟨i, ht.sameInodes.versionAt.mpr hw⟩
    cases hf with
    | unmodified => exact hback _ hi
    | first hm hn' => exact absurd hn' hn
    | full hm hn' _ htake =>
      apply hback h.page
      rw [htake.rest]
      exact hi
    | next hm hn' p w' v _ htake hcom he =>
      obtain ⟨p', hm', -⟩ := hs.flushed_next hv hm hn (.next hm hn' p w' v w htake hcom he) rfl
      exact hback p' (hm'.versionAt_self hs.head.name (number_lt hs hi))
  · exact ⟨h.page, by rwa [hc]⟩

-- the handle of open with trunc beside the version that it leaves
structure Truncated (t : Fs) (live : List FileHandle) (n : ℕ) (k : FileHandle) : Prop where
  sound : Sound t (k :: live)
  number : k.inode.inodeNumber = n
  version : ∃ i, VersionAt t n i ∧ i ≠ k.page

structure EmptyHandle (k : FileHandle) : Prop where
  append : k.append = false
  pos : k.pos = 0
  inodeData : k.inode.inodeData = []
  modified : k.modified = false

theorem wp_openTrunc_truncated (hs : Sound s (h :: live)) (hv : s.variant ≠ .noDel) (hn : h.inode.inodeNumber ≠ 0)
    (hi : VersionAt s h.inode.inodeNumber h.page) (hst : ∀ m ∈ h.inode.dataPages, m.state ≠ .deleted) :
    wp (openTrunc h)
      (fun k t => k.connected = true →
        Truncated t live h.inode.inodeNumber k ∧ t.variant = s.variant ∧ EmptyHandle k)
      (fun _ _ => True) s := by
  have hversion : wp (openTrunc h) (fun k t => k.connected = true →
      EmptyHandle k ∧ ∃ i, VersionAt t h.inode.inodeNumber i) (fun _ _ => True) s := by
    rw [openTrunc, wp_bind]
    apply wp_mono (wp_allocateFreeInodePage hs.ready (R := fun _ _ => True) fun _ => trivial)
    · rintro k u ⟨i, rfl, hu⟩
      rw [wp_ite]
      cases i with
      | none => exact ⟨fun _ => wp_bind_any fun _ _ => by simp, fun hc => absurd (by simp [FileHandle.ofPage]) hc⟩
      | some i =>
        refine ⟨fun hc => absurd rfl hc, fun _ => ?_⟩
        have hsu := (hs.claimed hu (h := FileHandle.ofPage (some i)) rfl rfl (Nat.two_pow_pos 16)).perm (List.Perm.swap _ _ _)
        have hiu : VersionAt u h.inode.inodeNumber h.page := by
          rw [hu.rest]
          exact hi
        rw [wp_bind]
        apply wp_mono (wp_closeHandle hsu.ready hsu.head.toOwns hsu.head.page)
        · exact fun _ t hc _ => ⟨⟨rfl, rfl, rfl, rfl⟩, hsu.closed_version (by rwa [hu.keeps.variant]) hn hiu hc⟩
        · exact fun _ _ _ => trivial
    · exact fun _ _ _ => trivial
  apply wp_mono (wp_and (wp_openTrunc_keeps hs hv hn hst) hversion)
  · rintro k t ⟨hk, hver⟩ hc
    obtain ⟨hst, -, hinv, hkeeps, hnum, -⟩ := hk hc
    obtain ⟨hempty, i, hi⟩ := hver hc
    refine ⟨⟨hst, hnum, i, hi, ?_⟩, hkeeps.variant, hempty⟩
    rintro rfl
    exact hinv hi.1
  · exact fun _ _ _ => trivial

-- every write returns the length of its data
def writeAll : FileHandle → List (List UInt8) → FsM (Bool × FileHandle)
  | k, [] => pure (true, k)
  | k, data :: ws => do
    let r ← write k data
    if r.1 = data.length then writeAll r.2 ws else pure (false, r.2)

theorem Truncated.dataEffect {n : ℕ} (a : Truncated s live n h) (e : DataEffect s h t k) : Truncated t live n k := by
  have hsame := e.sameInodes a.sound.ready a.sound.head.toOwns
  obtain ⟨i, hi, hne⟩ := a.version
  refine ⟨a.sound.dataEffect e, e.same.inodeNumber.trans a.number, i, hsame.versionAt.mpr hi, ?_⟩
  rwa [e.same.page]

theorem wp_writeAll_truncated {n : ℕ} (ws : List (List UInt8)) (a : Truncated s live n h) :
    wp (writeAll h ws)
      (fun r t => Truncated t live n r.2 ∧ t.variant = s.variant ∧ Marks h r.2 ∧
        (EmptyHandle h → ws ≠ [] → r.1 = true → r.2.modified = true)) (fun _ _ => True) s := by
  induction ws generalizing h s with
  | nil => exact ⟨a, rfl, id, fun _ h => absurd rfl h⟩
  | cons data ws ih =>
    rw [writeAll, wp_bind]
    apply wp_mono (wp_and (safe_write data |>.wp a.sound.ready a.sound.head.toOwns) (wp_write_marks data))
    · rintro r t ⟨he, hmarks, hfirst⟩
      rw [wp_ite]
      constructor
      · intro hlen
        apply wp_mono (ih (a.dataEffect he))
        · rintro r' u ⟨h1, h2, h3, -⟩
          exact ⟨h1, h2.trans he.keeps.variant, fun hm => h3 (hmarks hm),
            fun hempty _ _ => h3 (hfirst hempty.append hempty.pos hempty.inodeData hlen)⟩
        · exact fun _ _ h => h
      · exact fun _ => ⟨a.dataEffect he, he.keeps.variant, hmarks, fun _ _ hr => absurd hr (by simp)⟩
    · exact fun _ _ _ => trivial

-- the old version stays beside the one that the flush writes
theorem Truncated.flushed {n : ℕ} (a : Truncated s live n h) (hv : s.variant ≠ .noDel) (hn : n ≠ 0)
    (hm : h.modified = true) {r : Bool × FileHandle} (hf : Flushed s h t r) (hok : r.1 = true) :
    ¬ OneVersion t n := by
  obtain ⟨i, hi, hne⟩ := a.version
  obtain ⟨p, hm', -⟩ := a.sound.flushed_next hv hm (by rwa [a.number]) hf hok
  have hnew := hm'.versionAt_self a.sound.head.name (by rw [a.number]; exact number_lt a.sound hi)
  rw [a.number] at hnew
  intro hone
  have hip := hone.unique (hm'.versionAt hi hne) hnew
  rw [hip] at hi
  exact hm'.claimable.2.1 hi.1

-- a flush that was done, or the close with it
def Ended (k : FileHandle) (s t : Fs) : Prop :=
  ∃ r u, flush k s = .ok (true, r) u ∧ (t = u ∨ closeHandle k s = .ok () t)

-- a file is opened with out and trunc, written and flushed or closed
def TruncRun (s0 : Fs) (name : List UInt8) (ws : List (List UInt8)) (v : Fs) : Prop :=
  ∃ k t r u, openFile name { out := true, trunc := true } s0 = .ok k t ∧ writeAll k ws t = .ok (true, r) u ∧
    Ended r u v

-- open with in finds a file of that content
def FindsContent (s : Fs) (name content : List UInt8) : Prop :=
  ∃ k t r u, openFile name { in_ := true } s = .ok k t ∧ k.connected = true ∧
    k.inode.fileLen = content.length ∧ read k content.length t = .ok (content, r) u

def TruncLaw (s : Fs) (name : List UInt8) (n : ℕ) (ws : List (List UInt8)) : Prop :=
  FindsContent s name ws.flatten ∧ OneVersion s n

theorem SameInodes.oneVersion (a : SameInodes s t) {n : ℕ} : OneVersion t n ↔ OneVersion s n := by
  unfold OneVersion
  simp only [a.versionAt]

omit [Config] in
theorem Untouched.sameInodes (a : Untouched s t) : SameInodes s t :=
  ⟨a.header, fun i _ => by rw [pageAt, pageAt, a.mem, a.header]⟩

theorem flush_connected {r : Bool × FileHandle} (hf : flush k s = .ok r t) : k.connected = true := by
  by_contra hc
  rw [flush, if_pos hc] at hf
  cases hf

theorem closeHandle_of_flush {r : Bool × FileHandle} (hf : flush k s = .ok r u) (hc : closeHandle k s = .ok () t) :
    Untouched u t := by
  rw [closeHandle, if_pos (flush_connected hf)] at hc
  simp only [bind, EStateM.bind, hf] at hc
  have hw : wp (freeUnwrittenPages r.2.page >>= fun _ =>
      each (fun p : DataPage => freeUnwrittenPages p.pageId) r.2.inode.dataPages) (fun _ t => Untouched u t)
      (fun _ _ => True) u := by
    rw [wp_bind, freeUnwrittenPages, wp_modify]
    apply wp_mono (wp_freePages_untouched r.2.inode.dataPages _)
    · exact fun _ _ hu => ⟨hu.1.mem, hu.1.header, hu.1.variant⟩
    · exact fun _ _ h => h
  exact wp_ok (a := ()) (t := t) hw hc

theorem Truncated.ended {n : ℕ} (a : Truncated s live n h) (hv : s.variant ≠ .noDel) (hn : n ≠ 0)
    (hm : h.modified = true) (he : Ended h s t) : ¬ OneVersion t n := by
  obtain ⟨r, u, hf, ht⟩ := he
  have hflushed := wp_ok (wp_flush a.sound.ready a.sound.head.toOwns a.sound.head.page) hf
  have hno := a.flushed hv hn hm hflushed rfl
  rcases ht with rfl | hclose
  · exact hno
  · rwa [(closeHandle_of_flush hf hclose).sameInodes.oneVersion]

theorem openTrunc_unmodified (hm : h.modified = false) (hr : Ready s) :
    wp (openTrunc h) (fun k t => Untouched s t ∧ k.modified = false) (fun _ _ => True) s := by
  rw [openTrunc, wp_bind]
  apply wp_mono (wp_allocateFreeInodePage hr (R := fun _ _ => True) fun _ => trivial)
  · rintro k u ⟨i, rfl, hu⟩
    have hsame : Untouched s u := by
      rw [hu.rest]
      exact ⟨rfl, rfl, rfl⟩
    rw [wp_ite]
    constructor <;> intro _
    all_goals
      rw [wp_bind]
      apply wp_mono (wp_closeHandle_quiet hm _)
      · exact fun _ _ ht => ⟨hsame.trans ht.1.toUntouched, by cases i <;> rfl⟩
      · exact fun _ _ h => h
  · exact fun _ _ h => h

theorem Ended.untouched (hm : k.modified = false) (he : Ended k s t) : Untouched s t := by
  obtain ⟨r, u, hf, ht⟩ := he
  have hc := flush_connected hf
  have hu : u = s := by
    rw [flush, if_neg (by simp [hc]), if_pos (by simp [hm])] at hf
    cases hf
    rfl
  subst hu
  rcases ht with rfl | hclose
  · exact Untouched.refl _
  · exact closeHandle_of_flush hf hclose

theorem findsContent_quiet (hq : Quiet s) (hl : lookup s name = .ok h) (hc : h.connected = true) :
    FindsContent s name [] ↔ h.inode.fileLen = 0 := by
  have hopen := wp_openIn_quiet hq name
  constructor
  · rintro ⟨k, t, r, u, hk, -, hlen, -⟩
    have hk' := wp_ok hopen hk
    rw [hl] at hk'
    rw [Except.ok.inj hk'.2.1]
    exact hlen
  · intro hlen
    cases ho : openFile name { in_ := true } s with
    | error e t =>
      have he := wp_error hopen ho
      rw [hl] at he
      cases he.2
    | ok k t =>
      have hk := (wp_ok hopen ho).2.1
      rw [hl] at hk
      have hk := Except.ok.inj hk
      subst hk
      refine ⟨h, t, h, t, ho, hc, hlen, ?_⟩
      have hzero : (if subU64 h.inode.fileLen h.pos < 0 then subU64 h.inode.fileLen h.pos else 0) = 0 :=
        if_neg (Nat.not_lt_zero _)
      have hget : (get : FsM Fs) t = .ok t t := rfl
      simp only [read, hc, if_true, readFs, List.length_nil, bind, EStateM.bind, hget, hzero, pure, EStateM.pure]

theorem openTrunc_law {s0 v : Fs} {ws : List (List UInt8)} (hs : Sound s (h :: live)) (hv : s.variant = .dynamic)
    (hfind : findFile name s0 = .ok h s) (hc : h.connected = true) (hn : h.inode.inodeNumber ≠ 0)
    (hrun : TruncRun s0 name ws v) :
    (ws ≠ [] → ¬ TruncLaw v name h.inode.inodeNumber ws) ∧
      (Quiet s0 → (TruncLaw v name h.inode.inodeNumber ws ↔
        ws = [] ∧ h.inode.fileLen = 0 ∧ OneVersion s0 h.inode.inodeNumber)) := by
  have hv' : s.variant ≠ .noDel := by
    rw [hv]
    simp
  have hfound : FoundAt s h := wp_ok (Q := fun h t => FoundAt t h) (wp_findFile_found name) hfind
  have hi : Valid s h.page := by
    by_contra hno
    obtain ⟨reader, k, hrd, hok, -⟩ := hfound hc
    rw [hrd s h.page hs.ready.layout hs.head.page,
      readPage_of_not_valid hs.ready.layout.toGeometry hs.head.page hno] at hok
    cases hok
  have hversion : VersionAt s h.inode.inodeNumber h.page := ⟨hi, hfound.number hc hs hi⟩
  have hst : ∀ m ∈ h.inode.dataPages, m.state ≠ .deleted := by
    intro m hm hdel
    have hfresh := wp_ok (Q := fun h _ => FreshHandle h) (wp_findFile_fresh name) hfind
    rw [hfresh.states m hm] at hdel
    cases hdel
  have hopen : openFile name { out := true, trunc := true } s0 = openTrunc h s := by
    simp only [openFile, bind, EStateM.bind, hfind, hc, not_true_eq_false, if_false, if_true]
  obtain ⟨k, t, r, u, hk, hwrites, hended⟩ := hrun
  rw [hopen] at hk
  have hwritten : ws ≠ [] → ¬ OneVersion v h.inode.inodeNumber := by
    intro hws
    have hkc : k.connected = true := by
      by_contra hkc
      cases ws with
      | nil => exact hws rfl
      | cons data ws =>
        have hw : wp (writeAll k (data :: ws)) (fun _ _ => False) (fun _ _ => True) t := by
          rw [writeAll, wp_bind]
          exact wp_mono (wp_write_closed hkc data) (fun _ _ h => h.elim) (fun _ _ h => h)
        exact wp_ok hw hwrites
    obtain ⟨htrunc, hvt, hempty⟩ := wp_ok (wp_openTrunc_truncated hs hv' hn hversion hst) hk hkc
    obtain ⟨hu, hvu, -, hmod⟩ := wp_ok (wp_writeAll_truncated ws htrunc) hwrites
    exact hu.ended (by rwa [hvu, hvt]) hn (hmod hempty hws rfl) hended
  refine ⟨fun hws hlaw => hwritten hws hlaw.2, fun hq => ?_⟩
  cases ws with
  | cons data ws => exact ⟨fun hlaw => absurd hlaw.2 (hwritten (by simp)), fun hlaw => by cases hlaw.1⟩
  | nil =>
    cases hwrites
    obtain ⟨hs0, hl⟩ := wp_ok (wp_findFile_quiet hq name) hfind
    obtain ⟨hst, hkm⟩ := wp_ok (openTrunc_unmodified (hq.lookup_unmodified hl).1 hs.ready) hk
    have hsame := (hs0.toUntouched.trans hst).trans (hended.untouched hkm)
    have hreads := findsContent_quiet (hq.of_untouched hsame) (by rw [hsame.lookup, hl]) hc
    rw [TruncLaw, hsame.sameInodes.oneVersion]
    exact ⟨fun hlaw => ⟨rfl, hreads.mp hlaw.1, hlaw.2⟩, fun hlaw => ⟨hreads.mpr hlaw.2.1, hlaw.2.2⟩⟩

end Law

section Rule

variable [Config] {s : Fs} {h : FileHandle} {live : List FileHandle}

theorem Sound.remember (hs : Sound s live) (ivs : List InodeVersion) : Sound { s with ivStorage := ivs } live where
  ready := ⟨hs.ready.layout.of_eq rfl rfl, hs.ready.noShort, hs.ready.freeWF, hs.ready.allocatedWF, hs.ready.range,
    hs.ready.free⟩
  erased := hs.erased
  flash := ⟨hs.flash.stored, hs.flash.region, hs.flash.nodup, hs.flash.apart⟩
  notFree := hs.notFree
  handles := fun h hh => by
    have hl := hs.handles h hh
    exact ⟨⟨hl.nodup, hl.region, hl.notFree⟩, hl.page, hl.name, hl.held, hl.apart⟩
  live_apart := hs.live_apart

-- the invariant along a lookup
structure Steady (hd : Header) (s : Fs) (live : List FileHandle) : Prop where
  sound : Sound s live
  header : s.header = hd
  variant : s.variant = .dynamic

theorem steady_rule (hd : Header) : LookupRule hd (fun s => Steady hd s []) (fun s h => Steady hd s [h])
    (fun _ _ => True) where
  header _ a := a.header
  layout _ a := a.sound.ready.layout
  versions _ ivs a := ⟨a.sound.remember ivs, a.header, a.variant⟩
  handle _ _ ivs a := ⟨a.sound.remember ivs, a.header, a.variant⟩
  decode s i corr a hi := by
    obtain ⟨h, hdec, -, hs⟩ := a.sound.decode hi (by simp) corr
    exact ⟨h, hdec, hs, a.header, a.variant⟩
  close s h a := by
    apply wp_mono (wp_closeHandle a.sound.ready a.sound.head.toOwns a.sound.head.page)
    · intro _ t hc
      have hv : s.variant ≠ .noDel := by
        rw [a.variant]
        simp
      exact ⟨⟨a.sound.closed hv hc, hc.keeps.header.trans a.header, hc.keeps.variant.trans a.variant⟩,
        hc.keeps.ivStorage⟩
    · exact fun _ _ _ => trivial

theorem wp_findFile_steady {hd : Header} (a : Steady hd s []) (name : List UInt8) :
    wp (findFile name) (fun h t => h.connected = true → Steady hd t [h]) (fun _ _ => True) s := by
  apply wp_mono ((steady_rule hd).wp_findFile name a)
  · rintro h t (⟨rfl, -⟩ | ⟨-, -, hst⟩)
    · exact nofun
    · exact fun _ => hst
  · exact fun _ _ h => h

end Rule

def truncRun (s : Fs) (ws : List (List UInt8)) (found : Fs → Bool) : Bool :=
  match @openFile dynamicConfig [97] { out := true, trunc := true } s with
  | .ok k t =>
    match @writeAll dynamicConfig k ws t with
    | .ok (true, r) u =>
      match @flush dynamicConfig r u with
      | .ok (true, _) v => found v
      | _ => false
    | _ => false
  | _ => false

theorem truncRun_spec {s : Fs} {ws : List (List UInt8)} {found : Fs → Bool} (hr : truncRun s ws found = true) :
    ∃ v, @TruncRun dynamicConfig s [97] ws v ∧ found v = true := by
  rw [truncRun] at hr
  split at hr
  · next k t hk =>
    split at hr
    · next r u hu =>
      split at hr
      · next r' v hv => exact ⟨v, ⟨k, t, r, u, hk, hu, r', v, hv, Or.inl rfl⟩, hr⟩
      · cases hr
    · cases hr
  · cases hr

theorem openTrunc_law_paged : ∃ v, @TruncRun dynamicConfig pagedFs [97] [] v ∧
    ¬ @TruncLaw dynamicConfig v [97] 1 [] := by
  have hrun : truncRun pagedFs [] (fun _ => true) = true := by
    decide +kernel
  obtain ⟨v, hrun, -⟩ := truncRun_spec hrun
  refine ⟨v, hrun, ?_⟩
  have hsteady : @Steady dynamicConfig pagedFs.header pagedFs [] :=
    @Steady.mk dynamicConfig _ _ _ (@Sound.tail dynamicConfig _ _ _ pagedFs_sound) rfl (by decide +kernel)
  have hlookup : @lookup dynamicConfig pagedFs [97] = .ok pagedHandle := by
    decide +kernel
  have hquiet := pagedFs_quiet
  generalize pagedFs = s at hrun hsteady hlookup hquiet
  have hquietly := @wp_findFile_quiet dynamicConfig s hquiet [97]
  cases hfind : @findFile dynamicConfig [97] s with
  | error e t =>
    have he := (wp_error hquietly hfind).2
    rw [hlookup] at he
    cases he
  | ok h t =>
    have hh := (wp_ok hquietly hfind).2
    rw [hlookup] at hh
    have hh := Except.ok.inj hh
    subst hh
    have ht := wp_ok (@wp_findFile_steady dynamicConfig s _ hsteady [97]) hfind rfl
    intro hlaw
    have hlaw := ((@openTrunc_law dynamicConfig _ _ _ _ _ _ _ (@Steady.sound dynamicConfig _ _ _ ht)
      (@Steady.variant dynamicConfig _ _ _ ht) hfind rfl (by decide) hrun).2
      hquiet).mp hlaw
    exact absurd hlaw.2.1 (by decide)

theorem openTrunc_keepsOldVersion : ∃ v, @TruncRun dynamicConfig pagedFs [97] [[1, 2, 3]] v ∧
    ¬ @TruncLaw dynamicConfig v [97] 1 [[1, 2, 3]] := by
  have hrun : truncRun pagedFs [[1, 2, 3]] (fun v => decide
      ((@Valid dynamicConfig v 0 ∧ numberAt v 0 = 1) ∧ @Valid dynamicConfig v 2 ∧ numberAt v 2 = 1)) = true := by
    decide +kernel
  obtain ⟨v, hrun, hv⟩ := truncRun_spec hrun
  refine ⟨v, hrun, fun hlaw => ?_⟩
  obtain ⟨h0, h2⟩ := of_decide_eq_true hv
  have he := hlaw.2.unique h0 h2
  cases he

end SimpleFlashFs
