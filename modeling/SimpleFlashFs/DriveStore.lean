import SimpleFlashFs.Shelf

namespace SimpleFlashFs

open Lib

section Calls

variable [Config] {hd : Header} {N : ℕ} {s t u : Fs} {m : Store} {live : List FileHandle} {h k : FileHandle}
  {name : List UInt8} {f g : IdealFile}

-- an open file of the drive that shows the ideal one
structure Session (hd : Header) (N : ℕ) (s : Fs) (live : List FileHandle) (m : Store) (name : List UInt8) (h : FileHandle)
    (f : IdealFile) : Prop where
  desk : Desk hd N s live m name h f.file.content f.saved
  mirrors : Mirrors s h f
  handle : h.inode.flashName = name
  named : name ≠ []

theorem Session.flashName_ne (hs : Session hd N s live m name h f) : h.inode.flashName ≠ [] := by
  rw [hs.handle]
  exact hs.named

-- an operation on the data of the file
theorem Session.dataEffect (hs : Session hd N s live m name h f) (e : DataEffect s h t k) (c : DataOnly s h t k) (hm : Mirrors t k g) :
    Session hd N t live m name k g := by
  have hd' := hs.desk
  have hsame := e.sameInodes hd'.sound.ready hd'.sound.head.toOwns
  have hflash : k.inode.flashName = h.inode.flashName := by
    rw [Inode.flashName, Inode.flashName, e.same.fileName, e.same.fileNameLen]
  obtain ⟨hkeep, hheld⟩ := c.keeps hd'.catalog hd'.held
  refine ⟨?_, hm, hflash.trans hs.handle, hs.named⟩
  apply hd'.carried hsame e.within.sameHeader (by rw [e.rest]) e.same.page e.same.inodeNumber
  · exact Or.inl (hflash.trans hs.handle)
  · exact fun hnil => absurd (hflash.symm.trans hnil) hs.flashName_ne
  · exact fun i hi _ => hd'.sound.dataEffect_spared hd'.unrecorded e hi.1
  · exact hkeep.catalog
  · exact hd'.sound.dataEffect e
  · exact hd'.sound.dataEffect_unrecorded hd'.unrecorded e
  · exact hm.toBacked
  · exact hheld

theorem Session.moved (hs : Session hd N s live m name h f) (hp : k.page = h.page) (hi : k.inode = h.inode)
    (hmod : k.modified = h.modified) (hm : Mirrors s k g) (hc : g.file.content = f.file.content) (hsaved : g.saved = f.saved) :
    Session hd N s live m name k g := by
  refine ⟨?_, hm, by rw [hi]; exact hs.handle, hs.named⟩
  have hb := hm.toBacked
  rw [hc, hsaved] at hb ⊢
  exact hs.desk.moved hp hi hmod hb

-- one call: the ideal file does the same, or does not answer for it
theorem Session.wp_ask (hs : Session hd N s live m name h f) (hN : N < 2 ^ 64) (call : Call) :
    wp (call.ask h) (fun r t => (∃ g, f.Step call r.1 g ∧ Session hd N t live m name r.2 g) ∨ f.Beyond call r.1)
      (fun _ _ => True) s := by
  have hd' := hs.desk
  have hl := hd'.sound.head
  cases call with
  | seek pos =>
    by_cases hp : pos ≤ f.file.size
    · have hle : pos ≤ h.inode.fileLen := by
        rw [hs.mirrors.carries.length]
        exact hp
      rw [Call.ask, wp_bind, SimpleFlashFs.seek, if_pos hle]
      refine Or.inl ⟨_, .seek pos hp, hs.moved rfl rfl rfl (hs.mirrors.seek hp) ?_ rfl⟩
      rw [ByteFile.seek_of_le hp]
    · rw [Call.ask, wp_bind]
      exact wp_run (fun _ _ _ => Or.inr (Nat.lt_of_not_le hp)) fun _ _ _ => trivial
  | write data =>
    rw [Call.ask, wp_bind]
    apply wp_mono (wp_and (hs.mirrors.wp_write hd'.sound hd'.unrecorded data)
      (wp_and ((safe_write data).wp hd'.sound.ready hl.toOwns) (confined_write data hd'.sound.ready hd'.held.region)))
    · rintro ⟨n, k⟩ t ⟨hm, he, hc⟩
      by_cases hn : n = data.length
      · subst hn
        exact Or.inl ⟨_, .write data, hs.dataEffect he hc (hm rfl)⟩
      · exact Or.inr fun he => hn (Answer.count.inj he)
    · exact fun _ _ _ => trivial
  | read size =>
    obtain ⟨k, hread, hk⟩ := hs.mirrors.read hd'.sound size
    obtain ⟨-, n, hadv⟩ := wp_ok (wp_read_advances h size) hread
    have hadv : k = h.advance n := hadv
    rw [Call.ask, wp_bind]
    apply wp_of_eq hread
    refine Or.inl ⟨_, .read size, hs.moved ?_ ?_ ?_ hk rfl rfl⟩
    · rw [hadv]
      rfl
    · rw [hadv]
      rfl
    · rw [hadv]
      rfl
  | truncate newSize =>
    rw [Call.ask, wp_bind]
    exact wp_run (fun _ _ _ => Or.inr trivial) fun _ _ _ => trivial
  | flush =>
    rw [Call.ask, wp_bind]
    apply wp_mono (hd'.wp_flush hN)
    · rintro r t ⟨hf, hdesk⟩
      obtain ⟨hk, hname⟩ := hdesk.named hd' hs.handle
      obtain ⟨g, hstep, hm⟩ := hs.mirrors.flushed hd'.sound hd'.catalog.variant hf
      refine Or.inl ⟨g, hstep, ⟨?_, hm, hname, hs.named⟩⟩
      cases hr : r.1 with
      | true =>
        rw [hr] at hk hstep
        cases hstep
        exact hk
      | false =>
        rw [hr] at hk hstep
        cases hstep
        exact hk
    · exact fun _ _ h => h

-- the calls of one handle, one after the other
def askEach : List Call → FileHandle → FsM (List (Call × Answer) × FileHandle)
  | [], h => pure ([], h)
  | call :: calls, h => do
    let r ← call.ask h
    let rest ← askEach calls r.2
    pure ((call, r.1) :: rest.1, rest.2)

-- there is a first call that the ideal file does not answer for
def IdealFile.GoesBeyond (f : IdealFile) (talk : List (Call × Answer)) : Prop :=
  ∃ pre call answer rest g, talk = pre ++ (call, answer) :: rest ∧ f.Talks pre g ∧ g.Beyond call answer

theorem Session.wp_askEach (calls : List Call) (hs : Session hd N s live m name h f) (hN : N < 2 ^ 64) :
    wp (askEach calls h) (fun r t => (∃ g, r.1.map Prod.fst = calls ∧ f.Talks r.1 g ∧ Session hd N t live m name r.2 g) ∨
      f.GoesBeyond r.1) (fun _ _ => True) s := by
  induction calls generalizing s h f with
  | nil => exact Or.inl ⟨f, rfl, .start f, hs⟩
  | cons call calls ih =>
    rw [askEach, wp_bind]
    apply wp_mono (hs.wp_ask hN call)
    · rintro ⟨answer, k⟩ u (⟨g, hstep, hg⟩ | hb)
      · rw [wp_bind]
        apply wp_mono (ih hg)
        · rintro ⟨talk, l⟩ t (⟨g', hcalls, htalk, hg'⟩ | ⟨pre, c, a, rest, g', he, htalk, hb⟩)
          · exact Or.inl ⟨g', congrArg (call :: ·) hcalls, .step hstep htalk, hg'⟩
          · refine Or.inr ⟨(call, answer) :: pre, c, a, rest, g', ?_, .step hstep htalk, hb⟩
            rw [List.cons_append]
            exact congrArg _ he
        · exact fun _ _ h => h
      · rw [wp_bind]
        exact wp_run (fun r t _ => Or.inr ⟨[], call, answer, r.1, f, rfl, .start f, hb⟩) fun _ _ _ => trivial
    · exact fun _ _ h => h

-- delete_file clears the handle before it flushes
theorem Session.nameless (hs : Session hd N s live m name h f) : Desk hd N s live m name h.nameless [] f.saved := by
  have hd' := hs.desk
  have hsound : Sound s (h.nameless :: live) := hd'.sound.replaced rfl (List.nil_sublist _) (Nat.two_pow_pos 16)
  apply hd'.replaced (k := h.nameless) rfl rfl (Or.inr rfl) (fun _ _ => ⟨rfl, rfl⟩) hsound
  · exact fun _ => List.forall_mem_nil _
  · refine ⟨⟨rfl, ?_, Or.inl ⟨rfl, Or.inr rfl, rfl⟩⟩, hd'.backed.connected, ?_, hd'.backed.saved⟩
    · exact (Nat.le_add_right 42 _).trans hd'.backed.carries.roomy
    · intro hm
      exact absurd hm (by simp [FileHandle.nameless])
  · exact hd'.held.nameless

-- the file is gone from the store
theorem DeskFlushed.gone {content : List UInt8} {saved : Option (List UInt8)}
    (ht : ∀ m', (h.inode.flashName = name ∨ m' name = none) → (∀ other ≠ [], other ≠ name → m' other = m other) →
      Desk hd N t live m' h.inode.flashName k content saved) (hnil : h.inode.flashName = []) :
    Desk hd N t live (Function.update m name none) [] k content saved := by
  have hk := ht (Function.update m name none) (Or.inr (Function.update_self ..)) fun other _ hne =>
    Function.update_of_ne hne _ _
  rwa [hnil] at hk

theorem Desk.wp_closeNameless {content : List UInt8} {saved : Option (List UInt8)}
    (hd' : Desk hd N s live m name h content saved) (hN : N < 2 ^ 64) (hnil : h.inode.flashName = []) :
    wp (closeHandle h) (fun _ t => Shelf hd N t live (Function.update m name none) ∨
      Shelf hd N t live (Function.update m name saved)) (fun _ _ => True) s := by
  apply wp_closeHandle_after hd'.backed.connected
  apply wp_mono (hd'.wp_flush hN)
  · rintro r t ⟨-, hf⟩
    cases hf with
    | unmodified hm => exact ⟨hd'.sound.ready, hd'.held, fun u hu => Or.inr (hd'.shelf hu)⟩
    | full t hm ht => exact ⟨ht.sound.ready, ht.held, fun u hu => Or.inr (ht.shelf hu)⟩
    | recorded t k hm hk ht =>
      have hgone := DeskFlushed.gone ht hnil
      refine ⟨hgone.sound.ready, hgone.held, fun u hu => Or.inl ?_⟩
      exact (hgone.shelf hu).congr fun other hne => (Function.update_of_ne hne _ _).symm
  · exact fun _ _ h => h

-- a delete that fails may still be made up for when the handle is closed
theorem Session.wp_deleteFile (hs : Session hd N s live m name h f) (hN : N < 2 ^ 64) :
    wp (deleteFile h) (fun r t => wp (closeHandle r.2) (fun _ u => Shelf hd N u live (Function.update m name none) ∨
      r.1 = false ∧ Shelf hd N u live (Function.update m name f.saved)) (fun _ _ => True) t) (fun _ _ => True) s := by
  have hflush := hs.nameless.wp_flush hN
  rw [deleteFile, wp_bind]
  apply wp_mono hflush
  · rintro r t ⟨-, hf⟩
    cases hf with
    | unmodified hm => exact absurd hm (by simp [FileHandle.nameless])
    | full t hm ht =>
      rw [if_neg (by simp)]
      apply wp_mono (ht.wp_closeNameless hN rfl)
      · exact fun _ u hu => hu.imp id fun hu => ⟨rfl, hu⟩
      · exact fun _ _ h => h
    | recorded t k hm hk ht =>
      have hgone := (DeskFlushed.gone ht rfl).dropped
      rw [if_pos rfl, wp_pure, closeHandle, if_neg (by simp)]
      exact Or.inl (hgone.congr fun other hne => (Function.update_of_ne hne _ _).symm)
  · exact fun _ _ h => h

end Calls

section Listing

variable [Config] {hd : Header} {N : ℕ} {s t : Fs} {m : Store}

-- the handles of a scan of s are closed: those of records that are left, and those that have nothing to flush
theorem Shelf.wp_closeScanned (l : List ℕ) (hs : Shelf hd N t [] m) (hN : N < 2 ^ 64) (hh : t.header = s.header)
    (hl : ∀ i ∈ l, Valid t i ∧ pageAt t i = pageAt s i ∨ (openedAt s i).modified = false ∧ (openedAt s i).connected = true ∧
      ∀ p ∈ (openedAt s i).page :: (openedAt s i).ids, p < noData) (hnd : l.Nodup) :
    wp (each closeHandle (l.map (openedAt s))) (fun _ u => Shelf hd N u [] m) (fun _ _ => True) t := by
  induction l generalizing t with
  | nil => exact hs
  | cons i l ih =>
    obtain ⟨hi, hnd⟩ := List.nodup_cons.mp hnd
    rw [List.map_cons, each, wp_bind]
    rcases hl i List.mem_cons_self with ⟨hval, hpage⟩ | ⟨hm, hcon, hids⟩
    · rw [← openedAt_congr hh hpage]
      apply wp_mono (wp_and (hs.wp_closeOpened hN hval (List.forall_mem_nil _)) (hs.catalog.wp_closeOpened hval))
      · rintro _ u ⟨hu, hlook⟩
        apply ih hu (hlook.shifted.header.trans hh) _ hnd
        intro j hj
        rcases hl j (List.mem_cons_of_mem i hj) with ⟨hv, hp⟩ | hclean
        · obtain ⟨hv', hp'⟩ := hlook.others j hv fun he => hi (he ▸ hj)
          exact Or.inl ⟨hv', hp'.trans hp⟩
        · exact Or.inr hclean
      · exact fun _ _ _ => trivial
    · apply wp_mono (wp_closeHandle_unmodified hs.sound.ready.allocatedWF hm hcon hids)
      · intro _ u hu
        have e := hu.sameFlash hs.catalog
        apply ih (hs.sameFlash e (hs.sound.released hu (List.forall_mem_nil _))) (e.header.trans hh) _ hnd
        intro j hj
        rcases hl j (List.mem_cons_of_mem i hj) with ⟨hv, hp⟩ | hclean
        · exact Or.inl ⟨e.valid_iff.mpr hv, (e.pageAt_eq j).trans hp⟩
        · exact Or.inr hclean
      · exact fun _ _ h => h

-- a listing has the files of the store, once each and with their lengths
structure ListsStore (m : Store) (files : List (List UInt8 × ℕ)) : Prop where
  once : (files.map Prod.fst).Nodup
  entry : ∀ name size, (name, size) ∈ files ↔ name ≠ [] ∧ ∃ content, m name = some content ∧ content.length = size

theorem Shelf.listsStore (hs : Shelf hd N s [] m) : ListsStore m (reportedFiles s) := by
  have hc := hs.catalog
  rw [hc.reportedFiles_eq]
  constructor
  · rw [List.map_map]
    apply List.Nodup.map_on
    · intro i hi j hj he
      obtain ⟨hi, hne⟩ := List.mem_filter.mp hi
      exact hc.names i j (mem_recordPages.mp hi) (mem_recordPages.mp (List.mem_filter.mp hj).1) he (by simpa using hne)
    · exact (recordPages_nodup s).filter _
  · intro name size
    rw [List.mem_map]
    constructor
    · rintro ⟨i, hi, he⟩
      obtain ⟨hi, hne⟩ := List.mem_filter.mp hi
      obtain ⟨rfl, rfl⟩ := Prod.mk.inj he
      obtain ⟨content, hsaved, hname⟩ := hs.records i (mem_recordPages.mp hi)
      have hne : nameAt s i ≠ [] := by simpa using hne
      exact ⟨hne, content, hname hne, hsaved.carries.length.symm⟩
    · rintro ⟨hne, content, hm, rfl⟩
      obtain ⟨i, hi, rfl⟩ := hs.files name content hne hm
      obtain ⟨bytes, hsaved, hname⟩ := hs.records i hi
      obtain rfl := Option.some_inj.mp ((hname hne).symm.trans hm)
      refine ⟨i, List.mem_filter.mpr ⟨mem_recordPages.mpr hi, by simpa using hne⟩, ?_⟩
      rw [hsaved.carries.length]

theorem Shelf.wp_listFiles (hs : Shelf hd N s [] m) (hN : N < 2 ^ 64) :
    wp listFiles (fun files t => ListsStore m files ∧ Shelf hd N t [] m) (fun _ _ => True) s := by
  have hlist := hs.listsStore
  simp only [listFiles, getAllInodes, wp_bind, wp_get]
  apply wp_mono (hs.catalog.wp_collectAllInodes (List.range s.header.maxInodes) [] fun i hi => List.mem_range.mp hi)
  · rintro r t ⟨rfl, rfl⟩
    rw [List.nil_append]
    have hval : ∀ i ∈ recordPages t, Valid t i := fun i hi => mem_recordPages.mp hi
    apply wp_mono (hs.wp_closeScanned (recordPages t) hN rfl (fun i hi => Or.inl ⟨hval i hi, rfl⟩) (recordPages_nodup t))
    · exact fun _ u hu => ⟨hlist, hu⟩
    · exact fun _ _ h => h
  · exact fun _ _ h => h.elim

end Listing

section Mounting

variable [Config] {hd : Header} {N : ℕ} {s t : Fs} {m : Store}

theorem wp_collectInodes_le (is : List ℕ) (groups : List (ℕ × List FileHandle)) (L : Layout s) (hs : Recoverable s)
    (his : ∀ i ∈ is, i < s.header.maxInodes) (hmax : s.maxInodeNumber ≤ N) (hle : ∀ i, Valid s i → numberAt s i ≤ N) :
    wp (collectInodes is groups) (fun _ t => t.maxInodeNumber ≤ N) (fun _ _ => True) s := by
  induction is generalizing s groups with
  | nil => exact hmax
  | cons i is ih =>
    have hi := his i List.mem_cons_self
    have his' : ∀ j ∈ is, j < s.header.maxInodes := fun j hj => his j (List.mem_cons_of_mem i hj)
    simp only [collectInodes, wp_bind, wp_get]
    rw [wp_ite]
    by_cases hval : Valid s i
    · rw [readPage_of_valid L.toGeometry hval]
      refine ⟨fun _ => ?_, fun hn => absurd rfl hn⟩
      obtain ⟨h, hdec, -, hraw⟩ := hs.raw hval
      have hnum : h.inode.inodeNumber ≤ N := by
        have hle := hle i hval
        rw [numberAt, hraw] at hle
        exact hle
      simp only [getInode, wp_bind, wp_get, hdec, liftFault, wp_pure, wp_modify]
      apply ih
      · exact L.of_eq rfl rfl
      · exact ⟨hs.stored, hs.region, hs.nodup, hs.apart⟩
      · exact his'
      · exact max_le hmax hnum
      · exact hle
    · rw [readPage_of_not_valid L.toGeometry hi hval]
      exact ⟨fun hn => absurd hn (by simp), fun _ => ih groups L hs his' hmax hle⟩

-- with one version of each inode there is nothing to clear
theorem clearOldInodes_single (groups : List (ℕ × List FileHandle)) (hone : ∀ g ∈ groups, ∃ h, g.2 = [h]) :
    clearOldInodes groups = pure (flat groups) := by
  induction groups with
  | nil => rfl
  | cons g rest ih =>
    obtain ⟨n, files⟩ := g
    obtain ⟨h, hfiles⟩ := hone (n, files) List.mem_cons_self
    have hfiles : files = [h] := hfiles
    subst hfiles
    have hsort : sortVersions [h] = [h] := rfl
    have hrest := ih fun g hg => hone g (List.mem_cons_of_mem _ hg)
    rw [clearOldInodes, hsort]
    dsimp only
    rw [clearOldVersions, hrest, pure_bind, pure_bind]
    rfl

theorem grouped_single {groups : List (ℕ × List FileHandle)} (hc : Catalog s) (hg : Grouped groups)
    (hp : (flat groups).Perm (rawsOf s (List.range s.header.maxInodes))) : ∀ g ∈ groups, ∃ h, g.2 = [h] := by
  intro g hgm
  have hraw := rawsOf_scanned s
  have hmem : ∀ h ∈ g.2, h ∈ rawsOf s (List.range s.header.maxInodes) := fun h hh =>
    hp.mem_iff.mp (List.mem_flatMap.mpr ⟨g, hgm, hh⟩)
  have hnodup : (g.2.map (·.page)).Nodup := by
    have hall : ((flat groups).map (·.page)).Nodup := ((hp.map _).nodup_iff).mpr hraw.pages
    have hsub : g.2.Sublist (flat groups) := by
      rw [flat, List.flatMap_def]
      exact List.sublist_flatten_of_mem (List.mem_map_of_mem hgm)
    exact List.Nodup.sublist (hsub.map _) hall
  cases hfiles : g.2 with
  | nil => exact absurd hfiles (hg.nonempty g hgm)
  | cons h rest =>
    cases rest with
    | nil => exact ⟨h, rfl⟩
    | cons k rest =>
      rw [hfiles] at hmem hnodup
      have hh := hraw.raw h (hmem h List.mem_cons_self)
      have hk := hraw.raw k (hmem k (List.mem_cons_of_mem h List.mem_cons_self))
      have hnum : numberAt s h.page = numberAt s k.page := by
        rw [numberAt, numberAt, ← hh.2, ← hk.2, hg.number g hgm h (by rw [hfiles]; exact List.mem_cons_self),
          hg.number g hgm k (by rw [hfiles]; exact List.mem_cons_of_mem h List.mem_cons_self)]
      have hpage := hc.numbers h.page k.page hh.1 hk.1 hnum
      rw [List.map_cons, List.map_cons] at hnodup
      exact absurd hpage fun he => (List.nodup_cons.mp hnodup).1 (he ▸ List.mem_cons_self)

-- the handles of the scan are closed
theorem wp_closeAll_unmodified (l : List FileHandle) (hw : s.allocatedUnwrittenPages.WF)
    (hl : ∀ h ∈ l, h.modified = false ∧ h.connected = true ∧ ∀ p ∈ h.page :: h.ids, p < noData) :
    wp (each closeHandle l) (fun _ t => t = { s with allocatedUnwrittenPages := t.allocatedUnwrittenPages }) (fun _ _ => True) s := by
  induction l generalizing s with
  | nil => rfl
  | cons h l ih =>
    obtain ⟨hm, hc, hids⟩ := hl h List.mem_cons_self
    rw [each, wp_bind]
    apply wp_mono (wp_closeHandle_unmodified (R := fun _ _ => True) hw hm hc hids)
    · intro _ t ht
      apply wp_mono (ih ht.wf fun k hk => hl k (List.mem_cons_of_mem h hk))
      · intro _ u hu
        rw [hu, ht.rest]
      · exact fun _ _ h => h
    · exact fun _ _ h => h

-- a mount that found one version of each inode
structure MountedAs (s t : Fs) : Prop where
  header : t.header = s.header
  variant : t.variant = s.variant
  mem : t.mem = s.mem
  number_le : ∀ i, Valid s i → numberAt s i ≤ t.maxInodeNumber
  numbers : t.maxInodeNumber ≤ s.maxInodeNumber

theorem Catalog.rawAt_clean (hc : Catalog s) {i : ℕ} (hi : Valid s i) :
    (rawAt s i).modified = false ∧ (rawAt s i).connected = true ∧ ∀ p ∈ (rawAt s i).page :: (rawAt s i).ids, p < noData := by
  obtain ⟨n, -, ho⟩ := hc.holds hi
  rw [ho.rawAt_eq]
  refine ⟨ho.regular.decoded_raw, decoded_connected _ _ _, fun p hp => ?_⟩
  rcases List.mem_cons.mp hp with rfl | hp
  · exact hc.ready.inode_lt_noData hi.1
  · change p ∈ (n.decoded s.header false).ids at hp
    rw [decoded_raw_ids] at hp
    exact hc.ready.layout.lt_noData (ho.regular.recordedIds_region hc.ready.layout p hp).2

-- with one version of each inode the rest of the scan leaves all but the sets of pages alone
theorem Catalog.wp_clearScan {u : Fs} {groups : List (ℕ × List FileHandle)} (hc : Catalog s) (hg : Grouped groups)
    (hp : (flat groups).Perm (rawsOf s (List.range s.header.maxInodes))) (hfree : u.freeDataPages.WF)
    (halloc : u.allocatedUnwrittenPages.WF) :
    wp (clearOldInodes groups >>= fun files => each eraseUsedPages files >>= fun _ => each closeHandle files)
      (fun _ t => t = { u with freeDataPages := t.freeDataPages, allocatedUnwrittenPages := t.allocatedUnwrittenPages })
      (fun _ _ => True) u := by
  have hclean : ∀ h ∈ flat groups, h.modified = false ∧ h.connected = true ∧ ∀ p ∈ h.page :: h.ids, p < noData := by
    intro h hh
    obtain ⟨hval, he⟩ := (rawsOf_scanned s).raw h (hp.mem_iff.mp hh)
    rw [he]
    exact hc.rawAt_clean hval
  rw [clearOldInodes_single groups (grouped_single hc hg hp), pure_bind, wp_bind]
  apply wp_mono (wp_eraseUsedPages (flat groups) hfree
    (fun h hh p hp => (hclean h hh).2.2 p (List.mem_cons_of_mem _ hp)) (fun _ _ => True))
  · intro _ v hv
    apply wp_mono (wp_closeAll_unmodified (flat groups) (by rw [hv.rest]; exact halloc) hclean)
    · intro _ t ht
      rw [ht, hv.rest]
    · exact fun _ _ h => h
  · exact fun _ _ _ => trivial

theorem Catalog.wp_initDynamic (hc : Catalog s) (hon : HeaderOn s.mem s.header) (hs : Recoverable s) :
    wp initDynamic (fun _ t => MountedAs s t) (fun _ _ => True) s.restarted := by
  have L : Layout s.headed := hc.ready.layout.of_eq rfl rfl
  rw [initDynamic, wp_bind]
  apply wp_mono hon.wp_initBase
  · rintro ok t ⟨rfl, rfl⟩
    rw [if_pos rfl, wp_bind, readAllFreeDataPages, wp_bind]
    apply wp_mono (wp_fillFreeDataPages L.toGeometry L.filesystemSize_lt (fun _ _ => True))
    · intro _ u hu
      have hpage : ∀ i, pageAt u i = pageAt s i := fun i => by
        rw [hu.rest]
        rfl
      have e : SameInodes s u := ⟨by rw [hu.rest]; rfl, fun i _ => hpage i⟩
      have hraw : ∀ i, rawAt u i = rawAt s i := fun i => rawAt_congr e.header (hpage i)
      have hraws : rawsOf u (List.range u.header.maxInodes) = rawsOf s (List.range s.header.maxInodes) := by
        simp only [rawsOf, e.header, hpage]
        exact List.map_congr_left fun i _ => hraw i
      have hlist : ∀ i ∈ List.range u.header.maxInodes, i < u.header.maxInodes := fun i hi => List.mem_range.mp hi
      have hLu : Layout u := L.of_eq (by rw [hu.rest]) (by rw [hu.rest])
      rw [wp_bind, wp_get, wp_bind]
      apply wp_mono (wp_and (wp_collectInodes (List.range u.header.maxInodes) [] hLu (hs.of_same e) hlist (fun _ _ => True))
        (wp_collectInodes_le (N := s.maxInodeNumber) (List.range u.header.maxInodes) [] hLu (hs.of_same e) hlist ?_ ?_))
      · rintro groups v ⟨hv, hle⟩
        have hperm : (flat groups).Perm (rawsOf s (List.range s.header.maxInodes)) := by
          rw [← hraws]
          exact hv.perm
        have hrest : v.mem = s.mem ∧ v.variant = s.variant := by
          rw [hv.rest, hu.rest]
          exact ⟨rfl, rfl⟩
        apply wp_mono (hc.wp_clearScan (hv.grouped ⟨List.Pairwise.nil, by simp, by simp⟩) hperm ?_ ?_)
        · intro _ t ht
          constructor
          · rw [ht, hv.rest]
            exact e.header
          · rw [ht]
            exact hrest.2
          · rw [ht]
            exact hrest.1
          · intro i hi
            have hnum := hv.maxNumber (rawAt s i) (by rw [hraws]; exact mem_rawsOf hi)
            rw [ht]
            exact hnum
          · rw [ht]
            exact hle
        · exact fun _ _ h => h
        · rw [hv.rest]
          exact hu.wf
        · rw [hv.rest, hu.rest]
          exact PageSet.wf_empty
      · exact fun _ _ _ => trivial
      · rw [hu.rest]
        exact Nat.zero_le _
      · intro i hi
        rw [numberAt, hraw]
        exact (hc.number_le (e.valid.mp hi)).2
    · exact fun _ _ _ => trivial
  · exact fun _ _ _ => trivial

theorem MountedAs.pageAt_eq (e : MountedAs s t) (i : ℕ) : pageAt t i = pageAt s i := by
  rw [pageAt, pageAt, e.mem, e.header]

theorem MountedAs.valid (e : MountedAs s t) {i : ℕ} : Valid t i ↔ Valid s i := valid_congr e.header (e.pageAt_eq i)

theorem MountedAs.shelf (e : MountedAs s t) (hs : Shelf hd N s [] m) (ht : Sound t []) (hw : WholeRange t) : Shelf hd N t [] m := by
  have hc := hs.catalog
  apply hs.fewer (.of_mem e.header e.mem) _ ht (e.numbers.trans hs.numbers)
  · exact fun i hi => ⟨e.valid.mp hi, e.header, e.pageAt_eq i, fun _ p _ => e.pageAt_eq p⟩
  · exact fun i hi _ => e.valid.mpr hi
  · apply hc.fewer e.header e.variant _ ht.ready hw (e.numbers.trans_lt hc.numbers_lt)
    · exact fun i hi => ⟨e.valid.mp hi, e.pageAt_eq i⟩
    · exact fun i hi => e.number_le i (e.valid.mp hi)
    · rw [e.mem]
      exact hc.plan

theorem Sound.reinit (hs : Sound s []) : Sound { s with headerInodeRange := InodeRange.reinit s.header } [] where
  ready := ⟨hs.ready.layout.of_eq rfl rfl, hs.ready.noShort, hs.ready.freeWF, hs.ready.allocatedWF,
    fun _ hi => List.mem_range.mp hi, hs.ready.free⟩
  erased := hs.erased
  flash := ⟨hs.flash.stored, hs.flash.region, hs.flash.nodup, hs.flash.apart⟩
  notFree := hs.notFree
  handles := List.forall_mem_nil _
  live_apart := List.Pairwise.nil

-- a new instance on the memory of the drive
def mount : FsM Bool := do
  modify Fs.restarted
  initFram

theorem Shelf.wp_mount (hs : Shelf hd N s [] m) (hinodes : 0 < hd.maxInodes) :
    wp mount (fun ok t => ok = true ∧ Shelf hd N t [] m) (fun _ _ => True) s := by
  have hc := hs.catalog
  have hrec := hs.sound.flash.recoverable
  rw [mount, wp_bind, wp_modify, initFram, wp_bind]
  apply wp_mono (wp_and (SimpleFlashFs.wp_initDynamic hs.onFlash hc.ready hrec hs.sound.erased hc.variant)
    (hc.wp_initDynamic hs.onFlash hrec))
  · rintro ok t ⟨⟨rfl, hre⟩, e⟩
    rw [if_pos rfl, wp_bind, wp_modify]
    have e' : MountedAs s { t with headerInodeRange := InodeRange.reinit t.header } :=
      ⟨e.header, e.variant, e.mem, e.number_le, e.numbers⟩
    refine ⟨rfl, e'.shelf hs hre.sound.reinit ⟨?_, List.Perm.refl _⟩⟩
    intro hnil
    rw [List.range_eq_nil, e.header, hs.header] at hnil
    omega
  · exact fun _ _ _ => trivial

end Mounting

section Cleanup

variable [Config] {hd : Header} {N : ℕ} {s t u : Fs} {m : Store} {l : List ℕ}

def eraseDeleted (file : FileHandle) : FsM Unit := do
  let s ← get
  if file.inode.fileName = [] then
    let _ ← perform (.erase (writeAddress s.header file.page) s.header.pageSize)
    pure ()
  else pure ()

def cleanupFram : FsM Unit := do
  let files ← getAllInodes
  each eraseDeleted files
  each closeHandle files

-- the pages of l were erased
structure Blanked (s t : Fs) (l : List ℕ) : Prop where
  rest : t = { s with mem := t.mem }
  within : Within s t (· ∈ l)
  erased : ∀ p ∈ l, pageAt t p = List.replicate s.header.pageSize 0xFF

omit [Config] in
theorem Blanked.refl (s : Fs) : Blanked s s [] := ⟨rfl, Within.refl _ _, List.forall_mem_nil _⟩

omit [Config] in
theorem Blanked.trans {l' : List ℕ} (a : Blanked s t l) (b : Blanked t u l') (hl : ∀ p ∈ l, InRange s p) : Blanked s u (l ++ l') where
  rest := by rw [b.rest, a.rest]
  within := (a.within.mono fun _ h => List.mem_append_left _ h).trans (b.within.mono fun _ h => List.mem_append_right _ h)
  erased p hp := by
    by_cases hin : p ∈ l'
    · rw [b.erased p hin, a.within.header]
    · have hp := (List.mem_append.mp hp).resolve_right hin
      rw [b.within.pages p (a.within.inRange.mpr (hl p hp)) hin]
      exact a.erased p hp

omit [Config] in
theorem Blanked.ready (b : Blanked s t l) (hr : Ready s) : Ready t where
  layout := b.within.layout hr.layout
  noShort := b.within.noShort hr.noShort
  freeWF := by
    rw [b.rest]
    exact hr.freeWF
  allocatedWF := by
    rw [b.rest]
    exact hr.allocatedWF
  range := by
    rw [b.rest]
    exact hr.range
  free p hp := by
    rw [b.rest] at hp
    rw [b.within.dataRegion]
    exact hr.free p hp

omit [Config] in
theorem wp_eraseDeleted {file : FileHandle} (hr : Ready s) (hi : InRange s file.page) :
    wp (eraseDeleted file) (fun _ t => Blanked s t (if file.inode.fileName = [] then [file.page] else [])) (fun _ _ => True) s := by
  rw [eraseDeleted, wp_bind, wp_get, wp_ite]
  constructor
  · intro hn
    rw [wp_bind, if_pos hn]
    apply wp_perform (x := .erase _ _) hr.layout.toGeometry hr.noShort hi (hr.layout.writeAddress_eq hi) (by simp [PhysOp.content])
    · intro t ht
      refine ⟨ht.rest, Touched.within ht.toTouched (m := (· ∈ [file.page])) (List.mem_singleton_self _), fun p hp => ?_⟩
      rw [List.mem_singleton.mp hp]
      exact ht.page
    · exact fun _ _ => trivial
  · intro hn
    rw [if_neg hn]
    exact .refl s

omit [Config] in
theorem wp_eraseAllDeleted (files : List FileHandle) (hr : Ready s) (hl : ∀ h ∈ files, InRange s h.page) :
    wp (each eraseDeleted files) (fun _ t => Blanked s t ((files.filter (·.inode.fileName = [])).map (·.page))) (fun _ _ => True) s := by
  induction files generalizing s with
  | nil => exact .refl s
  | cons file files ih =>
    have hi := hl file List.mem_cons_self
    rw [each, wp_bind]
    apply wp_mono (wp_eraseDeleted hr hi)
    · intro _ t ht
      apply wp_mono (ih (ht.ready hr) fun h hh => ht.within.inRange.mpr (hl h (List.mem_cons_of_mem _ hh)))
      · intro _ u hu
        by_cases hn : file.inode.fileName = []
        · rw [if_pos hn] at ht
          rw [List.filter_cons_of_pos (by simpa using hn), List.map_cons]
          exact ht.trans hu fun p hp => List.mem_singleton.mp hp ▸ hi
        · rw [if_neg hn] at ht
          rw [List.filter_cons_of_neg (by simpa using hn)]
          exact ht.trans hu (List.forall_mem_nil _)
      · exact fun _ _ h => h
    · exact fun _ _ h => h

-- the records of deleted files are not missed
theorem Shelf.blanked (hs : Shelf hd N s [] m) (hb : Blanked s t l) (hl : ∀ p ∈ l, Valid s p ∧ nameAt s p = []) :
    Shelf hd N t [] m ∧ ∀ i, Valid s i → i ∉ l → Valid t i ∧ pageAt t i = pageAt s i := by
  have hc := hs.catalog
  have L := hs.sound.ready.layout
  have hh := hb.within.header
  have hkept : ∀ i, Valid s i → i ∉ l → Valid t i ∧ pageAt t i = pageAt s i := by
    intro i hi hnot
    have hpage := hb.within.pages i (L.lt_inRange hi.1) hnot
    exact ⟨(valid_congr hh hpage).mpr hi, hpage⟩
  have hpages : ∀ i, Valid t i → Valid s i ∧ pageAt t i = pageAt s i := by
    intro i hi
    have hnot : i ∉ l := by
      intro hin
      have hsum := hi.2
      rw [hb.erased i hin, hh, hs.sound.erased] at hsum
      cases hsum
    have hlt : i < s.header.maxInodes := by
      rw [← hh]
      exact hi.1
    have hpage := hb.within.pages i (L.lt_inRange hlt) hnot
    exact ⟨(valid_congr hh hpage).mp hi, hpage⟩
  have hr := hb.ready hs.sound.ready
  have hw : WholeRange t := by
    rw [hb.rest]
    exact ⟨hc.whole.start, hc.whole.numbers⟩
  have hnum : t.maxInodeNumber = s.maxInodeNumber := by rw [hb.rest]
  have hcat : Catalog t := by
    apply hc.fewer hh hb.within.variant (hb.within.reliable hc.plan) hr hw _ hpages
    · intro i hi
      rw [hnum]
      exact (hc.number_le (hpages i hi).1).2
    · rw [hnum]
      exact hc.numbers_lt
  have hsound : Sound t [] := by
    refine ⟨hr, hcat.erased, hs.sound.flash.fewer hh hpages, ?_, List.forall_mem_nil _, List.Pairwise.nil⟩
    intro i hi p hp
    obtain ⟨hv, hpage⟩ := hpages i hi
    rw [listed_congr hh hpage] at hp
    rw [hb.rest]
    exact hs.sound.notFree i hv p hp
  refine ⟨?_, hkept⟩
  apply hs.fewer hb.within.sameHeader hcat hsound (hnum.trans_le hs.numbers)
  · intro i hi
    obtain ⟨hv, hpage⟩ := hpages i hi
    refine ⟨hv, hh, hpage, fun _ p hp => ?_⟩
    have hreg := hs.sound.flash.region i hv p hp
    exact hb.within.pages p hreg.2 fun hin => (hl p hin).1.1.not_ge hreg.1
  · exact fun i hi hne => (hkept i hi fun hin => hne (hl i hin).2).1

theorem Shelf.wp_cleanupFram (hs : Shelf hd N s [] m) (hN : N < 2 ^ 64) :
    wp cleanupFram (fun _ t => Shelf hd N t [] m) (fun _ _ => True) s := by
  have hc := hs.catalog
  have L := hs.sound.ready.layout
  simp only [cleanupFram, getAllInodes, wp_bind, wp_get]
  apply wp_mono (hc.wp_collectAllInodes (List.range s.header.maxInodes) [] fun i hi => List.mem_range.mp hi)
  · rintro r t ⟨rfl, rfl⟩
    rw [List.nil_append]
    have hval : ∀ i ∈ recordPages t, Valid t i := fun i hi => mem_recordPages.mp hi
    have hrange : ∀ h ∈ (recordPages t).map (openedAt t), InRange t h.page := by
      intro h hh
      obtain ⟨i, hi, rfl⟩ := List.mem_map.mp hh
      rw [(hc.opened (hval i hi)).page_eq]
      exact L.lt_inRange (hval i hi).1
    apply wp_mono (wp_eraseAllDeleted ((recordPages t).map (openedAt t)) hs.sound.ready hrange)
    · intro _ u hu
      have hgone : ∀ p ∈ (((recordPages t).map (openedAt t)).filter (·.inode.fileName = [])).map (·.page),
          Valid t p ∧ nameAt t p = [] := by
        intro p hp
        obtain ⟨h, hh, rfl⟩ := List.mem_map.mp hp
        obtain ⟨hh, hn⟩ := List.mem_filter.mp hh
        obtain ⟨i, hi, rfl⟩ := List.mem_map.mp hh
        have ho := hc.opened (hval i hi)
        rw [ho.page_eq, ← ho.name]
        exact ⟨hval i hi, by simpa using hn⟩
      obtain ⟨hshelf, hkept⟩ := hs.blanked hu hgone
      apply hshelf.wp_closeScanned (recordPages t) hN hu.within.header _ (recordPages_nodup t)
      intro i hi
      have ho := hc.opened (hval i hi)
      by_cases hin : i ∈ (((recordPages t).map (openedAt t)).filter (·.inode.fileName = [])).map (·.page)
      · exact Or.inr ⟨hs.deleted i (hval i hi) (hgone i hin).2, ho.connected, ho.toHeld.pages_lt L⟩
      · exact Or.inl (hkept i (hval i hi) hin)
    · exact fun _ _ h => h
  · exact fun _ _ h => h.elim

end Cleanup

-- what is done with a drive while no file of it is open
inductive Job
  | visit (name : List UInt8) (mode : OpenMode) (calls : List Call) (removes : Bool)
  | list
  | cleanup
  | mount
deriving DecidableEq

inductive Report
  | refused
  | closed (talk : List (Call × Answer))
  | removed (talk : List (Call × Answer)) (done : Bool)
  | listed (files : List (List UInt8 × ℕ))
  | cleaned
  | mounted (ok : Bool)
deriving DecidableEq

-- what the store says of a job, and its files afterwards; the flush of a destructor reports nothing
inductive Store.Serves (m : Store) : Job → Report → Store → Prop
  | refused (name : List UInt8) (mode : OpenMode) (calls : List Call) (removes : Bool) (hm : m name = none) :
      Serves m (.visit name mode calls removes) .refused m
  | closed (name : List UInt8) (mode : OpenMode) (talk : List (Call × Answer)) (f : IdealFile) (ok : Bool)
      (ht : (opened mode (m name)).Talks talk f) :
      Serves m (.visit name mode (talk.map Prod.fst) false) (.closed talk)
        (Function.update m name (if ok then some f.file.content else f.saved))
  | removed (name : List UInt8) (mode : OpenMode) (talk : List (Call × Answer)) (f : IdealFile)
      (ht : (opened mode (m name)).Talks talk f) :
      Serves m (.visit name mode (talk.map Prod.fst) true) (.removed talk true) (Function.update m name none)
  | notRemoved (name : List UInt8) (mode : OpenMode) (talk : List (Call × Answer)) (f : IdealFile) (saved : Option (List UInt8))
      (ht : (opened mode (m name)).Talks talk f) (hs : saved = none ∨ saved = f.saved) :
      Serves m (.visit name mode (talk.map Prod.fst) true) (.removed talk false) (Function.update m name saved)
  | listed (files : List (List UInt8 × ℕ)) (hf : ListsStore m files) : Serves m .list (.listed files) m
  | cleaned : Serves m .cleanup .cleaned m
  | mounted : Serves m .mount (.mounted true) m

inductive Store.ServesAll : Store → List (Job × Report) → Store → Prop
  | start (m : Store) : ServesAll m [] m
  | step {m m' m'' : Store} {job : Job} {report : Report} {rest : List (Job × Report)} :
      m.Serves job report m' → ServesAll m' rest m'' → ServesAll m ((job, report) :: rest) m''

-- some call of the visit came back short, went behind the end or truncated
def Job.Beyond (m : Store) : Job → Report → Prop
  | .visit name mode _ _, .closed talk => (opened mode (m name)).GoesBeyond talk
  | .visit name mode _ _, .removed talk _ => (opened mode (m name)).GoesBeyond talk
  | _, _ => False

-- files have names, and none is opened to be emptied
def Job.Plain : Job → Prop
  | .visit name mode _ _ => name ≠ [] ∧ mode.trunc = false
  | _ => True

section Jobs

variable [Config] {hd : Header} {N : ℕ} {s t u : Fs} {m : Store} {job : Job}

def Job.run : Job → FsM Report
  | .visit name mode calls removes => do
    let h ← openFile name mode
    if h.connected then
      let r ← askEach calls h
      if removes then
        let d ← deleteFile r.2
        closeHandle d.2
        pure (.removed r.1 d.1)
      else
        closeHandle r.2
        pure (.closed r.1)
    else pure .refused
  | .list => do
    let files ← listFiles
    pure (.listed files)
  | .cleanup => do
    cleanupFram
    pure .cleaned
  | .mount => do
    let ok ← SimpleFlashFs.mount
    pure (.mounted ok)

def runJobs : List Job → FsM (List (Job × Report))
  | [] => pure []
  | job :: jobs => do
    let report ← job.run
    let rest ← runJobs jobs
    pure ((job, report) :: rest)

theorem Session.wp_closed {h : FileHandle} {name : List UInt8} {f : IdealFile} {mode : OpenMode} {talk : List (Call × Answer)}
    (hs : Session hd N s [] m name h f) (hN : N < 2 ^ 64) (ht : (opened mode (m name)).Talks talk f) :
    wp (closeHandle h >>= fun _ => pure (Report.closed talk)) (fun r t =>
      ∃ m', m.Serves (.visit name mode (talk.map Prod.fst) false) r m' ∧ Shelf hd N t [] m') (fun _ _ => True) s := by
  rw [wp_bind]
  apply wp_mono (hs.desk.wp_closeHandle hN hs.handle)
  · rintro _ t ⟨ok, hshelf⟩
    exact ⟨_, .closed name mode talk f ok ht, hshelf⟩
  · exact fun _ _ h => h

theorem Session.wp_removed {h : FileHandle} {name : List UInt8} {f : IdealFile} {mode : OpenMode} {talk : List (Call × Answer)}
    (hs : Session hd N s [] m name h f) (hN : N < 2 ^ 64) (ht : (opened mode (m name)).Talks talk f) :
    wp (deleteFile h >>= fun d => closeHandle d.2 >>= fun _ => pure (Report.removed talk d.1)) (fun r t =>
      ∃ m', m.Serves (.visit name mode (talk.map Prod.fst) true) r m' ∧ Shelf hd N t [] m') (fun _ _ => True) s := by
  rw [wp_bind]
  apply wp_mono (hs.wp_deleteFile hN)
  · intro d t hclose
    rw [wp_bind]
    apply wp_mono hclose
    · rintro _ u (hu | ⟨hno, hu⟩)
      · cases hdone : d.1 with
        | true => exact ⟨_, .removed name mode talk f ht, hu⟩
        | false => exact ⟨_, .notRemoved name mode talk f none ht (Or.inl rfl), hu⟩
      · rw [hno]
        exact ⟨_, .notRemoved name mode talk f f.saved ht (Or.inr rfl), hu⟩
    · exact fun _ _ h => h
  · exact fun _ _ h => h

theorem Shelf.wp_visit {name : List UInt8} {mode : OpenMode} (hs : Shelf hd N s [] m)
    (hroom : 42 + hd.maxPathLen ≤ hd.pageSize) (hN : N < 2 ^ 64)
    (hnum : s.maxInodeNumber + 1 ≤ N) (hname : name ≠ []) (hmode : mode.trunc = false) (calls : List Call) (removes : Bool) :
    wp (Job.visit name mode calls removes).run (fun r t =>
      (∃ m', m.Serves (.visit name mode calls removes) r m' ∧ Shelf hd N t [] m') ∨
        Job.Beyond m (.visit name mode calls removes) r) (fun _ _ => True) s := by
  rw [Job.run, wp_bind]
  apply wp_mono (hs.wp_openFile hroom hN hnum hname hmode)
  · intro h t hopen
    cases hopen with
    | refused t ht hm =>
      rw [if_neg (by simp)]
      exact Or.inl ⟨m, .refused name mode calls removes hm, ht⟩
    | opened h t hn hm ht =>
      have hsess : Session hd N t [] m name h (opened mode (m name)) := ⟨ht, hm, hn, hname⟩
      rw [if_pos hm.connected, wp_bind]
      apply wp_mono (hsess.wp_askEach calls hN)
      · rintro ⟨talk, k⟩ u (⟨g, hcalls, htalk, hg⟩ | hb)
        · have hcalls : talk.map Prod.fst = calls := hcalls
          subst hcalls
          cases removes with
          | true =>
            rw [if_pos rfl]
            apply wp_mono (hg.wp_removed hN htalk)
            · exact fun _ _ h => Or.inl h
            · exact fun _ _ h => h
          | false =>
            rw [if_neg (by simp)]
            apply wp_mono (hg.wp_closed hN htalk)
            · exact fun _ _ h => Or.inl h
            · exact fun _ _ h => h
        · cases removes with
          | true =>
            rw [if_pos rfl, wp_bind]
            apply wp_run
            · intro d v _
              rw [wp_bind]
              exact wp_run (fun _ _ _ => Or.inr hb) fun _ _ _ => trivial
            · exact fun _ _ _ => trivial
          | false =>
            rw [if_neg (by simp), wp_bind]
            exact wp_run (fun _ _ _ => Or.inr hb) fun _ _ _ => trivial
      · exact fun _ _ h => h
  · exact fun _ _ h => h

theorem Shelf.wp_job (hs : Shelf hd N s [] m) (hroom : 42 + hd.maxPathLen ≤ hd.pageSize) (hinodes : 0 < hd.maxInodes)
    (hN : N < 2 ^ 64) (hnum : s.maxInodeNumber + 1 ≤ N) (hplain : job.Plain) :
    wp job.run (fun r t => (∃ m', m.Serves job r m' ∧ Shelf hd N t [] m') ∨ job.Beyond m r) (fun _ _ => True) s := by
  cases job with
  | visit name mode calls removes => exact hs.wp_visit hroom hN hnum hplain.1 hplain.2 calls removes
  | list =>
    rw [Job.run, wp_bind]
    apply wp_mono (hs.wp_listFiles hN)
    · exact fun files t ht => Or.inl ⟨m, .listed files ht.1, ht.2⟩
    · exact fun _ _ h => h
  | cleanup =>
    rw [Job.run, wp_bind]
    apply wp_mono (hs.wp_cleanupFram hN)
    · exact fun _ t ht => Or.inl ⟨m, .cleaned, ht⟩
    · exact fun _ _ h => h
  | mount =>
    rw [Job.run, wp_bind]
    apply wp_mono (hs.wp_mount hinodes)
    · rintro ok t ⟨rfl, ht⟩
      exact Or.inl ⟨m, .mounted, ht⟩
    · exact fun _ _ h => h

theorem Shelf.mono {M : ℕ} (hs : Shelf hd N s [] m) (hle : N ≤ M) : Shelf hd M s [] m :=
  { hs with numbers := hs.numbers.trans hle }

-- the reports of a run are those of the store, up to a visit that it does not answer for
def ServedAs (hd : Header) (N : ℕ) (m : Store) (log : List (Job × Report)) (t : Fs) : Prop :=
  (∃ m', m.ServesAll log m' ∧ Shelf hd N t [] m') ∨
    ∃ pre job report rest m', log = pre ++ (job, report) :: rest ∧ m.ServesAll pre m' ∧ job.Beyond m' report

theorem ServedAs.after {report : Report} {rest : List (Job × Report)} {m' : Store} (hserve : m.Serves job report m')
    (hr : ServedAs hd N m' rest t) : ServedAs hd N m ((job, report) :: rest) t := by
  rcases hr with ⟨m'', hall, ht⟩ | ⟨pre, j, r, tail, m'', rfl, hall, hb⟩
  · exact Or.inl ⟨m'', .step hserve hall, ht⟩
  · exact Or.inr ⟨(job, report) :: pre, j, r, tail, m'', rfl, .step hserve hall, hb⟩

theorem Shelf.wp_runJobs (jobs : List Job) (hs : Shelf hd N s [] m) (hroom : 42 + hd.maxPathLen ≤ hd.pageSize)
    (hinodes : 0 < hd.maxInodes) (hN : N + jobs.length < 2 ^ 64) (hplain : ∀ job ∈ jobs, job.Plain) :
    wp (runJobs jobs) (fun log t => ServedAs hd (N + jobs.length) m log t) (fun _ _ => True) s := by
  induction jobs generalizing N s m with
  | nil => exact Or.inl ⟨m, .start m, hs⟩
  | cons job jobs ih =>
    rw [List.length_cons] at hN ⊢
    have hlen : N + (jobs.length + 1) = N + 1 + jobs.length := by omega
    have hnum := hs.numbers
    rw [hlen] at hN ⊢
    rw [runJobs, wp_bind]
    apply wp_mono ((hs.mono (Nat.le_succ N)).wp_job hroom hinodes (by omega) (by omega) (hplain job List.mem_cons_self))
    · rintro report u (⟨m', hserve, hm'⟩ | hb)
      · rw [wp_bind]
        apply wp_mono (ih hm' hN fun j hj => hplain j (List.mem_cons_of_mem job hj))
        · exact fun rest t ht => ht.after hserve
        · exact fun _ _ h => h
      · rw [wp_bind]
        exact wp_run (fun rest t _ => Or.inr ⟨[], job, report, rest, m, rfl, .start m, hb⟩) fun _ _ _ => trivial
    · exact fun _ _ h => h

theorem MountedEmpty.shelf (e : MountedEmpty s t) (he : EmptyDrive s) (hr : t.headerInodeRange = InodeRange.reinit t.header) :
    Shelf s.header 0 t [] (fun _ => none) := by
  have hc := e.catalog he hr
  have hno := e.not_valid he
  constructor
  · exact e.header
  · rw [e.mem, e.header]
    exact he.header
  · exact hc
  · refine ⟨hc.ready, hc.erased, ⟨?_, ?_, ?_, ?_⟩, ?_, List.forall_mem_nil _, List.Pairwise.nil⟩
    · exact fun i hi => absurd hi (hno i)
    · exact fun i hi => absurd hi (hno i)
    · exact fun i hi => absurd hi (hno i)
    · exact fun i _ hi => absurd hi (hno i)
    · exact fun i hi => absurd hi (hno i)
  · exact e.numbers.le
  · exact fun i hi => absurd hi (hno i)
  · exact fun i hi => absurd hi (hno i)
  · intro name content _ hm
    cases hm

theorem EmptyDrive.wp_mount (he : EmptyDrive s) :
    wp SimpleFlashFs.mount (fun ok t => ok = true ∧ Shelf s.header 0 t [] (fun _ => none)) (fun _ _ => False) s := by
  rw [SimpleFlashFs.mount, wp_bind, wp_modify]
  apply wp_mono he.wp_initFram
  · rintro ok t ⟨rfl, e, hr⟩
    exact ⟨rfl, e.shelf he hr⟩
  · exact fun _ _ h => h

-- a FRAM drive that was formatted and is mounted: a store without files
theorem runJobs_serves {jobs : List Job} {log : List (Job × Report)} (he : EmptyDrive s)
    (hroom : 42 + s.header.maxPathLen ≤ s.header.pageSize) (hlen : jobs.length < 2 ^ 64) (hplain : ∀ job ∈ jobs, job.Plain)
    (hrun : runJobs (.mount :: jobs) s = .ok log t) : ServedAs s.header jobs.length (fun _ => none) log t := by
  have hw : wp (runJobs (.mount :: jobs)) (fun log t => ServedAs s.header jobs.length (fun _ => none) log t)
      (fun _ _ => True) s := by
    rw [runJobs, wp_bind, Job.run, wp_bind]
    apply wp_mono he.wp_mount
    · rintro ok u ⟨rfl, hs⟩
      rw [wp_pure, wp_bind]
      have hjobs := hs.wp_runJobs jobs hroom he.inodes (by omega) hplain
      rw [Nat.zero_add] at hjobs
      apply wp_mono hjobs
      · exact fun rest t ht => ht.after .mounted
      · exact fun _ _ h => h
    · exact fun _ _ h => h.elim
  exact wp_ok hw hrun

end Jobs

section Example

def shortNames : Header := { magicHeader with maxPathLen := 16, maxPathLen_lt := by decide }

def storeDrive : Fs :=
  match @writeHeader dynamicConfig shortNames { variant := .fram, mem := { bytes := List.replicate (64 * 12) 0xFF } } with
  | .ok _ t => t
  | .error _ t => t

theorem storeDrive_empty : @EmptyDrive dynamicConfig storeDrive := by
  apply @EmptyDrive.mk dynamicConfig
  · decide +kernel
  · decide +kernel
  · apply @HeaderOn.mk dynamicConfig <;> decide +kernel
  · constructor
    · constructor <;> decide +kernel
    · decide +kernel
  · decide +kernel
  · decide +kernel
  · decide +kernel

-- two files are written, read back after a mount, and one of them is deleted
def storeJobs : List Job :=
  [.visit [97] { out := true } [.write [1, 2, 3]] false, .visit [98] { out := true } [.write [4], .flush] false, .mount,
    .visit [97] {} [.seek 1, .read 9] false, .visit [98] {} [] true, .cleanup, .list]

theorem runJobs_serves_twoFiles : ∃ log t, @runJobs dynamicConfig (.mount :: storeJobs) storeDrive = .ok log t ∧
    log.map Prod.snd = [.mounted true, .closed [(.write [1, 2, 3], .count 3)], .closed [(.write [4], .count 1), (.flush, .done true)],
      .mounted true, .closed [(.seek 1, .done true), (.read 9, .bytes [2, 3])], .removed [] true, .cleaned, .listed [([97], 3)]] ∧
    @ServedAs dynamicConfig storeDrive.header storeJobs.length (fun _ => none) log t := by
  have hrun : passes (@runJobs dynamicConfig (.mount :: storeJobs)) (fun log _ => decide (log.map Prod.snd =
      [.mounted true, .closed [(.write [1, 2, 3], .count 3)], .closed [(.write [4], .count 1), (.flush, .done true)],
        .mounted true, .closed [(.seek 1, .done true), (.read 9, .bytes [2, 3])], .removed [] true, .cleaned, .listed [([97], 3)]]))
      storeDrive = true := by
    decide +kernel
  obtain ⟨log, t, hrun, hlog⟩ := returns_of_passes hrun
  refine ⟨log, t, hrun, of_decide_eq_true hlog, ?_⟩
  exact @runJobs_serves dynamicConfig _ _ _ _ storeDrive_empty (by decide +kernel) (by decide) (by simp [storeJobs, Job.Plain]) hrun

end Example

end SimpleFlashFs
