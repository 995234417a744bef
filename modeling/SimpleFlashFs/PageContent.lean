import SimpleFlashFs.Sound
import SimpleFlashFs.Supply
import SimpleFlashFs.Wrapper
import SimpleFlashFs.Lib.Paged

namespace SimpleFlashFs

open Lib

section Entry

variable {s t : Fs} {h : FileHandle} {pages : List (List UInt8)} {page : List UInt8} {idx p : ℕ} {m : DataPage}

-- the bytes of a listed page; one that is not programmed yet counts as zeros
def entryPage (s : Fs) (m : DataPage) : List UInt8 :=
  if m.state = .new then List.replicate s.header.pageSize 0 else pageAt s m.pageId

-- the pages behind the valid entries
def ShowsPages (s : Fs) (h : FileHandle) (pages : List (List UInt8)) : Prop :=
  ∃ kept dropped, Entries h.inode.dataPages kept dropped ∧ kept.map (entryPage s) = pages

theorem entryPage_length (hr : Ready s) (hm : InRange s m.pageId) : (entryPage s m).length = s.header.pageSize := by
  rw [entryPage]
  split
  · exact List.length_replicate
  · exact hr.layout.pageAt_length hm

theorem Owns.inRange (ho : Owns s h) (hm : m ∈ h.inode.dataPages) : InRange s m.pageId :=
  (ho.region m.pageId (List.mem_map_of_mem hm)).2

theorem ShowsPages.uniform (hs : ShowsPages s h pages) (hr : Ready s) (ho : Owns s h) : Uniform s.header.pageSize pages := by
  obtain ⟨kept, dropped, e, rfl⟩ := hs
  intro page hpage
  obtain ⟨m, hm, rfl⟩ := List.mem_map.mp hpage
  apply entryPage_length hr
  apply ho.inRange
  rw [e.eq]
  exact List.mem_append_left _ hm

theorem ShowsPages.valid (hs : ShowsPages s h pages) : h.inode.countValidDataPages = pages.length := by
  obtain ⟨kept, dropped, e, rfl⟩ := hs
  rw [Inode.countValidDataPages, e.valid, List.length_map]

theorem ShowsPages.entry (hs : ShowsPages s h pages) (hidx : idx < pages.length) : ∃ m, h.inode.dataPages[idx]? = some m ∧
    m.state ≠ .deleted ∧ pages[idx]? = some (entryPage s m) := by
  obtain ⟨kept, dropped, e, rfl⟩ := hs
  have hlt : idx < kept.length := by simpa using hidx
  refine ⟨kept[idx], ?_, e.kept _ (List.getElem_mem hlt), ?_⟩
  · rw [e.eq, List.getElem?_append_left hlt, List.getElem?_eq_getElem hlt]
  · rw [List.getElem?_map, List.getElem?_eq_getElem hlt]
    rfl

theorem entryPage_congr (hh : t.header = s.header) (hp : m.state ≠ .new → pageAt t m.pageId = pageAt s m.pageId) :
    entryPage t m = entryPage s m := by
  rw [entryPage, entryPage, hh]
  split
  · rfl
  · next hn => exact hp hn

theorem ShowsPages.congr (hs : ShowsPages s h pages) (hh : t.header = s.header)
    (hp : ∀ m ∈ h.inode.dataPages, m.state = .stored → pageAt t m.pageId = pageAt s m.pageId) : ShowsPages t h pages := by
  obtain ⟨kept, dropped, e, rfl⟩ := hs
  refine ⟨kept, dropped, e, ?_⟩
  apply List.map_congr_left
  intro m hm
  apply entryPage_congr hh
  intro hn
  have hmem : m ∈ h.inode.dataPages := by
    rw [e.eq]
    exact List.mem_append_left _ hm
  have hnd := e.kept m hm
  cases hst : m.state with
  | new => exact absurd hst hn
  | stored => exact hp m hmem hst
  | deleted => exact absurd hst hnd

-- one more page, not programmed yet
theorem ShowsPages.insert (hs : ShowsPages s h pages) (hh : t.header = s.header) (hm : t.mem = s.mem) :
    ShowsPages t (h.setPages (h.inode.dataPages.insertIdx h.inode.countValidDataPages ⟨p, .new⟩))
      (pages ++ [List.replicate s.header.pageSize 0]) := by
  have hvalid := hs.valid
  obtain ⟨kept, dropped, e, rfl⟩ := hs
  rw [List.length_map] at hvalid
  refine ⟨kept ++ [⟨p, .new⟩], dropped, ?_, ?_⟩
  · rw [hvalid]
    exact e.append (by simp)
  · have hsame : ∀ m ∈ kept, entryPage t m = entryPage s m := by
      intro m _
      apply entryPage_congr hh
      rw [pageAt, pageAt, hm, hh]
      exact fun _ => rfl
    rw [List.map_append, List.map_congr_left hsame, List.map_singleton, entryPage, hh]
    rfl

theorem replacePage_eq_set {l : List DataPage} (hn : (l.map DataPage.pageId).Nodup) (hm : l[idx]? = some m) :
    replacePage m.pageId p l = l.set idx ⟨p, .stored⟩ := by
  induction l generalizing idx with
  | nil => cases hm
  | cons x xs ih =>
    rw [List.map_cons, List.nodup_cons] at hn
    cases idx with
    | zero =>
      obtain rfl := Option.some_inj.mp hm
      rw [replacePage, if_pos rfl, List.set_cons_zero]
    | succ idx =>
      have hxs : xs[idx]? = some m := by simpa using hm
      have hne : x.pageId ≠ m.pageId := fun e => hn.1 (e ▸ List.mem_map_of_mem (List.mem_of_getElem? hxs))
      rw [replacePage, if_neg hne, List.set_cons_succ, ih hn.2 hxs]

-- the entry idx and its page are exchanged, no other page is touched
theorem ShowsPages.set (hs : ShowsPages s h pages) (hidx : idx < pages.length) (hpage : entryPage t m = page)
    (hh : t.header = s.header) {l : List DataPage}
    (hl : ∀ kept dropped, Entries h.inode.dataPages kept dropped → idx < kept.length →
      ∃ dropped', Entries l (kept.set idx m) dropped')
    (hsame : ∀ j ≠ idx, ∀ x, h.inode.dataPages[j]? = some x → x.state ≠ .new → pageAt t x.pageId = pageAt s x.pageId) :
    ShowsPages t (h.setPages l) (pages.set idx page) := by
  obtain ⟨kept, dropped, e, rfl⟩ := hs
  have hlt : idx < kept.length := by simpa using hidx
  obtain ⟨dropped', e'⟩ := hl kept dropped e hlt
  refine ⟨_, dropped', e', ?_⟩
  apply List.ext_getElem?
  intro j
  by_cases hj : idx = j
  · subst hj
    simp [hlt, hpage]
  · rw [List.getElem?_map, List.getElem?_set_ne hj, List.getElem?_set_ne hj, List.getElem?_map]
    cases hx : kept[j]? with
    | none => rfl
    | some x =>
      have hentry : h.inode.dataPages[j]? = some x := by
        rw [e.eq, List.getElem?_append_left (List.getElem?_eq_some_iff.mp hx).1, hx]
      simp only [Option.map_some, Option.some_inj]
      exact entryPage_congr hh fun hnew => hsame j (Ne.symm hj) x hentry hnew

end Entry

-- a call that changes nothing of the handle but the list of the pages
structure Relists (h : FileHandle) (t : Fs) (k : FileHandle) (pages : List (List UInt8)) : Prop where
  eq : k = h.setPages k.inode.dataPages
  shows : ShowsPages t k pages

theorem ShowsPages.relists {s : Fs} {h : FileHandle} {pages : List (List UInt8)} (hs : ShowsPages s h pages) :
    Relists h s h pages := ⟨rfl, hs⟩

theorem Relists.trans {t u : Fs} {h k l : FileHandle} {pages pages' : List (List UInt8)} (a : Relists h t k pages)
    (b : Relists k u l pages') : Relists h u l pages' := ⟨by rw [b.eq, a.eq]; rfl, b.shows⟩

theorem Relists.advance {t u : Fs} {h k l : FileHandle} {pages pages' : List (List UInt8)} {n m : ℕ}
    (a : Relists (h.advance n) t k pages) (b : Relists (k.advance m) u l pages') : Relists (h.advance (n + m)) u l pages' := by
  refine ⟨?_, b.shows⟩
  rw [b.eq, a.eq, FileHandle.advance, FileHandle.advance, FileHandle.advance, ← Nat.add_assoc]
  rfl

theorem Relists.advanced {t : Fs} {h k : FileHandle} {pages : List (List UInt8)} (a : Relists h t k pages) (n : ℕ) :
    Relists (h.advance n) t (k.advance n) pages := ⟨by rw [a.eq]; rfl, a.shows⟩

section Pages

variable {s t : Fs} {h : FileHandle} {pages : List (List UInt8)} {page : List UInt8} {idx p : ℕ} {m : DataPage}

-- a page is written to a number that no other entry carries
theorem ShowsPages.programmed {op : PhysOp} {l : List DataPage} (hs : ShowsPages s h pages) (hidx : idx < pages.length)
    (hi : ∀ x ∈ h.inode.dataPages, InRange s x.pageId) (ht : Programmed s t p op) (hop : op.content = page)
    (hl : ∀ kept dropped, Entries h.inode.dataPages kept dropped → idx < kept.length →
      ∃ dropped', Entries l (kept.set idx ⟨p, .stored⟩) dropped')
    (hp : ∀ j ≠ idx, ∀ x, h.inode.dataPages[j]? = some x → x.pageId ≠ p) :
    Relists h t (h.setPages l) (pages.set idx page) := by
  refine ⟨rfl, ?_⟩
  apply hs.set hidx _ ht.header hl
  · intro j hj x hx _
    exact ht.others _ (hp j hj x hx) (hi x (List.mem_of_getElem? hx))
  · rw [entryPage, if_neg (by simp), ← hop]
    exact ht.page

theorem ids_getElem_ne (ho : Owns s h) (hm : h.inode.dataPages[idx]? = some m) {j : ℕ} (hj : j ≠ idx) {x : DataPage}
    (hx : h.inode.dataPages[j]? = some x) : x.pageId ≠ m.pageId := by
  intro he
  have hn := ho.nodup
  apply hj
  have h1 : h.ids[j]? = some m.pageId := by rw [FileHandle.ids, List.getElem?_map, hx, ← he]; rfl
  have h2 : h.ids[idx]? = some m.pageId := by rw [FileHandle.ids, List.getElem?_map, hm]; rfl
  have hlt := (List.getElem?_eq_some_iff.mp h1).1
  exact (List.getElem?_inj hlt hn).mp (h1.trans h2.symm)

theorem wp_writePage_shows (hr : Ready s) (ho : Owns s h) (hs : ShowsPages s h pages) (hidx : idx < pages.length)
    (hlen : page.length = s.header.pageSize) :
    wp (writePage h page idx) (fun r t => Relists h t r.2 (if r.1 then pages.set idx page else pages) ∧
      (h.inode.dataPages[idx]?.map (·.state) = some .new → r.1 = true)) (fun _ _ => True) s := by
  obtain ⟨m, hm, hnd, -⟩ := hs.entry hidx
  have hmem := List.mem_of_getElem? hm
  simp only [writePage, wp_bind, wp_get, hm]
  rw [wp_ite]
  constructor
  · intro hnew
    have hi := ho.inRange hmem
    rw [wp_bind]
    apply wp_perform (x := .write (writeAddress s.header m.pageId) page) hr.layout.toGeometry hr.noShort hi
      (hr.layout.writeAddress_eq hi) hlen
    · intro t ht
      refine ⟨?_, fun _ => rfl⟩
      apply hs.programmed hidx (fun _ hx => ho.inRange hx) ht rfl
      · intro kept dropped e hlt
        exact ⟨dropped, e.set hlt (by simp)⟩
      · exact fun j hj x hx => ids_getElem_ne ho hm hj hx
    · exact fun _ _ => trivial
  · intro hold
    rw [wp_bind]
    apply wp_mono (wp_allocateFreeDataPageBase hr.freeWF (fun _ _ => True))
    · intro r v hv
      have hsame : ShowsPages v h pages := by
        apply hs.congr (by rw [hv.rest])
        intro x _ _
        rw [pageAt, pageAt, hv.rest]
      cases r with
      | none => exact ⟨hsame.relists, fun hn => absurd (by simpa [hm] using hn) hold⟩
      | some p =>
        have hfree := hv.taken p rfl
        have hhead : v.header = s.header := by rw [hv.rest]
        have hir := (hr.free p hfree).2
        have hready : Layout v := hr.layout.of_eq hhead (by rw [hv.rest])
        have hi : InRange v p := by rwa [InRange, hhead]
        have hnoShort : NoShort v := by
          rw [NoShort, hv.rest]
          exact hr.noShort
        have hin : ∀ x ∈ h.inode.dataPages, InRange v x.pageId := by
          intro x hx
          rw [InRange, hhead]
          exact ho.inRange hx
        rw [wp_bind, ← hhead]
        apply wp_perform (x := .write (writeAddress v.header p) page) hready.toGeometry hnoShort hi
          (hready.writeAddress_eq hi) (by rw [hhead]; exact hlen)
        · intro t ht
          refine ⟨?_, fun hn => absurd (by simpa [hm] using hn) hold⟩
          apply hsame.programmed hidx hin ht rfl
          · intro kept dropped e hlt
            have hkm : kept[idx]? = some m := by
              rw [e.eq, List.getElem?_append_left hlt] at hm
              exact hm
            have hn : (kept.map DataPage.pageId).Nodup := by
              have := ho.nodup
              rw [FileHandle.ids, e.eq, List.map_append] at this
              exact (List.nodup_append.mp this).1
            refine ⟨dropped, ?_⟩
            rw [← replacePage_eq_set hn hkm]
            exact e.replace hkm
          · intro j _ x hx he
            exact ho.notFree x.pageId (List.mem_map_of_mem (List.mem_of_getElem? hx)) (he ▸ hfree)
        · exact fun _ _ => trivial
    · exact fun _ _ _ => trivial

theorem wp_allocateNewDataPagesLoop_shows (hf : s.freeDataPages.WF) (hs : ShowsPages s h pages) (fuel : ℕ)
    (hfuel : fuel = idx + 1 - pages.length) :
    wp (allocateNewDataPagesLoop idx fuel h) (fun r t => r.1 = true →
      Relists h t r.2 (pages ++ List.replicate (idx + 1 - pages.length) (List.replicate s.header.pageSize 0)))
      (fun _ _ => True) s := by
  induction fuel generalizing s h pages with
  | zero =>
    intro _
    rw [← hfuel]
    simpa using hs.relists
  | succ fuel ih =>
    rw [allocateNewDataPagesLoop, hs.valid, if_pos (by omega), wp_bind]
    apply wp_mono (wp_allocateFreeDataPageFor hf h fun _ _ => True)
    · intro r t ht
      rcases ht with ht | ⟨rfl, rfl⟩
      · cases r with
        | none => exact fun hr => absurd hr Bool.false_ne_true
        | some p =>
          have hhead : t.header = s.header := by rw [ht.rest]
          have hnext := hs.insert (p := p) hhead ht.mem
          have hmissing : idx + 1 - pages.length = fuel + 1 := hfuel.symm
          rw [hs.valid] at hnext
          apply wp_mono (ih ht.wf hnext (by rw [List.length_append, List.length_singleton]; omega))
          · intro r u hu hok
            have hall := hu hok
            have hrest : idx + 1 - (pages.length + 1) = fuel := by omega
            rw [hhead, List.length_append, List.length_singleton, hrest, List.append_assoc, List.singleton_append,
              ← List.replicate_succ] at hall
            rw [hmissing]
            exact ⟨by rw [hall.eq]; rfl, hall.shows⟩
          · exact fun _ _ h => h
      · exact fun hr => absurd hr Bool.false_ne_true
    · exact fun _ _ h => h

theorem wp_allocateNewDataPages_shows (hf : s.freeDataPages.WF) (hs : ShowsPages s h pages) (idx : ℕ) :
    wp (allocateNewDataPages idx h) (fun r t => r.1 = true →
      Relists h t r.2 (pages ++ List.replicate (idx + 1 - pages.length) (List.replicate s.header.pageSize 0)))
      (fun _ _ => True) s := by
  rw [allocateNewDataPages, hs.valid]
  exact wp_allocateNewDataPagesLoop_shows hf hs _ rfl

-- nothing is allocated for a page that is there
theorem allocateNewDataPages_listed (hs : ShowsPages s h pages) (hidx : idx < pages.length) :
    allocateNewDataPages idx h = pure (true, h) := by
  have hfuel : idx + 1 - h.inode.countValidDataPages = 0 := by
    rw [hs.valid]
    omega
  rw [allocateNewDataPages, hfuel, allocateNewDataPagesLoop]

theorem wp_allocateNewDataPageAt_shows (hr : Ready s) (ho : Owns s h) (hs : ShowsPages s h pages) (hidx : idx < pages.length) :
    wp (allocateNewDataPageAt idx h) (fun r t => if r.1 = true
      then Relists h t r.2 (pages.set idx (List.replicate s.header.pageSize 0)) ∧ ∃ p, r.2.inode.dataPages[idx]? = some ⟨p, .new⟩
      else Relists h t r.2 pages) (fun _ _ => True) s := by
  obtain ⟨m, hm, hnd, -⟩ := hs.entry hidx
  simp only [allocateNewDataPageAt, wp_bind]
  apply wp_mono (wp_allocateFreeDataPageFor hr.freeWF h fun _ _ => True)
  · intro r t ht
    rcases ht with ht | ⟨rfl, rfl⟩
    · have hhead : t.header = s.header := by rw [ht.rest]
      have hsame : ∀ q, pageAt t q = pageAt s q := by
        intro q
        rw [pageAt, pageAt, ht.mem, hhead]
      cases r with
      | none =>
        rw [wp_pure, if_neg Bool.false_ne_true]
        exact (hs.congr hhead fun x _ _ => hsame x.pageId).relists
      | some p =>
        have hlt : idx < h.inode.dataPages.length := (List.getElem?_eq_some_iff.mp hm).1
        simp only [hm, wp_pure, if_true]
        constructor
        · refine ⟨rfl, ?_⟩
          apply hs.set (m := ⟨p, .new⟩) hidx _ hhead
          · intro kept dropped e hlt
            exact ⟨_, (e.delete (m := { m with state := .deleted }) rfl).set hlt (by simp)⟩
          · exact fun j _ x _ _ => hsame x.pageId
          · rw [entryPage, if_pos rfl, hhead]
        · refine ⟨p, ?_⟩
          rw [FileHandle.setPages, List.getElem?_set_self]
          rw [List.length_append]
          omega
    · rw [wp_pure, if_neg Bool.false_ne_true]
      exact hs.relists
  · exact fun _ _ h => h

end Pages

section Rewrite

variable [Config] {s t : Fs} {h : FileHandle} {pages : List (List UInt8)} {page : List UInt8} {idx p : ℕ} {m : DataPage}

omit [Config] in
theorem wp_rewritePage_shows (hr : Ready s) (ho : Owns s h) (hs : ShowsPages s h pages) (hidx : idx < pages.length)
    (hlen : page.length = s.header.pageSize) :
    wp (rewritePage h page idx) (fun r t => Relists h t r.2 (if r.1 then pages.set idx page else pages))
      (fun _ _ => True) s := by
  obtain ⟨m, hm, hnd, -⟩ := hs.entry hidx
  simp only [rewritePage, hm, wp_bind, whenNeeded]
  by_cases hst : m.state = .stored
  · rw [decide_eq_true hst, if_pos rfl]
    apply wp_mono (wp_and (wp_allocateNewDataPageAt_shows hr ho hs hidx) ((safe_allocateNewDataPageAt idx).wp hr ho))
    · rintro ⟨ok, k⟩ t ⟨ht, he⟩
      dsimp only at ht he ⊢
      cases ok with
      | false => simpa using ht
      | true =>
        rw [if_pos rfl] at ht ⊢
        obtain ⟨hnew, p, hp⟩ := ht
        apply wp_mono (wp_writePage_shows (he.ready hr) (he.owns hr ho) hnew.shows (by simpa using hidx)
          (by rw [he.within.header]; exact hlen))
        · rintro ⟨ok, k'⟩ u ⟨hu, hok⟩
          obtain rfl : ok = true := hok (by rw [hp]; rfl)
          simpa using hnew.trans hu
        · exact fun _ _ h => h
    · exact fun _ _ _ => trivial
  · rw [decide_eq_false hst, if_neg Bool.false_ne_true, wp_pure, if_pos rfl]
    exact wp_mono (wp_writePage_shows hr ho hs hidx hlen) (fun _ _ h => h.1) fun _ _ h => h

theorem readPage_entry (hr : Ready s) (ho : Owns s h) (hm : m ∈ h.inode.dataPages) :
    (readPage s m.pageId).error = none ∧ (readPage s m.pageId).page = pageAt s m.pageId := by
  have hin := ho.inRange hm
  rw [readPage_eq hr.layout.toGeometry hin, if_neg (by simp)]
  exact ⟨rfl, rfl⟩

-- a part of one page is exchanged
omit [Config] in
theorem wp_rewritePage_patched (hr : Ready s) (ho : Owns s h) (hs : ShowsPages s h pages) (hm : h.inode.dataPages[idx]? = some m)
    (hidx : idx < pages.length) {start : ℕ} {data : List UInt8} (hd : start + data.length ≤ s.header.pageSize) :
    wp (rewritePage h (overwrite (entryPage s m) start data) idx) (fun r t =>
      (r.1 = false → Relists h t r.2 pages) ∧ (r.1 = true → ∃ pages', Relists h t r.2 pages' ∧
        pages'.length = pages.length ∧
        Patched 0 pages.flatten (s.header.pageSize * idx + start) data pages'.flatten)) (fun _ _ => True) s := by
  obtain ⟨m', hm', hnd, hentry⟩ := hs.entry hidx
  obtain rfl : m' = m := Option.some_inj.mp (hm'.symm.trans hm)
  have hu := hs.uniform hr ho
  have hlen : (entryPage s m').length = s.header.pageSize := hu _ (List.mem_of_getElem? hentry)
  have hnew : (overwrite (entryPage s m') start data).length = s.header.pageSize := by
    rw [overwrite_length (by omega), hlen]
  apply wp_mono (wp_rewritePage_shows hr ho hs hidx hnew)
  · rintro ⟨ok, k⟩ t ht
    refine ⟨?_, ?_⟩
    · rintro rfl
      exact ht
    · rintro rfl
      refine ⟨_, ht, by simp, ?_⟩
      have hfit : s.header.pageSize * idx + s.header.pageSize ≤ pages.flatten.length := by
        have := Nat.mul_le_mul_left s.header.pageSize (show idx + 1 ≤ pages.length from hidx)
        rw [hu.length]
        rwa [Nat.mul_succ] at this
      dsimp only
      rw [if_pos rfl, hu.flatten_patch hentry hd]
      apply Patched.of_overwrite
      omega
  · exact fun _ _ h => h

omit [Config] in
theorem whenNeeded_done (needed : Bool) (h : FileHandle) : whenNeeded needed h (pure (true, h)) = pure (true, h) := by
  cases needed <;> rfl

theorem wp_writeUnaligned_shows (hr : Ready s) (ho : Owns s h) (hs : ShowsPages s h pages) (data : List UInt8)
    (hpos : h.pos < pages.flatten.length) :
    wp (writeUnaligned h data (h.pos / s.header.pageSize)) (fun r t => (r.1 = none → Relists h t r.2 pages) ∧
      ∀ n, r.1 = some n → n = min data.length (s.header.pageSize - h.pos % s.header.pageSize) ∧
        ∃ pages', Relists (h.advance n) t r.2 pages' ∧ pages'.length = pages.length ∧
          Patched 0 pages.flatten h.pos (data.take n) pages'.flatten) (fun _ _ => True) s := by
  have hu := hs.uniform hr ho
  have hidx : h.pos / s.header.pageSize < pages.length := by
    apply Nat.div_lt_of_lt_mul
    rwa [← hu.length]
  have hmod := Nat.mod_lt h.pos hr.layout.pageSize_pos
  have hdiv := Nat.div_add_mod h.pos s.header.pageSize
  have hprev : h.pos / s.header.pageSize - 1 < pages.length := lt_of_le_of_lt (Nat.sub_le _ _) hidx
  obtain ⟨m, hm, hnd, hentry⟩ := hs.entry hidx
  obtain ⟨herr, hread⟩ := readPage_entry hr ho (List.mem_of_getElem? hm)
  simp only [writeUnaligned, wp_bind, wp_get, allocateNewDataPages_listed hs hidx, allocateNewDataPages_listed hs hprev,
    whenNeeded_done, wp_pure, not_true_eq_false, if_false, hm]
  have hpage : (if (some m).map (·.state) ≠ some PageState.new then (readPage s m.pageId).page
      else List.replicate s.header.pageSize 0) = entryPage s m := by
    rw [hread, entryPage]
    by_cases hnew : m.state = .new
    · rw [if_neg (by simp [hnew]), if_pos hnew]
    · rw [if_pos (by simp [hnew]), if_neg hnew]
  rw [hpage, if_neg (by simp [herr]), wp_bind]
  apply wp_mono (wp_rewritePage_patched hr ho hs hm hidx (by rw [List.length_take]; omega))
  · rintro ⟨ok, k⟩ t ⟨hfail, hok⟩
    cases ok with
    | false => exact ⟨fun _ => hfail rfl, by simp⟩
    | true =>
      refine ⟨by simp, ?_⟩
      intro n hn
      obtain rfl := Option.some_inj.mp hn
      obtain ⟨pages', hk, hlen, hp⟩ := hok rfl
      rw [hdiv] at hp
      exact ⟨rfl, pages', hk.advanced _, hlen, hp⟩
  · exact fun _ _ h => h

-- what a loop writes from the cursor on
structure LoopWrites (h : FileHandle) (pages : List (List UInt8)) (data : List UInt8) (written : ℕ) (t : Fs)
    (r : Option ℕ × FileHandle) : Prop where
  all : ∀ n, r.1 = some n → n = data.length ∧ ∃ pages', Relists (h.advance (data.length - written)) t r.2 pages' ∧
    Patched 0 pages.flatten h.pos (data.drop written) pages'.flatten
  stopped : r.1 = none → written < data.length

omit [Config] in
theorem LoopWrites.done {data : List UInt8} (hs : ShowsPages s h pages) (hpos : h.pos ≤ pages.flatten.length) :
    LoopWrites h pages data data.length s (some data.length, h) := by
  refine ⟨fun n hn => ?_, by simp⟩
  obtain rfl := Option.some_inj.mp hn
  rw [List.drop_length, Nat.sub_self]
  exact ⟨rfl, pages, hs.relists, .refl hpos⟩

omit [Config] in
theorem LoopWrites.next {k : FileHandle} {pages' : List (List UInt8)} {data : List UInt8} {written len : ℕ}
    {r : Option ℕ × FileHandle} (hlen : written + len ≤ data.length) (hlt : written < data.length)
    (hk : Relists (h.advance len) s k pages') (hp : Patched 0 pages.flatten h.pos (slice data written len) pages'.flatten)
    (hr : LoopWrites k pages' data (written + len) t r) : LoopWrites h pages data written t r where
  all n hn := by
    obtain ⟨hall, pages2, hk2, hp2⟩ := hr.all n hn
    have hpos : k.pos = h.pos + (slice data written len).length := by
      rw [hk.eq, slice_length, Nat.min_eq_left (by omega)]
      rfl
    have hsum : len + (data.length - (written + len)) = data.length - written := by omega
    rw [hpos] at hp2
    refine ⟨hall, pages2, ?_, ?_⟩
    · rw [← hsum]
      exact hk.advance hk2
    · have hparts : slice data written len ++ data.drop (written + len) = data.drop written := by
        rw [slice, ← List.drop_drop, List.take_append_drop]
      rw [← hparts]
      exact hp.trans hp2
  stopped _ := hlt

theorem wp_writeLoop_shows (fuel : ℕ) (data : List UInt8) (written : ℕ) (hr : Ready s) (ho : Owns s h)
    (hs : ShowsPages s h pages) (hle : written ≤ data.length) (hpos : h.pos ≤ pages.flatten.length)
    (hal : written < data.length → h.pos % s.header.pageSize = 0) :
    wp (writeLoop fuel h data written) (fun r t => LoopWrites h pages data written t r) (fun _ _ => True) s := by
  induction fuel generalizing s h pages written with
  | zero =>
    rw [writeLoop, wp_ite]
    refine ⟨fun _ => trivial, fun hn => ?_⟩
    obtain rfl : written = data.length := by omega
    exact .done hs hpos
  | succ fuel ih =>
    rw [writeLoop, wp_ite]
    refine ⟨fun hlt => ?_, fun hn => ?_⟩
    swap
    · obtain rfl : written = data.length := by omega
      exact .done hs hpos
    have hal := hal hlt
    have hu := hs.uniform hr ho
    have hps := hr.layout.pageSize_pos
    have hstart : s.header.pageSize * (h.pos / s.header.pageSize) = h.pos := Nat.mul_div_cancel' (Nat.dvd_of_mod_eq_zero hal)
    have hidx : h.pos / s.header.pageSize ≤ pages.length := by
      apply Nat.div_le_of_le_mul
      rwa [← hu.length]
    simp only [wp_bind, wp_get]
    apply wp_mono (wp_and (wp_allocateNewDataPages_shows hr.freeWF hs _) ((safe_allocateNewDataPages _).wp hr ho))
    · rintro ⟨ok, k⟩ t ⟨hk, he⟩
      dsimp only at hk he ⊢
      rw [wp_ite]
      refine ⟨fun _ => ⟨by simp, fun _ => hlt⟩, fun hok => ?_⟩
      have hk := hk (not_not.mp hok)
      have hrt := he.ready hr
      have hot := he.owns hr ho
      have hhead : t.header.pageSize = s.header.pageSize := by rw [he.within.header]
      obtain ⟨pages1, hpages1⟩ : ∃ pages1, pages1 = pages ++ List.replicate (h.pos / s.header.pageSize + 1 - pages.length)
        (List.replicate s.header.pageSize 0) := ⟨_, rfl⟩
      rw [← hpages1] at hk
      have hgrown : pages1.flatten = pages.flatten ++ List.replicate
          ((h.pos / s.header.pageSize + 1 - pages.length) * s.header.pageSize) 0 := by
        rw [hpages1, flatten_append_replicate]
      have hlt1 : h.pos / s.header.pageSize < pages1.length := by
        rw [hpages1, List.length_append, List.length_replicate]
        omega
      have hu1 := hk.shows.uniform hrt hot
      obtain ⟨m, hm, hnd, hentry⟩ := hk.shows.entry hlt1
      obtain ⟨herr, hread⟩ := readPage_entry hrt hot (List.mem_of_getElem? hm)
      simp only [hm]
      -- the rest of the loop, once the page is written
      have hnext : ∀ (u : Fs) (l : FileHandle) (pages2 : List (List UInt8)) (len : ℕ), written + len ≤ data.length →
          (written + len < data.length → len = s.header.pageSize) → DataEffect t k u l → Relists k u l pages2 →
          Patched 0 pages1.flatten h.pos (slice data written len) pages2.flatten →
          wp (writeLoop fuel (l.advance len) data (written + len)) (fun r v => LoopWrites h pages data written v r)
            (fun _ _ => True) u := by
        intro u l pages2 len hfit hfull hd hl hp
        have hall := (hk.trans hl).advanced len
        have hcov := hp.covers
        rw [slice_length, Nat.min_eq_left (by omega)] at hcov
        have hlpos : (l.advance len).pos = h.pos + len := by rw [hall.eq]; rfl
        have hhead' : u.header.pageSize = s.header.pageSize := by rw [hd.within.header, hhead]
        have hol : Owns u (l.advance len) := ⟨(hd.owns hrt hot).nodup, (hd.owns hrt hot).region, (hd.owns hrt hot).notFree⟩
        rw [hgrown] at hp
        apply wp_mono (ih (written + len) (hd.ready hrt) hol hall.shows hfit
          (by rw [hlpos]; exact hcov) ?_)
        · exact fun _ _ hv => LoopWrites.next hfit hlt hall hp.grown hv
        · exact fun _ _ h => h
        · intro hmore
          rw [hlpos, hhead', hfull hmore, Nat.add_mod_right, hal]
      rw [wp_ite]
      constructor
      · intro hpart
        have hlen : min (data.length - written) s.header.pageSize = data.length - written := by omega
        have hpage : (if m.state = .stored then (readPage t m.pageId).page else List.replicate s.header.pageSize 0) =
            entryPage t m := by
          rw [hread, entryPage, hhead]
          cases hst : m.state with
          | new => simp
          | stored => simp
          | deleted => exact absurd hst hnd
        rw [wp_bind, wp_get, hpage, if_neg (by simp [herr]), hlen, wp_bind]
        have hfits : 0 + (slice data written (data.length - written)).length ≤ t.header.pageSize := by
          rw [slice_length, hhead]
          omega
        have hwhole : (overwrite (entryPage t m) 0 (slice data written (data.length - written))).length = t.header.pageSize := by
          have hentry := hu1 _ (List.mem_of_getElem? hentry)
          rw [overwrite_length (by rw [hentry]; exact hfits), hentry]
        apply wp_mono (wp_and (wp_rewritePage_patched hrt hot hk.shows hm hlt1 hfits) ((safe_rewritePage hwhole _).wp hrt hot))
        · rintro ⟨ok, l⟩ u ⟨⟨-, hl⟩, hd⟩
          cases ok with
          | false => exact ⟨by simp, fun _ => hlt⟩
          | true =>
            obtain ⟨pages2, hl, -, hp⟩ := hl rfl
            rw [hhead, hstart, Nat.add_zero] at hp
            exact hnext u l pages2 _ (by omega) (by omega) hd hl hp
        · exact fun _ _ _ => trivial
      · intro hfull
        have hlen : (slice data written s.header.pageSize).length = t.header.pageSize := by
          rw [slice_length, hhead]
          omega
        rw [wp_bind]
        apply wp_mono (wp_and (wp_writePage_shows hrt hot hk.shows hlt1 hlen) ((safe_writePage hlen _).wp hrt hot))
        · rintro ⟨ok, l⟩ u ⟨⟨hl, -⟩, hd⟩
          cases ok with
          | false => exact ⟨by simp, fun _ => hlt⟩
          | true =>
            dsimp only at hl hd ⊢
            rw [if_pos rfl] at hl ⊢
            apply hnext u l _ _ (by omega) (fun _ => rfl) hd hl
            have hfit : s.header.pageSize * (h.pos / s.header.pageSize) + s.header.pageSize ≤ pages1.flatten.length := by
              have := Nat.mul_le_mul_left s.header.pageSize (show h.pos / s.header.pageSize + 1 ≤ pages1.length from hlt1)
              rw [hu1.length, hhead]
              rwa [Nat.mul_succ] at this
            rw [hu1.flatten_set hlt1 hlen, hhead, hstart]
            apply Patched.of_overwrite
            rw [hlen, hhead]
            omega
        · exact fun _ _ _ => trivial
    · exact fun _ _ _ => trivial

-- a write to the pages that was done
structure PagesWrote (h : FileHandle) (pages : List (List UInt8)) (data : List UInt8) (t : Fs) (k : FileHandle) : Prop where
  pos : k.pos = h.pos + data.length
  fileLen : k.inode.fileLen = max (h.pos + data.length) h.inode.fileLen
  inodeData : k.inode.inodeData = h.inode.inodeData
  modified : data ≠ [] → k.modified = true
  shows : ∃ pages', ShowsPages t k pages' ∧ Patched 0 pages.flatten h.pos data pages'.flatten

omit [Config] in
theorem PagesWrote.of_relists {k : FileHandle} {pages' : List (List UInt8)} {data : List UInt8}
    (hk : Relists (h.advance data.length) t k pages') (hp : Patched 0 pages.flatten h.pos data pages'.flatten) :
    PagesWrote h pages data t { k with
      modified := true, inode := { k.inode with fileLen := max k.pos k.inode.fileLen } } := by
  have hpos : k.pos = h.pos + data.length := by rw [hk.eq]; rfl
  have hlen : k.inode.fileLen = h.inode.fileLen := by rw [hk.eq]; rfl
  refine ⟨hpos, ?_, ?_, fun _ => rfl, pages', hk.shows, hp⟩
  · dsimp only
    rw [hpos, hlen]
  · dsimp only
    rw [hk.eq]
    rfl

omit [Config] in
theorem PagesWrote.nothing {k : FileHandle} (hk : Relists h t k pages) (hpos : h.pos ≤ pages.flatten.length)
    (hle : h.pos ≤ h.inode.fileLen) : PagesWrote h pages [] t k := by
  refine ⟨?_, ?_, ?_, fun hne => absurd rfl hne, pages, hk.shows, .refl hpos⟩
  · rw [hk.eq]
    rfl
  · rw [hk.eq]
    exact (max_eq_right hle).symm
  · rw [hk.eq]
    rfl

-- the end of write_pages, from a state in which the first n bytes are written
theorem wp_writeRest_shows {k : FileHandle} {pages1 : List (List UInt8)} {data : List UInt8} {n : ℕ} (already : ℕ)
    (hr : Ready t) (ho : Owns t k) (hn : n ≤ data.length) (hk : Relists (h.advance n) t k pages1)
    (hp : Patched 0 pages.flatten h.pos (data.take n) pages1.flatten) (hal : n < data.length → k.pos % t.header.pageSize = 0) :
    wp (do
        let r ← writeLoop data.length k data n
        match r with
        | (none, file) => pure (0, file)
        | (some written, file) =>
          pure (written + already, { file with
            modified := true, inode := { file.inode with fileLen := max file.pos file.inode.fileLen } }))
      (fun r u => (r.1 = 0 ∨ r.1 = data.length + already) ∧
        (r.1 = data.length + already → PagesWrote h pages data u r.2)) (fun _ _ => True) t := by
  have hkpos : k.pos = h.pos + (data.take n).length := by
    rw [List.length_take, Nat.min_eq_left hn]
    exact congrArg FileHandle.pos hk.eq
  rw [wp_bind]
  apply wp_mono (wp_writeLoop_shows data.length data n hr ho hk.shows hn (by rw [hkpos]; exact hp.covers) hal)
  · rintro ⟨r, l⟩ u hl
    cases r with
    | none =>
      have hlt := hl.stopped rfl
      exact ⟨Or.inl rfl, fun h0 => absurd h0 (by dsimp only; omega)⟩
    | some m =>
      obtain ⟨rfl, pages2, hk2, hp2⟩ := hl.all m rfl
      have hsum : n + (data.length - n) = data.length := by omega
      have hall := hk.advance hk2
      rw [hsum] at hall
      rw [hkpos] at hp2
      have hboth := hp.trans hp2
      rw [List.take_append_drop] at hboth
      exact ⟨Or.inr rfl, fun _ => .of_relists hall hboth⟩
  · exact fun _ _ h => h

theorem wp_writePages_shows (hr : Ready s) (ho : Owns s h) (hs : ShowsPages s h pages) (data : List UInt8) (already : ℕ)
    (hidx : h.pos % s.header.pageSize ≠ 0 → idx = h.pos / s.header.pageSize) (hpos : h.pos ≤ pages.flatten.length)
    (hle : data = [] → h.pos ≤ h.inode.fileLen) :
    wp (writePages h data idx already) (fun r t => (r.1 = 0 ∨ r.1 = data.length + already) ∧
      (r.1 = data.length + already → PagesWrote h pages data t r.2)) (fun _ _ => True) s := by
  have hu := hs.uniform hr ho
  have hps := hr.layout.pageSize_pos
  rw [writePages, wp_bind, writeFirst, wp_bind, wp_get, wp_ite]
  constructor
  · intro hun
    rw [hidx hun]
    have hmod := Nat.div_add_mod h.pos s.header.pageSize
    have hstart := Nat.mod_lt h.pos hps
    have hlt : h.pos < pages.flatten.length := by
      apply lt_of_le_of_ne hpos
      intro he
      rw [he, hu.length] at hun
      exact hun (Nat.mul_mod_right _ _)
    apply wp_mono (wp_and (wp_writeUnaligned_shows hr ho hs data hlt) ((safe_writeUnaligned data _).wp hr ho))
    · rintro ⟨r, k⟩ t ⟨⟨hnone, hsome⟩, he⟩
      cases r with
      | none =>
        refine ⟨Or.inl rfl, fun h0 => ?_⟩
        have hnil : data = [] := List.length_eq_zero_iff.mp (by dsimp only at h0; omega)
        rw [hnil]
        exact .nothing (hnone rfl) hpos (hle hnil)
      | some n =>
        obtain ⟨hn, pages1, hk, -, hp⟩ := hsome n rfl
        apply wp_writeRest_shows already (he.ready hr) (he.owns hr ho) (by omega) hk hp
        intro hmore
        have hkpos : k.pos = h.pos + n := congrArg FileHandle.pos hk.eq
        have hhead : t.header.pageSize = s.header.pageSize := by rw [he.within.header]
        have hsum : h.pos + n = s.header.pageSize * (h.pos / s.header.pageSize + 1) := by
          rw [Nat.mul_succ]
          omega
        rw [hkpos, hhead, hsum, Nat.mul_mod_right]
    · exact fun _ _ _ => trivial
  · intro hal
    apply wp_writeRest_shows already hr ho (Nat.zero_le _) hs.relists
    · rw [List.take_zero]
      exact .refl hpos
    · exact fun _ => not_not.mp hal

end Rewrite

end SimpleFlashFs
