import SimpleFlashFs.Reclaim

namespace SimpleFlashFs

open Lib

section ExactReclaim

variable {s t u : Fs} {old next : FileHandle}

-- what a new version of an inode makes superfluous
def GivenBack (old next : FileHandle) (q : ℕ) : Prop := q ∈ old.ids ∧ q ∉ next.ids

def eraseOp (hd : Header) (p : ℕ) : PhysOp := .erase (writeAddress hd p) hd.pageSize

-- the inode page first, then the pages that are given back, and nothing else
structure ReclaimsExactly (s t : Fs) (old next : FileHandle) : Prop where
  erased : ∀ q, q = old.page ∨ GivenBack old next q → pageAt t q = List.replicate s.header.pageSize 0xFF
  kept : ∀ q, InRange s q → ¬ (q = old.page ∨ GivenBack old next q) → pageAt t q = pageAt s q
  order : ∃ l : List ℕ, l.Nodup ∧ (∀ q, q ∈ l ↔ GivenBack old next q) ∧
    t.mem.trace.map Event.op = ((old.page :: l).map (eraseOp s.header)).reverse ++ s.mem.trace.map Event.op
  free : ∀ q, q ∈ t.freeDataPages ↔ q ∈ s.freeDataPages ∨ GivenBack old next q

theorem wp_eraseDataPage_op {p : ℕ} (hr : Ready s) (hi : InRange s p) :
    wp (eraseDataPage p) (fun _ t => t.mem.trace.map Event.op = eraseOp s.header p :: s.mem.trace.map Event.op)
      (fun e _ => e = .powerLoss) s := by
  simp only [eraseDataPage, wp_bind, wp_get]
  apply wp_perform (x := .erase _ _) hr.layout.toGeometry hr.noShort hi (hr.layout.writeAddress_eq hi)
    (by simp [PhysOp.content])
  · intro t ht
    have htrace : t.mem.trace.map Event.op = eraseOp s.header p :: s.mem.trace.map Event.op := by
      rw [ht.trace]
      rfl
    rw [wp_ite, freeUnwrittenPages, wp_modify, wp_modify]
    exact ⟨fun _ => htrace, fun _ => htrace⟩
  · exact fun _ _ => rfl

theorem wp_eraseDataPages_ops (l : List ℕ) (hr : Ready s) (hl : ∀ p ∈ l, InRange s p) (hn : l.Nodup) :
    wp (each eraseDataPage l)
      (fun _ t => t.mem.trace.map Event.op = (l.map (eraseOp s.header)).reverse ++ s.mem.trace.map Event.op)
      (fun e _ => e = .powerLoss) s := by
  induction l generalizing s with
  | nil => rfl
  | cons p l ih =>
    have hi := hl p (List.mem_cons_self ..)
    obtain ⟨-, hn⟩ := List.nodup_cons.mp hn
    rw [each, wp_bind]
    apply wp_mono (wp_and (wp_eraseDataPage hr hi) (wp_eraseDataPage_op hr hi))
    · rintro _ t ⟨ht, hop⟩
      have hl' : ∀ q ∈ l, InRange t q := fun q hq => ht.within.inRange.mpr (hl q (List.mem_cons_of_mem _ hq))
      apply wp_mono (ih (ht.ready hr (by simpa using hi)) hl' hn)
      · intro _ u hu
        rw [hu, hop, ht.within.header, List.map_cons, List.reverse_cons, List.append_assoc]
        rfl
      · exact fun _ _ h => h
    · exact fun _ _ h => h.2

-- the inode page has the smallest number
theorem ErasePlan.cons_page {l : List ℕ} (hp : ErasePlan old next l) (hlt : ∀ q ∈ old.ids, old.page < q) :
    ∃ rest, l = old.page :: rest ∧ rest.Nodup ∧ ∀ q, q ∈ rest ↔ GivenBack old next q := by
  have hmem : old.page ∈ l := (hp.mem_iff _).mpr (Or.inl rfl)
  have hsorted := hp.sorted
  have hiff := hp.mem_iff
  have hge : ∀ q ∈ l, old.page ≤ q := by
    intro q hq
    rcases (hiff q).mp hq with rfl | ⟨hq, -⟩
    · exact le_rfl
    · exact (hlt q hq).le
  cases l with
  | nil => cases hmem
  | cons a rest =>
    obtain ⟨ha, hrest⟩ := List.pairwise_cons.mp hsorted
    have hfirst : a = old.page := by
      rcases List.mem_cons.mp hmem with h | h
      · exact h.symm
      · have h1 := ha _ h
        have h2 := hge a (List.mem_cons_self ..)
        omega
    subst hfirst
    refine ⟨rest, rfl, hrest.imp fun h => h.ne, ?_⟩
    intro q
    constructor
    · intro hq
      rcases (hiff q).mp (List.mem_cons_of_mem _ hq) with rfl | h
      · exact absurd (ha _ hq) (lt_irrefl _)
      · exact h
    · intro hq
      have hin := (hiff q).mpr (Or.inr hq)
      rcases List.mem_cons.mp hin with rfl | h
      · exact absurd (hlt _ hq.1) (lt_irrefl _)
      · exact h

theorem reclaimsExactly_iff {l : List ℕ} (hp : ErasePlan old next l) (he : Erased s t l) (hin : ∀ q ∈ l, InRange s q)
    (ho : ∀ q ∈ old.ids, DataRegion s q) (hpage : old.page < s.header.maxInodes)
    (hop : t.mem.trace.map Event.op = (l.map (eraseOp s.header)).reverse ++ s.mem.trace.map Event.op) :
    ReclaimsExactly s t old next ↔
      (GivenBack old next s.header.maxInodes → s.header.maxInodes ∈ s.freeDataPages) := by
  have hlt : ∀ q ∈ old.ids, old.page < q := fun q hq => lt_of_lt_of_le hpage (ho q hq).1
  constructor
  · intro hx hback
    by_contra hnot
    have hfree := (hx.free s.header.maxInodes).mpr (Or.inr hback)
    rcases (he.free _).mp hfree with h | ⟨-, h⟩
    · exact hnot h
    · exact lt_irrefl _ h
  · intro hfirst
    obtain ⟨rest, rfl, hnodup, hmem⟩ := hp.cons_page hlt
    refine ⟨fun q hq => he.erased q ((hp.mem_iff q).mpr hq), ?_, ⟨rest, hnodup, hmem, hop⟩, ?_⟩
    · intro q hq hnot
      exact he.within.pages q hq (fun h => hnot ((hp.mem_iff q).mp h))
    · intro q
      rw [he.free]
      constructor
      · rintro (h | ⟨h, hgt⟩)
        · exact Or.inl h
        · rcases (hp.mem_iff q).mp h with rfl | h
          · omega
          · exact Or.inr h
      · rintro (h | h)
        · exact Or.inl h
        · by_cases hm : q = s.header.maxInodes
          · exact Or.inl (hm ▸ hfirst (hm ▸ h))
          · have hge := (ho q h.1).1
            exact Or.inr ⟨(hp.mem_iff q).mpr (Or.inr h), by omega⟩

theorem eraseInodeAndUnusedPages_exact (hr : Ready s) (hn : old.ids.Nodup) (ho : ∀ q ∈ old.ids, DataRegion s q)
    (hnext : ∀ q ∈ next.ids, DataRegion s q) (hp : old.page < s.header.maxInodes) :
    wp (eraseInodeAndUnusedPagesBase old next)
      (fun _ t => ReclaimsExactly s t old next ↔
        (GivenBack old next s.header.maxInodes → s.header.maxInodes ∈ s.freeDataPages))
      (fun e _ => e = .powerLoss) s := by
  have hplan := pagesToErase_plan (fun q h => hr.layout.lt_noData (ho q h).2) hn
    (fun q h => hr.layout.lt_noData (hnext q h).2) (hr.inode_lt_noData hp)
  have hin : ∀ q ∈ pagesToErase old next, InRange s q := by
    intro q h
    rcases (hplan.mem_iff q).mp h with rfl | h
    · exact hr.layout.lt_inRange hp
    · exact (ho q h.1).2
  simp only [eraseInodeAndUnusedPagesBase, wp_bind, wp_pure]
  apply wp_mono (wp_and (wp_eraseDataPages _ hr hin hplan.nodup) (wp_eraseDataPages_ops _ hr hin hplan.nodup))
  · exact fun _ t ht => reclaimsExactly_iff hplan ht.1 hin ho hp ht.2
  · exact fun _ _ h => h.2

end ExactReclaim

-- the next version of the paged file, without its first page
def shorterHandle : FileHandle := { inode := { dataPages := [⟨5, .stored⟩] }, page := 1 }

theorem eraseInodeAndUnusedPages_exact_paged : wp (eraseInodeAndUnusedPagesBase pagedHandle shorterHandle)
    (fun _ t => ReclaimsExactly pagedFs t pagedHandle shorterHandle ↔
      (GivenBack pagedHandle shorterHandle pagedFs.header.maxInodes →
        pagedFs.header.maxInodes ∈ pagedFs.freeDataPages)) (fun e _ => e = .powerLoss) pagedFs := by
  have hsound := pagedFs_sound
  have hnext : ∀ q ∈ shorterHandle.ids, DataRegion pagedFs q := by
    decide +kernel
  generalize pagedFs = s at *
  have hl := @Sound.head dynamicConfig _ _ _ hsound
  exact eraseInodeAndUnusedPages_exact (@Sound.ready dynamicConfig _ _ hsound) (@LiveHandle.toOwns dynamicConfig _ _ hl).nodup
    (@LiveHandle.toOwns dynamicConfig _ _ hl).region hnext (@LiveHandle.page dynamicConfig _ _ hl)

-- the page 4 is the first data page
theorem eraseInodeAndUnusedPages_losesFirst : ∃ r t,
    eraseInodeAndUnusedPagesBase pagedHandle shorterHandle pagedFs = .ok r t ∧
      ¬ ReclaimsExactly pagedFs t pagedHandle shorterHandle := by
  have hrun : passes (eraseInodeAndUnusedPagesBase pagedHandle shorterHandle)
      (fun _ t => decide (4 ∉ t.freeDataPages.live)) pagedFs = true := by
    decide +kernel
  obtain ⟨r, t, hr, hlost⟩ := returns_of_passes hrun
  generalize pagedFs = s at *
  refine ⟨r, t, hr, fun hx => of_decide_eq_true hlost ((hx.free 4).mpr (Or.inr ?_))⟩
  exact ⟨by decide, by decide⟩

end SimpleFlashFs
