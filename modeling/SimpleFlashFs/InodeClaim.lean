import Mathlib.Data.List.Perm.Basic
import SimpleFlashFs.Cursor

namespace SimpleFlashFs

open Lib

namespace InodeRange

-- the numbers that next() has still to give
def remaining : InodeRange → List ℕ
  | default max current => List.range' current (max - current)
  | shuffled numbers current => numbers.drop current

theorem hasNext_iff (r : InodeRange) : r.hasNext = true ↔ r.remaining ≠ [] := by
  cases r with
  | default max current =>
    rw [hasNext, remaining, decide_eq_true_iff, ne_eq, List.range'_eq_nil_iff]
    omega
  | shuffled numbers current =>
    rw [hasNext, remaining, decide_eq_true_iff, ne_eq, List.drop_eq_nil_iff]
    omega

theorem next_of_remaining {r : InodeRange} {i : ℕ} {rest : List ℕ} (hr : r.remaining = i :: rest) :
    ∃ t, r.next = some (i, t) ∧ t.remaining = rest := by
  cases r with
  | default max current =>
    rw [remaining] at hr
    obtain ⟨n, hn⟩ : ∃ n, max - current = n + 1 := by
      rcases Nat.eq_zero_or_pos (max - current) with h0 | h0
      · rw [h0] at hr
        cases hr
      · exact ⟨max - current - 1, by omega⟩
    rw [hn, List.range'_succ] at hr
    obtain ⟨rfl, rfl⟩ := List.cons.inj hr
    refine ⟨default max (current + 1), rfl, ?_⟩
    rw [remaining, show max - (current + 1) = n by omega]
  | shuffled numbers current =>
    rw [remaining] at hr
    have hlt : current < numbers.length := by
      by_contra hge
      rw [List.drop_eq_nil_of_le (by omega)] at hr
      cases hr
    rw [List.drop_eq_getElem_cons hlt] at hr
    obtain ⟨h1, h2⟩ := List.cons.inj hr
    refine ⟨shuffled numbers (current + 1), ?_, h2⟩
    rw [next, List.getElem?_eq_getElem hlt, Option.map_some, h1]

theorem remaining_length (r : InodeRange) : r.remaining.length ≤ r.length := by
  cases r with
  | default max current =>
    rw [remaining, length, List.length_range']
    omega
  | shuffled numbers current =>
    rw [remaining, length, List.length_drop]
    omega

-- the loop ends when the range is used up, before the number that it holds then is tried
theorem visited_eq {fuel i : ℕ} {r : InodeRange} (hf : r.remaining.length < fuel) :
    visited fuel i r = (i :: r.remaining).dropLast := by
  induction fuel generalizing i r with
  | zero => omega
  | succ fuel ih =>
    rw [visited]
    cases hr : r.remaining with
    | nil =>
      rw [if_neg (by rw [hasNext_iff]; exact not_not.mpr hr)]
      rfl
    | cons j rest =>
      obtain ⟨t, hn, ht⟩ := next_of_remaining hr
      rw [if_pos (by rw [hasNext_iff, hr]; exact List.cons_ne_nil _ _), hn]
      dsimp only
      rw [ih, ht]
      · rfl
      · rw [hr, List.length_cons] at hf
        rw [ht]
        omega

-- the iterator of a range without numbers points behind its end
def CanStart : InodeRange → Prop
  | default _ _ => True
  | shuffled numbers _ => numbers ≠ []

end InodeRange

-- what a shuffle makes of the numbers
def shuffledBy : (ℕ → ℕ) → ℕ → List ℕ → List ℕ
  | _, 0, l => l
  | rng, n + 1, l =>
    l.getD (rng 0 % l.length) 0 :: shuffledBy (fun i => rng (i + 1)) n (l.eraseIdx (rng 0 % l.length))

-- the order in which the next allocation goes through the inode pages
def tryOrder (s : Fs) : List ℕ :=
  match s.headerInodeRange with
  | .default max _ => List.range max
  | .shuffled numbers _ => shuffledBy s.rng numbers.length numbers

theorem wp_shuffle_by (n : ℕ) (l : List ℕ) (s : Fs) (R : Fault → Fs → Prop) :
    wp (shuffle n l) (fun r t => r = shuffledBy s.rng n l ∧ t = { s with rng := t.rng }) R s := by
  induction n generalizing l s with
  | zero => exact ⟨rfl, rfl⟩
  | succ n ih =>
    simp only [shuffle, draw, wp_bind, wp_get, wp_set, wp_pure]
    apply wp_mono (ih _ _)
    · rintro r t ⟨rfl, ht⟩
      refine ⟨rfl, ?_⟩
      rw [ht]
    · exact fun _ _ h => h

theorem shuffledBy_perm (rng : ℕ → ℕ) (n : ℕ) (l : List ℕ) (hn : n = l.length) : (shuffledBy rng n l).Perm l := by
  induction n generalizing rng l with
  | zero => exact List.Perm.refl l
  | succ n ih =>
    have hlt : rng 0 % l.length < l.length := Nat.mod_lt _ (by omega)
    have hrest := ih (fun i => rng (i + 1)) (l.eraseIdx (rng 0 % l.length))
      (by rw [List.length_eraseIdx_of_lt hlt]; omega)
    rw [shuffledBy, List.getD_eq_getElem?_getD, List.getElem?_eq_getElem hlt, Option.getD_some]
    exact (hrest.cons _).trans (List.getElem_cons_eraseIdx_perm hlt)

theorem tryOrder_perm (s : Fs) : (tryOrder s).Perm s.headerInodeRange.numbers := by
  unfold tryOrder
  cases s.headerInodeRange with
  | default max current => exact List.Perm.refl _
  | shuffled numbers current => exact shuffledBy_perm _ _ _ rfl

theorem wp_startHeaderInodeRange_order (s : Fs) :
    wp startHeaderInodeRange (fun is t => s.headerInodeRange.CanStart ∧ is = (tryOrder s).dropLast ∧
        t = { s with headerInodeRange := t.headerInodeRange, rng := t.rng })
      (fun _ _ => ¬ s.headerInodeRange.CanStart) s := by
  simp only [startHeaderInodeRange, wp_bind, wp_get, wp_modify, tryOrder]
  cases hr : s.headerInodeRange with
  | default max current =>
    simp only [InodeRange.reset, wp_pure, InodeRange.next]
    have hlen : (InodeRange.default max (0 + 1)).remaining.length < (InodeRange.default max 0).length + 1 :=
      Nat.lt_succ_of_le (InodeRange.remaining_length (.default max (0 + 1)))
    refine ⟨trivial, ?_, trivial⟩
    rw [InodeRange.visited_eq hlen, InodeRange.remaining]
    cases max with
    | zero => rfl
    | succ max => rw [Nat.add_sub_cancel, List.range_eq_range', List.range'_succ]
  | shuffled numbers current =>
    simp only [InodeRange.reset, wp_bind, wp_pure]
    apply wp_mono (wp_shuffle_by numbers.length numbers s _)
    · rintro l t ⟨hl, ht⟩
      have hperm := shuffledBy_perm s.rng numbers.length numbers rfl
      rw [← hl] at hperm ⊢
      cases l with
      | nil =>
        have hnil : numbers = [] := hperm.symm.eq_nil
        exact fun hc => hc hnil
      | cons i rest =>
        have hne : numbers ≠ [] := by
          rintro rfl
          cases hperm.eq_nil
        obtain ⟨u, hu, hrest⟩ := InodeRange.next_of_remaining (r := .shuffled (i :: rest) 0) rfl
        have hlen : u.remaining.length < (InodeRange.shuffled (i :: rest) 0).length + 1 := by
          rw [hrest, InodeRange.length, List.length_cons]
          omega
        rw [hu]
        refine ⟨hne, ?_, ?_⟩
        · rw [InodeRange.visited_eq hlen, hrest]
        · rw [ht]
    · exact fun _ _ h => h

section Claims

variable [Config] {s t : Fs} {reader : Fs → ℕ → ReadPageReturn} {r : Option ℕ}

-- an inode page that can be read, fails its checksum and is not reserved
def Candidate (reader : Fs → ℕ → ReadPageReturn) (s : Fs) (i : ℕ) : Prop :=
  i < s.header.maxInodes ∧ (reader s i).error = some .crcError ∧ i ∉ s.allocatedUnwrittenPages

structure AllocatesPage (reader : Fs → ℕ → ReadPageReturn) (s t : Fs) (r : Option ℕ) : Prop where
  complete : r ≠ none ↔ ∃ i, Candidate reader s i
  sound : ∀ i, r = some i → Candidate reader s i
  reserved : ∀ q, q ∈ t.allocatedUnwrittenPages ↔ q ∈ s.allocatedUnwrittenPages ∨ r = some q

-- a candidate comes before the last number of the order, if there is one
def TriesCandidate (reader : Fs → ℕ → ReadPageReturn) (s : Fs) : Prop :=
  s.headerInodeRange.CanStart ∧
    ((∃ i, Candidate reader s i) → ∃ i ∈ (tryOrder s).dropLast, Candidate reader s i)

-- the first candidate of the list
structure FirstOf (reader : Fs → ℕ → ReadPageReturn) (s : Fs) (is : List ℕ) (t : Fs) (r : Option ℕ) : Prop where
  exhausted : r = none → ∀ i ∈ is, ¬ Candidate reader s i
  found : ∀ i, r = some i → i ∈ is ∧ Candidate reader s i
  reserved : ∀ q, q ∈ t.allocatedUnwrittenPages ↔ q ∈ s.allocatedUnwrittenPages ∨ r = some q

-- reading a page does not depend on the sets in memory
def ReadsMemory (reader : Fs → ℕ → ReadPageReturn) : Prop :=
  ∀ s t : Fs, t.mem = s.mem → t.header = s.header → reader t = reader s

theorem readsMemory_unmapped : ReadsMemory (readPage · · true) := by
  intro s t hm hh
  funext i
  simp only [readPage, hm, hh]

theorem readsMemory_mapped : ReadsMemory (readPageMapped · · true) := by
  intro s t hm hh
  funext i
  simp only [readPageMapped, hm, hh]

omit [Config] in
theorem Candidate.congr (hrd : ReadsMemory reader) (hm : t.mem = s.mem) (hh : t.header = s.header)
    (ha : ∀ q, q ∈ t.allocatedUnwrittenPages ↔ q ∈ s.allocatedUnwrittenPages) (i : ℕ) :
    Candidate reader t i ↔ Candidate reader s i := by
  unfold Candidate
  rw [hrd s t hm hh, hh, ha]

omit [Config] in
theorem inode_lt_noData {i : ℕ} (hi : i < s.header.maxInodes) : i < noData := by
  have hlt := s.header.maxInodes_lt
  unfold noData
  omega

omit [Config] in
theorem wp_claimInodePage_first (hrd : ReadsMemory reader) (hw : s.allocatedUnwrittenPages.WF) (is : List ℕ)
    (his : ∀ i ∈ is, i < s.header.maxInodes) (R : Fault → Fs → Prop) :
    wp (claimInodePage reader is) (fun r t => FirstOf reader s is t r) R s := by
  induction is generalizing s with
  | nil => exact ⟨fun _ i hi => absurd hi List.not_mem_nil, by simp, fun q => by simp⟩
  | cons i rest ih =>
    have hi := his i (List.mem_cons_self ..)
    have hrest := fun j hj => his j (List.mem_cons_of_mem _ hj)
    have hsw : (s.allocatedUnwrittenPages.count i).1.WF := PageSet.sortIfUnsorted_wf hw
    have hsm : ∀ q, q ∈ (s.allocatedUnwrittenPages.count i).1 ↔ q ∈ s.allocatedUnwrittenPages :=
      fun q => PageSet.mem_sortIfUnsorted hw
    have hskip : ∀ {u t : Fs} {r : Option ℕ}, (∀ j, Candidate reader u j ↔ Candidate reader s j) →
        (∀ q, q ∈ u.allocatedUnwrittenPages ↔ q ∈ s.allocatedUnwrittenPages) → ¬ Candidate reader s i →
        FirstOf reader u rest t r → FirstOf reader s (i :: rest) t r := by
      intro u t r hc ha hno hf
      refine ⟨fun hr j hj => ?_, fun j hj => ?_, fun q => by rw [hf.reserved, ha]⟩
      · rcases List.mem_cons.mp hj with rfl | hj
        · exact hno
        · rw [← hc]
          exact hf.exhausted hr j hj
      · have hf := hf.found j hj
        exact ⟨List.mem_cons_of_mem _ hf.1, (hc j).mp hf.2⟩
    simp only [claimInodePage, wp_bind, wp_get]
    rw [wp_ite]
    constructor
    · intro hcrc
      simp only [countAllocated, wp_bind, wp_get, wp_set, wp_pure, insertAllocated]
      rw [wp_ite, PageSet.count_eq hw (inode_lt_noData hi)]
      constructor
      · intro hfree
        refine ⟨by simp, fun j hj => ?_, fun q => ?_⟩
        · rw [← Option.some_inj.mp hj]
          exact ⟨List.mem_cons_self .., hi, hcrc, hfree⟩
        · rw [PageSet.mem_insert hsw (inode_lt_noData hi), hsm, Option.some_inj, eq_comm (a := i)]
      · intro hheld
        have hc := Candidate.congr (s := s)
          (t := { s with allocatedUnwrittenPages := (s.allocatedUnwrittenPages.count i).1 }) hrd rfl rfl hsm
        apply wp_mono (ih (s := { s with allocatedUnwrittenPages := (s.allocatedUnwrittenPages.count i).1 }) hsw hrest)
        · exact fun r t hf => hskip hc hsm (fun hcand => hheld hcand.2.2) hf
        · exact fun _ _ h => h
    · intro hno
      apply wp_mono (ih hw hrest)
      · exact fun r t hf => hskip (fun _ => Iff.rfl) (fun _ => Iff.rfl) (fun hc => hno hc.2.1) hf
      · exact fun _ _ h => h

omit [Config] in
theorem wp_tryInodePages_iff (hrd : ReadsMemory reader) (hw : s.allocatedUnwrittenPages.WF)
    (hr : s.headerInodeRange.numbers.Perm (List.range s.header.maxInodes)) :
    wp (startHeaderInodeRange >>= claimInodePage reader)
      (fun r t => AllocatesPage reader s t r ↔ TriesCandidate reader s) (fun _ _ => ¬ TriesCandidate reader s) s := by
  have horder := fun i => ((tryOrder_perm s).trans hr).mem_iff (a := i)
  rw [wp_bind]
  apply wp_mono (wp_startHeaderInodeRange_order s)
  · rintro is t ⟨hstart, his, ht⟩
    have hh : t.header = s.header := by rw [ht]
    have hm : t.mem = s.mem := by rw [ht]
    have ha : t.allocatedUnwrittenPages = s.allocatedUnwrittenPages := by rw [ht]
    have hc := Candidate.congr hrd hm hh (fun q => by rw [ha])
    have hlt : ∀ i ∈ is, i < t.header.maxInodes := by
      intro i hi
      rw [his] at hi
      rw [hh]
      exact List.mem_range.mp ((horder i).mp (List.dropLast_subset _ hi))
    apply wp_mono (wp_claimInodePage_first hrd (by rw [ha]; exact hw) is hlt _)
    · intro r u hf
      have hsome : ∀ i, r = some i → i ∈ (tryOrder s).dropLast ∧ Candidate reader s i := by
        intro i hi
        have := hf.found i hi
        rwa [hc, his] at this
      constructor
      · intro hp
        refine ⟨hstart, fun hex => ?_⟩
        obtain ⟨i, hi⟩ := Option.ne_none_iff_exists'.mp (hp.complete.mpr hex)
        exact ⟨i, hsome i hi⟩
      · rintro ⟨-, htries⟩
        refine ⟨⟨fun hne => ?_, fun hex hnone => ?_⟩, fun i hi => (hsome i hi).2, fun q => by rw [hf.reserved, ha]⟩
        · obtain ⟨i, hi⟩ := Option.ne_none_iff_exists'.mp hne
          exact ⟨i, (hsome i hi).2⟩
        · obtain ⟨i, hi, hcand⟩ := htries hex
          rw [← his] at hi
          exact hf.exhausted hnone i hi ((hc i).mpr hcand)
    · exact fun _ _ h => h
  · exact fun _ t hno hp => hno hp.1

theorem inodePage_allocated_iff (hw : s.allocatedUnwrittenPages.WF)
    (hr : s.headerInodeRange.numbers.Perm (List.range s.header.maxInodes)) :
    ∀ alloc ∈ [(allocateFreeInodePageNumberMapped, allocateFreeInodePageMapped, (readPageMapped · · true)),
        (allocateFreeInodePageNumberUnmapped, allocateFreeInodePageUnmapped, (readPage · · true))],
      wp alloc.1 (fun r t => AllocatesPage alloc.2.2 s t r ↔ TriesCandidate alloc.2.2 s)
          (fun _ _ => ¬ TriesCandidate alloc.2.2 s) s ∧
        wp alloc.2.1 (fun h t => ∃ r, h = FileHandle.ofPage r ∧
            (AllocatesPage alloc.2.2 s t r ↔ TriesCandidate alloc.2.2 s))
          (fun _ _ => ¬ TriesCandidate alloc.2.2 s) s := by
  have hboth : ∀ {reader : Fs → ℕ → ReadPageReturn}, ReadsMemory reader →
      wp (startHeaderInodeRange >>= claimInodePage reader)
          (fun r t => AllocatesPage reader s t r ↔ TriesCandidate reader s) (fun _ _ => ¬ TriesCandidate reader s) s ∧
        wp (startHeaderInodeRange >>= fun is => FileHandle.ofPage <$> claimInodePage reader is)
          (fun h t => ∃ r, h = FileHandle.ofPage r ∧ (AllocatesPage reader s t r ↔ TriesCandidate reader s))
          (fun _ _ => ¬ TriesCandidate reader s) s := by
    intro reader hrd
    have h := wp_tryInodePages_iff hrd hw hr
    refine ⟨h, ?_⟩
    simp only [wp_bind, wp_map] at h ⊢
    apply wp_mono h
    · exact fun is t ht => wp_mono ht (fun r u hu => ⟨r, rfl, hu⟩) (fun _ _ h => h)
    · exact fun _ _ h => h
  intro alloc halloc
  simp only [List.mem_cons, List.not_mem_nil, or_false] at halloc
  rcases halloc with rfl | rfl
  · exact hboth readsMemory_mapped
  · exact hboth readsMemory_unmapped

end Claims

-- the fourth of four inode pages is the only one that is not reserved
def lastFreeFs : Fs := { erasedFs with allocatedUnwrittenPages := { data := [0, 1, 2] } }

theorem lastInodePage_missed : ∃ t,
    @allocateFreeInodePageNumberUnmapped dynamicConfig lastFreeFs = .ok none t ∧
      ¬ AllocatesPage (@readPage dynamicConfig · · true) lastFreeFs t none := by
  have hrun : passes (@allocateFreeInodePageNumberUnmapped dynamicConfig) (fun r _ => r.isNone) lastFreeFs = true := by
    decide +kernel
  have hcand : Candidate (@readPage dynamicConfig · · true) lastFreeFs 3 := by
    refine ⟨by decide, by decide +kernel, ?_⟩
    rw [PageSet.mem_iff]
    decide
  obtain ⟨r, t, hr, hnone⟩ := returns_of_passes hrun
  obtain rfl := Option.isNone_iff_eq_none.mp hnone
  exact ⟨t, hr, fun h => h.complete.mpr ⟨3, hcand⟩ rfl⟩

theorem inodePage_allocated_erased : wp (@allocateFreeInodePageNumberUnmapped dynamicConfig)
    (fun r t => AllocatesPage (@readPage dynamicConfig · · true) erasedFs t r) (fun _ _ => False) erasedFs := by
  have htries : TriesCandidate (@readPage dynamicConfig · · true) erasedFs := by
    refine ⟨trivial, fun _ => ⟨0, by decide, by decide, by decide +kernel, ?_⟩⟩
    rw [PageSet.mem_iff]
    decide
  have hmem : (@allocateFreeInodePageNumberUnmapped dynamicConfig, @allocateFreeInodePageUnmapped dynamicConfig,
      (@readPage dynamicConfig · · true)) ∈
      [(@allocateFreeInodePageNumberMapped dynamicConfig, @allocateFreeInodePageMapped dynamicConfig,
        (@readPageMapped dynamicConfig · · true)),
      (@allocateFreeInodePageNumberUnmapped dynamicConfig, @allocateFreeInodePageUnmapped dynamicConfig,
        (@readPage dynamicConfig · · true))] := List.mem_cons_of_mem _ (List.mem_singleton_self _)
  have hempty : erasedFs.allocatedUnwrittenPages.WF := PageSet.wf_empty
  have hrange : erasedFs.headerInodeRange.numbers.Perm (List.range erasedFs.header.maxInodes) := List.Perm.refl _
  generalize erasedFs = s at htries hempty hrange
  have h := @inodePage_allocated_iff dynamicConfig s hempty hrange _ hmem
  apply wp_mono h.1
  · exact fun r t hr => hr.mpr htries
  · exact fun _ _ hno => hno htries

end SimpleFlashFs
