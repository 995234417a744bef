import SimpleFlashFs.Commit

namespace SimpleFlashFs

open Lib

-- every version that the lookup remembers is at an inode page
def VersionsAtInodes (hd : Header) (ivs : List InodeVersion) : Prop := ∀ iv ∈ ivs, iv.page < hd.maxInodes

theorem addInodeVersion_atInodes {hd : Header} {file : FileHandle} (hf : file.page < hd.maxInodes)
    {ivs : List InodeVersion} (h : VersionsAtInodes hd ivs) :
    VersionsAtInodes hd (addInodeVersion file ivs).1 := by
  induction ivs with
  | nil =>
    intro iv hiv
    rw [List.mem_singleton.mp hiv]
    exact hf
  | cons x rest ih =>
    have hx := h x (List.mem_cons_self ..)
    have hrest : VersionsAtInodes hd rest := fun iv hiv => h iv (List.mem_cons_of_mem _ hiv)
    intro iv hiv
    rw [addInodeVersion] at hiv
    split at hiv
    · dsimp only at hiv
      split at hiv
      · rcases List.mem_cons.mp hiv with rfl | hiv
        · exact hf
        · exact hrest iv hiv
      · exact h iv hiv
    · rcases List.mem_cons.mp hiv with rfl | hiv
      · exact hx
      · exact ih hrest iv hiv

section Rule

variable [Config]

-- what has to be shown of an invariant I, and of an invariant J with one more handle, for a lookup to
-- keep I; R is what a fault may leave
structure LookupRule (hd : Header) (I : Fs → Prop) (J : Fs → FileHandle → Prop) (R : Fault → Fs → Prop) :
    Prop where
  header : ∀ s, I s → s.header = hd
  layout : ∀ s, I s → Layout s
  versions : ∀ s ivs, I s → I { s with ivStorage := ivs }
  handle : ∀ s h ivs, J s h → J { s with ivStorage := ivs } h
  decode : ∀ s i corr, I s → Valid s i →
    ∃ h, decodeInode s.header (pageAt s i) corr = .ok h ∧ J s { h with page := i }
  close : ∀ s h, J s h → wp (closeHandle h) (fun _ t => I t ∧ t.ivStorage = s.ivStorage) R s

variable {hd : Header} {I : Fs → Prop} {J : Fs → FileHandle → Prop} {R : Fault → Fs → Prop} {s : Fs}
  {reader : Fs → ℕ → ReadPageReturn}

theorem LookupRule.wp_recordInodePage (rule : LookupRule hd I J R) (hrd : Reads reader) {i : ℕ}
    (hi : i < hd.maxInodes) (hI : I s) (hv : VersionsAtInodes hd s.ivStorage) :
    wp (recordInodePage reader i) (fun _ t => I t ∧ VersionsAtInodes hd t.ivStorage) R s := by
  have hh := rule.header s hI
  have L := rule.layout s hI
  simp only [recordInodePage, wp_bind, wp_get, hrd s i L (by rw [hh]; exact hi)]
  rw [wp_ite]
  by_cases hval : Valid s i
  · rw [readPage_of_valid L.toGeometry hval]
    refine ⟨fun _ => ?_, fun hn => absurd rfl hn⟩
    obtain ⟨h, hdec, hJ⟩ := rule.decode s i false hI hval
    simp only [getInode, wp_bind, wp_get, hdec, liftFault, wp_pure, addIvStorage, wp_set]
    refine wp_mono (rule.close _ _ (rule.handle _ _ _ hJ)) (fun _ t ht => ⟨ht.1, ?_⟩) (fun _ _ h => h)
    rw [ht.2]
    exact addInodeVersion_atInodes hi hv
  · rw [readPage_of_not_valid L.toGeometry (by rw [hh]; exact hi) hval]
    exact ⟨fun hn => (by cases hn), fun _ => ⟨hI, hv⟩⟩

-- a lookup ends without a file, or with a handle of that name
def Looked (I : Fs → Prop) (J : Fs → FileHandle → Prop) (name : List UInt8) (h : FileHandle) (t : Fs) : Prop :=
  (h = {} ∧ I t) ∨ (h.inode.fileName = name ∧ name ≠ [] ∧ J t h)

theorem LookupRule.wp_findVersion (rule : LookupRule hd I J R) (hrd : Reads reader) (name : List UInt8)
    (ivs : List InodeVersion) (hI : I s) (hv : VersionsAtInodes hd ivs) :
    wp (findVersion reader name ivs) (fun h t => Looked I J name h t) R s := by
  induction ivs generalizing s with
  | nil => exact Or.inl ⟨rfl, hI⟩
  | cons iv rest ih =>
    have hh := rule.header s hI
    have L := rule.layout s hI
    have hi : iv.page < s.header.maxInodes := by rw [hh]; exact hv iv (List.mem_cons_self ..)
    have hrest : VersionsAtInodes hd rest := fun iv hiv => hv iv (List.mem_cons_of_mem _ hiv)
    simp only [findVersion, wp_bind, wp_get, hrd s iv.page L hi]
    rw [wp_ite]
    by_cases hval : Valid s iv.page
    · rw [readPage_of_valid L.toGeometry hval]
      refine ⟨fun _ => ?_, fun hn => absurd rfl hn⟩
      obtain ⟨h, hdec, hJ⟩ := rule.decode s iv.page true hI hval
      have hnext : wp (closeHandle { h with page := iv.page })
          (fun _ t => wp (findVersion reader name rest) (fun h t => Looked I J name h t) R t) R s :=
        wp_mono (rule.close _ _ hJ) (fun _ t ht => ih ht.1 hrest) (fun _ _ h => h)
      simp only [getInode, wp_bind, wp_get, hdec, liftFault, wp_pure]
      rw [wp_ite]
      refine ⟨fun _ => by rw [wp_bind]; exact hnext, fun hne => ?_⟩
      rw [wp_ite]
      refine ⟨fun hname => Or.inr ⟨hname, ?_, hJ⟩, fun _ => by rw [wp_bind]; exact hnext⟩
      rintro rfl
      exact hne hname
    · rw [readPage_of_not_valid L.toGeometry hi hval]
      exact ⟨fun hn => (by cases hn), fun _ => ih hI hrest⟩

theorem LookupRule.wp_findFileWith (rule : LookupRule hd I J R) (hrd : Reads reader) (name : List UInt8)
    (hI : I s) : wp (findFileWith reader name) (fun h t => Looked I J name h t) R s := by
  have hh : s.header.maxInodes = hd.maxInodes := by rw [rule.header s hI]
  simp only [findFileWith, clearIvStorage, wp_bind, wp_modify, wp_get, hh]
  have hrange : ∀ i ∈ List.range hd.maxInodes, i < hd.maxInodes := fun i hi => List.mem_range.mp hi
  refine wp_mono (wp_each (R := R) (fun l t => (∀ i ∈ l, i < hd.maxInodes) ∧ I t ∧
    VersionsAtInodes hd t.ivStorage) _ _ ⟨hrange, rule.versions s [] hI, fun _ h => by cases h⟩ ?_) ?_ (fun _ _ h => h)
  · rintro i l t ⟨hl, hI, hv⟩
    exact wp_mono (rule.wp_recordInodePage hrd (hl i (List.mem_cons_self ..)) hI hv)
      (fun _ u hu => ⟨fun j hj => hl j (List.mem_cons_of_mem _ hj), hu⟩) (fun _ _ h => h)
  · rintro _ t ⟨-, hI, hv⟩
    exact rule.wp_findVersion hrd name _ hI hv

theorem LookupRule.wp_findFile (rule : LookupRule hd I J R) (name : List UInt8) (hI : I s) :
    wp (findFile name) (fun h t => Looked I J name h t) R s := by
  simp only [findFile, wp_bind, wp_get]
  rw [wp_ite]
  exact ⟨fun _ => rule.wp_findFileWith reads_mapped name hI,
    fun _ => rule.wp_findFileWith reads_unmapped name hI⟩

end Rule

end SimpleFlashFs
