import SimpleFlashFs.Lookup
import Mathlib.Logic.Function.Basic

namespace SimpleFlashFs

-- what an inode page says; exact: it decodes without a change to the record
structure VersionRec where
  number : ℕ
  version : ℕ
  name : List UInt8
  exact : Bool
deriving DecidableEq

-- the inode pages as a lookup sees them; none: the page fails its checksum
abbrev InodeTable := ℕ → Option VersionRec

def IsVersion (n : ℕ) (tab : InodeTable) (p v : ℕ) : Prop :=
  ∃ r, tab p = some r ∧ r.number = n ∧ r.version = v

-- how far a lookup has come; seen are the versions of the pages read so far, of which the pending one is not
-- yet added to iv_storage
inductive Progress
  | idle
  | first (i : ℕ) (seen : List InodeVersion) (pending : Option FileHandle)
  | second (rest : List InodeVersion)
  | found (version : ℕ)

inductive Role
  | lookup (progress : Progress)
  | writer (version : ℕ)
  | other

def entryOf (n : ℕ) (ivs : List InodeVersion) : Option InodeVersion := ivs.find? fun iv => iv.inode = n

def newEntry (file : FileHandle) : Option InodeVersion → InodeVersion
  | some iv =>
    if file.inode.inodeVersionNumber > iv.version then
      { iv with version := file.inode.inodeVersionNumber, page := file.page }
    else iv
  | none => ⟨file.inode.inodeNumber, file.page, file.inode.inodeVersionNumber⟩

theorem entryOf_addInodeVersion (n : ℕ) (file : FileHandle) (ivs : List InodeVersion) :
    entryOf n (addInodeVersion file ivs).1 =
      if file.inode.inodeNumber = n then some (newEntry file (entryOf n ivs)) else entryOf n ivs := by
  induction ivs with
  | nil =>
    by_cases hn : file.inode.inodeNumber = n
    · simp [entryOf, addInodeVersion, newEntry, hn]
    · simp [entryOf, addInodeVersion, hn]
  | cons iv rest ih =>
    rw [addInodeVersion]
    by_cases hi : iv.inode = file.inode.inodeNumber
    · rw [if_pos hi]
      by_cases hn : file.inode.inodeNumber = n
      · have hin : iv.inode = n := hi.trans hn
        rw [if_pos hn]
        simp only [entryOf, List.find?_cons, hin, decide_true, newEntry]
        split <;> simp [hin]
      · have hin : ¬ iv.inode = n := fun h => hn (hi ▸ h)
        rw [if_neg hn]
        dsimp only
        split <;> simp [entryOf, hin]
    · rw [if_neg hi]
      by_cases hin : iv.inode = n
      · have hn : ¬ file.inode.inodeNumber = n := fun h => hi (hin.trans h.symm)
        rw [if_neg hn]
        simp [entryOf, hin]
      · simp only [entryOf, List.find?_cons, hin, decide_false] at ih ⊢
        exact ih

theorem mem_addInodeVersion {iv : InodeVersion} {file : FileHandle} {ivs : List InodeVersion}
    (h : iv ∈ (addInodeVersion file ivs).1) : iv ∈ ivs ∨ iv.page = file.page ∧ iv.inode = file.inode.inodeNumber := by
  induction ivs with
  | nil =>
    rw [addInodeVersion] at h
    obtain rfl := List.mem_singleton.mp h
    exact Or.inr ⟨rfl, rfl⟩
  | cons x rest ih =>
    rw [addInodeVersion] at h
    split at h
    · next hx =>
      dsimp only at h
      split at h
      · rcases List.mem_cons.mp h with rfl | h
        · exact Or.inr ⟨rfl, hx⟩
        · exact Or.inl (List.mem_cons_of_mem _ h)
      · exact Or.inl h
    · rcases List.mem_cons.mp h with rfl | h
      · exact Or.inl List.mem_cons_self
      · exact (ih h).imp (List.mem_cons_of_mem _) id

-- the file n is called name, and no other one is
structure FileTable (n max : ℕ) (name : List UInt8) (tab : InodeTable) : Prop where
  bound : ∀ p r, tab p = some r → p < max
  numbered : ∀ p r, tab p = some r → r.number ≠ 0
  named : ∀ p r, tab p = some r → r.number = n → r.name = name ∧ r.exact = true
  others : ∀ p r, tab p = some r → r.name = name → r.number = n
  unique : ∀ p q v, IsVersion n tab p v → IsVersion n tab q v → p = q

def AddsUp (ivs : List InodeVersion) : Option FileHandle → List InodeVersion → Prop
  | none, seen => ivs = seen
  | some file, seen => (addInodeVersion file ivs).1 = seen

-- entries of other inodes lead to no version that is too old
def NoneStale (n base : ℕ) (tab : InodeTable) (ivs : List InodeVersion) : Prop :=
  ∀ iv ∈ ivs, iv.inode ≠ n → ∀ v, IsVersion n tab iv.page v → base ≤ v

structure FirstPass (n base : ℕ) (tab : InodeTable) (l : List Role) (i : ℕ) (seen : List InodeVersion) : Prop where
  stale : NoneStale n base tab seen
  entry : ∀ iv, entryOf n seen = some iv → (∀ w, Role.writer w ∈ l → iv.version ≤ w) ∧
    ∀ x, IsVersion n tab x iv.version → x = iv.page
  ahead : ∃ x v, IsVersion n tab x v ∧ base ≤ v ∧
    (i ≤ x ∨ ∃ iv, entryOf n seen = some iv ∧ iv.page = x ∧ iv.version = v) ∧
    ∀ iv, entryOf n seen = some iv → iv.version ≤ v

def Tracks (n max base : ℕ) (tab : InodeTable) (ivs : List InodeVersion) (l : List Role) : Progress → Prop
  | .idle => ∃ x v, IsVersion n tab x v ∧ base ≤ v
  | .first i seen pending => AddsUp ivs pending seen ∧ (∀ iv ∈ seen, iv.page < max) ∧ FirstPass n base tab l i seen
  | .second rest => NoneStale n base tab rest ∧
    ∃ iv v, entryOf n rest = some iv ∧ IsVersion n tab iv.page v ∧ base ≤ v
  | .found v => base ≤ v ∧ ∀ w, Role.writer w ∈ l → v ≤ w

structure Findable (n max base : ℕ) (name : List UInt8) (tab : InodeTable) (ivs : List InodeVersion)
    (l : List Role) : Prop where
  table : FileTable n max name tab
  newest : ∀ w, Role.writer w ∈ l → base ≤ w ∧ ∀ p v, IsVersion n tab p v → v ≤ w
  oneWriter : ∀ (i j v w : ℕ), l[i]? = some (.writer v) → l[j]? = some (.writer w) → i = j
  tracks : ∀ (i : ℕ) (q : Progress), l[i]? = some (.lookup q) → i = 0 ∧ Tracks n max base tab ivs l q

-- the version on page p is not needed any more: a newer one lies ahead of the first pass or is recorded, and
-- in the second pass it is not the one that is to be read again
def NotNeeded (n : ℕ) (tab : InodeTable) (p v : ℕ) : Progress → Prop
  | .idle => ∃ y w, IsVersion n tab y w ∧ v < w
  | .first i seen _ => ∃ y w, IsVersion n tab y w ∧ v < w ∧
    (i ≤ y ∨ ∃ iv, entryOf n seen = some iv ∧ iv.page = y ∧ iv.version = w)
  | .second rest => ∀ iv, entryOf n rest = some iv → iv.page ≠ p
  | .found _ => True

section Clear

variable {n max base : ℕ} {name : List UInt8} {tab : InodeTable} {ivs : List InodeVersion} {l : List Role} {p : ℕ}

theorem isVersion_clear {x v : ℕ} :
    IsVersion n (Function.update tab p none) x v ↔ x ≠ p ∧ IsVersion n tab x v := by
  by_cases hx : x = p
  · subst hx
    simp [IsVersion]
  · simp [IsVersion, hx]

theorem IsVersion.unique {x v w : ℕ} (h : IsVersion n tab x v) (h' : IsVersion n tab x w) : v = w := by
  obtain ⟨r, h1, -, rfl⟩ := h
  obtain ⟨r', h2, -, rfl⟩ := h'
  rw [h1] at h2
  rw [Option.some_inj.mp h2]

theorem FirstPass.clear {i : ℕ} {seen : List InodeVersion} {pending : Option FileHandle}
    (h : FirstPass n base tab l i seen)
    (hk : ∀ v, IsVersion n tab p v → NotNeeded n tab p v (.first i seen pending)) :
    FirstPass n base (Function.update tab p none) l i seen := by
  refine ⟨fun iv hiv hn v hv => h.stale iv hiv hn v (isVersion_clear.mp hv).2, fun iv hiv => ?_, ?_⟩
  · obtain ⟨h1, h2⟩ := h.entry iv hiv
    exact ⟨h1, fun x hx => h2 x (isVersion_clear.mp hx).2⟩
  · obtain ⟨x, v, hx, hb, hpos, hle⟩ := h.ahead
    by_cases hp : x = p
    · subst hp
      obtain ⟨y, w, hy, hlt, hpos'⟩ := hk v hx
      have hne : y ≠ x := by
        rintro rfl
        have := hy.unique hx
        omega
      refine ⟨y, w, isVersion_clear.mpr ⟨hne, hy⟩, by omega, hpos', fun iv hiv => ?_⟩
      have := hle iv hiv
      omega
    · exact ⟨x, v, isVersion_clear.mpr ⟨hp, hx⟩, hb, hpos, hle⟩

theorem Findable.clear (h : Findable n max base name tab ivs l)
    (hk : ∀ v, IsVersion n tab p v → ∀ q, Role.lookup q ∈ l → NotNeeded n tab p v q) :
    Findable n max base name (Function.update tab p none) ivs l := by
  have hsome : ∀ x r, Function.update tab p none x = some r → tab x = some r := by
    intro x r hx
    by_cases hp : x = p
    · subst hp
      simp at hx
    · rwa [Function.update_of_ne hp] at hx
  refine ⟨⟨fun x r hx => h.table.bound x r (hsome x r hx), fun x r hx => h.table.numbered x r (hsome x r hx),
    fun x r hx => h.table.named x r (hsome x r hx), fun x r hx => h.table.others x r (hsome x r hx),
    fun x y v hx hy => h.table.unique x y v (isVersion_clear.mp hx).2 (isVersion_clear.mp hy).2⟩,
    fun w hw => ⟨(h.newest w hw).1, fun x v hx => (h.newest w hw).2 x v (isVersion_clear.mp hx).2⟩, h.oneWriter,
    fun i q hi => ?_⟩
  obtain ⟨h0, ht⟩ := h.tracks i q hi
  refine ⟨h0, ?_⟩
  have hq : ∀ v, IsVersion n tab p v → NotNeeded n tab p v q := fun v hv => hk v hv q (List.mem_of_getElem? hi)
  cases q with
  | idle =>
    obtain ⟨x, v, hx, hb⟩ := ht
    by_cases hp : x = p
    · subst hp
      obtain ⟨y, w, hy, hlt⟩ := hq v hx
      have hne : y ≠ x := by
        rintro rfl
        have := hy.unique hx
        omega
      exact ⟨y, w, isVersion_clear.mpr ⟨hne, hy⟩, by omega⟩
    · exact ⟨x, v, isVersion_clear.mpr ⟨hp, hx⟩, hb⟩
  | first i seen pending =>
    obtain ⟨h1, h2, h3⟩ := ht
    exact ⟨h1, h2, h3.clear hq⟩
  | second rest =>
    obtain ⟨h1, iv, v, h2, h3, h4⟩ := ht
    refine ⟨fun iv hiv hn v hv => h1 iv hiv hn v (isVersion_clear.mp hv).2, iv, v, h2, ?_, h4⟩
    refine isVersion_clear.mpr ⟨fun hp => ?_, h3⟩
    rw [hp] at h3
    exact hq v h3 iv h2 hp
  | found v => exact ht

end Clear

section Put

variable {n max base : ℕ} {name : List UInt8} {tab : InodeTable} {ivs : List InodeVersion} {l l' : List Role}
  {p : ℕ} {r : VersionRec}

theorem isVersion_put (hp : tab p = none) {x v : ℕ} : IsVersion n (Function.update tab p (some r)) x v ↔
    (x = p ∧ r.number = n ∧ r.version = v) ∨ IsVersion n tab x v := by
  by_cases hx : x = p
  · subst hx
    simp [IsVersion, hp]
  · simp [IsVersion, hx]

theorem Tracks.mono {q : Progress} (h : Tracks n max base tab ivs l q)
    (hw : ∀ w, Role.writer w ∈ l' → Role.writer w ∈ l) : Tracks n max base tab ivs l' q := by
  cases q with
  | idle => exact h
  | first i seen pending =>
    obtain ⟨h1, h2, h3⟩ := h
    refine ⟨h1, h2, h3.stale, fun iv hiv => ?_, h3.ahead⟩
    exact ⟨fun w hl => (h3.entry iv hiv).1 w (hw w hl), (h3.entry iv hiv).2⟩
  | second rest => exact h
  | found v => exact ⟨h.1, fun w hl => h.2 w (hw w hl)⟩

theorem update_some (hp : tab p = none) {x : ℕ} {r' : VersionRec} :
    Function.update tab p (some r) x = some r' ↔ (x = p ∧ r' = r) ∨ tab x = some r' := by
  by_cases hx : x = p
  · subst hx
    simp [hp, eq_comm]
  · simp [hx]

-- a version of another file on a page that holds none
theorem Findable.foreign (h : Findable n max base name tab ivs l) (hp : tab p = none) (hlt : p < max)
    (h0 : r.number ≠ 0) (hn : r.number ≠ n) (hname : r.name ≠ name) :
    Findable n max base name (Function.update tab p (some r)) ivs l := by
  have hver : ∀ {x v}, IsVersion n (Function.update tab p (some r)) x v ↔ IsVersion n tab x v := by
    intro x v
    rw [isVersion_put hp]
    exact ⟨fun h => h.elim (fun h => absurd h.2.1 hn) id, Or.inr⟩
  refine ⟨⟨fun x r' hx => ?_, fun x r' hx => ?_, fun x r' hx hn' => ?_, fun x r' hx hn' => ?_,
    fun x y v hx hy => h.table.unique x y v (hver.mp hx) (hver.mp hy)⟩,
    fun w hw => ⟨(h.newest w hw).1, fun x v hx => (h.newest w hw).2 x v (hver.mp hx)⟩, h.oneWriter, fun i q hi => ?_⟩
  · rcases (update_some hp).mp hx with ⟨rfl, -⟩ | hx
    · exact hlt
    · exact h.table.bound x r' hx
  · rcases (update_some hp).mp hx with ⟨-, rfl⟩ | hx
    · exact h0
    · exact h.table.numbered x r' hx
  · rcases (update_some hp).mp hx with ⟨-, rfl⟩ | hx
    · exact absurd hn' hn
    · exact h.table.named x r' hx hn'
  · rcases (update_some hp).mp hx with ⟨-, rfl⟩ | hx
    · exact absurd hn' hname
    · exact h.table.others x r' hx hn'
  · obtain ⟨h1, ht⟩ := h.tracks i q hi
    refine ⟨h1, ?_⟩
    cases q with
    | idle =>
      obtain ⟨x, v, hx, hb⟩ := ht
      exact ⟨x, v, hver.mpr hx, hb⟩
    | first i seen pending =>
      obtain ⟨h2, h3, h4⟩ := ht
      refine ⟨h2, h3, fun iv hiv hne v hv => h4.stale iv hiv hne v (hver.mp hv), fun iv hiv => ?_, ?_⟩
      · exact ⟨(h4.entry iv hiv).1, fun x hx => (h4.entry iv hiv).2 x (hver.mp hx)⟩
      · obtain ⟨x, v, hx, hrest⟩ := h4.ahead
        exact ⟨x, v, hver.mpr hx, hrest⟩
    | second rest =>
      obtain ⟨h2, iv, v, h3, h4, h5⟩ := ht
      exact ⟨fun iv hiv hne v hv => h2 iv hiv hne v (hver.mp hv), iv, v, h3, hver.mpr h4, h5⟩
    | found v => exact ht

-- the next version of the file on a page that holds none
theorem Findable.own (h : Findable n max base name tab ivs l) (hp : tab p = none) (hlt : p < max) (h0 : n ≠ 0)
    (hn : r.number = n) (hname : r.name = name) (hexact : r.exact = true) {i u : ℕ}
    (hi : l[i]? = some (.writer u)) (hu : u < r.version) :
    Findable n max base name (Function.update tab p (some r)) ivs (l.set i (.writer r.version)) := by
  have hver : ∀ {x v}, IsVersion n (Function.update tab p (some r)) x v ↔
      (x = p ∧ r.version = v) ∨ IsVersion n tab x v := by
    intro x v
    rw [isVersion_put hp]
    simp [hn]
  obtain ⟨hb, hold⟩ := h.newest u (List.mem_of_getElem? hi)
  have hget : ∀ (j : ℕ) (w : ℕ), (l.set i (.writer r.version))[j]? = some (.writer w) → j = i ∧ w = r.version := by
    intro j w hj
    rw [List.getElem?_set] at hj
    split at hj
    · next he =>
      split at hj
      · cases hj
        exact ⟨he.symm, rfl⟩
      · cases hj
    · next he => exact absurd (h.oneWriter i j u w hi hj) he
  have hwriter : ∀ w, Role.writer w ∈ l.set i (.writer r.version) → w = r.version := by
    intro w hw
    obtain ⟨j, hj⟩ := List.mem_iff_getElem?.mp hw
    exact (hget j w hj).2
  refine ⟨⟨fun x r' hx => ?_, fun x r' hx => ?_, fun x r' hx hn' => ?_, fun x r' hx hn' => ?_, fun x y v hx hy => ?_⟩,
    fun w hw => ?_, fun j k v w hj hk => ?_, fun j q hj => ?_⟩
  · rcases (update_some hp).mp hx with ⟨rfl, -⟩ | hx
    · exact hlt
    · exact h.table.bound x r' hx
  · rcases (update_some hp).mp hx with ⟨-, rfl⟩ | hx
    · exact hn ▸ h0
    · exact h.table.numbered x r' hx
  · rcases (update_some hp).mp hx with ⟨-, rfl⟩ | hx
    · exact ⟨hname, hexact⟩
    · exact h.table.named x r' hx hn'
  · rcases (update_some hp).mp hx with ⟨-, rfl⟩ | hx
    · exact hn
    · exact h.table.others x r' hx hn'
  · rcases hver.mp hx with ⟨hxp, hxv⟩ | hx'
    · rcases hver.mp hy with ⟨hyp, -⟩ | hy'
      · exact hxp.trans hyp.symm
      · have := hold y _ hy'
        omega
    · rcases hver.mp hy with ⟨-, hyv⟩ | hy'
      · have := hold x _ hx'
        omega
      · exact h.table.unique x y v hx' hy'
  · rw [hwriter w hw]
    refine ⟨by omega, fun x v hx => ?_⟩
    rcases hver.mp hx with ⟨-, rfl⟩ | hx
    · exact le_rfl
    · have := hold x v hx
      omega
  · exact (hget j v hj).1.trans (hget k w hk).1.symm
  · have hj' : l[j]? = some (.lookup q) := by
      rw [List.getElem?_set] at hj
      split at hj
      · split at hj <;> cases hj
      · exact hj
    obtain ⟨h1, ht⟩ := h.tracks j q hj'
    refine ⟨h1, ?_⟩
    have hstale : ∀ {rest}, NoneStale n base tab rest → NoneStale n base (Function.update tab p (some r)) rest := by
      intro rest hs iv hiv hne v hv
      rcases hver.mp hv with ⟨-, rfl⟩ | hv
      · omega
      · exact hs iv hiv hne v hv
    cases q with
    | idle =>
      obtain ⟨x, v, hx, hb⟩ := ht
      exact ⟨x, v, hver.mpr (Or.inr hx), hb⟩
    | first k seen pending =>
      obtain ⟨h2, h3, h4⟩ := ht
      refine ⟨h2, h3, hstale h4.stale, fun iv hiv => ?_, ?_⟩
      · have hle := (h4.entry iv hiv).1 u (List.mem_of_getElem? hi)
        refine ⟨fun w hw => ?_, fun x hx => ?_⟩
        · rw [hwriter w hw]
          omega
        · rcases hver.mp hx with ⟨-, he⟩ | hx
          · omega
          · exact (h4.entry iv hiv).2 x hx
      · obtain ⟨x, v, hx, hrest⟩ := h4.ahead
        exact ⟨x, v, hver.mpr (Or.inr hx), hrest⟩
    | second rest =>
      obtain ⟨h2, iv, v, h3, h4, h5⟩ := ht
      exact ⟨hstale h2, iv, v, h3, hver.mpr (Or.inr h4), h5⟩
    | found v =>
      refine ⟨ht.1, fun w hw => ?_⟩
      have := ht.2 u (List.mem_of_getElem? hi)
      rw [hwriter w hw]
      omega

end Put

section Advance

variable {n max base : ℕ} {name : List UInt8} {tab : InodeTable} {ivs ivs' : List InodeVersion} {l : List Role}
  {q' : Progress}

theorem Findable.advance (h : Findable n max base name tab ivs l)
    (ht : Tracks n max base tab ivs' l q') : Findable n max base name tab ivs' (l.set 0 (.lookup q')) := by
  have hget : ∀ (j : ℕ) (w : ℕ), (l.set 0 (.lookup q'))[j]? = some (.writer w) → l[j]? = some (.writer w) := by
    intro j w hj
    rw [List.getElem?_set] at hj
    split at hj
    · split at hj <;> cases hj
    · exact hj
  have hwriter : ∀ w, Role.writer w ∈ l.set 0 (.lookup q') → Role.writer w ∈ l := by
    intro w hw
    obtain ⟨j, hj⟩ := List.mem_iff_getElem?.mp hw
    exact List.mem_of_getElem? (hget j w hj)
  refine ⟨h.table, fun w hw => h.newest w (hwriter w hw), fun i j v w hi hj =>
    h.oneWriter i j v w (hget i v hi) (hget j w hj), fun j q'' hj => ?_⟩
  rw [List.getElem?_set] at hj
  split at hj
  · next h0 =>
    split at hj
    · cases hj
      exact ⟨h0.symm, ht.mono hwriter⟩
    · cases hj
  · next h0 => exact absurd (h.tracks j q'' hj).1.symm h0

theorem Tracks.start (h : Tracks n max base tab ivs l .idle) : Tracks n max base tab [] l (.first 0 [] none) := by
  obtain ⟨x, v, hx, hb⟩ := h
  exact ⟨rfl, nofun, nofun, nofun, x, v, hx, hb, Or.inl (Nat.zero_le x), nofun⟩

-- page i of the first pass fails its checksum
theorem Tracks.pass {i : ℕ} {seen : List InodeVersion} (h : Tracks n max base tab ivs l (.first i seen none))
    (hi : tab i = none) : Tracks n max base tab ivs l (.first (i + 1) seen none) := by
  obtain ⟨h1, h2, h3⟩ := h
  refine ⟨h1, h2, h3.stale, h3.entry, ?_⟩
  obtain ⟨x, v, hx, hb, hpos, hle⟩ := h3.ahead
  refine ⟨x, v, hx, hb, hpos.imp_left fun hix => ?_, hle⟩
  obtain ⟨r, hr, -⟩ := hx
  have hne : x ≠ i := by
    rintro rfl
    rw [hi] at hr
    cases hr
  omega

-- page i of the first pass holds a version, which is going to be recorded
theorem Tracks.record (hf : Findable n max base name tab ivs l) {i : ℕ} {seen : List InodeVersion}
    (h : Tracks n max base tab ivs l (.first i seen none)) {r : VersionRec} (hi : tab i = some r)
    {file : FileHandle} (hp : file.page = i) (hnum : file.inode.inodeNumber = r.number)
    (hver : file.inode.inodeVersionNumber = r.version) :
    Tracks n max base tab ivs l (.first (i + 1) (addInodeVersion file seen).1 (some file)) := by
  obtain ⟨rfl, h2, h3⟩ := h
  have hbound := hf.table.bound i r hi
  refine ⟨rfl, fun iv hiv => ?_, ?_, ?_, ?_⟩
  · rcases mem_addInodeVersion hiv with hiv | ⟨hpage, -⟩
    · exact h2 iv hiv
    · rw [hpage, hp]
      exact hbound
  · intro iv hiv hne v hv
    rcases mem_addInodeVersion hiv with hiv | ⟨hpage, hinode⟩
    · exact h3.stale iv hiv hne v hv
    · obtain ⟨r', hr', hn', -⟩ := hv
      rw [hpage, hp, hi] at hr'
      obtain rfl := Option.some_inj.mp hr'
      exact absurd (hinode.trans (hnum.trans hn')) hne
  · intro iv hiv
    rw [entryOf_addInodeVersion, hnum] at hiv
    by_cases hn : r.number = n
    · rw [if_pos hn] at hiv
      obtain rfl := Option.some_inj.mp hiv
      have hself : IsVersion n tab i r.version := ⟨r, hi, hn, rfl⟩
      have hread : (∀ w, Role.writer w ∈ l → r.version ≤ w) ∧ ∀ x, IsVersion n tab x r.version → x = i :=
        ⟨fun w hw => (hf.newest w hw).2 i _ hself, fun x hx => hf.table.unique x i _ hx hself⟩
      cases he : entryOf n ivs with
      | none =>
        simp only [newEntry, hver, hp]
        exact hread
      | some iv =>
        simp only [newEntry, hver, hp]
        split
        · exact hread
        · exact h3.entry iv he
    · rw [if_neg hn] at hiv
      exact h3.entry iv hiv
  · obtain ⟨x, v, hx, hb, hpos, hle⟩ := h3.ahead
    by_cases hn : r.number = n
    · have hself : IsVersion n tab i r.version := ⟨r, hi, hn, rfl⟩
      rw [entryOf_addInodeVersion, hnum, if_pos hn]
      by_cases hgt : v < r.version
      · -- the version just read is newer than the one kept so far
        refine ⟨i, r.version, hself, by omega, Or.inr ⟨_, rfl, ?_⟩, fun iv hiv => ?_⟩
        · cases he : entryOf n ivs with
          | none => exact ⟨hp, hver⟩
          | some iv =>
            have := hle iv he
            rw [newEntry, hver, if_pos (by omega)]
            exact ⟨hp, rfl⟩
        · obtain rfl := Option.some_inj.mp hiv
          cases he : entryOf n ivs with
          | none => exact hver.le
          | some iv =>
            have := hle iv he
            rw [newEntry, hver, if_pos (by omega)]
      · have hle' : r.version ≤ v := by omega
        refine ⟨x, v, hx, hb, ?_, fun iv hiv => ?_⟩
        · rcases hpos with hpos | ⟨iv, he, hpx, hvx⟩
          · by_cases hxi : x = i
            · subst hxi
              have hv := hx.unique hself
              refine Or.inr ⟨_, rfl, ?_⟩
              cases he : entryOf n ivs with
              | none => exact ⟨hp, hver.trans hv.symm⟩
              | some iv =>
                rw [newEntry, hver]
                split
                · exact ⟨hp, hv.symm⟩
                · have := hle iv he
                  have hvv : iv.version = v := by omega
                  exact ⟨((h3.entry iv he).2 x (hvv ▸ hx)).symm, hvv⟩
            · left
              omega
          · refine Or.inr ⟨_, rfl, ?_⟩
            rw [he, newEntry, hver, if_neg (by omega)]
            exact ⟨hpx, hvx⟩
        · obtain rfl := Option.some_inj.mp hiv
          cases he : entryOf n ivs with
          | none => exact hver.trans_le hle'
          | some iv =>
            rw [newEntry, hver]
            split
            · exact hle'
            · exact hle iv he
    · rw [entryOf_addInodeVersion, hnum, if_neg hn]
      refine ⟨x, v, hx, hb, hpos.imp_left fun hix => ?_, hle⟩
      have hne : x ≠ i := by
        rintro rfl
        obtain ⟨r', hr', hn', -⟩ := hx
        rw [hi] at hr'
        obtain rfl := Option.some_inj.mp hr'
        exact hn hn'
      omega

theorem Tracks.add {i : ℕ} {seen : List InodeVersion} {file : FileHandle}
    (h : Tracks n max base tab ivs l (.first i seen (some file))) :
    Tracks n max base tab (addInodeVersion file ivs).1 l (.first i seen none) := h

theorem Tracks.turn (hf : Findable n max base name tab ivs l) {seen : List InodeVersion}
    (h : Tracks n max base tab ivs l (.first max seen none)) :
    ivs = seen ∧ (∀ iv ∈ seen, iv.page < max) ∧ Tracks n max base tab ivs l (.second seen) := by
  obtain ⟨h1, h2, h3⟩ := h
  obtain ⟨x, v, hx, hb, hpos, -⟩ := h3.ahead
  refine ⟨h1, h2, h3.stale, ?_⟩
  rcases hpos with hpos | ⟨iv, he, rfl, -⟩
  · obtain ⟨r, hr, -⟩ := hx
    have := hf.table.bound x r hr
    omega
  · exact ⟨iv, v, he, hx, hb⟩

theorem Tracks.find (hf : Findable n max base name tab ivs l) {iv : InodeVersion} {rest : List InodeVersion}
    (h : Tracks n max base tab ivs l (.second (iv :: rest))) {r : VersionRec} (hr : tab iv.page = some r)
    (hn : r.number = n) : Tracks n max base tab ivs l (.found r.version) := by
  obtain ⟨h1, x, v, h2, h3, h4⟩ := h
  have hself : IsVersion n tab iv.page r.version := ⟨r, hr, hn, rfl⟩
  refine ⟨?_, fun w hw => (hf.newest w hw).2 _ _ hself⟩
  by_cases hi : iv.inode = n
  · have he : entryOf n (iv :: rest) = some iv := by simp [entryOf, hi]
    rw [he] at h2
    obtain rfl := Option.some_inj.mp h2
    rw [← h3.unique hself]
    exact h4
  · exact h1 iv List.mem_cons_self hi _ hself

theorem Tracks.skip {iv : InodeVersion} {rest : List InodeVersion}
    (h : Tracks n max base tab ivs l (.second (iv :: rest)))
    (hr : ∀ r, tab iv.page = some r → r.number ≠ n) : Tracks n max base tab ivs l (.second rest) := by
  obtain ⟨h1, x, v, h2, h3, h4⟩ := h
  refine ⟨fun y hy => h1 y (List.mem_cons_of_mem _ hy), x, v, ?_, h3, h4⟩
  by_cases hi : iv.inode = n
  · have he : entryOf n (iv :: rest) = some iv := by simp [entryOf, hi]
    rw [he] at h2
    obtain rfl := Option.some_inj.mp h2
    obtain ⟨r, hr', hn, -⟩ := h3
    exact absurd hn (hr r hr')
  · have he : entryOf n (iv :: rest) = entryOf n rest := by simp [entryOf, hi]
    rwa [← he]

end Advance

end SimpleFlashFs
