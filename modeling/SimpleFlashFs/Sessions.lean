import SimpleFlashFs.SavedContent
import SimpleFlashFs.Cursor
import SimpleFlashFs.Lib.ByteFile

namespace SimpleFlashFs

open Lib

-- what a call returns
inductive Answer
  | count (n : ℕ)
  | bytes (data : List UInt8)
  | done (ok : Bool)
deriving DecidableEq, Repr

section Asking

variable [Config]

def Call.ask (h : FileHandle) : Call → FsM (Answer × FileHandle)
  | .seek pos => do
    let r ← SimpleFlashFs.seek h pos
    pure (.done r.1, r.2)
  | .write data => do
    let r ← SimpleFlashFs.write h data
    pure (.count r.1, r.2)
  | .read size => do
    let r ← SimpleFlashFs.read h size
    pure (.bytes r.1, r.2)
  | .truncate newSize => do
    let r ← SimpleFlashFs.truncate h newSize
    pure (.done r.1, r.2)
  | .flush => do
    let r ← SimpleFlashFs.flush h
    pure (.done r.1, r.2)

-- a call on the open file i
def askAt (files : List FileHandle) (i : ℕ) (call : Call) : FsM (Answer × List FileHandle) :=
  match files[i]? with
  | none => throw .undefined
  | some h => do
    let r ← call.ask h
    pure (r.1, files.set i r.2)

-- calls on the open files in any order, with what they return
def askAll : List (ℕ × Call) → List FileHandle → FsM (List (ℕ × Call × Answer) × List FileHandle)
  | [], files => pure ([], files)
  | (i, call) :: calls, files => do
    let r ← askAt files i call
    let rest ← askAll calls r.2
    pure ((i, call, r.1) :: rest.1, rest.2)

end Asking

-- the part that is about file i
def talkOf (i : ℕ) (trace : List (ℕ × Call × Answer)) : List (Call × Answer) :=
  (trace.filter (·.1 = i)).map (·.2)

theorem talkOf_cons (i j : ℕ) (call : Call) (answer : Answer) (trace : List (ℕ × Call × Answer)) :
    talkOf i ((j, call, answer) :: trace) = if j = i then (call, answer) :: talkOf i trace else talkOf i trace := by
  by_cases hji : j = i
  · simp [talkOf, hji]
  · simp [talkOf, hji]

-- an ideal open file, and the bytes that opening it again would give
structure IdealFile where
  file : ByteFile
  saved : Option (List UInt8)
deriving DecidableEq, Repr

namespace IdealFile

-- a flush that fails changes nothing
inductive Step (f : IdealFile) : Call → Answer → IdealFile → Prop
  | write (data : List UInt8) : Step f (.write data) (.count data.length) { f with file := (f.file.write data).2 }
  | read (size : ℕ) : Step f (.read size) (.bytes (f.file.read size).1) { f with file := (f.file.read size).2 }
  | seek (pos : ℕ) (hp : pos ≤ f.file.size) : Step f (.seek pos) (.done true) { f with file := (f.file.seek pos).2 }
  | flushed : Step f .flush (.done true) { f with saved := some f.file.content }
  | notFlushed : Step f .flush (.done false) f

inductive Talks : IdealFile → List (Call × Answer) → IdealFile → Prop
  | start (f : IdealFile) : Talks f [] f
  | step {f g k : IdealFile} {call : Call} {answer : Answer} {rest : List (Call × Answer)} :
      Step f call answer g → Talks g rest k → Talks f ((call, answer) :: rest) k

-- a write that came back short, a seek behind the end, a truncation
def Beyond (f : IdealFile) : Call → Answer → Prop
  | .write data, answer => answer ≠ .count data.length
  | .seek pos, _ => f.file.size < pos
  | .truncate _, _ => True
  | _, _ => False

theorem Talks.append {f g k : IdealFile} {a b : List (Call × Answer)} (ha : Talks f a g) (hb : Talks g b k) :
    Talks f (a ++ b) k := by
  induction ha with
  | start f => exact hb
  | step hs _ ih => exact .step hs (ih hb)

end IdealFile

section Effects

variable [Config] {s t : Fs} {h k : FileHandle} {live : List FileHandle} {f : IdealFile}

-- what any call does: it changes the data of its file, or flushes it
def Touches (s : Fs) (h : FileHandle) (t : Fs) (k : FileHandle) : Prop :=
  DataEffect s h t k ∨ ∃ ok, Flushed s h t (ok, k)

theorem wp_read_advances (h : FileHandle) (size : ℕ) :
    wp (SimpleFlashFs.read h size) (fun r t => t = s ∧ ∃ n, r.2 = h.advance n) (fun e _ => e ≠ .powerLoss) s := by
  rw [SimpleFlashFs.read, wp_ite]
  refine ⟨fun _ => ?_, fun _ => by simp⟩
  simp only [readFs, wp_bind, wp_get]
  generalize (if subU64 h.inode.fileLen h.pos < size then subU64 h.inode.fileLen h.pos else size) = n
  generalize min (subU64 h.inode.fileLen h.pos) n = len
  rw [wp_ite]
  refine ⟨fun _ => ⟨rfl, 0, rfl⟩, fun _ => ?_⟩
  rw [wp_ite]
  constructor
  · intro _
    rw [wp_ite]
    exact ⟨fun _ => by simp, fun _ => ⟨rfl, len, rfl⟩⟩
  · intro _
    rw [wp_pure]
    exact ⟨rfl, _, (readDataPages_upTo (s := s) (h := h) n).handle⟩

theorem wp_ask_touches (hs : Sound s (h :: live)) (call : Call) :
    wp (call.ask h) (fun r t => Touches s h t r.2) (fun e t => e = .powerLoss → Lost s h t ∨ FlushLost s h t) s := by
  have hl := hs.head
  cases call with
  | seek pos =>
    rw [Call.ask, wp_bind]
    apply wp_mono ((safe_seek pos).wp hs.ready hl.toOwns)
    · exact fun r t he => Or.inl he
    · exact fun e t he hp => Or.inl (he hp)
  | write data =>
    rw [Call.ask, wp_bind]
    apply wp_mono ((safe_write data).wp hs.ready hl.toOwns)
    · exact fun r t he => Or.inl he
    · exact fun e t he hp => Or.inl (he hp)
  | read size =>
    rw [Call.ask, wp_bind]
    apply wp_mono (wp_read_advances h size)
    · rintro r t ⟨rfl, n, hn⟩
      rw [wp_pure, hn]
      exact Or.inl (DataEffect.of_pages hs.ready hl.toOwns rfl ⟨rfl, rfl, rfl, rfl, rfl, rfl, rfl, rfl⟩)
    · exact fun e t he hp => absurd hp he
  | truncate newSize =>
    rw [Call.ask, wp_bind]
    apply wp_mono ((safe_truncate newSize).wp hs.ready hl.toOwns)
    · exact fun r t he => Or.inl he
    · exact fun e t he hp => Or.inl (he hp)
  | flush =>
    rw [Call.ask, wp_bind]
    apply wp_mono (SimpleFlashFs.wp_flush hs.ready hl.toOwns hl.page)
    · exact fun r t he => Or.inr ⟨r.1, he⟩
    · exact fun e t he hp => Or.inr (he hp)

theorem Touches.keeps {k : FileHandle} (e : Touches s h t k) : Keeps s t := by
  rcases e with e | ⟨ok, e⟩
  · exact e.keeps
  · exact e.keeps

theorem Touches.sound {k : FileHandle} (e : Touches s h t k) (hs : Sound s (h :: live)) (hv : s.variant ≠ .noDel) :
    Sound t (k :: live) := by
  rcases e with e | ⟨ok, e⟩
  · exact hs.dataEffect e
  · exact hs.flushed hv e

theorem Flushed.unrecorded {r : Bool × FileHandle} (hf : Flushed s h t r) (hu : Unrecorded s h) : Unrecorded t r.2 := by
  have hclean : ∀ k : FileHandle, k.clean.newIds = [] := fun k => k.settled_newIds
  cases hf with
  | unmodified => exact hu
  | full hm hn t ht =>
    have hh : t.header = s.header := by rw [ht.rest]
    have hp : pageAt t h.page = pageAt s h.page := by
      rw [ht.rest]
      rfl
    intro hv p hpn
    rw [listed_congr hh hp]
    exact hu ((valid_congr hh hp).mp hv) p hpn
  | first hm hn t hc =>
    intro _ p hp
    rw [hclean] at hp
    cases hp
  | next hm hn p u v t hu hc he =>
    intro _ p hp
    rw [hclean] at hp
    cases hp

theorem Touches.unrecorded {k : FileHandle} (e : Touches s h t k) (hs : Sound s (h :: live)) (hu : Unrecorded s h) :
    Unrecorded t k := by
  rcases e with e | ⟨ok, e⟩
  · exact hs.dataEffect_unrecorded hu e
  · exact e.unrecorded hu

-- a handle that the call is not about, with its record
structure SparedHandle (s t : Fs) (k : FileHandle) : Prop extends SparedAt s t k.page where
  ids : ∀ p ∈ k.ids, pageAt t p = pageAt s p

theorem Touches.spared {h' : FileHandle} (e : Touches s h t h') (hs : Sound s (h :: live)) (hv : s.variant ≠ .noDel)
    (hu : Unrecorded s h) (hk : k ∈ live) : SparedHandle s t k := by
  have hlk := hs.handles k (List.mem_cons_of_mem _ hk)
  rcases e with e | ⟨ok, e⟩
  · exact ⟨hs.dataEffect_spared hu e hlk.page, hs.dataEffect_other e hk⟩
  · have hsp := hs.flushSpares hv e
    have hne := ((List.pairwise_cons.mp hs.live_apart).1 k hk).1
    exact ⟨hs.flushSpares_spared hsp hlk.page hne.symm hlk.held, hs.flushSpares_other hsp hk⟩

theorem SparedHandle.unrecorded (e : SparedHandle s t k) (hu : Unrecorded s k) : Unrecorded t k := by
  intro hv p hp
  rw [listed_congr e.header e.record]
  exact hu (e.valid.mp hv) p hp

-- opening the file whose record would be at page i gives these bytes, or there is none yet
def SavedIs (s : Fs) (i : ℕ) : Option (List UInt8) → Prop
  | none => ¬ Valid s i
  | some content => SavedAt s i content

theorem SavedIs.spared {i : ℕ} {saved : Option (List UInt8)} (hs : SavedIs s i saved) (hf : FlashSound s)
    (hps : 0 < s.header.pageSize) (e : SparedAt s t i) : SavedIs t i saved := by
  cases saved with
  | none => exact fun hv => hs (e.valid.mp hv)
  | some content => exact SavedAt.spared hs hf hps e

-- the handle of a file of these bytes, with what opening its record would give
structure Backed (s : Fs) (h : FileHandle) (content : List UInt8) (saved : Option (List UInt8)) : Prop where
  carries : Carries s h content
  connected : h.connected = true
  clean : h.modified = false → saved = some content
  saved : SavedIs s h.page saved

-- the handle is at the state of the ideal file
structure Mirrors (s : Fs) (h : FileHandle) (f : IdealFile) : Prop extends Backed s h f.file.content f.saved where
  pos : h.pos = f.file.pos
  inside : f.file.pos ≤ f.file.size
  append : h.append = f.file.append

theorem Mirrors.spared (hm : Mirrors s k f) (hf : FlashSound s) (hps : 0 < s.header.pageSize) (e : SparedHandle s t k) :
    Mirrors t k f :=
  { hm with
    carries := hm.carries.spared e.header e.ids
    saved := hm.saved.spared hf hps e.toSparedAt }

theorem Mirrors.wp_write (hs : Sound s (h :: live)) (hu : Unrecorded s h) (hm : Mirrors s h f) (data : List UInt8) :
    wp (SimpleFlashFs.write h data) (fun r t => r.1 = data.length →
      Mirrors t r.2 { f with file := (f.file.write data).2 }) (fun _ _ => True) s := by
  have hl := hs.head
  have hlen := hm.carries.length
  have hpos : h.pos ≤ f.file.content.length := by
    rw [hm.pos]
    exact hm.inside
  have hwhere : h.writePos = if f.file.append = true then f.file.content.length else f.file.pos := by
    rw [FileHandle.writePos, hm.append, hlen, hm.pos]
  have hle : h.writePos ≤ f.file.content.length := by
    rw [FileHandle.writePos]
    split
    · exact hlen.le
    · exact hpos
  apply wp_mono (wp_and (wp_and (wp_write_carries hs.ready hl.toOwns hm.carries hpos) ((safe_write data).wp hs.ready hl.toOwns))
    (wp_write_marks data))
  · rintro ⟨n, k⟩ t ⟨⟨hw, he⟩, hmark, -⟩ hn
    have hw := hw hn
    have hsaved := hm.saved.spared hs.flash hs.ready.layout.pageSize_pos (hs.dataEffect_spared hu he hl.page)
    have hover := hw.carries
    rw [hwhere] at hover
    refine ⟨⟨hover, he.same.connected.trans hm.connected, ?_, ?_⟩, ?_, ?_, he.same.append.trans hm.append⟩
    · intro hmod
      have hnil : data = [] := by
        by_contra hne
        rw [hw.modified hne] at hmod
        cases hmod
      have hclean : h.modified = false := by
        by_contra hne
        rw [hmark (by simpa using hne)] at hmod
        cases hmod
      rw [hm.clean hclean, ByteFile.write, hnil]
      dsimp only
      rw [← hwhere, overwrite_nil]
    · rw [he.same.page]
      exact hsaved
    · rw [hw.pos, hwhere]
      rfl
    · rw [ByteFile.size, ByteFile.write]
      dsimp only
      rw [← hwhere, overwrite_length_max hle]
      exact le_max_right _ _
  · exact fun _ _ _ => trivial

theorem Mirrors.read (hs : Sound s (h :: live)) (hm : Mirrors s h f) (size : ℕ) :
    ∃ k, SimpleFlashFs.read h size s = .ok ((f.file.read size).1, k) s ∧ Mirrors s k { f with file := (f.file.read size).2 } := by
  have hl := hs.head
  have hpos : h.pos ≤ f.file.content.length := by
    rw [hm.pos]
    exact hm.inside
  have hread := read_intact hs.ready.layout.pageSize_pos (hm.carries.holdsContent hs.ready hl.toOwns hm.connected) hpos size
  rw [hm.pos] at hread
  refine ⟨_, hread, ⟨hm.carries.of_inode rfl, hm.connected, hm.clean, hm.saved⟩, ?_, ?_, hm.append⟩
  · rw [FileHandle.advance, hm.pos]
    rfl
  · have hin : f.file.pos ≤ f.file.content.length := hm.inside
    rw [ByteFile.size, ByteFile.read]
    dsimp only
    rw [slice_length]
    omega

theorem Mirrors.seek (hm : Mirrors s h f) {pos : ℕ} (hp : pos ≤ f.file.size) :
    Mirrors s { h with pos := pos } { f with file := (f.file.seek pos).2 } := by
  rw [ByteFile.seek_of_le hp]
  exact ⟨⟨hm.carries.of_inode rfl, hm.connected, hm.clean, hm.saved⟩, rfl, hp, hm.append⟩

theorem Backed.flushed {content : List UInt8} {saved : Option (List UInt8)} {r : Bool × FileHandle} (hs : Sound s (h :: live))
    (hv : s.variant ≠ .noDel) (hb : Backed s h content saved) (hf : Flushed s h t r) :
    Backed t r.2 content (if r.1 then some content else saved) := by
  obtain ⟨hcar, hrec⟩ := hs.flushed_carries hv hb.carries hf
  cases hf with
  | unmodified hmod =>
    rw [if_pos rfl, ← hb.clean hmod]
    exact hb
  | full hmod hn t ht =>
    refine ⟨hcar, hb.connected, hb.clean, ?_⟩
    apply hb.saved.spared hs.flash hs.ready.layout.pageSize_pos
    refine ⟨by rw [ht.rest], ?_, fun _ p _ => ?_⟩
    · rw [ht.rest]
      rfl
    · rw [ht.rest]
      rfl
  | first hmod hn t hc => exact ⟨hcar, hb.connected, fun _ => rfl, hrec rfl hmod⟩
  | next hmod hn p u v t hu hc he => exact ⟨hcar, hb.connected, fun _ => rfl, hrec rfl hmod⟩

theorem Mirrors.flushed (hs : Sound s (h :: live)) (hv : s.variant ≠ .noDel) (hm : Mirrors s h f)
    {r : Bool × FileHandle} (hf : Flushed s h t r) :
    ∃ g, f.Step .flush (.done r.1) g ∧ Mirrors t r.2 g := by
  have hb := hm.toBacked.flushed hs hv hf
  have hcursor : r.2.pos = h.pos ∧ r.2.append = h.append := by
    cases hf <;> exact ⟨rfl, rfl⟩
  have hpos := hcursor.1.trans hm.pos
  have happend := hcursor.2.trans hm.append
  cases hr : r.1 with
  | true =>
    rw [hr, if_pos rfl] at hb
    exact ⟨{ f with saved := some f.file.content }, .flushed, hb, hpos, hm.inside, happend⟩
  | false =>
    rw [hr, if_neg (by simp)] at hb
    exact ⟨f, .notFlushed, hb, hpos, hm.inside, happend⟩

-- one call: the ideal file does the same, or does not answer for it
theorem Mirrors.wp_ask (hs : Sound s (h :: live)) (hv : s.variant ≠ .noDel) (hu : Unrecorded s h) (hm : Mirrors s h f)
    (call : Call) : wp (call.ask h) (fun r t => (∃ g, f.Step call r.1 g ∧ Mirrors t r.2 g) ∨ f.Beyond call r.1)
      (fun _ _ => True) s := by
  cases call with
  | seek pos =>
    by_cases hp : pos ≤ f.file.size
    · have hle : pos ≤ h.inode.fileLen := by
        rw [hm.carries.length]
        exact hp
      rw [Call.ask, wp_bind, SimpleFlashFs.seek, if_pos hle]
      exact Or.inl ⟨_, .seek pos hp, hm.seek hp⟩
    · rw [Call.ask, wp_bind]
      exact wp_run (fun _ _ _ => Or.inr (Nat.lt_of_not_le hp)) fun _ _ _ => trivial
  | write data =>
    rw [Call.ask, wp_bind]
    apply wp_mono (hm.wp_write hs hu data)
    · rintro ⟨n, k⟩ t hw
      by_cases hn : n = data.length
      · subst hn
        exact Or.inl ⟨_, .write data, hw rfl⟩
      · exact Or.inr fun he => hn (Answer.count.inj he)
    · exact fun _ _ h => h
  | read size =>
    obtain ⟨k, hread, hk⟩ := hm.read hs size
    rw [Call.ask, wp_bind]
    apply wp_of_eq hread
    exact Or.inl ⟨_, .read size, hk⟩
  | truncate newSize =>
    rw [Call.ask, wp_bind]
    exact wp_run (fun _ _ _ => Or.inr trivial) fun _ _ _ => trivial
  | flush =>
    rw [Call.ask, wp_bind]
    apply wp_mono (SimpleFlashFs.wp_flush hs.ready hs.head.toOwns hs.head.page)
    · exact fun r t hf => Or.inl (hm.flushed hs hv hf)
    · exact fun _ _ _ => trivial

end Effects

section Pool

variable [Config] {s t : Fs} {h k : FileHandle} {files : List FileHandle} {i j : ℕ} {f : IdealFile} {call : Call}

-- the open files of a filesystem
structure Pool (s : Fs) (files : List FileHandle) : Prop where
  sound : Sound s files
  variant : s.variant ≠ .noDel
  unrecorded : ∀ h ∈ files, Unrecorded s h

theorem Pool.at (hp : Pool s files) (hi : files[i]? = some h) : Sound s (h :: files.eraseIdx i) := by
  obtain ⟨hlt, rfl⟩ := List.getElem?_eq_some_iff.mp hi
  exact hp.sound.perm (List.getElem_cons_eraseIdx_perm hlt).symm

theorem Pool.touched (hp : Pool s files) (hi : files[i]? = some h) (e : Touches s h t k) : Pool t (files.set i k) := by
  have hs := hp.at hi
  have hu := hp.unrecorded h (List.mem_of_getElem? hi)
  have hlt := (List.getElem?_eq_some_iff.mp hi).1
  have hperm := List.set_perm_cons_eraseIdx hlt k
  refine ⟨(e.sound hs hp.variant).perm hperm.symm, by rw [e.keeps.variant]; exact hp.variant, fun g hg => ?_⟩
  rcases List.mem_cons.mp (hperm.mem_iff.mp hg) with rfl | hg
  · exact e.unrecorded hs hu
  · exact (e.spared hs hp.variant hu hg).unrecorded (hp.unrecorded g (List.mem_of_mem_eraseIdx hg))

-- the record at a page that belongs to no open file
theorem Touches.closed {content : List UInt8} (e : Touches s h t k) (hp : Pool s files) (hi : files[i]? = some h)
    (hno : ∀ g ∈ files, g.page ≠ j) (hsaved : SavedAt s j content) :
    (∀ g ∈ files.set i k, g.page ≠ j) ∧ SavedAt t j content := by
  have hs := hp.at hi
  have hmem := List.mem_of_getElem? hi
  have hu := hp.unrecorded h hmem
  have hne := hno h hmem
  have hval := hsaved.valid
  have hspared : SparedAt s t j := by
    rcases e with e | ⟨ok, e⟩
    · exact hs.dataEffect_spared hu e hval.1
    · exact hs.flushSpares_spared (hs.flushSpares hp.variant e) hval.1 hne.symm (Or.inl hval)
  refine ⟨fun g hg => ?_, hsaved.spared hs.flash hs.ready.layout.pageSize_pos hspared⟩
  rcases List.mem_or_eq_of_mem_set hg with hg | rfl
  · exact hno g hg
  · rcases e with e | ⟨ok, e⟩
    · rw [e.same.page]
      exact hne
    · cases e with
      | unmodified => exact hne
      | full => exact hne
      | first => exact hne
      | next hm hn p u v t hu =>
        rintro rfl
        exact (hu.claimable p rfl).2.1 hval

theorem Pool.wp_askAt (hp : Pool s files) (hi : files[i]? = some h) :
    wp (askAt files i call) (fun r t => ∃ k, r.2 = files.set i k ∧ Touches s h t k ∧
      ∀ f, Mirrors s h f → (∃ g, f.Step call r.1 g ∧ Mirrors t k g) ∨ f.Beyond call r.1) (fun _ _ => True) s := by
  have hs := hp.at hi
  have hu := hp.unrecorded h (List.mem_of_getElem? hi)
  rw [askAt, hi]
  dsimp only
  rw [wp_bind]
  apply wp_run
  · intro r t hrun
    have htouch := wp_ok (wp_ask_touches hs call) hrun
    refine ⟨r.2, rfl, htouch, fun f hm => ?_⟩
    have hans := wp_ok (hm.wp_ask hs hp.variant hu call) hrun
    exact hans
  · exact fun _ _ _ => trivial

-- the file i answers as the ideal one, up to the first call that this one does not answer for
def AnswersAs (t : Fs) (files : List FileHandle) (i : ℕ) (f : IdealFile) (talk : List (Call × Answer)) : Prop :=
  (∃ g k, f.Talks talk g ∧ files[i]? = some k ∧ Mirrors t k g) ∨
    ∃ pre call answer rest g, talk = pre ++ (call, answer) :: rest ∧ f.Talks pre g ∧ g.Beyond call answer

theorem AnswersAs.step {g : IdealFile} {answer : Answer} {talk : List (Call × Answer)} (hs : f.Step call answer g)
    (ha : AnswersAs t files i g talk) : AnswersAs t files i f ((call, answer) :: talk) := by
  rcases ha with ⟨g', k, htalk, hk, hm⟩ | ⟨pre, c, a, rest, g', rfl, htalk, hb⟩
  · exact Or.inl ⟨g', k, .step hs htalk, hk, hm⟩
  · exact Or.inr ⟨(call, answer) :: pre, c, a, rest, g', rfl, .step hs htalk, hb⟩

theorem Pool.wp_askAll (calls : List (ℕ × Call)) (hp : Pool s files) :
    wp (askAll calls files) (fun r t => Pool t r.2 ∧
      (∀ i h f, files[i]? = some h → Mirrors s h f → AnswersAs t r.2 i f (talkOf i r.1)) ∧
      ∀ i content, (∀ h ∈ files, h.page ≠ i) → SavedAt s i content → SavedAt t i content) (fun _ _ => True) s := by
  induction calls generalizing s files with
  | nil => exact ⟨hp, fun i h f hi hm => Or.inl ⟨f, h, .start f, hi, hm⟩, fun _ _ _ h => h⟩
  | cons first calls ih =>
    obtain ⟨i, call⟩ := first
    rw [askAll, wp_bind]
    cases hi : files[i]? with
    | none =>
      rw [askAt, hi]
      trivial
    | some h =>
      apply wp_mono (hp.wp_askAt hi)
      · rintro ⟨answer, m⟩ u ⟨k, rfl, htouch, hown⟩
        have hp' := hp.touched hi htouch
        rw [wp_bind]
        apply wp_mono (ih hp')
        · rintro ⟨trace, l⟩ t ⟨hpool, hfiles, hclosed⟩
          refine ⟨hpool, fun j g f hj hm => ?_, fun j content hno hsaved => ?_⟩
          · dsimp only
            rw [talkOf_cons]
            by_cases hji : i = j
            · subst hji
              obtain rfl := Option.some_inj.mp (hi.symm.trans hj)
              rw [if_pos rfl]
              rcases hown f hm with ⟨f', hstep, hm'⟩ | hb
              · apply AnswersAs.step hstep
                apply hfiles i k f' _ hm'
                rw [List.getElem?_set_self (List.getElem?_eq_some_iff.mp hi).1]
              · exact Or.inr ⟨[], call, answer, _, f, rfl, .start f, hb⟩
            · rw [if_neg hji]
              have hs := hp.at hi
              have hmem : g ∈ files.eraseIdx i := List.mem_eraseIdx_iff_getElem?.mpr ⟨j, Ne.symm hji, hj⟩
              apply hfiles j g f
              · rw [List.getElem?_set_ne hji]
                exact hj
              · apply hm.spared hs.flash hs.ready.layout.pageSize_pos
                exact htouch.spared hs hp.variant (hp.unrecorded h (List.mem_of_getElem? hi)) hmem
          · obtain ⟨hno', hsaved'⟩ := htouch.closed hp hi hno hsaved
            exact hclosed j content hno' hsaved'
        · exact fun _ _ h => h
      · exact fun _ _ h => h

-- every file answers as if it were alone, and what is saved of the others stays
theorem askAll_ideal {calls : List (ℕ × Call)} {trace : List (ℕ × Call × Answer)} {l : List FileHandle} (hp : Pool s files)
    (hrun : askAll calls files s = .ok (trace, l) t) :
    (∀ i h f, files[i]? = some h → Mirrors s h f → AnswersAs t l i f (talkOf i trace)) ∧
      ∀ i content, (∀ h ∈ files, h.page ≠ i) → SavedAt s i content → SavedAt t i content := by
  have hall := wp_ok (hp.wp_askAll calls) hrun
  exact hall.2

end Pool

section Example

-- a new file is opened beside the file of pagedFs
def sharedFs : Fs := { pagedFs with allocatedUnwrittenPages := pagedFs.allocatedUnwrittenPages.insert 1 }

def newHandle : FileHandle :=
  { inode := { fileName := [98], fileNameLen := 1 }, page := 1, connected := true, modified := true }

def storedFile : IdealFile := ⟨{ content := List.replicate 100 0xFF }, some (List.replicate 100 0xFF)⟩

def newFile : IdealFile := ⟨{ content := [] }, none⟩

theorem sharedFs_takes : @TakesInode dynamicConfig pagedFs sharedFs (some 1) := by
  have halloc : pagedFs.allocatedUnwrittenPages = {} := by
    decide +kernel
  have hset : sharedFs.allocatedUnwrittenPages = ({} : PageSet).insert 1 := by
    rw [← halloc]
    rfl
  refine @TakesInode.mk dynamicConfig _ _ _ rfl ?_ ?_ ?_ ?_
  · rw [hset]
    exact PageSet.insert_wf PageSet.wf_empty (by decide)
  · intro q
    rw [hset, halloc, PageSet.mem_insert PageSet.wf_empty (by decide), Option.some_inj]
    exact or_congr Iff.rfl eq_comm
  · intro i hi
    obtain rfl := Option.some_inj.mp hi
    refine ⟨by decide +kernel, by rw [pagedFs_valid]; decide, ?_⟩
    rw [halloc]
    exact PageSet.not_mem_empty 1
  · decide +kernel

theorem sharedFs_pool : @Pool dynamicConfig sharedFs [newHandle, pagedHandle] := by
  have hnone : ∀ h ∈ [newHandle, pagedHandle], h.newIds = [] := by
    decide
  refine @Pool.mk dynamicConfig _ _ ?_ (by decide +kernel) ?_
  · exact @Sound.claimed dynamicConfig _ _ _ _ _ pagedFs_sound sharedFs_takes rfl rfl (by decide)
  · intro h hh _ p hp
    rw [hnone h hh] at hp
    cases hp

theorem pagedHandle_carries : Carries sharedFs pagedHandle storedFile.file.content := by
  refine ⟨by decide, by decide +kernel, Or.inr ⟨rfl, by decide +kernel, _, ⟨pagedInode.dataPages, [], ?_, rfl⟩, ?_, ?_⟩⟩
  · exact ⟨rfl, by decide, List.forall_mem_nil _⟩
  · decide +kernel
  · decide +kernel

theorem pagedHandle_mirrors : @Mirrors dynamicConfig sharedFs pagedHandle storedFile := by
  refine @Mirrors.mk dynamicConfig _ _ _ (@Backed.mk dynamicConfig _ _ _ _ pagedHandle_carries rfl (fun _ => rfl) ?_) rfl
    (Nat.zero_le _) rfl
  refine @SavedAt.mk dynamicConfig _ _ _ (by decide +kernel) ?_
  exact pagedHandle_carries.of_inode (by decide +kernel)

theorem newHandle_mirrors : @Mirrors dynamicConfig sharedFs newHandle newFile := by
  refine @Mirrors.mk dynamicConfig _ _ _ (@Backed.mk dynamicConfig _ _ _ _ ⟨rfl, by decide +kernel, Or.inl ⟨rfl, Or.inr rfl, rfl⟩⟩
    rfl (by simp [newHandle]) ?_) rfl le_rfl rfl
  have hno : ¬ @Valid dynamicConfig sharedFs 1 := by
    decide +kernel
  exact hno

def sharedCalls : List (ℕ × Call) :=
  [(0, .write [1, 2, 3, 4, 5]), (1, .seek 60), (1, .write [6, 7, 8, 9, 10, 11]), (0, .flush), (1, .seek 62), (1, .read 3),
    (1, .flush), (0, .seek 1), (0, .read 9)]

theorem askAll_ideal_shared : ∃ trace l t, @askAll dynamicConfig sharedCalls [newHandle, pagedHandle] sharedFs = .ok (trace, l) t ∧
    (talkOf 0 trace = [(.write [1, 2, 3, 4, 5], .count 5), (.flush, .done true), (.seek 1, .done true), (.read 9, .bytes [2, 3, 4, 5])] ∧
      talkOf 1 trace = [(.seek 60, .done true), (.write [6, 7, 8, 9, 10, 11], .count 6), (.seek 62, .done true),
        (.read 3, .bytes [8, 9, 10]), (.flush, .done true)]) ∧
    @AnswersAs dynamicConfig t l 0 newFile (talkOf 0 trace) ∧ @AnswersAs dynamicConfig t l 1 storedFile (talkOf 1 trace) := by
  have hrun : passes (@askAll dynamicConfig sharedCalls [newHandle, pagedHandle]) (fun r _ => decide
      (talkOf 0 r.1 = [(.write [1, 2, 3, 4, 5], .count 5), (.flush, .done true), (.seek 1, .done true), (.read 9, .bytes [2, 3, 4, 5])] ∧
        talkOf 1 r.1 = [(.seek 60, .done true), (.write [6, 7, 8, 9, 10, 11], .count 6), (.seek 62, .done true),
          (.read 3, .bytes [8, 9, 10]), (.flush, .done true)])) sharedFs = true := by
    decide +kernel
  obtain ⟨⟨trace, l⟩, t, hrun, htrace⟩ := returns_of_passes hrun
  have hideal := @askAll_ideal dynamicConfig _ _ _ _ _ _ sharedFs_pool hrun
  refine ⟨trace, l, t, hrun, of_decide_eq_true htrace, ?_, ?_⟩
  · exact hideal.1 0 newHandle newFile rfl newHandle_mirrors
  · exact hideal.1 1 pagedHandle storedFile rfl pagedHandle_mirrors

end Example

end SimpleFlashFs
