import SimpleFlashFs.Openers
import SimpleFlashFs.ReadOnly

namespace SimpleFlashFs

open Lib

section Shared

variable [Config] {s : Fs} {h : FileHandle} {o : Opener} {size : ℕ}

-- the file and the filesystem stay as they were, and no byte comes from behind the end
structure LeavesFile (s : Fs) (o : Opener) (h : FileHandle) (r : List UInt8 × Opener × FileHandle) (t : Fs) : Prop where
  flash : t = s
  inode : r.2.2.inode = h.inode
  inFile : r.1.length ≤ h.inode.fileLen - o.pos
  atEnd : h.inode.fileLen ≤ o.pos → r.1 = []

def ReadsOnly (s : Fs) (o : Opener) (h : FileHandle) (size : ℕ) : Prop :=
  wp (o.read h size) (LeavesFile s o h) (fun _ _ => False) s

-- how many bytes read asks for
def asked (h : FileHandle) (size : ℕ) : ℕ :=
  if subU64 h.inode.fileLen h.pos < size then subU64 h.inode.fileLen h.pos else size

-- the data inside of the inode is as long as the bytes that are copied out of it
def BufferHolds (hd : Header) (h : FileHandle) (size : ℕ) : Prop :=
  asked h size ≠ 0 → h.inode.inodeData ≠ [] → h.inode.fileLen < getInodeDataSpaceSize hd h →
    h.pos + asked h size < getInodeDataSpaceSize hd h → h.pos + asked h size ≤ h.inode.inodeData.length

omit [Config] in
theorem FileHandle.advance_inode (h : FileHandle) (len : ℕ) : (h.advance len).inode = h.inode := rfl

theorem wp_read_iff (hcon : h.connected = true) (hpos : h.pos ≤ h.inode.fileLen) :
    wp (SimpleFlashFs.read h size) (fun r t => t = s ∧ r.2.inode = h.inode ∧ r.1.length ≤ h.inode.fileLen - h.pos)
      (fun _ _ => False) s ↔ BufferHolds s.header h size := by
  have hleft := subU64_le hpos
  rw [SimpleFlashFs.read, if_pos hcon]
  simp only [readFs, wp_bind, wp_get]
  unfold BufferHolds asked
  generalize subU64 h.inode.fileLen h.pos = left at *
  generalize getInodeDataSpaceSize s.header h = space
  generalize hsize : (if left < size then left else size) = n
  have hn : n ≤ left := by
    rw [← hsize]
    split <;> omega
  rw [wp_ite]
  by_cases hzero : n = 0
  · exact iff_of_true ⟨fun _ => ⟨rfl, rfl, Nat.zero_le _⟩, fun hne => absurd hzero hne⟩ (fun hne => absurd hzero hne)
  · rw [and_iff_right (fun h => absurd h hzero), wp_ite, Nat.min_eq_right hn, forall_prop_of_true hzero]
    by_cases hinline : space > h.pos + n ∧ h.inode.fileLen < space ∧ h.inode.inodeData ≠ []
    · constructor
      · intro hw _ _ _ _
        have hcopy := hw.1 hinline
        rw [wp_ite] at hcopy
        by_contra hout
        exact hcopy.1 (Nat.lt_of_not_le hout)
      · intro hb
        refine ⟨fun _ => ?_, fun hno => absurd hinline hno⟩
        have hle : h.pos + n ≤ h.inode.inodeData.length := hb hzero hinline.2.2 hinline.2.1 hinline.1
        rw [if_neg (Nat.not_lt.mpr hle), wp_pure]
        dsimp only
        rw [FileHandle.advance_inode, slice_length]
        refine ⟨rfl, rfl, ?_⟩
        exact (Nat.min_le_left _ _).trans (hn.trans hleft)
    · have hr := readDataPages_upTo (s := s) (h := h) n
      have hlength := hr.length
      apply iff_of_true
      · refine ⟨fun h => absurd h hinline, fun _ => ⟨rfl, ?_, ?_⟩⟩
        · rw [hr.handle]
        · omega
      · intro _ h1 h2 h3
        exact absurd ⟨h3, h2, h1⟩ hinline

-- no byte is asked for where the shared handle stands
theorem readsOnly_nothing (hcon : h.connected = true) (hpos : h.pos = o.pos) : ReadsOnly s o h 0 := by
  unfold ReadsOnly Opener.read
  rw [if_neg (not_not.mpr hcon), whenNeeded, decide_eq_false (not_not.mpr hpos), if_neg Bool.false_ne_true]
  simp only [wp_bind, wp_pure, SimpleFlashFs.read, if_pos hcon, readFs, wp_get, Nat.not_lt_zero, if_false, if_true]
  exact ⟨rfl, rfl, Nat.zero_le _, fun _ => rfl⟩

omit [Config] in
theorem bufferHolds_nothing (hd : Header) (h : FileHandle) : BufferHolds hd h 0 := by
  intro hne
  rw [asked, if_neg (Nat.not_lt_zero _)] at hne
  exact absurd rfl hne

theorem readsOnly_inFile_iff (hcon : h.connected = true) (hle : o.pos ≤ h.inode.fileLen) :
    ReadsOnly s o h size ↔ BufferHolds s.header { h with pos := o.pos } size := by
  unfold ReadsOnly Opener.read
  rw [if_neg (not_not.mpr hcon), whenNeeded_seek hle]
  rw [← @wp_read_iff _ s { h with pos := o.pos } size hcon hle]
  simp only [wp_bind, wp_pure]
  constructor
  · intro hw
    exact wp_mono hw (fun r t ht => ⟨ht.flash, ht.inode, ht.inFile⟩) (fun _ _ h => h)
  · intro hw
    apply wp_mono hw
    · rintro r t ⟨ht, hi, hl⟩
      exact ⟨ht, hi, hl, fun hend => List.length_eq_zero_iff.mp (by dsimp only at hl ⊢; omega)⟩
    · exact fun _ _ h => h

theorem readsOnly_iff (hle : h.connected = true → o.pos ≤ h.inode.fileLen ∨ h.pos = o.pos ∧ size = 0) :
    ReadsOnly s o h size ↔ (h.connected = true → BufferHolds s.header { h with pos := o.pos } size) := by
  by_cases hcon : h.connected = true
  · rw [forall_prop_of_true hcon]
    rcases hle hcon with hle | ⟨hpos, rfl⟩
    · exact readsOnly_inFile_iff hcon hle
    · exact iff_of_true (readsOnly_nothing hcon hpos) (bufferHolds_nothing _ _)
  · unfold ReadsOnly Opener.read
    rw [if_pos hcon]
    exact iff_of_true ⟨rfl, rfl, Nat.zero_le _, fun _ => rfl⟩ (fun h => absurd h hcon)

theorem wp_read_inode (h : FileHandle) (size : ℕ) :
    wp (SimpleFlashFs.read h size) (fun r _ => r.2.inode = h.inode) (fun _ _ => True) s := by
  rw [SimpleFlashFs.read, wp_ite]
  refine ⟨fun _ => ?_, fun _ => trivial⟩
  simp only [readFs, wp_bind, wp_get]
  generalize (if subU64 h.inode.fileLen h.pos < size then subU64 h.inode.fileLen h.pos else size) = n
  generalize min (subU64 h.inode.fileLen h.pos) n = len
  rw [wp_ite]
  refine ⟨fun _ => rfl, fun _ => ?_⟩
  rw [wp_ite]
  constructor
  · intro _
    rw [wp_ite]
    exact ⟨fun _ => trivial, fun _ => FileHandle.advance_inode h len⟩
  · intro _
    rw [wp_pure, (readDataPages_upTo (s := s) (h := h) n).handle]

-- the seek in front of the read writes to the file
theorem not_readsOnly_behind (hcon : h.connected = true) (hne : h.pos ≠ o.pos) (hgt : h.inode.fileLen + 1 < o.pos)
    (hwf : s.freeDataPages.WF) (hd : DeletedLast h.inode.dataPages)
    (hok : ¬ enlargeRefused s h (o.pos - h.inode.fileLen - 1)) : ¬ ReadsOnly s o h size := by
  intro hw
  unfold ReadsOnly Opener.read at hw
  rw [if_neg (not_not.mpr hcon), whenNeeded, decide_eq_true hne, if_pos rfl, wp_bind] at hw
  have hseek : wp (seek h o.pos) (fun r _ => r.2.inode.fileLen ≠ h.inode.fileLen) (fun _ _ => True) s := by
    rw [seek, if_neg (by omega), if_neg (not_not.mpr hcon), wp_bind]
    apply wp_mono (wp_enlargeFile_grows hwf hd hok)
    · rintro r t ⟨hr, hlen⟩
      rw [if_pos hr, wp_pure]
      dsimp only
      omega
    · exact fun _ _ _ => trivial
  unfold wp at hw hseek
  cases hrun : seek h o.pos s with
  | error e t =>
    rw [hrun] at hw
    exact hw
  | ok r t =>
    rw [hrun] at hw hseek
    have hread := wp_read_inode (s := t) r.2 size
    unfold wp at hread
    change wp (SimpleFlashFs.read r.2 size >>= _) _ _ t at hw
    rw [wp_bind] at hw
    unfold wp at hw
    cases hrun' : SimpleFlashFs.read r.2 size t with
    | error e u =>
      rw [hrun'] at hw
      exact hw
    | ok r' u =>
      rw [hrun'] at hw hread
      apply hseek
      rw [← hread]
      exact congrArg Inode.fileLen hw.inode

theorem opener_read_law (s : Fs) (o : Opener) (h : FileHandle) (size : ℕ) :
    ((h.connected = true → o.pos ≤ h.inode.fileLen ∨ h.pos = o.pos ∧ size = 0) →
      (ReadsOnly s o h size ↔ (h.connected = true → BufferHolds s.header { h with pos := o.pos } size))) ∧
    (h.inode.fileLen + 1 < o.pos → h.connected = true → h.pos ≠ o.pos → s.freeDataPages.WF →
      DeletedLast h.inode.dataPages → ¬ enlargeRefused s h (o.pos - h.inode.fileLen - 1) → ¬ ReadsOnly s o h size) :=
  ⟨readsOnly_iff, fun hgt hcon hne hwf hd hok => not_readsOnly_behind hcon hne hgt hwf hd hok⟩

end Shared

section Truncated

variable [Config]

-- one opener writes 20 bytes, another one truncates the file to 5, and the first one reads on
def readAfterTruncate (s : Fs) (grown : ℕ) : Bool :=
  match openFile [97] { out := true } s with
  | .error _ _ => false
  | .ok h t =>
    match SimpleFlashFs.write h (List.replicate 20 1) t with
    | .error _ _ => false
    | .ok w u =>
      match truncate w.2 5 u with
      | .error _ _ => false
      | .ok c v =>
        match Opener.read { pos := w.2.pos } c.2 1 v with
        | .error _ _ => false
        | .ok r _ => decide (c.2.inode.fileLen = 5 ∧ r.2.2.inode.fileLen = grown)

theorem readAfterTruncate_grows {s : Fs} {grown : ℕ} (hrun : readAfterTruncate s grown = true) (hgrown : grown ≠ 5) :
    ∃ h w c t u v, openFile [97] { out := true } s = .ok h t ∧
      SimpleFlashFs.write h (List.replicate 20 1) t = .ok w u ∧ truncate w.2 5 u = .ok c v ∧
        ¬ ReadsOnly v { pos := w.2.pos } c.2 1 := by
  unfold readAfterTruncate at hrun
  split at hrun
  · cases hrun
  · next h t ho =>
    split at hrun
    · cases hrun
    · next w u hw =>
      split at hrun
      · cases hrun
      · next c v hc =>
        split at hrun
        · cases hrun
        · next r x hr =>
          refine ⟨h, w, c, t, u, v, ho, hw, hc, fun hread => ?_⟩
          obtain ⟨h5, hg⟩ := of_decide_eq_true hrun
          have hsame := wp_ok hread hr
          rw [hsame.inode] at hg
          exact hgrown (hg.symm.trans h5)

end Truncated

theorem opener_read_enlarges : ∃ h w c t u v, @openFile dynamicConfig [97] { out := true } erasedFs = .ok h t ∧
    @SimpleFlashFs.write dynamicConfig h (List.replicate 20 1) t = .ok w u ∧
      truncate w.2 5 u = .ok c v ∧ ¬ @ReadsOnly dynamicConfig v { pos := w.2.pos } c.2 1 := by
  apply @readAfterTruncate_grows dynamicConfig erasedFs 19
  · decide +kernel
  · decide

end SimpleFlashFs
