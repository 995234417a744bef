import SimpleFlashFs.Corrections
import SimpleFlashFs.ReadOnly

namespace SimpleFlashFs

open Lib

section Pages

variable [Config] {s : Fs} {l : List DataPage}

-- the bytes of the pages up to the first one that cannot be read
def pagesBytes (s : Fs) : List DataPage → List UInt8
  | [] => []
  | m :: rest => if (readPage s m.pageId).error = none then (readPage s m.pageId).page ++ pagesBytes s rest else []

theorem pagesBytes_end (s : Fs) (l : List DataPage) : ∃ g, (pagesBytes s l).length = s.header.pageSize * g ∧
    ∀ m, l[g]? = some m → (readPage s m.pageId).error ≠ none := by
  induction l with
  | nil => exact ⟨0, rfl, nofun⟩
  | cons m rest ih =>
    rw [pagesBytes]
    split
    · next hr =>
      obtain ⟨g, hlen, hend⟩ := ih
      apply Exists.intro (g + 1)
      rw [List.length_append, readPage_length hr, hlen, Nat.mul_add_one, Nat.add_comm]
      exact ⟨rfl, hend⟩
    · next hr =>
      apply Exists.intro 0
      apply And.intro rfl
      intro m' hm
      rw [← Option.some.inj hm]
      exact hr

theorem pagesBytes_page {k : ℕ} (hk : s.header.pageSize * k < (pagesBytes s l).length) :
    ∃ m, l[k]? = some m ∧ (readPage s m.pageId).error = none ∧
      slice (pagesBytes s l) (s.header.pageSize * k) s.header.pageSize = (readPage s m.pageId).page := by
  induction l generalizing k with
  | nil => exact absurd hk (Nat.not_lt_zero _)
  | cons m rest ih =>
    rw [pagesBytes] at hk ⊢
    split at hk
    · next hr =>
      have hlen := readPage_length hr
      rw [if_pos hr]
      cases k with
      | zero =>
        refine ⟨m, rfl, hr, ?_⟩
        rw [Nat.mul_zero, slice, List.drop_zero, List.take_append_of_le_length hlen.ge, List.take_of_length_le hlen.le]
      | succ k =>
        rw [List.length_append, hlen, Nat.mul_add_one] at hk
        obtain ⟨m', hm, hr', hpage⟩ := ih (k := k) (by omega)
        refine ⟨m', hm, hr', ?_⟩
        rw [← hpage, slice, slice, Nat.mul_add_one, Nat.add_comm, ← hlen, List.drop_length_add_append]
    · exact absurd hk (Nat.not_lt_zero _)

omit [Config] in
theorem slice_add (l : List UInt8) (p n k : ℕ) : slice l p (n + k) = slice l p n ++ slice l (p + n) k := by
  rw [slice, slice, slice, List.take_add, List.drop_drop]

omit [Config] in
theorem slice_zero (l : List UInt8) (p : ℕ) : slice l p 0 = [] := List.take_zero

omit [Config] in
theorem slice_of_ge {l : List UInt8} {p : ℕ} (h : l.length ≤ p) (n : ℕ) : slice l p n = [] := by
  rw [slice, List.drop_eq_nil_of_le h, List.take_nil]

omit [Config] in
theorem take_slice {l : List UInt8} {p n k : ℕ} (h : n ≤ k) : (slice l p k).take n = slice l p n := by
  rw [slice, slice, List.take_take, Nat.min_eq_left h]

omit [Config] in
theorem advance_advance (h : FileHandle) (n k : ℕ) : (h.advance n).advance k = h.advance (n + k) := by
  rw [FileHandle.advance, FileHandle.advance, FileHandle.advance, Nat.add_assoc]

end Pages

section Reading

variable [Config] {s : Fs} {h : FileHandle}

theorem readLoop_done (fuel : ℕ) {size : ℕ} {acc : List UInt8} (hsize : size ≤ acc.length) :
    readLoop s fuel h size acc = (acc, h) := by
  cases fuel with
  | zero => rfl
  | succ fuel =>
    rw [readLoop]
    exact if_neg (Nat.not_lt.mpr hsize)

theorem readLoop_eq (hps : 0 < s.header.pageSize) (hstored : ∀ m ∈ h.inode.dataPages, m.state = .stored)
    (fuel : ℕ) {k want : ℕ} (acc : List UInt8) (hpos : h.pos = s.header.pageSize * k)
    (hin : h.pos ≤ (pagesBytes s h.inode.dataPages).length) (hfuel : want ≤ fuel) :
    readLoop s fuel h (acc.length + want) acc =
      (acc ++ slice (pagesBytes s h.inode.dataPages) h.pos want,
        h.advance (slice (pagesBytes s h.inode.dataPages) h.pos want).length) := by
  induction fuel generalizing h acc k want with
  | zero =>
    obtain rfl := Nat.le_zero.mp hfuel
    rw [readLoop, slice_zero, List.append_nil]
    rfl
  | succ fuel ih =>
    rw [readLoop]
    dsimp only
    split
    · next hlt =>
      have hidx : h.pos / s.header.pageSize = k := by rw [hpos, Nat.mul_div_cancel_left _ hps]
      rw [hidx]
      by_cases hend : h.pos < (pagesBytes s h.inode.dataPages).length
      · obtain ⟨m, hm, hread, hpage⟩ := pagesBytes_page (hpos ▸ hend)
        have hstate := hstored m (List.mem_of_getElem? hm)
        have hlen := readPage_length hread
        rw [← hpos] at hpage
        rw [hm]
        dsimp only
        rw [hstate, hread, Nat.add_sub_cancel_left]
        split
        · next hpart =>
          have hle : want ≤ s.header.pageSize := by omega
          have htake : (readPage s m.pageId).page.take want = slice (pagesBytes s h.inode.dataPages) h.pos want := by
            rw [← hpage, take_slice hle]
          have hlen' : (slice (pagesBytes s h.inode.dataPages) h.pos want).length = want := by
            rw [← htake, List.length_take]
            omega
          rw [if_neg (fun hno => hno.2 rfl), if_pos rfl, Nat.min_eq_left hle, htake, hlen']
          apply readLoop_done
          rw [List.length_append, hlen']
        · next hfull =>
          obtain ⟨rest, rfl⟩ : ∃ rest, want = s.header.pageSize + rest := ⟨want - s.header.pageSize, by omega⟩
          have hgoon : (pagesBytes s h.inode.dataPages).length - h.pos ≥ s.header.pageSize := by
            have hl := congrArg List.length hpage
            rw [slice_length, hlen] at hl
            omega
          have hnext := ih (h := h.advance s.header.pageSize) (k := k + 1) hstored
            (acc ++ (readPage s m.pageId).page) (by rw [FileHandle.advance, hpos, Nat.mul_add_one])
            (by rw [FileHandle.advance]; dsimp only; omega) (show rest ≤ fuel by omega)
          rw [List.length_append, hlen, Nat.add_assoc] at hnext
          rw [if_neg (by decide), if_neg (not_not.mpr rfl), hnext, slice_add, hpage, List.append_assoc,
            List.length_append, hlen, ← advance_advance]
          rfl
      · have hstop : ∀ m, h.inode.dataPages[k]? = some m → (readPage s m.pageId).error ≠ none := by
          obtain ⟨g, hg, hlast⟩ := pagesBytes_end s h.inode.dataPages
          have hk : k = g := by
            apply Nat.eq_of_mul_eq_mul_left hps
            omega
          rw [hk]
          exact hlast
        rw [slice_of_ge (Nat.le_of_not_lt hend), List.append_nil]
        cases hm : h.inode.dataPages[k]? with
        | none => rfl
        | some m =>
          have hstate := hstored m (List.mem_of_getElem? hm)
          have herr := hstop m hm
          dsimp only
          rw [hstate]
          split
          · rw [if_pos ⟨rfl, herr⟩]
            rfl
          · rw [if_neg (show ¬ PageState.stored = .new by decide)]
            rfl
    · next hge =>
      have hzero : want = 0 := by omega
      rw [hzero, slice_zero, List.append_nil]
      rfl

theorem readDataPages_eq (hps : 0 < s.header.pageSize) (hstored : ∀ m ∈ h.inode.dataPages, m.state = .stored)
    (hin : h.pos ≤ (pagesBytes s h.inode.dataPages).length) (size : ℕ) :
    readDataPages s h size = (slice (pagesBytes s h.inode.dataPages) h.pos size,
      h.advance (slice (pagesBytes s h.inode.dataPages) h.pos size).length) := by
  have hdiv := Nat.div_add_mod h.pos s.header.pageSize
  rw [readDataPages]
  split
  · next hmod =>
    have hstart := Nat.mod_lt h.pos hps
    have hend : s.header.pageSize * (h.pos / s.header.pageSize) < (pagesBytes s h.inode.dataPages).length := by omega
    obtain ⟨m, hm, hread, hpage⟩ := pagesBytes_page hend
    have hstate := hstored m (List.mem_of_getElem? hm)
    have hlen := readPage_length hread
    have hl := congrArg List.length hpage
    rw [slice_length, hlen] at hl
    have hbytes : readUnaligned s h size = some (slice (pagesBytes s h.inode.dataPages) h.pos
        (min size (s.header.pageSize - h.pos % s.header.pageSize))) := by
      rw [readUnaligned]
      dsimp only
      rw [hm]
      dsimp only
      rw [hstate, if_neg (show ¬ PageState.stored = .new by decide), if_neg (not_not.mpr hread), ← hpage,
        slice_slice (by omega), hdiv]
    rw [hbytes]
    dsimp only
    obtain ⟨n, hn⟩ : ∃ n, n = min size (s.header.pageSize - h.pos % s.header.pageSize) := ⟨_, rfl⟩
    have hlen' : (slice (pagesBytes s h.inode.dataPages) h.pos n).length = n := by
      rw [slice_length]
      omega
    rw [← hn, hlen']
    obtain ⟨rest, rfl⟩ : ∃ rest, size = n + rest := ⟨size - n, by omega⟩
    by_cases hrest : rest = 0
    · rw [hrest, Nat.add_zero, hlen']
      exact readLoop_done _ hlen'.ge
    · have haligned : (h.advance n).pos = s.header.pageSize * (h.pos / s.header.pageSize + 1) := by
        rw [FileHandle.advance, Nat.mul_add_one]
        dsimp only
        omega
      have hloop := readLoop_eq (h := h.advance n) hps hstored (n + rest) (slice (pagesBytes s h.inode.dataPages) h.pos n)
        haligned (by rw [FileHandle.advance]; dsimp only; omega) (Nat.le_add_left rest n)
      rw [hlen'] at hloop
      rw [hloop, slice_add, List.length_append, hlen', ← advance_advance]
      rfl
  · next hmod =>
    have hloop := readLoop_eq (k := h.pos / s.header.pageSize) hps hstored size [] (by omega) hin le_rfl
    rw [List.length_nil, Nat.zero_add, List.nil_append] at hloop
    exact hloop

omit [Config] in
theorem subU64_of_le {a b : ℕ} (h : b ≤ a) (ha : a < 2 ^ 64) : subU64 a b = a - b := by
  rw [subU64, show a + 2 ^ 64 - b = (a - b) + 2 ^ 64 by omega, Nat.add_mod_right, Nat.mod_eq_of_lt (by omega)]

-- read takes the data inside of the inode
def ServedInline (hd : Header) (h : FileHandle) : Prop :=
  h.inode.fileLen < getInodeDataSpaceSize hd h ∧ h.inode.inodeData ≠ []

instance (hd : Header) (h : FileHandle) : Decidable (ServedInline hd h) := inferInstanceAs (Decidable (_ ∧ _))

-- what read can deliver of a file
def readableBytes (s : Fs) (h : FileHandle) : List UInt8 :=
  if ServedInline s.header h then h.inode.inodeData.take h.inode.fileLen else pagesBytes s h.inode.dataPages

structure Source (s : Fs) (h : FileHandle) : Prop where
  connected : h.connected = true
  stored : ∀ m ∈ h.inode.dataPages, m.state = .stored
  inline : h.inode.inodeData ≠ [] → h.inode.fileLen ≤ h.inode.inodeData.length
  length_lt : h.inode.fileLen < 2 ^ 64
  pos : h.pos ≤ h.inode.fileLen
  inside : h.pos ≤ (readableBytes s h).length

theorem wp_read_exact (hps : 0 < s.header.pageSize) (hs : Source s h) {size : ℕ}
    (hsize : h.pos + size ≤ h.inode.fileLen) :
    wp (SimpleFlashFs.read h size) (fun r t => t = s ∧ r = (slice (readableBytes s h) h.pos size,
      h.advance (slice (readableBytes s h) h.pos size).length)) (fun _ _ => False) s := by
  have hleft := subU64_of_le hs.pos hs.length_lt
  have hpos := hs.pos
  have hinside := hs.inside
  rw [SimpleFlashFs.read, if_pos hs.connected]
  simp only [readFs, wp_bind, wp_get]
  generalize subU64 h.inode.fileLen h.pos = left at *
  have hasked : (if left < size then left else size) = size := if_neg (by omega)
  have hmin : min left size = size := by omega
  rw [hasked, hmin, wp_ite]
  constructor
  · rintro rfl
    rw [slice_zero]
    exact ⟨rfl, rfl⟩
  · intro hne
    rw [wp_ite]
    constructor
    · rintro ⟨-, hlt, hdata⟩
      have hlen := hs.inline hdata
      have hslice : slice (h.inode.inodeData.take h.inode.fileLen) h.pos size = slice h.inode.inodeData h.pos size :=
        slice_take hsize
      have hlen' : (slice h.inode.inodeData h.pos size).length = size := by
        rw [slice_length]
        omega
      rw [if_neg (by omega), readableBytes, if_pos ⟨hlt, hdata⟩, hslice, hlen', wp_pure]
      exact ⟨rfl, rfl⟩
    · intro hno
      have hpaged : ¬ ServedInline s.header h := fun hi => hno ⟨lt_of_le_of_lt hsize hi.1, hi⟩
      rw [readableBytes, if_neg hpaged] at hinside ⊢
      rw [wp_pure, readDataPages_eq hps hs.stored hinside]
      exact ⟨rfl, rfl⟩

end Reading

section Copy

-- a target: what its write returns, and the target after it
abbrev Sink (τ : Type) := τ → List UInt8 → Except Fault (ℕ × τ)

variable [Config] {τ : Type}

-- max_read is an int32_t, and the buffer is resized to it
def copyLoop (sink : Sink τ) (capacity : ℕ) : ℕ → FileHandle → ℕ → τ → FsM (Bool × τ)
  | 0, _, _, _ => throw .diverges
  | fuel + 1, source, dataAlreadyRead, target =>
    if dataAlreadyRead < source.inode.fileLen then do
      let maxRead := toInt32 (min (source.inode.fileLen - dataAlreadyRead) capacity : ℕ)
      if maxRead < 0 then throw .thrown
      else
        let r ← SimpleFlashFs.read source maxRead.toNat
        match sink target r.1 with
        | .error e => throw e
        | .ok w =>
          if w.1 ≠ r.1.length then pure (false, w.2)
          else copyLoop sink capacity fuel r.2 (dataAlreadyRead + r.1.length) w.2
    else pure (true, target)

def copy (sink : Sink τ) (capacity fuel : ℕ) (source : FileHandle) (target : τ) : FsM (Bool × τ) :=
  copyLoop sink capacity fuel source 0 target

-- a file of the other bank as the target
def handleSink : Sink (FileHandle × Fs) := fun target data =>
  match SimpleFlashFs.write target.1 data target.2 with
  | .ok r s => .ok (r.1, r.2, s)
  | .error e _ => .error e

-- what a target holds grows by what it takes in full
def Appends (sink : Sink τ) (content : τ → List UInt8) : Prop :=
  ∀ target data w, sink target data = .ok w → w.1 = data.length → content w.2 = content target ++ data

-- the same for what can be said of a target
def AppendsTo (sink : Sink τ) (holds : τ → List UInt8 → Prop) : Prop :=
  ∀ target content data w, holds target content → sink target data = .ok w → w.1 = data.length → holds w.2 (content ++ data)

variable {sink : Sink τ} {capacity : ℕ} {s : Fs} {h : FileHandle}

omit [Config] in
theorem Appends.to {content : τ → List UInt8} (ha : Appends sink content) :
    AppendsTo sink fun target bytes => content target = bytes := by
  rintro target _ data w rfl hw hall
  exact ha target data w hw hall

theorem Source.advance (hs : Source s h) {n : ℕ} (h1 : h.pos + n ≤ h.inode.fileLen)
    (h2 : h.pos + n ≤ (readableBytes s h).length) : Source s (h.advance n) :=
  ⟨hs.connected, hs.stored, hs.inline, hs.length_lt, h1, h2⟩

-- one round of the loop: it asks for `size` bytes, and gets those of them that can be read
theorem wp_copyLoop_round (hps : 0 < s.header.pageSize) (hs : Source s h) (hcap : min h.inode.fileLen capacity < 2 ^ 31)
    (hlt : h.pos < h.inode.fileLen) (fuel : ℕ) (target : τ) {Q : Bool × τ → Fs → Prop} {R : Fault → Fs → Prop}
    (herror : ∀ e, sink target (slice (readableBytes s h) h.pos (min (h.inode.fileLen - h.pos) capacity)) = .error e → R e s)
    (hok : ∀ w, sink target (slice (readableBytes s h) h.pos (min (h.inode.fileLen - h.pos) capacity)) = .ok w →
      (w.1 ≠ (slice (readableBytes s h) h.pos (min (h.inode.fileLen - h.pos) capacity)).length → Q (false, w.2) s) ∧
      (w.1 = (slice (readableBytes s h) h.pos (min (h.inode.fileLen - h.pos) capacity)).length →
        wp (copyLoop sink capacity fuel
          (h.advance (slice (readableBytes s h) h.pos (min (h.inode.fileLen - h.pos) capacity)).length)
          (h.pos + (slice (readableBytes s h) h.pos (min (h.inode.fileLen - h.pos) capacity)).length) w.2) Q R s)) :
    wp (copyLoop sink capacity (fuel + 1) h h.pos target) Q R s := by
  rw [copyLoop, if_pos hlt]
  generalize hsize : min (h.inode.fileLen - h.pos) capacity = size at *
  have hle : size ≤ h.inode.fileLen - h.pos := by omega
  have hmax : toInt32 (size : ℕ) = size := toInt32_of_lt (by omega)
  dsimp only
  rw [hmax, if_neg (by omega), Int.toNat_natCast, wp_bind]
  apply wp_mono (wp_read_exact hps hs (by omega))
  · rintro r u ⟨hu, hr⟩
    rw [hr, hu]
    dsimp only
    cases hsink : sink target (slice (readableBytes s h) h.pos size) with
    | error e => exact herror e hsink
    | ok w =>
      obtain ⟨hshort, hfull⟩ := hok w hsink
      dsimp only
      rw [wp_ite]
      exact ⟨hshort, fun hall => hfull (not_not.mp hall)⟩
  · exact fun _ _ h => h.elim

theorem copyLoop_done (hlt : ¬ h.pos < h.inode.fileLen) (fuel : ℕ) (target : τ) :
    copyLoop sink capacity (fuel + 1) h h.pos target = pure (true, target) := by
  rw [copyLoop, if_neg hlt]

theorem readableBytes_advance (s : Fs) (h : FileHandle) (n : ℕ) : readableBytes s (h.advance n) = readableBytes s h := rfl

omit [Config] in
theorem slice_resume (l : List UInt8) (p : ℕ) {n k : ℕ} (hle : n ≤ k) :
    slice l p n ++ slice l (p + (slice l p n).length) (k - (slice l p n).length) = slice l p k := by
  have hlen : (slice l p n).length ≤ k := by
    rw [slice_length]
    omega
  have htake : slice l p n = slice l p (slice l p n).length := by
    rw [slice, slice, List.length_take, List.take_eq_take_iff]
    omega
  calc slice l p n ++ slice l (p + (slice l p n).length) (k - (slice l p n).length)
      = slice l p (slice l p n).length ++ slice l (p + (slice l p n).length) (k - (slice l p n).length) := by rw [← htake]
    _ = slice l p k := by rw [← slice_add, Nat.add_sub_cancel' hlen]

-- whatever the number of rounds: what was taken in full is what the file holds
theorem wp_copyLoop_exact (hps : 0 < s.header.pageSize) (hs : Source s h) (hcap : min h.inode.fileLen capacity < 2 ^ 31)
    {holds : τ → List UInt8 → Prop} (happ : AppendsTo sink holds) (fuel : ℕ) {target : τ} {content : List UInt8}
    (hx : holds target content) :
    wp (copyLoop sink capacity fuel h h.pos target)
      (fun r _ => r.1 = true → holds r.2 (content ++ slice (readableBytes s h) h.pos (h.inode.fileLen - h.pos)))
      (fun _ _ => True) s := by
  induction fuel generalizing h target content with
  | zero => trivial
  | succ fuel ih =>
    by_cases hlt : h.pos < h.inode.fileLen
    · apply wp_copyLoop_round hps hs hcap hlt
      · exact fun _ _ => trivial
      · intro w hw
        apply And.intro (fun _ => nofun)
        intro hall
        have hgrown := happ _ _ _ _ hx hw hall
        generalize hsize : min (h.inode.fileLen - h.pos) capacity = size at *
        have hinside := hs.inside
        have hlen : (slice (readableBytes s h) h.pos size).length ≤ size := by
          rw [slice_length]
          exact Nat.min_le_left _ _
        have hlen' : h.pos + (slice (readableBytes s h) h.pos size).length ≤ (readableBytes s h).length := by
          rw [slice_length]
          omega
        have hnext := ih (hs.advance (by omega) hlen') hcap hgrown
        apply wp_mono hnext
        · intro r u hr hdone
          have hrest := hr hdone
          rw [readableBytes_advance, List.append_assoc] at hrest
          have hsub : (h.advance (slice (readableBytes s h) h.pos size).length).inode.fileLen -
              (h.advance (slice (readableBytes s h) h.pos size).length).pos =
              h.inode.fileLen - h.pos - (slice (readableBytes s h) h.pos size).length := Nat.sub_add_eq _ _ _
          rw [hsub] at hrest
          have hresume := slice_resume (readableBytes s h) h.pos (show size ≤ h.inode.fileLen - h.pos by omega)
          rw [← hresume]
          exact hrest
        · exact fun _ _ h => h
    · rw [copyLoop_done hlt]
      have hzero : h.inode.fileLen - h.pos = 0 := by omega
      intro _
      rw [hzero, slice_zero, List.append_nil]
      exact hx

theorem copy_appends (hps : 0 < s.header.pageSize) (hs : Source s h) (hpos : h.pos = 0)
    (hcap : min h.inode.fileLen capacity < 2 ^ 31) {holds : τ → List UInt8 → Prop} (happ : AppendsTo sink holds) {fuel : ℕ}
    {target target' : τ} {content : List UInt8} {t : Fs} (hx : holds target content)
    (hrun : copy sink capacity fuel h target s = .ok (true, target') t) :
    holds target' (content ++ (readableBytes s h).take h.inode.fileLen) := by
  have hwp := wp_copyLoop_exact hps hs hcap happ fuel hx
  rw [hpos, Nat.sub_zero, slice, List.drop_zero] at hwp
  exact wp_ok hwp hrun rfl

-- a file that can be read to its end is read to its end
theorem wp_copyLoop_ends (hps : 0 < s.header.pageSize) (hs : Source s h) (hcap : min h.inode.fileLen capacity < 2 ^ 31)
    (hpos : 0 < capacity) (hall : h.inode.fileLen ≤ (readableBytes s h).length)
    (hsink : ∀ target data, sink target data ≠ .error .diverges) {fuel : ℕ} (hfuel : h.inode.fileLen - h.pos < fuel)
    (target : τ) : wp (copyLoop sink capacity fuel h h.pos target) (fun _ _ => True) (fun e _ => e ≠ .diverges) s := by
  induction fuel generalizing h target with
  | zero => exact absurd hfuel (Nat.not_lt_zero _)
  | succ fuel ih =>
    by_cases hlt : h.pos < h.inode.fileLen
    · apply wp_copyLoop_round hps hs hcap hlt
      · rintro e he rfl
        exact hsink _ _ he
      · intro w hw
        apply And.intro (fun _ => trivial)
        intro _
        generalize hsize : min (h.inode.fileLen - h.pos) capacity = size at *
        have hlen : (slice (readableBytes s h) h.pos size).length = size := by
          rw [slice_length]
          omega
        rw [hlen]
        have hnext : h.inode.fileLen - (h.pos + size) < fuel := by omega
        exact ih (hs.advance (by omega) (by omega)) hcap hall hnext w.2
    · rw [copyLoop_done hlt]
      trivial

def takeAll : Sink (List UInt8) := fun target data => .ok (data.length, target ++ data)

-- a file that cannot be read to its end is read for ever
theorem copyLoop_diverges (hps : 0 < s.header.pageSize) (hs : Source s h) (hcap : min h.inode.fileLen capacity < 2 ^ 31)
    (hlong : capacity = 0 ∧ h.pos < h.inode.fileLen ∨ (readableBytes s h).length < h.inode.fileLen) (fuel : ℕ)
    (target : List UInt8) :
    wp (copyLoop takeAll capacity fuel h h.pos target) (fun _ _ => False) (fun e _ => e = .diverges) s := by
  induction fuel generalizing h target with
  | zero => rfl
  | succ fuel ih =>
    have hinside := hs.inside
    have hlt : h.pos < h.inode.fileLen := by omega
    apply wp_copyLoop_round hps hs hcap hlt
    · exact fun _ => nofun
    · intro w hw
      obtain rfl := Except.ok.inj hw
      apply And.intro (fun hne => absurd rfl hne)
      intro _
      generalize hsize : min (h.inode.fileLen - h.pos) capacity = size at *
      have hlen : (slice (readableBytes s h) h.pos size).length ≤ size := by
        rw [slice_length]
        exact Nat.min_le_left _ _
      have hlen' : h.pos + (slice (readableBytes s h) h.pos size).length ≤ (readableBytes s h).length := by
        rw [slice_length]
        omega
      apply ih (hs.advance (by omega) hlen') hcap
      rcases hlong with ⟨hzero, -⟩ | hlong
      · have hnone : (slice (readableBytes s h) h.pos size).length = 0 := by omega
        rw [hnone]
        exact Or.inl ⟨hzero, hlt⟩
      · exact Or.inr hlong

-- every page that the length asks for is listed and can be read, or the data is inside of the inode
def Complete (s : Fs) (h : FileHandle) : Prop :=
  ServedInline s.header h ∨ ∀ k, s.header.pageSize * k < h.inode.fileLen →
    ∃ m, h.inode.dataPages[k]? = some m ∧ (readPage s m.pageId).error = none

def Copyable (s : Fs) (h : FileHandle) (capacity : ℕ) : Prop :=
  h.inode.fileLen = 0 ∨ 0 < capacity ∧ min h.inode.fileLen capacity < 2 ^ 31 ∧ Complete s h

structure CopiesExactly (s : Fs) (h : FileHandle) (capacity : ℕ) : Prop where
  ends : ∀ {τ : Type} (sink : Sink τ) (target : τ), (∀ target data, sink target data ≠ .error .diverges) →
    ∃ fuel, ∀ t, copy sink capacity fuel h target s ≠ .error .diverges t
  content : ∀ {τ : Type} (sink : Sink τ) (content : τ → List UInt8), Appends sink content →
    ∀ fuel target target' t, copy sink capacity fuel h target s = .ok (true, target') t →
      content target' = content target ++ (readableBytes s h).take h.inode.fileLen ∧
        ((readableBytes s h).take h.inode.fileLen).length = h.inode.fileLen
  incomplete : ¬ Complete s h → ∀ {τ : Type} (sink : Sink τ) (target : τ),
    (∀ target data, sink target data ≠ .error .diverges) →
      ∃ fuel target' t, copy sink capacity fuel h target s = .ok (false, target') t

theorem complete_iff (hs : Source s h) :
    Complete s h ↔ h.inode.fileLen ≤ (readableBytes s h).length := by
  unfold Complete readableBytes
  by_cases hi : ServedInline s.header h
  · apply iff_of_true (Or.inl hi)
    rw [if_pos hi, List.length_take_of_le (hs.inline hi.2)]
  · rw [if_neg hi, or_iff_right hi]
    constructor
    · intro hall
      obtain ⟨g, hlen, hend⟩ := pagesBytes_end s h.inode.dataPages
      by_contra hshort
      obtain ⟨m, hm, hr⟩ := hall g (by omega)
      exact hend m hm hr
    · intro hlong k hk
      obtain ⟨m, hm, hr, -⟩ := pagesBytes_page (lt_of_lt_of_le hk hlong)
      exact ⟨m, hm, hr⟩

theorem Copyable.capacity_lt (hc : Copyable s h capacity) : min h.inode.fileLen capacity < 2 ^ 31 := by
  rcases hc with hzero | ⟨-, hcap, -⟩
  · omega
  · exact hcap

theorem Copyable.complete (hc : Copyable s h capacity) : Complete s h := by
  rcases hc with hzero | ⟨-, -, hc⟩
  · exact Or.inr (fun k hk => absurd hk (by omega))
  · exact hc

theorem copiesExactly (hps : 0 < s.header.pageSize) (hs : Source s h) (hpos : h.pos = 0) (hc : Copyable s h capacity) :
    CopiesExactly s h capacity := by
  have hcap := hc.capacity_lt
  have hcomplete := hc.complete
  have hall := (complete_iff hs).mp hcomplete
  constructor
  · intro τ sink target hsink
    apply Exists.intro (h.inode.fileLen + 1)
    intro t hrun
    rw [copy] at hrun
    by_cases hzero : h.inode.fileLen = 0
    · have hdone : copyLoop sink capacity (h.inode.fileLen + 1) h h.pos target = pure (true, target) :=
        copyLoop_done (by omega) h.inode.fileLen target
      rw [hpos] at hdone
      rw [hdone] at hrun
      cases hrun
    · have hwp : wp (copyLoop sink capacity (h.inode.fileLen + 1) h h.pos target) (fun _ _ => True)
          (fun e _ => e ≠ .diverges) s :=
        wp_copyLoop_ends hps hs hcap (hc.resolve_left hzero).1 hall hsink (by omega) target
      rw [hpos] at hwp
      exact wp_error hwp hrun rfl
  · intro τ sink content happ fuel target target' t hrun
    apply And.intro _ (List.length_take_of_le hall)
    exact copy_appends hps hs hpos hcap happ.to rfl hrun
  · exact fun hno => absurd hcomplete hno

theorem copyable_of_copiesExactly (hps : 0 < s.header.pageSize) (hs : Source s h) (hpos : h.pos = 0)
    (hcap : min h.inode.fileLen capacity < 2 ^ 31) (hc : CopiesExactly s h capacity) : Copyable s h capacity := by
  by_contra hno
  obtain ⟨hlen, hno⟩ := not_or.mp hno
  obtain ⟨fuel, hends⟩ := hc.ends takeAll [] (fun _ _ => nofun)
  have hlong : capacity = 0 ∧ h.pos < h.inode.fileLen ∨ (readableBytes s h).length < h.inode.fileLen := by
    by_cases hzero : capacity = 0
    · exact Or.inl ⟨hzero, by omega⟩
    · have hmissing : ¬ Complete s h := fun hall => hno ⟨by omega, hcap, hall⟩
      rw [complete_iff hs] at hmissing
      exact Or.inr (Nat.lt_of_not_le hmissing)
  have hwp := copyLoop_diverges hps hs hcap hlong fuel []
  rw [hpos] at hwp
  cases hrun : copyLoop takeAll capacity fuel h 0 [] s with
  | ok r t => exact wp_ok hwp hrun
  | error e t =>
    obtain rfl := wp_error hwp hrun
    exact hends t hrun

omit [Config] in
theorem reducedFileLen_lt (hd : Header) (fileLen : ℕ) (last : Bool) : reducedFileLen hd fileLen last < 2 ^ 64 := by
  have hwrapped : ∀ n, wrapped n < 2 ^ 64 := by
    intro n
    rw [wrapped]
    generalize toInt32 n = m
    omega
  cases last with
  | false => exact reducedFileLen_false hd fileLen ▸ hwrapped _
  | true => exact reducedFileLen_true hd fileLen ▸ hwrapped _

omit [Config] in
theorem readPages_fileLen (left pos lenRead : ℕ) {hd : Header} {corr : Bool} {page : List UInt8} {d d' : DecodedPages}
    (hlt : d.fileLen < 2 ^ 64) (h : readPages hd corr page left pos lenRead d = .ok d') : d'.fileLen < 2 ^ 64 := by
  induction left generalizing pos lenRead d with
  | zero =>
    rw [← Except.ok.inj h]
    exact hlt
  | succ left ih =>
    rw [readPages] at h
    obtain ⟨id, -, h⟩ := bind_eq_ok.mp h
    split at h
    · apply ih _ _ _ h
      exact reducedFileLen_lt _ _ _
    · split at h
      · rw [← Except.ok.inj h]
        exact hlt
      · apply ih _ _ _ h
        exact hlt

omit [Config] in
theorem decodeInode_fileLen {hd : Header} {corr : Bool} {page : List UInt8} {h : FileHandle}
    (hdec : decodeInode hd page corr = .ok h) : 0 < page.length ∧ h.inode.fileLen < 2 ^ 64 := by
  unfold decodeInode at hdec
  obtain ⟨inodeNumber, hnum, hdec⟩ := bind_eq_ok.mp hdec
  obtain ⟨inodeVersionNumber, -, hdec⟩ := bind_eq_ok.mp hdec
  obtain ⟨fileNameLen, -, hdec⟩ := bind_eq_ok.mp hdec
  obtain ⟨fileName, -, hdec⟩ := bind_eq_ok.mp hdec
  obtain ⟨attributes, -, hdec⟩ := bind_eq_ok.mp hdec
  obtain ⟨fileLen, hlen, hdec⟩ := bind_eq_ok.mp hdec
  obtain ⟨pages, -, hdec⟩ := bind_eq_ok.mp hdec
  have hpage : 0 < page.length := by
    by_contra hno
    rw [readField, if_neg (by omega)] at hnum
    cases hnum
  have hlt : fileLen < 2 ^ 64 := readField_lt hlen
  apply And.intro hpage
  dsimp only at hdec
  split at hdec
  · obtain ⟨d, hpages, hdec⟩ := bind_eq_ok.mp hdec
    rw [← Except.ok.inj hdec]
    exact readPages_fileLen _ _ _ hlt hpages
  · split at hdec
    · split at hdec
      · obtain ⟨data, -, hdec⟩ := bind_eq_ok.mp hdec
        obtain ⟨bytes, -, hdec⟩ := bind_eq_ok.mp hdec
        rw [← Except.ok.inj hdec]
        exact hlt
      · rw [← Except.ok.inj hdec]
        dsimp only
        exact Nat.two_pow_pos 64
    · rw [← Except.ok.inj hdec]
      exact hlt

theorem source_of_decodeInode {corr : Bool} {page : List UInt8} (hdec : decodeInode s.header page corr = .ok h) (i : ℕ) :
    Source s { h with page := i } := by
  have hf := decodeInode_fresh hdec
  have hpos := hf.pos
  have hconn := decodeInode_connected hdec
  have hlt := (decodeInode_fileLen hdec).2
  refine ⟨hconn, hf.states, hf.inline, hlt, ?_, ?_⟩
  · dsimp only
    omega
  · dsimp only
    omega

theorem copy_law {corr : Bool} {page : List UInt8} (hlen : page.length = s.header.pageSize)
    (hdec : decodeInode s.header page corr = .ok h) (i capacity : ℕ) :
    (Copyable s { h with page := i } capacity → CopiesExactly s { h with page := i } capacity) ∧
      (min h.inode.fileLen capacity < 2 ^ 31 → CopiesExactly s { h with page := i } capacity →
        Copyable s { h with page := i } capacity) := by
  have hps : 0 < s.header.pageSize := hlen ▸ (decodeInode_fileLen hdec).1
  have hs := source_of_decodeInode hdec i
  have hpos : h.pos = 0 := (decodeInode_fresh hdec).pos
  exact ⟨copiesExactly hps hs hpos, copyable_of_copiesExactly hps hs hpos⟩

def emptyCodecFs : Fs where
  variant := .noDel
  mem := { bytes := List.replicate (64 * 14) 0xFF }
  header := codecHeader

omit [Config] in
theorem copy_law_two : ∃ h, decodeInode codecHeader (recordPage 70 [7, 5]) true = .ok h ∧
    ((@Copyable dynamicConfig emptyCodecFs { h with page := 0 } 64 →
        @CopiesExactly dynamicConfig emptyCodecFs { h with page := 0 } 64) ∧
      (min h.inode.fileLen 64 < 2 ^ 31 → @CopiesExactly dynamicConfig emptyCodecFs { h with page := 0 } 64 →
        @Copyable dynamicConfig emptyCodecFs { h with page := 0 } 64)) := by
  have hlen : (recordPage 70 [7, 5]).length = emptyCodecFs.header.pageSize := by decide +kernel
  have hrun : (decodeInode codecHeader (recordPage 70 [7, 5]) true).toOption.any (fun _ => true) = true := by
    decide +kernel
  obtain ⟨h, hdec, -⟩ := ok_of_any hrun
  exact ⟨h, hdec, @copy_law dynamicConfig _ h true _ hlen hdec 0 64⟩

end Copy

section Stuck

variable [Config] {u : Fs} {target : FileHandle}

-- a target whose data is inside of the inode, with room for more
structure InlineTarget (u : Fs) (target : FileHandle) : Prop where
  connected : target.connected = true
  short : target.inode.fileLen < getInodeDataSpaceSize u.header target
  pos : target.pos ≤ target.inode.fileLen
  space : getInodeDataSpaceSize u.header target ≤ maxVectorSize

theorem wp_writeNothing (ht : InlineTarget u target) :
    wp (SimpleFlashFs.write target []) (fun r t => t = u ∧ r.1 = 0 ∧ InlineTarget u r.2) (fun _ _ => False) u := by
  have hseek : ∀ pos ≤ target.inode.fileLen, InlineTarget u { target with pos := pos } :=
    fun pos hpos => ⟨ht.connected, ht.short, hpos, ht.space⟩
  have hwrite : ∀ h : FileHandle, InlineTarget u h →
      wp (writeFs h []) (fun r t => t = u ∧ r.1 = 0 ∧ InlineTarget u r.2) (fun _ _ => False) u := by
    intro h hh
    have hshort := hh.short
    have hpos := hh.pos
    simp only [writeFs, writeWith, wp_bind, wp_get]
    rw [if_pos ⟨by rw [List.length_nil]; omega, hshort⟩]
    simp only [writeInline, wp_bind]
    have hgrow : wp (growInodeData h (getInodeDataSpaceSize u.header h)) (fun _ t => t = u) (fun _ _ => False) u := by
      unfold growInodeData
      rw [wp_ite]
      refine ⟨fun _ => ?_, fun _ => rfl⟩
      rw [resizeBytes, if_neg (Nat.not_lt.mpr hh.space)]
      rfl
    apply wp_mono hgrow
    · rintro l t rfl
      rw [wp_pure]
      refine ⟨rfl, rfl, hh.connected, ?_, ?_, hh.space⟩
      · dsimp only
        rw [List.length_nil, Nat.add_zero, Nat.max_eq_right hpos]
        exact hshort
      · exact Nat.le_max_left _ _
    · exact fun _ _ h => h
  rw [SimpleFlashFs.write, wp_bind]
  cases ha : target.append with
  | false =>
    rw [whenNeeded, if_neg Bool.false_ne_true, wp_pure, if_pos ht.connected]
    exact hwrite target ht
  | true =>
    rw [whenNeeded, if_pos rfl, SimpleFlashFs.seek, if_pos le_rfl, wp_pure, if_pos ht.connected]
    exact hwrite _ (hseek _ le_rfl)

theorem handleSink_nil (ht : InlineTarget u target) :
    ∃ target', InlineTarget u target' ∧ handleSink (target, u) [] = .ok (0, target', u) := by
  have hw := wp_writeNothing ht
  unfold handleSink
  dsimp only
  cases hrun : SimpleFlashFs.write target [] u with
  | ok r t =>
    obtain ⟨rfl, hr, ht'⟩ := wp_ok hw hrun
    apply Exists.intro r.2
    apply And.intro ht'
    rw [← hr]
  | error e t => exact (wp_error hw hrun).elim

-- nothing is read and nothing is written
theorem copyLoop_idles {s : Fs} {h : FileHandle} {capacity : ℕ} (hps : 0 < s.header.pageSize) (hs : Source s h)
    (hcap : min h.inode.fileLen capacity < 2 ^ 31) (hnone : readableBytes s h = []) (hlt : h.pos < h.inode.fileLen)
    (ht : InlineTarget u target) (fuel : ℕ) :
    wp (copyLoop handleSink capacity fuel h h.pos (target, u)) (fun _ _ => False) (fun e _ => e = .diverges) s := by
  have hslice : slice (readableBytes s h) h.pos (min (h.inode.fileLen - h.pos) capacity) = [] := by
    rw [hnone, slice, List.drop_nil, List.take_nil]
  induction fuel generalizing target with
  | zero => rfl
  | succ fuel ih =>
    obtain ⟨target', ht', hw⟩ := handleSink_nil ht
    apply wp_copyLoop_round hps hs hcap hlt
    · intro e he
      rw [hslice, hw] at he
      cases he
    · intro w hw'
      rw [hslice, hw] at hw'
      obtain rfl := Except.ok.inj hw'
      rw [hslice]
      exact ⟨fun hne => absurd rfl hne, fun _ => ih ht'⟩

-- the source is as long as the space in its inode, and has no page
theorem idles_of_runs (s : Fs) {u : Fs} {page : List UInt8} (hlen : page.length = s.header.pageSize)
    (hsource : (decodeInode s.header page true).toOption.any (fun h => decide (0 < h.inode.fileLen ∧
      h.inode.fileLen < 64 ∧ h.inode.dataPages = [] ∧ ¬ ServedInline s.header h)) = true)
    (htarget : passes (openFile [97] { out := true }) (fun t v => decide (t.connected = true ∧
      t.inode.fileLen < getInodeDataSpaceSize v.header t ∧ t.pos ≤ t.inode.fileLen ∧
      getInodeDataSpaceSize v.header t ≤ 64)) u = true) :
    ∃ h, decodeInode s.header page true = .ok h ∧ ∃ target v, openFile [97] { out := true } u = .ok target v ∧
      ∀ fuel, ∃ t, copy handleSink 64 fuel h (target, v) s = .error .diverges t := by
  obtain ⟨h, hdec, htest⟩ := ok_of_any hsource
  obtain ⟨hpos, hshort, hnone, hpaged⟩ := of_decide_eq_true htest
  obtain ⟨target, v, hopen, hroomy⟩ := returns_of_passes htarget
  obtain ⟨hconn, hroom, hcur, hspace⟩ := of_decide_eq_true hroomy
  refine ⟨h, hdec, target, v, hopen, ?_⟩
  intro fuel
  have hs : Source s h := source_of_decodeInode hdec h.page
  have hempty : readableBytes s h = [] := by
    rw [readableBytes, if_neg hpaged, hnone, pagesBytes]
  have ht : InlineTarget v target := ⟨hconn, hroom, hcur, le_trans hspace (le_maxVectorSize (by omega))⟩
  have hstart : h.pos = 0 := (decodeInode_fresh hdec).pos
  have hwp := copyLoop_idles (hlen ▸ (decodeInode_fileLen hdec).1) hs (show min h.inode.fileLen 64 < 2 ^ 31 by omega)
    hempty (by omega) ht fuel
  rw [hstart] at hwp
  cases hrun : copyLoop handleSink 64 fuel h 0 (target, v) s with
  | ok r t => exact (wp_ok hwp hrun).elim
  | error e t =>
    obtain rfl := wp_error hwp hrun
    exact ⟨t, hrun⟩

omit [Config] in
theorem copy_neverEnds : ∃ h, decodeInode codecHeader (recordPage 21 []) true = .ok h ∧
    ∃ target v, @openFile dynamicConfig [97] { out := true } erasedFs = .ok target v ∧
      ∀ fuel, ∃ t, @copy dynamicConfig _ (@handleSink dynamicConfig) 64 fuel h (target, v) emptyCodecFs =
        .error .diverges t := by
  apply @idles_of_runs dynamicConfig emptyCodecFs erasedFs (recordPage 21 [])
  · decide +kernel
  · decide +kernel
  · decide +kernel

end Stuck

end SimpleFlashFs
