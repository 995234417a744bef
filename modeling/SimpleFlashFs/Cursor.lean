import SimpleFlashFs.Supply

namespace SimpleFlashFs

open Lib

-- the calls on an open handle
inductive Call
  | seek (pos : ℕ)
  | write (data : List UInt8)
  | read (size : ℕ)
  | truncate (newSize : ℕ)
  | flush
deriving DecidableEq, Repr

section Calls

variable [Config]

def Call.run (h : FileHandle) : Call → FsM FileHandle
  | .seek pos => Prod.snd <$> SimpleFlashFs.seek h pos
  | .write data => Prod.snd <$> SimpleFlashFs.write h data
  | .read size => Prod.snd <$> SimpleFlashFs.read h size
  | .truncate newSize => Prod.snd <$> SimpleFlashFs.truncate h newSize
  | .flush => Prod.snd <$> SimpleFlashFs.flush h

def Supply.of (s : Fs) (h : FileHandle) : Supply where
  room := getMaxInodeDataPages s.header h
  state j :=
    if j < h.inode.countValidDataPages then (h.inode.dataPages[j]?.map (·.state)).getD .new else .new
  readable j := (h.inode.dataPages[j]?.map fun m => (readPage s m.pageId).error.isNone).getD true
  free := getNumberOfFreeDataPages s
  valid := h.inode.countValidDataPages
  total := h.inode.dataPages.length
  plan := s.mem.plan

def enlargeRefused (s : Fs) (h : FileHandle) (amount : ℕ) : Prop :=
  amount ≥ getNumberOfFreeDataPages s * s.header.pageSize ∨
    h.inode.fileLen + amount ≥ getMaxFileSize s.header ∨
    getInodeDataSpaceSize s.header h < h.inode.fileLen + amount ∧
      ¬ (Supply.of s h).Grows ((h.inode.fileLen + amount) / s.header.pageSize)

-- write gives up at a page that lies behind the end of the file, with the pages before it written
def writeStopsBehind (s : Fs) (h : FileHandle) (data : List UInt8) : Bool :=
  let ps := s.header.pageSize
  let pos := if h.append then h.inode.fileLen else h.pos
  let space := getInodeDataSpaceSize s.header h
  if space > pos + data.length ∧ h.inode.fileLen < space then false
  else if h.inode.inodeData.length ≠ 0 then
    (Supply.of s h).stopsBehind ps (max (min ps (pos + data.length)) h.inode.fileLen)
      (pos + data.length + 1) 0 (pos + data.length)
  else (Supply.of s h).stopsBehind ps h.inode.fileLen (data.length + 1) pos data.length

-- a file that has data pages and a shorter remainder of inline data is cut down to a size between the two
def truncateExposes (s : Fs) (h : FileHandle) (newSize : ℕ) : Prop :=
  newSize < h.inode.fileLen ∧ h.inode.dataPages ≠ [] ∧ h.inode.inodeData ≠ [] ∧
    h.inode.inodeData.length < newSize ∧ newSize < getInodeDataSpaceSize s.header h

def Call.Regular (s : Fs) (h : FileHandle) : Call → Prop
  | .seek pos => pos ≤ h.inode.fileLen ∨ enlargeRefused s h (pos - h.inode.fileLen - 1)
  | .write data => writeStopsBehind s h data = false
  | .read _ => True
  | .truncate newSize => ¬ truncateExposes s h newSize
  | .flush => True

-- the handles of an open and any calls that meet `ok`; anything else may happen to the filesystem in between
inductive Reached (hd : Header) (ok : Fs → FileHandle → Call → Prop) : FileHandle → Prop
  | opened {s t : Fs} {name : List UInt8} {mode : OpenMode} {h : FileHandle} :
      openFile name mode s = .ok h t → Reached hd ok h
  | called {s t : Fs} {h h' : FileHandle} {call : Call} : Reached hd ok h → s.header = hd →
      s.freeDataPages.WF → ok s h call → call.run h s = .ok h' t → Reached hd ok h'

structure CursorSound (hd : Header) (h : FileHandle) : Prop where
  pos : h.pos ≤ h.inode.fileLen
  inline : h.inode.inodeData ≠ [] → h.inode.fileLen < getInodeDataSpaceSize hd h →
    h.inode.fileLen ≤ h.inode.inodeData.length
  inlineOnly : h.inode.inodeData ≠ [] → h.inode.countValidDataPages = 0 →
    h.inode.fileLen ≤ h.inode.inodeData.length
  deletedLast : DeletedLast h.inode.dataPages
  nameLen : h.inode.fileNameLen < 2 ^ 16

end Calls

section Opening

variable [Config] {s : Fs}

-- the value of a sequence of two steps comes from the second one
omit [Config] in
theorem wp_bind_any {α β : Type} {m : FsM α} {f : α → FsM β} {Q : β → Fs → Prop}
    (h : ∀ a t, wp (f a) Q (fun _ _ => True) t) : wp (m >>= f) Q (fun _ _ => True) s := by
  rw [wp_bind]
  exact wp_run (fun a t _ => h a t) (fun _ _ _ => trivial)

-- what a handle is when it was just read from its page
structure FreshHandle (h : FileHandle) : Prop where
  pos : h.pos = 0
  inline : h.inode.inodeData ≠ [] → h.inode.fileLen ≤ h.inode.inodeData.length
  states : ∀ m ∈ h.inode.dataPages, m.state = .stored
  nameLen : h.inode.fileNameLen < 2 ^ 16

omit [Config] in
theorem FreshHandle.sound {h : FileHandle} (f : FreshHandle h) (hd : Header) : CursorSound hd h where
  pos := by rw [f.pos]; exact Nat.zero_le _
  inline hne _ := f.inline hne
  inlineOnly hne _ := f.inline hne
  deletedLast := ⟨h.inode.dataPages, [], (List.append_nil _).symm, fun m hm => by rw [f.states m hm]; simp, nofun⟩
  nameLen := f.nameLen

omit [Config] in
theorem freshHandle_ofPage (r : Option ℕ) : FreshHandle (FileHandle.ofPage r) := by
  cases r <;> exact ⟨rfl, nofun, nofun, by simp [FileHandle.ofPage]⟩

omit [Config] in
theorem readPages_states {hd : Header} {corr : Bool} {page : List UInt8} (left pos lenRead : ℕ) {d d' : DecodedPages}
    (hd0 : ∀ m ∈ d.dataPages, m.state = .stored) (h : readPages hd corr page left pos lenRead d = .ok d') :
    ∀ m ∈ d'.dataPages, m.state = .stored := by
  induction left generalizing pos lenRead d with
  | zero =>
    obtain rfl := Except.ok.inj h
    exact hd0
  | succ left ih =>
    rw [readPages] at h
    cases hid : readField hd page pos 4 with
    | error e =>
      rw [hid] at h
      cases h
    | ok pageId =>
      rw [hid, ok_bind] at h
      split at h
      · apply ih _ _ _ h
        exact hd0
      · split at h
        · obtain rfl := Except.ok.inj h
          exact hd0
        · apply ih _ _ _ h
          intro m hm
          rcases List.mem_append.mp hm with hm | hm
          · exact hd0 m hm
          · rw [List.mem_singleton.mp hm]

omit [Config] in
theorem readField_lt {hd : Header} {page : List UInt8} {pos size v : ℕ} (h : readField hd page pos size = .ok v) :
    v < 256 ^ size := by
  unfold readField at h
  split at h
  · obtain rfl := Except.ok.inj h
    exact getField_slice_lt _ _ _ _
  · cases h

omit [Config] in
theorem resizeBytes_length {data bytes : List UInt8} {size : ℕ} (h : resizeBytes data size = .ok bytes) :
    bytes.length = size := by
  unfold resizeBytes at h
  split at h
  · cases h
  · obtain rfl := Except.ok.inj h
    simp only [List.length_append, List.length_take, List.length_replicate]
    omega

omit [Config] in
theorem readBytes_length {page bytes : List UInt8} {pos size : ℕ} (h : readBytes page pos size = .ok bytes) :
    bytes.length = size := by
  unfold readBytes at h
  split at h
  · obtain rfl := Except.ok.inj h
    rw [slice_length]
    omega
  · cases h

omit [Config] in
theorem decodeInode_fresh {hd : Header} {page : List UInt8} {corr : Bool} {h : FileHandle}
    (hdec : decodeInode hd page corr = .ok h) : FreshHandle h := by
  unfold decodeInode at hdec
  obtain ⟨inodeNumber, -, hdec⟩ := bind_eq_ok.mp hdec
  obtain ⟨inodeVersionNumber, -, hdec⟩ := bind_eq_ok.mp hdec
  obtain ⟨fileNameLen, hlen, hdec⟩ := bind_eq_ok.mp hdec
  obtain ⟨fileName, -, hdec⟩ := bind_eq_ok.mp hdec
  obtain ⟨attributes, -, hdec⟩ := bind_eq_ok.mp hdec
  obtain ⟨fileLen, -, hdec⟩ := bind_eq_ok.mp hdec
  obtain ⟨pages, -, hdec⟩ := bind_eq_ok.mp hdec
  have hname : fileNameLen < 2 ^ 16 := readField_lt hlen
  split at hdec
  · obtain ⟨d, hpages, hdec⟩ := bind_eq_ok.mp hdec
    obtain rfl := Except.ok.inj hdec
    refine ⟨rfl, nofun, ?_, hname⟩
    exact readPages_states _ _ _ (by simp) hpages
  · split at hdec
    · dsimp only at hdec
      split at hdec
      · next hle =>
        obtain ⟨data, hdata, hdec⟩ := bind_eq_ok.mp hdec
        obtain ⟨bytes, hbytes, hdec⟩ := bind_eq_ok.mp hdec
        obtain rfl := Except.ok.inj hdec
        refine ⟨rfl, fun _ => ?_, nofun, hname⟩
        have hd := resizeBytes_length hdata
        have hb := readBytes_length hbytes
        dsimp only
        rw [overwrite_length (by omega), hd]
        exact hle
      · obtain rfl := Except.ok.inj hdec
        exact ⟨rfl, nofun, nofun, hname⟩
    · obtain rfl := Except.ok.inj hdec
      exact ⟨rfl, nofun, nofun, hname⟩

omit [Config] in
theorem FreshHandle.atPage {h : FileHandle} (f : FreshHandle h) (i : ℕ) : FreshHandle { h with page := i } :=
  ⟨f.pos, f.inline, f.states, f.nameLen⟩

omit [Config] in
theorem wp_getInode_fresh (page : List UInt8) (corr : Bool) :
    wp (getInode page corr) (fun h _ => FreshHandle h) (fun _ _ => True) s := by
  simp only [getInode, wp_bind, wp_get]
  cases hdec : decodeInode s.header page corr with
  | error e => trivial
  | ok h => exact decodeInode_fresh hdec

omit [Config] in
theorem freshHandle_empty : FreshHandle {} := freshHandle_ofPage none

theorem wp_findVersion_fresh (reader : Fs → ℕ → ReadPageReturn) (name : List UInt8) (ivs : List InodeVersion) :
    wp (findVersion reader name ivs) (fun h _ => FreshHandle h) (fun _ _ => True) s := by
  induction ivs generalizing s with
  | nil => exact freshHandle_empty
  | cons iv rest ih =>
    simp only [findVersion, wp_bind, wp_get]
    rw [wp_ite]
    refine ⟨fun _ => ?_, fun _ => ih⟩
    rw [wp_bind]
    apply wp_mono (wp_getInode_fresh _ _)
    · intro h t hf
      rw [wp_ite]
      refine ⟨fun _ => wp_bind_any fun _ _ => ih, fun _ => ?_⟩
      rw [wp_ite]
      exact ⟨fun _ => hf.atPage _, fun _ => wp_bind_any fun _ _ => ih⟩
    · exact fun _ _ _ => trivial

theorem wp_findFile_fresh (name : List UInt8) :
    wp (findFile name) (fun h _ => FreshHandle h) (fun _ _ => True) s := by
  have hwith : ∀ (reader : Fs → ℕ → ReadPageReturn) (s : Fs),
      wp (findFileWith reader name) (fun h _ => FreshHandle h) (fun _ _ => True) s := by
    intro reader s
    simp only [findFileWith]
    apply wp_bind_any
    intro _ t
    apply wp_bind_any
    intro u t
    apply wp_bind_any
    intro _ t
    apply wp_bind_any
    intro v t
    exact wp_findVersion_fresh reader name v.ivStorage
  simp only [findFile, wp_bind, wp_get]
  rw [wp_ite]
  exact ⟨fun _ => hwith _ s, fun _ => hwith _ s⟩

theorem wp_allocateFreeInodePage_fresh :
    wp allocateFreeInodePage (fun h _ => FreshHandle h) (fun _ _ => True) s := by
  simp only [allocateFreeInodePage, wp_bind, wp_get]
  rw [wp_ite]
  constructor <;> intro _
  all_goals
    apply wp_bind_any
    intro is t
    rw [wp_map]
    exact wp_run (fun r _ _ => freshHandle_ofPage r) (fun _ _ _ => trivial)

omit [Config] in
theorem FreshHandle.appendMode {h : FileHandle} (f : FreshHandle h) (hd : Header) (mode : OpenMode) :
    CursorSound hd (handleAppendMode mode h) where
  pos := by
    simp only [handleAppendMode, f.pos]
    split <;> omega
  inline := (f.sound hd).inline
  inlineOnly := (f.sound hd).inlineOnly
  deletedLast := (f.sound hd).deletedLast
  nameLen := f.nameLen

theorem wp_openFile_sound (hd : Header) (name : List UInt8) (mode : OpenMode) :
    wp (openFile name mode) (fun h _ => CursorSound hd h) (fun _ _ => True) s := by
  rw [openFile, wp_bind]
  apply wp_mono (wp_findFile_fresh name)
  · intro h t hf
    rw [wp_ite]
    constructor
    · intro _
      rw [wp_ite]
      refine ⟨fun _ => freshHandle_empty.sound hd, fun _ => ?_⟩
      rw [openNew, wp_bind]
      apply wp_mono wp_allocateFreeInodePage_fresh
      · intro k u hk
        simp only [wp_bind, wp_get]
        rw [wp_ite]
        refine ⟨fun _ => freshHandle_empty.sound hd, fun _ => ?_⟩
        rw [wp_ite]
        refine ⟨fun _ => wp_bind_any fun _ _ => freshHandle_empty.sound hd, fun _ => ?_⟩
        apply FreshHandle.appendMode
        exact ⟨hk.pos, hk.inline, hk.states, Nat.mod_lt _ (by decide)⟩
      · exact fun _ _ _ => trivial
    · intro _
      rw [wp_ite]
      refine ⟨fun _ => ?_, fun _ => hf.appendMode hd mode⟩
      rw [openTrunc, wp_bind]
      apply wp_mono wp_allocateFreeInodePage_fresh
      · intro k u hk
        rw [wp_ite]
        refine ⟨fun _ => wp_bind_any fun _ _ => freshHandle_empty.sound hd, fun _ => ?_⟩
        apply wp_bind_any
        intro _ v
        apply FreshHandle.sound
        exact ⟨hk.pos, by simp, by simp, hf.nameLen⟩
      · exact fun _ _ _ => trivial
  · exact fun _ _ _ => trivial

end Opening

section Writing

variable [Config] {s t : Fs} {h h' : FileHandle} {u : Supply} {idx : ℕ}

theorem draws_of (hwf : s.freeDataPages.WF) (hd : DeletedLast h.inode.dataPages) : Draws (Supply.of s h) 0 s h := by
  obtain ⟨kept, dropped, e⟩ := hd
  have hv : h.inode.countValidDataPages = kept.length := by rw [Inode.countValidDataPages, e.valid]
  refine ⟨hwf, rfl, rfl, rfl, fun j hj => ?_, kept, dropped, e, hv.symm, rfl, fun j m _ hm => ?_⟩
  · exact if_neg (Nat.not_lt.mpr hj)
  · have hlt : j < kept.length := (List.getElem?_eq_some_iff.mp hm).1
    have hl : h.inode.dataPages[j]? = some m := by rw [e.eq, List.getElem?_append_left hlt, hm]
    refine ⟨?_, fun _ => ?_⟩
    · simp only [Supply.of]
      rw [if_pos (by omega), hl]
      rfl
    · simp only [Supply.of, hl, Option.map_some, Option.getD_some, Option.isNone_iff_eq_none]

omit [Config] in
theorem Supply.stopsBehind_mono {ps fileLen fuel pos left k : ℕ} (hk : k ≤ fuel)
    (hs : u.stopsBehind ps fileLen fuel pos left = false) : u.stopsBehind ps fileLen k pos left = false := by
  induction k generalizing fuel pos left u with
  | zero => rfl
  | succ k ih =>
    obtain ⟨fuel, rfl⟩ : ∃ n, fuel = n + 1 := ⟨fuel - 1, by omega⟩
    simp only [Supply.stopsBehind] at hs ⊢
    split
    · rfl
    · next hl =>
      rw [if_neg hl] at hs
      cases hp : u.page (pos / ps) (decide (min left (ps - pos % ps) = ps)) with
      | none =>
        rw [hp] at hs
        exact hs
      | some v =>
        rw [hp] at hs
        exact ih (by omega) hs

omit [Config] in
theorem Supply.stopsBehind_onePage {ps fileLen fuel pos left : ℕ} (hpos : pos ≤ fileLen)
    (hl : left ≤ ps - pos % ps) : u.stopsBehind ps fileLen fuel pos left = false := by
  cases fuel with
  | zero => rfl
  | succ fuel =>
    simp only [Supply.stopsBehind]
    split
    · rfl
    · rw [Nat.min_eq_left hl]
      cases u.page (pos / ps) (decide (left = ps)) with
      | none => exact decide_eq_false (by omega)
      | some v =>
        rw [Nat.sub_self]
        exact Supply.stopsBehind_nothing _ _ _ _ _

omit [Config] in
theorem PagesWritten.sound {hd : Header} {ps len already : ℕ} {r : ℕ × FileHandle} (hw : PagesWritten u ps len already h r)
    (hc : CursorSound hd h) (hi : h.inode.inodeData = [])
    (hs : u.stopsBehind ps h.inode.fileLen (len + 1) h.pos len = false) : CursorSound hd r.2 where
  pos := by
    rcases hw.ends with ⟨-, -, h3⟩ | ⟨-, h2, h3⟩
    · rw [h3]
      exact le_max_left _ _
    · rw [h2]
      exact h3 _ hc.pos hs
  inline hne := by
    rw [hw.inodeData] at hne
    exact absurd hi hne
  inlineOnly hne := by
    rw [hw.inodeData] at hne
    exact absurd hi hne
  deletedLast := hw.deletedLast
  nameLen := by
    rw [hw.fileNameLen]
    exact hc.nameLen

-- the page that takes over the inline data
theorem wp_writePages_first {ps : ℕ} (hsize : s.header.pageSize = ps) {page : List UInt8}
    (hpos : h.pos = 0) (hle : page.length ≤ ps) (d : Draws u 0 s h) :
    wp (writePages h page 0 0)
      (fun r t => r.1 ≠ 0 → ∃ v, u.page 0 (decide (page.length = ps)) = some v ∧ Draws v 1 t r.2)
      (fun _ _ => True) s := by
  have hz : h.pos / ps = 0 := by rw [hpos, Nat.zero_div]
  simp only [writePages, writeFirst, wp_bind, wp_get, hpos, Nat.zero_mod, ne_eq, not_true_eq_false, if_false,
    wp_pure]
  by_cases hlt : 0 < page.length
  · obtain ⟨fuel, hf⟩ : ∃ n, page.length = n + 1 := ⟨page.length - 1, by omega⟩
    rw [hf]
    apply wp_writeLoop_step hsize hlt (by rw [hz]; exact d)
    · exact fun h1 t _ _ _ => by simp
    · intro len v h1 t hlen hmed hadv _ hpage hd1
      rw [Nat.sub_zero, Nat.min_eq_left hle] at hlen
      rw [hz, hlen] at hpage
      rw [hz] at hd1
      have hdone : ∀ fuel, writeLoop fuel h1 page (0 + len) = pure (some (0 + len), h1) := by
        intro fuel
        cases fuel <;> rw [writeLoop, if_neg (by omega)]
      rw [hdone]
      exact fun _ => ⟨v, by rw [← hf]; exact hpage, hd1.wf, hd1.free, hd1.plan, hd1.room, hd1.fresh, hd1.entries⟩
  · have hdone : writeLoop page.length h page 0 = pure (some 0, h) := by
      cases hn : page.length <;> rw [writeLoop, if_neg (by omega)]
    rw [hdone]
    exact fun hne => absurd rfl hne

omit [Config] in
theorem inodeDataSpaceSize_cases (hd : Header) {n : ℕ} (hn : n < 2 ^ 16) :
    inodeDataSpaceSize hd n ≤ hd.pageSize ∨ maxVectorSize < inodeDataSpaceSize hd n := by
  have hps := hd.pageSize_lt
  by_cases hfit : 42 + n ≤ hd.pageSize
  · rw [inodeDataSpaceSize_eq hfit]
    omega
  · rw [inodeDataSpaceSize, maxVectorSize, Nat.mod_eq_of_lt (by omega)]
    omega

omit [Config] in
theorem wp_growInodeData (space : ℕ) :
    wp (growInodeData h space) (fun l _ => space ≤ l.length) (fun _ _ => True) s := by
  unfold growInodeData
  rw [wp_ite]
  constructor
  · intro _
    cases hr : resizeBytes h.inode.inodeData space with
    | error e => trivial
    | ok l => exact (resizeBytes_length hr).ge
  · exact fun hge => Nat.not_lt.mp hge

omit [Config] in
theorem wp_writeInline_sound {hd : Header} (hc : CursorSound hd h) (data : List UInt8)
    (hspace : getInodeDataSpaceSize hd h > h.pos + data.length ∧ h.inode.fileLen < getInodeDataSpaceSize hd h) :
    wp (writeInline h data (getInodeDataSpaceSize hd h)) (fun r _ => CursorSound hd r.2) (fun _ _ => True) s := by
  rw [writeInline, wp_bind]
  apply wp_mono (wp_growInodeData (getInodeDataSpaceSize hd h))
  · intro l t hl
    have hlen : max (h.pos + data.length) h.inode.fileLen ≤ (overwrite l h.pos data).length := by
      rw [overwrite_length (by omega)]
      omega
    exact ⟨le_max_left _ _, fun _ _ => hlen, fun _ _ => hlen, hc.deletedLast, hc.nameLen⟩
  · exact fun _ _ _ => trivial

-- the recursive call with the inline data cleared writes one page
theorem wp_writeAgain {hd : Header} (hps : 0 < hd.pageSize) (hh : s.header = hd) (hpos : h.pos = 0)
    (hi : h.inode.inodeData = []) (d : Draws u 0 s h) {page : List UInt8} (hle : page.length ≤ hd.pageSize)
    (hnot : getInodeDataSpaceSize hd h > page.length ∧ h.inode.fileLen < getInodeDataSpaceSize hd h →
      maxVectorSize < getInodeDataSpaceSize hd h) :
    wp (writeWith (fun _ _ => throw .diverges) h page)
      (fun r t => SameMedium s t ∧ PagesWritten u hd.pageSize page.length 0 h r ∧
        (r.1 ≠ 0 → ∃ v, u.page 0 (decide (page.length = hd.pageSize)) = some v ∧ Draws v 1 t r.2))
      (fun _ _ => True) s := by
  simp only [writeWith, wp_bind, wp_get, hh, hpos, Nat.zero_add, Nat.zero_div]
  rw [wp_ite]
  constructor
  · intro hin
    have hhuge := hnot hin
    have hresize : resizeBytes [] (getInodeDataSpaceSize hd h) = .error .thrown := by
      rw [resizeBytes, if_pos hhuge]
    rw [writeInline, growInodeData, hi, if_pos (by simp only [List.length_nil]; omega), hresize]
    exact trivial
  · intro _
    rw [if_neg (by rw [hi]; simp)]
    have hz : h.pos / hd.pageSize = 0 := by rw [hpos, Nat.zero_div]
    have hw := wp_writePages_counted hps (by rw [hh]) page 0 (fun _ => hz.symm)
      (show Draws u (h.pos / hd.pageSize) s h by rw [hz]; exact d)
    have hfirst := wp_writePages_first (by rw [hh]) hpos hle d
    apply wp_mono (wp_and hw hfirst)
    · exact fun r t hr => ⟨hr.1.1, hr.1.2, hr.2⟩
    · exact fun _ _ _ => trivial

theorem wp_writeFs_sound {hd : Header} (hc : CursorSound hd h) (hps : 0 < hd.pageSize) (hh : s.header = hd)
    (hwf : s.freeDataPages.WF) (ha : (if h.append then h.inode.fileLen else h.pos) = h.pos) (data : List UInt8)
    (hs : writeStopsBehind s h data = false) :
    wp (writeFs h data) (fun r _ => CursorSound hd r.2) (fun _ _ => True) s := by
  have d := draws_of hwf hc.deletedLast
  have hps' : s.header.pageSize = hd.pageSize := by rw [hh]
  simp only [writeStopsBehind, ha, hh] at hs
  rw [writeFs, writeWith, wp_bind, wp_get, hh]
  dsimp only
  rw [wp_ite]
  constructor
  · intro hin
    exact wp_writeInline_sound hc data hin
  intro hout
  rw [if_neg hout] at hs
  rw [wp_ite]
  constructor
  · intro hne
    rw [if_pos hne] at hs
    simp only [migrateInline, wp_bind, wp_get, hh]
    rw [wp_ite]
    refine ⟨fun _ => trivial, fun hfit => ?_⟩
    have hlen : (h.inode.inodeData.take h.pos ++ data.take (min (hd.pageSize - h.pos) data.length)).length =
        h.pos + min (hd.pageSize - h.pos) data.length := by
      rw [List.length_append, List.length_take, List.length_take]
      omega
    have hspace := inodeDataSpaceSize_cases hd hc.nameLen
    have d0 : Draws (Supply.of s h) 0 s
        { h with pos := 0, modified := true, inode := { h.inode with inodeData := [] } } :=
      ⟨d.wf, d.free, d.plan, d.room, d.fresh, d.entries⟩
    have hfits : (h.inode.inodeData.take h.pos ++ data.take (min (hd.pageSize - h.pos) data.length)).length ≤
        hd.pageSize := by rw [hlen]; omega
    rw [wp_bind]
    apply wp_mono (wp_writeAgain hps hh rfl rfl d0 hfits ?_)
    · intro r t hr
      obtain ⟨hmed, hw, hnext⟩ := hr
      rw [hlen] at hw hnext
      have hstart : CursorSound hd
          { h with pos := 0, modified := true, inode := { h.inode with inodeData := [] } } :=
        ⟨Nat.zero_le _, by simp, by simp, hc.deletedLast, hc.nameLen⟩
      have hsound : CursorSound hd r.2 := by
        apply hw.sound hstart rfl
        apply Supply.stopsBehind_onePage (Nat.zero_le _)
        rw [Nat.zero_mod]
        omega
      rw [wp_ite]
      refine ⟨fun _ => hsound, fun hr1 => ?_⟩
      rw [wp_ite]
      refine ⟨fun _ => hsound, fun hmore => ?_⟩
      have hr1 := not_not.mp hr1
      have hleft : min (hd.pageSize - h.pos) data.length = hd.pageSize - h.pos := by omega
      have htotal : h.pos + min (hd.pageSize - h.pos) data.length = hd.pageSize := by omega
      rw [htotal] at hw hnext hr1
      obtain ⟨v, hpage, hdraws⟩ := hnext (by omega)
      have hall : (data.drop (min (hd.pageSize - h.pos) data.length)).length + hd.pageSize =
          h.pos + data.length := by
        rw [List.length_drop]
        omega
      obtain ⟨hpos, hflen⟩ : r.2.pos = hd.pageSize ∧
          r.2.inode.fileLen = max hd.pageSize h.inode.fileLen := by
        rcases hw.ends with ⟨-, h2, h3⟩ | ⟨h1, -⟩
        · rw [Nat.zero_add] at h2
          exact ⟨h2, by rw [h3, h2]⟩
        · omega
      have hbehind : v.stopsBehind hd.pageSize r.2.inode.fileLen
          ((data.drop (min (hd.pageSize - h.pos) data.length)).length + 1) r.2.pos
          (data.drop (min (hd.pageSize - h.pos) data.length)).length = false := by
        have hmin : min (h.pos + data.length) (hd.pageSize - 0 % hd.pageSize) = hd.pageSize := by
          rw [Nat.zero_mod]
          omega
        have hend : max (min hd.pageSize (h.pos + data.length)) h.inode.fileLen = r.2.inode.fileLen := by
          rw [hflen, Nat.min_eq_left (by omega)]
        rw [hend] at hs
        rw [decide_eq_true rfl] at hpage
        simp only [Supply.stopsBehind, Nat.zero_div, hmin, decide_true, hpage] at hs
        rw [if_neg (by omega), Nat.zero_add, ← hall, Nat.add_sub_cancel] at hs
        rw [hpos]
        exact Supply.stopsBehind_mono (by omega) hs
      apply wp_mono (wp_writePages_counted (u := v) hps (by rw [hmed.header, hh]) _ _ ?_ ?_)
      · intro r2 w hr2
        exact hr2.2.sound hsound hw.inodeData hbehind
      · exact fun _ _ _ => trivial
      · intro hne
        rw [hpos, Nat.mod_self] at hne
        exact absurd rfl hne
      · rw [hpos, Nat.div_self hps]
        exact hdraws
    · exact fun _ _ _ => trivial
    · intro hin
      rw [hlen] at hin
      have hsame : getInodeDataSpaceSize hd { h with pos := 0, modified := true, inode := { h.inode with inodeData := [] } } =
        inodeDataSpaceSize hd h.inode.fileNameLen := rfl
      have hout' : ¬ (inodeDataSpaceSize hd h.inode.fileNameLen > h.pos + data.length ∧
        h.inode.fileLen < inodeDataSpaceSize hd h.inode.fileNameLen) := hout
      rw [hsame] at hin ⊢
      dsimp only at hin
      omega
  · intro he
    rw [if_neg he] at hs
    have hnil : h.inode.inodeData = [] := List.length_eq_zero_iff.mp (not_not.mp he)
    apply wp_mono (wp_writePages_counted hps hps' data 0 (fun _ => rfl) (d.mono (Nat.zero_le _)))
    · intro r t hr
      exact hr.2.sound hc hnil hs
    · exact fun _ _ _ => trivial

end Writing

theorem Entries.take {l kept dropped : List DataPage} (e : Entries l kept dropped) (n : ℕ) :
    Entries (l.take n) (kept.take n) (dropped.take (n - kept.length)) where
  eq := by rw [e.eq, List.take_append]
  kept m hm := e.kept m (List.mem_of_mem_take hm)
  dropped m hm := e.dropped m (List.mem_of_mem_take hm)

section Sizes

variable [Config] {s t : Fs} {h : FileHandle} {hd : Header}

omit [Config] in
theorem CursorSound.relisted {h' : FileHandle} (hc : CursorSound hd h) (hr : Relisted h h') : CursorSound hd h' := by
  have he := hr.eq
  refine ⟨by rw [he]; exact hc.pos, ?_, fun hne hzero => ?_, hr.deletedLast, by rw [he]; exact hc.nameLen⟩
  · rw [he]
    exact hc.inline
  · have hvalid := hr.valid
    rw [he] at hne ⊢
    exact hc.inlineOnly hne (by omega)

omit [Config] in
theorem CursorSound.seek (hc : CursorSound hd h) {pos : ℕ} (hp : pos ≤ h.inode.fileLen) :
    CursorSound hd { h with pos := pos } := ⟨hp, hc.inline, hc.inlineOnly, hc.deletedLast, hc.nameLen⟩

theorem wp_enlargeFile_sound (hc : CursorSound hd h) (hh : s.header = hd) (hwf : s.freeDataPages.WF) (amount : ℕ) :
    wp (enlargeFile h amount)
      (fun r _ => CursorSound hd r.2 ∧ (enlargeRefused s h amount → r.1 = false)) (fun _ _ => True) s := by
  have d := draws_of hwf hc.deletedLast
  simp only [enlargeFile, wp_bind, wp_get]
  rw [wp_ite]
  refine ⟨fun _ => ⟨hc, fun _ => rfl⟩, fun hfree => ?_⟩
  rw [wp_ite]
  refine ⟨fun _ => ⟨hc, fun _ => rfl⟩, fun hsize => ?_⟩
  simp only [enlargeStorage, wp_bind, wp_get]
  rw [wp_ite]
  constructor
  · intro hspace
    have hno : ¬ enlargeRefused s h amount := by
      rintro (h1 | h1 | ⟨h1, -⟩)
      · exact hfree h1
      · exact hsize h1
      · omega
    rw [wp_bind]
    apply wp_mono (wp_growInodeData (getInodeDataSpaceSize s.header h))
    · intro l v hl
      simp only [wp_pure]
      have hlen := hspace.trans hl
      exact ⟨⟨hc.pos.trans (Nat.le_add_right _ _), fun _ _ => hlen, fun _ _ => hlen, hc.deletedLast, hc.nameLen⟩,
        fun hr => absurd hr hno⟩
    · exact fun _ _ _ => trivial
  · intro hspace
    apply wp_mono (wp_allocateNewDataPages_counted ((h.inode.fileLen + amount) / s.header.pageSize) d)
    · intro r v hr
      obtain ⟨hmed, hrel, hgrows, hdraws⟩ := hr
      rw [wp_ite]
      refine ⟨fun _ => ⟨hc.relisted hrel, fun _ => rfl⟩, fun hok => ?_⟩
      have hcr := hc.relisted hrel
      have he := hrel.eq
      have hno : ¬ enlargeRefused s h amount := by
        rintro (h1 | h1 | ⟨-, h1⟩)
        · exact hfree h1
        · exact hsize h1
        · exact h1 (hgrows.mp (not_not.mp hok))
      have hvalid := (hdraws (not_not.mp hok)).valid
      have hpages := (Supply.of s h).lt_grow ((h.inode.fileLen + amount) / s.header.pageSize)
      refine ⟨⟨hcr.pos.trans (Nat.le_add_right _ _), fun _ hlt => ?_, fun _ hzero => ?_, hcr.deletedLast,
        hcr.nameLen⟩, fun hr => absurd hr hno⟩
      swap
      · rw [← hvalid] at hpages
        exact absurd hpages (Nat.not_lt.mpr (le_of_eq_of_le hzero (Nat.zero_le _)))
      have hsame : getInodeDataSpaceSize hd { r.2 with
          modified := true, inode := { r.2.inode with fileLen := r.2.inode.fileLen + amount } } =
          getInodeDataSpaceSize s.header h := by
        rw [he, hh]
        rfl
      have hlen : r.2.inode.fileLen = h.inode.fileLen := by rw [he]; rfl
      rw [hsame] at hlt
      dsimp only at hlt
      omega
    · exact fun _ _ _ => trivial

theorem wp_seek_sound (hc : CursorSound hd h) (hh : s.header = hd) (hwf : s.freeDataPages.WF) {pos : ℕ}
    (hok : pos ≤ h.inode.fileLen ∨ enlargeRefused s h (pos - h.inode.fileLen - 1)) :
    wp (seek h pos) (fun r _ => CursorSound hd r.2) (fun _ _ => True) s := by
  rw [SimpleFlashFs.seek, wp_ite]
  refine ⟨fun hle => hc.seek hle, fun hgt => ?_⟩
  rw [wp_ite]
  refine ⟨fun _ => trivial, fun _ => ?_⟩
  rw [wp_bind]
  apply wp_mono (wp_enlargeFile_sound hc hh hwf _)
  · intro r t hr
    rw [hr.2 (hok.resolve_left hgt)]
    exact hr.1
  · exact fun _ _ _ => trivial

theorem wp_write_sound (hc : CursorSound hd h) (hps : 0 < hd.pageSize) (hh : s.header = hd)
    (hwf : s.freeDataPages.WF) (data : List UInt8) (hs : writeStopsBehind s h data = false) :
    wp (write h data) (fun r _ => CursorSound hd r.2) (fun _ _ => True) s := by
  cases ha : h.append with
  | false =>
    simp only [write, ha, whenNeeded, Bool.false_eq_true, if_false, wp_bind, wp_pure]
    rw [wp_ite]
    exact ⟨fun _ => wp_writeFs_sound hc hps hh hwf (by rw [ha]; rfl) data hs, fun _ => trivial⟩
  | true =>
    simp only [write, ha, whenNeeded, SimpleFlashFs.seek, le_refl, if_true, wp_bind, wp_pure]
    rw [wp_ite]
    refine ⟨fun _ => ?_, fun _ => trivial⟩
    have hs' : writeStopsBehind s { h with pos := h.inode.fileLen } data = false := by
      simp only [writeStopsBehind, ha, if_true] at hs ⊢
      exact hs
    have hw := wp_writeFs_sound (hc.seek le_rfl) hps hh hwf (ite_self _) data hs'
    simp only [ha] at hw
    exact hw

theorem wp_truncate_sound (hc : CursorSound hd h) (hps : 0 < hd.pageSize) (hh : s.header = hd) (hwf : s.freeDataPages.WF) {newSize : ℕ}
    (hok : ¬ truncateExposes s h newSize) :
    wp (truncate h newSize) (fun r _ => CursorSound hd r.2) (fun _ _ => True) s := by
  simp only [SimpleFlashFs.truncate, wp_bind, wp_get]
  rw [wp_ite]
  refine ⟨fun _ => hc, fun _ => ?_⟩
  rw [wp_ite]
  refine ⟨fun _ => hc, fun hne => ?_⟩
  rw [wp_ite]
  constructor
  · intro _
    exact wp_mono (wp_enlargeFile_sound hc hh hwf _) (fun _ _ hr => hr.1) (fun _ _ h => h)
  · intro hle
    have hlt : newSize < h.inode.fileLen := by omega
    have hpos : (if h.pos > newSize then newSize else h.pos) ≤ newSize := by
      split <;> omega
    rw [wp_pure]
    simp only [List.isEmpty_iff]
    split
    · next hempty =>
      have hzero : h.inode.countValidDataPages = 0 := by rw [Inode.countValidDataPages, hempty]; rfl
      split
      · have hlen : newSize ≤ (h.inode.inodeData.take newSize).length := by
          rw [List.length_take]
          omega
        exact ⟨hpos, fun _ _ => hlen, fun _ _ => hlen, hc.deletedLast, hc.nameLen⟩
      · have hlen : h.inode.inodeData ≠ [] → newSize ≤ h.inode.inodeData.length :=
          fun hi => hlt.le.trans (hc.inlineOnly hi hzero)
        exact ⟨hpos, fun hi _ => hlen hi, fun hi _ => hlen hi, hc.deletedLast, hc.nameLen⟩
    · next hpages =>
      obtain ⟨kept, dropped, e⟩ := hc.deletedLast
      have hinline : h.inode.inodeData ≠ [] → newSize < getInodeDataSpaceSize hd h →
          newSize ≤ h.inode.inodeData.length :=
        fun hi hspace => not_lt.mp fun hshort => hok ⟨hlt, hpages, hi, hshort, by rw [hh]; exact hspace⟩
      split
      · refine ⟨hpos, hinline, fun hi hzero => ?_, ⟨_, _, e.take _⟩, hc.nameLen⟩
        dsimp only at hzero ⊢
        rw [Inode.countValidDataPages, (e.take _).valid, List.length_take] at hzero
        have hvalid : h.inode.countValidDataPages = kept.length := by rw [Inode.countValidDataPages, e.valid]
        by_cases hnone : kept.length = 0
        · exact hlt.le.trans (hc.inlineOnly hi (by rw [hvalid, hnone]))
        · have hneeded : (newSize + s.header.pageSize - 1) / s.header.pageSize = 0 := by omega
          have := Nat.lt_of_div_eq_zero (by rw [hh]; exact hps) hneeded
          omega
      · exact ⟨hpos, hinline, fun hi hzero => hlt.le.trans (hc.inlineOnly hi hzero), hc.deletedLast, hc.nameLen⟩

end Sizes

section Reading

variable [Config] {s : Fs} {h : FileHandle} {hd : Header}

theorem readPage_length {p : ℕ} (h : (readPage s p).error = none) :
    (readPage s p).page.length = s.header.pageSize := by
  unfold readPage at h ⊢
  dsimp only at h ⊢
  split at h
  · cases h
  · next hlen =>
    rw [if_neg hlen]
    simpa using hlen

-- the cursor moves by what was read, and no more is read than was asked for
structure ReadUpTo (size : ℕ) (h : FileHandle) (before : ℕ) (r : List UInt8 × FileHandle) : Prop where
  length : r.1.length ≤ size
  more : before ≤ r.1.length
  handle : r.2 = { h with pos := h.pos + (r.1.length - before) }

omit [Config] in
theorem ReadUpTo.same {size : ℕ} (acc : List UInt8) (hacc : acc.length ≤ size) :
    ReadUpTo size h acc.length (acc, h) := ⟨hacc, le_rfl, by simp⟩

omit [Config] in
theorem ReadUpTo.advance {size before : ℕ} {r : List UInt8 × FileHandle} (len : ℕ)
    (hr : ReadUpTo size (h.advance len) (before + len) r) : ReadUpTo size h before r := by
  have hmore := hr.more
  refine ⟨hr.length, by omega, ?_⟩
  rw [hr.handle]
  simp only [FileHandle.advance]
  congr 1
  omega

theorem readLoop_upTo (fuel size : ℕ) (acc : List UInt8) (hacc : acc.length ≤ size) :
    ReadUpTo size h acc.length (readLoop s fuel h size acc) := by
  induction fuel generalizing h acc with
  | zero => exact ReadUpTo.same _ hacc
  | succ fuel ih =>
    have hnext : ∀ (bytes : List UInt8) (len : ℕ), bytes.length = len → acc.length + len ≤ size →
        ReadUpTo size h acc.length (readLoop s fuel (h.advance len) size (acc ++ bytes)) := by
      intro bytes len hlen hle
      have hb : (acc ++ bytes).length = acc.length + len := by rw [List.length_append, hlen]
      apply ReadUpTo.advance len
      rw [← hb]
      exact ih _ (by omega)
    rw [readLoop]
    dsimp only
    split
    · cases hm : h.inode.dataPages[h.pos / s.header.pageSize]? with
      | none => exact ReadUpTo.same _ hacc
      | some m =>
        dsimp only
        split
        · split
          · exact ReadUpTo.same _ hacc
          · next hgood =>
            apply hnext
            · rw [List.length_take]
              split
              · next hst =>
                have herr : (readPage s m.pageId).error = none := by
                  by_contra hne
                  exact hgood ⟨hst, hne⟩
                rw [readPage_length herr]
                omega
              · rw [List.length_replicate]
                omega
            · omega
        · split
          · exact hnext _ _ List.length_replicate (by omega)
          · split
            · exact ReadUpTo.same _ hacc
            · next herr => exact hnext _ _ (readPage_length (not_not.mp herr)) (by omega)
    · exact ReadUpTo.same _ hacc

theorem readDataPages_upTo (size : ℕ) : ReadUpTo size h 0 (readDataPages s h size) := by
  unfold readDataPages
  split
  · cases hb : readUnaligned s h size with
    | none => exact ReadUpTo.same [] (Nat.zero_le _)
    | some bytes =>
      have hlen : bytes.length ≤ size := by
        unfold readUnaligned at hb
        dsimp only at hb
        split at hb
        · cases hb
        · split at hb
          · obtain rfl := Option.some_inj.mp hb
            rw [List.length_replicate]
            omega
          · split at hb
            · cases hb
            · obtain rfl := Option.some_inj.mp hb
              rw [slice_length]
              omega
      apply ReadUpTo.advance bytes.length
      rw [Nat.zero_add]
      exact readLoop_upTo size size bytes hlen
  · exact readLoop_upTo size size [] (Nat.zero_le _)

omit [Config] in
theorem subU64_le {a b : ℕ} (h : b ≤ a) : subU64 a b ≤ a - b := by
  rw [subU64, show a + 2 ^ 64 - b = (a - b) + 2 ^ 64 by omega, Nat.add_mod_right]
  exact Nat.mod_le _ _

-- a read stays between the cursor and the end of the file, and inside of the inline data
theorem wp_read_sound (hc : CursorSound hd h) (hh : s.header = hd) (size : ℕ) :
    wp (read h size)
      (fun r t => t = s ∧ r.1.length ≤ h.inode.fileLen - h.pos ∧ r.2 = { h with pos := h.pos + r.1.length })
      (fun _ _ => h.connected = false) s := by
  have hleft := subU64_le hc.pos
  have hpos := hc.pos
  rw [read, wp_ite]
  refine ⟨fun _ => ?_, fun hno => by simpa using hno⟩
  simp only [readFs, wp_bind, wp_get]
  generalize hsize : (if subU64 h.inode.fileLen h.pos < size then subU64 h.inode.fileLen h.pos else size) = n
  have hn : n ≤ subU64 h.inode.fileLen h.pos := by
    rw [← hsize]
    split <;> omega
  rw [wp_ite]
  refine ⟨fun _ => ⟨rfl, Nat.zero_le _, rfl⟩, fun hne => ?_⟩
  rw [wp_ite]
  constructor
  · rintro ⟨h1, h2, h3⟩
    have hinline := hc.inline h3 (by rw [← hh]; exact h2)
    have hin : h.pos + min (subU64 h.inode.fileLen h.pos) n ≤ h.inode.inodeData.length := by omega
    rw [wp_ite]
    refine ⟨fun hout => absurd hout (by omega), fun _ => ?_⟩
    have hlen : (slice h.inode.inodeData h.pos (min (subU64 h.inode.fileLen h.pos) n)).length =
        min (subU64 h.inode.fileLen h.pos) n := by
      rw [slice_length]
      omega
    refine ⟨rfl, ?_, ?_⟩
    · dsimp only
      omega
    · dsimp only
      rw [hlen]
      rfl
  · intro _
    have hr := readDataPages_upTo (s := s) (h := h) n
    have hle := hr.length
    refine ⟨rfl, by omega, ?_⟩
    rw [hr.handle]
    rfl

end Reading

section Flushing

variable [Config] {s : Fs} {h h1 h2 : FileHandle} {hd : Header}

-- what a flush leaves of a handle
structure SameData (h h' : FileHandle) : Prop where
  pos : h'.pos = h.pos
  fileLen : h'.inode.fileLen = h.inode.fileLen
  inodeData : h'.inode.inodeData = h.inode.inodeData
  fileNameLen : h'.inode.fileNameLen = h.inode.fileNameLen
  deletedLast : DeletedLast h.inode.dataPages → DeletedLast h'.inode.dataPages
  valid : h.inode.countValidDataPages ≤ h'.inode.countValidDataPages

omit [Config] in
theorem SameData.refl (h : FileHandle) : SameData h h := ⟨rfl, rfl, rfl, rfl, id, le_rfl⟩

omit [Config] in
theorem SameData.trans (a : SameData h h1) (b : SameData h1 h2) : SameData h h2 :=
  ⟨b.pos.trans a.pos, b.fileLen.trans a.fileLen, b.inodeData.trans a.inodeData,
    b.fileNameLen.trans a.fileNameLen, fun d => b.deletedLast (a.deletedLast d), a.valid.trans b.valid⟩

omit [Config] in
theorem CursorSound.sameData (hc : CursorSound hd h) (a : SameData h h1) : CursorSound hd h1 where
  pos := by
    rw [a.pos, a.fileLen]
    exact hc.pos
  inline hne hlt := by
    rw [a.inodeData] at hne ⊢
    rw [getInodeDataSpaceSize, a.fileLen, a.fileNameLen] at hlt
    rw [a.fileLen]
    exact hc.inline hne hlt
  inlineOnly hne hzero := by
    have hvalid := a.valid
    rw [a.inodeData] at hne ⊢
    rw [a.fileLen]
    exact hc.inlineOnly hne (by omega)
  deletedLast := a.deletedLast hc.deletedLast
  nameLen := by
    rw [a.fileNameLen]
    exact hc.nameLen

omit [Config] in
theorem sameData_nextVersion (h : FileHandle) (page : ℕ) : SameData h (h.nextVersion page) := by
  refine ⟨rfl, rfl, rfl, rfl, fun hd => ?_, ?_⟩
  · refine ⟨h.inode.dataPages.filter (·.state ≠ .deleted), [], (List.append_nil _).symm, ?_, nofun⟩
    intro m hm
    simpa using (List.mem_filter.mp hm).2
  · simp only [Inode.countValidDataPages, FileHandle.nextVersion, FileHandle.stripDeleted, FileHandle.setPages,
      List.countP_filter, Bool.and_self, le_refl]

omit [Config] in
theorem wp_writePage_sameData {idx : ℕ} {m : DataPage} (page : List UInt8) (hm : h.inode.dataPages[idx]? = some m)
    (hs : m.state = .new) : wp (writePage h page idx) (fun r _ => SameData h r.2) (fun _ _ => True) s := by
  have hset : SameData h (h.setPages (h.inode.dataPages.set idx { m with state := .stored })) := by
    obtain ⟨hlt, hget⟩ := List.getElem?_eq_some_iff.mp hm
    refine ⟨rfl, rfl, rfl, rfl, ?_, ?_⟩
    · rintro ⟨kept, dropped, e⟩
      have hidx : idx < kept.length := by
        by_contra hge
        rw [e.eq, List.getElem?_append_right (by omega)] at hm
        rw [e.dropped m (List.mem_of_getElem? hm)] at hs
        cases hs
      exact ⟨_, _, e.set hidx (by simp)⟩
    · simp only [Inode.countValidDataPages, FileHandle.setPages, List.countP_set hlt, hget, hs]
      simp only [ne_eq, reduceCtorEq, not_false_eq_true, decide_true, if_true, decide_not]
      omega
  simp only [writePage, wp_bind, wp_get, hm, hs, if_true]
  exact wp_run (fun done t _ => by cases done <;> [exact SameData.refl h; exact hset]) (fun _ _ _ => trivial)

omit [Config] in
theorem wp_writeZeroPages_sameData :
    wp (writeZeroPages h) (fun r _ => SameData h r.2) (fun _ _ => True) s := by
  have hfrom : ∀ (left idx : ℕ) (h : FileHandle) (s : Fs),
      wp (writeZeroPagesFrom left idx h) (fun r _ => SameData h r.2) (fun _ _ => True) s := by
    intro left
    induction left with
    | zero => exact fun idx h s => SameData.refl h
    | succ left ih =>
      intro idx h s
      simp only [writeZeroPagesFrom, wp_bind, wp_get]
      cases hm : h.inode.dataPages[idx]? with
      | none => exact SameData.refl h
      | some m =>
        dsimp only
        rw [wp_ite]
        refine ⟨fun hs => ?_, fun _ => ih _ _ _⟩
        rw [wp_bind]
        apply wp_mono (wp_writePage_sameData _ hm hs)
        · intro r t hr
          rw [wp_ite]
          exact ⟨fun _ => wp_mono (ih _ _ _) (fun _ _ h2 => hr.trans h2) (fun _ _ h => h), fun _ => hr⟩
        · exact fun _ _ _ => trivial
  exact hfrom _ _ _ _

theorem wp_flush_sameData : wp (flush h) (fun r _ => SameData h r.2) (fun _ _ => True) s := by
  rw [flush, wp_ite]
  refine ⟨fun _ => trivial, fun _ => ?_⟩
  rw [wp_ite]
  refine ⟨fun _ => SameData.refl h, fun _ => ?_⟩
  rw [wp_ite]
  constructor
  · intro _
    simp only [flushNew, wp_bind, wp_get, wp_set]
    apply wp_mono (wp_writeZeroPages_sameData (h := h.numbered _))
    · intro r t hr
      have hr' : SameData h r.2 :=
        ⟨hr.pos, hr.fileLen, hr.inodeData, hr.fileNameLen, hr.deletedLast, hr.valid⟩
      refine wp_run (fun _ u _ => wp_run (fun done v _ => ?_) fun _ _ _ => trivial) fun _ _ _ => trivial
      rw [wp_ite]
      exact ⟨fun _ => hr'.trans ⟨rfl, rfl, rfl, rfl, id, le_rfl⟩, fun _ => hr'⟩
    · exact fun _ _ _ => trivial
  · intro _
    rw [flushNextVersion]
    apply wp_bind_any
    intro page t
    cases page with
    | none => exact SameData.refl h
    | some newPage =>
      simp only [wp_bind, wp_get]
      refine wp_run (fun _ u _ => ?_) fun _ _ _ => trivial
      apply wp_mono (wp_writeZeroPages_sameData (h := h.nextVersion newPage))
      · intro r v hr
        have hr' : SameData h r.2 := (sameData_nextVersion h newPage).trans hr
        refine wp_run (fun done w _ => ?_) fun _ _ _ => trivial
        rw [wp_ite]
        refine ⟨fun _ => ?_, fun _ => hr'⟩
        apply wp_bind_any
        exact fun _ _ => hr'.trans ⟨rfl, rfl, rfl, rfl, id, le_rfl⟩
      · exact fun _ _ _ => trivial

end Flushing

section Runs

variable [Config] {hd : Header}

theorem CursorSound.called {s : Fs} {h : FileHandle} {call : Call} (hc : CursorSound hd h) (hps : 0 < hd.pageSize)
    (hh : s.header = hd) (hwf : s.freeDataPages.WF) (hok : call.Regular s h) :
    wp (call.run h) (fun h' _ => CursorSound hd h') (fun _ _ => True) s := by
  cases call with
  | seek pos =>
    rw [Call.run, wp_map]
    exact wp_seek_sound hc hh hwf hok
  | write data =>
    rw [Call.run, wp_map]
    exact wp_write_sound hc hps hh hwf data hok
  | read size =>
    rw [Call.run, wp_map]
    apply wp_mono (wp_read_sound hc hh size)
    · intro r t hr
      have hpos := hc.pos
      rw [hr.2.2]
      exact hc.seek (by omega)
    · exact fun _ _ _ => trivial
  | truncate newSize =>
    rw [Call.run, wp_map]
    exact wp_truncate_sound hc hps hh hwf hok
  | flush =>
    rw [Call.run, wp_map]
    exact wp_mono wp_flush_sameData (fun _ _ hr => hc.sameData hr) (fun _ _ h => h)

theorem cursorSound_of_reached (hps : 0 < hd.pageSize) {h : FileHandle} (hr : Reached hd Call.Regular h) :
    CursorSound hd h := by
  induction hr with
  | opened ho => exact wp_ok (Q := fun h _ => CursorSound hd h) (wp_openFile_sound hd _ _) ho
  | called _ hh hwf hok hcall ih => exact wp_ok (Q := fun h _ => CursorSound hd h) (ih.called hps hh hwf hok) hcall

-- the cursor lies in the file, and a read returns bytes between the two and never leaves the inline data
def CursorInFile (hd : Header) (h : FileHandle) : Prop :=
  h.pos ≤ h.inode.fileLen ∧ ∀ (s : Fs) (size : ℕ), s.header = hd → h.connected = true →
    ∃ r, SimpleFlashFs.read h size s = .ok r s ∧ r.1.length ≤ h.inode.fileLen - h.pos

theorem reached_cursorInFile (hps : 0 < hd.pageSize) {h : FileHandle} (hr : Reached hd Call.Regular h) :
    CursorInFile hd h := by
  have hc := cursorSound_of_reached hps hr
  refine ⟨hc.pos, fun s size hh hcon => ?_⟩
  have hw := wp_read_sound hc hh size
  unfold wp at hw
  cases hread : SimpleFlashFs.read h size s with
  | ok r t =>
    rw [hread] at hw
    rw [hw.1]
    exact ⟨r, rfl, hw.2.1⟩
  | error e t =>
    rw [hread] at hw
    rw [hcon] at hw
    cases hw

end Runs

-- four inode pages and seven data pages, all erased
def erasedHeader : Header := .ofFields 0 64 12 4 50

def erasedFs : Fs where
  variant := .dynamic
  mem := { bytes := List.replicate (64 * 12) 0xFF }
  header := erasedHeader
  freeDataPages := { data := [4, 5, 6, 7, 8, 9, 10] }
  headerInodeRange := .default 4 0

-- a new file, one call on its handle, and what is to be found of the states around it
def callOnNew [Config] (call : Call) (before : Fs → FileHandle → Bool) (after : FileHandle → Bool) : Bool :=
  match openFile [97] { out := true } erasedFs with
  | .ok h t =>
    before t h && match call.run h t with
      | .ok h' _ => after h'
      | .error _ _ => false
  | .error _ _ => false

theorem reached_of_callOnNew [Config] {ok : Fs → FileHandle → Call → Prop} {call : Call}
    {before : Fs → FileHandle → Bool} {after : FileHandle → Bool} (hc : callOnNew call before after = true)
    (hok : ∀ t h, before t h = true → t.header = erasedHeader ∧ t.freeDataPages.WF ∧ ok t h call) :
    ∃ h, Reached erasedHeader ok h ∧ after h = true := by
  unfold callOnNew at hc
  cases ho : openFile [97] { out := true } erasedFs with
  | error e t =>
    rw [ho] at hc
    cases hc
  | ok h t =>
    rw [ho] at hc
    cases hr : call.run h t with
    | error e u => simp [hr] at hc
    | ok h' u =>
      simp only [hr, Bool.and_eq_true] at hc
      obtain ⟨hh, hwf, hcall⟩ := hok t h hc.1
      exact ⟨h', .called (.opened ho) hh hwf hcall hr, hc.2⟩

theorem erasedFs_free : erasedFs.freeDataPages.WF :=
  ⟨by decide, fun _ => by decide, fun _ => by decide, by decide⟩

-- behind the end by one byte, and the file is enlarged by none
theorem seek_leavesFile : ∃ h, @Reached dynamicConfig erasedHeader (fun _ _ _ => True) h ∧
    ¬ @CursorInFile dynamicConfig erasedHeader h := by
  have hrun : @callOnNew dynamicConfig (.seek 1)
      (fun t _ => t.header = erasedHeader ∧ t.freeDataPages = erasedFs.freeDataPages)
      (fun h => h.pos = 1 ∧ h.inode.fileLen = 0) = true := by
    decide +kernel
  obtain ⟨h, hr, ha⟩ := @reached_of_callOnNew dynamicConfig (fun _ _ _ => True) _ _ _ hrun (by
    intro t h hb
    obtain ⟨hh, hf⟩ := of_decide_eq_true hb
    exact ⟨hh, by rw [hf]; exact erasedFs_free, trivial⟩)
  obtain ⟨hpos, hlen⟩ := of_decide_eq_true ha
  refine ⟨h, hr, fun hin => ?_⟩
  have hle := hin.1
  omega

theorem reached_cursorInFile_written : ∃ h, h.pos = 3 ∧ h.inode.fileLen = 3 ∧
    @CursorInFile dynamicConfig erasedHeader h := by
  have hrun : @callOnNew dynamicConfig (.write [1, 2, 3])
      (fun t h => t.header = erasedHeader ∧ t.freeDataPages = erasedFs.freeDataPages ∧
        @writeStopsBehind dynamicConfig t h [1, 2, 3] = false)
      (fun h => h.pos = 3 ∧ h.inode.fileLen = 3) = true := by
    decide +kernel
  obtain ⟨h, hr, ha⟩ := @reached_of_callOnNew dynamicConfig (@Call.Regular dynamicConfig) _ _ _ hrun (by
    intro t h hb
    obtain ⟨hh, hf, hw⟩ := of_decide_eq_true hb
    exact ⟨hh, by rw [hf]; exact erasedFs_free, hw⟩)
  obtain ⟨hpos, hlen⟩ := of_decide_eq_true ha
  exact ⟨h, hpos, hlen, @reached_cursorInFile dynamicConfig _ (by decide) _ hr⟩

end SimpleFlashFs
