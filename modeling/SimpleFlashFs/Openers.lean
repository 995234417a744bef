import SimpleFlashFs.ResizedContent
import SimpleFlashFs.DriveStore

namespace SimpleFlashFs

open Lib

-- bytes written at a position, with zeros up to it
def writeAt (content : List UInt8) (pos : ℕ) (data : List UInt8) : List UInt8 :=
  overwrite (content ++ List.replicate (pos - content.length) 0) pos data

-- ThreadedFileHandle
structure Opener where
  pos : ℕ := 0
  append : Bool := false
deriving DecidableEq, Repr

def Opener.target (o : Opener) (h : FileHandle) : ℕ := if o.append then h.inode.fileLen else o.pos

section Operations

variable [Config]

-- write, read and truncate of ThreadedFileHandle on the handle that all openers share
def Opener.write (o : Opener) (h : FileHandle) (data : List UInt8) : FsM (ℕ × Opener × FileHandle) :=
  if ¬ h.connected then pure (0, o, h)
  else do
    let r ← whenNeeded (h.pos ≠ o.target h) h (seek h (o.target h))
    let r ← SimpleFlashFs.write r.2 data
    pure (r.1, { o with pos := r.2.pos }, r.2)

def Opener.read (o : Opener) (h : FileHandle) (size : ℕ) : FsM (List UInt8 × Opener × FileHandle) :=
  if ¬ h.connected then pure ([], o, h)
  else do
    let r ← whenNeeded (h.pos ≠ o.pos) h (seek h o.pos)
    let r ← SimpleFlashFs.read r.2 size
    pure (r.1, { o with pos := r.2.pos }, r.2)

def Opener.truncate (o : Opener) (h : FileHandle) (newSize : ℕ) : FsM (Bool × Opener × FileHandle) :=
  if ¬ h.connected then pure (false, o, h)
  else do
    let r ← SimpleFlashFs.truncate h newSize
    pure (r.1, if r.1 ∧ o.pos > newSize then { o with pos := newSize } else o, r.2)

end Operations

-- one path of the server: the handle of the drive while somebody holds it, and all handles ever given out for it
structure OpenFile where
  shared : Option FileHandle := none
  openers : List (Option Opener) := []

inductive FileOp
  | open (mode : OpenMode)
  | close (i : ℕ)
  | write (i : ℕ) (data : List UInt8)
  | read (i : ℕ) (size : ℕ)
  | seek (i : ℕ) (p : ℕ)
  | truncate (i : ℕ) (newSize : ℕ)
deriving DecidableEq, Repr

inductive Reply
  | opened (success : Bool)
  | written (n : ℕ)
  | bytes (data : List UInt8)
  | done (success : Bool)
deriving DecidableEq, Repr

namespace OpenFile

def opener (f : OpenFile) (i : ℕ) : Option Opener := (f.openers[i]?).join

def newOpener (f : OpenFile) (h : FileHandle) (mode : OpenMode) : OpenFile where
  shared := some h
  openers := f.openers ++ [some { pos := if mode.ate then h.inode.fileLen else 0, append := mode.app }]

def put (f : OpenFile) (i : ℕ) (o : Opener) (h : FileHandle) : OpenFile where
  shared := some h
  openers := f.openers.set i (some o)

section Step

variable [Config]

-- none of these operations deletes the file, so the handle that is held is connected
def openPath (name : List UInt8) (f : OpenFile) (mode : OpenMode) : FsM (OpenFile × Reply) :=
  match f.shared with
  | some h => do
    let r ← whenNeeded mode.trunc h (SimpleFlashFs.truncate h 0)
    pure (f.newOpener r.2 mode, .opened true)
  | none => do
    let h ← openFile name mode
    if h.connected then pure (f.newOpener h mode, .opened true) else pure (f, .opened false)

-- the drive's handle goes with the last opener
def close (f : OpenFile) (i : ℕ) : FsM (OpenFile × Reply) :=
  let openers := f.openers.set i none
  match f.shared with
  | some h =>
    if openers.any (·.isSome) then pure ({ f with openers := openers }, .done true)
    else do
      closeHandle h
      pure ({ shared := none, openers := openers }, .done true)
  | none => pure ({ f with openers := openers }, .done true)

def step (name : List UInt8) (f : OpenFile) : FileOp → FsM (OpenFile × Reply)
  | .open mode => f.openPath name mode
  | .close i => f.close i
  | .write i data =>
    match f.shared, f.opener i with
    | some h, some o => do
      let r ← o.write h data
      pure (f.put i r.2.1 r.2.2, .written r.1)
    | _, _ => pure (f, .written 0)
  | .read i size =>
    match f.shared, f.opener i with
    | some h, some o => do
      let r ← o.read h size
      pure (f.put i r.2.1 r.2.2, .bytes r.1)
    | _, _ => pure (f, .bytes [])
  | .seek i p =>
    match f.shared, f.opener i with
    | some h, some o => pure (f.put i { o with pos := p } h, .done true)
    | _, _ => pure (f, .done false)
  | .truncate i newSize =>
    match f.shared, f.opener i with
    | some h, some o => do
      let r ← o.truncate h newSize
      pure (f.put i r.2.1 r.2.2, .done r.1)
    | _, _ => pure (f, .done false)

def run (name : List UInt8) : List FileOp → OpenFile → FsM (OpenFile × List Reply)
  | [], f => pure (f, [])
  | op :: ops, f => do
    let r ← f.step name op
    let rest ← run name ops r.1
    pure (rest.1, r.2 :: rest.2)

end Step

end OpenFile

-- one shared byte array, with a cursor and an append flag for each opener
structure SharedBytes where
  content : List UInt8 := []
  openers : List (Option Opener) := []
deriving DecidableEq, Repr

namespace SharedBytes

def opener (s : SharedBytes) (i : ℕ) : Option Opener := (s.openers[i]?).join

def setOpener (s : SharedBytes) (i : ℕ) (o : Option Opener) : SharedBytes :=
  { s with openers := s.openers.set i o }

def openPath (s : SharedBytes) (mode : OpenMode) : SharedBytes × Reply :=
  let content := if mode.trunc then [] else s.content
  ({ content := content, openers := s.openers ++
    [some { pos := if mode.ate then content.length else 0, append := mode.app }] }, .opened true)

def step (s : SharedBytes) : FileOp → SharedBytes × Reply
  | .open mode => s.openPath mode
  | .close i => (s.setOpener i none, .done true)
  | .write i data =>
    match s.opener i with
    | none => (s, .written 0)
    | some o =>
      let pos := if o.append then s.content.length else o.pos
      ({ s with content := writeAt s.content pos data }.setOpener i (some { o with pos := pos + data.length }),
        .written data.length)
  | .read i size =>
    match s.opener i with
    | none => (s, .bytes [])
    | some o =>
      let bytes := slice s.content o.pos size
      (s.setOpener i (some { o with pos := o.pos + bytes.length }), .bytes bytes)
  | .seek i p =>
    match s.opener i with
    | none => (s, .done false)
    | some o => (s.setOpener i (some { o with pos := p }), .done true)
  | .truncate i newSize =>
    match s.opener i with
    | none => (s, .done false)
    | some o =>
      ({ s with content := resize s.content newSize }.setOpener i
        (some { o with pos := if o.pos > newSize then newSize else o.pos }), .done true)

def run (s : SharedBytes) : List FileOp → SharedBytes × List Reply
  | [] => (s, [])
  | op :: ops =>
    let r := s.step op
    let rest := r.1.run ops
    (rest.1, r.2 :: rest.2)

end SharedBytes


section Conditions

variable [Config]

-- the write stays where the bytes of the file are kept; behind the end it needs zeros up to its position,
-- and an append flag of the drive's handle may not move it
def Opener.WritesInPlace (s : Fs) (o : Opener) (h : FileHandle) (data : List UInt8) : Prop :=
  (h.append = true → o.target h = h.inode.fileLen) ∧
    if o.target h ≤ h.inode.fileLen then
      h.inode.dataPages ≠ [] → getInodeDataSpaceSize s.header h ≤ max h.inode.fileLen (o.target h + data.length)
    else
      data ≠ [] ∧ GrowsInPlace s h (o.target h - 1) ∧ ZerosTo s h (o.target h) ∧
        ¬ enlargeRefused s h (o.target h - h.inode.fileLen - 1)

-- a seek goes no further than the end of the file
def FileOp.Legal (_ : Fs) (f : OpenFile) : FileOp → Prop
  | .seek _ p => ∀ h ∈ f.shared, p ≤ h.inode.fileLen
  | _ => True

-- the OpenFile is not made anew, no cursor is behind the end where bytes are read, and writes and
-- truncates leave the bytes where they are looked for
def FileOp.InOrder (s : Fs) (f : OpenFile) : FileOp → Prop
  | .open _ => f.shared.isSome = true ∨ f.openers = []
  | .write i data => ∀ h ∈ f.shared, ∀ o ∈ f.opener i, o.WritesInPlace s h data
  | .read i _ => ∀ h ∈ f.shared, ∀ o ∈ f.opener i, o.pos ≤ h.inode.fileLen
  | .truncate i newSize => ∀ h ∈ f.shared, ∀ _ ∈ f.opener i, h.inode.fileLen < newSize →
    GrowsInPlace s h newSize ∧ ZerosTo s h newSize
  | _ => True

instance (s : Fs) (h : FileHandle) (amount : ℕ) : Decidable (enlargeRefused s h amount) := by
  unfold enlargeRefused
  infer_instance

instance (s : Fs) (o : Opener) (h : FileHandle) (data : List UInt8) : Decidable (o.WritesInPlace s h data) := by
  unfold Opener.WritesInPlace
  infer_instance

instance (s : Fs) (f : OpenFile) (op : FileOp) : Decidable (op.Legal s f) :=
  match op with
  | .seek _ p => inferInstanceAs (Decidable (∀ h ∈ f.shared, p ≤ h.inode.fileLen))
  | .open _ | .close _ | .write _ _ | .read _ _ | .truncate _ _ => isTrue trivial

instance (s : Fs) (f : OpenFile) (op : FileOp) : Decidable (op.InOrder s f) :=
  match op with
  | .open _ => inferInstanceAs (Decidable (f.shared.isSome = true ∨ f.openers = []))
  | .write i data => inferInstanceAs (Decidable (∀ h ∈ f.shared, ∀ o ∈ f.opener i, o.WritesInPlace s h data))
  | .read i _ => inferInstanceAs (Decidable (∀ h ∈ f.shared, ∀ o ∈ f.opener i, o.pos ≤ h.inode.fileLen))
  | .truncate i newSize => inferInstanceAs (Decidable (∀ h ∈ f.shared, ∀ _ ∈ f.opener i, h.inode.fileLen < newSize →
    GrowsInPlace s h newSize ∧ ZerosTo s h newSize))
  | .close _ | .seek _ _ => isTrue trivial

end Conditions

section Run

variable [Config] {s t u : Fs} {h k : FileHandle} {live : List FileHandle} {f : OpenFile} {b : SharedBytes}
  {o : Opener} {content : List UInt8} {name : List UInt8}

-- each operation of a run meets P in the state before it
def StepsWhile (P : Fs → OpenFile → FileOp → Prop) (name : List UInt8) : List FileOp → OpenFile → Fs → Prop
  | [], _, _ => True
  | op :: ops, f, s => P s f op ∧
    wp (f.step name op) (fun r t => StepsWhile P name ops r.1 t) (fun _ _ => True) s

instance decidableStepsWhile (P : Fs → OpenFile → FileOp → Prop) [∀ s f op, Decidable (P s f op)] (name : List UInt8) :
    (ops : List FileOp) → (f : OpenFile) → (s : Fs) → Decidable (StepsWhile P name ops f s)
  | [], _, _ => isTrue trivial
  | op :: ops, f, s =>
    have : ∀ f s, Decidable (StepsWhile P name ops f s) := decidableStepsWhile P name ops
    inferInstanceAs (Decidable (P s f op ∧
      wp (f.step name op) (fun r t => StepsWhile P name ops r.1 t) (fun _ _ => True) s))

-- the filesystem with the handle that the openers share, whose file consists of these bytes
structure SharedHandle (s : Fs) (live : List FileHandle) (h : FileHandle) (content : List UInt8) : Prop where
  sound : Sound s (h :: live)
  connected : h.connected = true
  bears : Bears s h content
  pos_le : h.pos ≤ h.inode.fileLen

-- the openers stand where those of the byte array do
structure Shows (s : Fs) (live : List FileHandle) (f : OpenFile) (b : SharedBytes) : Prop where
  openers : f.openers = b.openers
  opened : f.openers ≠ []
  shared : ∀ h, f.shared = some h → SharedHandle s live h b.content
  gone : f.shared = none → ∀ i, f.opener i = none

-- a write that came back short, a truncate that failed
inductive Reply.GaveUp : Reply → Reply → Prop
  | written {n m : ℕ} (h : n ≠ m) : GaveUp (.written n) (.written m)
  | notDone : GaveUp (.done false) (.done true)

-- the replies are the same up to the first one that says so, and without one the ends agree
inductive Agree (ends : Prop) : List Reply → List Reply → Prop
  | ended (h : ends) : Agree ends [] []
  | same (r : Reply) {l l' : List Reply} : Agree ends l l' → Agree ends (r :: l) (r :: l')
  | gaveUp {r r' : Reply} (l l' : List Reply) : r.GaveUp r' → Agree ends (r :: l) (r' :: l')

omit [Config] in
theorem Agree.mono {p q : Prop} {l l' : List Reply} (ha : Agree p l l') (h : p → q) : Agree q l l' := by
  induction ha with
  | ended hp => exact .ended (h hp)
  | same r _ ih => exact .same r ih
  | gaveUp l l' hg => exact .gaveUp l l' hg

theorem SharedHandle.dataEffect {content' : List UInt8} (hs : SharedHandle s live h content) (e : DataEffect s h t k)
    (hb : Bears t k content') (hp : k.pos ≤ k.inode.fileLen) : SharedHandle t live k content' :=
  ⟨hs.sound.dataEffect e, e.same.connected.trans hs.connected, hb, hp⟩

omit [Config] in
theorem whenNeeded_seek {p : ℕ} (hle : p ≤ h.inode.fileLen) :
    whenNeeded (h.pos ≠ p) h (seek h p) = pure (true, { h with pos := p }) := by
  by_cases hpos : h.pos = p
  · rw [whenNeeded, decide_eq_false (not_not.mpr hpos), if_neg Bool.false_ne_true, ← hpos]
  · rw [whenNeeded, decide_eq_true hpos, if_pos rfl, seek, if_pos hle]

theorem SharedHandle.moved (hs : SharedHandle s live h content) (p : ℕ) : DataEffect s h s { h with pos := p } :=
  DataEffect.of_pages hs.sound.ready hs.sound.head.toOwns rfl ⟨rfl, rfl, rfl, rfl, rfl, rfl, rfl, rfl⟩

omit [Config] in
theorem writeAt_of_le {content data : List UInt8} {pos : ℕ} (h : pos ≤ content.length) :
    writeAt content pos data = overwrite content pos data := by
  rw [writeAt, Nat.sub_eq_zero_of_le h, List.replicate_zero, List.append_nil]

omit [Config] in
theorem writeAt_of_gt {content data : List UInt8} {pos : ℕ} (h : content.length < pos) :
    writeAt content pos data = overwrite (resize content pos) pos data := by
  rw [writeAt, resize, List.take_of_length_le h.le]

-- the write of the drive's handle at the position that the opener asked for
theorem SharedHandle.wp_writeStored {content' : List UInt8} {p : ℕ} (data : List UInt8) (hs : SharedHandle s live h content) (e : DataEffect s h t k)
    (hpos : k.pos = p) (hst : Stored t k content') (hlen : content'.length = max p k.inode.fileLen)
    (hsome : data = [] → p ≤ k.inode.fileLen) (hbehind : p ≤ k.inode.fileLen + 1) (happ : k.append = true → p = k.inode.fileLen)
    (hfits : k.inode.dataPages ≠ [] → getInodeDataSpaceSize t.header k ≤ max k.inode.fileLen (p + data.length)) :
    wp (SimpleFlashFs.write k data) (fun r u => r.1 = data.length → r.2.pos = p + data.length ∧
      SharedHandle u live r.2 (overwrite content' p data)) (fun _ _ => True) t := by
  subst hpos
  have hsound := hs.sound.dataEffect e
  have hl := hsound.head
  apply wp_mono (wp_and (wp_write_stored hsound.ready hl.toOwns hst hlen hsome hbehind happ hfits)
    ((safe_write data).wp hsound.ready hl.toOwns))
  · rintro r u ⟨hw, he⟩ hall
    have hw := hw hall
    refine ⟨hw.pos, hs.dataEffect (e.trans he) hw.carries.bears ?_⟩
    rw [hw.pos, hw.carries.length, overwrite_length_max (by rw [hlen]; exact le_max_left _ _)]
    exact le_max_right _ _
  · exact fun _ _ _ => trivial

theorem SharedHandle.wp_write {data : List UInt8} (hs : SharedHandle s live h content) (hw : o.WritesInPlace s h data) :
    wp (o.write h data) (fun r t => r.1 = data.length → r.2.1 = { o with pos := o.target h + data.length } ∧
      SharedHandle t live r.2.2 (writeAt content (o.target h) data)) (fun _ _ => True) s := by
  have hlen := hs.bears.length
  have hl := hs.sound.head
  obtain ⟨happ, hw⟩ := hw
  rw [Opener.write, if_neg (not_not.mpr hs.connected)]
  generalize o.target h = p at happ hw ⊢
  split at hw
  · next hle =>
    rw [whenNeeded_seek hle, wp_bind, wp_pure, wp_bind]
    apply wp_mono (hs.wp_writeStored (p := p) data (hs.moved p) rfl (hs.bears.toStored.of_inode rfl)
      (by dsimp only; omega) (fun _ => hle) (by dsimp only; omega) happ hw)
    · intro r t hr hall
      obtain ⟨hpos, hshared⟩ := hr hall
      rw [writeAt_of_le (by omega)]
      exact ⟨by rw [hpos], hshared⟩
    · exact fun _ _ h => h
  · next hgt =>
    obtain ⟨hsome, hplace, hzeros, hroom⟩ := hw
    have hno : h.append = false := by
      cases ha : h.append with
      | false => rfl
      | true => exact absurd (happ ha).le hgt
    have hne : h.pos ≠ p := by
      have := hs.pos_le
      omega
    rw [whenNeeded, decide_eq_true hne, if_pos rfl, wp_bind]
    apply wp_mono (wp_and (wp_seek_behind hs.sound.ready hl.toOwns hs.bears hs.connected (by omega) hplace hzeros hroom)
      ((safe_seek p).wp hs.sound.ready hl.toOwns))
    · rintro ⟨ok, k⟩ t ⟨⟨hpos, hfileLen, hst, hpaged⟩, e⟩
      dsimp only at hpos hfileLen hst hpaged e ⊢
      rw [wp_bind]
      apply wp_mono (hs.wp_writeStored data e hpos hst (by rw [resize_length]; omega)
        (fun hnil => absurd hnil hsome) (by omega) (fun ha => by rw [e.same.append, hno] at ha; cases ha)
        (fun hne => by have := hpaged hne; omega))
      · intro r u hr hall
        obtain ⟨hpos, hshared⟩ := hr hall
        rw [writeAt_of_gt (by omega)]
        exact ⟨by rw [hpos], hshared⟩
      · exact fun _ _ h => h
    · exact fun _ _ _ => trivial

theorem SharedHandle.wp_read {size : ℕ} (hs : SharedHandle s live h content) (hle : o.pos ≤ h.inode.fileLen) :
    wp (o.read h size) (fun r t => r.1 = slice content o.pos size ∧
      r.2.1 = { o with pos := o.pos + (slice content o.pos size).length } ∧ SharedHandle t live r.2.2 content) (fun _ _ => True) s := by
  have hlen := hs.bears.length
  have hs' := hs.dataEffect (hs.moved o.pos) (hs.bears.of_inode rfl) hle
  have hl := hs'.sound.head
  rw [Opener.read, if_neg (not_not.mpr hs.connected), whenNeeded_seek hle, wp_bind, wp_pure, wp_bind]
  have hread := read_intact hs.sound.ready.layout.pageSize_pos (hs'.bears.holdsContent hs.sound.ready hl.toOwns hs.connected)
    (hle.trans hlen.le) size
  apply wp_of_eq hread
  have hslice : (slice content o.pos size).length ≤ content.length - o.pos := by
    rw [slice_length]
    exact Nat.min_le_right _ _
  have hend : o.pos + (slice content o.pos size).length ≤ h.inode.fileLen := by omega
  exact ⟨rfl, rfl, hs.dataEffect (hs.moved (o.pos + (slice content o.pos size).length)) (hs.bears.of_inode rfl) hend⟩

theorem SharedHandle.wp_truncate (newSize : ℕ) (hs : SharedHandle s live h content)
    (hgrow : h.inode.fileLen < newSize → GrowsInPlace s h newSize ∧ ZerosTo s h newSize) :
    wp (SimpleFlashFs.truncate h newSize) (fun r t => r.1 = true → SharedHandle t live r.2 (resize content newSize))
      (fun _ _ => True) s := by
  have hl := hs.sound.head
  apply wp_mono (wp_and (wp_truncate_bears hs.sound.ready hl.toOwns hs.bears hs.pos_le hgrow)
    ((safe_truncate newSize).wp hs.sound.ready hl.toOwns))
  · rintro r t ⟨hr, e⟩ hok
    exact hs.dataEffect e (hr hok).1 (hr hok).2
  · exact fun _ _ _ => trivial

theorem Shows.opener (hs : Shows s live f b) (i : ℕ) : f.opener i = b.opener i := by
  rw [OpenFile.opener, SharedBytes.opener, hs.openers]

-- the handle of the drive is there where an opener is
theorem Shows.held (hs : Shows s live f b) {i : ℕ} (ho : f.opener i = some o) :
    ∃ h, f.shared = some h ∧ SharedHandle s live h b.content := by
  cases hh : f.shared with
  | none =>
    rw [hs.gone hh i] at ho
    cases ho
  | some h => exact ⟨h, rfl, hs.shared h hh⟩

theorem Shows.put (hs : Shows s live f b) {i : ℕ} (o' : Opener) {content' : List UInt8} (hk : SharedHandle t live k content') :
    Shows t live (f.put i o' k) ({ b with content := content' }.setOpener i (some o')) where
  openers := by rw [OpenFile.put, SharedBytes.setOpener, hs.openers]
  opened hnil := hs.opened ((List.set_eq_nil_iff ..).mp hnil)
  shared h hh := by
    obtain rfl := Option.some_inj.mp hh
    exact hk
  gone hh := by cases hh

theorem SharedHandle.newOpener {openers : List (Option Opener)} (hs : SharedHandle s live h content) (he : f.openers = openers)
    (mode : OpenMode) : Shows s live (f.newOpener h mode) { content := content, openers := openers ++
      [some { pos := if mode.ate then content.length else 0, append := mode.app }] } where
  openers := by rw [OpenFile.newOpener, he, hs.bears.length]
  opened hnil := by simp [OpenFile.newOpener] at hnil
  shared k hk := by
    obtain rfl := Option.some_inj.mp hk
    exact hs
  gone hk := by cases hk

theorem Shows.wp_open {mode : OpenMode} (hs : Shows s live f b) (ho : (FileOp.open mode).InOrder s f) :
    wp (f.openPath name mode) (fun r t => r.2 = (b.openPath mode).2 ∧ Shows t live r.1 (b.openPath mode).1)
      (fun _ _ => True) s := by
  cases hh : f.shared with
  | none =>
    rcases ho with ho | ho
    · rw [hh] at ho
      cases ho
    · exact absurd ho hs.opened
  | some h =>
    have hshared := hs.shared h hh
    rw [OpenFile.openPath, hh, SharedBytes.openPath]
    dsimp only
    cases ht : mode.trunc with
    | false =>
      rw [whenNeeded, if_neg Bool.false_ne_true, wp_bind, wp_pure]
      exact ⟨rfl, hshared.newOpener hs.openers mode⟩
    | true =>
      rw [whenNeeded, if_pos rfl, wp_bind]
      apply wp_mono (wp_and (hshared.wp_truncate 0 fun hlt => absurd hlt (Nat.not_lt_zero _))
        (wp_truncate_done hshared.connected (Nat.zero_le _)))
      · rintro r t ⟨hr, hok⟩
        have hcut := hr hok
        rw [resize_of_le (Nat.zero_le _), List.take_zero] at hcut
        exact ⟨rfl, hcut.newOpener hs.openers mode⟩
      · exact fun _ _ _ => trivial

theorem Shows.wp_close {i : ℕ} (hs : Shows s live f b) :
    wp (f.close i) (fun r t => r.2 = .done true ∧ Shows t live r.1 (b.setOpener i none)) (fun _ _ => True) s := by
  have hopened : f.openers.set i none ≠ [] := fun hnil => hs.opened ((List.set_eq_nil_iff ..).mp hnil)
  have hopeners : f.openers.set i none = (b.setOpener i none).openers := by rw [SharedBytes.setOpener, hs.openers]
  rw [OpenFile.close]
  cases hh : f.shared with
  | none =>
    refine ⟨rfl, hopeners, hopened, fun h hk => ?_, fun _ j => ?_⟩
    · cases hk
    · have hgone := hs.gone hh j
      rw [OpenFile.opener] at hgone ⊢
      dsimp only
      rw [List.getElem?_set]
      split
      · split <;> rfl
      · exact hgone
  | some h =>
    rw [wp_ite]
    constructor
    · intro _
      exact ⟨rfl, hopeners, hopened, fun k hk => hs.shared k (hh.trans hk), fun hk => by cases hk⟩
    · intro hnone
      rw [wp_bind]
      apply wp_run
      · intro _ t _
        refine ⟨rfl, hopeners, hopened, fun k hk => ?_, fun _ j => ?_⟩
        · cases hk
        rw [OpenFile.opener]
        dsimp only
        cases hj : (f.openers.set i none)[j]? with
        | none => rfl
        | some o =>
          rw [Bool.not_eq_true, List.any_eq_false] at hnone
          have := hnone o (List.mem_of_getElem? hj)
          simpa using this
      · exact fun _ _ _ => trivial

theorem Shows.wp_step (op : FileOp) (hs : Shows s live f b) (ho : op.InOrder s f) :
    wp (f.step name op) (fun r t => r.2 = (b.step op).2 ∧ Shows t live r.1 (b.step op).1 ∨ r.2.GaveUp (b.step op).2)
      (fun _ _ => True) s := by
  cases op with
  | «open» mode =>
    exact wp_mono (hs.wp_open ho) (fun _ _ h => Or.inl h) fun _ _ h => h
  | close i => exact wp_mono hs.wp_close (fun _ _ h => Or.inl h) fun _ _ h => h
  | write i data =>
    simp only [OpenFile.step, SharedBytes.step, ← hs.opener]
    cases hi : f.opener i with
    | none =>
      cases f.shared <;> exact Or.inl ⟨rfl, hs⟩
    | some o =>
      obtain ⟨h, hh, hshared⟩ := hs.held hi
      have hlen := hshared.bears.length
      have htarget : o.target h = if o.append then b.content.length else o.pos := by rw [Opener.target, hlen]
      rw [hh]
      dsimp only
      rw [wp_bind, ← htarget]
      apply wp_mono (hshared.wp_write (ho h hh o hi))
      · rintro ⟨n, o', k⟩ t hw
        by_cases hn : n = data.length
        · obtain ⟨ho', hk⟩ := hw hn
          dsimp only at ho' hk ⊢
          left
          rw [ho', hn]
          exact ⟨rfl, hs.put _ hk⟩
        · exact Or.inr (.written hn)
      · exact fun _ _ h => h
  | read i size =>
    simp only [OpenFile.step, SharedBytes.step, ← hs.opener]
    cases hi : f.opener i with
    | none =>
      cases f.shared <;> exact Or.inl ⟨rfl, hs⟩
    | some o =>
      obtain ⟨h, hh, hshared⟩ := hs.held hi
      rw [hh]
      dsimp only
      rw [wp_bind]
      apply wp_mono (hshared.wp_read (ho h hh o hi))
      · rintro ⟨bytes, o', k⟩ t ⟨hb, ho', hk⟩
        dsimp only at hb ho' hk ⊢
        left
        rw [hb, ho']
        exact ⟨rfl, hs.put _ hk⟩
      · exact fun _ _ h => h
  | seek i p =>
    simp only [OpenFile.step, SharedBytes.step, ← hs.opener]
    cases hi : f.opener i with
    | none =>
      cases f.shared <;> exact Or.inl ⟨rfl, hs⟩
    | some o =>
      obtain ⟨h, hh, hshared⟩ := hs.held hi
      rw [hh]
      exact Or.inl ⟨rfl, hs.put _ hshared⟩
  | truncate i newSize =>
    simp only [OpenFile.step, SharedBytes.step, ← hs.opener]
    cases hi : f.opener i with
    | none =>
      cases f.shared <;> exact Or.inl ⟨rfl, hs⟩
    | some o =>
      obtain ⟨h, hh, hshared⟩ := hs.held hi
      rw [hh]
      dsimp only
      rw [wp_bind, Opener.truncate, if_neg (not_not.mpr hshared.connected), wp_bind]
      apply wp_mono (hshared.wp_truncate newSize (ho h hh o hi))
      · rintro ⟨ok, k⟩ t ht
        cases ok with
        | false => exact Or.inr .notDone
        | true =>
          left
          refine ⟨rfl, ?_⟩
          have hput := hs.put (i := i) { o with pos := if o.pos > newSize then newSize else o.pos } (ht rfl)
          convert hput using 2
          simp only [true_and]
          split <;> rfl
      · exact fun _ _ h => h

theorem Shows.wp_run (ops : List FileOp) (hs : Shows s live f b)
    (ho : StepsWhile (fun s f op => op.InOrder s f) name ops f s) :
    wp (f.run name ops) (fun r t => Agree (Shows t live r.1 (b.run ops).1) r.2 (b.run ops).2) (fun _ _ => True) s := by
  induction ops generalizing s f b with
  | nil => exact .ended hs
  | cons op ops ih =>
    rw [OpenFile.run, SharedBytes.run, wp_bind]
    apply wp_mono (wp_and (hs.wp_step op ho.1) ho.2)
    · rintro ⟨f', r⟩ t ⟨hstep, hrest⟩
      rw [wp_bind]
      rcases hstep with ⟨hr, hs'⟩ | hgave
      · apply wp_mono (ih hs' hrest)
        · intro q u hq
          dsimp only at hr ⊢
          rw [hr]
          exact .same _ hq
        · exact fun _ _ h => h
      · exact Lib.wp_run (fun q u _ => .gaveUp _ _ hgave) fun _ _ _ => trivial
    · exact fun _ _ _ => trivial

end Run

section Store

variable [Config] {hd : Header} {N : ℕ} {s : Fs} {m : Store} {h : FileHandle} {name : List UInt8}

end Store

section Example

end Example

end SimpleFlashFs
