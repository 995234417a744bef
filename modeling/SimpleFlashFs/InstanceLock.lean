import SimpleFlashFs.TwoFace
import SimpleFlashFs.Lib.Wp

namespace SimpleFlashFs.H7TwoFace

open Lib TwoFace

-- H7TwoFaceImpl::File: whether fs_instance is set, and the handle: is it a valid one
structure File where
  fsInstance : Bool
  file : Option Bool := none
deriving DecidableEq, Repr

-- fs_impl: hasValue, and the file of the H7TwoFaceImpl that its storage holds; which memory interfaces are set,
-- and the calls of lock_unlock_instance_cb
structure Instance where
  mem1 : Bool
  mem2 : Bool
  hasValue : Bool := false
  file : Option File := none
  lockCalls : List Bool := []
deriving DecidableEq, Repr

abbrev InstanceM := EStateM Fault Instance

def lockUnlockInstanceCb (lock : Bool) : InstanceM Unit :=
  modify fun s => { s with lockCalls := s.lockCalls ++ [lock] }

-- ~File of the file in the storage; `reset` is that of the optional it points to
def destroyFile (reset : InstanceM Unit) : InstanceM Unit := do
  let s ← get
  match s.file with
  | none => pure ()
  | some f =>
    if f.fsInstance then do
      set { s with file := some { fsInstance := false, file := none } }
      reset
    else pure ()

-- ~H7TwoFaceImpl: its body, then the members
def destroyImpl (reset : InstanceM Unit) : InstanceM Unit := do
  lockUnlockInstanceCb false
  destroyFile reset

-- std::optional has no value any more when the destructor of the value runs
def resetWithin : ℕ → InstanceM Unit
  | 0 => throw .diverges
  | fuel + 1 => do
    let s ← get
    if s.hasValue then do
      set { s with hasValue := false }
      destroyImpl (resetWithin fuel)
    else pure ()

def reset : InstanceM Unit := resetWithin 2

-- ~AutoFreeFs
def freeFs (isDisabled : Bool) : InstanceM Unit := do
  let s ← get
  if isDisabled then pure ()
  else if s.hasValue then reset
  else pure ()

-- a block with an AutoFreeFs at its begin
def autoFreeFs {α : Type} (disabled : α → Bool) (block : InstanceM α) : InstanceM α := fun s =>
  match block s with
  | .ok a t => (do
      freeFs (disabled a)
      pure a : InstanceM α) t
  | .error e t => (do
      freeFs false
      throw e : InstanceM α) t

-- fs_impl.emplace( fs_mem1.value(), fs_mem2.value(), do_init ); init tells whether init returns true
def emplace (doInit init : Bool) : InstanceM Unit := do
  let s ← get
  if ¬ (s.mem1 ∧ s.mem2) then throw .thrown
  else
    reset
    if doInit ∧ ¬ init then throw .thrown
    else modify fun s => { s with hasValue := true, file := none }

def noFreeInodeLeft (mode : OpenMode) (freeInodes : ℕ) : Bool :=
  if mode.trunc ∧ freeInodes > 2 then false
  else if mode = { in_ := true } then false
  else decide (freeInodes ≤ 3)

-- H7TwoFaceImpl::open: the open of the filesystem throws, or returns a handle that is valid or not
def implOpen (opened : Option Bool) : InstanceM Bool := do
  modify fun s => { s with file := some { fsInstance := true } }
  match opened with
  | none => throw .thrown
  | some valid => do
    modify fun s => { s with file := some { fsInstance := true, file := some valid } }
    pure valid

-- what the filesystem does in a call
structure OpenOutcome where
  init : Bool
  freeInodes : ℕ
  opened : Option Bool
deriving DecidableEq, Repr

-- true: a handle is handed out
def openFile (name : List UInt8) (mode : OpenMode) (o : OpenOutcome) : InstanceM Bool :=
  if name ∈ reservedNames then pure false
  else do
    lockUnlockInstanceCb true
    let s ← get
    if s.hasValue then do
      lockUnlockInstanceCb false
      pure false
    else autoFreeFs id (do
      emplace true o.init
      if noFreeInodeLeft mode o.freeInodes then pure false else implOpen o.opened)

-- the calls that keep no instance; returns: the block ends without an exception
def briefly (doInit init returns : Bool) : InstanceM Unit := do
  lockUnlockInstanceCb true
  let s ← get
  if s.hasValue then lockUnlockInstanceCb false
  else do
    emplace doInit init
    autoFreeFs (fun _ => false) (if returns then pure () else throw .thrown)

def listFiles (init returns : Bool) : InstanceM Unit := briefly true init returns

def getStat (init returns : Bool) : InstanceM Unit := briefly true init returns

def recreate (returns : Bool) : InstanceM Unit := briefly false true returns

-- the deleter of a handle
def destroyHandle : InstanceM Unit := destroyFile reset

inductive Call
  | openFile (name : List UInt8) (mode : OpenMode) (o : OpenOutcome)
  | listFiles (init returns : Bool)
  | getStat (init returns : Bool)
  | recreate (returns : Bool)
  | destroyHandle
deriving DecidableEq, Repr

inductive Result
  | returned
  | handedOut
  | destroyed
  | threw
  | diverged
deriving DecidableEq, Repr

-- the instance, and whether the caller has a handle
structure World where
  inst : Instance
  handle : Bool := false
deriving DecidableEq, Repr

structure Event where
  result : Result
  lockCalls : List Bool
deriving DecidableEq, Repr

def settle (handle : Bool) : EStateM.Result Fault Instance Result → Event × World
  | .ok r t => (⟨r, t.lockCalls⟩, ⟨t, if r = .handedOut then true else if r = .destroyed then false else handle⟩)
  | .error .thrown t => (⟨.threw, t.lockCalls⟩, ⟨t, handle⟩)
  | .error _ t => (⟨.diverged, t.lockCalls⟩, ⟨t, handle⟩)

-- a handle is destroyed once
def Call.run (handle : Bool) : Call → InstanceM Result
  | .openFile name mode o => (fun handed => if handed then .handedOut else .returned) <$> H7TwoFace.openFile name mode o
  | .listFiles init returns => (fun _ => .returned) <$> H7TwoFace.listFiles init returns
  | .getStat init returns => (fun _ => .returned) <$> H7TwoFace.getStat init returns
  | .recreate returns => (fun _ => .returned) <$> H7TwoFace.recreate returns
  | .destroyHandle => if handle then (fun _ => .destroyed) <$> H7TwoFace.destroyHandle else pure .returned

def step (w : World) (call : Call) : Event × World := settle w.handle (call.run w.handle { w.inst with lockCalls := [] })

def run (w : World) : List Call → List (Event × World)
  | [] => []
  | call :: calls => step w call :: run (step w call).2 calls

def after (w : World) : List Call → World
  | [] => w
  | call :: calls => after (step w call).2 calls

def lockLog (r : List (Event × World)) : List Bool := r.flatMap fun x => x.1.lockCalls

-- fs_mem1 and fs_mem2 are set or not; nothing is open
def start (mem1 mem2 : Bool) : World := { inst := { mem1 := mem1, mem2 := mem2 } }

section Releasing

variable {s t : Instance} {α : Type}

-- the instance is given back: its destructor has called the callback once
structure Released (s t : Instance) : Prop where
  hasValue : t.hasValue = false
  lockCalls : t.lockCalls = s.lockCalls ++ [false]

-- however the file in it points back
theorem wp_reset (h : s.hasValue = true) {R : Fault → Instance → Prop} : wp reset (fun _ t => Released s t) R s := by
  obtain ⟨mem1, mem2, hasValue, file, lockCalls⟩ := s
  obtain rfl : hasValue = true := h
  cases file with
  | none => exact ⟨rfl, rfl⟩
  | some f =>
    obtain ⟨fsInstance, valid⟩ := f
    cases fsInstance with
    | false => exact ⟨rfl, rfl⟩
    | true => exact ⟨rfl, rfl⟩

theorem wp_reset_empty (h : s.hasValue = false) {R : Fault → Instance → Prop} : wp reset (fun _ t => t = s) R s := by
  obtain ⟨mem1, mem2, hasValue, file, lockCalls⟩ := s
  obtain rfl : hasValue = false := h
  rfl

theorem wp_freeFs (h : s.hasValue = true) {R : Fault → Instance → Prop} :
    wp (freeFs false) (fun _ t => Released s t) R s := by
  rw [freeFs, wp_bind, wp_get, if_neg (by decide), if_pos h]
  exact wp_reset h

theorem wp_freeFs_empty (h : s.hasValue = false) {R : Fault → Instance → Prop} : wp (freeFs false) (fun _ t => t = s) R s := by
  rw [freeFs, wp_bind, wp_get, if_neg (by decide), if_neg (by rw [h]; decide)]
  rfl

theorem wp_autoFreeFs {disabled : α → Bool} {block : InstanceM α} {Q : α → Instance → Prop} {R : Fault → Instance → Prop}
    (hb : wp block (fun a t => wp (freeFs (disabled a)) (fun _ u => Q a u) R t)
      (fun e t => wp (freeFs false) (fun _ u => R e u) R t) s) :
    wp (autoFreeFs disabled block) Q R s := by
  unfold wp at hb
  cases hrun : block s with
  | ok a t =>
    rw [hrun] at hb
    have hend : autoFreeFs disabled block s = (freeFs (disabled a) >>= fun _ => pure a : InstanceM α) t := by
      rw [autoFreeFs, hrun]
    have hw : wp (freeFs (disabled a) >>= fun _ => pure a : InstanceM α) Q R t := (wp_bind ..).mpr hb
    unfold wp at hw ⊢
    rw [hend]
    exact hw
  | error e t =>
    rw [hrun] at hb
    have hend : autoFreeFs disabled block s = (freeFs false >>= fun _ => throw e : InstanceM α) t := by
      rw [autoFreeFs, hrun]
    have hw : wp (freeFs false >>= fun _ => throw e : InstanceM α) Q R t := (wp_bind ..).mpr hb
    unfold wp at hw ⊢
    rw [hend]
    exact hw

-- the constructor of the instance does not come to its end
def EmplaceThrows (s : Instance) (doInit init : Bool) : Prop := (s.mem1 && s.mem2) = false ∨ doInit = true ∧ init = false

instance (s : Instance) (doInit init : Bool) : Decidable (EmplaceThrows s doInit init) := inferInstanceAs (Decidable (_ ∨ _))

theorem wp_emplace {doInit init : Bool} (h : s.hasValue = false) :
    wp (emplace doInit init) (fun _ t => ¬ EmplaceThrows s doInit init ∧ t = { s with hasValue := true, file := none })
      (fun e t => EmplaceThrows s doInit init ∧ e = .thrown ∧ t = s) s := by
  rw [emplace, wp_bind, wp_get, wp_ite]
  constructor
  · intro hmem
    exact ⟨Or.inl (by simpa using hmem), rfl, rfl⟩
  · intro hmem
    rw [wp_bind]
    apply wp_mono (wp_reset_empty h)
    · intro _ t ht
      rw [ht, wp_ite]
      constructor
      · rintro ⟨hinit, hno⟩
        exact ⟨Or.inr ⟨hinit, by simpa using hno⟩, rfl, rfl⟩
      · intro hinit
        refine ⟨?_, rfl⟩
        rintro (hno | ⟨hdo, hno⟩)
        · exact hmem fun hset => by simp [hset] at hno
        · exact hinit ⟨hdo, by rw [hno]; decide⟩
    · exact fun _ _ h => h

end Releasing

section Calls

variable {s : Instance} {w : World}

structure Unlocked (t : Instance) : Prop where
  hasValue : t.hasValue = false
  lockCalls : t.lockCalls = [true, false]

structure HandedOut (t : Instance) : Prop where
  hasValue : t.hasValue = true
  file : t.file = some { fsInstance := true, file := some true }
  lockCalls : t.lockCalls = [true]

theorem Released.unlocked {t u : Instance} (hr : Released t u) (hcalls : t.lockCalls = [true]) : Unlocked u where
  hasValue := hr.hasValue
  lockCalls := by rw [hr.lockCalls, hcalls]; rfl

-- how a call ends that hands out nothing: an exception of the constructor leaves the lock taken
def EndsLocked (s : Instance) (doInit init : Bool) (e : Fault) (t : Instance) : Prop :=
  e = .thrown ∧ (EmplaceThrows s doInit init ∧ t = { s with lockCalls := [true] } ∨ ¬ EmplaceThrows s doInit init ∧ Unlocked t)

theorem wp_briefly {doInit init returns : Bool} (h : s.hasValue = false) (hcalls : s.lockCalls = []) :
    wp (briefly doInit init returns) (fun _ t => ¬ EmplaceThrows s doInit init ∧ Unlocked t)
      (EndsLocked s doInit init) s := by
  rw [briefly, wp_bind, lockUnlockInstanceCb, wp_modify, wp_bind, wp_get, hcalls, List.nil_append, if_neg (by rw [h]; decide),
    wp_bind]
  apply wp_mono (wp_emplace (s := { s with lockCalls := [true] }) h)
  · intro _ t ht
    obtain ⟨hok, ht⟩ := ht
    have hreleased : ∀ u, Released t u → ¬ EmplaceThrows s doInit init ∧ Unlocked u := by
      intro u hu
      refine ⟨hok, hu.unlocked ?_⟩
      rw [ht]
    have hvalue : t.hasValue = true := by rw [ht]
    apply wp_autoFreeFs
    rw [wp_ite]
    constructor
    · intro _
      rw [wp_pure]
      exact wp_mono (wp_freeFs hvalue) (fun _ u hu => hreleased u hu) fun _ _ h => h
    · intro _
      rw [wp_throw]
      exact wp_mono (wp_freeFs hvalue) (fun _ u hu => ⟨rfl, Or.inr (hreleased u hu)⟩) fun _ _ h => h
  · intro e t ht
    obtain ⟨hthrows, he, ht⟩ := ht
    exact ⟨he, Or.inl ⟨hthrows, ht⟩⟩

-- while another instance is open
theorem wp_briefly_refused {doInit init returns : Bool} (h : s.hasValue = true) (hcalls : s.lockCalls = [])
    {R : Fault → Instance → Prop} :
    wp (briefly doInit init returns) (fun _ t => t = { s with lockCalls := [true, false] }) R s := by
  rw [briefly, wp_bind, lockUnlockInstanceCb, wp_modify, wp_bind, wp_get, hcalls, List.nil_append, if_pos h,
    lockUnlockInstanceCb, wp_modify]
  rfl

theorem wp_implOpen {opened : Option Bool} :
    wp (implOpen opened) (fun valid t => t = { s with file := some { fsInstance := true, file := some valid } })
      (fun e t => e = .thrown ∧ t = { s with file := some { fsInstance := true } }) s := by
  cases opened with
  | none => exact ⟨rfl, rfl⟩
  | some valid => rfl

theorem wp_openFile_reserved {name : List UInt8} {mode : OpenMode} {o : OpenOutcome} (hname : name ∈ reservedNames)
    {R : Fault → Instance → Prop} : wp (openFile name mode o) (fun handed t => handed = false ∧ t = s) R s := by
  rw [openFile, if_pos hname]
  exact ⟨rfl, rfl⟩

theorem wp_openFile_refused {name : List UInt8} {mode : OpenMode} {o : OpenOutcome} (hname : name ∉ reservedNames)
    (h : s.hasValue = true) (hcalls : s.lockCalls = []) {R : Fault → Instance → Prop} :
    wp (openFile name mode o) (fun handed t => handed = false ∧ t = { s with lockCalls := [true, false] }) R s := by
  rw [openFile, if_neg hname, wp_bind, lockUnlockInstanceCb, wp_modify, wp_bind, wp_get, hcalls, List.nil_append, if_pos h,
    lockUnlockInstanceCb, wp_bind, wp_modify]
  exact ⟨rfl, rfl⟩

theorem wp_openFile {name : List UInt8} {mode : OpenMode} {o : OpenOutcome} (hname : name ∉ reservedNames)
    (h : s.hasValue = false) (hcalls : s.lockCalls = []) :
    wp (openFile name mode o)
      (fun handed t => ¬ EmplaceThrows s true o.init ∧ if handed then HandedOut t else Unlocked t)
      (EndsLocked s true o.init) s := by
  rw [openFile, if_neg hname, wp_bind, lockUnlockInstanceCb, wp_modify, wp_bind, wp_get, hcalls, List.nil_append,
    if_neg (by rw [h]; decide)]
  apply wp_autoFreeFs
  rw [wp_bind]
  apply wp_mono (wp_emplace (s := { s with lockCalls := [true] }) h)
  · intro _ t ht
    obtain ⟨hok, ht⟩ := ht
    have hvalue : t.hasValue = true := by rw [ht]
    have hlock : t.lockCalls = [true] := by rw [ht]
    rw [wp_ite]
    constructor
    · intro _
      rw [wp_pure, id]
      exact wp_mono (wp_freeFs hvalue) (fun _ u hu => ⟨hok, hu.unlocked hlock⟩) fun _ _ h => h
    · intro _
      apply wp_mono wp_implOpen
      · intro valid u hu
        rw [hu]
        cases valid with
        | true => exact ⟨hok, hvalue, rfl, hlock⟩
        | false =>
          apply wp_mono (wp_freeFs (s := { t with file := some { fsInstance := true, file := some false } }) hvalue)
          · exact fun _ v hv => ⟨hok, hv.unlocked hlock⟩
          · exact fun _ _ h => h
      · intro e u hu
        obtain ⟨he, hu⟩ := hu
        rw [hu]
        apply wp_mono (wp_freeFs (s := { t with file := some { fsInstance := true } }) hvalue)
        · exact fun _ v hv => ⟨he, Or.inr ⟨hok, hv.unlocked hlock⟩⟩
        · exact fun _ _ h => h
  · intro e t ht
    obtain ⟨hthrows, he, ht⟩ := ht
    have hempty : t.hasValue = false := by
      rw [ht]
      exact h
    apply wp_mono (wp_freeFs_empty hempty)
    · intro _ u hu
      rw [hu]
      exact ⟨he, Or.inl ⟨hthrows, ht⟩⟩
    · exact fun _ _ h => h

theorem wp_destroyHandle (h : s.hasValue = true) (hfile : s.file = some { fsInstance := true, file := some true })
    {R : Fault → Instance → Prop} : wp destroyHandle (fun _ t => Released s t) R s := by
  rw [destroyHandle, destroyFile, wp_bind, wp_get, hfile]
  dsimp only
  rw [if_pos rfl, wp_bind, wp_set]
  apply wp_mono (wp_reset (s := { s with file := some { fsInstance := false, file := none } }) h)
  · exact fun _ t ht => ⟨ht.hasValue, ht.lockCalls⟩
  · exact fun _ _ h => h

end Calls

section Runs

variable {w : World} {call : Call}

-- the instance lives as long as the handle, and the file in it points back
structure Coupled (w : World) : Prop where
  hasValue : w.inst.hasValue = w.handle
  file : w.handle = true → w.inst.file = some { fsInstance := true, file := some true }

def Matched (e : Event) : Prop :=
  match e.result with
  | .handedOut => e.lockCalls = [true]
  | .destroyed => e.lockCalls = [false]
  | .returned => e.lockCalls = [true, false] ∨ e.lockCalls = []
  | .threw => e.lockCalls = [true, false] ∨ e.lockCalls = []
  | .diverged => False

def ConstructionFails (w : World) : Call → Prop
  | .openFile name _ o => name ∉ reservedNames ∧ w.handle = false ∧ EmplaceThrows w.inst true o.init
  | .listFiles init _ => w.handle = false ∧ EmplaceThrows w.inst true init
  | .getStat init _ => w.handle = false ∧ EmplaceThrows w.inst true init
  | .recreate _ => w.handle = false ∧ EmplaceThrows w.inst false true
  | .destroyHandle => False

def live (w : World) : ℕ := if w.handle then 1 else 0

structure StepSpec (w : World) (call : Call) (x : Event × World) : Prop where
  coupled : Coupled x.2
  matched : Matched x.1 ↔ ¬ ConstructionFails w call
  held : Matched x.1 → x.1.lockCalls.count true + live w = x.1.lockCalls.count false + live x.2

theorem settle_of_wp {handle : Bool} {m : InstanceM Result} {s : Instance} {P : Event × World → Prop}
    (h : wp m (fun r t => P (settle handle (.ok r t))) (fun e t => P (settle handle (.error e t))) s) :
    P (settle handle (m s)) := by
  unfold wp at h
  cases hm : m s with
  | ok r t =>
    rw [hm] at h
    exact h
  | error e t =>
    rw [hm] at h
    exact h

theorem Coupled.start (mem1 mem2 : Bool) : Coupled (start mem1 mem2) where
  hasValue := rfl
  file h := absurd h Bool.false_ne_true

theorem StepSpec.of_kept (hw : Coupled w) (hf : ¬ ConstructionFails w call) {calls : List Bool}
    (hcalls : calls = [true, false] ∨ calls = []) :
    StepSpec w call (⟨.returned, calls⟩, ⟨{ w.inst with lockCalls := calls }, w.handle⟩) where
  coupled := ⟨hw.hasValue, hw.file⟩
  matched := iff_of_true hcalls hf
  held _ := by
    have hcount : calls.count true = calls.count false := by
      rcases hcalls with rfl | rfl <;> rfl
    rw [hcount]
    rfl

theorem StepSpec.of_unlocked (hf : ¬ ConstructionFails w call) (hno : w.handle = false) {t : Instance} (ht : Unlocked t)
    {r : Result} (hr : r = .returned ∨ r = .threw) : StepSpec w call (⟨r, t.lockCalls⟩, ⟨t, false⟩) where
  coupled := ⟨ht.hasValue, fun h => absurd h Bool.false_ne_true⟩
  matched := by
    refine iff_of_true ?_ hf
    rcases hr with rfl | rfl
    · exact Or.inl ht.lockCalls
    · exact Or.inl ht.lockCalls
  held _ := by
    rw [ht.lockCalls, live, live, hno]
    rfl

theorem StepSpec.of_fails (hw : Coupled w) (hf : ConstructionFails w call) (hno : w.handle = false) :
    StepSpec w call (⟨.threw, [true]⟩, ⟨{ w.inst with lockCalls := [true] }, false⟩) := by
  have hlocked : ¬ Matched ⟨.threw, [true]⟩ := by
    rintro (h | h)
    · exact absurd h (by decide)
    · exact absurd h (by decide)
  constructor
  · exact ⟨hw.hasValue.trans hno, fun h => absurd h Bool.false_ne_true⟩
  · exact iff_of_false hlocked fun h => h hf
  · exact fun h => absurd h hlocked

theorem StepSpec.of_endsLocked (hw : Coupled w) (hno : w.handle = false) {doInit init : Bool} {e : Fault} {t : Instance}
    (hf : ConstructionFails w call ↔ EmplaceThrows w.inst doInit init)
    (h : EndsLocked { w.inst with lockCalls := [] } doInit init e t) : StepSpec w call (settle w.handle (.error e t)) := by
  obtain ⟨rfl, ⟨hthrows, rfl⟩ | ⟨hok, ht⟩⟩ := h
  · rw [hno]
    exact .of_fails hw (hf.mpr hthrows) hno
  · rw [hno]
    exact .of_unlocked (fun h => hok (hf.mp h)) hno ht (Or.inr rfl)

theorem StepSpec.briefly (hw : Coupled w) {doInit init returns : Bool}
    (hf : ConstructionFails w call ↔ w.handle = false ∧ EmplaceThrows w.inst doInit init) :
    StepSpec w call (settle w.handle
      (((fun _ => Result.returned) <$> H7TwoFace.briefly doInit init returns) { w.inst with lockCalls := [] })) := by
  apply settle_of_wp
  rw [wp_map]
  cases hhandle : w.handle with
  | true =>
    have hfine : ¬ ConstructionFails w call := by
      rw [hf, hhandle]
      exact fun h => absurd h.1 (by decide)
    apply wp_mono (wp_briefly_refused (s := { w.inst with lockCalls := [] }) (hw.hasValue.trans hhandle) rfl)
    · intro _ t ht
      have hkept : StepSpec w call (⟨.returned, [true, false]⟩, ⟨{ w.inst with lockCalls := [true, false] }, w.handle⟩) :=
        .of_kept hw hfine (Or.inl rfl)
      rw [hhandle] at hkept
      rw [ht]
      exact hkept
    · exact fun _ _ h => h
  | false =>
    have hthrows : ConstructionFails w call ↔ EmplaceThrows w.inst doInit init := hf.trans (and_iff_right hhandle)
    apply wp_mono (wp_briefly (s := { w.inst with lockCalls := [] }) (hw.hasValue.trans hhandle) rfl)
    · intro _ t ht
      exact .of_unlocked (fun h => ht.1 (hthrows.mp h)) hhandle ht.2 (Or.inl rfl)
    · intro e t ht
      rw [← hhandle]
      exact .of_endsLocked hw hhandle hthrows ht

theorem StepSpec.handedOut (hf : ¬ ConstructionFails w call) (hno : w.handle = false) {t : Instance} (ht : HandedOut t) :
    StepSpec w call (⟨.handedOut, t.lockCalls⟩, ⟨t, true⟩) where
  coupled := ⟨ht.hasValue, fun _ => ht.file⟩
  matched := iff_of_true ht.lockCalls hf
  held _ := by
    rw [ht.lockCalls, live, live, hno]
    rfl

theorem StepSpec.destroyed (hf : ¬ ConstructionFails w call) (hlive : w.handle = true) {t : Instance}
    (ht : Released { w.inst with lockCalls := [] } t) : StepSpec w call (⟨.destroyed, t.lockCalls⟩, ⟨t, false⟩) where
  coupled := ⟨ht.hasValue, fun h => absurd h Bool.false_ne_true⟩
  matched := iff_of_true ht.lockCalls hf
  held _ := by
    rw [ht.lockCalls, live, live, hlive]
    rfl

theorem constructionFails_openFile {name : List UInt8} {mode : OpenMode} {o : OpenOutcome} :
    ConstructionFails w (.openFile name mode o) ↔ name ∉ reservedNames ∧ w.handle = false ∧ EmplaceThrows w.inst true o.init :=
  Iff.rfl

theorem StepSpec.openFile (hw : Coupled w) (name : List UInt8) (mode : OpenMode) (o : OpenOutcome) :
    StepSpec w (.openFile name mode o) (step w (.openFile name mode o)) := by
  apply settle_of_wp
  rw [Call.run, wp_map]
  by_cases hname : name ∈ reservedNames
  · apply wp_mono (wp_openFile_reserved hname)
    · rintro _ t ⟨rfl, rfl⟩
      have hfine : ¬ ConstructionFails w (.openFile name mode o) := fun h => absurd hname (constructionFails_openFile.mp h).1
      exact .of_kept hw hfine (Or.inr rfl)
    · exact fun _ _ h => h
  · cases hhandle : w.handle with
    | true =>
      have hfine : ¬ ConstructionFails w (.openFile name mode o) := fun h => by
        have hno := (constructionFails_openFile.mp h).2.1
        rw [hhandle] at hno
        exact absurd hno (by decide)
      apply wp_mono (wp_openFile_refused (s := { w.inst with lockCalls := [] }) hname (hw.hasValue.trans hhandle) rfl)
      · rintro _ t ⟨rfl, rfl⟩
        have hkept : StepSpec w (.openFile name mode o)
            (⟨.returned, [true, false]⟩, ⟨{ w.inst with lockCalls := [true, false] }, w.handle⟩) :=
          .of_kept hw hfine (Or.inl rfl)
        rw [hhandle] at hkept
        exact hkept
      · exact fun _ _ h => h
    | false =>
      have hthrows : ConstructionFails w (.openFile name mode o) ↔ EmplaceThrows w.inst true o.init :=
        (and_iff_right hname).trans (and_iff_right hhandle)
      apply wp_mono (wp_openFile (s := { w.inst with lockCalls := [] }) hname (hw.hasValue.trans hhandle) rfl)
      · intro handed t ht
        have hfine : ¬ ConstructionFails w (.openFile name mode o) := fun h => ht.1 (hthrows.mp h)
        cases handed with
        | true => exact .handedOut hfine hhandle ht.2
        | false => exact .of_unlocked hfine hhandle ht.2 (Or.inl rfl)
      · intro e t ht
        rw [← hhandle]
        exact .of_endsLocked hw hhandle hthrows ht

theorem StepSpec.destroyHandle (hw : Coupled w) : StepSpec w .destroyHandle (step w .destroyHandle) := by
  have hfine : ¬ ConstructionFails w .destroyHandle := not_false
  apply settle_of_wp
  rw [Call.run]
  cases hhandle : w.handle with
  | true =>
    rw [if_pos rfl, wp_map]
    apply wp_mono (wp_destroyHandle (s := { w.inst with lockCalls := [] }) (hw.hasValue.trans hhandle) (hw.file hhandle))
    · exact fun _ t ht => .destroyed hfine hhandle ht
    · exact fun _ _ h => h
  | false =>
    rw [if_neg (by decide), wp_pure, ← hhandle]
    exact .of_kept hw hfine (Or.inr rfl)

theorem step_spec (hw : Coupled w) (call : Call) : StepSpec w call (step w call) := by
  cases call with
  | openFile name mode o => exact .openFile hw name mode o
  | listFiles init returns => exact .briefly hw Iff.rfl
  | getStat init returns => exact .briefly hw Iff.rfl
  | recreate returns => exact .briefly hw Iff.rfl
  | destroyHandle => exact .destroyHandle hw

def ConstructsAll (w : World) : List Call → Prop
  | [] => True
  | call :: calls => ¬ ConstructionFails w call ∧ ConstructsAll (step w call).2 calls

-- held: the callback( true ) of a live handle is the only one that is not matched yet
structure Balanced (w : World) (calls : List Call) : Prop where
  matched : ∀ x ∈ run w calls, Matched x.1
  held : (lockLog (run w calls)).count true + live w = (lockLog (run w calls)).count false + live (after w calls)
  empty : ∀ x ∈ run w calls, x.2.handle = false → x.2.inst.hasValue = false

theorem coupled_of_mem_run (hw : Coupled w) (calls : List Call) : ∀ x ∈ run w calls, Coupled x.2 := by
  induction calls generalizing w with
  | nil => exact fun _ h => absurd h List.not_mem_nil
  | cons call calls ih =>
    have hstep := step_spec hw call
    intro x hx
    rcases List.mem_cons.mp hx with rfl | hx
    · exact hstep.coupled
    · exact ih hstep.coupled x hx

theorem matched_run_iff (hw : Coupled w) (calls : List Call) :
    (∀ x ∈ run w calls, Matched x.1) ↔ ConstructsAll w calls := by
  induction calls generalizing w with
  | nil => exact iff_of_true (fun _ h => absurd h List.not_mem_nil) trivial
  | cons call calls ih =>
    have hstep := step_spec hw call
    rw [run, List.forall_mem_cons, ConstructsAll, hstep.matched, ih hstep.coupled]

theorem held_run (hw : Coupled w) (calls : List Call) (hmatched : ∀ x ∈ run w calls, Matched x.1) :
    (lockLog (run w calls)).count true + live w = (lockLog (run w calls)).count false + live (after w calls) := by
  induction calls generalizing w with
  | nil => rfl
  | cons call calls ih =>
    have hstep := step_spec hw call
    rw [run, List.forall_mem_cons] at hmatched
    have hhead := hstep.held hmatched.1
    have htail := ih hstep.coupled hmatched.2
    rw [run, after, lockLog, List.flatMap_cons, List.count_append, List.count_append]
    rw [lockLog] at htail
    omega

-- the instance is empty without a handle, also after a constructor that has thrown
theorem instance_empty (mem1 mem2 : Bool) (calls : List Call) :
    ∀ x ∈ run (start mem1 mem2) calls, x.2.handle = false → x.2.inst.hasValue = false :=
  fun x hx hno => (coupled_of_mem_run (Coupled.start mem1 mem2) calls x hx).hasValue.trans hno

theorem balanced_iff (mem1 mem2 : Bool) (calls : List Call) :
    Balanced (start mem1 mem2) calls ↔ ConstructsAll (start mem1 mem2) calls := by
  have hw := Coupled.start mem1 mem2
  constructor
  · exact fun h => (matched_run_iff hw calls).mp h.matched
  · intro h
    have hmatched := (matched_run_iff hw calls).mpr h
    exact ⟨hmatched, held_run hw calls hmatched, instance_empty mem1 mem2 calls⟩

theorem not_balanced_listFiles_failing_init : ¬ Balanced (start true true) [.listFiles false true] := by
  intro h
  have hheld : 1 = 0 := h.held
  exact absurd hheld (by decide)

end Runs

end SimpleFlashFs.H7TwoFace
