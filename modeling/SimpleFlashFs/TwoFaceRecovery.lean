import SimpleFlashFs.TwoFace
import Mathlib.Logic.Function.Basic

namespace SimpleFlashFs.TwoFace

-- the banks at power off
abbrev Flash := Side → Bank

-- the writes and erases of a bank that reach the flash; a data page shows in no file
inductive FlashStep
  | data (side : Side)
  | commit (side : Side) (f : File)
  | erase (side : Side)
  | header (side : Side)
deriving DecidableEq, Repr

def Flash.step (flash : Flash) : FlashStep → Flash
  | .data _ => flash
  | .commit side f => Function.update flash side ((flash side).commit f)
  | .erase side => Function.update flash side (flash side).erase
  | .header side => Function.update flash side { flash side with header := true }

def Flash.run (flash : Flash) (steps : List FlashStep) : Flash := steps.foldl Flash.step flash

-- a cut write of an inode page
def Bank.tear (b : Bank) (unreadable : Bool) : Bank := { b with unreadable := b.unreadable || unreadable }

-- whatever is left of the records, no header comes into being
structure PartlyErased (b b' : Bank) : Prop where
  mapped : b'.mapped = b.mapped
  header : b'.header = true → b.header = true

-- what a power loss in the middle of a step leaves; a page of data or a header that fails its CRC shows in nothing
inductive Cut (flash : Flash) : FlashStep → Flash → Prop
  | data (side : Side) : Cut flash (.data side) flash
  | commit (side : Side) (f : File) (unreadable : Bool) :
    Cut flash (.commit side f) (Function.update flash side ((flash side).tear unreadable))
  | erase (side : Side) {b : Bank} (hb : PartlyErased (flash side) b) : Cut flash (.erase side) (Function.update flash side b)
  | header (side : Side) : Cut flash (.header side) flash

-- the power is lost after n steps, or within the next one
inductive PowerLoss (flash : Flash) (steps : List FlashStep) (n : ℕ) : Flash → Prop
  | between : PowerLoss flash steps n (flash.run (steps.take n))
  | within {step : FlashStep} {f' : Flash} (hs : steps[n]? = some step) (hc : Cut (flash.run (steps.take n)) step f') :
    PowerLoss flash steps n f'

-- file by file; pages says how many data pages a file takes
def copySteps (side : Side) (pages : File → ℕ) : ℕ → List File → List FlashStep
  | _, [] => []
  | number, f :: rest =>
    List.replicate (pages f) (.data side) ++
      .commit side { name := f.name, content := f.content, number := number + 1 } ::
        copySteps side pages (number + 1) rest

def sealedFile (b : Bank) (number : ℕ) : File :=
  match b.find filesystemSealedFileName with
  | some f => { f with content := [], special := true, number := if f.number = 0 then number + 1 else f.number }
  | none => { name := filesystemSealedFileName, special := true, number := number + 1 }

def completedFile (number : ℕ) : File := { name := copyCompletedFileName, special := true, number := number }

-- max_inode_number after the seal
def sealedNumber (b : Bank) (number : ℕ) : ℕ :=
  match b.find filesystemSealedFileName with
  | some f => if f.number = 0 then number + 1 else number
  | none => number + 1

-- what cleanup writes, number is the max_inode_number of the active bank; both create functions erase
def cleanupSteps (pages : File → ℕ) (a : Side) (number : ℕ) (flash : Flash) : List FlashStep :=
  let files := (flash a).userFiles
  let first := sealedNumber (flash a) number + 1
  .commit a (sealedFile (flash a) number) :: .erase a.other :: .erase a.other :: .header a.other ::
    (copySteps a.other pages first files ++ [.commit a.other (completedFile (first + files.length + 1))])

-- users keep off the reserved names
def Bank.Unreserved (b : Bank) : Prop := ∀ f ∈ b.files, f.special = false → f.name ∉ reservedNames

-- it is mounted, and has the files of the bank c
structure KeptBank (b c : Bank) : Prop where
  header : b.header = true
  files : SameFiles b c
  named : b.Named

-- a mount returns
def Bank.Mounts (b : Bank) : Prop := b.header = true → b.mapped = true → b.unreadable = false

def FlashStep.side : FlashStep → Side
  | .data side => side
  | .commit side _ => side
  | .erase side => side
  | .header side => side

-- a step that makes no file of that name
def FlashStep.Keeps (name : List UInt8) : FlashStep → Prop
  | .data _ => True
  | .commit _ f => f.name ≠ name
  | _ => False

section Steps

variable {flash : Flash} {steps : List FlashStep} {a side : Side} {b : Bank} {f : File} {name : List UInt8} {number : ℕ}
  {pages : File → ℕ}

theorem run_append (flash : Flash) (l l' : List FlashStep) : flash.run (l ++ l') = (flash.run l).run l' :=
  List.foldl_append

theorem step_of_side {step : FlashStep} (h : step.side ≠ side) : flash.step step side = flash side := by
  cases step with
  | data x => rfl
  | commit x f => exact Function.update_of_ne h.symm _ _
  | erase x => exact Function.update_of_ne h.symm _ _
  | header x => exact Function.update_of_ne h.symm _ _

theorem step_header : flash.step (.header side) side = { flash side with header := true } := Function.update_self ..

theorem run_of_side (h : ∀ step ∈ steps, step.side ≠ side) : flash.run steps side = flash side := by
  induction steps generalizing flash with
  | nil => rfl
  | cons step rest ih =>
    refine (ih fun x hx => h x (List.mem_cons_of_mem _ hx)).trans ?_
    exact step_of_side (h step List.mem_cons_self)

theorem has_iff : b.has name = true ↔ name ∈ b.files.map (·.name) := by
  rw [Bank.has, List.any_eq_true, List.mem_map]
  simp only [decide_eq_true_eq]

theorem commit_names : (b.commit f).files.map (·.name) =
    if b.has f.name then b.files.map (·.name) else b.files.map (·.name) ++ [f.name] := by
  unfold Bank.commit
  dsimp only
  split
  · rw [List.map_map]
    apply List.map_congr_left
    intro g _
    by_cases hg : g.name = f.name
    · simp [hg]
    · simp [hg]
  · rw [List.map_append]
    rfl

theorem run_data (n : ℕ) : flash.run (List.replicate n (.data side)) = flash := by
  induction n with
  | zero => rfl
  | succ n ih => exact ih

theorem mem_copySteps {step : FlashStep} {files : List File} (h : step ∈ copySteps side pages number files) :
    step.side = side ∧ (step = .data side ∨ ∃ f ∈ files, ∃ g, step = .commit side g ∧ g.name = f.name) := by
  induction files generalizing number with
  | nil => cases h
  | cons f rest ih =>
    rw [copySteps] at h
    rcases List.mem_append.mp h with h | h
    · obtain rfl := List.eq_of_mem_replicate h
      exact ⟨rfl, Or.inl rfl⟩
    · rcases List.mem_cons.mp h with rfl | h
      · exact ⟨rfl, Or.inr ⟨f, List.mem_cons_self, _, rfl, rfl⟩⟩
      · obtain ⟨h1, h2⟩ := ih h
        exact ⟨h1, h2.imp_right fun ⟨g, hg, hrest⟩ => ⟨g, List.mem_cons_of_mem _ hg, hrest⟩⟩

theorem run_copySteps (pages : File → ℕ) (number : ℕ) {files : List File} (hnodup : (files.map (·.name)).Nodup)
    (hnew : ∀ f ∈ files, f.name ∉ (flash side).files.map (·.name)) :
    (flash.run (copySteps side pages number files) side).files.map File.shown =
      (flash side).files.map File.shown ++ files.map fun f => (f.name, f.content, false) := by
  induction files generalizing flash number with
  | nil => exact (List.append_nil _).symm
  | cons f rest ih =>
    obtain ⟨hf, hrest⟩ := List.nodup_cons.mp hnodup
    rw [copySteps, run_append, run_data]
    change (Flash.run (flash.step (.commit side _)) (copySteps side pages (number + 1) rest) side).files.map _ = _
    have hfiles : (flash.step (.commit side { name := f.name, content := f.content, number := number + 1 }) side).files =
        (flash side).files ++ [{ name := f.name, content := f.content, number := number + 1 }] := by
      rw [Flash.step, Function.update_self]
      exact Bank.commit_new (hnew f List.mem_cons_self)
    rw [ih _ hrest, hfiles, List.map_append, List.append_assoc]
    · rfl
    · intro g hg hm
      rw [hfiles, List.map_append, List.mem_append] at hm
      rcases hm with hm | hm
      · exact hnew g (List.mem_cons_of_mem _ hg) hm
      · have hgf : g.name = f.name := List.mem_singleton.mp hm
        have hmem : g.name ∈ rest.map (·.name) := List.mem_map_of_mem hg
        rw [hgf] at hmem
        exact hf hmem

end Steps

section Selection

variable {s : State} {flash : Flash} {a : Side} {o : Outcomes} {b : Bank}

theorem init_of_mounts (hm : b.Mounts) : ({ mem := b } : Component).init =
    some { mem := b, fs := if b.header then some b.maxInodeNumber else none } := by
  unfold Component.init
  cases hh : b.header with
  | false => rfl
  | true =>
    rw [if_neg (by simp), if_neg, if_pos rfl]
    rintro ⟨hmapped, hun⟩
    dsimp only at hmapped hun
    rw [hm hh hmapped] at hun
    cases hun

theorem init_eq_none : ({ mem := b } : Component).init = none ↔ ¬ b.Mounts := by
  constructor
  · intro h hm
    rw [init_of_mounts hm] at h
    cases h
  · intro hm
    simp only [Bank.Mounts, Classical.not_imp, Bool.not_eq_false] at hm
    obtain ⟨h1, h2, h3⟩ := hm
    simp [Component.init, h1, h2, h3]

-- both banks after their mounts
def mounted (flash : Flash) : State where
  c1 := { mem := flash .one, fs := if (flash .one).header then some (flash .one).maxInodeNumber else none }
  c2 := { mem := flash .two, fs := if (flash .two).header then some (flash .two).maxInodeNumber else none }

end Selection

-- the markers after completed cleanups
structure Marked (a : Side) (flash : Flash) : Prop where
  header : ∀ side, (flash side).header = true
  named : (flash a).Named
  unreserved : (flash a).Unreserved
  marks : (∀ side, (flash side).has copyCompletedFileName = false ∧ (flash side).has filesystemSealedFileName = false) ∧
      a = .two ∧ (flash .one).maxInodeNumber = 0 ∨
    (flash a).has copyCompletedFileName = true ∧ (flash a).has filesystemSealedFileName = false ∧
      (flash a.other).has filesystemSealedFileName = true

-- the active bank once it is sealed
structure SealedBank (b c : Bank) : Prop where
  header : c.header = b.header
  userFiles : c.userFiles = b.userFiles
  named : c.Named
  unreserved : c.Unreserved
  sealed : c.has filesystemSealedFileName = true
  copied : c.has copyCompletedFileName = b.has copyCompletedFileName

-- the other bank after some of the steps that follow its erase
structure Target (b c : Bank) (done : Bool) : Prop where
  header : c.header = true
  sealed : c.has filesystemSealedFileName = false
  copied : c.has copyCompletedFileName = done
  files : done = true → c.files.map File.shown =
    (b.userFiles.map fun f => (f.name, f.content, false)) ++ [(copyCompletedFileName, [], true)]

section Cleanup

variable {a : Side} {flash f' : Flash} {b : Bank} {number : ℕ} {pages : File → ℕ} {o : Outcomes}

theorem Bank.Named.commit (hn : b.Named) (f : File) : (b.commit f).Named := by
  rw [Bank.Named, commit_names]
  split
  · exact hn
  · next hno =>
    rw [has_iff] at hno
    refine List.nodup_append.mpr ⟨hn, List.nodup_singleton _, fun x hx y hy hxy => ?_⟩
    rw [List.mem_singleton.mp hy] at hxy
    exact hno (hxy ▸ hx)

theorem Bank.Unreserved.commit {f : File} (hu : b.Unreserved) (hf : f.special = false → f.name ∉ reservedNames) :
    (b.commit f).Unreserved := by
  intro g hg hs
  unfold Bank.commit at hg
  dsimp only at hg
  split at hg
  · obtain ⟨x, hx, he⟩ := List.mem_map.mp hg
    split at he
    · subst he
      exact hf hs
    · subst he
      exact hu x hx hs
  · rcases List.mem_append.mp hg with hg | hg
    · exact hu g hg hs
    · obtain rfl := List.mem_singleton.mp hg
      exact hf hs

theorem Bank.Unreserved.userFiles (hu : b.Unreserved) {f : File} (hf : f ∈ b.userFiles) : f.name ∉ reservedNames := by
  obtain ⟨hmem, hs⟩ := List.mem_filter.mp hf
  exact hu f hmem (by simpa using hs)

theorem Bank.Unreserved.hasUser (hu : b.Unreserved) {name : List UInt8} (hn : name ∈ reservedNames) :
    b.hasUser name = false := by
  refine List.any_eq_false.mpr fun f hf => ?_
  rw [decide_eq_true_eq]
  rintro rfl
  exact hu.userFiles hf hn

-- the steps after the header of the other bank
def restSteps (pages : File → ℕ) (a : Side) (number : ℕ) (flash : Flash) : List FlashStep :=
  copySteps a.other pages (sealedNumber (flash a) number + 1) (flash a).userFiles ++
    [.commit a.other (completedFile (sealedNumber (flash a) number + 1 + (flash a).userFiles.length + 1))]

-- the flash when bank a is sealed and the other bank erased
def emptied (a : Side) (number : ℕ) (flash : Flash) : Flash :=
  (flash.step (.commit a (sealedFile (flash a) number))).step (.erase a.other)

-- the flash when the other bank has got its new header
def recreated (a : Side) (number : ℕ) (flash : Flash) : Flash :=
  ((emptied a number flash).step (.erase a.other)).step (.header a.other)

theorem other_ne : a.other ≠ a := by
  cases a <;> decide

theorem eq_other {side : Side} (h : side ≠ a) : side = a.other := by
  revert h
  cases side <;> cases a <;> decide

theorem emptied_self : emptied a number flash a = (flash a).commit (sealedFile (flash a) number) := by
  have hne : (FlashStep.erase a.other).side ≠ a := other_ne
  rw [emptied, step_of_side hne, Flash.step, Function.update_self]

theorem emptied_other : emptied a number flash a.other = (flash a.other).erase := by
  have hstep : flash.step (.commit a (sealedFile (flash a) number)) a.other = flash a.other := step_of_side other_ne.symm
  rw [emptied, ← hstep]
  exact Function.update_self ..

theorem recreated_self : recreated a number flash a = (flash a).commit (sealedFile (flash a) number) := by
  have hne : (FlashStep.header a.other).side ≠ a := other_ne
  have hne' : (FlashStep.erase a.other).side ≠ a := other_ne
  rw [recreated, step_of_side hne, step_of_side hne', emptied_self]

theorem recreated_other : recreated a number flash a.other = { (flash a.other).erase with header := true } := by
  have herase : (emptied a number flash).step (.erase a.other) a.other = (emptied a number flash a.other).erase :=
    Function.update_self ..
  rw [recreated, step_header, herase, emptied_other]
  rfl

theorem restSteps_side : ∀ step ∈ restSteps pages a number flash, step.side = a.other := by
  intro step h
  rcases List.mem_append.mp h with h | h
  · exact (mem_copySteps h).1
  · rw [List.mem_singleton.mp h]
    rfl

-- the copies of all the files, before COPY_COMPLETED
def filled (pages : File → ℕ) (a : Side) (number : ℕ) (flash : Flash) : Flash :=
  (recreated a number flash).run (copySteps a.other pages (sealedNumber (flash a) number + 1) (flash a).userFiles)

theorem filled_files (pages : File → ℕ) (number : ℕ) (hn : (flash a).Named) :
    (filled pages a number flash a.other).files.map File.shown = (flash a).userFiles.map fun f => (f.name, f.content, false) := by
  have hfiles := run_copySteps pages (sealedNumber (flash a) number + 1) (userFiles_nodup hn)
    (show ∀ f ∈ (flash a).userFiles, f.name ∉ (recreated a number flash a.other).files.map (·.name) by
      rw [recreated_other]
      exact fun _ _ h => by cases h)
  rwa [recreated_other, Bank.erase, List.map_nil, List.nil_append] at hfiles

theorem completed_new (hn : (flash a).Named) (hu : (flash a).Unreserved) :
    copyCompletedFileName ∉ (filled pages a number flash a.other).files.map (·.name) := by
  have hnames : (filled pages a number flash a.other).files.map (·.name) = (flash a).userFiles.map (·.name) := by
    have := congrArg (List.map (·.1)) (filled_files pages number hn)
    rwa [List.map_map, List.map_map] at this
  rw [hnames]
  intro hm
  obtain ⟨f, hf, he⟩ := List.mem_map.mp hm
  apply hu.userFiles hf
  rw [he]
  decide

theorem run_restSteps : (recreated a number flash).run (restSteps pages a number flash) =
    (filled pages a number flash).step
      (.commit a.other (completedFile (sealedNumber (flash a) number + 1 + (flash a).userFiles.length + 1))) := by
  rw [restSteps, run_append]
  rfl

theorem Target.entries {b c : Bank} (h : Target b c true) : c.entries = b.entries := by
  have hb : b.entries = b.userFiles.map fun f => (f.name, f.content) := rfl
  rw [entries_eq, h.files rfl, hb]
  generalize b.userFiles = l
  induction l with
  | nil => rfl
  | cons f l ih => simpa using ih

theorem Target.named {b c : Bank} (h : Target b c true) (hn : b.Named) (hu : b.Unreserved) : c.Named := by
  have hnames : c.files.map (·.name) = b.userFiles.map (·.name) ++ [copyCompletedFileName] := by
    have := congrArg (List.map (·.1)) (h.files rfl)
    rwa [List.map_map, List.map_append, List.map_map] at this
  rw [Bank.Named, hnames]
  refine List.nodup_append.mpr ⟨userFiles_nodup hn, List.nodup_singleton _, fun x hx y hy hxy => ?_⟩
  obtain ⟨f, hf, rfl⟩ := List.mem_map.mp hx
  refine hu.userFiles hf ?_
  rw [hxy, List.mem_singleton.mp hy]
  decide

theorem Target.unreserved {b c : Bank} (h : Target b c true) (hu : b.Unreserved) : c.Unreserved := by
  intro g hg hs
  have hm : g.shown ∈ c.files.map File.shown := List.mem_map_of_mem hg
  rw [h.files rfl] at hm
  rcases List.mem_append.mp hm with hm | hm
  · obtain ⟨f, hf, he⟩ := List.mem_map.mp hm
    have hname : f.name = g.name := congrArg (·.1) he
    rw [← hname]
    exact hu.userFiles hf
  · have hspecial : g.special = true := congrArg (·.2.2) (List.mem_singleton.mp hm)
    rw [hspecial] at hs
    cases hs

theorem Target.tear {b c : Bank} {done : Bool} (h : Target b c done) (u : Bool) : Target b (c.tear u) done :=
  ⟨h.header, h.sealed, h.copied, h.files⟩

-- the banks when k of the steps after the header are done
structure Progress (a : Side) (flash f' : Flash) (done : Bool) : Prop where
  self : SealedBank (flash a) (f' a)
  target : Target (flash a) (f' a.other) done

theorem tear_false : b.tear false = b := by
  rw [Bank.tear, Bool.or_false]

theorem sameFiles_of_userFiles {b' : Bank} (h : b'.userFiles = b.userFiles) : SameFiles b' b := by
  intro entry
  rw [Bank.entries, Bank.entries, h]

theorem Marked.copied (hm : Marked a flash) : a = .one → (flash .one).has copyCompletedFileName = true := by
  rintro rfl
  rcases hm.marks with ⟨-, h, -⟩ | ⟨h, -⟩
  · cases h
  · exact h

-- the bank a is sealed
theorem SealedBank.kept {c : Bank} (hs : SealedBank b c) (hb : b.header = true) : KeptBank c b :=
  ⟨hs.header.trans hb, sameFiles_of_userFiles hs.userFiles, hs.named⟩

end Cleanup

def State.flash (s : State) : Flash := fun side => (s.get side).mem

section Runs

variable {s : State} {a side : Side} {o : Outcomes} {cap k number : ℕ} {c : Component} {flash : Flash} {files : List File}
  {pages : File → ℕ}

-- no write fails
structure Succeeds (o : Outcomes) (cap : ℕ) : Prop where
  sealPage : o.sealPage = true
  sealed : o.sealed = true
  header : o.header = true
  page : ∀ k, o.page k = true
  written : ∀ k j, cap ≤ o.written k j
  flushed : ∀ k, o.flushed k = true
  completedPage : o.completedPage = true
  completed : o.completed = true

theorem copyLoop_succeeds {written : ℕ → ℕ} (hw : ∀ j, cap ≤ written j) (left j : ℕ) (source : List UInt8) (h : Handle) :
    (copyLoop cap written left j source h).1 = true := by
  induction left generalizing j source h with
  | zero => rfl
  | succ left ih =>
    rw [copyLoop]
    dsimp only
    split
    · rfl
    · have hn : min (written j) (source.take cap).length = (source.take cap).length := by
        have := hw j
        rw [List.length_take]
        omega
      rw [if_pos hn]
      exact ih _ _ _

theorem sealFs_eq (ho : Succeeds o cap) (hc : c.fs = some number) : State.sealFs o c =
    some ⟨c.mem.commit (sealedFile c.mem number), some (sealedNumber c.mem number)⟩ := by
  unfold State.sealFs Component.openTrunc sealedFile sealedNumber
  rw [ho.sealPage, ho.sealed, if_pos rfl]
  cases c.mem.find filesystemSealedFileName with
  | none => simp [Component.close, Handle.markSpecial, hc]
  | some f =>
    by_cases hf : f.number = 0
    · simp [Component.close, Handle.markSpecial, hc, hf]
    · simp [Component.close, Handle.markSpecial, hc, hf]

theorem copyFiles_eq (ho : Succeeds o cap) (hcap : 0 < cap) (hnodup : (files.map (·.name)).Nodup)
    (hnew : ∀ f ∈ files, f.name ∉ c.mem.files.map (·.name)) (hc : c.fs = some number) (hflash : flash side = c.mem) :
    copyFiles o cap k files c =
      some (true, ⟨flash.run (copySteps side pages number files) side, some (number + files.length)⟩) := by
  induction files generalizing k c number flash with
  | nil =>
    obtain ⟨mem, fs⟩ := c
    obtain rfl := hc
    obtain rfl := hflash
    rfl
  | cons f rest ih =>
    obtain ⟨hf, hrest⟩ := List.nodup_cons.mp hnodup
    have hfirst := hnew f List.mem_cons_self
    have hok := copyLoop_succeeds (ho.written k) f.content.length 0 f.content ⟨{ name := f.name }, true⟩
    have hcontent := copyLoop_content hcap le_rfl hok
    have hfile : (copy cap (o.written k) f ⟨{ name := f.name }, true⟩).2.file = { name := f.name, content := f.content } := by
      rw [copy, copyLoop_file, hcontent]
      rfl
    have hmod : (copy cap (o.written k) f ⟨{ name := f.name }, true⟩).2.modified = true := copyLoop_modified rfl
    have hone : copyFile o cap k f c = some (true,
        ⟨c.mem.commit { name := f.name, content := f.content, number := number + 1 }, some (number + 1)⟩) := by
      rw [copyFile, openTrunc_new hfirst, ho.page, if_pos rfl]
      dsimp only
      rw [Component.close, if_pos hmod, hfile, ho.flushed, hc]
      exact congrArg some (Prod.ext hok rfl)
    have hnext : ∀ g ∈ rest, g.name ∉
        (c.mem.commit { name := f.name, content := f.content, number := number + 1 }).files.map (·.name) := by
      intro g hg hm
      have hfiles : (c.mem.commit { name := f.name, content := f.content, number := number + 1 }).files =
          c.mem.files ++ [{ name := f.name, content := f.content, number := number + 1 }] :=
        Bank.commit_new hfirst
      rw [hfiles, List.map_append, List.mem_append] at hm
      rcases hm with hm | hm
      · exact hnew g (List.mem_cons_of_mem _ hg) hm
      · have hgf : g.name = f.name := List.mem_singleton.mp hm
        have hmem : g.name ∈ rest.map (·.name) := List.mem_map_of_mem hg
        rw [hgf] at hmem
        exact hf hmem
    have hstep : flash.step (.commit side { name := f.name, content := f.content, number := number + 1 }) side =
        c.mem.commit { name := f.name, content := f.content, number := number + 1 } := by
      rw [Flash.step, Function.update_self, hflash]
    rw [copyFiles, hone]
    dsimp only
    rw [ih hrest hnext rfl hstep, copySteps, run_append, run_data, List.length_cons]
    have hadd : number + 1 + rest.length = number + (rest.length + 1) := by omega
    rw [hadd]
    rfl

-- a cleanup without a failed write makes exactly these steps
theorem cleanup_steps (ho : Succeeds o cap) (hcap : 0 < cap) (hs : OnlyValid s a) (hn : (s.get a).mem.Named)
    (hu : (s.get a).mem.Unreserved) (hnumber : (s.get a).fs = some number) (pages : File → ℕ) :
    ∃ t, s.cleanup o cap = some (true, t) ∧ t.active = a.other ∧ t.flash = s.flash.run (cleanupSteps pages a number s.flash) := by
  have hseal := sealFs_eq ho hnumber
  have hfiles := (sealFs_spec (o := o) hs.valid).2 _ hseal
  rw [sealedFiles_eq fun h => by rw [State.SealLoses, hu.hasUser (by decide)] at h; cases h.2] at hfiles
  have hcopy : copyFiles o cap 0 (s.get a).mem.userFiles ⟨{ (s.get a.other).mem.erase with header := true },
      some (sealedNumber (s.get a).mem number + 1)⟩ = some (true, ⟨filled pages a number s.flash a.other,
        some (sealedNumber (s.get a).mem number + 1 + (s.get a).mem.userFiles.length)⟩) :=
    copyFiles_eq ho hcap (userFiles_nodup hn) (fun _ _ h => by cases h) rfl recreated_other
  have hopen : Component.openTrunc ⟨filled pages a number s.flash a.other,
      some (sealedNumber (s.get a).mem number + 1 + (s.get a).mem.userFiles.length)⟩ copyCompletedFileName o.completedPage =
        some ⟨{ name := copyCompletedFileName }, true⟩ := by
    rw [openTrunc_new (completed_new hn hu), ho.completedPage]
    rfl
  set c : Component := ⟨(s.get a).mem.commit (sealedFile (s.get a).mem number), some (sealedNumber (s.get a).mem number)⟩
    with hc
  set done : Component := ⟨(filled pages a number s.flash a.other).commit
    (completedFile (sealedNumber (s.get a).mem number + 1 + (s.get a).mem.userFiles.length + 1)),
    some (sealedNumber (s.get a).mem number + 1 + (s.get a).mem.userFiles.length + 1)⟩ with hdone
  have hrun : s.cleanup o cap = some (true, { ((s.set a c).set a.other done).resetSide a with fs := some a.other }) := by
    rw [State.cleanup, hs.active, hs.inactive]
    dsimp only
    rw [hseal, ho.header]
    have hcreated : ((s.set a c).get a.other).create true = (true, ⟨{ (s.get a.other).mem.erase with header := true }, some 0⟩) := by
      rw [get_set_other]
      rfl
    have hfirst : c.fs.getD 0 = sealedNumber (s.get a).mem number := rfl
    dsimp only
    rw [hcreated, if_neg (by simp), hfiles.2, hfirst, hcopy]
    dsimp only
    rw [State.markCompleted, hopen]
    dsimp only
    rw [hdone, ho.completed]
    rfl
  have honly : OnlyValid ({ ((s.set a c).set a.other done).resetSide a with fs := some a.other } : State) a.other := by
    constructor
    · change ((((s.set a c).set a.other done).resetSide a).get a.other).valid = true
      rw [State.resetSide, get_set_other, get_set_self]
      rfl
    · change ((((s.set a c).set a.other done).resetSide a).get a.other.other).valid = false
      rw [other_other, State.resetSide, get_set_self]
      rfl
  refine ⟨_, hrun, honly.active, ?_⟩
  have hall : s.flash.run (cleanupSteps pages a number s.flash) = (recreated a number s.flash).run
      (restSteps pages a number s.flash) := rfl
  have hside : ∀ step ∈ restSteps pages a number s.flash, step.side ≠ a := by
    intro step h
    rw [restSteps_side step h]
    exact other_ne
  funext side
  rw [hall]
  change ((((s.set a c).set a.other done).resetSide a).get side).mem = _
  by_cases hself : side = a
  · rw [hself, run_of_side hside, recreated_self, mem_resetSide, get_set_of_other, get_set_self]
    rfl
  · obtain rfl := eq_other hself
    rw [run_restSteps, Flash.step, Function.update_self, mem_resetSide, get_set_self]
    rfl

end Runs

end SimpleFlashFs.TwoFace
