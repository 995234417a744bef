import Mathlib.Data.List.Basic
import Mathlib.Tactic.Common

namespace SimpleFlashFs.Lib

-- a program of atomic sections: what follows a section depends on its result
inductive Prog (A : Type → Type) (α : Type) : Type 1
  | done (a : α)
  | act {β : Type} (a : A β) (next : β → Prog A α)

namespace Prog

variable {A : Type → Type} {α β γ : Type}

def bind : Prog A α → (α → Prog A β) → Prog A β
  | done a, f => f a
  | act a next, f => act a fun b => (next b).bind f

instance : Monad (Prog A) where
  pure := done
  bind := bind

def one (a : A β) : Prog A β := act a done

def each (m : α → Prog A PUnit) : List α → Prog A PUnit
  | [] => pure ⟨⟩
  | a :: rest => do
    m a
    each m rest

-- the run without interruption
def alone {m : Type → Type} [Monad m] (sec : ∀ {β}, A β → m β) : Prog A α → m α
  | done a => pure a
  | act a next => sec a >>= fun b => (next b).alone sec

section Alone

variable {m : Type → Type} [Monad m] (sec : ∀ {β}, A β → m β)

@[simp] theorem alone_pure (a : α) : (pure a : Prog A α).alone sec = pure a := rfl

@[simp] theorem alone_ite (c : Prop) [Decidable c] (p q : Prog A α) :
    (if c then p else q).alone sec = if c then p.alone sec else q.alone sec := by
  split <;> rfl

variable [LawfulMonad m]

@[simp] theorem alone_one (a : A β) : (one a).alone sec = sec a := by
  change sec a >>= pure = sec a
  exact bind_pure (sec a)

@[simp] theorem alone_bind (p : Prog A α) (f : α → Prog A β) :
    (p >>= f).alone sec = p.alone sec >>= fun a => (f a).alone sec := by
  change (p.bind f).alone sec = _
  induction p with
  | done a => simp [bind, alone]
  | act a next ih =>
    simp only [bind, alone, bind_assoc]
    congr
    funext b
    exact ih b

end Alone

end Prog

-- atomic sections on a shared state, with private notes about each thread
structure Machine (A : Type → Type) (σ G : Type) where
  exec : ℕ → {β : Type} → A β → σ → Option (β × σ)
  note : {β : Type} → A β → β → G → G

structure Thread (A : Type → Type) (G ρ : Type) : Type 1 where
  prog : Prog A ρ
  note : G

structure Pool (A : Type → Type) (σ G ρ : Type) : Type 1 where
  shared : σ
  threads : List (Thread A G ρ)

namespace Pool

variable {A : Type → Type} {σ G ρ : Type}

def notes (c : Pool A σ G ρ) : List G := c.threads.map (·.note)

variable (M : Machine A σ G)

def after (c : Pool A σ G ρ) (i : ℕ) {β : Type} (a : A β) (next : β → Prog A ρ) (g : G) (r : β × σ) :
    Pool A σ G ρ where
  shared := r.2
  threads := c.threads.set i ⟨next r.1, M.note a r.1 g⟩

-- a condition on a step: thread, section, state and notes before it, its result and the state after it
abbrev Condition (A : Type → Type) (σ G : Type) : Type 1 :=
  ℕ → {β : Type} → A β → σ → List G → β → σ → Prop

-- the pools reached by any interleaving of steps that all meet the condition
inductive Reaches (ok : Condition A σ G) (c : Pool A σ G ρ) : Pool A σ G ρ → Prop
  | start : Reaches ok c c
  | step {d : Pool A σ G ρ} {i : ℕ} {β : Type} {a : A β} {next : β → Prog A ρ} {g : G} {r : β × σ}
    (h : Reaches ok c d) (ht : d.threads[i]? = some ⟨.act a next, g⟩) (he : M.exec i a d.shared = some r)
    (hc : ok i a d.shared d.notes r.1 r.2) : Reaches ok c (d.after M i a next g r)

end Pool

-- what a thread has to know before a section, and what it may assume of the result
structure Discipline (A : Type → Type) (G : Type) where
  pre : {β : Type} → A β → G → Prop
  post : {β : Type} → A β → G → β → Prop

namespace Prog

variable {A : Type → Type} {σ G α β : Type} (M : Machine A σ G) (D : Discipline A G)

def Keeps : Prog A α → (α → G → Prop) → G → Prop
  | done a, Q, g => Q a g
  | act a next, Q, g => D.pre a g ∧ ∀ b, D.post a g b → (next b).Keeps Q (M.note a b g)

variable {M D} {Q Q' : α → G → Prop} {g : G}

theorem Keeps.pure {a : α} (h : Q a g) : (Pure.pure a : Prog A α).Keeps M D Q g := h

theorem Keeps.one {a : A β} {Q : β → G → Prop} (hp : D.pre a g) (hq : ∀ b, D.post a g b → Q b (M.note a b g)) :
    (Prog.one a).Keeps M D Q g := ⟨hp, hq⟩

theorem Keeps.mono {p : Prog A α} (h : p.Keeps M D Q g) (hq : ∀ a g, Q a g → Q' a g) : p.Keeps M D Q' g := by
  induction p generalizing g with
  | done a => exact hq a g h
  | act a next ih => exact ⟨h.1, fun b hb => ih b (h.2 b hb)⟩

theorem Keeps.bind {p : Prog A α} {f : α → Prog A β} {R : β → G → Prop} (h : p.Keeps M D Q g)
    (hf : ∀ a g, Q a g → (f a).Keeps M D R g) : (p >>= f).Keeps M D R g := by
  change (p.bind f).Keeps M D R g
  induction p generalizing g with
  | done a => exact hf a g h
  | act a next ih => exact ⟨h.1, fun b hb => ih b (h.2 b hb)⟩

theorem Keeps.each {m : α → Prog A PUnit} {I : G → Prop} {l : List α} (h : I g)
    (hm : ∀ a ∈ l, ∀ g, I g → (m a).Keeps M D (fun _ => I) g) : (Prog.each m l).Keeps M D (fun _ => I) g := by
  induction l generalizing g with
  | nil => exact h
  | cons a l ih =>
    apply Keeps.bind (hm a List.mem_cons_self g h)
    intro _ g hg
    exact ih hg fun b hb => hm b (List.mem_cons_of_mem a hb)

end Prog

namespace Pool

variable {A : Type → Type} {σ G ρ : Type} {M : Machine A σ G} {D : Discipline A G} {ok : Condition A σ G}

theorem notes_after (c : Pool A σ G ρ) (i : ℕ) {β : Type} (a : A β) (next : β → Prog A ρ) (g : G) (r : β × σ) :
    (c.after M i a next g r).notes = c.notes.set i (M.note a r.1 g) := by
  rw [notes, notes, after, List.map_set]

def AllKeep (M : Machine A σ G) (D : Discipline A G) (Q : ℕ → ρ → G → Prop) (c : Pool A σ G ρ) : Prop :=
  ∀ (i : ℕ) (t : Thread A G ρ), c.threads[i]? = some t → t.prog.Keeps M D (Q i) t.note

-- what each section preserves, and each thread's program respects, holds in all interleavings
theorem Reaches.invariant {I : σ → List G → Prop} {Q : ℕ → ρ → G → Prop} {c d : Pool A σ G ρ}
    (hstep : ∀ {i : ℕ} {β : Type} {a : A β} {s t : σ} {l : List G} {g : G} {b : β}, I s l → l[i]? = some g →
      D.pre a g → M.exec i a s = some (b, t) → ok i a s l b t → D.post a g b ∧ I t (l.set i (M.note a b g)))
    (h0 : I c.shared c.notes) (hk : c.AllKeep M D Q) (hr : Reaches M ok c d) :
    I d.shared d.notes ∧ d.AllKeep M D Q := by
  induction hr with
  | start => exact ⟨h0, hk⟩
  | @step d i β a next g r hd ht he hc ih =>
    obtain ⟨hi, hkeep⟩ := ih
    obtain ⟨hpre, hnext⟩ := hkeep i _ ht
    have hg : d.notes[i]? = some g := by rw [notes, List.getElem?_map, ht]; rfl
    obtain ⟨hpost, ht'⟩ := hstep hi hg hpre he hc
    refine ⟨by rw [notes_after]; exact ht', fun j t hj => ?_⟩
    rw [after, List.getElem?_set] at hj
    split at hj
    · next heq =>
      subst heq
      split at hj
      · obtain rfl := Option.some_inj.mp hj
        exact hnext r.1 hpost
      · cases hj
    · exact hkeep j t hj

theorem Reaches.trans {c d e : Pool A σ G ρ} (h : Reaches M ok c d) (h' : Reaches M ok d e) : Reaches M ok c e := by
  induction h' with
  | start => exact h
  | step _ ht he hc ih => exact ih.step ht he hc

-- a schedule whose steps are checked one by one
def runChecked (M : Machine A σ G) (check : ℕ → {β : Type} → A β → σ → List G → β → σ → Bool) (c : Pool A σ G ρ) :
    List ℕ → Option (Pool A σ G ρ)
  | [] => some c
  | i :: rest =>
    match c.threads[i]? with
    | some ⟨.act a next, g⟩ =>
      match M.exec i a c.shared with
      | some r => if check i a c.shared c.notes r.1 r.2 then runChecked M check (c.after M i a next g r) rest else none
      | none => none
    | _ => none

theorem reaches_of_runChecked {check : ℕ → {β : Type} → A β → σ → List G → β → σ → Bool} {c d : Pool A σ G ρ}
    {l : List ℕ} (hok : ∀ {i : ℕ} {β : Type} {a : A β} {s t : σ} {n : List G} {b : β},
      check i a s n b t = true → ok i a s n b t) (h : runChecked M check c l = some d) : Reaches M ok c d := by
  induction l generalizing c with
  | nil =>
    obtain rfl := Option.some_inj.mp h
    exact .start
  | cons i rest ih =>
    rw [runChecked] at h
    split at h
    · next a next g ht =>
      split at h
      · next r he =>
        split at h
        · next hc => exact (Reaches.start.step ht he (hok hc)).trans (ih h)
        · cases h
      · cases h
    · cases h

end Pool

end SimpleFlashFs.Lib
