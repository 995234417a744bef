import Mathlib.Tactic.Common

namespace SimpleFlashFs.Lib

variable {σ τ Op Ans : Type}

-- what an object answers to a sequence of operations, and the state it ends in
def answers (step : σ → Op → Ans × σ) (s : σ) : List Op → List Ans × σ
  | [] => ([], s)
  | op :: ops =>
    let r := step s op
    let rest := answers step r.2 ops
    (r.1 :: rest.1, rest.2)

-- every operation is asked for in a state that permits it
def Permitted (step : σ → Op → Ans × σ) (pre : σ → Op → Prop) (s : σ) : List Op → Prop
  | [] => True
  | op :: ops => pre s op ∧ Permitted step pre (step s op).2 ops

instance instDecidablePermitted {step : σ → Op → Ans × σ} {pre : σ → Op → Prop} [∀ s op, Decidable (pre s op)] :
    (s : σ) → (ops : List Op) → Decidable (Permitted step pre s ops)
  | _, [] => inferInstanceAs (Decidable True)
  | s, op :: ops =>
    have : Decidable (Permitted step pre (step s op).2 ops) := instDecidablePermitted (step s op).2 ops
    inferInstanceAs (Decidable (pre s op ∧ Permitted step pre (step s op).2 ops))

-- the concrete object answers as the abstract one, and stays related to it
structure Simulates (cstep : σ → Op → Ans × σ) (astep : τ → Op → Ans × τ) (pre : τ → Op → Prop)
    (R : σ → τ → Prop) : Prop where
  answer : ∀ s a op, R s a → pre a op → (cstep s op).1 = (astep a op).1
  related : ∀ s a op, R s a → pre a op → R (cstep s op).2 (astep a op).2

theorem Simulates.answers_eq {cstep : σ → Op → Ans × σ} {astep : τ → Op → Ans × τ} {pre : τ → Op → Prop}
    {R : σ → τ → Prop} (h : Simulates cstep astep pre R) (ops : List Op) {s : σ} {a : τ} (hr : R s a)
    (hp : Permitted astep pre a ops) :
    (answers cstep s ops).1 = (answers astep a ops).1 ∧ R (answers cstep s ops).2 (answers astep a ops).2 := by
  induction ops generalizing s a with
  | nil => exact ⟨rfl, hr⟩
  | cons op ops ih =>
    obtain ⟨hop, hops⟩ := hp
    obtain ⟨hans, hrel⟩ := ih (h.related s a op hr hop) hops
    refine ⟨?_, hrel⟩
    rw [answers, answers, h.answer s a op hr hop, hans]

end SimpleFlashFs.Lib
