import Mathlib.Tactic.Common

namespace SimpleFlashFs.Lib

variable {ε σ α β : Type}

def wp (m : EStateM ε σ α) (Q : α → σ → Prop) (R : ε → σ → Prop) (s : σ) : Prop :=
  match m s with
  | .ok a t => Q a t
  | .error e t => R e t

instance (m : EStateM ε σ α) (Q : α → σ → Prop) (R : ε → σ → Prop) [∀ a t, Decidable (Q a t)] [∀ e t, Decidable (R e t)] (s : σ) :
    Decidable (wp m Q R s) :=
  match h : m s with
  | .ok a t => decidable_of_iff (Q a t) (by rw [wp, h])
  | .error e t => decidable_of_iff (R e t) (by rw [wp, h])

@[simp] theorem wp_pure (a : α) (Q : α → σ → Prop) (R : ε → σ → Prop) (s : σ) :
    wp (pure a) Q R s ↔ Q a s := Iff.rfl

@[simp] theorem wp_bind (m : EStateM ε σ α) (f : α → EStateM ε σ β) (Q : β → σ → Prop)
    (R : ε → σ → Prop) (s : σ) :
    wp (m >>= f) Q R s ↔ wp m (fun a t => wp (f a) Q R t) R s := by
  simp only [wp, bind, EStateM.bind]
  cases m s <;> rfl

@[simp] theorem wp_map (m : EStateM ε σ α) (f : α → β) (Q : β → σ → Prop)
    (R : ε → σ → Prop) (s : σ) :
    wp (f <$> m) Q R s ↔ wp m (fun a t => Q (f a) t) R s := by
  simp only [wp, Functor.map, EStateM.map]
  cases m s <;> rfl

@[simp] theorem wp_get (Q : σ → σ → Prop) (R : ε → σ → Prop) (s : σ) :
    wp (get : EStateM ε σ σ) Q R s ↔ Q s s := Iff.rfl

@[simp] theorem wp_set (t : σ) (Q : PUnit → σ → Prop) (R : ε → σ → Prop) (s : σ) :
    wp (set t : EStateM ε σ PUnit) Q R s ↔ Q ⟨⟩ t := Iff.rfl

@[simp] theorem wp_modify (f : σ → σ) (Q : PUnit → σ → Prop) (R : ε → σ → Prop) (s : σ) :
    wp (modify f : EStateM ε σ PUnit) Q R s ↔ Q ⟨⟩ (f s) := Iff.rfl

@[simp] theorem wp_throw (e : ε) (Q : α → σ → Prop) (R : ε → σ → Prop) (s : σ) :
    wp (throw e : EStateM ε σ α) Q R s ↔ R e s := Iff.rfl

theorem wp_ite (c : Prop) [Decidable c] (m n : EStateM ε σ α) (Q : α → σ → Prop)
    (R : ε → σ → Prop) (s : σ) :
    wp (if c then m else n) Q R s ↔ (c → wp m Q R s) ∧ (¬ c → wp n Q R s) := by
  by_cases hc : c <;> simp [hc]

theorem wp_mono {m : EStateM ε σ α} {Q Q' : α → σ → Prop} {R R' : ε → σ → Prop} {s : σ}
    (h : wp m Q R s) (hQ : ∀ a t, Q a t → Q' a t) (hR : ∀ e t, R e t → R' e t) :
    wp m Q' R' s := by
  unfold wp at h ⊢
  cases hm : m s with
  | ok a t => rw [hm] at h; exact hQ a t h
  | error e t => rw [hm] at h; exact hR e t h

theorem wp_and {m : EStateM ε σ α} {Q Q' : α → σ → Prop} {R R' : ε → σ → Prop} {s : σ}
    (h : wp m Q R s) (h' : wp m Q' R' s) :
    wp m (fun a t => Q a t ∧ Q' a t) (fun e t => R e t ∧ R' e t) s := by
  unfold wp at h h' ⊢
  cases hm : m s with
  | ok a t => rw [hm] at h h'; exact ⟨h, h'⟩
  | error e t => rw [hm] at h h'; exact ⟨h, h'⟩

theorem wp_ok {m : EStateM ε σ α} {Q : α → σ → Prop} {R : ε → σ → Prop} {s t : σ} {a : α}
    (h : wp m Q R s) (hm : m s = .ok a t) : Q a t := by
  unfold wp at h
  rw [hm] at h
  exact h

theorem wp_error {m : EStateM ε σ α} {Q : α → σ → Prop} {R : ε → σ → Prop} {s t : σ} {e : ε}
    (h : wp m Q R s) (hm : m s = .error e t) : R e t := by
  unfold wp at h
  rw [hm] at h
  exact h

theorem wp_run {m : EStateM ε σ α} {Q : α → σ → Prop} {R : ε → σ → Prop} {s : σ}
    (hQ : ∀ a t, m s = .ok a t → Q a t) (hR : ∀ e t, m s = .error e t → R e t) :
    wp m Q R s := by
  unfold wp
  cases hm : m s with
  | ok a t => exact hQ a t hm
  | error e t => exact hR e t hm

theorem wp_of_eq {m : EStateM ε σ α} {Q : α → σ → Prop} {R : ε → σ → Prop} {s t : σ} {a : α} (hm : m s = .ok a t)
    (hQ : Q a t) : wp m Q R s := by
  unfold wp
  rw [hm]
  exact hQ

theorem returns_of_wp {m : EStateM ε σ α} {Q : α → σ → Prop} {s : σ} (h : wp m Q (fun _ _ => False) s) :
    ∃ a t, m s = .ok a t ∧ Q a t := by
  unfold wp at h
  cases hm : m s with
  | ok a t =>
    rw [hm] at h
    exact ⟨a, t, rfl, h⟩
  | error e t =>
    rw [hm] at h
    exact h.elim

-- the outcome of a run that can be evaluated
def passes (m : EStateM ε σ α) (test : α → σ → Bool) (s : σ) : Bool :=
  match m s with
  | .ok a t => test a t
  | .error _ _ => false

theorem returns_of_passes {m : EStateM ε σ α} {test : α → σ → Bool} {s : σ} (h : passes m test s = true) :
    ∃ a t, m s = .ok a t ∧ test a t = true := by
  unfold passes at h
  split at h
  · next a t hm => exact ⟨a, t, hm, h⟩
  · cases h

theorem ok_of_any {r : Except ε α} {test : α → Bool} (h : r.toOption.any test = true) : ∃ a, r = .ok a ∧ test a = true := by
  cases r with
  | error e => cases h
  | ok a => exact ⟨a, rfl, h⟩

def each (m : α → EStateM ε σ PUnit) : List α → EStateM ε σ PUnit
  | [] => pure ⟨⟩
  | a :: r => do
    m a
    each m r

theorem wp_each {m : α → EStateM ε σ PUnit} {R : ε → σ → Prop} (I : List α → σ → Prop)
    (l : List α) (s : σ) (h0 : I l s)
    (hstep : ∀ a r t, I (a :: r) t → wp (m a) (fun _ u => I r u) R t) :
    wp (each m l) (fun _ t => I [] t) R s := by
  induction l generalizing s with
  | nil => exact h0
  | cons a r ih =>
    rw [each, wp_bind]
    exact wp_mono (hstep a r s h0) (fun _ t ht => ih t ht) (fun _ _ h => h)

theorem bind_of_ok {m : EStateM ε σ α} {f : α → EStateM ε σ β} {s t : σ} {a : α} (h : m s = .ok a t) :
    (m >>= f) s = f a t := by
  simp only [bind, EStateM.bind, h]

theorem bind_congr_left {m n : EStateM ε σ α} {f : α → EStateM ε σ β} {s : σ} (h : m s = n s) :
    (m >>= f) s = (n >>= f) s := by
  simp only [bind, EStateM.bind, h]

-- two bodies that agree on every state that the loop comes to
theorem each_congr {m n : α → EStateM ε σ PUnit} {I : σ → Prop} {l : List α} {s : σ} (hs : I s)
    (heq : ∀ a ∈ l, ∀ t, I t → m a t = n a t) (hkeep : ∀ a ∈ l, ∀ t, I t → wp (n a) (fun _ u => I u) (fun _ _ => True) t) :
    each m l s = each n l s := by
  induction l generalizing s with
  | nil => rfl
  | cons a r ih =>
    have hrest : ∀ t, I t → each m r t = each n r t := fun t ht => ih ht
      (fun b hb => heq b (List.mem_cons_of_mem a hb)) fun b hb => hkeep b (List.mem_cons_of_mem a hb)
    have hk := hkeep a List.mem_cons_self s hs
    simp only [each, bind, EStateM.bind]
    rw [heq a List.mem_cons_self s hs]
    cases hn : n a s with
    | error e t => rfl
    | ok b t => exact hrest t (wp_ok hk hn)

end SimpleFlashFs.Lib
