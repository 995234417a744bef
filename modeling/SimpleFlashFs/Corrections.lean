import Mathlib.Tactic.Linarith
import SimpleFlashFs.Decoder

namespace SimpleFlashFs

open Lib

section Arithmetic

variable {hd : Header}

-- an int that is stored in 64 bits
def wrapped (n : ℤ) : ℕ := (toInt32 n % 2 ^ 64).toNat

theorem toInt32_congr {a b : ℤ} (h : a % 2 ^ 32 = b % 2 ^ 32) : toInt32 a = toInt32 b := by
  have hmod : ∀ n : ℤ, toInt32 n = Int.bmod (n % (2 ^ 32 : ℕ)) (2 ^ 32) := fun n => (Int.emod_bmod n (2 ^ 32)).symm
  rw [hmod, hmod]
  exact congrArg (Int.bmod · (2 ^ 32)) (by simpa using h)

theorem toInt32_emod (n : ℤ) : toInt32 n % 2 ^ 32 = n % 2 ^ 32 := by
  have h := Int.emod_emod_of_dvd (Int.bmod n (2 ^ 32)) (dvd_refl ((2 ^ 32 : ℕ) : ℤ))
  have hb : Int.bmod n (2 ^ 32) % ((2 ^ 32 : ℕ) : ℤ) = n % ((2 ^ 32 : ℕ) : ℤ) := Int.bmod_emod
  simpa [toInt32] using hb

theorem toInt32_bounds (n : ℤ) : -2 ^ 31 ≤ toInt32 n ∧ toInt32 n < 2 ^ 31 := by
  unfold toInt32
  have h1 := Int.le_bmod (x := n) (m := 2 ^ 32) (by decide)
  have h2 := Int.bmod_lt (x := n) (m := 2 ^ 32) (by decide)
  omega

theorem toInt32_of_lt {n : ℕ} (h : n < 2 ^ 31) : toInt32 n = n := by
  have hb := toInt32_bounds n
  have hm := toInt32_emod n
  omega

theorem wrapped_congr {a b : ℤ} (h : a % 2 ^ 32 = b % 2 ^ 32) : wrapped a = wrapped b := by
  rw [wrapped, wrapped, toInt32_congr h]

theorem wrapped_of_lt {n : ℕ} (h : n < 2 ^ 31) : wrapped n = n := by
  rw [wrapped, toInt32_of_lt h]
  omega

theorem wrapped_emod (n : ℤ) : (wrapped n : ℤ) % 2 ^ 32 = n % 2 ^ 32 := by
  have hb := toInt32_bounds n
  have hm := toInt32_emod n
  unfold wrapped
  omega

theorem le_wrapped {n : ℤ} (h : -(3 * 2 ^ 30) ≤ n) (hneg : n < 0) : 2 ^ 30 ≤ wrapped n := by
  have hb := toInt32_bounds n
  have hm := toInt32_emod n
  unfold wrapped
  omega

-- what the last entry takes from the length
def partLen (hd : Header) (fileLen : ℕ) : ℕ :=
  if fileLen % 2 ^ 32 % hd.pageSize = 0 then hd.pageSize else fileLen % 2 ^ 32 % hd.pageSize

theorem partLen_le (hps : 0 < hd.pageSize) (fileLen : ℕ) : 0 < partLen hd fileLen ∧ partLen hd fileLen ≤ hd.pageSize := by
  have h := Nat.mod_lt (fileLen % 2 ^ 32) hps
  unfold partLen
  split <;> omega

theorem reducedFileLen_false (hd : Header) (fileLen : ℕ) :
    reducedFileLen hd fileLen false = wrapped (fileLen - hd.pageSize) := by
  have hm := toInt32_emod fileLen
  rw [reducedFileLen, wrapped]
  dsimp only
  rw [if_neg Bool.false_ne_true]
  have h : toInt32 (toInt32 fileLen - hd.pageSize) = toInt32 (fileLen - hd.pageSize) := by
    apply toInt32_congr
    omega
  rw [h]

theorem reducedFileLen_true (hd : Header) (fileLen : ℕ) :
    reducedFileLen hd fileLen true = wrapped (fileLen - partLen hd fileLen) := by
  have hm := toInt32_emod fileLen
  have hps := hd.pageSize_lt
  rw [reducedFileLen, wrapped, partLen]
  dsimp only
  rw [if_pos rfl, hm]
  have hr : (fileLen : ℤ) % 2 ^ 32 % hd.pageSize = ((fileLen % 2 ^ 32 % hd.pageSize : ℕ) : ℤ) := by
    push_cast
    rfl
  have hlt : fileLen % 2 ^ 32 % hd.pageSize < 2 ^ 32 := (Nat.mod_le _ _).trans_lt (Nat.mod_lt _ (by decide))
  rw [hr]
  generalize fileLen % 2 ^ 32 % hd.pageSize = r at *
  have hr32 := toInt32_emod r
  have hps32 := toInt32_emod hd.pageSize
  have hzero : toInt32 r = 0 ↔ r = 0 := by
    constructor
    · intro h
      omega
    · rintro rfl
      rfl
  have hlen : toInt32 (toInt32 fileLen - if toInt32 r = 0 then toInt32 hd.pageSize else toInt32 r) =
      toInt32 (fileLen - (if r = 0 then hd.pageSize else r : ℕ)) := by
    apply toInt32_congr
    by_cases h : r = 0
    · rw [if_pos (hzero.mpr h), if_pos h, Int.sub_emod, hm, hps32, ← Int.sub_emod]
    · rw [if_neg (fun h' => h (hzero.mp h')), if_neg h, Int.sub_emod, hm, hr32, ← Int.sub_emod]
  rw [hlen]

end Arithmetic

section Record

variable (hd : Header) (fileLen : ℕ)

def droppedIn (pre : List ℕ) : ℕ := pre.countP (hd.filesystemSize ≤ ·)

def keptIn (pre : List ℕ) : ℕ := pre.countP (· < hd.filesystemSize)

-- the stored length, of which the low 32 bits stay once an id is dropped
def lengthAt (pre : List ℕ) : ℕ := if droppedIn hd pre = 0 then fileLen else fileLen % 2 ^ 32

-- the loop stops at the id: the entries before it hold the whole length
def Surplus (pre : List ℕ) (id : ℕ) : Prop :=
  id < hd.filesystemSize ∧ lengthAt hd fileLen pre ≤ hd.pageSize * pre.length

def NoSurplus (pre : List ℕ) : Prop := ∀ a id b, pre = a ++ id :: b → ¬ Surplus hd fileLen a id

-- an id outside of the filesystem leaves a length; the others are of data pages
structure EntryOk (pre : List ℕ) (id : ℕ) (post : List ℕ) : Prop where
  dropped : hd.filesystemSize ≤ id → fileLen % 2 ^ 32 < 2 ^ 31 ∧
    if post = [] then hd.pageSize * droppedIn hd pre < fileLen % 2 ^ 32
    else hd.pageSize * (droppedIn hd pre + 1) ≤ fileLen % 2 ^ 32
  kept : id < hd.filesystemSize → ¬ Surplus hd fileLen pre id → hd.maxInodes ≤ id ∧ id + 1 < hd.filesystemSize

structure Correctable (ids : List ℕ) : Prop where
  entry : ∀ pre id post, ids = pre ++ id :: post → NoSurplus hd fileLen pre → EntryOk hd fileLen pre id post
  long : NoSurplus hd fileLen ids → lengthAt hd fileLen ids ≤ hd.pageSize * ids.length

-- what the loop has after the entries `pre`
structure CorrectedTo (pre : List ℕ) (lenRead : ℕ) (d : DecodedPages) : Prop where
  read : lenRead = hd.pageSize * keptIn hd pre
  length : d.fileLen = lengthAt hd fileLen pre - hd.pageSize * droppedIn hd pre
  room : droppedIn hd pre ≠ 0 → fileLen % 2 ^ 32 < 2 ^ 31 ∧ hd.pageSize * droppedIn hd pre ≤ fileLen % 2 ^ 32
  count : d.dataPages.length = keptIn hd pre

end Record

section Run

variable {hd : Header} {fileLen lenRead id : ℕ} {pre rest : List ℕ} {d : DecodedPages}

theorem keptIn_add_droppedIn (hd : Header) (pre : List ℕ) : keptIn hd pre + droppedIn hd pre = pre.length := by
  have h := List.length_eq_countP_add_countP (· < hd.filesystemSize) (l := pre)
  simp only [Nat.not_lt, decide_eq_true_eq] at h
  rw [keptIn, droppedIn]
  omega

theorem droppedIn_dropped (h : hd.filesystemSize ≤ id) : droppedIn hd (pre ++ [id]) = droppedIn hd pre + 1 := by
  simp [droppedIn, h]

theorem droppedIn_kept (h : id < hd.filesystemSize) : droppedIn hd (pre ++ [id]) = droppedIn hd pre := by
  simp [droppedIn, h]

theorem keptIn_dropped (h : hd.filesystemSize ≤ id) : keptIn hd (pre ++ [id]) = keptIn hd pre := by
  simp [keptIn, h]

theorem keptIn_kept (h : id < hd.filesystemSize) : keptIn hd (pre ++ [id]) = keptIn hd pre + 1 := by
  simp [keptIn, h]

theorem NoSurplus.snoc (h : NoSurplus hd fileLen pre) (hid : ¬ Surplus hd fileLen pre id) : NoSurplus hd fileLen (pre ++ [id]) := by
  intro a i b heq
  cases b using List.reverseRecOn with
  | nil =>
    obtain ⟨rfl, hi⟩ := List.append_inj' heq rfl
    rw [← List.singleton_injective hi]
    exact hid
  | append_singleton b j =>
    rw [← List.cons_append, ← List.append_assoc] at heq
    exact h a i b (List.append_inj' heq rfl).1

theorem not_noSurplus (hs : Surplus hd fileLen pre id) (post : List ℕ) : ¬ NoSurplus hd fileLen (pre ++ id :: post) :=
  fun h => h pre id post rfl hs

-- the state has the low 32 bits of the length
theorem CorrectedTo.fileLen_emod (h : CorrectedTo hd fileLen pre lenRead d) :
    (d.fileLen : ℤ) % 2 ^ 32 = ((fileLen % 2 ^ 32 : ℕ) - hd.pageSize * droppedIn hd pre : ℤ) % 2 ^ 32 := by
  rw [h.length, lengthAt]
  by_cases hz : droppedIn hd pre = 0
  · rw [if_pos hz, hz]
    push_cast
    omega
  · rw [if_neg hz, Nat.cast_sub (h.room hz).2]
    push_cast
    rfl

theorem CorrectedTo.le_length (h : CorrectedTo hd fileLen pre lenRead d) :
    hd.pageSize * droppedIn hd pre ≤ lengthAt hd fileLen pre := by
  rw [lengthAt]
  split
  · next hz =>
    rw [hz]
    omega
  · next hz => exact (h.room hz).2

theorem CorrectedTo.le_lenRead_iff (h : CorrectedTo hd fileLen pre lenRead d) :
    lenRead ≥ d.fileLen ↔ lengthAt hd fileLen pre ≤ hd.pageSize * pre.length := by
  have hle := h.le_length
  rw [h.read, h.length, ← keptIn_add_droppedIn hd pre, Nat.mul_add]
  omega

theorem CorrectedTo.keep (h : CorrectedTo hd fileLen pre lenRead d) (hid : id < hd.filesystemSize) :
    CorrectedTo hd fileLen (pre ++ [id]) (lenRead + hd.pageSize)
      { d with dataPages := d.dataPages ++ [{ pageId := id }] } := by
  constructor
  · rw [keptIn_kept hid, h.read, Nat.mul_add_one]
  · rw [lengthAt, droppedIn_kept hid, ← lengthAt]
    exact h.length
  · rw [droppedIn_kept hid]
    exact h.room
  · rw [keptIn_kept hid, List.length_append, h.count, List.length_singleton]

theorem CorrectedTo.drop (h : CorrectedTo hd fileLen pre lenRead d) (hid : hd.filesystemSize ≤ id)
    (hlt : fileLen % 2 ^ 32 < 2 ^ 31) (hle : hd.pageSize * (droppedIn hd pre + 1) ≤ fileLen % 2 ^ 32) :
    CorrectedTo hd fileLen (pre ++ [id]) lenRead
      { d with fileLen := reducedFileLen hd d.fileLen false, modified := true } := by
  constructor
  · rw [keptIn_dropped hid, h.read]
  · have hm := h.fileLen_emod
    rw [lengthAt, droppedIn_dropped hid, if_neg (Nat.succ_ne_zero _), reducedFileLen_false]
    have hw : wrapped (d.fileLen - hd.pageSize) =
        wrapped (fileLen % 2 ^ 32 - hd.pageSize * (droppedIn hd pre + 1) : ℕ) := by
      apply wrapped_congr
      rw [Int.sub_emod, hm, ← Int.sub_emod, Nat.cast_sub hle]
      push_cast
      ring_nf
    rw [hw, wrapped_of_lt (by omega)]
  · rw [droppedIn_dropped hid]
    exact fun _ => ⟨hlt, hle⟩
  · rw [keptIn_dropped hid]
    exact h.count

theorem sub_partLen {n : ℕ} (hps : 0 < hd.pageSize) (hn : 0 < n) (hlt : n < 2 ^ 32) :
    partLen hd n ≤ n ∧ n - partLen hd n = hd.pageSize * ((n - 1) / hd.pageSize) := by
  rw [partLen, Nat.mod_eq_of_lt hlt]
  obtain ⟨q, r, rfl, hr⟩ : ∃ q r, n = hd.pageSize * q + r ∧ r < hd.pageSize :=
    ⟨n / hd.pageSize, n % hd.pageSize, (Nat.div_add_mod n hd.pageSize).symm, Nat.mod_lt _ hps⟩
  rw [Nat.mul_add_mod, Nat.mod_eq_of_lt hr]
  split
  · next hz =>
    subst hz
    cases q with
    | zero => omega
    | succ q =>
      have hq : hd.pageSize * (q + 1) + 0 - 1 = hd.pageSize * q + (hd.pageSize - 1) := by
        rw [Nat.mul_add_one]
        omega
      rw [hq, Nat.mul_add_div hps, Nat.div_eq_of_lt (by omega), Nat.mul_add_one]
      simp only [Nat.add_zero]
      omega
  · next hz =>
    have hq : hd.pageSize * q + r - 1 = hd.pageSize * q + (r - 1) := by omega
    rw [hq, Nat.mul_add_div hps, Nat.div_eq_of_lt (by omega), Nat.add_zero]
    omega

theorem CorrectedTo.dropLast (h : CorrectedTo hd fileLen pre lenRead d) (hps : 0 < hd.pageSize)
    (hlt : fileLen % 2 ^ 32 < 2 ^ 31) (hpos : hd.pageSize * droppedIn hd pre < fileLen % 2 ^ 32) :
    reducedFileLen hd d.fileLen true =
      hd.pageSize * ((fileLen % 2 ^ 32 - hd.pageSize * droppedIn hd pre - 1) / hd.pageSize) := by
  have hm := h.fileLen_emod
  rw [reducedFileLen_true]
  obtain ⟨u, hu⟩ : ∃ u, u = fileLen % 2 ^ 32 - hd.pageSize * droppedIn hd pre := ⟨_, rfl⟩
  have hcast : ((fileLen % 2 ^ 32 : ℕ) - hd.pageSize * droppedIn hd pre : ℤ) = u := by
    rw [hu, Nat.cast_sub hpos.le]
    push_cast
    rfl
  rw [hcast] at hm
  have hmod : d.fileLen % 2 ^ 32 = u % 2 ^ 32 := by exact_mod_cast hm
  have hpart : partLen hd d.fileLen = partLen hd u := by rw [partLen, partLen, hmod]
  obtain ⟨hle, hsub⟩ := sub_partLen hps (show 0 < u by omega) (by omega)
  have hw : wrapped (d.fileLen - partLen hd u) = wrapped (u - partLen hd u : ℕ) := by
    apply wrapped_congr
    rw [Int.sub_emod, hm, ← Int.sub_emod, Nat.cast_sub hle]
  rw [hpart, hw, wrapped_of_lt (by omega), hsub, hu]

structure SoundPages (hd : Header) (fileLen : ℕ) (d : DecodedPages) : Prop where
  le : d.fileLen ≤ fileLen
  covered : d.fileLen ≤ hd.pageSize * d.dataPages.length
  region : ∀ m ∈ d.dataPages, hd.maxInodes ≤ m.pageId ∧ m.pageId + 1 < hd.filesystemSize

theorem lengthAt_le (hd : Header) (fileLen : ℕ) (pre : List ℕ) : lengthAt hd fileLen pre ≤ fileLen := by
  rw [lengthAt]
  split
  · exact le_rfl
  · exact Nat.mod_le _ _

theorem CorrectedTo.sound (h : CorrectedTo hd fileLen pre lenRead d)
    (hlong : lengthAt hd fileLen pre ≤ hd.pageSize * pre.length)
    (hregion : ∀ m ∈ d.dataPages, hd.maxInodes ≤ m.pageId ∧ m.pageId + 1 < hd.filesystemSize) :
    SoundPages hd fileLen d := by
  have hle := lengthAt_le hd fileLen pre
  constructor
  · rw [h.length]
    omega
  · rw [h.length, h.count]
    rw [← keptIn_add_droppedIn hd pre, Nat.mul_add] at hlong
    omega
  · exact hregion

theorem Correctable.sound (hc : Correctable hd fileLen (pre ++ rest)) (hps : 0 < hd.pageSize)
    (hr : NoSurplus hd fileLen pre) (h : CorrectedTo hd fileLen pre lenRead d)
    (hregion : ∀ m ∈ d.dataPages, hd.maxInodes ≤ m.pageId ∧ m.pageId + 1 < hd.filesystemSize) :
    SoundPages hd fileLen (correctPages hd true rest lenRead d) := by
  induction rest generalizing pre lenRead d with
  | nil =>
    rw [List.append_nil] at hc
    exact h.sound (hc.long hr) hregion
  | cons id rest ih =>
    have hentry := hc.entry pre id rest rfl hr
    have happ : pre ++ id :: rest = pre ++ [id] ++ rest := by rw [List.append_assoc, List.singleton_append]
    rw [correctPages]
    by_cases hid : hd.filesystemSize ≤ id
    · have hnot : NoSurplus hd fileLen (pre ++ [id]) := hr.snoc (fun hs => absurd hs.1 (Nat.not_lt.mpr hid))
      obtain ⟨hlt, hle⟩ := hentry.dropped hid
      rw [if_pos ⟨rfl, hid⟩]
      cases rest with
      | nil =>
        rw [if_pos rfl] at hle
        have hlast := h.dropLast hps hlt hle
        have hlong := hc.long hnot
        rw [lengthAt, droppedIn_dropped hid, if_neg (Nat.succ_ne_zero _), List.length_append, List.length_singleton,
          ← keptIn_add_droppedIn hd pre] at hlong
        rw [correctPages, List.length_nil, decide_eq_true rfl, hlast]
        have hdiv := Nat.mul_div_le (fileLen % 2 ^ 32 - hd.pageSize * droppedIn hd pre - 1) hd.pageSize
        have hmod := Nat.mod_le fileLen (2 ^ 32)
        constructor
        · dsimp only
          omega
        · dsimp only
          rw [h.count]
          apply Nat.mul_le_mul_left
          apply Nat.le_of_lt_succ
          rw [Nat.div_lt_iff_lt_mul hps]
          have hexp : hd.pageSize * (keptIn hd pre + droppedIn hd pre + 1) =
            (keptIn hd pre).succ * hd.pageSize + hd.pageSize * droppedIn hd pre := by
              rw [Nat.succ_eq_add_one]
              ring
          omega
        · exact hregion
      | cons id' rest =>
        rw [if_neg (List.cons_ne_nil _ _)] at hle
        rw [decide_eq_false (by rw [List.length_cons]; exact Nat.succ_ne_zero _)]
        apply ih (happ ▸ hc) hnot (h.drop hid hlt hle) hregion
    · have hlt := Nat.lt_of_not_le hid
      rw [if_neg (fun h => hid h.2)]
      by_cases hs : lenRead ≥ d.fileLen
      · rw [if_pos ⟨rfl, hs⟩]
        have hsound := h.sound (h.le_lenRead_iff.mp hs) hregion
        exact ⟨hsound.le, hsound.covered, hsound.region⟩
      · have hns : ¬ Surplus hd fileLen pre id := fun h' => hs (h.le_lenRead_iff.mpr h'.2)
        rw [if_neg (fun h => hs h.2)]
        apply ih (happ ▸ hc) (hr.snoc hns) (h.keep hlt)
        intro m hm
        rcases List.mem_append.mp hm with hm | hm
        · exact hregion m hm
        · rw [List.mem_singleton.mp hm]
          exact hentry.kept hlt hns

theorem prefix_correctPages (hd : Header) (corr : Bool) (ids : List ℕ) (lenRead : ℕ) (d : DecodedPages) :
    d.dataPages <+: (correctPages hd corr ids lenRead d).dataPages := by
  induction ids generalizing lenRead d with
  | nil => exact List.prefix_rfl
  | cons id rest ih =>
    rw [correctPages]
    split
    · exact ih lenRead { d with fileLen := reducedFileLen hd d.fileLen (rest.length = 0), modified := true }
    · split
      · exact List.prefix_rfl
      · apply (List.prefix_append d.dataPages [{ pageId := id }]).trans
        exact ih (lenRead + hd.pageSize) { d with dataPages := d.dataPages ++ [{ pageId := id }] }

theorem correctPages_count (hd : Header) (corr : Bool) (ids : List ℕ) (lenRead : ℕ) (d : DecodedPages) :
    (correctPages hd corr ids lenRead d).dataPages.length ≤ d.dataPages.length + ids.length ∧
      ((correctPages hd corr ids lenRead d).modified = true → d.modified = true ∨
        (correctPages hd corr ids lenRead d).dataPages.length < d.dataPages.length + ids.length) := by
  induction ids generalizing lenRead d with
  | nil => exact ⟨le_rfl, Or.inl⟩
  | cons id rest ih =>
    rw [correctPages, List.length_cons]
    split
    · have h := (ih lenRead { d with fileLen := reducedFileLen hd d.fileLen (rest.length = 0), modified := true }).1
      dsimp only at h
      exact ⟨by omega, fun _ => Or.inr (by omega)⟩
    · split
      · exact ⟨by dsimp only; omega, fun _ => Or.inr (by dsimp only; omega)⟩
      · have h := ih (lenRead + hd.pageSize) { d with dataPages := d.dataPages ++ [{ pageId := id }] }
        rw [List.length_append, List.length_singleton, Nat.add_assoc, Nat.add_comm 1] at h
        exact h

-- a length below zero, which no later entry brings back
def Stuck (hd : Header) (d : DecodedPages) (left : ℕ) : Prop :=
  ∃ n : ℤ, -(3 * 2 ^ 30) + hd.pageSize * left ≤ n ∧ n < 0 ∧ d.fileLen = wrapped n

theorem reducedFileLen_eq (hps : 0 < hd.pageSize) (fileLen : ℕ) (last : Bool) :
    ∃ k, 0 < k ∧ k ≤ hd.pageSize ∧ (last = false → k = hd.pageSize) ∧
      reducedFileLen hd fileLen last = wrapped (fileLen - k) := by
  cases last with
  | false => exact ⟨hd.pageSize, hps, le_rfl, fun _ => rfl, reducedFileLen_false hd fileLen⟩
  | true =>
    obtain ⟨h1, h2⟩ := partLen_le hps fileLen
    exact ⟨partLen hd fileLen, h1, h2, nofun, reducedFileLen_true hd fileLen⟩

theorem Stuck.drop {left : ℕ} (h : Stuck hd d (left + 1)) (hps : 0 < hd.pageSize) (last : Bool) :
    Stuck hd { d with fileLen := reducedFileLen hd d.fileLen last, modified := true } left := by
  obtain ⟨n, hle, hneg, hlen⟩ := h
  obtain ⟨k, hk, hkps, -, hred⟩ := reducedFileLen_eq hps d.fileLen last
  have hm := wrapped_emod n
  rw [Nat.cast_add, Nat.cast_one, mul_add, mul_one] at hle
  refine ⟨n - k, by omega, by omega, ?_⟩
  dsimp only
  rw [hred, hlen]
  apply wrapped_congr
  rw [Int.sub_emod, hm, ← Int.sub_emod]

theorem Stuck.run (h : Stuck hd d rest.length) (hps : 0 < hd.pageSize)
    (hsmall : lenRead + hd.pageSize * rest.length < 2 ^ 30) :
    2 ^ 30 ≤ (correctPages hd true rest lenRead d).fileLen := by
  induction rest generalizing lenRead d with
  | nil =>
    obtain ⟨n, hle, hneg, hlen⟩ := h
    rw [correctPages, hlen]
    apply le_wrapped _ hneg
    rw [List.length_nil] at hle
    omega
  | cons id rest ih =>
    rw [correctPages]
    rw [List.length_cons, Nat.mul_add_one] at hsmall
    split
    · exact ih (h.drop hps _) (by omega)
    · obtain ⟨n, hle, hneg, hlen⟩ := h
      rw [List.length_cons, Nat.cast_add, Nat.cast_one, mul_add, mul_one] at hle
      have hbig : 2 ^ 30 ≤ d.fileLen := by
        rw [hlen]
        apply le_wrapped _ hneg
        have hnonneg : (0 : ℤ) ≤ hd.pageSize * rest.length := by positivity
        omega
      rw [if_neg (fun h => absurd h.2 (by omega))]
      apply ih _ (by omega)
      exact ⟨n, by omega, hneg, hlen⟩

theorem CorrectedTo.stuck (h : CorrectedTo hd fileLen pre lenRead d) (hps : 0 < hd.pageSize)
    (hsmall : hd.pageSize * (pre.length + 1 + rest.length) < 2 ^ 30)
    (hbad : fileLen % 2 ^ 32 < 2 ^ 31 → ¬ if rest = [] then hd.pageSize * droppedIn hd pre < fileLen % 2 ^ 32
      else hd.pageSize * (droppedIn hd pre + 1) ≤ fileLen % 2 ^ 32) :
    Stuck hd { d with fileLen := reducedFileLen hd d.fileLen (rest.length = 0), modified := true } rest.length := by
  obtain ⟨k, hk, hkps, hfull, hred⟩ := reducedFileLen_eq hps d.fileLen (decide (rest.length = 0))
  have hm := h.fileLen_emod
  have hcount : hd.pageSize * droppedIn hd pre + hd.pageSize + hd.pageSize * rest.length < 2 ^ 30 := by
    apply lt_of_le_of_lt _ hsmall
    rw [Nat.mul_add, Nat.mul_add, Nat.mul_one]
    have hle := Nat.mul_le_mul_left hd.pageSize (List.countP_le_length (p := (hd.filesystemSize ≤ ·)) (l := pre))
    rw [droppedIn]
    omega
  have hmod := Nat.mod_lt fileLen (show 0 < 2 ^ 32 by decide)
  have hwrap : ∀ n : ℤ, n % 2 ^ 32 = ((fileLen % 2 ^ 32 : ℕ) - hd.pageSize * droppedIn hd pre : ℤ) % 2 ^ 32 →
      reducedFileLen hd d.fileLen (decide (rest.length = 0)) = wrapped (n - k) := by
    intro n hn
    rw [hred]
    apply wrapped_congr
    rw [Int.sub_emod, hm, ← hn, ← Int.sub_emod]
  by_cases hhigh : fileLen % 2 ^ 32 < 2 ^ 31
  · have hneg : fileLen % 2 ^ 32 < hd.pageSize * droppedIn hd pre + k := by
      have hno := hbad hhigh
      split at hno
      · omega
      · next hne =>
        rw [hfull (decide_eq_false (fun h => hne (List.length_eq_zero_iff.mp h)))]
        rw [Nat.mul_add_one] at hno
        omega
    refine ⟨(fileLen % 2 ^ 32 : ℕ) - (hd.pageSize * droppedIn hd pre : ℕ) - k, ?_, ?_, ?_⟩
    · zify at hcount
      push_cast
      omega
    · omega
    · exact hwrap _ (by push_cast; rfl)
  · refine ⟨(fileLen % 2 ^ 32 : ℕ) - 2 ^ 32 - (hd.pageSize * droppedIn hd pre : ℕ) - k, ?_, ?_, ?_⟩
    · zify at hcount
      push_cast
      omega
    · omega
    · apply hwrap
      push_cast
      omega

-- the first entry and the entries after it
theorem entryOk_cons (hfirst : EntryOk hd fileLen pre id rest)
    (hrest : ∀ a i b, rest = a ++ i :: b → NoSurplus hd fileLen (pre ++ [id] ++ a) →
      EntryOk hd fileLen (pre ++ [id] ++ a) i b) :
    ∀ a i b, id :: rest = a ++ i :: b → NoSurplus hd fileLen (pre ++ a) → EntryOk hd fileLen (pre ++ a) i b := by
  intro a i b heq hr
  cases a with
  | nil =>
    obtain ⟨rfl, rfl⟩ := List.cons.inj heq
    rw [List.append_nil]
    exact hfirst
  | cons j a =>
    obtain ⟨rfl, htail⟩ := List.cons.inj heq
    have happ : pre ++ id :: a = pre ++ [id] ++ a := by rw [List.append_assoc, List.singleton_append]
    rw [happ] at hr ⊢
    exact hrest a i b htail hr

theorem correctable_of_sound (hps : 0 < hd.pageSize) (hsmall : hd.pageSize * (pre ++ rest).length < 2 ^ 30)
    (hr : NoSurplus hd fileLen pre) (h : CorrectedTo hd fileLen pre lenRead d)
    (hsound : SoundPages hd fileLen (correctPages hd true rest lenRead d)) :
    (∀ a i b, rest = a ++ i :: b → NoSurplus hd fileLen (pre ++ a) → EntryOk hd fileLen (pre ++ a) i b) ∧
      (NoSurplus hd fileLen (pre ++ rest) →
        lengthAt hd fileLen (pre ++ rest) ≤ hd.pageSize * (pre ++ rest).length) := by
  induction rest generalizing pre lenRead d with
  | nil =>
    apply And.intro (fun a i b heq => absurd heq (by simp))
    intro _
    have hcov := hsound.covered
    have hle := h.le_length
    rw [correctPages, h.length, h.count] at hcov
    rw [List.append_nil, ← keptIn_add_droppedIn hd pre, Nat.mul_add]
    omega
  | cons id rest ih =>
    have happ : pre ++ id :: rest = pre ++ [id] ++ rest := by rw [List.append_assoc, List.singleton_append]
    have hlen : (pre ++ id :: rest).length = pre.length + 1 + rest.length := by
      rw [List.length_append, List.length_cons]
      omega
    rw [correctPages] at hsound
    by_cases hid : hd.filesystemSize ≤ id
    · have hnot : NoSurplus hd fileLen (pre ++ [id]) := hr.snoc (fun hs => absurd hs.1 (Nat.not_lt.mpr hid))
      rw [if_pos ⟨rfl, hid⟩] at hsound
      have hentry : EntryOk hd fileLen pre id rest := by
        apply EntryOk.mk _ (fun hlt => absurd hid (Nat.not_le.mpr hlt))
        intro _
        by_contra hbad
        have hstuck := h.stuck hps (hlen ▸ hsmall) (fun hlt hok => hbad ⟨hlt, hok⟩)
        have hkept : keptIn hd pre ≤ pre.length := List.countP_le_length
        have hread : lenRead + hd.pageSize * rest.length < 2 ^ 30 := by
          rw [h.read, ← Nat.mul_add]
          apply lt_of_le_of_lt _ hsmall
          exact Nat.mul_le_mul_left _ (by omega)
        have hlong := hstuck.run hps hread
        have hcov := hsound.covered
        have hcount := (correctPages_count hd true rest lenRead
          { d with fileLen := reducedFileLen hd d.fileLen (rest.length = 0), modified := true }).1
        dsimp only at hcount
        rw [h.count] at hcount
        have hmul := Nat.mul_le_mul_left hd.pageSize (hcount.trans (show _ ≤ (pre ++ id :: rest).length by omega))
        omega
      obtain ⟨hlt, hle⟩ := hentry.dropped hid
      cases rest with
      | nil =>
        apply And.intro (entryOk_cons hentry (fun a i b heq => absurd heq (by simp)))
        intro _
        rw [if_pos rfl] at hle
        have hcov := hsound.covered
        rw [correctPages, List.length_nil, decide_eq_true rfl, h.dropLast hps hlt hle] at hcov
        dsimp only at hcov
        rw [h.count] at hcov
        have hdiv := Nat.lt_succ_of_le (Nat.le_of_mul_le_mul_left hcov hps)
        rw [Nat.div_lt_iff_lt_mul hps, Nat.succ_mul] at hdiv
        rw [lengthAt, droppedIn_dropped hid, if_neg (Nat.succ_ne_zero _), hlen, ← keptIn_add_droppedIn hd pre,
          Nat.mul_add, Nat.mul_add, Nat.mul_add, Nat.mul_comm hd.pageSize (keptIn hd pre), List.length_nil]
        omega
      | cons j rest =>
        rw [if_neg (List.cons_ne_nil _ _)] at hle
        rw [decide_eq_false (by rw [List.length_cons]; exact Nat.succ_ne_zero _)] at hsound
        have hnext := ih (happ ▸ hsmall) hnot (h.drop hid hlt hle) hsound
        rw [happ]
        exact ⟨entryOk_cons hentry hnext.1, hnext.2⟩
    · have hlt := Nat.lt_of_not_le hid
      rw [if_neg (fun h => hid h.2)] at hsound
      by_cases hs : lenRead ≥ d.fileLen
      · have hsur : Surplus hd fileLen pre id := ⟨hlt, h.le_lenRead_iff.mp hs⟩
        have hentry : EntryOk hd fileLen pre id rest := ⟨fun h => absurd h hid, fun _ hns => absurd hsur hns⟩
        apply And.intro (entryOk_cons hentry _)
        · exact fun hr' => absurd hr' (not_noSurplus hsur rest)
        · intro a i b _ hr'
          rw [List.append_assoc, List.singleton_append] at hr'
          exact absurd hr' (not_noSurplus hsur a)
      · rw [if_neg (fun h => hs h.2)] at hsound
        have hns : ¬ Surplus hd fileLen pre id := fun h' => hs (h.le_lenRead_iff.mpr h'.2)
        have hentry : EntryOk hd fileLen pre id rest := by
          apply EntryOk.mk (fun h => absurd h hid)
          intro _ _
          have hmem := (prefix_correctPages hd true rest (lenRead + hd.pageSize)
            { d with dataPages := d.dataPages ++ [{ pageId := id }] }).subset
            (List.mem_append_right d.dataPages (List.mem_singleton_self _))
          exact hsound.region _ hmem
        have hnext := ih (happ ▸ hsmall) (hr.snoc hns) (h.keep hlt) hsound
        rw [happ]
        exact ⟨entryOk_cons hentry hnext.1, hnext.2⟩

end Run

section Decoded

variable {hd : Header} {corr : Bool} {page : List UInt8}

def recordedPages (hd : Header) (page : List UInt8) : List ℕ :=
  entriesAt hd page (38 + nameLenOf hd page) (pagesOf hd page)

structure SoundInode (hd : Header) (page : List UInt8) (h : FileHandle) : Prop where
  le : h.inode.fileLen ≤ fileLenOf hd page
  covered : pagesOf hd page ≠ 0 → h.inode.fileLen ≤ hd.pageSize * h.inode.dataPages.length
  region : ∀ m ∈ h.inode.dataPages, hd.maxInodes ≤ m.pageId ∧ m.pageId + 1 < hd.filesystemSize
  unchanged : h.inode.fileLen = fileLenOf hd page → h.inode.dataPages.map (·.pageId) = recordedPages hd page →
    h.modified = false

-- without pages the space wraps around when the checksum leaves no room for it
def RecordCorrectable (hd : Header) (page : List UInt8) : Prop :=
  if pagesOf hd page = 0 then fileLenOf hd page = 0 ∨ 42 + nameLenOf hd page ≤ hd.pageSize ∨
    inodeDataSpaceSize hd (nameLenOf hd page) < fileLenOf hd page
  else Correctable hd (fileLenOf hd page) (recordedPages hd page)

theorem entriesAt_length (pos count : ℕ) : (entriesAt hd page pos count).length = count := by
  induction count generalizing pos with
  | zero => rfl
  | succ count ih => rw [entriesAt, List.length_cons, ih]

theorem readPages_entries {left pos : ℕ} (hin : pos + 4 * left ≤ page.length) (lenRead : ℕ) (d : DecodedPages) :
    readPages hd corr page left pos lenRead d = .ok (correctPages hd corr (entriesAt hd page pos left) lenRead d) := by
  induction left generalizing pos lenRead d with
  | zero => rfl
  | succ left ih =>
    rw [readPages, entriesAt, correctPages, readField_eq_ok (by omega), ok_bind, entriesAt_length,
      ih (by omega), ih (by omega)]
    split
    · rfl
    · split <;> rfl

-- the fields of the record in front of its pages
def recordOf (hd : Header) (page : List UInt8) : Inode where
  inodeNumber := getField hd.endianness (slice page 0 8)
  inodeVersionNumber := getField hd.endianness (slice page 8 8)
  fileNameLen := nameLenOf hd page
  fileName := slice page 18 (nameLenOf hd page)
  attributes := getField hd.endianness (slice page (18 + nameLenOf hd page) 8)
  fileLen := fileLenOf hd page
  pages := pagesOf hd page

theorem decodeInode_record (hin : 38 + nameLenOf hd page ≤ page.length) :
    decodeInode hd page corr = decodeDataIn dynamicStorage hd corr page (recordOf hd page) := by
  rw [← decodeInodeIn_dynamic, decodeInodeIn, readField_eq_ok (by omega), ok_bind, readField_eq_ok (by omega), ok_bind,
    readField_eq_ok (by omega), ok_bind]
  have hn : nameLenOf hd page < 2 ^ 16 := getField_slice_lt _ _ _ _
  have hname : dynamicStorage.assignName page 18 (nameLenOf hd page) = .ok (slice page 18 (nameLenOf hd page)) := by
    have hcap : nameLenOf hd page ≤ dynamicStorage.nameCapacity := le_maxVectorSize (by omega)
    rw [Storage.assignName, if_pos hcap, readBytes, if_pos (by omega)]
  change (dynamicStorage.assignName page 18 (nameLenOf hd page) >>= _) = _
  rw [hname, ok_bind]
  change (readField hd page (18 + nameLenOf hd page) 8 >>= fun attributes =>
    readField hd page (26 + nameLenOf hd page) 8 >>= fun fileLen =>
      readField hd page (34 + nameLenOf hd page) 4 >>= fun pages => _) = _
  rw [readField_eq_ok (by omega), ok_bind, readField_eq_ok (by omega), ok_bind, readField_eq_ok (by omega), ok_bind]
  rfl

def correctedHandle (hd : Header) (page : List UInt8) (d : DecodedPages) : FileHandle where
  inode := { recordOf hd page with dataPages := d.dataPages, fileLen := d.fileLen }
  modified := d.modified
  connected := true

theorem decodeInode_paged (hin : 38 + nameLenOf hd page + 4 * pagesOf hd page ≤ page.length) (hp : pagesOf hd page ≠ 0) :
    decodeInode hd page corr =
      .ok (correctedHandle hd page (correctPages hd corr (recordedPages hd page) 0 ⟨[], fileLenOf hd page, false⟩)) := by
  have hlt : pagesOf hd page < 2 ^ 32 := getField_slice_lt _ _ _ _
  have hreserve : dynamicStorage.reservePages (pagesOf hd page) = .ok () := if_pos (Or.inl (le_maxVectorSize hlt))
  have hloop : readPagesIn dynamicStorage hd corr page (pagesOf hd page) (38 + nameLenOf hd page) 0
      ⟨[], fileLenOf hd page, false⟩ = .ok (correctPages hd corr (recordedPages hd page) 0 ⟨[], fileLenOf hd page, false⟩) := by
    rw [readPagesIn_dynamic, readPages_entries hin]
    · rfl
    · rw [List.length_nil, Nat.zero_add]
      exact le_maxVectorSize hlt
  rw [decodeInode_record (by omega), decodeDataIn]
  change (if pagesOf hd page ≠ 0 then (dynamicStorage.reservePages (pagesOf hd page) >>= fun _ =>
    readPagesIn dynamicStorage hd corr page (pagesOf hd page) (38 + nameLenOf hd page) 0 ⟨[], fileLenOf hd page, false⟩ >>=
      fun _ => _) else _) = _
  rw [if_pos hp, hreserve, ok_bind, hloop, ok_bind]
  rfl

theorem soundInode_of_pages {d : DecodedPages} (hs : SoundPages hd (fileLenOf hd page) d)
    (hu : d.modified = true → d.dataPages.length < (recordedPages hd page).length) :
    SoundInode hd page (correctedHandle hd page d) := by
  apply SoundInode.mk hs.le (fun _ => hs.covered) hs.region
  intro _ hpages
  by_contra hm
  have hlt := hu (by simpa [correctedHandle] using hm)
  rw [← hpages, List.length_map] at hlt
  exact absurd hlt (lt_irrefl _)

theorem correctedTo_nil (hd : Header) (fileLen : ℕ) : CorrectedTo hd fileLen [] 0 ⟨[], fileLen, false⟩ := by
  constructor
  · rfl
  · rfl
  · exact fun h => absurd rfl h
  · rfl

theorem noSurplus_nil (hd : Header) (fileLen : ℕ) : NoSurplus hd fileLen [] := fun a i b h => absurd h (by simp)

theorem pagedInode_sound (hps : 0 < hd.pageSize) (hin : 38 + nameLenOf hd page + 4 * pagesOf hd page ≤ page.length)
    (hp : pagesOf hd page ≠ 0) (hc : Correctable hd (fileLenOf hd page) (recordedPages hd page)) :
    ∃ h, decodeInode hd page true = .ok h ∧ SoundInode hd page h := by
  refine ⟨_, decodeInode_paged hin hp, soundInode_of_pages ?_ ?_⟩
  · exact @Correctable.sound _ _ _ [] _ _ hc hps (noSurplus_nil _ _) (correctedTo_nil _ _)
      (fun m hm => absurd hm List.not_mem_nil)
  · intro hm
    have hcount := (correctPages_count hd true (recordedPages hd page) 0 ⟨[], fileLenOf hd page, false⟩).2 hm
    rw [List.length_nil, Nat.zero_add] at hcount
    exact hcount.resolve_left Bool.false_ne_true

theorem correctable_of_pagedInode (hps : 0 < hd.pageSize) (hsmall : hd.pageSize * pagesOf hd page < 2 ^ 30)
    (hin : 38 + nameLenOf hd page + 4 * pagesOf hd page ≤ page.length) (hp : pagesOf hd page ≠ 0) {h : FileHandle}
    (hdec : decodeInode hd page true = .ok h) (hs : SoundInode hd page h) :
    Correctable hd (fileLenOf hd page) (recordedPages hd page) := by
  rw [decodeInode_paged hin hp] at hdec
  rw [← Except.ok.inj hdec] at hs
  have hsmall' : hd.pageSize * ([] ++ recordedPages hd page).length < 2 ^ 30 := by
    rw [List.nil_append, recordedPages, entriesAt_length]
    exact hsmall
  obtain ⟨hentry, hlong⟩ := correctable_of_sound hps hsmall' (noSurplus_nil _ _) (correctedTo_nil _ _)
    ⟨hs.le, hs.covered hp, hs.region⟩
  exact ⟨hentry, hlong⟩

theorem inlineInode_sound_iff (hlen : page.length = hd.pageSize) (hin : 38 + nameLenOf hd page ≤ page.length)
    (hp : pagesOf hd page = 0) : (∃ h, decodeInode hd page true = .ok h ∧ SoundInode hd page h) ↔
      fileLenOf hd page = 0 ∨ 42 + nameLenOf hd page ≤ hd.pageSize ∨
        inodeDataSpaceSize hd (nameLenOf hd page) < fileLenOf hd page := by
  have hn : nameLenOf hd page < 2 ^ 16 := getField_slice_lt _ _ _ _
  have hrecord : (recordOf hd page).pages = 0 := hp
  have hlength : (recordOf hd page).fileLen = fileLenOf hd page := rfl
  have hname : (recordOf hd page).fileNameLen = nameLenOf hd page := rfl
  rw [decodeInode_record hin, decodeDataIn, if_neg (not_not.mpr hrecord), hlength, hname]
  dsimp only
  split
  · next hpos =>
    split
    · next hle =>
      by_cases hfit : 42 + nameLenOf hd page ≤ hd.pageSize
      · apply iff_of_true _ (Or.inr (Or.inl hfit))
        rw [inodeDataSpaceSize_eq hfit] at hle ⊢
        have hps := hd.pageSize_lt
        have hcap : hd.pageSize - (42 + nameLenOf hd page) ≤ dynamicStorage.dataCapacity := le_maxVectorSize (by omega)
        rw [Storage.resizeData, if_pos hcap, ok_bind, readBytes, if_pos (by omega), ok_bind]
        exact ⟨_, rfl, le_rfl, fun h => absurd hp h, fun m hm => absurd hm List.not_mem_nil, fun _ _ => rfl⟩
      · rw [resizeData_wrapped hn (Nat.lt_of_not_le hfit)]
        apply iff_of_false
        · rintro ⟨h, hdec, -⟩
          cases hdec
        · rintro (h | h | h)
          · omega
          · exact hfit h
          · omega
    · next hgt =>
      apply iff_of_true _ (Or.inr (Or.inr (Nat.lt_of_not_le hgt)))
      refine ⟨_, rfl, Nat.zero_le _, fun h => absurd hp h, fun m hm => absurd hm List.not_mem_nil, fun h _ => ?_⟩
      dsimp only at h
      omega
  · next hpos =>
    apply iff_of_true _ (Or.inl (by omega))
    exact ⟨_, rfl, le_rfl, fun h => absurd hp h, fun m hm => absurd hm List.not_mem_nil, fun _ _ => rfl⟩

-- 64 KiB pages hold fewer ids than an int counts down
theorem decodeInode_sound_iff (hd : Header) (page : List UInt8) (hlen : page.length = hd.pageSize)
    (hin : 38 + nameLenOf hd page + 4 * pagesOf hd page ≤ page.length) :
    (RecordCorrectable hd page → ∃ h, decodeInode hd page true = .ok h ∧ SoundInode hd page h) ∧
      (hd.pageSize ≤ 2 ^ 16 → (∃ h, decodeInode hd page true = .ok h ∧ SoundInode hd page h) →
        RecordCorrectable hd page) := by
  have hps : 0 < hd.pageSize := by omega
  by_cases hp : pagesOf hd page = 0
  · have hiff := inlineInode_sound_iff hlen (by omega) hp
    rw [RecordCorrectable, if_pos hp]
    exact ⟨hiff.mpr, fun _ => hiff.mp⟩
  · rw [RecordCorrectable, if_neg hp]
    apply And.intro (pagedInode_sound hps hin hp)
    rintro hsmall ⟨h, hdec, hs⟩
    apply correctable_of_pagedInode hps _ hin hp hdec hs
    calc hd.pageSize * pagesOf hd page ≤ 2 ^ 16 * pagesOf hd page := Nat.mul_le_mul_right _ hsmall
      _ < 2 ^ 30 := by omega

end Decoded

-- the record of a file "a" with the length and the page ids
def recordPage (fileLen : ℕ) (ids : List ℕ) : List UInt8 :=
  let fields := putField .be 8 1 ++ putField .be 8 1 ++ putField .be 2 1 ++ [97] ++ putField .be 8 0 ++
    putField .be 8 fileLen ++ putField .be 4 ids.length ++ ids.flatMap (putField .be 4)
  @addPageChecksum dynamicConfig .be (fields ++ List.replicate (64 - fields.length) 0)

theorem decodeInode_sound_iff_two :
    (RecordCorrectable codecHeader (recordPage 70 [7, 5]) →
      ∃ h, decodeInode codecHeader (recordPage 70 [7, 5]) true = .ok h ∧
        SoundInode codecHeader (recordPage 70 [7, 5]) h) ∧
      (64 ≤ 2 ^ 16 → (∃ h, decodeInode codecHeader (recordPage 70 [7, 5]) true = .ok h ∧
        SoundInode codecHeader (recordPage 70 [7, 5]) h) → RecordCorrectable codecHeader (recordPage 70 [7, 5])) :=
  decodeInode_sound_iff codecHeader (recordPage 70 [7, 5]) (by decide +kernel) (by decide +kernel)

-- the dropped first id takes 64 from a length of 5
theorem decodeInode_negativeLength :
    @checksumOk dynamicConfig codecHeader.endianness (recordPage 5 [99, 7]) = true ∧
      (recordPage 5 [99, 7]).length = codecHeader.pageSize ∧
        ∃ h, decodeInode codecHeader (recordPage 5 [99, 7]) true = .ok h ∧
          ¬ SoundInode codecHeader (recordPage 5 [99, 7]) h := by
  apply And.intro (by decide +kernel)
  apply And.intro (by decide +kernel)
  have hrun : (decodeInode codecHeader (recordPage 5 [99, 7]) true).toOption.any
      (fun h => decide (fileLenOf codecHeader (recordPage 5 [99, 7]) < h.inode.fileLen)) = true := by
    decide +kernel
  obtain ⟨h, hdec, hlt⟩ := ok_of_any hrun
  exact ⟨h, hdec, fun hs => absurd hs.le (Nat.not_le.mpr (of_decide_eq_true hlt))⟩

end SimpleFlashFs
