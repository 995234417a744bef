import SimpleFlashFs.Lib.ShiftRegister
import SimpleFlashFs.TornInodes
import Mathlib.Data.Nat.Bitwise

namespace SimpleFlashFs

open Lib Lib.ShiftRegister

section Bits

variable {n k d w i : ℕ} {message : List UInt8}

def lowBits (n d : ℕ) : List Bool := (List.range n).map d.testBit

-- in the order in which they enter the remainder
def messageBits (message : List UInt8) : List Bool := message.flatMap fun b => lowBits 8 b.toNat

@[simp] theorem lowBits_length (n d : ℕ) : (lowBits n d).length = n := by simp [lowBits]

theorem getD_lowBits (n d i : ℕ) : (lowBits n d).getD i false = (decide (i < n) && d.testBit i) := by
  by_cases hi : i < n <;> simp [lowBits, List.getD, hi]

theorem lowBits_append (n k d : ℕ) : lowBits (n + k) d = lowBits n d ++ lowBits k (d >>> n) := by
  simp [lowBits, List.range_add, Function.comp_def]

@[simp] theorem messageBits_length (message : List UInt8) : (messageBits message).length = 8 * message.length := by
  induction message with
  | nil => rfl
  | cons b message ih =>
    simp only [messageBits, List.flatMap_cons, List.length_append, List.length_cons] at ih ⊢
    rw [ih, lowBits_length]
    omega

theorem messageBits_append (message more : List UInt8) :
    messageBits (message ++ more) = messageBits message ++ messageBits more := by
  simp [messageBits]

theorem lowBits_byte {b c : UInt8} (h : lowBits 8 b.toNat = lowBits 8 c.toNat) : b = c := by
  apply UInt8.toNat_inj.mp
  apply Nat.eq_of_testBit_eq
  intro i
  have hbit : (lowBits 8 b.toNat).getD i false = (lowBits 8 c.toNat).getD i false := by rw [h]
  rw [getD_lowBits, getD_lowBits] at hbit
  by_cases hi : i < 8
  · simpa [hi] using hbit
  · have hpow : 2 ^ 8 ≤ 2 ^ i := Nat.pow_le_pow_right (by omega) (by omega)
    rw [Nat.testBit_lt_two_pow (lt_of_lt_of_le b.toNat_lt hpow), Nat.testBit_lt_two_pow (lt_of_lt_of_le c.toNat_lt hpow)]

theorem messageBits_injective {message more : List UInt8} (h : messageBits message = messageBits more) :
    message = more := by
  have hlen : message.length = more.length := by
    have := congrArg List.length h
    simp only [messageBits_length] at this
    omega
  induction message generalizing more with
  | nil => exact (List.length_eq_zero_iff.mp hlen.symm).symm
  | cons b message ih =>
    cases more with
    | nil => cases hlen
    | cons c more =>
      simp only [messageBits, List.flatMap_cons] at h
      obtain ⟨hbyte, hrest⟩ := List.append_inj h (by simp)
      rw [lowBits_byte hbyte, ih hrest (by simpa using hlen)]

theorem messageBits_leBytes (w d : ℕ) : messageBits (leBytes w d) = lowBits (8 * w) d := by
  induction w generalizing d with
  | zero => rfl
  | succ w ih =>
    have hbyte : lowBits 8 (UInt8.ofNat d).toNat = lowBits 8 d := by
      apply List.map_congr_left
      intro i hi
      have hi := List.mem_range.mp hi
      have hmod : (UInt8.ofNat d).toNat = d % 2 ^ 8 := by simp
      rw [hmod, Nat.testBit_mod_two_pow]
      simp [hi]
    have hshift : d / 256 = d >>> 8 := by rw [Nat.shiftRight_eq_div_pow]
    have hsucc : 8 * (w + 1) = 8 + 8 * w := by omega
    rw [hsucc, lowBits_append, ← hshift, ← ih, ← hbyte]
    rfl

end Bits

section Remainder

variable {v : BitVec 32}

def polynomialBits : BitVec 32 := BitVec.ofNat 32 polynomial

theorem testBit_reflect_go (m n bit d r i : ℕ) (hbit : bit + m = n) :
    (reflect.go n m bit d r).testBit i = (r.testBit i || decide (i < m) && d.testBit (m - 1 - i)) := by
  induction m generalizing bit d r with
  | zero => simp [reflect.go]
  | succ m ih =>
    have hidx : n - 1 - bit = m := by omega
    rw [reflect.go, ih _ _ _ (by omega), hidx, Nat.testBit_shiftRight]
    have hlow : (d &&& 1 = 1) = (d.testBit 0 = true) := by
      rw [Nat.testBit_zero, decide_eq_true_eq, Nat.and_one_is_mod]
    rw [Nat.add_sub_cancel]
    by_cases hi : i < m
    · have hnext : 1 + (m - 1 - i) = m - i := by omega
      have hi' : i < m + 1 := by omega
      have hne : m ≠ i := by omega
      split <;> simp [hi, hi', hne, hnext, Nat.one_shiftLeft]
    · by_cases hie : i = m
      · subst hie
        split <;> simp_all [Nat.one_shiftLeft]
      · have hi' : ¬ i < m + 1 := by omega
        have hne : m ≠ i := by omega
        split <;> simp [hi, hi', hne, Nat.one_shiftLeft]

theorem testBit_reflect (d n i : ℕ) : (reflect d n).testBit i = (decide (i < n) && d.testBit (n - 1 - i)) := by
  rw [reflect, testBit_reflect_go n n 0 d 0 i (by omega)]
  simp

theorem reflect_lt (d n : ℕ) : reflect d n < 2 ^ n := by
  apply Nat.lt_pow_two_of_testBit
  intro i hi
  simp [testBit_reflect, Nat.not_lt.mpr hi]

theorem divideBits_eq (n : ℕ) (v : BitVec 32) :
    divideBits n v.toNat = ((step polynomialBits)^[n] v).toNat := by
  induction n generalizing v with
  | zero => rfl
  | succ n ih =>
    have hmsb : (v.toNat &&& 0x80000000 = 0) = (v.msb = false) := by
      have htop : (0x80000000 : ℕ) = 2 ^ 31 := rfl
      rw [htop, Nat.and_two_pow, BitVec.msb_eq_getLsbD_last, BitVec.getLsbD]
      cases v.toNat.testBit 31 <;> simp
    have hstep : (if v.toNat &&& 0x80000000 = 0 then (v.toNat <<< 1) % 2 ^ 32
        else (v.toNat <<< 1) % 2 ^ 32 ^^^ polynomial) = (step polynomialBits v).toNat := by
      simp only [hmsb, step]
      cases v.msb with
      | false => simp
      | true =>
        simp [polynomialBits]
        rfl
    rw [divideBits, hstep, ih, Function.iterate_succ_apply]

-- the byte in the leading bits of the remainder
def broughtIn (b : UInt8) : BitVec 32 := BitVec.ofNat 32 (reflect b.toNat 8 <<< 24)

theorem reflect_shift_lt (b : UInt8) : reflect b.toNat 8 <<< 24 < 2 ^ 32 := by
  have := reflect_lt b.toNat 8
  rw [Nat.shiftLeft_eq]
  omega

theorem broughtIn_toNat (b : UInt8) : (broughtIn b).toNat = reflect b.toNat 8 <<< 24 := by
  rw [broughtIn, BitVec.toNat_ofNat, Nat.mod_eq_of_lt (reflect_shift_lt b)]

theorem broughtIn_eq (b : UInt8) : broughtIn b = high 32 (lowBits 8 b.toNat) := by
  apply BitVec.eq_of_getLsbD_eq
  intro i hi
  rw [getLsbD_high _ hi, getD_lowBits, BitVec.getLsbD, broughtIn_toNat, Nat.testBit_shiftLeft, testBit_reflect]
  by_cases hlow : 24 ≤ i
  · have hidx : 8 - 1 - (i - 24) = 32 - 1 - i := by omega
    have h1 : i - 24 < 8 := by omega
    have h2 : 32 - 1 - i < 8 := by omega
    simp [hlow, h1, h2, hidx]
  · have h2 : ¬ 32 - 1 - i < 8 := by omega
    simp [hlow, h2]

theorem run_byte (b : UInt8) (v : BitVec 32) :
    run polynomialBits v (lowBits 8 b.toNat) = (step polynomialBits)^[8] (v ^^^ broughtIn b) := by
  rw [run_eq_iterate _ (by simp), lowBits_length, broughtIn_eq]

theorem crcSlowLoop_eq (message : List UInt8) (v : BitVec 32) :
    crcSlowLoop message v.toNat = (run polynomialBits v (messageBits message)).toNat := by
  induction message generalizing v with
  | nil => rfl
  | cons b message ih =>
    rw [crcSlowLoop, ← broughtIn_toNat, ← BitVec.toNat_xor, divideBits_eq, ih, ← run_byte, ← run_append]
    rfl

theorem crcLoop_eq (message : List UInt8) (v : BitVec 32) :
    crcLoop message v.toNat = (run polynomialBits v (messageBits message)).toNat := by
  induction message generalizing v with
  | nil => rfl
  | cons b message ih =>
    have hshift : (reflect b.toNat 8 ^^^ v.toNat >>> 24) <<< 24 = ((v ^^^ broughtIn b) >>> 24 <<< 24).toNat := by
      have hlt : (v.toNat >>> 24 ^^^ reflect b.toNat 8) < 2 ^ 8 := by
        apply Nat.xor_lt_two_pow _ (reflect_lt b.toNat 8)
        have := v.isLt
        omega
      rw [BitVec.toNat_shiftLeft, BitVec.toNat_ushiftRight, BitVec.toNat_xor, broughtIn_toNat,
        Nat.shiftRight_xor_distrib, Nat.shiftLeft_shiftRight, Nat.xor_comm, Nat.mod_eq_of_lt]
      rw [Nat.shiftLeft_eq]
      omega
    have hmove : (v.toNat <<< 8) % 2 ^ 32 = ((v ^^^ broughtIn b) <<< 8).toNat := by
      have hout : broughtIn b <<< 8 = 0#32 := by
        apply BitVec.eq_of_toNat_eq
        rw [BitVec.toNat_shiftLeft, broughtIn_toNat, ← Nat.shiftLeft_add, Nat.shiftLeft_eq]
        exact Nat.mul_mod_left _ _
      rw [BitVec.shiftLeft_xor_distrib, hout, BitVec.xor_zero, BitVec.toNat_shiftLeft]
    rw [crcLoop, crcTable, hshift, hmove, divideBits_eq, ← BitVec.toNat_xor,
      ← iterate_step_split (k := 8) (by omega), ← run_byte, ih, ← run_append]
    rfl

-- the remainder before it is reflected
def remainderOf (message : List UInt8) : BitVec 32 := run polynomialBits (BitVec.allOnes 32) (messageBits message)

theorem crcFast_toNat (message : List UInt8) :
    (crcFast message).toNat = reflect (remainderOf message).toNat 32 ^^^ finalXorValue := by
  have hstart : initialRemainder = (BitVec.allOnes 32).toNat := rfl
  have hlt : reflect (remainderOf message).toNat 32 ^^^ finalXorValue < 2 ^ 32 :=
    Nat.xor_lt_two_pow (reflect_lt _ 32) (by decide)
  rw [crcFast, hstart, crcLoop_eq, UInt32.toNat_ofNat']
  exact Nat.mod_eq_of_lt hlt

theorem crcFast_eq_crcSlow (message : List UInt8) : crcFast message = crcSlow message := by
  have hstart : initialRemainder = (BitVec.allOnes 32).toNat := rfl
  rw [crcFast, crcSlow, hstart, crcLoop_eq, crcSlowLoop_eq]

theorem testBit_crcFast (message : List UInt8) {i : ℕ} (hi : i < 32) :
    (crcFast message).toNat.testBit i = !(remainderOf message).getLsbD (31 - i) := by
  have hones : finalXorValue = 2 ^ 32 - 1 := rfl
  rw [crcFast_toNat, hones, Nat.testBit_xor, testBit_reflect, Nat.testBit_two_pow_sub_one]
  simp [hi, BitVec.getLsbD]

theorem remainderOf_eq {message more : List UInt8} (h : crcFast message = crcFast more) :
    remainderOf message = remainderOf more := by
  apply BitVec.eq_of_getLsbD_eq
  intro i hi
  have hi' : 31 - i < 32 := by omega
  have hidx : 31 - (31 - i) = i := by omega
  have hbit := testBit_crcFast message hi'
  rw [h, testBit_crcFast more hi', hidx] at hbit
  exact (Bool.not_inj hbit).symm

-- a message that ends with its own checksum
theorem remainderOf_checked (message : List UInt8) :
    remainderOf (message ++ leBytes 4 (crcFast message).toNat) = (step polynomialBits)^[32] (BitVec.allOnes 32) := by
  have hhigh : remainderOf message ^^^ high 32 (lowBits 32 (crcFast message).toNat) = BitVec.allOnes 32 := by
    apply BitVec.eq_of_getLsbD_eq
    intro i hi
    have hi' : 31 - i < 32 := by omega
    have hidx : 31 - (31 - i) = i := by omega
    rw [BitVec.getLsbD_xor, getLsbD_high _ hi, getD_lowBits, testBit_crcFast message hi', hidx,
      BitVec.getLsbD_allOnes, decide_eq_true hi', decide_eq_true hi]
    cases (remainderOf message).getLsbD i <;> rfl
  rw [remainderOf, messageBits_append, run_append, messageBits_leBytes, run_eq_iterate _ (by simp), lowBits_length]
  exact congrArg _ hhigh

end Remainder

section Pages

variable {e : Endianness} {n start k : ℕ} {page page' : List UInt8}

-- n consecutive bits at most are different
structure BurstApart (n start : ℕ) (page page' : List UInt8) : Prop where
  length : page'.length = page.length
  outside : ∀ i, i < start ∨ start + n ≤ i → (messageBits page')[i]? = (messageBits page)[i]?

theorem messageBits_take (page : List UInt8) (k : ℕ) : messageBits (page.take k) = (messageBits page).take (8 * k) := by
  induction page generalizing k with
  | nil => simp [messageBits]
  | cons b page ih =>
    cases k with
    | zero => rfl
    | succ k =>
      have hk : 8 * (k + 1) = (lowBits 8 b.toNat).length + 8 * k := by
        rw [lowBits_length]
        omega
      simp only [List.take_succ_cons, messageBits, List.flatMap_cons] at ih ⊢
      rw [ih, hk, List.take_length_add_append]

theorem messageBits_drop (page : List UInt8) (k : ℕ) : messageBits (page.drop k) = (messageBits page).drop (8 * k) := by
  induction page generalizing k with
  | nil => simp [messageBits]
  | cons b page ih =>
    cases k with
    | zero => rfl
    | succ k =>
      have hk : 8 * (k + 1) = (lowBits 8 b.toNat).length + 8 * k := by
        rw [lowBits_length]
        omega
      simp only [List.drop_succ_cons, messageBits, List.flatMap_cons] at ih ⊢
      rw [ih, hk, List.drop_length_add_append]

theorem BurstApart.take (hb : BurstApart n start page page') (k : ℕ) : BurstApart n start (page.take k) (page'.take k) where
  length := by simp [hb.length]
  outside i hi := by
    rw [messageBits_take, messageBits_take, List.getElem?_take, List.getElem?_take, hb.outside i hi]

theorem BurstApart.take_eq (hb : BurstApart n start page page') (hk : 8 * k ≤ start) : page'.take k = page.take k := by
  apply messageBits_injective
  apply List.ext_getElem?
  intro i
  rw [messageBits_take, messageBits_take, List.getElem?_take, List.getElem?_take]
  split
  · exact hb.outside i (Or.inl (by omega))
  · rfl

theorem BurstApart.drop_eq (hb : BurstApart n start page page') (hk : start + n ≤ 8 * k) : page'.drop k = page.drop k := by
  apply messageBits_injective
  apply List.ext_getElem?
  intro i
  rw [messageBits_drop, messageBits_drop, List.getElem?_drop, List.getElem?_drop]
  exact hb.outside _ (Or.inr (by omega))

theorem BurstApart.remainder (hb : BurstApart 32 start page page') (h : remainderOf page' = remainderOf page) :
    page' = page := by
  have hdrop : (messageBits page').drop (start + 32) = (messageBits page).drop (start + 32) := by
    apply List.ext_getElem?
    intro i
    rw [List.getElem?_drop, List.getElem?_drop]
    exact hb.outside _ (Or.inr (by omega))
  have htake : (messageBits page').take start = (messageBits page).take start := by
    apply List.ext_getElem?
    intro i
    rw [List.getElem?_take, List.getElem?_take]
    split
    · exact hb.outside _ (Or.inl ‹_›)
    · rfl
  have hsplit : ∀ l : List Bool, l = l.take start ++ slice l start 32 ++ l.drop (start + 32) := by
    intro l
    rw [slice, List.append_assoc, ← List.drop_drop, List.take_append_drop, List.take_append_drop]
  have hodd : polynomialBits.getLsbD 0 = true := rfl
  rw [remainderOf, remainderOf, hsplit (messageBits page'), hsplit (messageBits page), hdrop, htake] at h
  have hburst := run_burst hodd (by simp [slice, hb.length]) (by simp [slice]) h
  apply messageBits_injective
  rw [hsplit (messageBits page'), hsplit (messageBits page), hdrop, htake, hburst]

-- n bits hold n / 8 bytes
theorem burstApart_bytes {before hit hit' behind : List UInt8} (hlen : hit'.length = hit.length) (hn : 8 * hit.length ≤ n)
    (hstart : start = 8 * before.length) : BurstApart n start (before ++ hit ++ behind) (before ++ hit' ++ behind) where
  length := by simp [hlen]
  outside i hi := by
    have hbits : (messageBits before ++ messageBits hit').length = (messageBits before ++ messageBits hit).length := by
      simp [hlen]
    subst hstart
    simp only [messageBits_append]
    rcases hi with hi | hi
    · rw [List.append_assoc, List.append_assoc, List.getElem?_append_left (by simpa using hi),
        List.getElem?_append_left (by simpa using hi)]
    · rw [List.getElem?_append_right (by simp; omega), List.getElem?_append_right (by simp; omega), hbits]

theorem getField_inj {l l' : List UInt8} (hlen : l'.length = l.length) (h : getField e l' = getField e l) : l' = l := by
  cases e with
  | le =>
    have hv : leValue l' = leValue l := h
    rw [← leBytes_leValue l', ← leBytes_leValue l, hlen, hv]
  | be =>
    rw [getField_be, getField_be] at h
    have hrev : l'.reverse = l.reverse := by
      rw [← leBytes_leValue l'.reverse, ← leBytes_leValue l.reverse, List.length_reverse, List.length_reverse, hlen, h]
    exact List.reverse_inj.mp hrev

section Checked

variable [Config] (hcrc : Config.crc32 = crcFast)

include hcrc

theorem remainderOf_page (hlen : 4 ≤ page.length) (hok : checksumOk .le page = true) :
    remainderOf page = (step polynomialBits)^[32] (BitVec.allOnes 32) := by
  have hfield : slice page (page.length - 4) 4 = page.drop (page.length - 4) := by
    rw [slice, List.take_of_length_le]
    simp
    omega
  have hsum : leValue (page.drop (page.length - 4)) = (crcFast (page.take (page.length - 4))).toNat := by
    rw [← hcrc, ← hfield]
    exact of_decide_eq_true hok
  have hfour : (page.drop (page.length - 4)).length = 4 := by
    simp
    omega
  have htail : page.drop (page.length - 4) = leBytes 4 (crcFast (page.take (page.length - 4))).toNat := by
    have hbytes := leBytes_leValue (page.drop (page.length - 4))
    rw [hfour, hsum] at hbytes
    exact hbytes.symm
  have hsplit : page = page.take (page.length - 4) ++ leBytes 4 (crcFast (page.take (page.length - 4))).toNat := by
    rw [← htail, List.take_append_drop]
  rw [hsplit]
  exact remainderOf_checked _

-- a page never keeps its checksum through a burst of 32 bits
theorem checksum_burst (hlen : 4 ≤ page.length) (hb : BurstApart 32 start page page')
    (hw : e = .le ∨ start + 32 ≤ 8 * (page.length - 4) ∨ 8 * (page.length - 4) ≤ start) (hok : checksumOk e page = true)
    (hne : page' ≠ page) : checksumOk e page' = false := by
  rw [Bool.eq_false_iff]
  intro hok'
  apply hne
  have hlen' := hb.length
  have hsum : getPageChecksum e page = calcPageChecksum page := of_decide_eq_true hok
  have hsum' : getPageChecksum e page' = calcPageChecksum page' := of_decide_eq_true hok'
  rw [getPageChecksum, calcPageChecksum, slice] at hsum hsum'
  rcases hw with rfl | hdata | hfield
  · apply hb.remainder
    rw [remainderOf_page hcrc hlen hok, remainderOf_page hcrc (by omega) hok']
  · have hdrop := hb.drop_eq hdata
    have htake : page'.take (page.length - 4) = page.take (page.length - 4) := by
      apply (hb.take _).remainder
      apply remainderOf_eq
      rw [hlen', hdrop, hsum, hcrc] at hsum'
      exact UInt32.toNat_inj.mp hsum'.symm
    rw [← List.take_append_drop (page.length - 4) page', htake, hdrop, List.take_append_drop]
  · have htake := hb.take_eq hfield
    have hdrop : page'.drop (page.length - 4) = page.drop (page.length - 4) := by
      rw [hlen', htake, ← hsum] at hsum'
      have hslice := getField_inj (by simp [hlen']) hsum'
      rwa [List.take_of_length_le (by simp; omega), List.take_of_length_le (by simp; omega)] at hslice
    rw [← List.take_append_drop (page.length - 4) page', htake, hdrop, List.take_append_drop]

end Checked

theorem checksum_burst_lastByte :
    @checksumOk dynamicConfig .le ([1, 2, 3, 4] ++ leBytes 4 (crcFast [1, 2, 3, 4]).toNat) = true ∧
      @checksumOk dynamicConfig .le ([1, 2, 3, 0] ++ leBytes 4 (crcFast [1, 2, 3, 4]).toNat) = false := by
  have hok : @checksumOk dynamicConfig .le ([1, 2, 3, 4] ++ leBytes 4 (crcFast [1, 2, 3, 4]).toNat) = true := by
    decide +kernel
  have hb : BurstApart 32 (8 * 3) ([1, 2, 3] ++ [4] ++ leBytes 4 (crcFast [1, 2, 3, 4]).toNat)
      ([1, 2, 3] ++ [0] ++ leBytes 4 (crcFast [1, 2, 3, 4]).toNat) := by
    apply burstApart_bytes <;> simp
  exact ⟨hok, @checksum_burst _ _ _ _ dynamicConfig rfl (by simp) hb (Or.inl rfl) hok (by simp)⟩

end Pages

section Mount

variable [Config] {s s' t : Fs} {hd : Header} {i start : ℕ}

-- the image s with a burst in inode page i
structure BurstIn (s s' : Fs) (hd : Header) (i start : ℕ) : Prop where
  rest : s' = { s with mem := { s.mem with bytes := s'.mem.bytes } }
  header : HeaderOn s'.mem hd
  others : ∀ j < hd.maxInodes, j ≠ i → pageAt (s'.withHeader hd) j = pageAt (s.withHeader hd) j
  burst : BurstApart 32 start (pageAt (s.withHeader hd) i) (pageAt (s'.withHeader hd) i)
  changed : pageAt (s'.withHeader hd) i ≠ pageAt (s.withHeader hd) i

theorem BurstIn.not_valid (hcrc : Config.crc32 = crcFast) (hon : HeaderOn s.mem hd) (hb : BurstIn s s' hd i start)
    (hw : hd.endianness = .le ∨ start + 32 ≤ 8 * (hd.pageSize - 4) ∨ 8 * (hd.pageSize - 4) ≤ start)
    (hi : CrcValid (s.withHeader hd) i) : ¬ CrcValid (s'.withHeader hd) i := by
  obtain ⟨hlen, hok⟩ := (crcValid_iff _ _).mp hi
  rw [crcValid_iff]
  rintro ⟨-, hok'⟩
  have hlen : (pageAt (s.withHeader hd) i).length = hd.pageSize := hlen
  have hmin := hon.minPage
  have hfour : 4 ≤ (pageAt (s.withHeader hd) i).length := by
    rw [hlen]
    exact le_trans (by decide) hmin
  have hno := checksum_burst hcrc hfour hb.burst (by rwa [hlen]) hok hb.changed
  rw [show (s'.withHeader hd).header.endianness = hd.endianness from rfl] at hok'
  rw [show (s.withHeader hd).header.endianness = hd.endianness from rfl, hok'] at hno
  cases hno

theorem BurstIn.validPages (hb : BurstIn s s' hd i start) (hno : ¬ CrcValid (s'.withHeader hd) i) :
    validPages (s'.withHeader hd) = (validPages (s.withHeader hd)).filter (· ≠ i) := by
  rw [SimpleFlashFs.validPages, SimpleFlashFs.validPages, List.filter_filter]
  apply List.filter_congr
  intro j hj
  by_cases hji : j = i
  · subst hji
    simp [hno]
  · have hsame : CrcValid (s'.withHeader hd) j ↔ CrcValid (s.withHeader hd) j := by
      rw [crcValid_iff, crcValid_iff, hb.others j (List.mem_range.mp hj) hji]
      rfl
    simp [hji, hsame]

theorem BurstIn.readable (hb : BurstIn s s' hd i start) (hno : ¬ CrcValid (s'.withHeader hd) i)
    (hq : RecordsReadable (s.withHeader hd)) : RecordsReadable (s'.withHeader hd) := by
  intro j hj hok
  have hji : j ≠ i := by
    rintro rfl
    exact hno hok
  have hpage := hb.others j hj hji
  rw [crcValid_iff, hpage] at hok
  rw [hpage]
  exact hq j hj ((crcValid_iff _ _).mpr hok)

end Mount

end SimpleFlashFs
