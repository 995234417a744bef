import SimpleFlashFs.Inode

namespace SimpleFlashFs

open Lib

def swapByteOrder (totalBytes val : ℕ) : ℕ :=
  (List.range totalBytes).foldl
    (fun swapped i => swapped ||| (((val >>> (8 * (totalBytes - i - 1))) &&& 0xFF) <<< (8 * i))) 0

-- the host is little-endian
def autoEndianess (endianness : Endianness) (totalBytes val : ℕ) : ℕ :=
  match endianness with
  | .le => val
  | .be => swapByteOrder totalBytes val

def putField (endianness : Endianness) (totalBytes val : ℕ) : List UInt8 :=
  leBytes totalBytes (autoEndianess endianness totalBytes val)

def getField (endianness : Endianness) (bytes : List UInt8) : ℕ :=
  autoEndianess endianness bytes.length (leValue bytes)

def magickString : List UInt8 := [83, 105, 109, 112, 108, 101, 70, 108, 97, 115, 104, 70, 115]
def endiannessLe : List UInt8 := [76, 69]
def endiannessBe : List UInt8 := [66, 69]
def minPageSize : ℕ := 37

section Checksum

variable [Config]

def calcPageChecksum (page : List UInt8) : ℕ :=
  (Config.crc32 (page.take (page.length - 4))).toNat

def getPageChecksum (endianness : Endianness) (page : List UInt8) : ℕ :=
  getField endianness (slice page (page.length - 4) 4)

def addPageChecksum (endianness : Endianness) (page : List UInt8) : List UInt8 :=
  overwrite page (page.length - 4) (putField endianness 4 (calcPageChecksum page))

def checksumOk (endianness : Endianness) (page : List UInt8) : Bool :=
  getPageChecksum endianness page = calcPageChecksum page

end Checksum

def Header.encodeEndianness : Endianness → List UInt8
  | .le => endiannessLe
  | .be => endiannessBe

def Header.fields (h : Header) : List UInt8 :=
  putField h.endianness 2 h.version ++ putField h.endianness 4 h.pageSize ++
    putField h.endianness 8 h.filesystemSize ++ putField h.endianness 4 h.maxInodes ++
    putField h.endianness 2 h.maxPathLen ++ putField h.endianness 2 0

-- memcpy of the magic string, then of the endianness at MAGICK_STRING_LEN, then of the fields
def header2page [Config] (h : Header) : Except Fault (List UInt8) :=
  if h.magicString.length ≤ h.pageSize ∧ minPageSize ≤ h.pageSize then
    let page := List.replicate h.pageSize 0
    let page := overwrite page 0 h.magicString
    let page := overwrite page 13 (Header.encodeEndianness h.endianness)
    let page := overwrite page 15 h.fields
    .ok (addPageChecksum h.endianness page)
  else .error .undefined

theorem two_pow_eight_mul (k : ℕ) : 2 ^ (8 * k) = 256 ^ k := pow_mul 2 8 k

theorem shiftedByte (v k : ℕ) : (v >>> (8 * k)) &&& 0xFF = (UInt8.ofNat (v / 256 ^ k)).toNat := by
  rw [show (0xFF : ℕ) = 2 ^ 8 - 1 from rfl, Nat.and_two_pow_sub_one_eq_mod, Nat.shiftRight_eq_div_pow,
    two_pow_eight_mul, UInt8.toNat_ofNat']

theorem swapByteOrder_eq (w v : ℕ) : swapByteOrder w v = leValue (leBytes w v).reverse := by
  have loop : ∀ k, k ≤ w → (List.range k).foldl
      (fun swapped i => swapped ||| (((v >>> (8 * (w - i - 1))) &&& 0xFF) <<< (8 * i))) 0 =
      leValue ((leBytes w v).reverse.take k) := by
    intro k hk
    induction k with
    | zero => simp [leValue]
    | succ k ih =>
      have hlen : ((leBytes w v).reverse.take k).length = k := by simp; omega
      have hget : (leBytes w v).reverse[k]? = some (UInt8.ofNat (v / 256 ^ (w - k - 1))) := by
        rw [List.getElem?_reverse (by simp; omega), leBytes_length,
          show w - 1 - k = w - k - 1 by omega, getElem?_leBytes _ (by omega)]
      have hlt := leValue_lt ((leBytes w v).reverse.take k)
      rw [hlen, ← two_pow_eight_mul] at hlt
      rw [List.range_succ, List.foldl_append, ih (by omega), List.take_add_one, hget,
        Option.toList_some, leValue_append, hlen, List.foldl_cons, List.foldl_nil, shiftedByte,
        Nat.or_comm, ← Nat.shiftLeft_add_eq_or_of_lt hlt, Nat.shiftLeft_eq]
      simp only [leValue, Nat.mul_zero, Nat.add_zero, two_pow_eight_mul]
      ring
  rw [swapByteOrder, loop w le_rfl, List.take_of_length_le (by simp)]

theorem putField_be (w v : ℕ) : putField .be w v = (leBytes w v).reverse := by
  have h := leBytes_leValue (leBytes w v).reverse
  rw [List.length_reverse, leBytes_length] at h
  rw [putField, autoEndianess, swapByteOrder_eq, h]

theorem getField_be (l : List UInt8) : getField .be l = leValue l.reverse := by
  rw [getField, autoEndianess, swapByteOrder_eq, leBytes_leValue]

@[simp] theorem putField_length (e : Endianness) (w v : ℕ) : (putField e w v).length = w := by
  simp [putField]

theorem getField_putField {e : Endianness} {w v : ℕ} (h : v < 256 ^ w) :
    getField e (putField e w v) = v := by
  cases e with
  | le =>
    rw [putField, getField, autoEndianess, autoEndianess, leValue_leBytes, Nat.mod_eq_of_lt h]
  | be =>
    rw [putField_be, getField_be, List.reverse_reverse, leValue_leBytes, Nat.mod_eq_of_lt h]

theorem getField_lt (e : Endianness) (l : List UInt8) : getField e l < 256 ^ l.length := by
  cases e with
  | le => exact leValue_lt l
  | be =>
    have h := leValue_lt l.reverse
    rw [List.length_reverse] at h
    rw [getField_be]
    exact h

theorem getField_slice_lt (e : Endianness) (l : List UInt8) (pos w : ℕ) :
    getField e (slice l pos w) < 256 ^ w := by
  have h := getField_lt e (slice l pos w)
  have hw : (slice l pos w).length ≤ w := by simp
  exact h.trans_le (Nat.pow_le_pow_right (by omega) hw)

def parseEndianness (page : List UInt8) : Option Endianness :=
  if slice page 13 2 = endiannessBe then some .be
  else if slice page 13 2 = endiannessLe then some .le
  else none

def parseHeader (e : Endianness) (page : List UInt8) : Header where
  magicString := slice page 0 13
  endianness := e
  version := getField e (slice page 15 2)
  pageSize := getField e (slice page 17 4)
  filesystemSize := getField e (slice page 21 8)
  maxInodes := getField e (slice page 29 4)
  maxPathLen := getField e (slice page 33 2)
  version_lt := getField_slice_lt e page 15 2
  pageSize_lt := getField_slice_lt e page 17 4
  filesystemSize_lt := getField_slice_lt e page 21 8
  maxInodes_lt := getField_slice_lt e page 29 4
  maxPathLen_lt := getField_slice_lt e page 33 2

def parseChecksumType (e : Endianness) (page : List UInt8) : ℕ := getField e (slice page 35 2)

end SimpleFlashFs
