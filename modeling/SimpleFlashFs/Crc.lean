import Mathlib.Algebra.Group.Nat.Defs
import Mathlib.Tactic.Common

namespace SimpleFlashFs

def reflect (data nBits : ℕ) : ℕ :=
  go nBits 0 data 0
where
  go : ℕ → ℕ → ℕ → ℕ → ℕ
    | 0, _, _, reflection => reflection
    | n + 1, bit, data, reflection =>
      go n (bit + 1) (data >>> 1)
        (if data &&& 1 = 1 then reflection ||| (1 <<< (nBits - 1 - bit)) else reflection)

def polynomial : ℕ := 0x04C11DB7
def initialRemainder : ℕ := 0xFFFFFFFF
def finalXorValue : ℕ := 0xFFFFFFFF

def divideBits : ℕ → ℕ → ℕ
  | 0, remainder => remainder
  | n + 1, remainder =>
    divideBits n (if remainder &&& 0x80000000 = 0 then (remainder <<< 1) % 2 ^ 32
      else (remainder <<< 1) % 2 ^ 32 ^^^ polynomial)

def crcSlowLoop : List UInt8 → ℕ → ℕ
  | [], remainder => remainder
  | b :: message, remainder => crcSlowLoop message (divideBits 8 (remainder ^^^ (reflect b.toNat 8 <<< 24)))

def crcSlow (message : List UInt8) : UInt32 :=
  UInt32.ofNat (reflect (crcSlowLoop message initialRemainder) 32 ^^^ finalXorValue)

-- crcInit stores the same remainder for every dividend in an array
def crcTable (dividend : ℕ) : ℕ := divideBits 8 (dividend <<< 24)

def crcLoop : List UInt8 → ℕ → ℕ
  | [], remainder => remainder
  | b :: message, remainder =>
    crcLoop message
      (crcTable (reflect b.toNat 8 ^^^ (remainder >>> 24)) ^^^ ((remainder <<< 8) % 2 ^ 32))

def crcFast (message : List UInt8) : UInt32 :=
  UInt32.ofNat (reflect (crcLoop message initialRemainder) 32 ^^^ finalXorValue)

-- CHECK_VALUE of crc.h: the CRC-32 of "123456789"
example : crcFast [49, 50, 51, 52, 53, 54, 55, 56, 57] = 0xCBF43926 := by decide +kernel

end SimpleFlashFs
