import Mathlib.Data.List.Basic
import Mathlib.Tactic.Common

namespace SimpleFlashFs.Lib

variable {c d : UInt8} {s : List UInt8} {m n : ℕ}

end SimpleFlashFs.Lib
