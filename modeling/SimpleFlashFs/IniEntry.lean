import SimpleFlashFs.IniStore
import SimpleFlashFs.IniRead

namespace SimpleFlashFs.SimpleIni

open Lib ByteFile

variable {ini : SimpleIni} {f g : ByteFile} {a b x y z rest pending : List UInt8} {sectionName key value comment v : Line}
  {values sl L M : List Line}

section Writing

end Writing

section Placed

end Placed

section Storing

end Storing

end SimpleFlashFs.SimpleIni
