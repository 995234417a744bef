import SimpleFlashFs.IniEntry
import SimpleFlashFs.Lib.Hex

namespace SimpleFlashFs.SimpleIni

open Lib ByteFile

section Model

variable (ini : SimpleIni)

end Model

variable {ini : SimpleIni} {f g : ByteFile} {l : List UInt8} {sectionName key comment : Line} {blob span : List UInt8}

section Codec

end Codec

section Blob

end Blob

end SimpleFlashFs.SimpleIni
