import SimpleFlashFs.IniSearch

namespace SimpleFlashFs.SimpleIni

open Lib ByteFile LineBuffer

variable {ini : SimpleIni} {f g : ByteFile} {pre a y z l piece rest : List UInt8} {sectionName key v : Line} {L M : List Line}

end SimpleFlashFs.SimpleIni
