import SimpleFlashFs.IniInsert

namespace SimpleFlashFs.SimpleIni

open Lib ByteFile

variable {ini : SimpleIni} {f g : ByteFile} {a b c rest new : List UInt8} {sectionName key value comment s k : Line}

-- what users pass to write
structure Legal (ini : SimpleIni) (sectionName key value : Line) : Prop where
  newLine : newLine ∉ sectionName ∧ newLine ∉ key ∧ newLine ∉ value
  white : strip ini.white sectionName = sectionName ∧ strip ini.white key = key ∧ strip ini.white value = value
  equals : equals ∉ key
  start : ∀ c ∈ key.head?, c ≠ openBracket ∧ c ∉ ini.commentSigns

section Lines

end Lines

-- lines that only hold the key itself, if anything
structure Replaced (ini : SimpleIni) (sectionName key : Line) (l : List Line) : Prop where
  others : ∀ s k, (s, k) ≠ (sectionName, key) → ini.lookup s k (some sectionName) l = none
  current : ini.currentSection (some sectionName) l = some sectionName

theorem KeyLines.replaced {old : Line} (h : ini.KeyLines key old b) :
    ini.Replaced sectionName key (lines newLine b) := by
  obtain ⟨idle, l, hlines, hidle, hitem⟩ := h.exists_idle
  constructor
  · intro s k hsk
    obtain ⟨h1, h2⟩ := hidle.lookup s k (some sectionName)
    rw [hlines, lookup_append, h1, h2, lookup, hitem]
    dsimp only
    rw [if_neg]
    · rfl
    · rintro ⟨hs, rfl⟩
      exact hsk (by rw [Option.some_inj.mp hs])
  · rw [hlines, currentSection_append, (hidle.lookup sectionName key _).2, currentSection, hitem]
    rfl

end SimpleFlashFs.SimpleIni
