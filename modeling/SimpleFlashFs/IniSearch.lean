import SimpleFlashFs.IniScan

namespace SimpleFlashFs.SimpleIni

open Lib

variable {ini : SimpleIni} {f : ByteFile} {pre post skipped l piece rest a b : List UInt8}
  {sectionName key value k v : Line}

-- the key of sectionName is not in pre
structure Scanned (ini : SimpleIni) (sectionName key : Line) (f : ByteFile) (pre post : List UInt8) : Prop where
  content : f.content = pre ++ post
  ends : LineStart newLine pre ∨ post = []
  current : ini.currentSection none (lines newLine pre) = some sectionName
  fresh : ini.lookup sectionName key none (lines newLine pre) = none

-- lines after pre that mean nothing
structure Skips (ini : SimpleIni) (pre post skipped rest : List UInt8) : Prop where
  text : post = skipped ++ rest
  idle : ini.Idle (lines newLine skipped)
  ends : LineStart newLine (pre ++ skipped) ∨ rest = []

theorem Fits.cons (hcut : Cut newLine post l piece rest) (hfit : l.length ≤ ini.lineBufferSize) {s t : List UInt8}
    (hrest : rest = s ++ t) (hs : ini.Fits s) : ini.Fits (piece ++ s) := by
  unfold Fits
  rw [Cut.lines_prefix hcut hrest]
  intro x hx
  rcases List.mem_cons.mp hx with rfl | hx
  · exact hfit
  · exact hs x hx

theorem Skips.cons {skipped rest' : List UInt8} (hcut : Cut newLine post l piece rest) (hl : ini.item l = .nothing)
    (hs : ini.Skips (pre ++ piece) rest skipped rest') : ini.Skips pre post (piece ++ skipped) rest' where
  text := by rw [hcut.text, hs.text, List.append_assoc]
  idle := by
    rw [Cut.lines_prefix hcut hs.text]
    intro x hx
    rcases List.mem_cons.mp hx with rfl | hx
    · exact hl
    · exact hs.idle x hx
  ends := by
    rw [← List.append_assoc]
    exact hs.ends

theorem Scanned.skip (h : ini.Scanned sectionName key f a b) (hs : ini.Skips a b skipped rest) :
    ini.Scanned sectionName key f (a ++ skipped) rest := by
  have hcontent : f.content = (a ++ skipped) ++ rest := by
    rw [h.content, hs.text, List.append_assoc]
  by_cases hskipped : skipped = []
  · have ha : a ++ skipped = a := by rw [hskipped, List.append_nil]
    exact ⟨hcontent, hs.ends, by rw [ha]; exact h.current, by rw [ha]; exact h.fresh⟩
  · have hstart : LineStart newLine a := h.ends.resolve_right fun hb => by
      rw [hs.text] at hb
      exact hskipped (List.append_eq_nil_iff.mp hb).1
    obtain ⟨hlookup, hcurrent⟩ := hs.idle.lookup sectionName key (some sectionName)
    refine ⟨hcontent, hs.ends, ?_, ?_⟩
    · rw [lines_append hstart, currentSection_append, h.current, hcurrent]
    · rw [lines_append hstart, lookup_append, h.fresh, h.current, hlookup]
      rfl

-- lines that mean nothing, and the line of a key
structure KeyLines (ini : SimpleIni) (key value : Line) (text : List UInt8) : Prop where
  exists_idle : ∃ idle l, lines newLine text = idle ++ [l] ∧ ini.Idle idle ∧ ini.item l = .key key value

end SimpleFlashFs.SimpleIni
