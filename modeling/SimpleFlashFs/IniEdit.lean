import SimpleFlashFs.IniSearch

namespace SimpleFlashFs

open Lib

namespace Lib.ByteFile

-- a file with the cursor between two parts
def split (pre post : List UInt8) : ByteFile := { content := pre ++ post, pos := pre.length }

variable {f : ByteFile} {pre post a b d : List UInt8}

theorem moved_split (hf : f.content = a ++ b) (happend : f.append = false) : f.moved a.length = split a b := by
  obtain ⟨content, pos, append⟩ := f
  obtain rfl := hf
  obtain rfl := happend
  rfl

theorem seek_split (hf : f.content = a ++ b) (happend : f.append = false) : (f.seek a.length).2 = split a b := by
  rw [seek_moved (by rw [hf, List.length_append]; omega), moved_split hf happend]

theorem write_split (pre post d : List UInt8) :
    (split pre post).write d = (d.length, split (pre ++ d) (post.drop d.length)) := by
  have hover : overwrite (pre ++ post) pre.length d = (pre ++ d) ++ post.drop d.length := by
    rw [overwrite, List.take_left, List.drop_length_add_append]
  rw [write_of_not_append rfl, split, split, hover, List.length_append]

theorem read_split (pre post : List UInt8) (n : ℕ) :
    (split pre post).read n = (post.take n, split (pre ++ post.take n) (post.drop n)) := by
  have hslice : slice (pre ++ post) pre.length n = post.take n := by
    rw [slice, List.drop_left]
  rw [read, split, split, List.append_assoc, List.take_append_drop, List.length_append]
  dsimp only
  rw [hslice]

end Lib.ByteFile

namespace SimpleIni

open ByteFile

variable {ini : SimpleIni} {f g : ByteFile} {pre post a b rest pending new : List UInt8} {values sl : List Line}

theorem writeAll_split (values : List Line) (pre post : List UInt8) : writeAll values (split pre post) =
    (true, split (pre ++ values.flatten) (post.drop values.flatten.length)) := by
  induction values generalizing pre post with
  | nil => simp [writeAll]
  | cons s values ih =>
    rw [writeAll, write_split]
    dsimp only
    rw [if_pos rfl, ih, List.flatten_cons, List.append_assoc, List.drop_drop, List.length_append]

theorem insertLoop_succ (newFileSize left : ℕ) (pre pending post : List UInt8) :
    ini.insertLoop newFileSize (left + 1) pre.length pending (split pre post) =
      if pre.length < newFileSize ∧ pending ≠ [] then
        ini.insertLoop newFileSize left (pre ++ pending).length (post.take ini.lineBufferSize)
          (split (pre ++ pending) (post.drop pending.length))
      else (true, split pre post) := by
  rw [insertLoop]
  split
  · dsimp only
    rw [read_split]
    dsimp only
    have hseek : ((split (pre ++ post.take ini.lineBufferSize) (post.drop ini.lineBufferSize)).seek
        (split pre post).pos).2 = split pre post := by
      apply seek_split
      · rw [split, List.append_assoc, List.take_append_drop]
      · rfl
    rw [hseek, write_split]
    dsimp only
    rw [if_neg (not_not.mpr rfl), List.length_append]
  · rfl

-- the buffer is full, or nothing is left to read
theorem insertLoop_full {left : ℕ} (pre : List UInt8) (hfull : pending.length = ini.lineBufferSize ∨ post = [])
    (hleft : pending.length + post.length < left) :
    ∃ c d, ini.insertLoop (pre.length + pending.length + post.length) left pre.length pending (split pre post) =
      (true, split c d) ∧ c ++ d = pre ++ pending ++ post := by
  induction left generalizing pre pending post with
  | zero => exact absurd hleft (Nat.not_lt_zero _)
  | succ left ih =>
    rw [insertLoop_succ]
    by_cases hpending : pending = []
    · rw [if_neg (fun h => h.2 hpending), hpending, List.append_nil]
      exact ⟨pre, post, rfl, rfl⟩
    · have hpos := List.length_pos_iff.mpr hpending
      rw [if_pos ⟨by omega, hpending⟩]
      have hdrop : post.take ini.lineBufferSize ++ post.drop pending.length = post := by
        rcases hfull with h | h
        · rw [h, List.take_append_drop]
        · simp [h]
      have hlen : (post.take ini.lineBufferSize).length + (post.drop pending.length).length = post.length := by
        rw [← List.length_append, hdrop]
      have hfull' : (post.take ini.lineBufferSize).length = ini.lineBufferSize ∨ post.drop pending.length = [] := by
        rcases hfull with h | h
        · rw [h, List.length_take, List.drop_eq_nil_iff]
          omega
        · right
          rw [h, List.drop_nil]
      obtain ⟨c, d, hloop, hcd⟩ := ih (pre ++ pending) hfull' (by omega)
      have hsize : (pre ++ pending).length + (post.take ini.lineBufferSize).length + (post.drop pending.length).length =
          pre.length + pending.length + post.length := by
        rw [List.length_append]
        omega
      rw [hsize] at hloop
      exact ⟨c, d, hloop, by rw [hcd, List.append_assoc, hdrop]⟩

-- what insert can shift: everything at once, or piece by piece when the pieces fill the buffer
def Shiftable (ini : SimpleIni) (len tail : ℕ) : Prop := len = 0 ∨ tail ≤ ini.lineBufferSize ∨ len = ini.lineBufferSize

theorem insertLoop_short {left : ℕ} (pre : List UInt8) (hshort : post.length ≤ ini.lineBufferSize)
    (hleft : pending.length + post.length < left) :
    ∃ c d, ini.insertLoop (pre.length + pending.length + post.length) left pre.length pending (split pre post) =
      (true, split c d) ∧ c ++ d = pre ++ pending ++ post := by
  by_cases hpost : post = []
  · exact insertLoop_full pre (Or.inr hpost) hleft
  by_cases hpending : pending = []
  · cases left with
    | zero => exact absurd hleft (Nat.not_lt_zero _)
    | succ left =>
      rw [insertLoop, if_neg (fun h => h.2 hpending), hpending, List.append_nil]
      exact ⟨pre, post, rfl, rfl⟩
  have hpos := List.length_pos_iff.mpr hpending
  have hpos' := List.length_pos_iff.mpr hpost
  obtain ⟨left, rfl⟩ : ∃ n, left = n + 2 := ⟨left - 2, by omega⟩
  have hall : post.take ini.lineBufferSize = post := List.take_of_length_le hshort
  rw [insertLoop_succ, if_pos ⟨by omega, hpending⟩, hall, insertLoop_succ,
    if_pos ⟨by rw [List.length_append]; omega, hpost⟩]
  refine ⟨pre ++ pending ++ post, (post.drop pending.length).drop post.length, ?_, ?_⟩
  · cases left with
    | zero => rfl
    | succ left => rw [insertLoop_succ, if_neg (fun h => absurd h.1 (by simp only [List.length_append]; omega))]
  · rw [List.drop_drop, List.drop_eq_nil_of_le (by omega), List.append_nil]

theorem insertLoop_shiftable (pre : List UInt8) (hshift : ini.Shiftable new.length post.length) :
    ∃ c d, ini.insertLoop (pre.length + new.length + post.length) (pre.length + new.length + post.length + 1) pre.length new
      (split pre post) = (true, split c d) ∧ c ++ d = pre ++ new ++ post := by
  rcases hshift with h | h | h
  · obtain rfl := List.length_eq_zero_iff.mp h
    rw [insertLoop, if_neg (fun h => h.2 rfl), List.append_nil]
    exact ⟨pre, post, rfl, rfl⟩
  · exact insertLoop_short pre h (by omega)
  · exact insertLoop_full pre (Or.inl h) (by omega)

-- the tail moves over the gap in front of it
theorem shiftLoop_spec {left : ℕ} {tail gap : List UInt8} (hbuffer : 0 < ini.lineBufferSize) (hf : f.content = a ++ gap ++ tail)
    (happend : f.append = false) (hleft : tail.length < left) :
    ∃ c d q, ini.shiftLoop left tail.length (a ++ gap).length a.length f = (.done, (split c d).moved q) ∧
      (c ++ d).take (a.length + tail.length) = a ++ tail ∧ (c ++ d).length = f.content.length := by
  induction left generalizing a gap tail f with
  | zero => exact absurd hleft (Nat.not_lt_zero _)
  | succ left ih =>
    rw [shiftLoop]
    by_cases htail : tail = []
    · rw [if_neg (by simp [htail])]
      refine ⟨a, gap, f.pos, ?_, ?_, ?_⟩
      · rw [htail, List.append_nil] at hf
        obtain ⟨content, pos, append⟩ := f
        obtain rfl := hf
        obtain rfl := happend
        rfl
      · simp [htail]
      · rw [hf, htail, List.append_nil]
    · have hpos := List.length_pos_iff.mpr htail
      rw [if_pos hpos]
      dsimp only
      rw [seek_split hf happend, read_split]
      dsimp only
      set m := min tail.length ini.lineBufferSize with hm
      have hchunk : tail.take m ≠ [] := by
        intro h
        rcases List.take_eq_nil_iff.mp h with h | h
        · omega
        · exact htail h
      have hmlen : (tail.take m).length = m := by
        rw [List.length_take]
        omega
      rw [if_neg hchunk]
      have hseek : ((split (a ++ gap ++ tail.take m) (tail.drop m)).seek a.length).2 = split a (gap ++ tail) := by
        apply seek_split
        · rw [split, List.append_assoc _ (tail.take m), List.take_append_drop, List.append_assoc]
        · rfl
      rw [hseek, write_split, hmlen]
      dsimp only
      rw [if_neg (not_not.mpr rfl)]
      have hcut : (gap ++ tail).drop m = ((gap ++ tail).drop m).take gap.length ++ tail.drop m := by
        have hrest : ((gap ++ tail).drop m).drop gap.length = tail.drop m := by
          rw [List.drop_drop, Nat.add_comm, List.drop_length_add_append]
        rw [← hrest, List.take_append_drop]
      have hgap : (((gap ++ tail).drop m).take gap.length).length = gap.length := by
        rw [List.length_take, List.length_drop, List.length_append]
        omega
      have hsplit : (split (a ++ tail.take m) ((gap ++ tail).drop m)).content =
          (a ++ tail.take m) ++ ((gap ++ tail).drop m).take gap.length ++ tail.drop m := by
        rw [split, List.append_assoc _ _ (tail.drop m), ← hcut]
      obtain ⟨c, d, q, hloop, htake, hlen⟩ := ih hsplit rfl (by rw [List.length_drop]; omega)
      refine ⟨c, d, q, ?_, ?_, ?_⟩
      · rw [← hloop]
        congr 1
        · rw [List.length_drop]
        · rw [List.length_append, List.length_append, List.length_append, hgap, hmlen]
          omega
        · rw [List.length_append, hmlen]
      · rw [List.append_assoc, List.take_append_drop, List.length_append, hmlen, List.length_drop] at htake
        rw [← htake]
        congr 1
        omega
      · rw [hlen, hf, split]
        simp only [List.length_append, hmlen, List.length_drop]
        omega

theorem shrink_spec (hbuffer : 0 < ini.lineBufferSize) (hf : f.content = a ++ b ++ rest) (happend : f.append = false)
    (hless : sl.flatten.length < b.length) : ∃ g, ini.shrink a.length b.length sl f = (true, g) ∧
      g.content = a ++ sl.flatten ++ rest ∧ g.append = false := by
  have hf' : f.content = a ++ (b ++ rest) := by rw [hf, List.append_assoc]
  have hsize : f.size = a.length + b.length + rest.length := by
    rw [ByteFile.size, hf]
    simp only [List.length_append]
  unfold shrink
  dsimp only
  rw [seek_split hf' happend, writeAll_split]
  dsimp only
  rw [if_neg (by decide), hsize]
  have hdrop : (b ++ rest).drop sl.flatten.length = b.drop sl.flatten.length ++ rest :=
    List.drop_append_of_le_length (by omega)
  have hsplit : (split (a ++ sl.flatten) ((b ++ rest).drop sl.flatten.length)).content =
      (a ++ sl.flatten) ++ b.drop sl.flatten.length ++ rest := by
    rw [split, hdrop, List.append_assoc _ (b.drop _)]
  obtain ⟨c, d, q, hloop, htake, hlen⟩ := shiftLoop_spec hbuffer hsplit rfl (Nat.lt_succ_self _)
  have hread : (a ++ sl.flatten ++ b.drop sl.flatten.length).length = a.length + b.length := by
    simp only [List.length_append, List.length_drop]
    omega
  have hwrite : (a ++ sl.flatten).length = a.length + b.length - (b.length - sl.flatten.length) := by
    rw [List.length_append]
    omega
  have htail : a.length + b.length + rest.length - (a.length + b.length) = rest.length := by omega
  rw [hread, hwrite] at hloop
  rw [htail, hloop]
  dsimp only
  rw [ByteFile.truncate]
  dsimp only
  rw [if_neg (by decide)]
  have hnew : a.length + b.length + rest.length - (b.length - sl.flatten.length) = (a ++ sl.flatten).length + rest.length := by
    rw [List.length_append]
    omega
  have hzero : a.length + b.length + rest.length - (b.length - sl.flatten.length) - (c ++ d).length = 0 := by
    rw [hlen, split]
    simp only [List.length_append, List.length_drop]
    omega
  refine ⟨_, rfl, ?_, rfl⟩
  dsimp only [ByteFile.moved, split]
  rw [hzero, hnew, htake, List.replicate_zero, List.append_nil]

end SimpleIni

end SimpleFlashFs
