import SimpleFlashFs.IniEdit

namespace SimpleFlashFs.SimpleIni

open Lib Lib.ByteFile

variable {ini : SimpleIni} {f g : ByteFile} {a b rest pre post pending expected : List UInt8} {values sl : List Line}

/- From the third round on the pieces are buffers of the stream pending ++ post, which is `extra` bytes
longer than what is to be written. -/
theorem insertLoop_ends {left newFileSize extra : ℕ} (pre : List UInt8)
    (hextra : 0 < extra) (hlt : extra < ini.lineBufferSize)
    (hlength : pre.length + pending.length + post.length = newFileSize + extra)
    (hfull : pending.length = ini.lineBufferSize ∨ post = [] ∧ pending.length < ini.lineBufferSize)
    (hexpected : expected.length = newFileSize) (hleft : newFileSize - pre.length < left) :
    ∃ f, ini.insertLoop newFileSize left pre.length pending (split pre post) = (true, f) ∧
      (f.content = expected ↔ ini.lineBufferSize ∣ newFileSize - pre.length ∧
        expected = pre ++ (pending ++ post).take (newFileSize - pre.length)) := by
  induction left generalizing pre pending post with
  | zero => exact absurd hleft (Nat.not_lt_zero _)
  | succ left ih =>
    rw [insertLoop_succ]
    by_cases hstop : newFileSize ≤ pre.length
    · rw [if_neg (fun h => absurd h.1 (by omega))]
      apply Exists.intro
      apply And.intro rfl
      rw [Nat.sub_eq_zero_of_le hstop, List.take_zero, List.append_nil]
      constructor
      · intro h
        apply And.intro (dvd_zero _)
        have hpost : post = [] := by
          have hlen := congrArg List.length h
          rw [split, List.length_append, hexpected] at hlen
          exact List.length_eq_zero_iff.mp (by omega)
        rw [← h, split, hpost, List.append_nil]
      · rintro ⟨-, h⟩
        rw [h] at hexpected
        have hpost : post = [] := by
          rcases hfull with hf | hf
          · exact List.length_eq_zero_iff.mp (by omega)
          · exact hf.1
        rw [h, split, hpost, List.append_nil]
    · have hpos : 0 < pending.length := by
        rcases hfull with hf | hf
        · omega
        · rw [hf.1, List.length_nil] at hlength
          omega
      rw [if_pos ⟨by omega, List.length_pos_iff.mp hpos⟩]
      rcases hfull with hf | hf
      · have hdrop : post.take ini.lineBufferSize ++ post.drop pending.length = post := by
          rw [hf, List.take_append_drop]
        have hnext : (post.take ini.lineBufferSize).length = ini.lineBufferSize ∨
            post.drop pending.length = [] ∧ (post.take ini.lineBufferSize).length < ini.lineBufferSize := by
          rw [hf, List.length_take, List.drop_eq_nil_iff]
          omega
        have hlen : (post.take ini.lineBufferSize).length + (post.drop pending.length).length = post.length := by
          rw [← List.length_append, hdrop]
        have hpre : (pre ++ pending).length = pre.length + pending.length := List.length_append
        obtain ⟨f, hloop, hf'⟩ := ih (pre ++ pending) (by omega) hnext (by omega)
        apply Exists.intro f
        apply And.intro hloop
        rw [hf', hdrop, hpre]
        by_cases hle : pre.length + pending.length ≤ newFileSize
        · have hsub : newFileSize - pre.length = newFileSize - (pre.length + pending.length) + pending.length := by omega
          rw [hsub, hf, Nat.dvd_add_self_right, List.append_assoc, ← hf,
            Nat.add_comm (newFileSize - _) pending.length, List.take_length_add_append]
        · have hndvd : ¬ ini.lineBufferSize ∣ newFileSize - pre.length :=
            Nat.not_dvd_of_pos_of_lt (by omega) (by omega)
          constructor
          · rintro ⟨-, h⟩
            rw [Nat.sub_eq_zero_of_le (by omega), List.take_zero, List.append_nil] at h
            rw [h, hpre] at hexpected
            omega
          · rintro ⟨h, -⟩
            exact absurd h hndvd
      · obtain ⟨rfl, hshort⟩ := hf
        have hlen : pre.length + pending.length = newFileSize + extra := by simpa using hlength
        rw [List.take_nil, List.drop_nil]
        cases left with
        | zero => omega
        | succ left =>
          rw [insertLoop_succ, if_neg (fun h => h.2 rfl)]
          apply Exists.intro
          apply And.intro rfl
          have hndvd : ¬ ini.lineBufferSize ∣ newFileSize - pre.length :=
            Nat.not_dvd_of_pos_of_lt (by omega) (by omega)
          constructor
          · intro h
            have hl := congrArg List.length h
            rw [split, List.length_append, List.length_append, List.length_nil, hexpected] at hl
            omega
          · intro h
            exact absurd h.1 hndvd

-- the last case needs a tail that repeats itself
def Splices (ini : SimpleIni) (len : ℕ) (tail : List UInt8) : Prop :=
  ini.Shiftable len tail.length ∨ ini.lineBufferSize ∣ tail.length ∧ tail.drop ini.lineBufferSize <+: tail.drop len

theorem insert_content (hf : f.content = a ++ b) (happend : f.append = false)
    (hfits : values.flatten.length ≤ ini.lineBufferSize) :
    ∃ g, ini.insert a.length values f = .ok (true, g) ∧
      (g.content = a ++ values.flatten ++ b ↔ ini.Splices values.flatten.length b) := by
  rw [insert, if_neg (by omega), seek_split hf happend]
  have hsize : f.size + values.flatten.length = a.length + values.flatten.length + b.length := by
    rw [ByteFile.size, hf, List.length_append]
    omega
  dsimp only
  rw [hsize]
  generalize values.flatten = new at *
  by_cases hshift : ini.Shiftable new.length b.length
  · obtain ⟨c, d, hloop, hcd⟩ := insertLoop_shiftable a hshift
    rw [hloop]
    apply Exists.intro (split c d)
    apply And.intro rfl
    exact iff_of_true hcd (Or.inl hshift)
  · obtain ⟨hnew, hlt, hlong⟩ : 0 < new.length ∧ new.length < ini.lineBufferSize ∧ ini.lineBufferSize < b.length := by
      unfold Shiftable at hshift
      omega
    have hnil : new ≠ [] := List.length_pos_iff.mp hnew
    have htake : (b.take ini.lineBufferSize).length = ini.lineBufferSize := List.length_take_of_le hlong.le
    have hnil' : b.take ini.lineBufferSize ≠ [] := List.length_pos_iff.mp (by omega)
    obtain ⟨left, hleft⟩ : ∃ left, a.length + new.length + b.length + 1 = left + 2 := ⟨_, (Nat.sub_add_cancel (by omega)).symm⟩
    have hpre : (a ++ new ++ b.take ini.lineBufferSize).length = a.length + new.length + ini.lineBufferSize := by
      rw [List.length_append, List.length_append, htake]
    have hstream : ((b.drop new.length).take ini.lineBufferSize ++ (b.drop new.length).drop ini.lineBufferSize) =
        b.drop new.length := List.take_append_drop _ _
    have hlens : ((b.drop new.length).take ini.lineBufferSize).length +
        ((b.drop new.length).drop ini.lineBufferSize).length = b.length - new.length := by
      rw [← List.length_append, hstream, List.length_drop]
    rw [hleft, insertLoop_succ, if_pos ⟨by omega, hnil⟩, insertLoop_succ,
      if_pos ⟨by rw [List.length_append]; omega, hnil'⟩, htake]
    have hfull : ((b.drop new.length).take ini.lineBufferSize).length = ini.lineBufferSize ∨
        (b.drop new.length).drop ini.lineBufferSize = [] ∧
          ((b.drop new.length).take ini.lineBufferSize).length < ini.lineBufferSize := by
      rw [List.length_take, List.drop_eq_nil_iff]
      omega
    have hlen : (a ++ new ++ b).length = a.length + new.length + b.length := by
      rw [List.length_append, List.length_append]
    have hsub : a.length + new.length + b.length - (a ++ new ++ b.take ini.lineBufferSize).length =
        b.length - ini.lineBufferSize := by
      rw [hpre]
      omega
    have htotal : (a ++ new ++ b.take ini.lineBufferSize).length + ((b.drop new.length).take ini.lineBufferSize).length +
        ((b.drop new.length).drop ini.lineBufferSize).length =
          a.length + new.length + b.length + (ini.lineBufferSize - new.length) := by omega
    obtain ⟨f, hloop, hf⟩ := @insertLoop_ends ini _ _ _ left _ _ _ (Nat.sub_pos_of_lt hlt) (by omega) htotal hfull hlen
      (by omega)
    rw [hloop]
    apply Exists.intro f
    apply And.intro rfl
    have hdvd : ini.lineBufferSize ∣ b.length - ini.lineBufferSize ↔ ini.lineBufferSize ∣ b.length :=
      Nat.dvd_sub_self_right.trans (or_iff_left (Nat.not_le.mpr hlong))
    have hcontent : a ++ new ++ b = a ++ new ++ b.take ini.lineBufferSize ++
        (b.drop new.length).take (b.length - ini.lineBufferSize) ↔ b.drop ini.lineBufferSize <+: b.drop new.length := by
      rw [List.append_assoc _ (b.take _), List.append_cancel_left_eq, List.prefix_iff_eq_take, List.length_drop]
      conv_lhs => lhs; rw [← List.take_append_drop ini.lineBufferSize b]
      exact List.append_cancel_left_eq _ _ _ |>.to_iff
    rw [hf, hsub, hstream, hdvd, hcontent]
    exact (or_iff_right hshift).symm

theorem insert_splices (ini : SimpleIni) (content : List UInt8) (cursor p : ℕ) (values : List Line)
    (hp : p ≤ content.length) (hfits : values.flatten.length ≤ ini.lineBufferSize) :
    ∃ g, ini.insert p values { content := content, pos := cursor } = .ok (true, g) ∧
      (g.content = content.take p ++ values.flatten ++ content.drop p ↔
        ini.Splices values.flatten.length (content.drop p)) := by
  have hsplit : content = content.take p ++ content.drop p := (List.take_append_drop p content).symm
  have h := insert_content (f := { content := content, pos := cursor }) hsplit rfl hfits
  rwa [List.length_take_of_le hp] at h

-- a tail of two buffers
theorem insert_splices_long : ∃ g, (simpleIni 4).insert 1 [[120, 61], [49, 10]]
    { content := [97, 98, 99, 100, 101, 102, 103, 104, 105] } = .ok (true, g) ∧
      (g.content = [97] ++ [120, 61, 49, 10] ++ [98, 99, 100, 101, 102, 103, 104, 105] ↔
        (simpleIni 4).Splices 4 [98, 99, 100, 101, 102, 103, 104, 105]) :=
  insert_splices (simpleIni 4) [97, 98, 99, 100, 101, 102, 103, 104, 105] 0 1 [[120, 61], [49, 10]] (by decide) (by decide)

-- "x" into "abcdef" gives "xabcdbcde"
theorem insert_garbles : ∃ g, (simpleIni 4).insert 0 [[120]] { content := [97, 98, 99, 100, 101, 102] } = .ok (true, g) ∧
    g.content ≠ [120] ++ [97, 98, 99, 100, 101, 102] :=
  ⟨{ content := [120, 97, 98, 99, 100, 98, 99, 100, 101], pos := 9 }, by decide, by decide⟩

-- a shorter entry in the place of the bytes from start to the cursor
theorem replaceKey_shrinks (ini : SimpleIni) (content : List UInt8) (start stop : ℕ) (sl : List Line)
    (hbuffer : 1 ≤ ini.lineBufferSize) (hstart : start ≤ stop) (hstop : stop ≤ content.length)
    (hless : sl.flatten.length < stop - start) :
    ∃ g, ini.replaceKey start sl { content := content, pos := stop } = .ok (true, g) ∧
      g.content = content.take start ++ sl.flatten ++ content.drop stop ∧
      g.content.length = content.length - (stop - start - sl.flatten.length) := by
  have hb : (content.drop start).take (stop - start) ++ content.drop stop = content.drop start := by
    have hdrop : (content.drop start).drop (stop - start) = content.drop stop := by
      rw [List.drop_drop, Nat.add_sub_of_le hstart]
    rw [← hdrop, List.take_append_drop]
  have hf : content = content.take start ++ (content.drop start).take (stop - start) ++ content.drop stop := by
    rw [List.append_assoc, hb, List.take_append_drop]
  have ha : (content.take start).length = start := List.length_take_of_le (by omega)
  have hlen : ((content.drop start).take (stop - start)).length = stop - start := by
    rw [List.length_take, List.length_drop]
    omega
  obtain ⟨g, hg, hcontent, -⟩ := @shrink_spec ini { content := content, pos := stop } _ _ _ sl hbuffer hf rfl
    (by rw [hlen]; exact hless)
  rw [ha, hlen] at hg
  refine ⟨g, ?_, hcontent, ?_⟩
  · rw [replaceKey]
    dsimp only
    rw [if_pos hless, hg]
  · rw [hcontent]
    simp only [List.length_append, List.length_take, List.length_drop]
    omega

-- the tail is longer than the buffer and than the shift
theorem replaceKey_shrinks_long : ∃ g, (simpleIni 2).replaceKey 1 [[120], [10]]
      { content := [97, 98, 99, 100, 101, 102, 103, 104, 105], pos := 4 } = .ok (true, g) ∧
    g.content = [97] ++ [120, 10] ++ [101, 102, 103, 104, 105] ∧ g.content.length = 9 - (4 - 1 - 2) :=
  replaceKey_shrinks (simpleIni 2) [97, 98, 99, 100, 101, 102, 103, 104, 105] 1 4 [[120], [10]] (by decide) (by decide)
    (by decide) (by decide)

end SimpleFlashFs.SimpleIni
