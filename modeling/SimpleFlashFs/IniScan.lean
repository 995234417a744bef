import SimpleFlashFs.SimpleIni

namespace SimpleFlashFs.SimpleIni

open Lib LineBuffer

-- what a line means
inductive Item
  | nothing
  | head (name : Line)
  | key (name value : Line)
deriving DecidableEq, Repr

variable (ini : SimpleIni)

def item (line : Line) : Item :=
  match ini.visible line with
  | [] => .nothing
  | c :: sv =>
    if c = openBracket then .head (ini.getSectionName (c :: sv))
    else if equals ∉ c :: sv then .nothing
    else .key (ini.getKeyValue (c :: sv)).1 (ini.getKeyValue (c :: sv)).2

-- an INI file is its lines: the section after them and the first value of a key
def currentSection : Option Line → List Line → Option Line
  | current, [] => current
  | current, line :: rest =>
    match ini.item line with
    | .head name => currentSection (some name) rest
    | _ => currentSection current rest

def lookup (sectionName key : Line) : Option Line → List Line → Option Line
  | _, [] => none
  | current, line :: rest =>
    match ini.item line with
    | .nothing => lookup sectionName key current rest
    | .head name => lookup sectionName key (some name) rest
    | .key name value =>
      if current = some sectionName ∧ name = key then some value else lookup sectionName key current rest

def Fits (text : List UInt8) : Prop := ∀ line ∈ lines newLine text, line.length ≤ ini.lineBufferSize

variable {ini} {lb : LineBuffer} {f : ByteFile} {pre post l piece rest : List UInt8} {sectionName key : Line}

theorem takeWhile_append_of_notMem (hl : newLine ∉ l) (b : List UInt8) :
    (l ++ b).takeWhile (· ≠ newLine) = l ++ b.takeWhile (· ≠ newLine) := by
  induction l with
  | nil => rfl
  | cons c l ih =>
    obtain ⟨hc, hl⟩ := not_or.mp (mt List.mem_cons.mpr hl)
    rw [List.cons_append, List.takeWhile_cons, if_pos (by simpa using Ne.symm hc), ih hl, List.cons_append]

theorem takeWhile_line (hl : newLine ∉ l) (b : List UInt8) : (l ++ newLine :: b).takeWhile (· ≠ newLine) = l := by
  rw [takeWhile_append_of_notMem hl, List.takeWhile_cons, if_neg (by simp), List.append_nil]

theorem read_moved (hf : f.content = pre ++ post) (n : ℕ) : (f.moved pre.length).read n =
    (post.take n, f.moved (pre ++ post.take n).length) := by
  have hbytes : slice f.content pre.length n = post.take n := by
    rw [slice, hf, List.drop_left]
  rw [ByteFile.read, ByteFile.moved_content, ByteFile.moved_pos, hbytes, List.length_append]
  rfl

theorem eof_moved (hf : f.content = pre ++ post) : (f.moved pre.length).eof = decide (post = []) := by
  have hiff : f.content.length ≤ pre.length ↔ post = [] := by
    rw [hf, List.length_append, ← List.length_eq_zero_iff]
    omega
  rw [ByteFile.eof, ByteFile.moved_content, ByteFile.moved_pos, decide_eq_decide.mpr hiff]

-- the rest of a line, with a first part of it in ret
theorem getLineLoop_cases {left : ℕ} {ret : Line} (hf : f.content = pre ++ post) (hret : ret.length ≤ lb.lineBufferSize)
    (hne : ret ≠ [] ∨ post ≠ []) (hleft : post.length < left) :
    lb.getLineLoop left ret (f.moved pre.length) =
      if ret.length + (post.takeWhile (· ≠ newLine)).length ≤ lb.lineBufferSize then
        .ok (some (ret ++ post.takeWhile (· ≠ newLine)),
          f.moved (pre ++ post.take ((post.takeWhile (· ≠ newLine)).length + 1)).length)
      else .error .thrown := by
  induction left generalizing ret pre post with
  | zero => exact absurd hleft (Nat.not_lt_zero _)
  | succ left ih =>
    rw [getLineLoop, eof_moved hf]
    dsimp only
    have hsize : 0 < (if lb.lineBufferSize > 0 then min lb.lineBufferSize lb.fileBufferSize else lb.fileBufferSize) := by
      have := lb.buffer_pos
      split <;> omega
    generalize (if lb.lineBufferSize > 0 then min lb.lineBufferSize lb.fileBufferSize else lb.fileBufferSize) = m at hsize ⊢
    rw [read_moved hf]
    by_cases hpost : post = []
    · have hline : ret.length + (([] : List UInt8).takeWhile (· ≠ newLine)).length ≤ lb.lineBufferSize := by simpa using hret
      have hret : ret ≠ [] := hne.resolve_right (not_not.mpr hpost)
      rw [if_pos (Or.inl (decide_eq_true hpost)), if_neg hret, hpost, if_pos hline]
      simp
    · have htake : post.take m ≠ [] := by
        intro h
        rcases List.take_eq_nil_iff.mp h with h | h
        · omega
        · exact hpost h
      rw [if_neg (by simp [hpost, htake, hsize.ne'])]
      have hsplit : post = post.take m ++ post.drop m := (List.take_append_drop m post).symm
      by_cases hmem : newLine ∈ post.take m
      · obtain ⟨s, t, hst, hs⟩ := List.eq_append_cons_of_mem hmem
        have hline : (post.take m).takeWhile (· ≠ newLine) = s := by
          rw [hst]
          exact takeWhile_line hs t
        have hwhole : post.takeWhile (· ≠ newLine) = s := by
          rw [hsplit, hst, List.append_assoc, List.cons_append]
          exact takeWhile_line hs _
        have hlen : s.length + 1 ≤ post.length := by
          have := congrArg List.length hst
          rw [List.length_take, List.length_append, List.length_cons] at this
          omega
        rw [hwhole, hline]
        by_cases hfit : ret.length + s.length ≤ lb.lineBufferSize
        · rw [if_neg (by omega), if_pos hmem, if_pos hfit, ByteFile.moved_pos]
          dsimp only
          rw [ByteFile.seek_moved (by rw [ByteFile.moved_content, hf, List.length_append]; omega), ByteFile.moved_moved,
            List.length_append, List.length_take, min_eq_left hlen, Nat.add_assoc]
        · rw [if_pos (by omega), if_neg hfit]
      · have hwhole : post.takeWhile (· ≠ newLine) = post.take m ++ (post.drop m).takeWhile (· ≠ newLine) := by
          conv_lhs => rw [hsplit]
          exact takeWhile_append_of_notMem hmem _
        have hline : (post.take m).takeWhile (· ≠ newLine) = post.take m := by
          have := takeWhile_append_of_notMem hmem []
          simpa using this
        have hlen := congrArg List.length hwhole
        rw [List.length_append] at hlen
        rw [hline]
        by_cases hfit : ret.length + (post.take m).length ≤ lb.lineBufferSize
        · rw [if_neg (by omega), if_neg hmem]
          have hf' : f.content = (pre ++ post.take m) ++ post.drop m := by
            rw [List.append_assoc, ← hsplit, hf]
          have hdrop : (post.drop m).length < left := by
            rw [List.length_drop]
            have := List.length_pos_iff.mpr hpost
            omega
          have hpiece : post.take ((post.take m ++ (post.drop m).takeWhile (· ≠ newLine)).length + 1) =
              post.take m ++ (post.drop m).take (((post.drop m).takeWhile (· ≠ newLine)).length + 1) := by
            generalize (post.drop m).takeWhile (· ≠ newLine) = t
            rw [List.length_append, Nat.add_assoc]
            generalize hs : post.take m = s at hsplit ⊢
            generalize post.drop m = u at hsplit ⊢
            rw [hsplit, List.take_length_add_append]
          have hcond : (ret ++ post.take m).length + ((post.drop m).takeWhile (· ≠ newLine)).length =
              ret.length + (post.take m ++ (post.drop m).takeWhile (· ≠ newLine)).length := by
            rw [List.length_append, List.length_append, Nat.add_assoc]
          rw [ih hf' (by rw [List.length_append]; exact hfit) (Or.inl (by simp [htake])) hdrop, hwhole, hpiece, hcond,
            List.append_assoc, List.append_assoc]
        · rw [if_pos (by omega), if_neg (by omega)]

theorem getLineLoop_eq {left : ℕ} {ret : Line} (hf : f.content = pre ++ post)
    (hfit : ret.length + (post.takeWhile (· ≠ newLine)).length ≤ lb.lineBufferSize)
    (hne : ret ≠ [] ∨ post ≠ []) (hleft : post.length < left) :
    lb.getLineLoop left ret (f.moved pre.length) = .ok (some (ret ++ post.takeWhile (· ≠ newLine)),
      f.moved (pre ++ post.take ((post.takeWhile (· ≠ newLine)).length + 1)).length) := by
  rw [getLineLoop_cases hf (by omega) hne hleft, if_pos hfit]

theorem cut_takeWhile (hcut : Cut newLine post l piece rest) :
    post.takeWhile (· ≠ newLine) = l ∧ post.take (l.length + 1) = piece := by
  rw [hcut.text]
  rcases hcut.ends with rfl | ⟨rfl, -, rfl⟩
  · constructor
    · rw [List.append_assoc]
      exact takeWhile_line hcut.notMem _
    · have hlen : (l ++ [newLine]).length = l.length + 1 := by simp
      rw [← hlen, List.take_left]
  · rw [List.append_nil]
    refine ⟨?_, ?_⟩
    · have := takeWhile_append_of_notMem hcut.notMem []
      simpa using this
    · exact List.take_of_length_le (Nat.le_succ _)

theorem getLine_cases (hf : f.content = pre ++ post) (hcut : Cut newLine post l piece rest) :
    ini.getLine (f.moved pre.length) =
      if l.length ≤ ini.lineBufferSize then .ok (some l, f.moved (pre ++ piece).length) else .error .thrown := by
  obtain ⟨hline, hpiece⟩ := cut_takeWhile hcut
  have hne : post ≠ [] := by
    rw [hcut.text]
    simp [hcut.piece_ne]
  have hlen : post.length < f.size + 1 := by
    rw [ByteFile.size, hf, List.length_append]
    omega
  have hloop : ini.getLineLoop (f.size + 1) [] (f.moved pre.length) = _ :=
    getLineLoop_cases hf (Nat.zero_le _) (Or.inr hne) hlen
  rwa [hline, hpiece, List.nil_append, List.length_nil, Nat.zero_add] at hloop

theorem getLine_cut (hf : f.content = pre ++ post) (hcut : Cut newLine post l piece rest)
    (hfit : l.length ≤ ini.lineBufferSize) :
    ini.getLine (f.moved pre.length) = .ok (some l, f.moved (pre ++ piece).length) := by
  rw [getLine_cases hf hcut, if_pos hfit]

theorem getLine_end (hf : f.content = pre) : ini.getLine (f.moved pre.length) = .ok (none, f.moved pre.length) := by
  have heof : (f.moved pre.length).eof = true := by
    rw [← hf]
    exact decide_eq_true (le_refl _)
  rw [getLine, getLineLoop]
  dsimp only
  rw [if_pos (Or.inl heof), if_pos rfl]

theorem Fits.of_cut (h : ini.Fits post) (hcut : Cut newLine post l piece rest) :
    l.length ≤ ini.lineBufferSize ∧ ini.Fits rest := by
  unfold Fits at h
  rw [hcut.lines_eq] at h
  exact ⟨h l List.mem_cons_self, fun x hx => h x (List.mem_cons_of_mem _ hx)⟩

theorem append_piece (hf : f.content = pre ++ post) (hcut : Cut newLine post l piece rest) :
    f.content = (pre ++ piece) ++ rest := by
  rw [hf, hcut.text, List.append_assoc]

-- one line of each loop
theorem readLoop_line {g : ByteFile} {left : ℕ} {found : Bool} (hline : ini.getLine f = .ok (some l, g)) :
    ini.readLoop sectionName key (left + 1) found f =
      match ini.item l with
      | .nothing => ini.readLoop sectionName key left found g
      | .head name => ini.readLoop sectionName key left (decide (name = sectionName)) g
      | .key name value =>
        if found = true ∧ name = key then .ok (some value, g) else ini.readLoop sectionName key left found g := by
  rw [readLoop, hline, item]
  dsimp only
  cases ini.visible l with
  | nil => rfl
  | cons c sv =>
    dsimp only
    by_cases hc : c = openBracket
    · rw [if_pos hc, if_pos hc]
    · rw [if_neg hc, if_neg hc]
      by_cases he : equals ∉ c :: sv
      · rw [if_pos he, if_pos he]
        exact ite_self _
      · rw [if_neg he, if_neg he]
        dsimp only
        cases found with
        | false => rfl
        | true =>
          rw [if_neg (by decide)]
          by_cases hk : (ini.getKeyValue (c :: sv)).1 = key
          · rw [if_neg (not_not.mpr hk), if_pos ⟨rfl, hk⟩]
          · rw [if_pos hk, if_neg (fun h => hk h.2)]

theorem readLoop_eq {left : ℕ} (current : Option Line) (hf : f.content = pre ++ post) (hfits : ini.Fits post)
    (hleft : post.length < left) : ∃ p, ini.readLoop sectionName key left (decide (current = some sectionName))
      (f.moved pre.length) = .ok (ini.lookup sectionName key current (lines newLine post), f.moved p) := by
  induction left generalizing pre post current with
  | zero => exact absurd hleft (Nat.not_lt_zero _)
  | succ left ih =>
    by_cases hpost : post = []
    · refine ⟨pre.length, ?_⟩
      rw [readLoop, getLine_end (by rw [hf, hpost, List.append_nil]), hpost]
      rfl
    · obtain ⟨l, piece, rest, hcut⟩ := exists_cut newLine hpost
      obtain ⟨hfit, hrest⟩ := hfits.of_cut hcut
      have hlen := hcut.length_lt
      have ih' := fun current => ih current (append_piece hf hcut) hrest (by omega)
      rw [readLoop_line (getLine_cut hf hcut hfit), hcut.lines_eq, lookup]
      cases ini.item l with
      | nothing => exact ih' current
      | head name =>
        have := ih' (some name)
        simpa using this
      | key name value =>
        dsimp only
        by_cases hfound : current = some sectionName ∧ name = key
        · rw [if_pos ⟨decide_eq_true hfound.1, hfound.2⟩, if_pos hfound]
          exact ⟨_, rfl⟩
        · rw [if_neg (fun h => hfound ⟨of_decide_eq_true h.1, h.2⟩), if_neg hfound]
          exact ih' current

theorem currentSection_append {current : Option Line} (a b : List Line) :
    ini.currentSection current (a ++ b) = ini.currentSection (ini.currentSection current a) b := by
  induction a generalizing current with
  | nil => rfl
  | cons l a ih =>
    rw [List.cons_append, currentSection, currentSection]
    cases ini.item l <;> exact ih

theorem lookup_append {current : Option Line} (a b : List Line) : ini.lookup sectionName key current (a ++ b) =
    (ini.lookup sectionName key current a).or (ini.lookup sectionName key (ini.currentSection current a) b) := by
  induction a generalizing current with
  | nil => rfl
  | cons l a ih =>
    rw [List.cons_append, lookup, lookup, currentSection]
    cases ini.item l with
    | nothing => exact ih
    | head name => exact ih
    | key name value =>
      dsimp only
      split
      · rfl
      · exact ih

-- lines without a section or a key
def Idle (ini : SimpleIni) (a : List Line) : Prop := ∀ l ∈ a, ini.item l = .nothing

theorem Idle.lookup {a : List Line} (h : ini.Idle a) (sectionName key : Line) (current : Option Line) :
    ini.lookup sectionName key current a = none ∧ ini.currentSection current a = current := by
  induction a with
  | nil => exact ⟨rfl, rfl⟩
  | cons l a ih =>
    rw [SimpleIni.lookup, currentSection, h l List.mem_cons_self]
    exact ih fun x hx => h x (List.mem_cons_of_mem _ hx)

end SimpleFlashFs.SimpleIni
