import SimpleFlashFs.PageContent

namespace SimpleFlashFs

open Lib

section Carries

variable {s t : Fs} {h k : FileHandle} {content : List UInt8}

-- the bytes are inside of the inode
structure Inlined (s : Fs) (h : FileHandle) (content : List UInt8) : Prop where
  noPages : h.inode.dataPages = []
  short : content.length < getInodeDataSpaceSize s.header h ∨ content = []
  bytes : h.inode.inodeData.take content.length = content

structure OnPages (s : Fs) (h : FileHandle) (content : List UInt8) : Prop where
  noData : h.inode.inodeData = []
  long : getInodeDataSpaceSize s.header h ≤ content.length
  pages : ∃ pages, ShowsPages s h pages ∧ content.length ≤ pages.flatten.length ∧ pages.flatten.take content.length = content

structure InInode (s : Fs) (h : FileHandle) (content : List UInt8) : Prop where
  noPages : h.inode.dataPages = []
  short : h.inode.fileLen < getInodeDataSpaceSize s.header h ∨ content = []
  bytes : h.inode.inodeData.take content.length = content

structure OnItsPages (s : Fs) (h : FileHandle) (content : List UInt8) : Prop where
  noData : h.inode.inodeData = []
  pages : ∃ pages, ShowsPages s h pages ∧ content.length ≤ pages.flatten.length ∧ pages.flatten.take content.length = content

-- the file consists of these bytes
structure Carries (s : Fs) (h : FileHandle) (content : List UInt8) : Prop where
  length : h.inode.fileLen = content.length
  roomy : 42 + h.inode.fileNameLen ≤ s.header.pageSize
  storage : Inlined s h content ∨ OnPages s h content

-- the bytes from inside of the inode or from its pages, whatever fits into the inode
structure Stored (s : Fs) (h : FileHandle) (content : List UInt8) : Prop where
  roomy : 42 + h.inode.fileNameLen ≤ s.header.pageSize
  storage : InInode s h content ∨ OnItsPages s h content

-- the file consists of these bytes, also where it was cut down to fewer than fit into the inode
structure Bears (s : Fs) (h : FileHandle) (content : List UInt8) : Prop extends Stored s h content where
  length : h.inode.fileLen = content.length

theorem Stored.space_le (hs : Stored s h content) : getInodeDataSpaceSize s.header h ≤ s.header.pageSize := by
  rw [getInodeDataSpaceSize, inodeDataSpaceSize_eq hs.roomy]
  exact Nat.sub_le _ _

theorem getInodeDataSpaceSize_congr (hh : t.header = s.header) (hn : k.inode.fileNameLen = h.inode.fileNameLen) :
    getInodeDataSpaceSize t.header k = getInodeDataSpaceSize s.header h := by
  rw [getInodeDataSpaceSize, getInodeDataSpaceSize, hh, hn]

-- the pages that the file shows, none where the bytes are inside of the inode
theorem showsPages_nil (hn : h.inode.dataPages = []) : ShowsPages s h [] :=
  ⟨[], [], ⟨by simpa using hn, List.forall_mem_nil _, List.forall_mem_nil _⟩, rfl⟩

theorem OnPages.of_wrote {pages : List (List UInt8)} {data : List UInt8} (hh : t.header = s.header)
    (hs : SameFile h k) (hw : PagesWrote h pages data t k) (hnil : h.inode.inodeData = [])
    (hn : content.length ≤ pages.flatten.length) (htake : pages.flatten.take content.length = content)
    (hp : h.pos ≤ content.length)
    (hlong : getInodeDataSpaceSize s.header h ≤ max content.length (h.pos + data.length)) :
    OnPages t k (overwrite content h.pos data) := by
  obtain ⟨pages', hshows, hpatch⟩ := hw.shows
  have hlen : (overwrite content h.pos data).length = max content.length (h.pos + data.length) := overwrite_length_max hp
  refine ⟨hw.inodeData.trans hnil, ?_, pages', hshows, ?_, ?_⟩
  · rw [getInodeDataSpaceSize_congr hh hs.fileNameLen, hlen]
    exact hlong
  · rw [hlen]
    exact max_le (hn.trans hpatch.longer) hpatch.covers
  · have hall := hpatch.take hp hn
    rw [htake] at hall
    rw [hlen]
    exact hall

-- the bytes are kept, and the pages that hold them are shown
structure SameBytes (h k : FileHandle) : Prop where
  fileLen : k.inode.fileLen = h.inode.fileLen
  nameLen : k.inode.fileNameLen = h.inode.fileNameLen
  inodeData : k.inode.inodeData = h.inode.inodeData
  noPages : h.inode.dataPages = [] → k.inode.dataPages = []

theorem Carries.reshow (hc : Carries s h content) (hh : t.header = s.header) (e : SameBytes h k)
    (hshow : ∀ pages, ShowsPages s h pages → ShowsPages t k pages) : Carries t k content := by
  have hspace := getInodeDataSpaceSize_congr hh e.nameLen
  refine ⟨e.fileLen.trans hc.length, ?_, ?_⟩
  · rw [e.nameLen, hh]
    exact hc.roomy
  · rcases hc.storage with hin | hon
    · refine Or.inl ⟨e.noPages hin.noPages, ?_, ?_⟩
      · rw [hspace]
        exact hin.short
      · rw [e.inodeData]
        exact hin.bytes
    · obtain ⟨pages, hs, hn, htake⟩ := hon.pages
      refine Or.inr ⟨e.inodeData.trans hon.noData, ?_, pages, hshow pages hs, hn, htake⟩
      rw [hspace]
      exact hon.long

theorem Carries.of_inode (hc : Carries s h content) (hi : k.inode = h.inode) : Carries s k content := by
  apply hc.reshow rfl
  · constructor <;> simp [hi]
  · intro pages hs
    rw [ShowsPages, hi]
    exact hs

-- a full write at p
structure WroteAll (content data : List UInt8) (p : ℕ) (t : Fs) (k : FileHandle) : Prop where
  carries : Carries t k (overwrite content p data)
  pos : k.pos = p + data.length
  modified : data ≠ [] → k.modified = true

theorem wp_growInodeData_keeps (hb : h.inode.inodeData.take content.length = content) (space : ℕ) :
    wp (growInodeData h space) (fun l t => t = s ∧ space ≤ l.length ∧ l.take content.length = content)
      (fun _ _ => True) s := by
  have hlong : content.length ≤ h.inode.inodeData.length := by
    have := congrArg List.length hb
    rw [List.length_take] at this
    omega
  rw [growInodeData, wp_ite]
  constructor
  · intro hlt
    apply wp_liftFault
    · intro l hl
      rw [resizeBytes] at hl
      split at hl
      · cases hl
      · obtain rfl := Except.ok.inj hl
        rw [List.take_of_length_le hlt.le]
        refine ⟨rfl, by rw [List.length_append, List.length_replicate]; omega, ?_⟩
        rw [List.take_append_of_le_length hlong, hb]
    · exact fun _ _ => trivial
  · intro hge
    exact ⟨rfl, by omega, hb⟩

theorem wp_writeInline_carries {data : List UInt8} (hb : h.inode.inodeData.take content.length = content)
    (hn : h.inode.dataPages = []) (hlen : content.length = max h.pos h.inode.fileLen)
    (hroomy : 42 + h.inode.fileNameLen ≤ s.header.pageSize) (hfit : h.pos + data.length < getInodeDataSpaceSize s.header h)
    (hshort : content.length < getInodeDataSpaceSize s.header h) :
    wp (writeInline h data (getInodeDataSpaceSize s.header h)) (fun r t => WroteAll content data h.pos t r.2)
      (fun _ _ => True) s := by
  have hpos : h.pos ≤ content.length := by
    rw [hlen]
    exact le_max_left _ _
  rw [writeInline, wp_bind]
  apply wp_mono (wp_growInodeData_keeps hb _)
  · rintro l t ⟨rfl, hspace, htake⟩
    have hmax : (overwrite content h.pos data).length = max content.length (h.pos + data.length) := overwrite_length_max hpos
    refine ⟨⟨?_, hroomy, Or.inl ⟨hn, Or.inl ?_, ?_⟩⟩, rfl, fun _ => rfl⟩
    · dsimp only
      omega
    · rw [hmax]
      exact max_lt hshort hfit
    · have hpatch : Patched 0 l h.pos data (overwrite l h.pos data) := .of_overwrite (by omega)
      have hall := hpatch.take hpos (by omega)
      rw [htake] at hall
      rw [hmax]
      exact hall
  · exact fun _ _ h => h

end Carries

section Write

variable [Config] {s t : Fs} {h k : FileHandle} {content data : List UInt8}

theorem wp_writeWith_toPages {again : FileHandle → List UInt8 → FsM (ℕ × FileHandle)} {Q : ℕ × FileHandle → Fs → Prop}
    {R : Fault → Fs → Prop} (hnil : h.inode.inodeData = [])
    (hover : getInodeDataSpaceSize s.header h ≤ max h.inode.fileLen (h.pos + data.length)) :
    wp (writeWith again h data) Q R s ↔ wp (writePages h data (h.pos / s.header.pageSize) 0) Q R s := by
  rw [writeWith, wp_bind, wp_get]
  dsimp only
  rw [if_neg (by omega), if_neg (by simp [hnil])]

omit [Config] in
theorem PagesWrote.trans {u : Fs} {l : FileHandle} {pages pages1 : List (List UInt8)} {more : List UInt8}
    (a : PagesWrote h pages data t k) (hp : Patched 0 pages.flatten h.pos data pages1.flatten)
    (b : PagesWrote k pages1 more u l) (hmore : more ≠ []) : PagesWrote h pages (data ++ more) u l := by
  obtain ⟨pages2, hs2, hp2⟩ := b.shows
  rw [a.pos] at hp2
  refine ⟨?_, ?_, b.inodeData.trans a.inodeData, fun _ => b.modified hmore, pages2, hs2, hp.trans hp2⟩
  · rw [b.pos, a.pos, List.length_append, Nat.add_assoc]
  · rw [b.fileLen, a.fileLen, a.pos, List.length_append]
    omega

-- writing past the inline space copies what is in front of the cursor to the first page
theorem wp_migrateInline_carries {pageIdx : ℕ} (hr : Ready s) (ho : Owns s h)
    (hbytes : h.inode.inodeData.take content.length = content) (hnone : h.inode.dataPages = [])
    (hlen : content.length = max h.pos h.inode.fileLen) (hroomy : 42 + h.inode.fileNameLen ≤ s.header.pageSize)
    (hbelow : content.length ≤ getInodeDataSpaceSize s.header h)
    (hshort : data = [] → content.length < getInodeDataSpaceSize s.header h ∨ content = [])
    (hover : getInodeDataSpaceSize s.header h ≤ h.pos + data.length) :
    wp (migrateInline (writeWith fun _ _ => throw .diverges) h data pageIdx)
      (fun r t => r.1 = data.length → WroteAll content data h.pos t r.2) (fun _ _ => True) s := by
  have hpos : h.pos ≤ content.length := by
    rw [hlen]
    exact le_max_left _ _
  have hle : getInodeDataSpaceSize s.header h ≤ s.header.pageSize := by
    rw [getInodeDataSpaceSize, inodeDataSpaceSize_eq hroomy]
    exact Nat.sub_le _ _
  have hlong : content.length ≤ h.inode.inodeData.length := by
    have := congrArg List.length hbytes
    rw [List.length_take] at this
    omega
  have htake : h.inode.inodeData.take h.pos = content.take h.pos := by
    rw [← hbytes, List.take_take, Nat.min_eq_left hpos]
  have hwhole : overwrite content h.pos data = content.take h.pos ++ data := by
    rw [overwrite, List.drop_eq_nil_of_le (by omega), List.append_nil]
  rw [migrateInline, wp_bind, wp_get, wp_ite]
  refine ⟨fun _ => trivial, fun _ => ?_⟩
  obtain ⟨n, hn⟩ : ∃ n, n = min (s.header.pageSize - h.pos) data.length := ⟨_, rfl⟩
  dsimp only
  rw [← hn, htake]
  obtain ⟨page, hpage⟩ : ∃ page, page = content.take h.pos ++ data.take n := ⟨_, rfl⟩
  have hpagelen : page.length = h.pos + n := by
    rw [hpage, List.length_append, List.length_take, List.length_take]
    omega
  rw [← hpage]
  obtain ⟨h0, hh0⟩ : ∃ h0 : FileHandle, h0 = { h with pos := 0, modified := true, inode := { h.inode with inodeData := [] } } :=
    ⟨_, rfl⟩
  rw [← hh0]
  have hspace0 : getInodeDataSpaceSize s.header h0 = getInodeDataSpaceSize s.header h := by rw [hh0]; rfl
  have hpages0 : h0.inode.dataPages = h.inode.dataPages := by rw [hh0]
  have ho0 : Owns s h0 := by
    rw [hh0]
    exact ⟨ho.nodup, ho.region, ho.notFree⟩
  have hs0 : SameFile h h0 := by
    rw [hh0]
    exact ⟨rfl, rfl, rfl, rfl, rfl, rfl, rfl, rfl⟩
  have hpos0 : h0.pos = 0 := by rw [hh0]
  have hnil0 : h0.inode.inodeData = [] := by rw [hh0]
  have hlen0 : h0.inode.fileLen = h.inode.fileLen := by rw [hh0]
  have hover0 : getInodeDataSpaceSize s.header h ≤ h.pos + n := by omega
  have hagain : wp (writeWith (fun _ _ => throw .diverges) h0 page) (fun r t => (r.1 = 0 ∨ r.1 = h.pos + n) ∧
      (r.1 = h.pos + n → PagesWrote h0 [] page t r.2) ∧ DataEffect s h0 t r.2) (fun _ _ => True) s := by
    rw [wp_writeWith_toPages hnil0 (by rw [hspace0, hpos0, hpagelen]; omega), hpos0]
    have hidx0 : h0.pos % s.header.pageSize ≠ 0 → 0 / s.header.pageSize = h0.pos / s.header.pageSize := by simp [hpos0]
    have hdone := wp_writePages_shows hr ho0 (showsPages_nil (hpages0.trans hnone)) page 0 hidx0
      (by rw [hpos0]; exact Nat.zero_le _) (fun _ => by rw [hpos0]; exact Nat.zero_le _)
    rw [hpagelen] at hdone
    apply wp_mono (wp_and hdone ((safe_writePages page _ 0).wp hr ho0))
    · rintro r t ⟨⟨h1, h2⟩, h3⟩
      exact ⟨h1, h2, h3⟩
    · exact fun _ _ _ => trivial
  rw [wp_bind]
  apply wp_mono hagain
  · rintro ⟨r, k⟩ t ⟨hr1, hwrote, he⟩
    dsimp only at hr1 hwrote he ⊢
    rw [wp_ite]
    constructor
    · intro hne hzero
      have hdata : data = [] := List.length_eq_zero_iff.mp hzero.symm
      have hdata0 : data.length = 0 := hzero.symm
      rcases hshort hdata with hs | rfl
      · omega
      · have hpos : h.pos ≤ 0 := hpos
        omega
    · intro heq
      have hwrote := hwrote (not_not.mp heq)
      have hhead : t.header = s.header := he.within.header
      -- what the whole write leaves, once all of it is on pages
      have hcarries : ∀ (u : Fs) (l : FileHandle) (all : List UInt8), DataEffect s h0 u l → PagesWrote h0 [] all u l →
          all = content.take h.pos ++ data → WroteAll content data h.pos u l := by
        intro u l all hd hw hall
        have hlenall : all.length = h.pos + data.length := by
          rw [hall, List.length_append, List.length_take]
          omega
        have hon : OnPages u l (overwrite [] h0.pos all) := by
          apply OnPages.of_wrote hd.within.header hd.same hw hnil0 le_rfl rfl
          · rw [hpos0]
            exact le_rfl
          · rw [hspace0, hpos0, hlenall]
            simp
            omega
        have hover : overwrite [] h0.pos all = overwrite content h.pos data := by
          rw [hwhole, ← hall, hpos0]
          simp [overwrite]
        rw [hover] at hon
        refine ⟨⟨?_, ?_, Or.inr hon⟩, ?_, fun hne => hw.modified ?_⟩
        · rw [hw.fileLen, hpos0, hlen0, hlenall, overwrite_length_max hpos]
          omega
        · rw [hd.same.fileNameLen, hs0.fileNameLen, hd.within.header]
          exact hroomy
        · rw [hw.pos, hpos0, hlenall, Nat.zero_add]
        · rw [hall]
          simp [hne]
      rw [wp_ite]
      constructor
      · rintro ⟨-, hall⟩ -
        apply hcarries t k page he hwrote
        rw [hpage, ← hall, List.take_length]
      · intro hmore
        have hfull : h.pos + n = s.header.pageSize := by omega
        have hkpos : k.pos = s.header.pageSize := by rw [hwrote.pos, hpos0, hpagelen, hfull, Nat.zero_add]
        obtain ⟨pages1, hs1, hp1⟩ := hwrote.shows
        have hidx1 : k.pos % t.header.pageSize ≠ 0 → pageIdx = k.pos / t.header.pageSize := by
          rw [hkpos, hhead]
          simp
        have hcov := hp1.covers
        have hstart : k.pos = h0.pos + page.length := hwrote.pos
        have hrest := wp_writePages_shows (he.ready hr) (he.owns hr ho0) hs1 (data.drop n) n hidx1 (by rw [hstart]; exact hcov)
          (fun _ => by rw [hwrote.fileLen, hstart]; exact le_max_left _ _)
        apply wp_mono (wp_and hrest ((safe_writePages (data.drop n) pageIdx n).wp (he.ready hr) (he.owns hr ho0)))
        · rintro ⟨r2, l⟩ u ⟨⟨-, hw2⟩, he2⟩ hok
          have hw2 := hw2 (by
            dsimp only at hok ⊢
            rw [hok, List.length_drop]
            omega)
          apply hcarries u l _ (he.trans he2) (hwrote.trans hp1 hw2 ?_)
          · rw [hpage, List.append_assoc, List.take_append_drop]
          · intro hnil
            rw [List.drop_eq_nil_iff] at hnil
            omega
        · exact fun _ _ _ => trivial
  · exact fun _ _ h => h

-- a write at the cursor, which may stand one byte behind the recorded length
theorem wp_writeFs_stored (hr : Ready s) (ho : Owns s h) (hst : Stored s h content)
    (hlen : content.length = max h.pos h.inode.fileLen) (hsome : data = [] → h.pos ≤ h.inode.fileLen)
    (hbehind : h.pos ≤ h.inode.fileLen + 1)
    (hfits : h.inode.dataPages ≠ [] → getInodeDataSpaceSize s.header h ≤ max h.inode.fileLen (h.pos + data.length)) :
    wp (writeFs h data) (fun r t => r.1 = data.length → WroteAll content data h.pos t r.2) (fun _ _ => True) s := by
  have hpos : h.pos ≤ content.length := by
    rw [hlen]
    exact le_max_left _ _
  have hin : h.inode.dataPages = [] → InInode s h content := by
    intro hnone
    rcases hst.storage with hin | ⟨hnil, pages, hs, hn, htake⟩
    · exact hin
    · have hvalid := hs.valid
      rw [Inode.countValidDataPages, hnone] at hvalid
      rw [List.length_eq_zero_iff.mp hvalid.symm] at hn
      have hempty : content = [] := List.length_eq_zero_iff.mp (Nat.le_zero.mp hn)
      exact ⟨hnone, Or.inr hempty, by simp [hempty]⟩
  by_cases hfit : getInodeDataSpaceSize s.header h > h.pos + data.length ∧ h.inode.fileLen < getInodeDataSpaceSize s.header h
  · have hnone : h.inode.dataPages = [] := by
      by_contra hne
      have := hfits hne
      omega
    rw [writeFs, writeWith, wp_bind, wp_get]
    dsimp only
    rw [if_pos hfit]
    apply wp_mono (wp_writeInline_carries (hin hnone).bytes hnone hlen hst.roomy hfit.1 (by omega))
    · exact fun _ _ h _ => h
    · exact fun _ _ h => h
  · have hover : getInodeDataSpaceSize s.header h ≤ max h.inode.fileLen (h.pos + data.length) := by omega
    by_cases hnil : h.inode.inodeData = []
    · rw [writeFs, wp_writeWith_toPages hnil hover]
      -- an empty file has no pages yet
      obtain ⟨pages, hs, hn, htake⟩ : ∃ pages, ShowsPages s h pages ∧ content.length ≤ pages.flatten.length ∧
          pages.flatten.take content.length = content := by
        rcases hst.storage with hin | hon
        · have hempty : content = [] := by
            rw [← hin.bytes, hnil]
            exact List.take_nil
          exact ⟨[], showsPages_nil hin.noPages, by simp [hempty], by simp [hempty]⟩
        · exact hon.pages
      apply wp_mono (wp_and (wp_writePages_shows hr ho hs data 0 (fun _ => rfl) (hpos.trans hn) hsome)
        ((safe_writePages data _ 0).wp hr ho))
      · rintro ⟨r, k⟩ t ⟨⟨-, hw⟩, he⟩ hok
        have hw := hw hok
        have hon := OnPages.of_wrote he.within.header he.same hw hnil hn htake hpos (by omega)
        refine ⟨⟨?_, ?_, Or.inr hon⟩, hw.pos, hw.modified⟩
        · rw [hw.fileLen, overwrite_length_max hpos]
          omega
        · rw [he.same.fileNameLen, he.within.header]
          exact hst.roomy
      · exact fun _ _ _ => trivial
    · have hnone : h.inode.dataPages = [] := by
        rcases hst.storage with hin | hon
        · exact hin.noPages
        · exact absurd hon.noData hnil
      have hshort := (hin hnone).short
      have hempty : content = [] → h.pos = 0 ∧ h.inode.fileLen = 0 := by
        rintro rfl
        rw [List.length_nil] at hlen
        omega
      rw [writeFs, writeWith, wp_bind, wp_get]
      dsimp only
      rw [if_neg hfit, if_pos (by simpa using hnil)]
      apply wp_migrateInline_carries hr ho (hin hnone).bytes hnone hlen hst.roomy
      · rcases hshort with hs | hs
        · omega
        · rw [hs]
          exact Nat.zero_le _
      · intro hdata
        have hle := hsome hdata
        exact hshort.imp (fun hs => by omega) id
      · rcases hshort with hs | hs
        · omega
        · obtain ⟨h1, h2⟩ := hempty hs
          omega

omit [Config] in
theorem Carries.stored (hc : Carries s h content) : Stored s h content := by
  refine ⟨hc.roomy, ?_⟩
  rcases hc.storage with hin | hon
  · left
    refine ⟨hin.noPages, ?_, hin.bytes⟩
    rw [hc.length]
    exact hin.short
  · exact Or.inr ⟨hon.noData, hon.pages⟩

omit [Config] in
theorem Carries.bears (hc : Carries s h content) : Bears s h content := ⟨hc.stored, hc.length⟩

theorem wp_writeFs_carries (hr : Ready s) (ho : Owns s h) (hc : Carries s h content) (hpos : h.pos ≤ content.length) :
    wp (writeFs h data) (fun r t => r.1 = data.length → WroteAll content data h.pos t r.2) (fun _ _ => True) s := by
  have hlen := hc.length
  apply wp_writeFs_stored hr ho hc.stored (by omega) (fun _ => by omega) (by omega)
  intro hne
  rcases hc.storage with hin | hon
  · exact absurd hin.noPages hne
  · have := hon.long
    omega

-- where a write goes
def FileHandle.writePos (h : FileHandle) : ℕ := if h.append then h.inode.fileLen else h.pos

-- the append flag of the handle moves the write only when it begins at the end anyway
theorem wp_write_stored (hr : Ready s) (ho : Owns s h) (hst : Stored s h content)
    (hlen : content.length = max h.pos h.inode.fileLen) (hsome : data = [] → h.pos ≤ h.inode.fileLen)
    (hbehind : h.pos ≤ h.inode.fileLen + 1) (happ : h.append = true → h.pos = h.inode.fileLen)
    (hfits : h.inode.dataPages ≠ [] → getInodeDataSpaceSize s.header h ≤ max h.inode.fileLen (h.pos + data.length)) :
    wp (write h data) (fun r t => r.1 = data.length → WroteAll content data h.pos t r.2) (fun _ _ => True) s := by
  have hseek : whenNeeded h.append h (seek h h.inode.fileLen) = pure (true, h) := by
    cases ha : h.append with
    | false => rw [whenNeeded, if_neg Bool.false_ne_true]
    | true =>
      rw [whenNeeded, if_pos rfl, seek, if_pos le_rfl, ← happ ha]
  rw [write, hseek, wp_bind, wp_pure, wp_ite]
  exact ⟨fun _ => wp_writeFs_stored hr ho hst hlen hsome hbehind hfits, fun _ => trivial⟩

theorem wp_write_carries (hr : Ready s) (ho : Owns s h) (hc : Carries s h content) (hpos : h.pos ≤ content.length) :
    wp (write h data) (fun r t => r.1 = data.length → WroteAll content data h.writePos t r.2) (fun _ _ => True) s := by
  obtain ⟨h0, hh0⟩ : ∃ h0 : FileHandle, h0 = { h with pos := h.writePos } := ⟨_, rfl⟩
  have hseek : whenNeeded h.append h (seek h h.inode.fileLen) = pure (true, h0) := by
    rw [hh0, FileHandle.writePos]
    by_cases happ : h.append = true
    · rw [if_pos happ, whenNeeded, if_pos happ, seek, if_pos le_rfl]
    · rw [if_neg happ, whenNeeded, if_neg happ]
  have hc0 : Carries s h0 content := hc.of_inode (by rw [hh0])
  have ho0 : Owns s h0 := by
    rw [hh0]
    exact ⟨ho.nodup, ho.region, ho.notFree⟩
  have hpos0 : h0.pos = h.writePos := by rw [hh0]
  have hle0 : h0.pos ≤ content.length := by
    rw [hpos0, FileHandle.writePos]
    split
    · exact hc.length.le
    · exact hpos
  rw [write, hseek, wp_bind, wp_pure, wp_ite]
  refine ⟨fun _ => ?_, fun _ => trivial⟩
  rw [← hpos0]
  exact wp_writeFs_carries hr ho0 hc0 hle0

omit [Config] in
theorem nodup_length_le {l : List ℕ} {n : ℕ} (hn : l.Nodup) (hl : ∀ x ∈ l, x < n) : l.length ≤ n := by
  have hsub : l ⊆ List.range n := fun x hx => List.mem_range.mpr (hl x hx)
  have := (List.subperm_of_subset hn hsub).length_le
  rwa [List.length_range] at this

omit [Config] in
theorem take_slice_take (l : List UInt8) (p n m : ℕ) : (slice l p n).take (m - p) = slice (l.take m) p n := by
  rw [slice, slice, List.drop_take, List.take_take, List.take_take, min_comm]

omit [Config] in
theorem Bears.length_lt (hb : Bears s h content) (hr : Ready s) (ho : Owns s h) : content.length < 2 ^ 64 := by
  have hps := s.header.pageSize_lt
  rcases hb.storage with hin | hon
  · rcases hin.short with hs | rfl
    · have hspace := hb.space_le
      have hlen := hb.length
      omega
    · exact Nat.two_pow_pos 64
  · obtain ⟨pages, hs, hn, -⟩ := hon.pages
    have hids : h.ids.length ≤ s.header.filesystemSize := by
      apply nodup_length_le ho.nodup
      intro p hp
      exact lt_trans (Nat.lt_succ_self p) (ho.region p hp).2
    have hpages : pages.length ≤ h.ids.length := by
      rw [← hs.valid, FileHandle.ids, List.length_map]
      exact List.countP_le_length
    rw [(hs.uniform hr ho).length] at hn
    have hmul := Nat.mul_le_mul_left s.header.pageSize (hpages.trans hids)
    have haddr := hr.layout.addressable
    omega

omit [Config] in
theorem Carries.length_lt (hc : Carries s h content) (hr : Ready s) (ho : Owns s h) : content.length < 2 ^ 64 :=
  hc.bears.length_lt hr ho

-- a file that consists of its bytes reads them
theorem Bears.holdsContent (hb : Bears s h content) (hr : Ready s) (ho : Owns s h) (hcon : h.connected = true) :
    HoldsContent s h content where
  connected := hcon
  length := hb.length.symm
  length_lt := by
    rw [hb.length]
    exact hb.length_lt hr ho
  inline := by
    rintro ⟨hlt, hne⟩
    rcases hb.storage with hin | hon
    · rw [hb.length]
      exact hin.bytes
    · exact absurd hon.noData hne
  paged := by
    intro hno k hk
    rcases hb.storage with hin | hon
    · exfalso
      rcases hin.short with hs | rfl
      · refine hno ⟨hs, ?_⟩
        intro hnil
        have hbytes := hin.bytes
        rw [hnil, List.take_nil] at hbytes
        rw [← hbytes] at hk
        exact Nat.not_lt_zero _ hk
      · exact Nat.not_lt_zero _ hk
    · obtain ⟨pages, hs, hn, htake⟩ := hon.pages
      have hu := hs.uniform hr ho
      have hidx : k < pages.length := by
        apply Nat.lt_of_mul_lt_mul_left (a := s.header.pageSize)
        rw [← hu.length]
        omega
      obtain ⟨m, hm, hnd, hentry⟩ := hs.entry hidx
      obtain ⟨herr, hread⟩ := readPage_entry hr ho (List.mem_of_getElem? hm)
      refine ⟨m, entryPage s m, hm, ?_, ?_⟩
      · rw [entryBytes, entryPage]
        cases hst : m.state with
        | new => simp
        | stored => simp [herr, hread]
        | deleted => exact absurd hst hnd
      · rw [← hu.slice hentry, take_slice_take, htake]

theorem Carries.holdsContent (hc : Carries s h content) (hr : Ready s) (ho : Owns s h) (hcon : h.connected = true) :
    HoldsContent s h content := hc.bears.holdsContent hr ho hcon

end Write

end SimpleFlashFs
