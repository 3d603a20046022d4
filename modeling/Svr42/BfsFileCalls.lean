import Svr42.BfsFileWrite

/-! The calls that free, empty, shorten and make files: what each changes in one inode slot, after which
the file system may be compacted. -/

namespace Svr42.BfsFile
open Int List Option

open BfsShift (Dirent Disk BFS_BSIZE)

variable {s s' M : Fs} {dir new : Dirent} {I : List Dirent} {i n : Nat} {e : Option Errno}
  {start fin : Nat} {last : Option Nat} {db dd : Int}

/-- One slot is overwritten, and so many blocks and slots become free. -/
structure Changed (s M : Fs) (i : Nat) (new : Dirent) (db dd : Int) : Prop where
  layout : Arranged M
  inodes : M.disk.inodes = s.disk.inodes.set i new
  blocks : M.disk.blocks = s.disk.blocks
  start : M.bsup_start = s.bsup_start
  fin : M.bsup_end = s.bsup_end
  free : M.bsup_freeblocks = s.bsup_freeblocks + db
  drents : M.bsup_freedrents = s.bsup_freedrents + dd

theorem lastOther_set (skip : Nat) (new : Dirent) (rest : List Dirent) (k j : Nat)
    (acc : Nat × Option Nat) (hskip : k + j = skip) :
    lastOther skip (rest.set j new) k acc = lastOther skip rest k acc := by
  induction rest generalizing k j acc with
  | nil => rfl
  | cons dir rest ih =>
    cases j with
    | zero =>
      obtain rfl : k = skip := hskip
      rw [set_cons_zero, lastOther, lastOther, if_neg fun h => h.1 rfl, if_neg fun h => h.1 rfl]
    | succ j =>
      rw [set_cons_succ, lastOther, lastOther]
      exact ih (k + 1) j _ (by omega)

theorem Layout.vacate (h : Layout I start fin last) (hi : i ≠ 0) (hnew : new.d_ino ≠ 0 → Empty new) :
    Layout (I.set i new) start fin
      (if last = some i then BfsFile.lastOther i I 0 (0, none) else last) := by
  have hnone : ¬Holds new := fun hold => hold.2 (hnew hold.1).1
  refine h.replace hi (fun hused => .inl (hnew hused)) (fun _ _ _ _ hold _ => absurd hold hnone) ?_
  split_ifs with hlast
  · exact h.relast hi fun hused => (hnew hused).2.1
  · refine h.last.other hlast fun hused l dl _ _ => ?_
    rw [(hnew hused).2.1]
    exact Nat.zero_le _

/-- A file is cut off behind a byte that it keeps. -/
theorem Layout.cut (h : Layout I start fin last) (hi : i ≠ 0) (hslot : I[i]? = some dir)
    (hino : new.d_ino = dir.d_ino) (hs : new.d_sblock = dir.d_sblock)
    (hnew : dir.d_ino ≠ 0 → new.d_sblock ≤ new.d_eblock ∧ new.d_eblock ≤ dir.d_eblock ∧
      new.d_eoffset / BFS_BSIZE = new.d_eblock) (hpos : dir.d_sblock ≠ 0) :
    Layout (I.set i new) start fin last := by
  by_cases hused : dir.d_ino = 0
  · have hfree : new.d_ino = 0 := hino.trans hused
    have hlast : last ≠ some i := by
      rintro rfl
      obtain ⟨l, dl, hl, hdl, hold, -⟩ := h.last
      obtain rfl : i = l := some.inj hl
      obtain rfl : dir = dl := some.inj (hslot.symm.trans hdl)
      exact hold.1 hused
    exact h.replace hi (fun hne => absurd hfree hne) (fun _ _ _ _ hold _ => absurd hfree hold.1)
      (h.last.other hlast fun hne => absurd hfree hne)
  obtain ⟨horder, hle, heof⟩ := hnew hused
  have hold : Holds dir := ⟨hused, hpos⟩
  have hfits := h.fits hslot hold
  have hfirst := hfits.first
  have hinside := hfits.inside
  refine h.replace hi (fun _ => .inr ⟨by omega, horder, by omega, by omega, fun _ => heof⟩)
    (fun j dj hj hdj _ hjold => ?_) ?_
  · rcases h.apart i j dir dj hj.symm hslot hdj hold hjold with hlt | hlt
    · exact .inl (by omega)
    · exact .inr (by omega)
  · by_cases hlast : last = some i
    · subst hlast
      refine Last.self hslot ⟨hino ▸ hused, by omega⟩ fun j dj hj hdj hju => ?_
      obtain ⟨l, dl, hl, hdl, -, hmax⟩ := h.last
      obtain rfl : i = l := some.inj hl
      obtain rfl : dir = dl := some.inj (hslot.symm.trans hdl)
      have hjle := hmax j dj hdj hju
      by_cases hjold : Holds dj
      · have hjorder := (h.fits hdj hjold).order
        rcases h.apart i j dir dj hj.symm hslot hdj hold hjold with hlt | hlt <;> omega
      rcases h.held j dj hdj hju with hempty | hfitsj
      · rw [hempty.2.1]
        exact Nat.zero_le _
      · have hfirstj := hfitsj.first
        have hfp := h.first_pos
        exact absurd ⟨hju, by omega⟩ hjold
    · refine h.last.other hlast fun _ l dl hl hdl => ?_
      obtain ⟨l', dl', hl', hdl', -, hmax⟩ := h.last
      obtain rfl : l' = l := some.inj (hl'.symm.trans hl)
      obtain rfl : dl' = dl := some.inj (hdl'.symm.trans hdl)
      exact hle.trans (hmax i dir hslot hused)

section Calls

variable (h : Arranged s)

include h

theorem compactSmall_spec (oeblock : Nat) : ∃ s', compactSmall s oeblock = some s' ∧ Kept s s' := by
  rw [compactSmall]
  split
  · obtain ⟨s', heq, hcompacted⟩ := bfs_compact_spec h
    exact ⟨s', heq, hcompacted.kept⟩
  · exact ⟨s, rfl, .refl h⟩

theorem bfs_create_spec (hdrents : s.bsup_freedrents = freeSlots s.disk.inodes) :
    bfs_create s = some (some .ENFILE, s) ∨
      ∃ i dir s', bfs_create s = some (none, s') ∧ s.disk.inodes[i]? = some dir ∧ dir.d_ino = 0 ∧
        i ≠ 0 ∧ Changed s s' i ⟨i + 2, 0, 0, 0⟩ 0 (-1) ∧ s'.nlink = s.nlink.set i 1 := by
  rw [bfs_create]
  by_cases hfull : s.bsup_freedrents ≤ 0
  · exact .inl (if_pos hfull)
  rw [if_neg hfull]
  cases hfind : s.disk.inodes.findIdx? fun dir => dir.d_ino = 0 with
  | none =>
    have hzero : freeSlots s.disk.inodes = 0 := total_eq_zero fun dir hdir => by
      have hno := findIdx?_eq_none_iff.mp hfind dir hdir
      rw [slotFree, if_neg (of_decide_eq_false hno)]
    omega
  | some i =>
    obtain ⟨hlt, hfree, -⟩ := findIdx?_eq_some_iff_getElem.mp hfind
    have hslot := getElem?_eq_getElem hlt
    have hino := of_decide_eq_true hfree
    have hi : i ≠ 0 := by
      rintro rfl
      obtain ⟨root, hroot, hused, -⟩ := h.root
      obtain rfl := some.inj (hslot.symm.trans hroot)
      exact hused hino
    have hlast : s.bsup_lastfile ≠ some i := by
      intro hlast
      obtain ⟨l, dl, hl, hdl, hold, -⟩ := h.last
      obtain rfl : i = l := some.inj (hlast.symm.trans hl)
      obtain rfl := some.inj (hslot.symm.trans hdl)
      exact hold.1 hino
    have hlayout := h.vacate hi (show (⟨i + 2, 0, 0, 0⟩ : Dirent).d_ino ≠ 0 → Empty ⟨i + 2, 0, 0, 0⟩ from
        fun _ => ⟨rfl, rfl, rfl⟩)
    rw [if_neg hlast] at hlayout
    exact .inr ⟨i, _, _, rfl, hslot, hino, hi, ⟨hlayout, rfl, rfl, rfl, rfl, (add_zero _).symm, rfl⟩,
      rfl⟩

/-- A slot is freed or emptied; the last file is looked for again when it was that one. -/
theorem vacate_changed (hi : i ≠ 0) (hnew : new.d_ino ≠ 0 → Empty new)
    (hdisk : M.disk = s.disk.put (.inode i new)) (hstart : M.bsup_start = s.bsup_start)
    (hfin : M.bsup_end = s.bsup_end) (hfree : M.bsup_freeblocks = s.bsup_freeblocks + db)
    (hdrents : M.bsup_freedrents = s.bsup_freedrents + dd)
    (hlast : M.bsup_lastfile = if s.bsup_lastfile = some i then
      lastOther i (s.disk.inodes.set i new) 0 (0, none) else s.bsup_lastfile) :
    Changed s M i new db dd := by
  have hlayout := h.vacate hi hnew
  rw [← lastOther_set i new s.disk.inodes 0 i (0, none) (zero_add i), ← hlast, ← hstart,
    ← hfin] at hlayout
  refine ⟨?_, by rw [hdisk]; rfl, by rw [hdisk]; rfl, hstart, hfin, hfree, hdrents⟩
  unfold Arranged
  rw [hdisk]
  exact hlayout

theorem bfs_remove_spec (hi : i ≠ 0) (hslot : s.disk.inodes[i]? = some dir) (hused : dir.d_ino ≠ 0)
    (hlinks : s.nlink.getD i 0 < 1 <<< 32) : ∃ s', bfs_remove s i = some (none, s') ∧
      s'.nlink = s.nlink.set i (nlinkDec (s.nlink.getD i 0)) ∧
      ∃ M, Kept M s' ∧
        (s.nlink.getD i 0 ≠ 1 ∧ Changed s M i dir 0 0 ∨
          s.nlink.getD i 0 = 1 ∧ Changed s M i { dir with d_ino := 0 } (blocksOf dir) 1) := by
  have hget : s.getinode i = dir := by
    rw [Fs.getinode, hslot]
    rfl
  have hpow : (1 : Nat) <<< 32 = 4294967296 := rfl
  rw [bfs_remove]
  simp only [hget]
  by_cases hone : s.nlink.getD i 0 = 1
  · have hdec : ¬nlinkDec (s.nlink.getD i 0) ≥ 1 := by
      rw [nlinkDec, hone, hpow]
      decide
    have hblocks : (if dir.d_eblock ≠ 0 then (dir.d_eblock : Int) + 1 - dir.d_sblock else 0) =
        blocksOf dir := by
      have hiff := h.holds_iff hslot hused
      by_cases hold : Holds dir
      · have horder := (h.fits hslot hold).order
        rw [if_pos (ne_of_gt (hiff.mp hold)), blocksOf, if_pos hold]
        omega
      · rw [if_neg fun hne => hold (hiff.mpr (Nat.pos_of_ne_zero hne)), blocksOf, if_neg hold]
        rfl
    rw [if_pos hone, if_neg hdec, hblocks]
    by_cases hlast : s.bsup_lastfile = some i
    · have hchanged : Changed s (relast { s.putinode i { dir with d_ino := 0 } with
          nlink := s.nlink.set i (nlinkDec (s.nlink.getD i 0))
          bsup_freeblocks := s.bsup_freeblocks + blocksOf dir
          bsup_freedrents := s.bsup_freedrents + 1 } i) i { dir with d_ino := 0 } (blocksOf dir) 1 :=
        vacate_changed h hi (fun hne => absurd rfl hne) rfl rfl rfl rfl rfl (if_pos hlast).symm
      exact ⟨_, if_pos hlast, rfl, _, .refl hchanged.layout, .inr ⟨hone, hchanged⟩⟩
    have hneg : ¬(s.putinode i { dir with d_ino := 0 }).bsup_lastfile = some i := hlast
    have hchanged : Changed s { s.putinode i { dir with d_ino := 0 } with
        nlink := s.nlink.set i (nlinkDec (s.nlink.getD i 0))
        bsup_freeblocks := s.bsup_freeblocks + blocksOf dir
        bsup_freedrents := s.bsup_freedrents + 1
        bsup_compacted := false } i { dir with d_ino := 0 } (blocksOf dir) 1 :=
      vacate_changed h hi (fun hne => absurd rfl hne) rfl rfl rfl rfl rfl (if_neg hlast).symm
    rw [if_neg hneg]
    split
    · obtain ⟨s', heq, hkept⟩ := compactSmall_spec hchanged.layout dir.d_eblock
      refine ⟨s', ?_, hkept.nlink, _, hkept, .inr ⟨hone, hchanged⟩⟩
      exact congrArg (Option.map _) heq
    · exact ⟨_, rfl, rfl, _, .refl hchanged.layout, .inr ⟨hone, hchanged⟩⟩
  · have hdec : nlinkDec (s.nlink.getD i 0) ≥ 1 := by
      rw [nlinkDec, hpow]
      omega
    rw [if_neg hone, if_pos hdec]
    have hself := set_getElem?_self hslot
    have hlayout : Layout (s.disk.inodes.set i dir) s.bsup_start s.bsup_end s.bsup_lastfile :=
      hself.symm ▸ h
    exact ⟨_, rfl, rfl, _, .refl hlayout, .inl ⟨hone, hlayout, rfl, rfl, rfl, rfl,
      (add_zero _).symm, (add_zero _).symm⟩⟩

/-- The blocks that a cut to `length` adds to the count. -/
def freedBy (dir : Dirent) (length : Nat) : Int :=
  (if dir.d_eblock > (dir.d_sblock * BFS_BSIZE + length - 1) / BFS_BSIZE then
    (dir.d_eblock : Int) - ((dir.d_sblock * BFS_BSIZE + length - 1) / BFS_BSIZE : Nat) else 0) +
    if dir.d_eblock = dir.d_sblock ∧ length = 0 then 1 else 0

def cutEntry (dir : Dirent) (length : Nat) : Dirent :=
  if length = 0 then ⟨dir.d_ino, 0, 0, 0⟩ else entry dir.d_ino dir.d_sblock length

theorem bfs_truncate_spec (hi : i ≠ 0) (hslot : s.disk.inodes[i]? = some dir) (length : Nat) :
    (∃ e, bfs_truncate s i length = some (e, s) ∧
        (e = none → dir.d_sblock = 0 ∧ length = 0 ∨ dir.d_sblock ≠ 0 ∧ size dir = length)) ∨
      dir.d_sblock ≠ 0 ∧ length < size dir ∧ ∃ s' M, bfs_truncate s i length = some (none, s') ∧
        Kept M s' ∧ M.nlink = s.nlink ∧
        Changed s M i (cutEntry dir length) (freedBy dir length) 0 := by
  have hget : s.getinode i = dir := by
    rw [Fs.getinode, hslot]
    rfl
  rw [bfs_truncate]
  simp only [hget]
  by_cases hempty : dir.d_sblock = 0
  · rw [if_pos hempty]
    refine .inl ⟨_, rfl, fun hnone => .inl ⟨hempty, ?_⟩⟩
    by_contra hlen
    rw [if_neg hlen] at hnone
    exact some_ne_none _ hnone
  rw [if_neg hempty]
  by_cases hsame : dir.d_eoffset + 1 - dir.d_sblock * BFS_BSIZE = length
  · exact .inl ⟨none, if_pos hsame, fun _ => .inr ⟨hempty, hsame⟩⟩
  rw [if_neg hsame]
  by_cases hlong : dir.d_eoffset + 1 - dir.d_sblock * BFS_BSIZE < length
  · exact .inl ⟨_, if_pos hlong, fun hnone => absurd hnone (some_ne_none _)⟩
  rw [if_neg hlong]
  have hcut : length < size dir := Nat.lt_of_le_of_ne (Nat.not_lt.mp hlong) (Ne.symm hsame)
  refine .inr ⟨hempty, hcut, ?_⟩
  have hpos : BFS_BSIZE ≤ dir.d_sblock * BFS_BSIZE := by
    unfold BFS_BSIZE
    omega
  have hbs : 0 < BFS_BSIZE := by decide
  have hzero : dir.d_sblock * BFS_BSIZE + length - 1 = dir.d_sblock * BFS_BSIZE - 1 ↔ length = 0 := by
    omega
  have hfree : s.bsup_freeblocks +
        (if dir.d_eblock > (dir.d_sblock * BFS_BSIZE + length - 1) / BFS_BSIZE then
          (dir.d_eblock : Int) - ((dir.d_sblock * BFS_BSIZE + length - 1) / BFS_BSIZE : Nat) else 0) +
        (if dir.d_eblock = dir.d_sblock ∧ length = 0 then 1 else 0) =
      s.bsup_freeblocks + freedBy dir length := add_assoc _ _ _
  simp only [hzero, hfree]
  by_cases hlen : length = 0
  · have hnew : cutEntry dir length = ⟨dir.d_ino, 0, 0, 0⟩ := if_pos hlen
    rw [if_pos hlen, hnew]
    by_cases hlast : s.bsup_lastfile = some i
    · have hchanged : Changed s (relast { s.putinode i ⟨dir.d_ino, 0, 0, 0⟩ with
          bsup_freeblocks := s.bsup_freeblocks + freedBy dir length } i) i ⟨dir.d_ino, 0, 0, 0⟩
          (freedBy dir length) 0 :=
        vacate_changed h hi (fun _ => ⟨rfl, rfl, rfl⟩) rfl rfl rfl rfl (add_zero _).symm
          (if_pos hlast).symm
      exact ⟨_, _, if_pos hlast, .refl hchanged.layout, rfl, hchanged⟩
    have hchanged : Changed s { s.putinode i ⟨dir.d_ino, 0, 0, 0⟩ with
        bsup_freeblocks := s.bsup_freeblocks + freedBy dir length } i ⟨dir.d_ino, 0, 0, 0⟩
        (freedBy dir length) 0 :=
      vacate_changed h hi (fun _ => ⟨rfl, rfl, rfl⟩) rfl rfl rfl rfl (add_zero _).symm
        (if_neg hlast).symm
    have hflag := (Kept.refl hchanged.layout).flag false
    have hneg : ¬({ s with bsup_freeblocks := s.bsup_freeblocks + freedBy dir length }.putinode i
        ⟨dir.d_ino, 0, 0, 0⟩).bsup_lastfile = some i := hlast
    rw [if_neg hneg]
    split
    · split
      · obtain ⟨s', heq, hcompacted⟩ := bfs_compact_spec hchanged.layout
        exact ⟨s', _, congrArg (Option.map _) heq, hcompacted.kept, rfl, hchanged⟩
      · exact ⟨_, _, rfl, hflag, rfl, hchanged⟩
    · exact ⟨_, _, rfl, hflag, rfl, hchanged⟩
  · have hnew : cutEntry dir length = entry dir.d_ino dir.d_sblock length := if_neg hlen
    rw [if_neg hlen, hnew]
    have hlayout : Layout (s.disk.inodes.set i (entry dir.d_ino dir.d_sblock length)) s.bsup_start
        s.bsup_end s.bsup_lastfile := by
      refine h.cut hi hslot rfl rfl (fun hused => ⟨entry_order _ _ (Nat.pos_of_ne_zero hlen), ?_, rfl⟩)
        hempty
      have heof := (h.fits hslot ⟨hused, hempty⟩).eof hi
      rw [← heof]
      refine Nat.div_le_div_right ?_
      omega
    exact ⟨_, _, rfl, .refl hlayout, rfl, hlayout, rfl, rfl, rfl, rfl, rfl, (add_zero _).symm⟩

/-- The size of a file is set to zero, the only size that can be set. -/
theorem bfs_setattr_spec (hslot : s.disk.inodes[i]? = some dir) (va_size : Nat) :
    (∃ e, bfs_setattr s i va_size = some (some e, s)) ∨
      i ≠ 0 ∧ va_size = 0 ∧ ∃ M, bfs_setattr s i va_size = some (none, M) ∧ M.nlink = s.nlink ∧
        Changed s M i ⟨dir.d_ino, 0, 0, 0⟩ ((dir.d_eblock : Int) - dir.d_sblock + 1) 0 := by
  have hget : s.getinode i = dir := by
    rw [Fs.getinode, hslot]
    rfl
  rw [bfs_setattr]
  simp only [hget]
  by_cases hsize : va_size ≠ 0
  · exact .inl ⟨_, if_pos hsize⟩
  rw [if_neg hsize]
  by_cases hi : i = 0
  · exact .inl ⟨_, if_pos hi⟩
  rw [if_neg hi]
  refine .inr ⟨hi, not_not.mp hsize, _, rfl, ?_, ?_⟩
  · split_ifs with hlast
    · rfl
    · rfl
  · split_ifs with hlast
    · refine vacate_changed h hi (fun _ => ⟨rfl, rfl, rfl⟩) rfl rfl rfl rfl (add_zero _).symm ?_
      rw [if_pos hlast, lastOther_set i _ _ 0 i _ (zero_add i)]
      rfl
    · exact vacate_changed h hi (fun _ => ⟨rfl, rfl, rfl⟩) rfl rfl rfl rfl (add_zero _).symm
        (if_neg hlast).symm

end Calls

end Svr42.BfsFile
