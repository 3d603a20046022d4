import Svr42.BfsFileMove

/-! A write: where it puts its bytes, what it makes of the entry of the file and of the count of free
blocks, and how it ends when the device is full. -/

namespace Svr42.BfsFile
open List Nat Option

open BfsShift (Dirent Disk BFS_BSIZE)

variable {s s' t K : Fs} {d d' : Disk Block} {dir dir' : Dirent} {i j o n a b off : Nat} {app : Bool}
  {data : List UInt8} {I : List Dirent} {start fin : Nat} {last : Option Nat}

theorem byte_writeBytes_append (d : Disk Block) (o b : Nat) (data : List UInt8) (hb : b ≤ data.length)
    (a : Nat) : byte (writeBytes (writeBytes d o (data.take b)) (o + b) (data.drop b)) a =
      byte (writeBytes d o data) a := by
  rw [byte_writeBytes, byte_writeBytes, byte_writeBytes, length_take_of_le hb, length_drop]
  simp only [getD_eq_getElem?_getD, List.getElem?_drop]
  by_cases hlast : o + b ≤ a ∧ a < o + b + (data.length - b)
  · rw [if_pos hlast, if_pos (by omega)]
    congr 2
    omega
  · rw [if_neg hlast]
    by_cases hfirst : o ≤ a ∧ a < o + b
    · rw [if_pos hfirst, if_pos (by omega), List.getElem?_take_of_lt (by omega)]
    · rw [if_neg hfirst, if_neg (by omega)]

theorem byte_zeroHole (fuel : Nat) (d : Disk Block) (cur holesz : Nat) (hfuel : holesz ≤ fuel) (a : Nat) :
    byte (zeroHole fuel d cur holesz) a = if cur ≤ a ∧ a < cur + holesz then 0 else byte d a := by
  induction fuel generalizing d cur holesz with
  | zero =>
    rw [zeroHole, if_neg (by omega)]
  | succ fuel ih =>
    rw [zeroHole]
    by_cases hzero : holesz = 0
    · rw [if_pos hzero, if_neg (by omega)]
    have hcount : 0 < min BFS_BSIZE holesz := by
      unfold BFS_BSIZE
      omega
    rw [if_neg hzero]
    simp only
    rw [ih _ _ _ (by omega), byte_writeBytes, length_replicate]
    by_cases hlater : cur + min BFS_BSIZE holesz ≤ a ∧ a < cur + holesz
    · rw [if_pos (by omega), if_pos (by omega)]
    rw [if_neg (by omega)]
    by_cases hhere : cur ≤ a ∧ a < cur + min BFS_BSIZE holesz
    · rw [if_pos hhere, if_pos (by omega), getD_eq_getElem?_getD,
        List.getElem?_replicate_of_lt (by omega)]
      rfl
    · rw [if_neg hhere, if_neg (by omega)]

theorem zeroHole_inodes (fuel : Nat) (d : Disk Block) (cur holesz : Nat) :
    (zeroHole fuel d cur holesz).inodes = d.inodes := by
  induction fuel generalizing d cur holesz with
  | zero => rfl
  | succ fuel ih =>
    rw [zeroHole]
    split
    · rfl
    · exact ih _ _ _

/-- The entry after bytes up to `o + n` were written. -/
def grown (dir : Dirent) (o n : Nat) : Dirent :=
  { dir with
    d_eblock := max dir.d_eoffset (o + n - 1) / BFS_BSIZE
    d_eoffset := max dir.d_eoffset (o + n - 1) }

/-- The blocks that come off the count when the last block becomes `e`. -/
def newBlocks (oeblock : Nat) (dir : Dirent) (e : Nat) : Int :=
  if oeblock = 0 then (e : Int) - dir.d_sblock + 1 else (e : Int) - oeblock

theorem growEntry_eq (s : Fs) (i oeblock : Nat) (hn : 0 < n)
    (hend : dir.d_eblock * BFS_BSIZE ≤ dir.d_eoffset ∨ dir.d_eblock * BFS_BSIZE ≤ o) :
    growEntry s i dir oeblock o n = ({ s with
          disk := s.disk.put (.inode i (grown dir o n))
          bsup_freeblocks := s.bsup_freeblocks - newBlocks oeblock dir (grown dir o n).d_eblock },
        grown dir o n, (grown dir o n).d_eblock) := by
  have heo : (if o + n > dir.d_eoffset then o + n - 1 else dir.d_eoffset) =
      max dir.d_eoffset (o + n - 1) := by
    split <;> omega
  rw [growEntry]
  simp only [heo, if_pos (show max dir.d_eoffset (o + n - 1) ≥ dir.d_eblock * BFS_BSIZE by omega)]
  have hused : (if oeblock = 0 then
        ((max dir.d_eoffset (o + n - 1) / BFS_BSIZE : Nat) : Int) - dir.d_sblock + 1
      else if max dir.d_eoffset (o + n - 1) / BFS_BSIZE ≠ oeblock then
        ((max dir.d_eoffset (o + n - 1) / BFS_BSIZE : Nat) : Int) - oeblock
      else 0) = newBlocks oeblock dir (grown dir o n).d_eblock := by
    unfold newBlocks grown
    dsimp only
    generalize max dir.d_eoffset (o + n - 1) / BFS_BSIZE = e
    split
    · rfl
    · split <;> omega
  rw [hused]
  rfl

theorem grown_grown (dir : Dirent) (o b n : Nat) (hn : 0 < n) :
    grown (grown dir o b) (o + b) n = grown dir o (b + n) := by
  have heo : max (max dir.d_eoffset (o + b - 1)) (o + b + n - 1) =
      max dir.d_eoffset (o + (b + n) - 1) := by
    omega
  unfold grown
  simp only [heo]

/-- What the loop of a write does. -/
structure Wrote (s s' : Fs) (i : Nat) (dir : Dirent) (oeblock o : Nat) (data : List UInt8) :
    Prop where
  inodes : s'.disk.inodes = s.disk.inodes.set i (grown dir o data.length)
  free : s'.bsup_freeblocks =
    s.bsup_freeblocks - newBlocks oeblock dir (grown dir o data.length).d_eblock
  start : s'.bsup_start = s.bsup_start
  fin : s'.bsup_end = s.bsup_end
  drents : s'.bsup_freedrents = s.bsup_freedrents
  nlink : s'.nlink = s.nlink
  bytes : ∀ a, byte s'.disk a = byte (writeBytes s.disk o data) a

theorem writeLoop_nil (chunk fuel : Nat) (s : Fs) (i : Nat) (dir : Dirent) (oeblock o : Nat) :
    writeLoop chunk fuel s i dir oeblock o [] = some s := by
  cases fuel <;> rfl

theorem writeLoop_spec {chunk : Nat} (hchunk : 0 < chunk) (i : Nat) (fuel : Nat) (s : Fs) (dir : Dirent)
    (oeblock o : Nat) (data : List UInt8) (hdata : data ≠ []) (hfuel : data.length ≤ fuel)
    (hpos : BFS_BSIZE ≤ o)
    (hend : dir.d_eblock * BFS_BSIZE ≤ dir.d_eoffset ∨ dir.d_eblock * BFS_BSIZE ≤ o) :
    ∃ s', writeLoop chunk fuel s i dir oeblock o data = some s' ∧ Wrote s s' i dir oeblock o data := by
  induction fuel generalizing s dir oeblock o data with
  | zero => exact absurd (eq_nil_of_length_eq_zero (le_zero.mp hfuel)) hdata
  | succ fuel ih =>
    have hlen : 0 < data.length := length_pos_iff.mpr hdata
    rw [writeLoop, if_neg hdata]
    simp only
    generalize hbuf : min chunk data.length = buflen
    rw [growEntry_eq _ i oeblock (show 0 < buflen by omega) hend]
    simp only
    by_cases hrest : data.drop buflen = []
    · have hall : buflen = data.length := by
        have hle := drop_eq_nil_iff.mp hrest
        omega
      rw [hrest, writeLoop_nil]
      refine ⟨_, rfl, ?_⟩
      subst hall
      rw [take_length]
      exact ⟨rfl, rfl, rfl, rfl, rfl, rfl, fun _ => rfl⟩
    have hle : buflen ≤ data.length := by omega
    have hdrop : 0 < (data.drop buflen).length := length_pos_iff.mpr hrest
    have hpos' : grown dir o buflen ≠ ⟨0, 0, 0, 0⟩ ∧ (grown dir o buflen).d_eblock ≠ 0 := by
      have heb : (grown dir o buflen).d_eblock ≠ 0 := by
        unfold grown BFS_BSIZE at *
        simp only
        omega
      exact ⟨fun h => heb (by rw [h]), heb⟩
    obtain ⟨s', heq, hwrote⟩ := ih _ (grown dir o buflen) (grown dir o buflen).d_eblock (o + buflen)
      (data.drop buflen) hrest (by rw [length_drop]; omega) (by omega)
      (.inl (div_mul_le_self _ _))
    have hsum : buflen + (data.drop buflen).length = data.length := by
      rw [length_drop]
      omega
    have hgrown := grown_grown dir o buflen (data.drop buflen).length hdrop
    rw [hsum] at hgrown
    refine ⟨s', heq, ⟨?_, ?_, hwrote.start, hwrote.fin, hwrote.drents, hwrote.nlink, fun a => ?_⟩⟩
    · rw [hwrote.inodes, hgrown]
      exact set_set _
    · rw [hwrote.free, hgrown]
      simp only [newBlocks, if_neg hpos'.2]
      split <;> omega
    · rw [hwrote.bytes, ← byte_writeBytes_append s.disk o buflen data hle]
      rfl

def filesize (dir : Dirent) : Nat := if dir.d_sblock = 0 then 0 else size dir

/-- The file, whose first block is now `b`, has `data` at `o`; a hole before it is filled with zeros. -/
structure Filled (s s' : Fs) (i b o : Nat) (dir : Dirent) (data : List UInt8) : Prop where
  inodes : s'.disk.inodes =
    s.disk.inodes.set i (entry dir.d_ino b (max (filesize dir) (o + data.length)))
  free : s'.bsup_freeblocks = s.bsup_freeblocks + blocksOf dir -
    blocksOf (entry dir.d_ino b (max (filesize dir) (o + data.length)))
  start : s'.bsup_start = s.bsup_start
  fin : s'.bsup_end = s.bsup_end
  drents : s'.bsup_freedrents = s.bsup_freedrents
  nlink : s'.nlink = s.nlink
  last : s'.bsup_lastfile = some i ∧ (dir.d_sblock = 0 ∨ s.bsup_lastfile = some i) ∨
    s'.bsup_lastfile = s.bsup_lastfile ∧ o + data.length < filesize dir
  bytes : ∀ a, byte s'.disk a =
    if b * BFS_BSIZE + o ≤ a ∧ a < b * BFS_BSIZE + o + data.length then
      data.getD (a - (b * BFS_BSIZE + o)) 0
    else if b * BFS_BSIZE + filesize dir ≤ a ∧ a < b * BFS_BSIZE + o then 0
    else byte s.disk a

theorem writeData_spec (s : Fs) (i : Nat) (dir : Dirent) (oeblock endfile : Nat) {offset : Nat} (lastfile : Option Nat)
    (hdata : data ≠ []) (hpos : BFS_BSIZE ≤ offset)
    (hend : dir.d_eblock * BFS_BSIZE ≤ dir.d_eoffset ∨ dir.d_eblock * BFS_BSIZE ≤ offset) :
    ∃ s', writeData s i dir oeblock endfile offset lastfile data = some s' ∧
      s'.bsup_lastfile = lastfile ∧ s'.disk.inodes = s.disk.inodes.set i (grown dir offset data.length) ∧
      s'.bsup_freeblocks =
        s.bsup_freeblocks - newBlocks oeblock dir (grown dir offset data.length).d_eblock ∧
      s'.bsup_start = s.bsup_start ∧ s'.bsup_end = s.bsup_end ∧
      s'.bsup_freedrents = s.bsup_freedrents ∧ s'.nlink = s.nlink ∧
      ∀ a, byte s'.disk a = if offset ≤ a ∧ a < offset + data.length then data.getD (a - offset) 0
        else if endfile + 1 ≤ a ∧ a < offset then 0
        else byte s.disk a := by
  have hchunk : 0 < min MAXBSIZE data.length := by
    have hlen := length_pos_iff.mpr hdata
    unfold MAXBSIZE
    omega
  obtain ⟨s', heq, hwrote⟩ := writeLoop_spec hchunk i data.length
    { s with disk := zeroHole (offset - (endfile + 1)) s.disk (endfile + 1) (offset - (endfile + 1)) }
    dir oeblock offset data hdata le_rfl hpos hend
  refine ⟨{ s' with bsup_lastfile := lastfile }, ?_, rfl, ?_, hwrote.free, hwrote.start, hwrote.fin,
    hwrote.drents, hwrote.nlink, fun a => ?_⟩
  · rw [writeData]
    simp only [heq, map_some]
  · rw [hwrote.inodes, zeroHole_inodes]
  · rw [hwrote.bytes, byte_writeBytes, byte_zeroHole _ _ _ _ le_rfl]
    by_cases hin : offset ≤ a ∧ a < offset + data.length
    · rw [if_pos hin, if_pos hin]
    rw [if_neg hin, if_neg hin]
    by_cases hhole : endfile + 1 ≤ a ∧ a < offset
    · rw [if_pos hhole, if_pos (by omega)]
    · rw [if_neg hhole, if_neg (by omega)]

theorem blocksOf_entry {ino : Nat} (hino : ino ≠ 0) (hb : b ≠ 0) :
    blocksOf (entry ino b n) = (entry ino b n).d_eblock + 1 - b :=
  if_pos ⟨hino, hb⟩

/-- The data written into a file that has blocks. -/
theorem writeData_held (h : Arranged s) (hi : i ≠ 0) (hslot : s.disk.inodes[i]? = some dir)
    (hdata : data ≠ []) (hold : Holds dir)
    (hlast : s.bsup_lastfile = some i ∨ o + data.length < size dir) :
    ∃ s', writeData s i dir dir.d_eblock dir.d_eoffset (dir.d_sblock * BFS_BSIZE + o) s.bsup_lastfile
      data = some s' ∧ Filled s s' i dir.d_sblock o dir data := by
  have hfits := h.fits hslot hold
  have hfirst := hfits.first
  have horder := hfits.order
  have heof := hfits.eof hi
  have hposb := h.first_pos
  have hlen := length_pos_iff.mpr hdata
  have heo : dir.d_eoffset + 1 = dir.d_sblock * BFS_BSIZE + size dir := by
    unfold size BFS_BSIZE at *
    omega
  have hgrown : grown dir (dir.d_sblock * BFS_BSIZE + o) data.length =
      entry dir.d_ino dir.d_sblock (max (size dir) (o + data.length)) := by
    have hmax : max dir.d_eoffset (dir.d_sblock * BFS_BSIZE + o + data.length - 1) =
        dir.d_sblock * BFS_BSIZE + max (size dir) (o + data.length) - 1 := by
      omega
    rw [grown, hmax, entry]
  obtain ⟨s', heq, hlast', hinodes, hfree, hstart, hfin, hdrents, hnlink, hbytes⟩ :=
    writeData_spec s i dir dir.d_eblock dir.d_eoffset s.bsup_lastfile hdata
      (show BFS_BSIZE ≤ dir.d_sblock * BFS_BSIZE + o by unfold BFS_BSIZE; omega)
      (.inl (heof ▸ div_mul_le_self _ _))
  rw [hgrown] at hinodes hfree
  have hn : filesize dir = size dir := if_neg hold.2
  refine ⟨s', heq, ⟨by rw [hn]; exact hinodes, ?_, hstart, hfin, hdrents, hnlink, ?_, ?_⟩⟩
  · have hle := entry_order dir.d_ino dir.d_sblock (show 0 < max (size dir) (o + data.length) by omega)
    have hblocks : blocksOf dir = dir.d_eblock + 1 - dir.d_sblock := if_pos hold
    rw [hfree, hn, blocksOf_entry hold.1 hold.2, hblocks, newBlocks, if_neg (by omega)]
    rw [show (entry dir.d_ino dir.d_sblock (max (size dir) (o + data.length))).d_sblock =
      dir.d_sblock from rfl] at hle
    omega
  · rw [hn, hlast']
    exact hlast.imp (fun heq => ⟨heq, .inr heq⟩) fun hlt => ⟨rfl, hlt⟩
  · intro a
    rw [hbytes, hn, heo]

/-- The data written into a file without blocks, which begins at block `b`. -/
theorem writeData_empty (s : Fs) (i off : Nat) (hused : dir.d_ino ≠ 0) (hdata : data ≠ []) (hempty : dir.d_sblock = 0) (hb : b ≠ 0) :
    ∃ s', writeData s i ⟨dir.d_ino, b, b + off / BFS_BSIZE, b * BFS_BSIZE + off - 1⟩
        0 (b * BFS_BSIZE - 1) (b * BFS_BSIZE + off) (some i) data = some s' ∧
      Filled s s' i b off dir data := by
  have hlen := length_pos_iff.mpr hdata
  have hpos : BFS_BSIZE ≤ b * BFS_BSIZE := by
    unfold BFS_BSIZE
    omega
  have hn : filesize dir = 0 := if_pos hempty
  have hmax : max (b * BFS_BSIZE + off - 1) (b * BFS_BSIZE + off + data.length - 1) =
      b * BFS_BSIZE + max 0 (off + data.length) - 1 := by
    omega
  obtain ⟨s', heq, hlast, hinodes, hfree, hstart, hfin, hdrents, hnlink, hbytes⟩ :=
    writeData_spec s i ⟨dir.d_ino, b, b + off / BFS_BSIZE, b * BFS_BSIZE + off - 1⟩ 0
      (b * BFS_BSIZE - 1) (some i) hdata (hpos.trans (le_add_right _ off))
      (.inr (by unfold BFS_BSIZE; simp only; omega))
  simp only [grown, hmax] at hinodes hfree
  refine ⟨s', heq, ⟨by rw [hn]; exact hinodes, ?_, hstart, hfin, hdrents, hnlink, .inl ⟨hlast, .inl hempty⟩, ?_⟩⟩
  · have hle := entry_order dir.d_ino b (show 0 < max 0 (off + data.length) by omega)
    have hblocks : blocksOf dir = 0 := if_neg fun hold => hold.2 hempty
    rw [hfree, hn, blocksOf_entry hused hb, hblocks, newBlocks, if_pos rfl]
    unfold entry at hle ⊢
    simp only at hle ⊢
    omega
  · intro a
    have hend : b * BFS_BSIZE - 1 + 1 = b * BFS_BSIZE + 0 := by
      unfold BFS_BSIZE
      omega
    rw [hbytes, hn, hend]

def position (dir : Dirent) (off : Nat) (app : Bool) : Nat :=
  if app ∧ dir.d_sblock ≠ 0 then size dir else off

def MustMove (s : Fs) (i : Nat) (dir : Dirent) (off : Nat) (app : Bool) (len : Nat) : Prop :=
  dir.d_sblock ≠ 0 ∧ s.bsup_lastfile ≠ some i ∧ size dir ≤ position dir off app + len

theorem Slid.size (h : Slid d d' dir dir') : size dir' = size dir := by
  obtain ⟨g, hs, -, ho⟩ := h.down
  unfold BfsFile.size BFS_BSIZE at *
  omega

theorem Slid.stay (h : Slid d d' dir dir') (hold : Holds dir)
    (hlast : s'.bsup_lastfile = s.bsup_lastfile) (hstay : ¬MustMove s i dir off app n) :
    ¬MustMove s' i dir' off app n := by
  intro hmove
  have hpos : position dir' off app = position dir off app := by
    have hold' := h.holds hold
    unfold position
    rw [h.size]
    cases app with
    | true => rw [if_pos ⟨rfl, hold'.2⟩, if_pos ⟨rfl, hold.2⟩]
    | false => rw [if_neg fun hno => absurd hno.1 (by decide), if_neg fun hno => absurd hno.1 (by decide)]
  obtain ⟨-, hnot, hreach⟩ := hmove
  rw [hlast] at hnot
  rw [h.size, hpos] at hreach
  exact hstay ⟨hold.2, hnot, hreach⟩

/-- A write that has found its place, or has found the device full. -/
inductive Settles (s : Fs) (i : Nat) (off : Nat) (app : Bool) (data : List UInt8) : Outcome → Prop
  | full : Settles s i off app data (some .ENOSPC, s)
  | held (s' : Fs) (dir : Dirent) : s.disk.inodes[i]? = some dir → dir.d_sblock ≠ 0 →
      dir.d_sblock * BFS_BSIZE + position dir off app + data.length ≤ s.bsup_end →
      Filled s s' i dir.d_sblock (position dir off app) dir data → Settles s i off app data (none, s')
  | empty (s' : Fs) (dir : Dirent) : s.disk.inodes[i]? = some dir → dir.d_sblock = 0 →
      nextblock s * BFS_BSIZE + off + data.length ≤ s.bsup_end →
      Filled s s' i (nextblock s) off dir data → Settles s i off app data (none, s')

/-- One call for a file without blocks. -/
theorem bfs_write_empty (h : Arranged s) (hslot : s.disk.inodes[i]? = some dir) (hused : dir.d_ino ≠ 0)
    (hdata : data ≠ []) (off : Nat) (app : Bool) (fuel : Nat) (hempty : dir.d_sblock = 0) :
    (∃ K r, (K = s ∨ s.bsup_compacted = false ∧ Compacted s K) ∧
        bfs_write (fuel + 1) s i off app data = some r ∧
        Settles K i off app data r) ∨
      s.bsup_compacted = false ∧ ∃ K, Compacted s K ∧
        bfs_write (fuel + 1) s i off app data = bfs_write fuel K i off app data := by
  have hget : s.getinode i = dir := by
    rw [Fs.getinode, hslot]
    rfl
  have hfirst := first_lt_next h
  rw [bfs_write]
  simp only [hget, if_neg hdata, if_neg hused, if_pos hempty]
  by_cases hnone : nextblock s * BFS_BSIZE > s.bsup_end
  · cases hcomp : s.bsup_compacted with
    | true =>
      have hfind : findBlock s = some (s, none) := by rw [findBlock, if_pos hnone, if_pos hcomp]
      exact .inl ⟨s, _, .inl rfl, by rw [hfind, bind_some], .full⟩
    | false =>
      obtain ⟨K, hK, hcompacted⟩ := bfs_compact_spec h
      have hfind : findBlock s = some (K,
          if nextblock K * BFS_BSIZE > K.bsup_end then none else some (nextblock K)) := by
        rw [findBlock, if_pos hnone, hcomp, if_neg (by decide), hK, map_some]
      rw [hfind, bind_some]
      by_cases hnoneK : nextblock K * BFS_BSIZE > K.bsup_end
      · exact .inl ⟨K, _, .inr ⟨rfl, hcompacted⟩, by simp only [if_pos hnoneK], .full⟩
      obtain ⟨dirK, hslotK, hslid⟩ := hcompacted.kept.slid i dir hslot
      obtain rfl := hslid.stays fun hold => hold.2 hempty
      have hgetK : K.getinode i = dirK := by
        rw [Fs.getinode, hslotK]
        rfl
      simp only [if_neg hnoneK, hgetK]
      by_cases hfull : nextblock K * BFS_BSIZE + off + data.length > K.bsup_end
      · exact .inl ⟨K, _, .inr ⟨trivial, hcompacted⟩, by rw [if_pos hfull, if_pos hcompacted.done], .full⟩
      have hfirstK := first_lt_next hcompacted.kept.layout
      obtain ⟨s', heq, hfilled⟩ := writeData_empty K i off hused hdata hempty
        (show nextblock K ≠ 0 by omega)
      exact .inl ⟨K, _, .inr ⟨trivial, hcompacted⟩, by rw [if_neg hfull, heq, map_some],
        .empty s' dirK hslotK hempty (not_lt.mp hfull) hfilled⟩
  · have hfind : findBlock s = some (s, some (nextblock s)) := by rw [findBlock, if_neg hnone]
    rw [hfind, bind_some]
    simp only [hget]
    by_cases hfull : nextblock s * BFS_BSIZE + off + data.length > s.bsup_end
    · rw [if_pos hfull]
      cases hcomp : s.bsup_compacted with
      | true => exact .inl ⟨s, _, .inl rfl, if_pos rfl, .full⟩
      | false =>
        obtain ⟨K, hK, hcompacted⟩ := bfs_compact_spec h
        exact .inr ⟨rfl, K, hcompacted, by rw [if_neg (by decide), hK, bind_some]⟩
    · obtain ⟨s', heq, hfilled⟩ := writeData_empty s i off hused hdata hempty
        (show nextblock s ≠ 0 by omega)
      exact .inl ⟨s, _, .inl rfl, by rw [if_neg hfull, heq, map_some],
        .empty s' dir hslot hempty (not_lt.mp hfull) hfilled⟩

section Write

variable (h : Arranged s) (hi : i ≠ 0) (hslot : s.disk.inodes[i]? = some dir) (hused : dir.d_ino ≠ 0)
  (hdata : data ≠ [])

include h hi hslot hused hdata

/-- One call for a file that has blocks and stays where it is. -/
theorem bfs_write_held (off : Nat) (app : Bool) (fuel : Nat) (hold : Holds dir)
    (hstay : ¬MustMove s i dir off app data.length) :
    (∃ r, bfs_write (fuel + 1) s i off app data = some r ∧ Settles s i off app data r) ∨
      s.bsup_compacted = false ∧ ∃ K, Compacted s K ∧
        bfs_write (fuel + 1) s i off app data = bfs_write fuel K i off app data := by
  have hfits := h.fits hslot hold
  have heo : dir.d_eoffset + 1 = dir.d_sblock * BFS_BSIZE + size dir := by
    have horder := hfits.order
    have heof := hfits.eof hi
    unfold size BFS_BSIZE at *
    omega
  have hget : s.getinode i = dir := by
    rw [Fs.getinode, hslot]
    rfl
  have hoffset : (if app = true then dir.d_eoffset + 1 else dir.d_sblock * BFS_BSIZE + off) =
      dir.d_sblock * BFS_BSIZE + position dir off app := by
    unfold position
    cases app with
    | true => rw [if_pos rfl, if_pos ⟨rfl, hold.2⟩, heo]
    | false => rw [if_neg (by decide), if_neg fun h => absurd h.1 (by decide)]
  have hmove : ¬(dir.d_sblock * BFS_BSIZE + position dir off app + data.length > dir.d_eoffset ∧
      s.bsup_lastfile ≠ some i) := fun hmove => hstay ⟨hold.2, hmove.2, by omega⟩
  rw [bfs_write]
  simp only [hget, if_neg hdata, if_neg hused, if_neg hold.2, hoffset, if_neg hmove]
  by_cases hfull : dir.d_sblock * BFS_BSIZE + position dir off app + data.length > s.bsup_end
  · rw [if_pos hfull]
    cases hcomp : s.bsup_compacted with
    | true => exact .inl ⟨_, if_pos rfl, .full⟩
    | false =>
      obtain ⟨K, hK, hcompacted⟩ := bfs_compact_spec h
      refine .inr ⟨rfl, K, hcompacted, ?_⟩
      rw [if_neg (by decide), hK, bind_some]
  · rw [if_neg hfull]
    obtain ⟨s', heq, hfilled⟩ := writeData_held h hi hslot hdata (o := position dir off app) hold (by
        by_cases hlast : s.bsup_lastfile = some i
        · exact .inl hlast
        · exact .inr (Nat.lt_of_not_le fun hle => hstay ⟨hold.2, hlast, hle⟩))
    exact .inl ⟨_, by rw [heq, map_some], .held s' dir hslot hold.2 (not_lt.mp hfull) hfilled⟩

/-- A write that does not move its file, with one compaction at most. -/
theorem bfs_write_stay (off : Nat) (app : Bool) (fuel : Nat) (hstay : ¬MustMove s i dir off app data.length) :
    ∃ K r, (K = s ∨ Compacted s K) ∧ bfs_write (fuel + 2) s i off app data = some r ∧
      Settles K i off app data r := by
  by_cases hempty : dir.d_sblock = 0
  · rcases bfs_write_empty h hslot hused hdata off app (fuel + 1) hempty with
      ⟨K, r, hK, hsettled⟩ | ⟨-, K, hcompacted, hagain⟩
    · exact ⟨K, r, hK.imp id And.right, hsettled⟩
    · obtain ⟨dirK, hslotK, hslid⟩ := hcompacted.kept.slid i dir hslot
      obtain rfl := hslid.stays fun hold => hold.2 hempty
      rcases bfs_write_empty hcompacted.kept.layout hslotK hused hdata off app fuel
        hempty with ⟨K', r, hK', hr, hsettles⟩ | ⟨hno, -⟩
      · rw [hagain]
        rcases hK' with rfl | ⟨hno, -⟩
        · exact ⟨K', r, .inr hcompacted, hr, hsettles⟩
        · exact absurd (hcompacted.done.symm.trans hno) (by decide)
      · exact absurd (hcompacted.done.symm.trans hno) (by decide)
  · have hold : Holds dir := ⟨hused, hempty⟩
    rcases bfs_write_held h hi hslot hused hdata off app (fuel + 1) hold hstay with
      ⟨r, hr, hsettles⟩ | ⟨-, K, hcompacted, hagain⟩
    · exact ⟨s, r, .inl rfl, hr, hsettles⟩
    · obtain ⟨dirK, hslotK, hslid⟩ := hcompacted.kept.slid i dir hslot
      have holdK := hslid.holds hold
      rcases bfs_write_held hcompacted.kept.layout hi hslotK holdK.1 hdata off app fuel
        holdK (hslid.stay hold hcompacted.kept.last hstay) with ⟨r, hr, hsettles⟩ | ⟨hno, -⟩
      · exact ⟨K, r, .inr hcompacted, hagain.trans hr, hsettles⟩
      · exact absurd (hcompacted.done.symm.trans hno) (by decide)

/-- A write: the file may be moved first, and the file system may be compacted before and after that. -/
theorem bfs_write_spec (off : Nat) (app : Bool) :
    ∃ M K r, bfs_write 3 s i off app data = some r ∧ (K = M ∨ Compacted M K) ∧
      Settles K i off app data r ∧
      (M = s ∧ ¬MustMove s i dir off app data.length ∨
        M = s ∧ MustMove s i dir off app data.length ∧ r = (some .ENOSPC, K) ∨
        MustMove s i dir off app data.length ∧ ∃ C,
          (C = s ∨ ¬FitsAtEnd s dir ∧ s.bsup_compacted = false ∧ Compacted s C) ∧
            FitsAtEnd C dir ∧ MovedTo C M dir i ∧ Arranged M) := by
  by_cases hmove : MustMove s i dir off app data.length
  · have hold : Holds dir := ⟨hused, hmove.1⟩
    obtain ⟨hsize, -⟩ := (h.fits hslot hold).entry hi
    have hle : dir.d_sblock * BFS_BSIZE ≤ dir.d_eoffset := by
      unfold size at hsize
      omega
    have heo : dir.d_eoffset + 1 = dir.d_sblock * BFS_BSIZE + size dir := by
      unfold size at *
      omega
    have hget : s.getinode i = dir := by
      rw [Fs.getinode, hslot]
      rfl
    have hcond : (if app = true then dir.d_eoffset + 1 else dir.d_sblock * BFS_BSIZE + off) +
        data.length > dir.d_eoffset ∧ s.bsup_lastfile ≠ some i := by
      obtain ⟨-, hlast, hreach⟩ := hmove
      refine ⟨?_, hlast⟩
      unfold position at hreach
      cases app with
      | true => rw [if_pos rfl]; omega
      | false =>
        rw [if_neg fun h => absurd h.1 (by decide)] at hreach
        rw [if_neg (by decide)]
        omega
    rcases filetoend_spec h i hle with ⟨C, M, heq, hC, hfits, hmoved⟩ | ⟨K, heq, hK⟩
    · have hC' : ∃ dirC, C.disk.inodes[i]? = some dirC ∧ Arranged C := by
        rcases hC with rfl | ⟨-, -, hcompacted⟩
        · exact ⟨dir, hslot, h⟩
        · obtain ⟨dirC, hslotC, -⟩ := hcompacted.kept.slid i dir hslot
          exact ⟨dirC, hslotC, hcompacted.kept.layout⟩
      obtain ⟨dirC, hslotC, hlayoutC⟩ := hC'
      have hlayout := hmoved.layout hlayoutC hi hslotC hused hsize hfits
      have hslotM : M.disk.inodes[i]? = some (entry dir.d_ino (nextblock C) (moved (size dir))) := by
        rw [hmoved.inodes, List.getElem?_set_self (List.getElem?_eq_some_iff.mp hslotC).1]
      obtain ⟨K, r, hK, hr, hsettles⟩ := bfs_write_stay hlayout hi hslotM hused hdata off
        app 0 fun hmove => hmove.2.1 hmoved.last
      refine ⟨M, K, r, ?_, hK, hsettles, .inr (.inr ⟨hmove, C, hC, hfits, hmoved, hlayout⟩)⟩
      rw [bfs_write]
      simp only [hget, if_neg hdata, if_neg hused, if_neg hmove.1, if_pos hcond, heq]
      exact hr
    · refine ⟨s, K, (some .ENOSPC, K), ?_, hK, .full, .inr (.inl ⟨rfl, hmove, rfl⟩)⟩
      rw [bfs_write]
      simp only [hget, if_neg hdata, if_neg hused, if_neg hmove.1, if_pos hcond, heq]
  · obtain ⟨K, r, hK, hr, hsettles⟩ := bfs_write_stay h hi hslot hused hdata off app 1 hmove
    exact ⟨s, K, r, hr, hK, hsettles, .inl ⟨rfl, hmove⟩⟩

end Write

end Svr42.BfsFile
