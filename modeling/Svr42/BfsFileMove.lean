import Svr42.BfsFileCompact

/-! Transfers of bytes, and the move of a file to the end of the others. -/

namespace Svr42.BfsFile

open BfsShift (Dirent Disk BFS_BSIZE)

variable {s s' K : Fs} {d d' : Disk Block} {dir dir' : Dirent} {i o n a : Nat} {data : List UInt8}

@[simp] theorem length_readBytes : (readBytes d o n).length = n := by
  rw [readBytes, List.length_map, List.length_range]

theorem getD_readBytes {k : Nat} (hk : k < n) : (readBytes d o n).getD k 0 = byte d (o + k) := by
  rw [List.getD_eq_getElem?_getD, readBytes, List.getElem?_map, List.getElem?_range hk]
  rfl

theorem byte_writeBytes (d : Disk Block) (o : Nat) (data : List UInt8) (a : Nat) :
    byte (writeBytes d o data) a =
      if o ≤ a ∧ a < o + data.length then data.getD (a - o) 0 else byte d a := by
  rw [byte, writeBytes]
  simp only [Nat.div_add_mod']
  rfl

/-- How many of `r` bytes the loop moves in chunks: a single byte that is left over stays behind. -/
def movedBy (chunk r : Nat) : Nat := if chunk < r ∧ (r - 1) % chunk = 0 then r - 1 else r

theorem movedBy_last (chunk r : Nat) (hstop : r - min r chunk ≤ 1) (hr : 0 < r) :
    movedBy chunk r = min r chunk := by
  unfold movedBy
  by_cases hlt : chunk < r
  · have heq : r - 1 = chunk := by omega
    rw [heq, if_pos ⟨hlt, Nat.mod_self chunk⟩]
    omega
  · rw [if_neg fun h => hlt h.1]
    omega

theorem movedBy_step {chunk r : Nat} (hchunk : 0 < chunk) (hmore : 1 < r - chunk) :
    movedBy chunk r = chunk + movedBy chunk (r - chunk) := by
  have hmod : (r - 1) % chunk = (r - chunk - 1) % chunk := by
    have heq : r - 1 = r - chunk - 1 + chunk := by omega
    rw [heq, Nat.add_mod_right]
  unfold movedBy
  rw [hmod]
  by_cases hzero : (r - chunk - 1) % chunk = 0
  · have hle : chunk ≤ r - chunk - 1 := by
      by_contra hlt
      rw [Nat.mod_eq_of_lt (by omega)] at hzero
      omega
    rw [if_pos ⟨by omega, hzero⟩, if_pos ⟨by omega, hzero⟩]
    omega
  · rw [if_neg fun h => hzero h.2, if_neg fun h => hzero h.2]
    omega

theorem moveLoop_spec {eo chunk : Nat} (hchunk : 0 < chunk) (fuel : Nat) (d : Disk Block) (o₁ o₂ : Nat)
    (hle : o₂ ≤ eo) (hfuel : eo + 1 - o₂ ≤ fuel) :
    ∃ d', moveLoop eo chunk fuel d o₁ o₂ = some (d', o₁ + movedBy chunk (eo + 1 - o₂)) ∧
      d'.inodes = d.inodes ∧
      (o₁ ≤ o₂ ∨ eo < o₁ → ∀ a, byte d' a =
        if o₁ ≤ a ∧ a < o₁ + movedBy chunk (eo + 1 - o₂) then byte d (o₂ + (a - o₁))
        else byte d a) := by
  induction fuel generalizing d o₁ o₂ with
  | zero => omega
  | succ fuel ih =>
    have hj : min (eo - o₂ + 1) chunk = min (eo + 1 - o₂) chunk := by
      rw [Nat.sub_add_comm hle]
    have hchunkByte : ∀ a, byte (writeBytes d o₁ (readBytes d o₂ (min (eo + 1 - o₂) chunk))) a =
        if o₁ ≤ a ∧ a < o₁ + min (eo + 1 - o₂) chunk then byte d (o₂ + (a - o₁)) else byte d a := by
      intro a
      rw [byte_writeBytes, length_readBytes]
      by_cases hin : o₁ ≤ a ∧ a < o₁ + min (eo + 1 - o₂) chunk
      · rw [if_pos hin, if_pos hin, getD_readBytes (by omega)]
      · rw [if_neg hin, if_neg hin]
    rw [moveLoop]
    simp only [hj]
    by_cases hmore : o₂ + min (eo + 1 - o₂) chunk < eo
    · have hmin : min (eo + 1 - o₂) chunk = chunk := by omega
      rw [hmin] at hmore hchunkByte ⊢
      rw [if_pos hmore]
      obtain ⟨d', heq, hinodes, hbytes⟩ := ih (writeBytes d o₁ (readBytes d o₂ chunk)) (o₁ + chunk)
        (o₂ + chunk) hmore.le (by omega)
      have hrest : eo + 1 - (o₂ + chunk) = eo + 1 - o₂ - chunk := Nat.sub_add_eq _ _ _
      have hstep := movedBy_step hchunk (show 1 < eo + 1 - o₂ - chunk by omega)
      rw [hrest] at heq hbytes
      refine ⟨d', by rw [heq, hstep, add_assoc], hinodes, fun hsafe a => ?_⟩
      have hbound : movedBy chunk (eo + 1 - o₂ - chunk) ≤ eo + 1 - o₂ - chunk := by
        unfold movedBy
        split <;> omega
      rw [hbytes (by omega), hchunkByte, hchunkByte, hstep]
      by_cases hfirst : a < o₁ + chunk
      · rw [if_neg (by omega)]
        by_cases hlo : o₁ ≤ a
        · rw [if_pos ⟨hlo, hfirst⟩, if_pos ⟨hlo, by omega⟩]
        · rw [if_neg (by omega), if_neg (by omega)]
      · by_cases hin : a < o₁ + chunk + movedBy chunk (eo + 1 - o₂ - chunk)
        · rw [if_pos ⟨by omega, hin⟩, if_neg (by omega), if_pos ⟨by omega, by omega⟩]
          congr 1
          omega
        · rw [if_neg (by omega), if_neg (by omega), if_neg (by omega)]
    · have hlast := movedBy_last chunk (eo + 1 - o₂) (by omega) (by omega)
      rw [if_neg hmore, hlast]
      exact ⟨_, rfl, rfl, fun _ => hchunkByte⟩

def moved (len : Nat) : Nat := if MAXBSIZE < len ∧ (len - 1) % MAXBSIZE = 0 then len - 1 else len

theorem movedBy_min (len : Nat) : movedBy (min len MAXBSIZE) len = moved len := by
  unfold movedBy moved
  rcases lt_or_ge MAXBSIZE len with hlt | hge
  · rw [Nat.min_eq_right hlt.le]
  · rw [Nat.min_eq_left hge, if_neg (by omega), if_neg (by omega)]

theorem moved_le (len : Nat) : moved len ≤ len := by
  unfold moved
  split <;> omega

theorem moved_pos {len : Nat} (h : 0 < len) : 0 < moved len := by
  unfold moved MAXBSIZE
  split <;> omega

def size (dir : Dirent) : Nat := dir.d_eoffset + 1 - dir.d_sblock * BFS_BSIZE

def entry (ino b n : Nat) : Dirent := ⟨ino, b, (b * BFS_BSIZE + n - 1) / BFS_BSIZE, b * BFS_BSIZE + n - 1⟩

/-- The move by the entry `dir`, which may no longer be the one in the slot. -/
structure MovedTo (s s' : Fs) (dir : Dirent) (i : Nat) : Prop where
  inodes : s'.disk.inodes = s.disk.inodes.set i (entry dir.d_ino (nextblock s) (moved (size dir)))
  start : s'.bsup_start = s.bsup_start
  fin : s'.bsup_end = s.bsup_end
  free : s'.bsup_freeblocks = s.bsup_freeblocks
  drents : s'.bsup_freedrents = s.bsup_freedrents
  nlink : s'.nlink = s.nlink
  last : s'.bsup_lastfile = some i
  compacted : s'.bsup_compacted = false
  bytes : nextblock s ≤ dir.d_sblock ∨ dir.d_eoffset < nextblock s * BFS_BSIZE → ∀ a,
    byte s'.disk a =
      if nextblock s * BFS_BSIZE ≤ a ∧ a < nextblock s * BFS_BSIZE + moved (size dir) then
        byte s.disk (dir.d_sblock * BFS_BSIZE + (a - nextblock s * BFS_BSIZE))
      else byte s.disk a

def FitsAtEnd (s : Fs) (dir : Dirent) : Prop :=
  nextblock s * BFS_BSIZE + (dir.d_eoffset - dir.d_sblock * BFS_BSIZE) ≤ s.bsup_end

theorem filetoend_fits (fuel : Nat) (i : Nat) (hfits : FitsAtEnd s dir)
    (hsize : dir.d_sblock * BFS_BSIZE ≤ dir.d_eoffset) :
    ∃ s', bfs_filetoend (fuel + 1) s dir i = some (none, s') ∧ MovedTo s s' dir i := by
  have hsum : dir.d_eoffset - dir.d_sblock * BFS_BSIZE + 1 = size dir := (Nat.sub_add_comm hsize).symm
  have hchunk : 0 < min (size dir) MAXBSIZE := by
    unfold MAXBSIZE
    omega
  obtain ⟨d', heq, hinodes, hbytes⟩ := moveLoop_spec hchunk (size dir) s.disk
    (nextblock s * BFS_BSIZE) (dir.d_sblock * BFS_BSIZE) hsize le_rfl
  rw [show dir.d_eoffset + 1 - dir.d_sblock * BFS_BSIZE = size dir from rfl, movedBy_min] at heq hbytes
  rw [bfs_filetoend]
  simp only [if_neg (not_lt.mpr hfits), hsum, heq, Option.map_some]
  refine ⟨_, rfl, ⟨?_, rfl, rfl, rfl, rfl, rfl, rfl, rfl, fun hsafe => ?_⟩⟩
  · change d'.inodes.set i _ = _
    rw [hinodes, entry]
  · exact hbytes (hsafe.imp (Nat.mul_le_mul_right _) id)

theorem filetoend_full (fuel : Nat) (i : Nat) (hfull : ¬FitsAtEnd s dir)
    (hcomp : s.bsup_compacted = true) : bfs_filetoend (fuel + 1) s dir i = some (some .ENOSPC, s) := by
  rw [bfs_filetoend]
  simp only [if_pos (Nat.lt_of_not_le hfull), if_pos hcomp]

/-- The file is moved at once, or after a compaction by the entry read before it, or the device is full. -/
theorem filetoend_spec (h : Arranged s) (i : Nat) (hsize : dir.d_sblock * BFS_BSIZE ≤ dir.d_eoffset) :
    (∃ K s', bfs_filetoend 2 s dir i = some (none, s') ∧
        (K = s ∨ ¬FitsAtEnd s dir ∧ s.bsup_compacted = false ∧ Compacted s K) ∧ FitsAtEnd K dir ∧
        MovedTo K s' dir i) ∨
      ∃ K, bfs_filetoend 2 s dir i = some (some .ENOSPC, K) ∧ (K = s ∨ Compacted s K) := by
  by_cases hfits : FitsAtEnd s dir
  · obtain ⟨s', heq, hmoved⟩ := filetoend_fits 1 i hfits hsize
    exact .inl ⟨s, s', heq, .inl rfl, hfits, hmoved⟩
  cases hcomp : s.bsup_compacted with
  | true => exact .inr ⟨s, filetoend_full 1 i hfits hcomp, .inl rfl⟩
  | false =>
    obtain ⟨K, hK, hcompacted⟩ := bfs_compact_spec h
    have hagain : bfs_filetoend 2 s dir i = bfs_filetoend 1 K dir i := by
      rw [bfs_filetoend]
      simp only [if_pos (Nat.lt_of_not_le hfits), hcomp, hK, Option.bind_some, Bool.false_eq_true,
        if_false]
    by_cases hfitsK : FitsAtEnd K dir
    · obtain ⟨s', heq, hmoved⟩ := filetoend_fits 0 i hfitsK hsize
      exact .inl ⟨K, s', hagain.trans heq, .inr ⟨hfits, rfl, hcompacted⟩, hfitsK, hmoved⟩
    · exact .inr ⟨K, hagain.trans (filetoend_full 0 i hfitsK hcompacted.done), .inr hcompacted⟩

theorem entry_order (ino b : Nat) (hn : 0 < n) : (entry ino b n).d_sblock ≤ (entry ino b n).d_eblock := by
  unfold entry BFS_BSIZE
  simp only
  omega

theorem Fits.entry {start fin : Nat} (h : Fits start fin i dir) (hi : i ≠ 0) :
    0 < size dir ∧ dir = entry dir.d_ino dir.d_sblock (size dir) := by
  have horder := h.order
  have heof := h.eof hi
  have hle : dir.d_sblock * BFS_BSIZE ≤ dir.d_eoffset := by
    unfold BFS_BSIZE at *
    omega
  have hback : dir.d_sblock * BFS_BSIZE + size dir - 1 = dir.d_eoffset := by
    unfold size
    omega
  exact ⟨by unfold size; omega, by rw [BfsFile.entry, hback, heof]⟩

theorem Fits.room {start fin : Nat} (h : Fits start fin i dir) (hi : i ≠ 0)
    (hwhole : (fin + 1) % BFS_BSIZE = 0) : dir.d_sblock * BFS_BSIZE + size dir ≤ fin + 1 := by
  have horder := h.order
  have hinside := h.inside
  have heof := h.eof hi
  unfold blockCount at hinside
  unfold size
  unfold BFS_BSIZE at *
  omega

section Place

variable (h : Arranged s)

include h

theorem next_beyond {j : Nat} {dj : Dirent} (hj : s.disk.inodes[j]? = some dj) (hold : Holds dj) :
    dj.d_eblock < nextblock s := by
  obtain ⟨l, dl, hl, hdl, -, hmax⟩ := h.last
  have hle := hmax j dj hj hold.1
  rw [nextblock, hl]
  simp only [Fs.getinode, hdl, Option.getD_some]
  omega

theorem first_lt_next : firstBlock s.bsup_start < nextblock s := by
  obtain ⟨root, hroot, hold, hfirst⟩ := h.root_holds
  have horder := (h.fits hroot hold).order
  have hbeyond := next_beyond h hroot hold
  omega

theorem entry_fits (ino : Nat) {b : Nat} (hn : 0 < n) (hfirst : firstBlock s.bsup_start ≤ b)
    (hroom : b * BFS_BSIZE + n ≤ s.bsup_end + 1) : Fits s.bsup_start s.bsup_end i (entry ino b n) := by
  have hwhole := h.whole
  exact {
    first := hfirst
    order := entry_order ino b hn
    inside := by
      unfold entry blockCount BFS_BSIZE at *
      simp only
      omega
    within := le_rfl
    eof := fun _ => rfl }

/-- Slot `i` may hold a file that begins after all others, which is then the last one. -/
theorem Arranged.place (hi : i ≠ 0) (hslot : s.disk.inodes[i]? = some dir) {new : Dirent}
    (hused : new.d_ino ≠ 0) (hfits : Fits s.bsup_start s.bsup_end i new)
    (hbeyond : ∀ (j : Nat) (dj : Dirent), j ≠ i → s.disk.inodes[j]? = some dj → Holds dj →
      dj.d_eblock < new.d_sblock) :
    Layout (s.disk.inodes.set i new) s.bsup_start s.bsup_end (some i) := by
  have horder := hfits.order
  have hpos := h.first_pos
  have hfirst := hfits.first
  refine h.replace hi (fun _ => .inr hfits) (fun j dj hj hdj _ hold => .inr (hbeyond j dj hj hdj hold))
    (Last.self hslot ⟨hused, by omega⟩ fun j dj hj hdj hju => ?_)
  by_cases hold : Holds dj
  · exact le_of_lt (lt_of_lt_of_le (hbeyond j dj hj hdj hold) horder)
  rcases h.held j dj hdj hju with hempty | hfitsj
  · rw [hempty.2.1]
    exact Nat.zero_le _
  · have hle := hfitsj.first
    exact absurd ⟨hju, by omega⟩ hold

end Place

theorem MovedTo.layout (hm : MovedTo s s' dir i) (h : Arranged s) (hi : i ≠ 0)
    (hslot : s.disk.inodes[i]? = some dir') (hused : dir.d_ino ≠ 0) (hsize : 0 < size dir)
    (hfits : FitsAtEnd s dir) : Arranged s' := by
  have hle := moved_le (size dir)
  have hfirst := first_lt_next h
  have hroom : nextblock s * BFS_BSIZE + moved (size dir) ≤ s.bsup_end + 1 := by
    unfold FitsAtEnd at hfits
    unfold size at *
    omega
  have hlayout := Arranged.place h hi hslot (show (entry dir.d_ino (nextblock s)
    (moved (size dir))).d_ino ≠ 0 from hused) (entry_fits h dir.d_ino (moved_pos hsize) hfirst.le hroom)
    fun j dj _ hj hold => next_beyond h hj hold
  unfold Arranged
  rw [hm.inodes, hm.start, hm.fin, hm.last]
  exact hlayout

end Svr42.BfsFile
