import Svr42.BfsFileRuns

/-! What the files of a boot file system contain, as the calls that were made on it say. -/

namespace Svr42.BfsFile
open Function List Nat Option

open BfsShift (Dirent Disk BFS_BSIZE)

def contents (s : Fs) (i : Nat) : Option (List UInt8) :=
  match s.disk.inodes[i]? with
  | some dir => if i ≠ 0 ∧ dir.d_ino ≠ 0 then some (content s.disk dir) else none
  | none => none

/-- A file with `data` written at `o`, after zeros when it was shorter than that. -/
def overwrite (c : List UInt8) (o : Nat) (data : List UInt8) : List UInt8 :=
  c.take o ++ List.replicate (o - c.length) 0 ++ data ++ c.drop (o + data.length)

def begin (c : List UInt8) (off : Nat) (app : Bool) : Nat := if app ∧ c ≠ [] then c.length else off

abbrev Files := Nat → Option (List UInt8)

variable {s s₀ s' C M K : Fs} {d d' : Disk Block} {dir new : Dirent} {i j n o off b resid : Nat}
  {app : Bool} {data c : List UInt8} {db dd : Int}

theorem getElem?_readBytes (k : Nat) :
    (readBytes d o n)[k]? = if k < n then some (byte d (o + k)) else none := by
  rw [readBytes, List.getElem?_map]
  split_ifs with hk
  · rw [List.getElem?_range hk]
    rfl
  · rw [List.getElem?_eq_none (by rw [length_range]; omega)]
    rfl

theorem getElem?_overwrite (old : List UInt8) (o : Nat) (data : List UInt8) (k : Nat) :
    (overwrite old o data)[k]? = if o ≤ k ∧ k < o + data.length then data[k - o]?
      else if old.length ≤ k ∧ k < o then some 0 else old[k]? := by
  unfold overwrite
  have htake : (old.take o).length + (o - old.length) = o := by
    rw [length_take]
    omega
  have hzeros : (old.take o ++ List.replicate (o - old.length) (0 : UInt8)).length = o := by
    rw [length_append, length_replicate, htake]
  by_cases hin : o ≤ k ∧ k < o + data.length
  · rw [if_pos hin, List.getElem?_append_left (by rw [length_append, hzeros]; exact hin.2),
      List.getElem?_append_right (by rw [hzeros]; exact hin.1), hzeros]
  rw [if_neg hin]
  rcases lt_or_ge k o with hlt | hge
  · rw [List.getElem?_append_left (by rw [length_append, hzeros]; omega),
      List.getElem?_append_left (by rw [hzeros]; exact hlt)]
    by_cases hzero : old.length ≤ k ∧ k < o
    · rw [if_pos hzero, List.getElem?_append_right (by rw [length_take]; omega),
        List.getElem?_replicate_of_lt (by rw [length_take]; omega)]
    · rw [if_neg hzero, List.getElem?_append_left (by rw [length_take]; omega),
        List.getElem?_take_of_lt hlt]
  · rw [if_neg (by omega), List.getElem?_append_right (by rw [length_append, hzeros]; omega),
      List.getElem?_drop, length_append, hzeros]
    congr 1
    omega

theorem length_content (hne : dir.d_sblock ≠ 0) : (content d dir).length = size dir := by
  rw [content, if_neg hne, length_readBytes, size]

theorem content_empty (h : dir.d_sblock = 0) : content d dir = [] := if_pos h

theorem content_congr
    (h : ∀ a, dir.d_sblock * BFS_BSIZE ≤ a → a ≤ dir.d_eoffset → byte d' a = byte d a) :
    content d' dir = content d dir := by
  unfold content
  split
  · rfl
  · exact readBytes_congr fun k hk => h _ (le_add_right _ _) (by omega)

theorem Kept.contents (h : Kept s s') : BfsFile.contents s' = BfsFile.contents s := by
  funext i
  unfold BfsFile.contents
  cases hslot : s.disk.inodes[i]? with
  | none =>
    have hlen := List.getElem?_eq_none_iff.mp hslot
    rw [List.getElem?_eq_none (by rw [h.slots]; exact hlen)]
  | some dir =>
    obtain ⟨dir', hslot', hslid⟩ := h.slid i dir hslot
    rw [hslot']
    simp only
    rw [hslid.ino]
    by_cases hused : i ≠ 0 ∧ dir.d_ino ≠ 0
    · rw [if_pos hused, if_pos hused]
      by_cases hold : Holds dir
      · rw [hslid.bytes hold]
      have hempty : dir.d_sblock = 0 := by
        by_contra hne
        exact hold ⟨hused.2, hne⟩
      rw [hslid.stays hold, content_empty hempty, content_empty hempty]
    · rw [if_neg hused, if_neg hused]

/-- One slot is overwritten, and the bytes of the other files are as they were. -/
theorem contents_set (hslot : s.disk.inodes[i]? = some dir)
    (hin : s'.disk.inodes = s.disk.inodes.set i new)
    (hothers : ∀ (j : Nat) (dj : Dirent), j ≠ i → s.disk.inodes[j]? = some dj → Holds dj →
      content s'.disk dj = content s.disk dj) : contents s' = update (contents s) i
      (if i ≠ 0 ∧ new.d_ino ≠ 0 then some (content s'.disk new) else none) := by
  funext j
  by_cases hji : j = i
  · subst hji
    rw [update_self, contents, hin, List.getElem?_set_self (List.getElem?_eq_some_iff.mp hslot).1]
  rw [update_of_ne hji, contents, contents, hin, List.getElem?_set_ne (Ne.symm hji)]
  cases hj : s.disk.inodes[j]? with
  | none => rfl
  | some dj =>
    simp only
    by_cases hold : Holds dj
    · rw [hothers j dj hji hj hold]
    by_cases hused : j ≠ 0 ∧ dj.d_ino ≠ 0
    · have hempty : dj.d_sblock = 0 := by
        by_contra hne
        exact hold ⟨hused.2, hne⟩
      rw [content_empty hempty, content_empty hempty]
    · rw [if_neg hused, if_neg hused]

theorem size_entry (ino b : Nat) (hn : 0 < n) : size (entry ino b n) = n := by
  unfold size entry
  simp only
  omega

theorem content_entry (d : Disk Block) (ino : Nat) (hb : b ≠ 0) (hn : 0 < n) :
    content d (entry ino b n) = readBytes d (b * BFS_BSIZE) n := by
  have hsize := size_entry ino b hn
  unfold size at hsize
  rw [content, hsize]
  exact if_neg hb

theorem content_apart {dj : Dirent} (hfits : dj.d_eoffset / BFS_BSIZE ≤ dj.d_eblock)
    (hapart : Apart new dj)
    (h : ∀ a, a / BFS_BSIZE < new.d_sblock ∨ new.d_eblock < a / BFS_BSIZE → byte d' a = byte d a) :
    content d' dj = content d dj :=
  content_congr fun a hlo hhi => h a (by
    have hge : dj.d_sblock ≤ a / BFS_BSIZE := (le_div_iff_mul_le (by decide)).mpr hlo
    have hle : a / BFS_BSIZE ≤ dj.d_eoffset / BFS_BSIZE := Nat.div_le_div_right hhi
    rcases hapart with hlt | hlt
    · exact .inr (by omega)
    · exact .inl (by omega))

/-- The bytes of a file that was written to. -/
theorem Filled.content (hf : Filled K s' i b o dir data) (hdata : data ≠ []) (hb : b ≠ 0)
    (hplace : dir.d_sblock = 0 ∨ dir.d_sblock = b) :
    BfsFile.content s'.disk (entry dir.d_ino b (max (filesize dir) (o + data.length))) =
      overwrite (BfsFile.content K.disk dir) o data := by
  have hlen := length_pos_iff.mpr hdata
  have hold : (BfsFile.content K.disk dir).length = filesize dir := by
    rcases hplace with hempty | heq
    · rw [content_empty hempty, filesize, if_pos hempty]
      rfl
    · rw [length_content (heq ▸ hb), filesize, if_neg (heq ▸ hb)]
  rw [content_entry _ _ hb (by omega)]
  refine ext_getElem? fun k => ?_
  rw [getElem?_overwrite, getElem?_readBytes, hold, hf.bytes]
  by_cases hin : o ≤ k ∧ k < o + data.length
  · rw [if_pos (by omega), if_pos (by omega), if_pos hin, getD_eq_getElem?_getD,
      show b * BFS_BSIZE + k - (b * BFS_BSIZE + o) = k - o by omega,
      List.getElem?_eq_getElem (show k - o < data.length by omega)]
    rfl
  rw [if_neg hin]
  by_cases hhole : filesize dir ≤ k ∧ k < o
  · rw [if_pos (by omega), if_neg (by omega), if_pos (by omega), if_pos hhole]
  rw [if_neg hhole]
  by_cases hk : k < filesize dir
  · have hne : dir.d_sblock ≠ 0 := fun hempty => by
      rw [filesize, if_pos hempty] at hk
      omega
    have hsb : dir.d_sblock = b := hplace.resolve_left hne
    have hin : k < dir.d_eoffset + 1 - dir.d_sblock * BFS_BSIZE := by
      rwa [filesize, if_neg hne] at hk
    rw [if_pos (by omega), if_neg (by omega), if_neg (by omega), BfsFile.content, if_neg hne,
      getElem?_readBytes, if_pos hin, hsb]
  · rw [if_neg (by omega), List.getElem?_eq_none (by omega)]

/-- A write changes no other file. -/
theorem Filled.contents (hf : Filled K s' i b o dir data) (h : Arranged K) (h' : Arranged s')
    (hi : i ≠ 0) (hslot : K.disk.inodes[i]? = some dir) (hused : dir.d_ino ≠ 0) (hdata : data ≠ [])
    (hb : b ≠ 0) (hplace : dir.d_sblock = 0 ∨ dir.d_sblock = b) :
    BfsFile.contents s' = update (BfsFile.contents K) i
      (some (overwrite (BfsFile.content K.disk dir) o data)) := by
  have hlt := (List.getElem?_eq_some_iff.mp hslot).1
  generalize hnew : entry dir.d_ino b (max (filesize dir) (o + data.length)) = new
  have hnewslot : s'.disk.inodes[i]? = some new := by
    rw [hf.inodes, hnew, List.getElem?_set_self hlt]
  have hnewold : Holds new := by
    rw [← hnew]
    exact ⟨hused, hb⟩
  have hothers : ∀ (j : Nat) (dj : Dirent), j ≠ i → K.disk.inodes[j]? = some dj → Holds dj →
      BfsFile.content s'.disk dj = BfsFile.content K.disk dj := by
    intro j dj hj hdj hold
    have hdj' : s'.disk.inodes[j]? = some dj := by
      rw [hf.inodes, List.getElem?_set_ne hj.symm, hdj]
    refine content_apart (h.fits hdj hold).within
      (h'.apart i j new dj hj.symm hnewslot hdj' hnewold hold) fun a ha => ?_
    have hend : new.d_eblock = (b * BFS_BSIZE + max (filesize dir) (o + data.length) - 1) / BFS_BSIZE := by
      rw [← hnew]
      rfl
    have hstart : new.d_sblock = b := by
      rw [← hnew]
      rfl
    have hout : a < b * BFS_BSIZE ∨ b * BFS_BSIZE + max (filesize dir) (o + data.length) ≤ a := by
      unfold BFS_BSIZE at *
      omega
    rw [hf.bytes, if_neg (by omega), if_neg (by omega)]
  rw [contents_set hslot (hnew ▸ hf.inodes) hothers, if_pos ⟨hi, hnewold.1⟩, ← hnew,
    hf.content hdata hb hplace]

/-- A whole file that is moved after the others keeps its bytes, and so do they. -/
theorem MovedTo.contents (hm : MovedTo C M dir i) (h : Arranged C) (hi : i ≠ 0)
    (hslot : C.disk.inodes[i]? = some new) (hused : dir.d_ino ≠ 0) (hwhole : moved (size dir) = size dir)
    (hsize : 0 < size dir)
    (hsafe : nextblock C ≤ dir.d_sblock ∨ dir.d_eoffset < nextblock C * BFS_BSIZE) :
    BfsFile.contents M = update (BfsFile.contents C) i
      (some (readBytes C.disk (dir.d_sblock * BFS_BSIZE) (size dir))) := by
  have hfirst := first_lt_next h
  have hnext : nextblock C ≠ 0 := by omega
  have hbytes := hm.bytes hsafe
  rw [hwhole] at hbytes
  have hothers : ∀ (j : Nat) (dj : Dirent), j ≠ i → C.disk.inodes[j]? = some dj → Holds dj →
      content M.disk dj = content C.disk dj := by
    intro j dj _ hdj hold
    have hbeyond := next_beyond h hdj hold
    have hwithin := (h.fits hdj hold).within
    refine content_congr fun a _ hhi => ?_
    have hlt : a < nextblock C * BFS_BSIZE := by
      unfold BFS_BSIZE at *
      omega
    rw [hbytes, if_neg (by omega)]
  have hnew : (entry dir.d_ino (nextblock C) (moved (size dir))).d_ino ≠ 0 := hused
  rw [contents_set hslot hm.inodes hothers, if_pos ⟨hi, hnew⟩, hwhole, content_entry _ _ hnext hsize]
  congr 2
  refine readBytes_congr fun k hk => ?_
  rw [hbytes, if_pos (by omega), Nat.add_sub_cancel_left]

variable {r : Outcome}

theorem Changed.contents (hc : Changed s M i new db dd) (hslot : s.disk.inodes[i]? = some dir) :
    BfsFile.contents M = update (BfsFile.contents s) i
      (if i ≠ 0 ∧ new.d_ino ≠ 0 then some (content s.disk new) else none) := by
  have hsame : ∀ d, content M.disk d = content s.disk d := fun d => by
    refine content_congr fun a _ _ => ?_
    rw [byte, byte, hc.blocks]
  rw [contents_set hslot hc.inodes fun j dj _ _ _ => hsame dj, hsame]

/-- A file system of 33 blocks, the fewest that `mkfs` takes, with four inodes. -/
def tiny : Option Fs := mkfs 33 3 fun _ _ => 0

def reached (calls : List Call) : Option Fs :=
  calls.foldlM (fun s c => (call s c).map Prod.snd) =<< tiny

end Svr42.BfsFile
