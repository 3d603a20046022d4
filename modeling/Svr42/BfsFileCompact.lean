import Svr42.BfsFileLayout
import Svr42.BfsShiftRecovery
import Svr42.SlotMap

/-! Compaction: the files go down one after the other, in the order in which they lie, and each keeps
its bytes. -/

namespace Svr42.BfsFile
open List Nat Option

open BfsShift (Dirent Disk BFS_BSIZE)

def content (d : Disk Block) (dir : Dirent) : List UInt8 :=
  if dir.d_sblock = 0 then []
  else readBytes d (dir.d_sblock * BFS_BSIZE) (dir.d_eoffset + 1 - dir.d_sblock * BFS_BSIZE)

/-- The file has gone down by some blocks, with its bytes. -/
structure Slid (d d' : Disk Block) (dir dir' : Dirent) : Prop where
  ino : dir'.d_ino = dir.d_ino
  down : ∃ g, dir'.d_sblock + g = dir.d_sblock ∧ dir'.d_eblock + g = dir.d_eblock ∧
    dir'.d_eoffset + g * BFS_BSIZE = dir.d_eoffset
  holds : Holds dir → Holds dir'
  stays : ¬Holds dir → dir' = dir
  bytes : Holds dir → content d' dir' = content d dir

abbrev Arranged (s : Fs) : Prop :=
  Layout s.disk.inodes s.bsup_start s.bsup_end s.bsup_lastfile

/-- Every file is still there, with the bytes it had. -/
structure Kept (s s' : Fs) : Prop where
  layout : Arranged s'
  start : s'.bsup_start = s.bsup_start
  fin : s'.bsup_end = s.bsup_end
  free : s'.bsup_freeblocks = s.bsup_freeblocks
  drents : s'.bsup_freedrents = s.bsup_freedrents
  nlink : s'.nlink = s.nlink
  last : s'.bsup_lastfile = s.bsup_lastfile
  slots : s'.disk.inodes.length = s.disk.inodes.length
  slid : ∀ (i : Nat) (dir : Dirent), s.disk.inodes[i]? = some dir →
    ∃ dir', s'.disk.inodes[i]? = some dir' ∧ Slid s.disk s'.disk dir dir'

variable {s s' t : Fs} {d d' d'' : Disk Block} {dir dir' dir'' : Dirent} {I : List Dirent}
  {i e e' first : Nat} {new : Dirent}

theorem Slid.refl (d : Disk Block) (dir : Dirent) : Slid d d dir dir where
  ino := rfl
  down := ⟨0, rfl, rfl, by rw [Nat.zero_mul]; rfl⟩
  holds := id
  stays _ := rfl
  bytes _ := rfl

theorem Slid.trans (h : Slid d d' dir dir') (h' : Slid d' d'' dir' dir'') : Slid d d'' dir dir'' where
  ino := h'.ino.trans h.ino
  down := by
    obtain ⟨g, hs, he, ho⟩ := h.down
    obtain ⟨g', hs', he', ho'⟩ := h'.down
    exact ⟨g' + g, by omega, by omega, by rw [Nat.add_mul]; omega⟩
  holds hold := h'.holds (h.holds hold)
  stays hno := by
    have heq := h.stays hno
    rw [h'.stays (heq ▸ hno), heq]
  bytes hold := (h'.bytes (h.holds hold)).trans (h.bytes hold)

theorem Slid.blocks (h : Slid d d' dir dir') : blocksOf dir' = blocksOf dir := by
  by_cases hold : Holds dir
  · obtain ⟨g, hs, he, -⟩ := h.down
    rw [blocksOf, blocksOf, if_pos hold, if_pos (h.holds hold)]
    omega
  · rw [h.stays hold]

namespace Kept

theorem refl (h : Arranged s) : Kept s s where
  layout := h
  start := rfl
  fin := rfl
  free := rfl
  drents := rfl
  nlink := rfl
  last := rfl
  slots := rfl
  slid _ dir hi := ⟨dir, hi, .refl _ _⟩

theorem trans (h : Kept s s') (h' : Kept s' t) : Kept s t where
  layout := h'.layout
  start := h'.start.trans h.start
  fin := h'.fin.trans h.fin
  free := h'.free.trans h.free
  drents := h'.drents.trans h.drents
  nlink := h'.nlink.trans h.nlink
  last := h'.last.trans h.last
  slots := h'.slots.trans h.slots
  slid i dir hi := by
    obtain ⟨dir', hi', hslid⟩ := h.slid i dir hi
    obtain ⟨dir'', hi'', hslid'⟩ := h'.slid i dir' hi'
    exact ⟨dir'', hi'', hslid.trans hslid'⟩

theorem flag (h : Kept s s') (b : Bool) : Kept s { s' with bsup_compacted := b } :=
  ⟨h.layout, h.start, h.fin, h.free, h.drents, h.nlink, h.last, h.slots, h.slid⟩

theorem heldBlocks (h : Kept s s') :
    BfsFile.heldBlocks s'.disk.inodes = BfsFile.heldBlocks s.disk.inodes :=
  total_ext h.slots fun i dir hi => by
    obtain ⟨dir', hi', hslid⟩ := h.slid i dir hi
    exact ⟨dir', hi', hslid.blocks⟩

theorem freeSlots (h : Kept s s') : BfsFile.freeSlots s'.disk.inodes = BfsFile.freeSlots s.disk.inodes :=
  total_ext h.slots fun i dir hi => by
    obtain ⟨dir', hi', hslid⟩ := h.slid i dir hi
    exact ⟨dir', hi', by rw [slotFree, slotFree, hslid.ino]⟩

end Kept

theorem byte_block (d : Disk Block) (b k : Nat) :
    byte d (b * BFS_BSIZE + k) = d.blocks (b + k / BFS_BSIZE) (k % BFS_BSIZE) := by
  have hpos : 0 < BFS_BSIZE := by decide
  rw [byte, mul_comm, mul_add_div hpos, mul_add_mod]

theorem readBytes_congr {o o' n : Nat} (h : ∀ k < n, byte d' (o' + k) = byte d (o + k)) :
    readBytes d' o' n = readBytes d o n :=
  map_congr_left fun k hk => h k (mem_range.mp hk)

variable {g : Nat}

/-- A file that has gone down by `g` blocks has its bytes when its blocks have gone down. -/
theorem content_slid (hs : dir'.d_sblock + g = dir.d_sblock)
    (ho : dir'.d_eoffset + g * BFS_BSIZE = dir.d_eoffset) (hpos : dir'.d_sblock ≠ 0)
    (hblocks : ∀ b, dir'.d_sblock ≤ b → b ≤ dir'.d_eoffset / BFS_BSIZE →
      d'.blocks b = d.blocks (b + g)) : content d' dir' = content d dir := by
  have hlen : dir'.d_eoffset + 1 - dir'.d_sblock * BFS_BSIZE =
      dir.d_eoffset + 1 - dir.d_sblock * BFS_BSIZE := by
    rw [← hs, ← ho, Nat.add_mul]
    omega
  rw [content, content, if_neg hpos, if_neg (by omega), hlen]
  refine readBytes_congr fun k hk => ?_
  have hin : dir'.d_sblock + k / BFS_BSIZE ≤ dir'.d_eoffset / BFS_BSIZE := by
    unfold BFS_BSIZE at *
    omega
  rw [byte_block, byte_block, hblocks _ (Nat.le_add_right _ _) hin, ← hs, Nat.add_right_comm]

/-- The search for the next file, from slot `k` on. -/
theorem nxtcblock_spec (cur : Nat) (rest : List Dirent) (k : Nat) (acc : Dirent × Option Nat)
    (hrest : ∀ j, I[k + j]? = rest[j]?) :
    (nxtcblock cur rest k acc = acc ∧ ∀ (j : Nat) (dj : Dirent), rest[j]? = some dj →
        dj.d_ino ≠ 0 → cur < dj.d_sblock → acc.1.d_sblock ≤ dj.d_sblock) ∨
      ∃ i dir, nxtcblock cur rest k acc = (dir, some i) ∧ I[i]? = some dir ∧ dir.d_ino ≠ 0 ∧
        cur < dir.d_sblock ∧ dir.d_sblock < acc.1.d_sblock ∧
        ∀ (j : Nat) (dj : Dirent), rest[j]? = some dj → dj.d_ino ≠ 0 → cur < dj.d_sblock →
          dir.d_sblock ≤ dj.d_sblock := by
  induction rest generalizing k acc with
  | nil => exact .inl ⟨rfl, fun j dj hj => absurd hj (some_ne_none dj).symm⟩
  | cons dir rest ih =>
    have hk : I[k]? = some dir := hrest 0
    have hnext : ∀ j, I[k + 1 + j]? = rest[j]? := fun j => by
      rw [add_assoc, add_comm 1 j]
      exact hrest (j + 1)
    rw [nxtcblock]
    split_ifs with hbetter
    · obtain ⟨hused, hgt, hlt⟩ := hbetter
      rcases ih (k + 1) (dir, some k) hnext with ⟨heq, hmin⟩ | ⟨i, di, heq, hi, hiu, hig, hil, hmin⟩
      · refine .inr ⟨k, dir, heq, hk, hused, hgt, hlt, fun j dj hj hju hjg => ?_⟩
        cases j with
        | zero => exact le_of_eq (congrArg Dirent.d_sblock (some.inj hj))
        | succ j => exact hmin j dj hj hju hjg
      · refine .inr ⟨i, di, heq, hi, hiu, hig, hil.trans hlt, fun j dj hj hju hjg => ?_⟩
        cases j with
        | zero =>
          obtain rfl : dir = dj := some.inj hj
          exact hil.le
        | succ j => exact hmin j dj hj hju hjg
    · have hhere : ∀ dj, some dir = some dj → dj.d_ino ≠ 0 → cur < dj.d_sblock →
          acc.1.d_sblock ≤ dj.d_sblock := by
        intro dj hdj hju hjg
        obtain rfl := some.inj hdj
        by_contra hlt
        exact hbetter ⟨hju, hjg, Nat.lt_of_not_le hlt⟩
      rcases ih (k + 1) acc hnext with ⟨heq, hmin⟩ | ⟨i, di, heq, hi, hiu, hig, hil, hmin⟩
      · refine .inl ⟨heq, fun j dj hj hju hjg => ?_⟩
        cases j with
        | zero => exact hhere dj hj hju hjg
        | succ j => exact hmin j dj hj hju hjg
      · refine .inr ⟨i, di, heq, hi, hiu, hig, hil, fun j dj hj hju hjg => ?_⟩
        cases j with
        | zero => exact hil.le.trans (hhere dj hj hju hjg)
        | succ j => exact hmin j dj hj hju hjg

/-- The file in slot `i` is the first one after block `e`. -/
structure NextFile (I : List Dirent) (e i : Nat) (dir : Dirent) : Prop where
  slot : I[i]? = some dir
  holds : Holds dir
  after : e < dir.d_sblock
  least : ∀ (j : Nat) (dj : Dirent), I[j]? = some dj → Holds dj → e < dj.d_sblock →
    dir.d_sblock ≤ dj.d_sblock

theorem bfs_getnxtcblock_spec (h : Arranged s) (e : Nat) (drent : Dirent) :
    (∃ x, bfs_getnxtcblock s e drent = (x, none) ∧ ∀ (j : Nat) (dj : Dirent),
        s.disk.inodes[j]? = some dj → Holds dj → dj.d_sblock ≤ e) ∨
      ∃ i dir, bfs_getnxtcblock s e drent = (dir, some i) ∧ NextFile s.disk.inodes e i dir := by
  rcases nxtcblock_spec (I := s.disk.inodes) e s.disk.inodes 0
      ({ drent with d_sblock := (s.bsup_end + 1) / BFS_BSIZE }, none)
      (fun j => by rw [zero_add]) with ⟨heq, hmin⟩ | ⟨i, dir, heq, hi, hused, hgt, -, hmin⟩
  · refine .inl ⟨_, heq, fun j dj hj hold => Nat.le_of_not_lt fun hlt => ?_⟩
    have hfits := h.fits hj hold
    have hfar : blockCount s.bsup_end ≤ dj.d_sblock := hmin j dj hj hold.1 hlt
    exact absurd (hfits.order.trans_lt hfits.inside) (not_lt.mpr hfar)
  · exact .inr ⟨i, dir, heq, hi, ⟨hused, by omega⟩, hgt, fun j dj hj hold => hmin j dj hj hold.1⟩

def upTo (e : Nat) (dir : Dirent) : Nat := if dir.d_sblock ≤ e then blocksOf dir else 0

/-- The files up to block `e` follow one another without a gap. -/
structure Settled (I : List Dirent) (first e : Nat) : Prop where
  begun : first ≤ e + 1
  closed : ∀ (j : Nat) (dj : Dirent), I[j]? = some dj → Holds dj → dj.d_sblock ≤ e → dj.d_eblock ≤ e
  count : e + 1 = first + total (upTo e) I

def Covered (I : List Dirent) (e b : Nat) : Prop :=
  ∀ x, e < x → x < b → ∃ (k : Nat) (dk : Dirent), I[k]? = some dk ∧ Holds dk ∧ dk.d_sblock ≤ x ∧
    x ≤ dk.d_eblock

/-- What the rounds of a compaction do that start at block `e` and end at block `e'`. -/
structure Packs (s s' : Fs) (e e' : Nat) : Prop where
  kept : Kept s s'
  le : e ≤ e'
  compacted : s'.bsup_compacted = s.bsup_compacted
  beyond : ∀ b, e' < b → s'.disk.blocks b = s.disk.blocks b
  stays : ∀ (j : Nat) (dj : Dirent), s.disk.inodes[j]? = some dj → Holds dj →
    Covered s.disk.inodes e dj.d_sblock → s'.disk.inodes[j]? = some dj

theorem Packs.trans {e'' : Nat} (h : Packs s s' e e') (h' : Packs s' t e' e'')
    (hcover : ∀ b, Covered s.disk.inodes e b → Covered s'.disk.inodes e' b) : Packs s t e e'' where
  kept := h.kept.trans h'.kept
  le := h.le.trans h'.le
  compacted := h'.compacted.trans h.compacted
  beyond b hb := (h'.beyond b hb).trans (h.beyond b (h'.le.trans_lt hb))
  stays j dj hj hold hcov := h'.stays j dj (h.stays j dj hj hold hcov) hold (hcover _ hcov)

theorem NextFile.adjacent (hset : Settled I first e) (hn : NextFile I e i dir) {b : Nat}
    (hcov : Covered I e b) (hb : e + 1 < b) : dir.d_sblock = e + 1 := by
  have hafter := hn.after
  by_contra hgap
  obtain ⟨k, dk, hk, hold, hlo, hhi⟩ := hcov (e + 1) (Nat.lt_succ_self e) hb
  by_cases hle : dk.d_sblock ≤ e
  · have hclosed := hset.closed k dk hk hold hle
    omega
  · have hleast := hn.least k dk hk hold (Nat.lt_of_not_le hle)
    omega

theorem closeGap_adjacent (h : Arranged s) (hn : NextFile s.disk.inodes e i dir)
    (hadj : dir.d_sblock = e + 1) : closeGap s e dir i = some (s, dir) ∧ Packs s s e dir.d_eblock := by
  refine ⟨by rw [closeGap, if_neg fun hgap => hgap.1 hadj], ?_⟩
  have horder := (h.fits hn.slot hn.holds).order
  exact { kept := .refl h
          le := by omega
          compacted := rfl
          beyond := fun _ _ => rfl
          stays := fun _ _ hj _ _ => hj }

theorem shift_eq (horder : dir.d_sblock ≤ dir.d_eblock) (hg : g ≤ dir.d_sblock)
    (heof : dir.d_eoffset / BFS_BSIZE = dir.d_eblock) : dir.shift dir.d_sblock g =
      ⟨dir.d_ino, dir.d_sblock - g, dir.d_eblock - g, dir.d_eoffset - g * BFS_BSIZE⟩ := by
  rw [BfsShift.Dirent.shift, if_pos ⟨heof, horder⟩, Nat.sub_mul]
  congr 1
  unfold BFS_BSIZE at *
  omega

theorem bfs_shiftfile_spec (d : Disk Block) (i : Nat) (horder : dir.d_sblock ≤ dir.d_eblock)
    (heof : dir.d_eoffset / BFS_BSIZE = dir.d_eblock) (hpos : 0 < g) (hg : g ≤ dir.d_sblock) :
    ∃ ws, BfsShift.bfs_shiftfile d dir g i = some ws ∧
      (d.puts ws).blocks = shifted d.blocks dir.d_sblock g (dir.d_eblock + 1) ∧
      (d.puts ws).inodes = d.inodes.set i
        ⟨dir.d_ino, dir.d_sblock - g, dir.d_eblock - g, dir.d_eoffset - g * BFS_BSIZE⟩ := by
  obtain ⟨ws, hws, -, r, hunder, -⟩ := BfsShift.shiftWrites_spec d i dir hg hpos le_rfl horder
  obtain ⟨hblocks, hinodes, -⟩ := BfsShift.shiftWrites_last i dir hunder
  exact ⟨_, hws, hblocks, hinodes.trans (by rw [shift_eq horder hg heof])⟩

def above (e : Nat) (dir : Dirent) : Nat := if Holds dir ∧ e < dir.d_sblock then 1 else 0

theorem NextFile.fewer (hn : NextFile I e i dir) (hs : new.d_sblock = e + 1) (hino : new.d_ino = dir.d_ino)
    (hle : new.d_sblock ≤ new.d_eblock) :
    total (above new.d_eblock) (I.set i new) < total (above e) I := by
  have hafter := hn.after
  have hlt : i < I.length := (List.getElem?_eq_some_iff.mp hn.slot).1
  have hold : Holds new := ⟨hino ▸ hn.holds.1, by omega⟩
  have hset' := total_set hn.slot (above e) new
  have hdir : above e dir = 1 := if_pos ⟨hn.holds, hafter⟩
  have hnew : above e new = 1 := if_pos ⟨hold, by omega⟩
  have hlt : total (above new.d_eblock) (I.set i new) < total (above e) (I.set i new) := by
    refine total_lt (fun dj _ => ?_) (mem_of_getElem? (List.getElem?_set_self hlt)) ?_
    · unfold above
      by_cases hlater : Holds dj ∧ new.d_eblock < dj.d_sblock
      · rw [if_pos hlater, if_pos ⟨hlater.1, by omega⟩]
      · rw [if_neg hlater]
        exact zero_le _
    · rw [hnew, above, if_neg fun hlater => by omega]
      exact one_pos
  omega

section Round

variable (h : Arranged s) (hset : Settled s.disk.inodes (firstBlock s.bsup_start) e)
  (hn : NextFile s.disk.inodes e i dir)

include h hset hn

theorem NextFile.others {j : Nat} {dj : Dirent} (hj : s.disk.inodes[j]? = some dj) (hold : Holds dj)
    (hne : j ≠ i) : dj.d_eblock ≤ e ∨ dir.d_eblock < dj.d_sblock := by
  by_cases hle : dj.d_sblock ≤ e
  · exact .inl (hset.closed j dj hj hold hle)
  have hleast := hn.least j dj hj hold (Nat.lt_of_not_le hle)
  have horder := (h.fits hj hold).order
  rcases h.apart i j dir dj hne.symm hn.slot hj hn.holds hold with hlt | hlt
  · exact .inr hlt
  · omega

theorem NextFile.ne_root (hgap : e + 1 < dir.d_sblock) : i ≠ 0 := by
  rintro rfl
  obtain ⟨root, hroot, -, hfirst⟩ := h.root
  obtain rfl : root = dir := some.inj (hroot.symm.trans hn.slot)
  have hbegun := hset.begun
  omega

/-- The entry of the next file after the gap before it is closed. -/
theorem NextFile.moved_layout (hnew : new = ⟨dir.d_ino, dir.d_sblock - g,
      dir.d_eblock - g, dir.d_eoffset - g * BFS_BSIZE⟩) (hg : dir.d_sblock = e + 1 + g) (hpos : 0 < g) :
    Layout (s.disk.inodes.set i new) s.bsup_start s.bsup_end s.bsup_lastfile := by
  have hfits := h.fits hn.slot hn.holds
  have hi := hn.ne_root h hset (by omega)
  have hbegun := hset.begun
  have horder := hfits.order
  have hinside := hfits.inside
  have heof := hfits.eof hi
  have hlast := h.last
  subst hnew
  have hfits' : Fits s.bsup_start s.bsup_end i ⟨dir.d_ino, dir.d_sblock - g, dir.d_eblock - g,
      dir.d_eoffset - g * BFS_BSIZE⟩ :=
    { first := by simp only; omega
      order := by simp only; omega
      inside := by simp only; omega
      within := by simp only; unfold BFS_BSIZE at *; omega
      eof := fun _ => by simp only; unfold BFS_BSIZE at *; omega }
  refine h.replace hi (fun _ => .inr hfits') (fun j dj hj hdj _ hold => ?_) ?_
  · rcases hn.others h hset hdj hold hj with hbefore | hafter
    · exact .inr (by simp only; omega)
    · exact .inl (by simp only; omega)
  · by_cases hlasti : s.bsup_lastfile = some i
    · obtain ⟨l, dl, hl, hdl, -, hmax⟩ := hlast
      obtain rfl : l = i := some.inj (hl.symm.trans hlasti)
      obtain rfl : dl = dir := some.inj (hdl.symm.trans hn.slot)
      rw [hlasti]
      refine Last.self hn.slot ⟨hn.holds.1, by simp only; omega⟩ fun j dj hj hdj hused => ?_
      have hle := hmax j dj hdj hused
      by_cases hold : Holds dj
      · rcases hn.others h hset hdj hold hj with hbefore | hafter
        · simp only
          omega
        · have horder' := (h.fits hdj hold).order
          omega
      · rcases h.held j dj hdj hused with hempty | hfitsj
        · rw [hempty.2.1]
          exact zero_le _
        · exact absurd ⟨hused, by have hfirst := hfitsj.first; have hpos := h.first_pos; omega⟩ hold
    · refine hlast.other hlasti fun hused l dl hl hdl => ?_
      obtain ⟨l', dl', hl', hdl', -, hmax⟩ := hlast
      obtain rfl : l' = l := some.inj (hl'.symm.trans hl)
      obtain rfl : dl' = dl := some.inj (hdl'.symm.trans hdl)
      have hle := hmax i dir hn.slot hn.holds.1
      simp only
      omega

/-- A round that closes a gap of `g` blocks. -/
theorem closeGap_shift (hg : dir.d_sblock = e + 1 + g) (hpos : 0 < g) :
    ∃ s' dir', closeGap s e dir i = some (s', dir') ∧
      dir' = ⟨dir.d_ino, dir.d_sblock - g, dir.d_eblock - g, dir.d_eoffset - g * BFS_BSIZE⟩ ∧
      s'.disk.inodes = s.disk.inodes.set i dir' ∧ Packs s s' e dir'.d_eblock := by
  have hfits := h.fits hn.slot hn.holds
  have horder := hfits.order
  have heof := hfits.eof (hn.ne_root h hset (by omega))
  obtain ⟨ws, hws, hblocks, hinodes⟩ := bfs_shiftfile_spec s.disk i horder heof hpos (by omega)
  generalize hnew : (⟨dir.d_ino, dir.d_sblock - g, dir.d_eblock - g,
    dir.d_eoffset - g * BFS_BSIZE⟩ : Dirent) = new at hinodes ⊢
  have hsnew : new.d_sblock = dir.d_sblock - g := by rw [← hnew]
  have henew : new.d_eblock = dir.d_eblock - g := by rw [← hnew]
  have honew : new.d_eoffset = dir.d_eoffset - g * BFS_BSIZE := by rw [← hnew]
  have hshift : dir.shift dir.d_sblock g = new := (shift_eq horder (by omega) heof).trans hnew
  have hlayout := hn.moved_layout h hset hnew.symm hg hpos
  refine ⟨{ s with disk := s.disk.puts ws }, new, ?_, rfl, hinodes, ?_⟩
  · rw [closeGap, if_pos ⟨by omega, by omega⟩]
    have hgap : dir.d_sblock - e - 1 = g := by omega
    simp only [hgap, hws, hshift, map_some]
  · exact {
      kept :=
        { layout := by
            unfold Arranged
            rw [hinodes]
            exact hlayout
          start := rfl
          fin := rfl
          free := rfl
          drents := rfl
          nlink := rfl
          last := rfl
          slots := by rw [hinodes, List.length_set]
          slid := fun j dj hj => by
            rw [hinodes]
            by_cases hji : j = i
            · subst hji
              obtain rfl : dir = dj := some.inj (hn.slot.symm.trans hj)
              refine ⟨new, List.getElem?_set_self (List.getElem?_eq_some_iff.mp hj).1, ?_⟩
              have hdown : new.d_eoffset + g * BFS_BSIZE = dir.d_eoffset := by
                unfold BFS_BSIZE at *
                omega
              have hsne : new.d_sblock ≠ 0 := by omega
              exact {
                ino := by rw [← hnew]
                down := ⟨g, by omega, by omega, hdown⟩
                holds := fun hold => ⟨by rw [← hnew]; exact hold.1, hsne⟩
                stays := fun hno => absurd hn.holds hno
                bytes := fun _ => content_slid (by omega) hdown hsne fun b hlo hhi => by
                  rw [hblocks, shifted_in (by omega) (by unfold BFS_BSIZE at *; omega)] }
            · refine ⟨dj, by rw [List.getElem?_set_ne (Ne.symm hji), hj], ?_⟩
              exact {
                ino := rfl
                down := ⟨0, rfl, rfl, by rw [Nat.zero_mul]; rfl⟩
                holds := id
                stays := fun _ => rfl
                bytes := fun hold => content_slid rfl (by rw [Nat.zero_mul]; rfl) hold.2
                  fun b hlo hhi => by
                    have hwithin := (h.fits hj hold).within
                    rw [hblocks]
                    rcases hn.others h hset hj hold hji with hbefore | hafter
                    · exact shifted_below (by omega)
                    · exact shifted_above (by omega) } }
      le := by omega
      compacted := rfl
      beyond := fun b hb => (congrFun hblocks b).trans (shifted_above (by omega))
      stays := fun j dj hj hold hcov => by
        have hji : j ≠ i := by
          rintro rfl
          obtain rfl : dir = dj := some.inj (hn.slot.symm.trans hj)
          have hadj := NextFile.adjacent hset hn hcov (by omega)
          omega
        rw [hinodes, List.getElem?_set_ne (Ne.symm hji), hj] }

/-- With the next file after them, the files up to its last block follow one another. -/
theorem NextFile.settled (hs : new.d_sblock = e + 1) (hino : new.d_ino = dir.d_ino)
    (hsize : new.d_eblock + dir.d_sblock = dir.d_eblock + new.d_sblock) :
    Settled (s.disk.inodes.set i new) (firstBlock s.bsup_start) new.d_eblock := by
  have hafter := hn.after
  have hbegun := hset.begun
  have horder := (h.fits hn.slot hn.holds).order
  refine ⟨by omega, fun j dj hj hold hle => ?_, ?_⟩
  · obtain ⟨-, rfl⟩ | ⟨hji, hjI⟩ := getElem?_set_cases hj
    · exact le_rfl
    · rcases hn.others h hset hjI hold hji with hbefore | hbehind <;> omega
  · -- the same slots with the one of the file emptied
    have hlt : i < s.disk.inodes.length := (List.getElem?_eq_some_iff.mp hn.slot).1
    have hwith := total_set (List.getElem?_set_self (a := (⟨0, 0, 0, 0⟩ : Dirent)) hlt)
      (upTo new.d_eblock) new
    have hwithout := total_set hn.slot (upTo e) ⟨0, 0, 0, 0⟩
    rw [List.set_set] at hwith
    have hsame : total (upTo new.d_eblock) (s.disk.inodes.set i ⟨0, 0, 0, 0⟩) =
        total (upTo e) (s.disk.inodes.set i ⟨0, 0, 0, 0⟩) := by
      refine total_congr fun dj hj => ?_
      obtain ⟨j, hj⟩ := List.mem_iff_getElem?.mp hj
      obtain ⟨-, rfl⟩ | ⟨hji, hjI⟩ := getElem?_set_cases hj
      · rfl
      by_cases hold : Holds dj
      · have horderj := (h.fits hjI hold).order
        rcases hn.others h hset hjI hold hji with hbefore | hbehind
        · rw [upTo, upTo, if_pos (by omega), if_pos (by omega)]
        · rw [upTo, upTo, if_neg (by omega), if_neg (by omega)]
      · rw [upTo, upTo, blocksOf, if_neg hold, ite_self, ite_self]
    have hcount := hset.count
    have hold : Holds new := ⟨hino ▸ hn.holds.1, by omega⟩
    have hnew : upTo new.d_eblock new = new.d_eblock + 1 - new.d_sblock := by
      rw [upTo, if_pos (by omega), blocksOf, if_pos hold]
    have hdir : upTo e dir = 0 := by rw [upTo, if_neg (by omega)]
    have hhole : ∀ b, upTo b ⟨0, 0, 0, 0⟩ = 0 := fun b => by
      rw [upTo]
      exact ite_self 0
    rw [hhole] at hwith hwithout
    omega

/-- One round: the next file is put after the files before it. -/
theorem closeGap_spec : ∃ s' dir', closeGap s e dir i = some (s', dir') ∧ Packs s s' e dir'.d_eblock ∧
      Settled s'.disk.inodes (firstBlock s'.bsup_start) dir'.d_eblock ∧
      s'.disk.inodes[i]? = some dir' ∧ Holds dir' ∧
      (∀ b, Covered s.disk.inodes e b → Covered s'.disk.inodes dir'.d_eblock b) ∧
      total (above dir'.d_eblock) s'.disk.inodes < total (above e) s.disk.inodes := by
  have hafter := hn.after
  have horder := (h.fits hn.slot hn.holds).order
  by_cases hadj : dir.d_sblock = e + 1
  · obtain ⟨heq, hpacks⟩ := closeGap_adjacent h hn hadj
    have hself := set_getElem?_self hn.slot
    have hsettled := hn.settled h hset hadj rfl rfl
    have hfewer := hn.fewer hadj rfl horder
    rw [hself] at hsettled hfewer
    exact ⟨s, dir, heq, hpacks, hsettled, hn.slot, hn.holds,
      fun b hcov x hlo hhi => hcov x (by omega) hhi, hfewer⟩
  obtain ⟨s', dir', heq, hdir', hinodes, hpacks⟩ :=
    closeGap_shift (g := dir.d_sblock - (e + 1)) h hset hn (by omega) (by omega)
  have hs : dir'.d_sblock = e + 1 := by rw [hdir']; simp only; omega
  have hsize : dir'.d_eblock + dir.d_sblock = dir.d_eblock + dir'.d_sblock := by
    rw [hdir']
    simp only
    omega
  have hino : dir'.d_ino = dir.d_ino := by rw [hdir']
  have hsettled := hn.settled h hset hs hino hsize
  have hfewer := hn.fewer hs hino (by omega)
  rw [← hinodes] at hsettled hfewer
  rw [← hpacks.kept.start] at hsettled
  refine ⟨s', dir', heq, hpacks, hsettled, ?_, ⟨hino ▸ hn.holds.1, by omega⟩, ?_, hfewer⟩
  · rw [hinodes, List.getElem?_set_self (List.getElem?_eq_some_iff.mp hn.slot).1]
  · intro b hcov x hlo hhi
    exact absurd (NextFile.adjacent hset hn hcov (by omega)) hadj

end Round

/-- The rounds end after the last file, and no block is left out. -/
theorem compactLoop_spec {fuel : Nat} (h : Arranged s)
    (hset : Settled s.disk.inodes (firstBlock s.bsup_start) e) (hn : NextFile s.disk.inodes e i dir)
    (hfuel : total (above e) s.disk.inodes ≤ fuel) :
    ∃ s' e', compactLoop fuel s e dir i = some s' ∧ Packs s s' e e' ∧
      Settled s'.disk.inodes (firstBlock s'.bsup_start) e' ∧
      (∀ (j : Nat) (dj : Dirent), s'.disk.inodes[j]? = some dj → Holds dj → dj.d_sblock ≤ e') ∧
      ∃ (j : Nat) (dj : Dirent), s'.disk.inodes[j]? = some dj ∧ Holds dj ∧ dj.d_eblock = e' := by
  induction fuel generalizing s e dir i with
  | zero =>
    obtain ⟨s', dir', -, -, -, -, -, -, hfewer⟩ := closeGap_spec h hset hn
    omega
  | succ fuel ih =>
    obtain ⟨s₁, dir₁, heq, hpacks, hset₁, hslot, hold, hcover, hfewer⟩ := closeGap_spec h hset hn
    rw [compactLoop, heq, bind_some]
    rcases bfs_getnxtcblock_spec hpacks.kept.layout dir₁.d_eblock dir₁ with
      ⟨x, hx, hall⟩ | ⟨i', dir', hx, hn'⟩
    · rw [hx]
      exact ⟨s₁, dir₁.d_eblock, rfl, hpacks, hset₁, hall, i, dir₁, hslot, hold, rfl⟩
    · rw [hx]
      obtain ⟨s', e', hloop, hpacks', hrest⟩ := ih hpacks.kept.layout hset₁ hn' (by omega)
      exact ⟨s', e', hloop, hpacks.trans hpacks' hcover, hrest⟩

theorem nextblock_last (h : Arranged s) (hi : s.disk.inodes[i]? = some dir) (hold : Holds dir)
    (hmax : ∀ (j : Nat) (dj : Dirent), s.disk.inodes[j]? = some dj → Holds dj →
      dj.d_eblock ≤ dir.d_eblock) : nextblock s = dir.d_eblock + 1 := by
  obtain ⟨l, dl, hl, hdl, hlold, hlmax⟩ := h.last
  have hle := hlmax i dir hi hold.1
  have hge := hmax l dl hdl hlold
  rw [nextblock, hl]
  simp only [Fs.getinode, hdl, getD_some]
  omega

/-- What a compaction does. -/
structure Compacted (s s' : Fs) : Prop where
  kept : Kept s s'
  done : s'.bsup_compacted = true
  next : nextblock s' = firstBlock s.bsup_start + heldBlocks s.disk.inodes
  beyond : ∀ b, nextblock s' ≤ b → s'.disk.blocks b = s.disk.blocks b
  stays : ∀ (j : Nat) (dj : Dirent), s.disk.inodes[j]? = some dj → Holds dj →
    (∀ x, firstBlock s.bsup_start ≤ x → x < dj.d_sblock → ∃ (k : Nat) (dk : Dirent),
      s.disk.inodes[k]? = some dk ∧ Holds dk ∧ dk.d_sblock ≤ x ∧ x ≤ dk.d_eblock) →
    s'.disk.inodes[j]? = some dj

theorem bfs_compact_spec (h : Arranged s) : ∃ s', bfs_compact s = some s' ∧ Compacted s s' := by
  obtain ⟨root, hroot, hrootold, hrootfirst⟩ := h.root_holds
  have hpos := h.first_pos
  rcases bfs_getnxtcblock_spec h 0 ⟨0, 0, 0, 0⟩ with ⟨x, -, hall⟩ | ⟨i, dir, hx, hn₀⟩
  · have hle := hall 0 root hroot hrootold
    omega
  -- the first round starts before the data area
  have hfirst : dir.d_sblock = firstBlock s.bsup_start :=
    Nat.le_antisymm (hrootfirst ▸ hn₀.least 0 root hroot hrootold (by omega))
      (h.fits hn₀.slot hn₀.holds).first
  have hbefore : ∀ (j : Nat) (dj : Dirent), s.disk.inodes[j]? = some dj → Holds dj →
      firstBlock s.bsup_start - 1 < dj.d_sblock := fun j dj hj hold => by
    have hle := (h.fits hj hold).first
    omega
  have hn : NextFile s.disk.inodes (firstBlock s.bsup_start - 1) i dir :=
    { slot := hn₀.slot
      holds := hn₀.holds
      after := hbefore i dir hn₀.slot hn₀.holds
      least := fun j dj hj hold _ => hfirst ▸ (h.fits hj hold).first }
  have hset : Settled s.disk.inodes (firstBlock s.bsup_start) (firstBlock s.bsup_start - 1) :=
    { begun := by omega
      closed := fun j dj hj hold hle => absurd hle (Nat.not_le.mpr (hbefore j dj hj hold))
      count := by
        rw [total_eq_zero fun dj hj => ?_, Nat.sub_add_cancel hpos, Nat.add_zero]
        obtain ⟨j, hj⟩ := mem_iff_getElem?.mp hj
        by_cases hold : Holds dj
        · rw [upTo, if_neg (Nat.not_le.mpr (hbefore j dj hj hold))]
        · rw [upTo, blocksOf, if_neg hold, ite_self] }
  have hbound : total (above (firstBlock s.bsup_start - 1)) s.disk.inodes ≤ s.disk.inodes.length + 1 :=
    Nat.le_succ_of_le (total_le_length fun dj _ => by
      unfold above
      split <;> omega)
  obtain ⟨s', e', hloop, hpacks, hset', hall, j, dj, hj, hold, hje⟩ :=
    compactLoop_spec h hset hn hbound
  have hstart : compactLoop (s.disk.inodes.length + 1) s (s.bsup_start / BFS_BSIZE) dir i = some s' := by
    rw [← hloop, compactLoop, compactLoop, (closeGap_adjacent h hn (by omega)).1, closeGap,
      if_neg fun hgap => ?_]
    unfold firstBlock BFS_BSIZE at *
    omega
  have hnext : nextblock s' = e' + 1 := by
    rw [← hje]
    refine nextblock_last hpacks.kept.layout hj hold fun k dk hk hkold => ?_
    rw [hje]
    exact hset'.closed k dk hk hkold (hall k dk hk hkold)
  have hcount : e' + 1 = firstBlock s.bsup_start + heldBlocks s.disk.inodes := by
    rw [hset'.count, hpacks.kept.start, ← hpacks.kept.heldBlocks, heldBlocks]
    congr 1
    refine total_congr fun dk hk => ?_
    obtain ⟨k, hk⟩ := mem_iff_getElem?.mp hk
    by_cases hkold : Holds dk
    · rw [upTo, if_pos (hall k dk hk hkold)]
    · rw [upTo, blocksOf, if_neg hkold, ite_self]
  refine ⟨{ s' with bsup_compacted := true }, by rw [bfs_compact, hx]; simp only [hstart, map_some],
    { kept := ?_, done := rfl, next := ?_, beyond := ?_, stays := ?_ }⟩
  · exact hpacks.kept.flag true
  · exact hnext.trans hcount
  · intro b hb
    have hb' : nextblock s' ≤ b := hb
    exact hpacks.beyond b (by omega)
  · intro k dk hk hkold hcov
    exact hpacks.stays k dk hk hkold fun x hlo hhi => hcov x (by omega) hhi

end Svr42.BfsFile
