import Svr42.BfsFileModel
import Svr42.SlotSum

/-! Where the files of a boot file system may lie: apart from each other, inside the data area, and with
the last of them recorded. -/

namespace Svr42.BfsFile
open Option

open BfsShift (Dirent Disk BFS_BSIZE)

def firstBlock (start : Nat) : Nat := (start + 511) / BFS_BSIZE

def blockCount (fin : Nat) : Nat := (fin + 1) / BFS_BSIZE

def Empty (dir : Dirent) : Prop := dir.d_sblock = 0 ∧ dir.d_eblock = 0 ∧ dir.d_eoffset = 0

def Holds (dir : Dirent) : Prop := dir.d_ino ≠ 0 ∧ dir.d_sblock ≠ 0

instance (dir : Dirent) : Decidable (Holds dir) := inferInstanceAs (Decidable (_ ∧ _))

def blocksOf (dir : Dirent) : Nat := if Holds dir then dir.d_eblock + 1 - dir.d_sblock else 0

def heldBlocks (I : List Dirent) : Nat := total blocksOf I

def slotFree (dir : Dirent) : Nat := if dir.d_ino = 0 then 1 else 0

def freeSlots (I : List Dirent) : Nat := total slotFree I

/-- The extent of the file in slot `i` lies in the data area, and its last block is the one of its last
byte; the root keeps the blocks it was given. -/
structure Fits (start fin i : Nat) (dir : Dirent) : Prop where
  first : firstBlock start ≤ dir.d_sblock
  order : dir.d_sblock ≤ dir.d_eblock
  inside : dir.d_eblock < blockCount fin
  within : dir.d_eoffset / BFS_BSIZE ≤ dir.d_eblock
  eof : i ≠ 0 → dir.d_eoffset / BFS_BSIZE = dir.d_eblock

def Apart (dir dir' : Dirent) : Prop := dir.d_eblock < dir'.d_sblock ∨ dir'.d_eblock < dir.d_sblock

theorem Apart.symm {dir dir' : Dirent} (h : Apart dir dir') : Apart dir' dir := Or.symm h

def Last (I : List Dirent) (last : Option Nat) : Prop :=
  ∃ l dir, last = some l ∧ I[l]? = some dir ∧ Holds dir ∧
    ∀ (j : Nat) (dj : Dirent), I[j]? = some dj → dj.d_ino ≠ 0 → dj.d_eblock ≤ dir.d_eblock

/-- The inode slots of a file system whose data area goes from byte `start` to byte `fin`. -/
structure Layout (I : List Dirent) (start fin : Nat) (last : Option Nat) : Prop where
  whole : (fin + 1) % BFS_BSIZE = 0
  super : BFS_BSIZE ≤ start
  root : ∃ dir, I[0]? = some dir ∧ dir.d_ino ≠ 0 ∧ dir.d_sblock = firstBlock start
  held : ∀ (i : Nat) (dir : Dirent), I[i]? = some dir → dir.d_ino ≠ 0 →
    Empty dir ∨ Fits start fin i dir
  apart : ∀ (i j : Nat) (di dj : Dirent), i ≠ j → I[i]? = some di → I[j]? = some dj → Holds di →
    Holds dj → Apart di dj
  last : Last I last

variable {I : List Dirent} {start fin i : Nat} {last last' : Option Nat} {dir new : Dirent}

namespace Layout

section

variable (h : Layout I start fin last)
include h

theorem first_pos : 0 < firstBlock start := by
  have hsuper := h.super
  unfold firstBlock BFS_BSIZE at *
  omega

theorem fits (hi : I[i]? = some dir) (hold : Holds dir) : Fits start fin i dir := by
  rcases h.held i dir hi hold.1 with hempty | hfits
  · exact absurd hempty.1 hold.2
  · exact hfits

theorem holds_iff (hi : I[i]? = some dir) (hused : dir.d_ino ≠ 0) :
    Holds dir ↔ 0 < dir.d_eblock := by
  rcases h.held i dir hi hused with hempty | hfits
  · rw [hempty.2.1]
    exact ⟨fun hold => absurd hempty.1 hold.2, fun hpos => absurd hpos (Nat.lt_irrefl 0)⟩
  have hfirst := h.first_pos
  have hle := hfits.first
  have hord := hfits.order
  exact ⟨fun _ => by omega, fun _ => ⟨hused, by omega⟩⟩

theorem root_holds : ∃ dir, I[0]? = some dir ∧ Holds dir ∧ dir.d_sblock = firstBlock start := by
  obtain ⟨dir, hi, hused, hfirst⟩ := h.root
  have hpos := h.first_pos
  exact ⟨dir, hi, ⟨hused, by omega⟩, hfirst⟩

end

end Layout

theorem getElem?_set_cases {j : Nat} {dj : Dirent} (hj : (I.set i new)[j]? = some dj) :
    j = i ∧ dj = new ∨ j ≠ i ∧ I[j]? = some dj := by
  rw [List.getElem?_set] at hj
  by_cases hij : i = j
  · rw [if_pos hij] at hj
    by_cases hlt : i < I.length
    · rw [if_pos hlt, some_inj] at hj
      exact .inl ⟨hij.symm, hj.symm⟩
    · rw [if_neg hlt] at hj
      cases hj
  · rw [if_neg hij] at hj
    exact .inr ⟨fun h => hij h.symm, hj⟩

/-- One slot other than the root's may change to anything that lies apart from the other files. -/
theorem Layout.replace (h : Layout I start fin last) (hi : i ≠ 0)
    (hnew : new.d_ino ≠ 0 → Empty new ∨ Fits start fin i new)
    (hapart : ∀ (j : Nat) (dj : Dirent), j ≠ i → I[j]? = some dj → Holds new → Holds dj → Apart new dj)
    (hlast : Last (I.set i new) last') : Layout (I.set i new) start fin last' where
  whole := h.whole
  super := h.super
  root := by
    obtain ⟨dir, hroot, hrest⟩ := h.root
    exact ⟨dir, by rw [List.getElem?_set_ne hi, hroot], hrest⟩
  held j dj hj hused := by
    obtain ⟨rfl, rfl⟩ | ⟨-, hj⟩ := getElem?_set_cases hj
    · exact hnew hused
    · exact h.held j dj hj hused
  apart j k dj dk hne hj hk hdj hdk := by
    obtain ⟨rfl, rfl⟩ | ⟨hji, hjI⟩ := getElem?_set_cases hj
    · obtain ⟨rfl, -⟩ | ⟨hki, hkI⟩ := getElem?_set_cases hk
      · exact absurd rfl hne
      · exact hapart k dk hki hkI hdj hdk
    · obtain ⟨rfl, rfl⟩ | ⟨hki, hkI⟩ := getElem?_set_cases hk
      · exact (hapart j dj hji hjI hdk hdj).symm
      · exact h.apart j k dj dk hne hjI hkI hdj hdk
  last := hlast

namespace Last

theorem other (h : Last I last) (hi : last ≠ some i)
    (hle : new.d_ino ≠ 0 → ∀ l dir, last = some l → I[l]? = some dir → new.d_eblock ≤ dir.d_eblock) :
    Last (I.set i new) last := by
  obtain ⟨l, dir, rfl, hl, hold, hmax⟩ := h
  have hne : i ≠ l := fun heq => hi (congrArg some heq.symm)
  refine ⟨l, dir, rfl, by rw [List.getElem?_set_ne hne, hl], hold, fun j dj hj hused => ?_⟩
  obtain ⟨rfl, rfl⟩ | ⟨-, hj⟩ := getElem?_set_cases hj
  · exact hle hused l dir rfl hl
  · exact hmax j dj hj hused

theorem self (hi : I[i]? = some dir) (hold : Holds new)
    (hle : ∀ (j : Nat) (dj : Dirent), j ≠ i → I[j]? = some dj → dj.d_ino ≠ 0 →
      dj.d_eblock ≤ new.d_eblock) : Last (I.set i new) (some i) := by
  refine ⟨i, new, rfl, List.getElem?_set_self (List.getElem?_eq_some_iff.mp hi).1, hold,
    fun j dj hj hused => ?_⟩
  obtain ⟨rfl, rfl⟩ | ⟨hji, hj⟩ := getElem?_set_cases hj
  · exact Nat.le_refl _
  · exact hle j dj hji hj hused

end Last

/-- The search for the last file, from slot `k` on: what it comes back with is no worse than what it
started from nor than any slot it looked at. -/
theorem lastOther_spec (skip : Nat) (rest : List Dirent) (k : Nat) (acc : Nat × Option Nat)
    (hrest : ∀ j, I[k + j]? = rest[j]?)
    (hacc : acc.2 = none ∧ acc.1 = 0 ∨ ∃ l dir, acc.2 = some l ∧ l ≠ skip ∧ I[l]? = some dir ∧
      dir.d_ino ≠ 0 ∧ dir.d_eblock = acc.1 ∧ 0 < acc.1) :
    (lastOther skip rest k acc = none ∧ acc.1 = 0 ∧ ∀ (j : Nat) (dj : Dirent), k + j ≠ skip →
        rest[j]? = some dj → dj.d_ino ≠ 0 → dj.d_eblock = 0) ∨
      ∃ l dir, lastOther skip rest k acc = some l ∧ l ≠ skip ∧ I[l]? = some dir ∧ dir.d_ino ≠ 0 ∧
        0 < dir.d_eblock ∧ acc.1 ≤ dir.d_eblock ∧ ∀ (j : Nat) (dj : Dirent), k + j ≠ skip →
          rest[j]? = some dj → dj.d_ino ≠ 0 → dj.d_eblock ≤ dir.d_eblock := by
  induction rest generalizing k acc with
  | nil =>
    rcases hacc with ⟨hnone, hzero⟩ | ⟨l, dir, hl, hskip, hdir, hused, heq, hpos⟩
    · exact .inl ⟨hnone, hzero, fun j dj _ hj => absurd hj (some_ne_none dj).symm⟩
    · exact .inr ⟨l, dir, hl, hskip, hdir, hused, heq ▸ hpos, heq ▸ Nat.le_refl _,
        fun j dj _ hj => absurd hj (some_ne_none dj).symm⟩
  | cons dir rest ih =>
    have hk : I[k]? = some dir := hrest 0
    have hnext : ∀ j, I[k + 1 + j]? = rest[j]? := fun j => by
      rw [Nat.add_assoc, Nat.add_comm 1 j]
      exact hrest (j + 1)
    rw [lastOther]
    split_ifs with hbetter
    · obtain ⟨hskip, hgt, hused⟩ := hbetter
      have hpos : 0 < dir.d_eblock := Nat.lt_of_le_of_lt (Nat.zero_le _) hgt
      rcases ih (k + 1) (dir.d_eblock, some k) hnext
        (.inr ⟨k, dir, rfl, hskip, hk, hused, rfl, hpos⟩) with
        ⟨-, hzero, -⟩ | ⟨l, dl, hl, hlskip, hdl, hlused, hlpos, hle, hmax⟩
      · exact absurd hzero (Nat.ne_of_gt hpos)
      · refine .inr ⟨l, dl, hl, hlskip, hdl, hlused, hlpos,
          Nat.le_of_lt (Nat.lt_of_lt_of_le hgt hle), fun j dj hj hdj hju => ?_⟩
        cases j with
        | zero =>
          obtain rfl : dir = dj := some.inj hdj
          exact hle
        | succ j => exact hmax j dj (by omega) hdj hju
    · have hhere : ∀ dj, k ≠ skip → some dir = some dj → dj.d_ino ≠ 0 → dj.d_eblock ≤ acc.1 := by
        intro dj hskip hdj hused
        obtain rfl := some.inj hdj
        by_contra hgt
        exact hbetter ⟨hskip, Nat.lt_of_not_le hgt, hused⟩
      rcases ih (k + 1) acc hnext hacc with
        ⟨hnone, hzero, hmax⟩ | ⟨l, dl, hl, hlskip, hdl, hlused, hlpos, hle, hmax⟩
      · refine .inl ⟨hnone, hzero, fun j dj hj hdj hju => ?_⟩
        cases j with
        | zero => exact Nat.le_zero.mp (hzero ▸ hhere dj hj hdj hju)
        | succ j => exact hmax j dj (by omega) hdj hju
      · refine .inr ⟨l, dl, hl, hlskip, hdl, hlused, hlpos, hle, fun j dj hj hdj hju => ?_⟩
        cases j with
        | zero => exact Nat.le_trans (hhere dj hj hdj hju) hle
        | succ j => exact hmax j dj (by omega) hdj hju

theorem Layout.lastOther (h : Layout I start fin last) (hi : i ≠ 0) :
    ∃ l dir, BfsFile.lastOther i I 0 (0, none) = some l ∧ l ≠ i ∧ I[l]? = some dir ∧ Holds dir ∧
      ∀ (j : Nat) (dj : Dirent), j ≠ i → I[j]? = some dj → dj.d_ino ≠ 0 →
        dj.d_eblock ≤ dir.d_eblock := by
  obtain ⟨root, hroot, hholds, -⟩ := h.root_holds
  have hpos := (h.holds_iff hroot hholds.1).mp hholds
  rcases lastOther_spec i I 0 (0, none) (fun j => by rw [Nat.zero_add]) (.inl ⟨rfl, rfl⟩) with
    ⟨-, -, hmax⟩ | ⟨l, dir, hl, hskip, hdir, hused, hlpos, -, hmax⟩
  · exact absurd (hmax 0 root (fun h => hi h.symm) hroot hholds.1) (Nat.ne_of_gt hpos)
  · refine ⟨l, dir, hl, hskip, hdir, (h.holds_iff hdir hused).mpr hlpos, fun j dj hj hdj hju => ?_⟩
    exact hmax j dj (by rwa [Nat.zero_add]) hdj hju

theorem Layout.relast (h : Layout I start fin last) (hi : i ≠ 0)
    (hgone : new.d_ino ≠ 0 → new.d_eblock = 0) :
    Last (I.set i new) (BfsFile.lastOther i I 0 (0, none)) := by
  obtain ⟨l, dir, hl, hli, hdir, hholds, hmax⟩ := h.lastOther hi
  refine ⟨l, dir, hl, by rw [List.getElem?_set_ne hli.symm, hdir], hholds, fun j dj hj hused => ?_⟩
  obtain ⟨rfl, rfl⟩ | ⟨hji, hj⟩ := getElem?_set_cases hj
  · rw [hgone hused]
    exact Nat.zero_le _
  · exact hmax j dj hji hj hused

end Svr42.BfsFile
