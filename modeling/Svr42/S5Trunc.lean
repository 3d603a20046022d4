import Svr42.S5BmapLookup

/-! `s5freesp` and `s5indirtrunc`: a file gets a new length, and blocks beyond it are freed. -/

namespace Svr42.S5.Tree
open List

def EINVAL : Nat := 22

def EBUSY : Nat := 16

/-- The file system while blocks are freed. What `blkfree` was called for is noted down in `freed`,
the last call first; no code reads it. -/
structure Freeing where
  fs : State Unit
  freed : List Nat

def free (x : Freeing) (bn : Nat) : Freeing := ⟨blkfree x.fs bn, bn :: x.freed⟩

def factor (nindir : Nat) : Nat → Nat
  | 0 => 1
  | level + 1 => factor nindir level * nindir

def zeroAfter (nindir last : Nat) (content : Fblk) : Fblk :=
  { content with
    dfFree := fun k => if last < k + 1 ∧ k + 1 < nindir then 0 else content.dfFree k }

/-- The loop of `s5indirtrunc` over the totally unused blocks, from the last index down to `base`. -/
def unused (sub : Nat → Freeing → Freeing) (bap : Fblk) (base : Nat) : Nat → Freeing → Freeing
  | 0, x => x
  | k + 1, x =>
      let bn := ptr bap (base + k)
      unused sub bap base k (if bn ≠ 0 then free (sub bn x) bn else x)

def lastIndex (nindir level : Nat) (lastbn : Int) : Int :=
  if 0 < lastbn then lastbn / (factor nindir level : Int) else lastbn

/-- The block without its pointers behind `last`, unless it is going away. -/
def rewrite (nindir : Nat) (bn : Nat) (last : Int) (x : Freeing) : Freeing :=
  if last < 0 then x
  else
    { x with fs := { x.fs with
        block := Function.update x.fs.block bn (zeroAfter nindir last.toNat (x.fs.block bn)) } }

/-- `s5indirtrunc`; the level `SINGLE` is 0. -/
def s5indirtrunc (nindir : Nat) : Nat → Nat → Int → Freeing → Freeing
  | 0, bn, lastbn, x =>
      let last := lastIndex nindir 0 lastbn
      let base := (last + 1).toNat
      unused (fun _ x => x) (x.fs.block bn) base (nindir - base) (rewrite nindir bn last x)
  | level + 1, bn, lastbn, x =>
      let bap := x.fs.block bn
      let last := lastIndex nindir (level + 1) lastbn
      let base := (last + 1).toNat
      let x := unused (fun bn x => s5indirtrunc nindir level bn (-1) x) bap base (nindir - base)
        (rewrite nindir bn last x)
      if 0 ≤ lastbn then
        let i := if last < nindir - 1 then last.toNat else nindir - 1
        let bn := ptr bap i
        if bn ≠ 0 then s5indirtrunc nindir level bn (lastbn % (factor nindir (level + 1) : Int)) x
        else x
      else x

/-- The loop of `s5freesp` over the indirect blocks of the inode, and if it was left at one that is
kept. -/
def truncIndirect (nindir : Nat) (save : Nat → Nat) (lastiblock : Nat → Int) :
    Nat → Freeing → Bool × Freeing
  | 0, x => (false, x)
  | i + 1, x =>
      let bn := save (NDADDR + i)
      let y :=
        if bn ≠ 0 then
          let y := s5indirtrunc nindir i bn (lastiblock i) x
          if lastiblock i < 0 then free y bn else y
        else x
      if 0 ≤ lastiblock i then (true, y) else truncIndirect nindir save lastiblock i y

/-- The loop of `s5freesp` over the direct blocks. -/
def truncDirect (save : Nat → Nat) (lastblock : Int) : Nat → Freeing → Freeing
  | 0, x => x
  | i + 1, x =>
      if lastblock < i then truncDirect save lastblock i (if save i ≠ 0 then free x (save i) else x)
      else x

def lastiblock (nindir : Nat) (lastblock : Int) (i : Nat) : Int :=
  let last := lastblock - NDADDR - (if 0 < i then (nindir : Int) else 0) -
    (if 1 < i then (nindir * nindir : Int) else 0)
  if last < 0 then -1 else last

def lastblock (nshift lStart : Nat) : Int :=
  (((lStart + vfsBsize nshift - 1) >>> vfsBshift nshift : Nat) : Int) - 1

def clearedAddr (nindir : Nat) (last : Int) (save : Nat → Nat) (entry : Nat) : Nat :=
  if entry < NDADDR then if last < entry then 0 else save entry
  else if lastiblock nindir last (entry - NDADDR) < 0 then 0 else save entry

/-- `s5freesp` from where it calculates the last block to be kept. -/
def truncate (nshift lStart : Nat) (ip : Inode) : Option Nat × Inode × List Nat :=
  let nindir := nindir nshift
  let last := lastblock nshift lStart
  let y := truncIndirect nindir ip.iAddr (lastiblock nindir last) 3 ⟨ip.fs, []⟩
  let z := if y.1 then y.2 else truncDirect ip.iAddr last NDADDR y.2
  (none, { ip with iAddr := clearedAddr nindir last ip.iAddr, iSize := lStart, fs := z.fs }, z.freed)

/-- `bmapalloc`, for `count` blocks. -/
def bmapalloc (nshift : Nat) (allocOnly : Bool) (fbread : Nat → Option Nat) :
    Nat → Nat → Inode → Option Nat × Inode
  | 0, _, ip => (none, ip)
  | count + 1, lbn, ip =>
      match bmap nshift ⟨.S_WRITE, allocOnly, false, fbread lbn⟩ lbn ip with
      | (.error error, ip) => (some error, ip)
      | (.ok _, ip) => bmapalloc nshift allocOnly fbread count (lbn + 1) ip

/-- What `s5freesp` is told by others: if the file is in use for swap, and the errors of the check for
mandatory locks, of `fs_vcode` and of `fbread`. -/
structure FreeIo where
  swap : Bool
  lock : Option Nat
  vcode : Option Nat
  fbread : Nat → Option Nat

def clearOffset (nshift lStart : Nat) : Nat :=
  lStart &&& ((if vfsBsize nshift < PAGESIZE then PAGESIZE else vfsBsize nshift) - 1)

/-- `s5freesp`, with the calls of `blkfree`. -/
def s5freesp (nshift : Nat) (io : FreeIo) (lLen : Int) (lStart : Nat) (ip : Inode) :
    Option Nat × Inode × List Nat :=
  if lLen ≠ 0 then (some EINVAL, ip, [])
  else if ip.iSize = lStart then (none, ip, [])
  else if lStart < ip.iSize && io.swap then (some EBUSY, ip, [])
  else
    match io.lock with
    | some error => (some error, ip, [])
    | none =>
        let lbn := (lStart - 1) >>> vfsBshift nshift
        if ip.iSize < lStart then
          match bmapalloc nshift false io.fbread 1 lbn (s5freemap ip) with
          | (some error, ip) => (some error, ip, [])
          | (none, ip) => (none, { ip with iSize := lStart }, [])
        else
          match io.vcode with
          | some error => (some error, s5freemap ip, [])
          | none =>
              if clearOffset nshift lStart = 0 then truncate nshift lStart (s5freemap ip)
              else
                match bmapalloc nshift false io.fbread 1 lbn (s5freemap ip) with
                | (some error, ip) => (some error, ip, [])
                | (none, ip) => truncate nshift lStart ip

/-! ### Which blocks are beyond -/

/-- The first block of the list of an entry of `i_addr`. -/
def listBase (nindir entry : Nat) : Nat :=
  if entry < NDADDR then entry
  else NDADDR + (if NDADDR < entry then nindir else 0) +
    (if NDADDR + 1 < entry then nindir * nindir else 0)

def firstAt (nindir entry : Nat) : List Nat → Nat
  | [] => listBase nindir entry
  | i :: indices =>
      firstAt nindir entry indices + i * factor nindir (depth entry - (indices.length + 1))

def first (nindir : Nat) (q : Place) : Nat := firstAt nindir q.entry q.indices

def span (nindir : Nat) (q : Place) : Nat := factor nindir (depth q.entry - q.indices.length)

variable {n nshift i j sh entry levels bn x lbn : Nat} {q : Place} {indices js : List Nat}

theorem firstAt_cons : firstAt n entry (i :: indices) =
    firstAt n entry indices + i * factor n (depth entry - (indices.length + 1)) := rfl

theorem factor_succ (h : indices.length < depth entry) :
    factor n (depth entry - indices.length) = factor n (depth entry - (indices.length + 1)) * n := by
  rw [show depth entry - indices.length = depth entry - (indices.length + 1) + 1 by omega, factor]

theorem factor_pos (hn : 0 < n) (level : Nat) : 0 < factor n level := by
  induction level with
  | zero => exact Nat.one_pos
  | succ level ih => exact Nat.mul_pos ih hn

/-- What a place leads to is part of what a place above it leads to. -/
theorem firstAt_append (js : List Nat) (hv : Place.Valid n ⟨entry, js ++ indices⟩) :
    firstAt n entry indices ≤ firstAt n entry (js ++ indices) ∧
    firstAt n entry (js ++ indices) + span n ⟨entry, js ++ indices⟩ ≤
      firstAt n entry indices + span n ⟨entry, indices⟩ := by
  induction js with
  | nil => exact ⟨le_rfl, le_rfl⟩
  | cons j js ih =>
    obtain ⟨hlow, hhigh⟩ := ih hv.tail
    have hj : j < n := hv.indices j (.head _)
    have hlength : (js ++ indices).length < depth entry := hv.length
    rw [cons_append, firstAt_cons]
    refine ⟨hlow.trans (Nat.le_add_right _ _), le_trans ?_ hhigh⟩
    unfold span
    rw [factor_succ hlength, length_cons, add_assoc]
    refine Nat.add_le_add_left ?_ _
    calc j * factor n (depth entry - ((js ++ indices).length + 1)) +
          factor n (depth entry - ((js ++ indices).length + 1))
        = (j + 1) * factor n (depth entry - ((js ++ indices).length + 1)) := by
          rw [Nat.succ_mul]
      _ ≤ n * factor n (depth entry - ((js ++ indices).length + 1)) := Nat.mul_le_mul_right _ hj
      _ = factor n (depth entry - ((js ++ indices).length + 1)) * n := mul_comm _ _

theorem listBase_next (hentry : entry < NADDR) :
    listBase n entry + factor n (depth entry) = listBase n (entry + 1) ∨ entry + 1 = NADDR := by
  have hnaddr : NADDR = 13 := rfl
  have hcases : entry < 9 ∨ entry = 9 ∨ entry = 10 ∨ entry = 11 ∨ entry + 1 = NADDR := by omega
  rcases hcases with hlt | rfl | rfl | rfl | hlast
  · left
    unfold listBase depth
    rw [if_pos (show entry < NDADDR by unfold NDADDR; omega),
      if_pos (show entry + 1 < NDADDR by unfold NDADDR; omega), show entry - 9 = 0 by omega, factor]
  · left
    rfl
  · left
    show 10 + 0 + 0 + 1 * n = 10 + n + 0
    omega
  · left
    show 10 + n + 0 + 1 * n * n = 10 + n + n * n
    rw [one_mul, add_zero]
  · exact .inr hlast

theorem listBase_mono (h : entry ≤ i) (hi : i < NADDR) : listBase n entry ≤ listBase n i := by
  induction i with
  | zero => rw [Nat.le_zero.mp h]
  | succ i ih =>
    rcases lt_or_ge i entry with hlt | hge
    · rw [show entry = i + 1 by omega]
    · have hstep := listBase_next (n := n) (show i < NADDR by omega)
      omega

theorem first_lt (hn : 0 < n) (hv : q.Valid n) (h : q.entry < i) (hi : i < NADDR) :
    first n q < listBase n i := by
  obtain ⟨entry, js⟩ := q
  have hspan : firstAt n entry (js ++ []) + span n ⟨entry, js ++ []⟩ ≤
      firstAt n entry [] + span n ⟨entry, []⟩ :=
    (firstAt_append js (by rw [append_nil]; exact hv)).2
  rw [append_nil] at hspan
  have hpos : 0 < span n ⟨entry, js⟩ := factor_pos hn _
  have hroot : firstAt n entry [] + span n ⟨entry, []⟩ = listBase n entry + factor n (depth entry) := rfl
  have hnext := (listBase_next (n := n) hv.entry).resolve_right (by dsimp only at h ⊢; omega)
  have hmono := listBase_mono (n := n) (show entry + 1 ≤ i from h) hi
  show firstAt n entry js < listBase n i
  dsimp only at hnext
  omega

theorem le_first (hv : q.Valid n) : listBase n q.entry ≤ first n q := by
  obtain ⟨entry, js⟩ := q
  have hle : firstAt n entry [] ≤ firstAt n entry (js ++ []) :=
    (firstAt_append js (by rw [append_nil]; exact hv)).1
  rw [append_nil] at hle
  exact hle

theorem factor_nindir : factor (nindir nshift) levels = 2 ^ (nshift * levels) := by
  induction levels with
  | zero => rfl
  | succ levels ih => rw [factor, ih, nindir_eq, Nat.mul_succ, pow_add]

theorem firstAt_leafIndices (hsh : sh = nshift * levels)
    (hlength : indices.length + levels = depth entry) :
    firstAt (nindir nshift) entry (leafIndices nshift bn levels sh indices) =
      firstAt (nindir nshift) entry indices + bn % 2 ^ sh := by
  induction levels generalizing sh indices with
  | zero => rw [hsh, Nat.mul_zero, Nat.pow_zero, Nat.mod_one]; rfl
  | succ levels ih =>
    have hrest : sh - nshift = nshift * levels := by
      rw [hsh, Nat.mul_succ, Nat.add_sub_cancel]
    have hsum : sh = nshift * levels + nshift := hsh.trans (Nat.mul_succ _ _)
    have hdepth : depth entry - (indices.length + 1) = levels := by omega
    rw [leafIndices, ih hrest (by rw [length_cons]; omega), firstAt_cons, hdepth,
      factor_nindir, digit_eq, hrest, hsum, Nat.pow_add, Nat.mod_mul, add_assoc]
    rw [mul_comm (bn / _ % _), add_comm (bn % _)]

/-- The blocks on the levels above the one that is found, `sh` and the wraparound being as they are in
the level loop. -/
def levelSum (nshift : Nat) : Nat → Nat → Nat
  | 0, _ => 0
  | k + 1, sh => 2 ^ (sh + nshift) + levelSum nshift k (sh + nshift)

theorem levelLoop_zero : levelLoop nshift j sh 0 x = none := by
  induction j generalizing sh x with
  | zero => rfl
  | succ j ih => rw [levelLoop, Nat.zero_shiftLeft, Nat.zero_mod, if_neg (Nat.not_lt_zero _), ih]

theorem levelLoop_sum {j' sh' bn : Nat} (h : levelLoop nshift j sh (2 ^ sh) x = some (j', sh', bn)) :
    x = bn + levelSum nshift (j - j') sh := by
  induction j generalizing sh x with
  | zero => cases h
  | succ j ih =>
    have hwrap : (2 ^ sh <<< nshift) % 0x100000000 = 2 ^ (sh + nshift) ∨
        (2 ^ sh <<< nshift) % 0x100000000 = 0 := by
      rw [Nat.shiftLeft_eq, ← Nat.pow_add]
      by_cases hlt : sh + nshift < 32
      · exact .inl (Nat.mod_eq_of_lt (Nat.pow_lt_pow_right (by decide) hlt))
      · exact .inr (Nat.mod_eq_zero_of_dvd (Nat.pow_dvd_pow 2 (not_lt.mp hlt)))
    rw [levelLoop] at h
    rcases hwrap with hnb | hnb
    · rw [hnb] at h
      split_ifs at h with hlt
      · obtain ⟨rfl, hrest⟩ := Prod.mk.inj (Option.some.inj h)
        obtain ⟨-, rfl⟩ := Prod.mk.inj hrest
        rw [Nat.sub_self]
        rfl
      · have hle := levelLoop_level h
        have hsum := ih h
        rw [show j + 1 - j' = j - j' + 1 by omega, levelSum]
        omega
    · rw [hnb, if_neg (Nat.not_lt_zero _), levelLoop_zero] at h
      cases h

theorem first_leafOf (h : leafOf nshift lbn = some q) : first (nindir nshift) q = lbn := by
  rcases leafOf_cases h with ⟨hlbn, rfl⟩ | ⟨hlbn, j, sh, bn, hloop, hone, hthree, hsh, hbn, rfl⟩
  · exact if_pos hlbn
  have hnaddr : NADDR = 13 := rfl
  have hlength : List.length ([] : List Nat) + (4 - j) = depth (NADDR - j) := by
    unfold depth
    rw [length_nil]
    omega
  have hsum : lbn - (NADDR - 3) = bn + levelSum nshift (3 - j) 0 := levelLoop_sum hloop
  unfold first
  rw [firstAt_leafIndices hsh hlength, Nat.mod_eq_of_lt hbn]
  have hbase : firstAt (nindir nshift) (NADDR - j) [] = 10 + levelSum nshift (3 - j) 0 := by
    rw [firstAt, nindir_eq]
    obtain rfl | rfl | rfl : j = 3 ∨ j = 2 ∨ j = 1 := by omega
    · rfl
    · show 10 + 2 ^ nshift + 0 = 10 + (2 ^ (0 + nshift) + 0)
      rw [zero_add]
      rfl
    · show 10 + 2 ^ nshift + 2 ^ nshift * 2 ^ nshift =
        10 + (2 ^ (0 + nshift) + (2 ^ (0 + nshift + nshift) + 0))
      rw [zero_add, pow_add, add_zero, add_assoc]
  rw [hbase]
  omega

end Svr42.S5.Tree
