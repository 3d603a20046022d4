import Svr42.S5Tree
import Mathlib.Data.Nat.Bitwise

/-! `bmap`: from a logical block number to the level of indirection, the indices and the block. -/

namespace Svr42.S5.Tree
open List Nat Option Prod

inductive SegRw
  | S_READ | S_WRITE | S_OTHER
  deriving DecidableEq

def ENOSPC : Nat := 28

def EFBIG : Nat := 27

def PAGESIZE : Nat := 4096

/-- What a caller asks for, and what `fbread` says if it is called. -/
structure Request where
  rw : SegRw
  allocOnly : Bool
  rabnp : Bool
  fbread : Option Nat

/-- What the caller gets; nothing stands for `S5_HOLE`. -/
structure Found where
  bnp : Option Nat
  rabnp : Option Nat

def nindir (nshift : Nat) : Nat := 1 <<< nshift

def vfsBshift (nshift : Nat) : Nat := nshift + 2

def vfsBsize (nshift : Nat) : Nat := 1 <<< vfsBshift nshift

def toHole (bn : Nat) : Option Nat := if bn = 0 then none else some bn

def fileBlocks (nshift : Nat) (ip : Inode) : Nat :=
  (ip.iSize + vfsBsize nshift - 1) / vfsBsize nshift

/-- The length of `i_map`. -/
def mapBlocks (nshift : Nat) (ip : Inode) : Nat :=
  if vfsBsize nshift < PAGESIZE then
    (ip.iSize + (PAGESIZE - 1)) / PAGESIZE * (PAGESIZE / vfsBsize nshift)
  else fileBlocks nshift ip

def s5freemap (ip : Inode) : Inode :=
  if ip.vType ≠ .VREG then ip else { ip with iMap := none }

/-- The level of indirection: `j`, `sh` and what is left of the block number. -/
def levelLoop (nshift : Nat) : Nat → Nat → Nat → Nat → Option (Nat × Nat × Nat)
  | 0, _, _, _ => none
  | j + 1, sh, nb, bn =>
      let nb := (nb <<< nshift) % 0x100000000
      if bn < nb then some (j + 1, sh + nshift, bn)
      else levelLoop nshift j (sh + nshift) nb (bn - nb)

def digit (nshift bn sh : Nat) : Nat := (bn >>> sh) &&& (nindir nshift - 1)

def newIndirect (ip : Inode) : Except Nat Nat × Inode :=
  match blkalloc ip.fs with
  | (none, t) => (.error ENOSPC, { ip with fs := t })
  | (some nb, t) => (.ok nb, filled ip t nb cleared)

/-- A new block of the file. It is allocated before `fbread` is called for its page, and written at
once if `flush` is set. -/
def newData (r : Request) (allocOnly flush : Bool) (ip : Inode) : Except Nat Nat × Inode :=
  match blkalloc ip.fs with
  | (none, t) => (.error ENOSPC, { ip with fs := t })
  | (some nb, t) =>
      if allocOnly then (.ok nb, filled ip t nb (t.block nb))
      else
        match r.fbread with
        | some error => (.error error, { ip with fs := blkfree t nb })
        | none => (.ok nb, filled ip t nb (if flush then cleared else t.block nb))

def nextBap (nshift : Nat) (r : Request) (ip : Inode) (inb i : Nat) : Option Nat :=
  if r.rabnp && i < nindir nshift - 1 then toHole (ptr (ip.fs.block inb) (i + 1)) else none

/-- The loop through the indirect blocks, for the last of them (`j` is 3) or one above. -/
def fetch (nshift : Nat) (r : Request) (allocOnly flush : Bool) (bn : Nat) :
    Nat → Nat → Nat → Inode → Except Nat Found × Inode
  | 0, sh, inb, ip =>
      let i := digit nshift bn (sh - nshift)
      let nb := ptr (ip.fs.block inb) i
      if nb = 0 then
        if r.rw ≠ .S_WRITE then (.ok ⟨none, none⟩, ip)
        else
          match newData r allocOnly flush ip with
          | (.error error, ip) => (.error error, ip)
          | (.ok nb, ip) =>
              (.ok ⟨some nb, nextBap nshift r (setBap ip inb i nb) inb i⟩, setBap ip inb i nb)
      else (.ok ⟨some nb, nextBap nshift r ip inb i⟩, ip)
  | n + 1, sh, inb, ip =>
      let i := digit nshift bn (sh - nshift)
      let nb := ptr (ip.fs.block inb) i
      if nb = 0 then
        if r.rw ≠ .S_WRITE then (.ok ⟨none, none⟩, ip)
        else
          match newIndirect ip with
          | (.error error, ip) => (.error error, ip)
          | (.ok nb, ip) =>
              fetch nshift r allocOnly flush bn n (sh - nshift) nb (setBap ip inb i nb)
      else fetch nshift r allocOnly flush bn n (sh - nshift) nb ip

def nextEntry (r : Request) (ip : Inode) (i : Nat) : Option Nat :=
  if r.rabnp && i < NADDR - 4 then toHole (ip.iAddr (i + 1)) else none

/-- `bmap` at a direct block. -/
def direct (r : Request) (allocOnly : Bool) (i : Nat) (ip : Inode) : Except Nat Found × Inode :=
  let nb := ip.iAddr i
  if nb = 0 then
    if r.rw ≠ .S_WRITE then (.ok ⟨none, none⟩, ip)
    else
      match newData r allocOnly (ip.vType = .VDIR) ip with
      | (.error error, ip) => (.error error, ip)
      | (.ok nb, ip) => (.ok ⟨some nb, nextEntry r (setEntry ip i nb) i⟩, setEntry ip i nb)
  else (.ok ⟨some nb, nextEntry r ip i⟩, ip)

/-- `bmap` from `lbmap` on. -/
def lbmap (nshift : Nat) (r : Request) (lbn : Nat) (ip : Inode) : Except Nat Found × Inode :=
  let isdir : Bool := ip.vType = .VDIR
  let issync := ip.iSync
  let allocOnly := r.allocOnly && !(isdir || issync)
  if lbn < NADDR - 3 then direct r allocOnly lbn ip
  else
    match levelLoop nshift 3 0 1 (lbn - (NADDR - 3)) with
    | none => (.error EFBIG, ip)
    | some (j, sh, bn) =>
        let flush := isdir || issync && lbn <<< vfsBshift nshift < ip.iSize
        let inb := ip.iAddr (NADDR - j)
        if inb = 0 then
          if r.rw ≠ .S_WRITE then (.ok ⟨none, none⟩, ip)
          else
            match newIndirect ip with
            | (.error error, ip) => (.error error, ip)
            | (.ok inb, ip) =>
                fetch nshift r allocOnly flush bn (3 - j) sh inb (setEntry ip (NADDR - j) inb)
        else fetch nshift r allocOnly flush bn (3 - j) sh inb ip

/-- `bmap`, with what the inode and its file system become. -/
def bmap (nshift : Nat) (r : Request) (lbn : Nat) (ip : Inode) : Except Nat Found × Inode :=
  match ip.iMap with
  | none => lbmap nshift r lbn ip
  | some iMap =>
      let nblks := mapBlocks nshift ip
      let bn := if lbn < nblks then iMap lbn else 0
      if bn = 0 then
        if r.rw = .S_WRITE then lbmap nshift r lbn (s5freemap ip)
        else (.ok ⟨none, none⟩, ip)
      else
        (.ok ⟨some bn, if r.rabnp && lbn + 1 < nblks then toHole (iMap (lbn + 1)) else none⟩, ip)

/-! ### The place of a logical block -/

def leafIndices (nshift bn : Nat) : Nat → Nat → List Nat → List Nat
  | 0, _, indices => indices
  | levels + 1, sh, indices =>
      leafIndices nshift bn levels (sh - nshift) (digit nshift bn (sh - nshift) :: indices)

/-- Where the walk for a logical block ends. -/
def leafOf (nshift lbn : Nat) : Option Place :=
  if lbn < NADDR - 3 then some ⟨lbn, []⟩
  else
    match levelLoop nshift 3 0 1 (lbn - (NADDR - 3)) with
    | none => none
    | some (j, sh, bn) => some ⟨NADDR - j, leafIndices nshift bn (4 - j) sh []⟩

def levelMax (nshift : Nat) : Nat → Nat → Nat
  | 0, _ => 0
  | j + 1, nb => (nb <<< nshift) % 0x100000000 + levelMax nshift j ((nb <<< nshift) % 0x100000000)

def maxLbn (nshift : Nat) : Nat := NADDR - 3 + levelMax nshift 3 1

variable {nshift bn bn' j j' sh sh' nb levels lbn lbn' : Nat} {indices indices' : List Nat}
  {q : Place}

theorem nindir_eq : nindir nshift = 2 ^ nshift := one_shiftLeft nshift

theorem digit_eq : digit nshift bn sh = bn / 2 ^ sh % 2 ^ nshift := by
  unfold digit
  rw [nindir_eq, and_two_pow_sub_one_eq_mod, shiftRight_eq_div_pow]

theorem digit_lt : digit nshift bn sh < nindir nshift := by
  rw [digit_eq, nindir_eq]
  exact mod_lt _ (Nat.two_pow_pos nshift)

theorem leafIndices_length :
    (leafIndices nshift bn levels sh indices).length = levels + indices.length := by
  induction levels generalizing sh indices with
  | zero => exact (zero_add _).symm
  | succ levels ih =>
    rw [leafIndices, ih, length_cons]
    omega

theorem leafIndices_lt (hindices : ∀ i ∈ indices, i < nindir nshift) :
    ∀ i ∈ leafIndices nshift bn levels sh indices, i < nindir nshift := by
  induction levels generalizing sh indices with
  | zero => exact hindices
  | succ levels ih =>
    rw [leafIndices]
    refine ih fun i hi => ?_
    rcases mem_cons.mp hi with rfl | hi
    · exact digit_lt
    · exact hindices i hi

theorem leafIndices_inj (hsh : sh = nshift * levels)
    (h : leafIndices nshift bn levels sh indices = leafIndices nshift bn' levels sh indices') :
    indices = indices' ∧ bn % 2 ^ sh = bn' % 2 ^ sh := by
  induction levels generalizing sh indices indices' with
  | zero =>
    refine ⟨h, ?_⟩
    rw [hsh, Nat.mul_zero, Nat.pow_zero, Nat.mod_one, Nat.mod_one]
  | succ levels ih =>
    have hrest : sh - nshift = nshift * levels := by
      rw [hsh, Nat.mul_succ, Nat.add_sub_cancel]
    have hsum : sh = nshift * levels + nshift := hsh.trans (Nat.mul_succ _ _)
    obtain ⟨hcons, hlow⟩ := ih hrest h
    obtain ⟨hdigit, htail⟩ := cons.inj hcons
    refine ⟨htail, ?_⟩
    rw [digit_eq, digit_eq, hrest] at hdigit
    rw [hrest] at hlow
    rw [hsum, Nat.pow_add, Nat.mod_mul, Nat.mod_mul, hlow, hdigit]

theorem levelLoop_some (hnb : nb ≤ 2 ^ sh) (h : levelLoop nshift j sh nb bn = some (j', sh', bn')) :
    1 ≤ j' ∧ j' ≤ j ∧ sh' = sh + nshift * (j + 1 - j') ∧ bn' < 2 ^ sh' := by
  induction j generalizing sh nb bn with
  | zero => cases h
  | succ j ih =>
    have hnext : (nb <<< nshift) % 0x100000000 ≤ 2 ^ (sh + nshift) := by
      calc (nb <<< nshift) % 0x100000000 ≤ nb <<< nshift := Nat.mod_le _ _
        _ = nb * 2 ^ nshift := Nat.shiftLeft_eq _ _
        _ ≤ 2 ^ sh * 2 ^ nshift := Nat.mul_le_mul_right _ hnb
        _ = 2 ^ (sh + nshift) := (Nat.pow_add _ _ _).symm
    rw [levelLoop] at h
    split_ifs at h with hlt
    · obtain ⟨rfl, hrest⟩ := mk.inj (some.inj h)
      obtain ⟨rfl, rfl⟩ := mk.inj hrest
      refine ⟨Nat.succ_le_succ (Nat.zero_le _), le_rfl, ?_, hlt.trans_le hnext⟩
      rw [Nat.add_sub_cancel_left, mul_one]
    · obtain ⟨hone, hle, hsh, hbn⟩ := ih hnext h
      refine ⟨hone, by omega, ?_, hbn⟩
      rw [hsh, show j + 1 + 1 - j' = j + 1 - j' + 1 by omega, Nat.mul_succ]
      omega

theorem levelLoop_level (h : levelLoop nshift j sh nb bn = some (j', sh', bn')) : j' ≤ j := by
  induction j generalizing sh nb bn with
  | zero => cases h
  | succ j ih =>
    rw [levelLoop] at h
    split_ifs at h
    · obtain ⟨rfl, -⟩ := mk.inj (some.inj h)
      exact le_rfl
    · exact le_succ_of_le (ih h)

theorem levelLoop_inj {bn₁ bn₂ : Nat} (h₁ : levelLoop nshift j sh nb bn₁ = some (j', sh', bn'))
    (h₂ : levelLoop nshift j sh nb bn₂ = some (j', sh', bn')) : bn₁ = bn₂ := by
  induction j generalizing sh nb bn₁ bn₂ with
  | zero => cases h₁
  | succ j ih =>
    rw [levelLoop] at h₁ h₂
    have hnever : ∀ {sh nb bn : Nat}, levelLoop nshift j sh nb bn ≠ some (j + 1, sh', bn') := by
      intro sh nb bn h
      have hle := levelLoop_level h
      omega
    split_ifs at h₁ with hlt₁
    · obtain ⟨rfl, hrest⟩ := mk.inj (some.inj h₁)
      split_ifs at h₂ with hlt₂
      · have hrest₂ := (mk.inj (some.inj h₂)).2
        exact (mk.inj (hrest.trans hrest₂.symm)).2
      · exact absurd h₂ hnever
    · split_ifs at h₂ with hlt₂
      · obtain ⟨rfl, -⟩ := mk.inj (some.inj h₂)
        exact absurd h₁ hnever
      · have hsub := ih h₁ h₂
        omega

theorem levelLoop_isSome (h : bn < levelMax nshift j nb) : ∃ x, levelLoop nshift j sh nb bn = some x := by
  induction j generalizing sh nb bn with
  | zero => exact absurd h (not_lt_zero _)
  | succ j ih =>
    rw [levelMax] at h
    rw [levelLoop]
    split_ifs with hlt
    · exact ⟨_, rfl⟩
    · exact ih (by omega)

section

variable (h : leafOf nshift lbn = some q)
include h

theorem leafOf_cases : lbn < NADDR - 3 ∧ q = ⟨lbn, []⟩ ∨
    ¬ lbn < NADDR - 3 ∧ ∃ j sh bn, levelLoop nshift 3 0 1 (lbn - (NADDR - 3)) = some (j, sh, bn) ∧
      1 ≤ j ∧ j ≤ 3 ∧ sh = nshift * (4 - j) ∧ bn < 2 ^ sh ∧
      q = ⟨NADDR - j, leafIndices nshift bn (4 - j) sh []⟩ := by
  unfold leafOf at h
  split_ifs at h with hdirect
  · exact .inl ⟨hdirect, (some.inj h).symm⟩
  · cases hloop : levelLoop nshift 3 0 1 (lbn - (NADDR - 3)) with
    | none =>
      rw [hloop] at h
      cases h
    | some found =>
      obtain ⟨j, sh, bn⟩ := found
      rw [hloop] at h
      obtain ⟨hone, hthree, hsh, hbn⟩ := levelLoop_some (le_refl 1) hloop
      rw [zero_add] at hsh
      exact .inr ⟨hdirect, j, sh, bn, rfl, hone, hthree, hsh, hbn, (some.inj h).symm⟩

theorem leafOf_valid : q.Valid (nindir nshift) ∧ q.Leaf := by
  have hnaddr : NADDR = 13 := rfl
  rcases leafOf_cases h with ⟨hlbn, rfl⟩ | ⟨-, j, sh, bn, -, hone, hthree, -, -, rfl⟩
  · refine ⟨⟨by dsimp only; omega, zero_le _, nofun⟩, ?_⟩
    show 0 = lbn - 9
    omega
  have hlength : (leafIndices nshift bn (4 - j) sh []).length = 4 - j + length [] := leafIndices_length
  have hleaf : Place.Leaf ⟨NADDR - j, leafIndices nshift bn (4 - j) sh []⟩ := by
    show (leafIndices nshift bn (4 - j) sh []).length = NADDR - j - 9
    rw [hlength, length_nil]
    omega
  exact ⟨⟨by dsimp only; omega, hleaf.le, leafIndices_lt nofun⟩, hleaf⟩

theorem leafOf_inj (h' : leafOf nshift lbn' = some q) : lbn = lbn' := by
  have hnaddr : NADDR = 13 := rfl
  rcases leafOf_cases h with ⟨hlbn, rfl⟩ | ⟨hlbn, j, sh, bn, hloop, hone, hthree, hsh, hbn, rfl⟩
  · rcases leafOf_cases h' with ⟨-, heq⟩ | ⟨-, j', _, _, -, hone', hthree', -, -, heq⟩
    · exact (Place.mk.inj heq).1
    · have hentry := (Place.mk.inj heq).1
      omega
  rcases leafOf_cases h' with ⟨hlbn', heq⟩ |
    ⟨hlbn', j', sh', bn', hloop', hone', hthree', hsh', hbn', heq⟩
  · have hentry := (Place.mk.inj heq).1
    omega
  · obtain ⟨hentry, hindices⟩ := Place.mk.inj heq
    obtain rfl : j = j' := by omega
    obtain rfl : sh = sh' := hsh.trans hsh'.symm
    have hmod := (leafIndices_inj hsh hindices).2
    rw [mod_eq_of_lt hbn, mod_eq_of_lt hbn'] at hmod
    rw [← hmod] at hloop'
    have hsub := levelLoop_inj hloop hloop'
    omega

end

theorem leafOf_isSome (h : lbn < maxLbn nshift) : ∃ q, leafOf nshift lbn = some q := by
  unfold leafOf
  unfold maxLbn at h
  split_ifs with hdirect
  · exact ⟨_, rfl⟩
  · obtain ⟨x, hloop⟩ : ∃ x, levelLoop nshift 3 0 1 (lbn - (NADDR - 3)) = some x :=
      levelLoop_isSome (by omega)
    rw [hloop]
    exact ⟨_, rfl⟩

end Svr42.S5.Tree
