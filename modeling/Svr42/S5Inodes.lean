import Mathlib.Logic.Function.Basic
import Svr42.RunExec

/-! The free inodes of an S5 file system: `ialloc` and `ifree`, run one at a time. The mode of an inode is
both the one in core and the one on the disk, as `iupdat` writes it out at once. -/

namespace Svr42.S5.Inodes
open Function

def NICINOD : Nat := 100

inductive Errno where
  | enospc
  | other (code : Nat)
  deriving DecidableEq, Repr

/-- The superblock and the inodes of a mounted file system; no code reads `returned`, the inodes that
`ialloc` has returned and `ifree` not freed since. -/
structure Filsys where
  vfsInopb : Nat
  vfsInoshift : Nat
  sIsize : Nat
  sNinode : Nat
  sInode : Nat → Nat
  sTinode : Nat
  iMode : Nat → Nat
  returned : Nat → Bool

/-- What goes wrong with the disk: blocks that cannot be read, and inodes that `iget` gives no
in-core copy of. -/
structure Faults where
  bread : Nat → Bool
  iget : Nat → Option Nat

def uShort (n : Nat) : Nat := n % 65536

def fsItod (s : Filsys) (x : Nat) : Nat := (x + (2 * s.vfsInopb - 1)) >>> s.vfsInoshift

def fsInos (s : Filsys) (x : Nat) : Nat := x >>> s.vfsInoshift <<< s.vfsInoshift + 1

def inodeAt (s : Filsys) (adr i : Nat) : Nat := (adr - 2) * s.vfsInopb + i + 1

/-- The cache while it is filled, and the inode number the search has come to -/
structure Fill where
  ninode : Nat
  inode : Nat → Nat
  ino : Nat

/-- The inodes of a block of the i-list from place `i` on, of which there are `n` -/
def fillBlock (s : Filsys) (adr : Nat) : Nat → Nat → Fill → Fill
  | 0, _, f => f
  | n + 1, i, f =>
      if f.ninode = 0 then f
      else if s.iMode (inodeAt s adr i) = 0 then
        fillBlock s adr n (i + 1)
          { ninode := f.ninode - 1
            inode := update f.inode (f.ninode - 1) f.ino
            ino := uShort (f.ino + 1) }
      else fillBlock s adr n (i + 1) { f with ino := uShort (f.ino + 1) }

/-- The blocks of the i-list from `adr` on, of which there are `n` -/
def fillFrom (s : Filsys) (faults : Faults) : Nat → Nat → Fill → Fill
  | 0, _, f => f
  | n + 1, adr, f =>
      if faults.bread adr = true then
        fillFrom s faults n (adr + 1) { f with ino := uShort (f.ino + s.vfsInopb) }
      else
        let f := fillBlock s adr s.vfsInopb 0 f
        if f.ninode = 0 then f else fillFrom s faults n (adr + 1) f

/-- The cache filled from the i-list: what is left of it is marked as not filled. -/
def rebuild (s : Filsys) (faults : Faults) : Nat × (Nat → Nat) :=
  let ino := uShort (fsInos s (s.sInode 0))
  let f := fillFrom s faults (s.sIsize - fsItod s ino) (fsItod s ino) ⟨NICINOD, s.sInode, ino⟩
  (f.ninode, if 0 < f.ninode then update (update f.inode (f.ninode - 1) 0) 0 0
    else f.inode)

/-- `ialloc` from `loop` on, with the inode it returns or why it returns none -/
def ialloc (faults : Faults) (mode : Nat) : Nat → Filsys → Option (Filsys × Except Errno Nat)
  | 0, _ => none
  | fuel + 1, s =>
      let n := s.sNinode - 1
      let ino := s.sInode n
      if 0 < s.sNinode ∧ ino ≠ 0 then
        match faults.iget ino with
        | some code => some ({ s with sNinode := n }, .error (.other code))
        | none =>
            if s.iMode ino = 0 then
              some
                ({ s with
                  sNinode := n
                  sTinode := s.sTinode - 1
                  iMode := update s.iMode ino mode
                  returned := update s.returned ino true }, .ok ino)
            else
              -- the inode was allocated after all
              ialloc faults mode fuel { s with sNinode := n }
      else if 0 < s.sTinode ∧ (rebuild s faults).1 ≠ NICINOD then
        ialloc faults mode fuel { s with sNinode := NICINOD, sInode := (rebuild s faults).2 }
      else
        some
          ({ s with
            sNinode := 0
            sInode := if 0 < s.sTinode then (rebuild s faults).2 else s.sInode
            sTinode := 0 }, .error .enospc)

def ifree (s : Filsys) (ino : Nat) : Filsys :=
  if s.iMode ino = 0 then s
  else
    let s := { s with
      iMode := update s.iMode ino 0
      returned := update s.returned ino false
      sTinode := uShort (s.sTinode + 1) }
    if NICINOD ≤ s.sNinode ∨ s.sNinode = 0 then
      if ino < s.sInode 0 then { s with sInode := update s.sInode 0 ino } else s
    else { s with sInode := update s.sInode s.sNinode ino, sNinode := s.sNinode + 1 }

def lastInode (s : Filsys) : Nat := (s.sIsize - 2) * s.vfsInopb

inductive Event where
  | ialloc (mode : Nat) (faults : Faults) (result : Except Errno Nat)
  | ifree (ino : Nat)

/-- A new inode has a type, and `ifree` is for an inode that somebody has. -/
inductive Step : Filsys → Event → Filsys → Prop
  | ialloc {s t : Filsys} {mode fuel : Nat} {faults : Faults} {result : Except Errno Nat}
      (hmode : mode ≠ 0) (hrun : ialloc faults mode fuel s = some (t, result)) :
      Step s (.ialloc mode faults result) t
  | ifree {s : Filsys} {ino : Nat} (hfirst : 1 ≤ ino) (hlast : ino ≤ lastInode s) :
      Step s (.ifree ino) (ifree s ino)

end Svr42.S5.Inodes
