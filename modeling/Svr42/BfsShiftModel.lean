import Svr42.WriteTrace

/-! Shifting one file of a boot file system down over a gap, as the kernel does it while it compacts
(`bfs_compact.c`) and as `fsck` finishes it after a crash (`fsck.c`): the writes that each sends to
the disk, in order. What a block holds is left abstract. -/

namespace Svr42.BfsShift

def BFS_BSIZE : Nat := 512

def BFSBUFSIZE : Nat := 8192

/-- The words of the superblock that tell `fsck` about a compaction; `none` stands for -1. -/
structure Sanity where
  fromblock : Option Nat
  toblock : Option Nat
  bfromblock : Option Nat
  btoblock : Option Nat
  deriving DecidableEq, Repr

structure Dirent where
  d_ino : Nat
  d_sblock : Nat
  d_eblock : Nat
  d_eoffset : Nat
  deriving DecidableEq, Repr

/-- The disk: the words of the superblock, the inode slots and the data blocks. -/
structure Disk (β : Type*) where
  sane : Sanity
  inodes : List Dirent
  blocks : Nat → β

/-- One write to the disk, which is done as a whole or not at all. A transfer of several blocks is
one write for each block. -/
inductive Write (β : Type*)
  | sanity (sw : Sanity)
  | w4fsck
  | block (b : Nat) (x : β)
  | inode (i : Nat) (dir : Dirent)

variable {β : Type*}

def Disk.put (d : Disk β) : Write β → Disk β
  | .sanity sw => { d with sane := sw }
  | .w4fsck => { d with sane := { d.sane with fromblock := none, toblock := none } }
  | .block b x => { d with blocks := Function.update d.blocks b x }
  | .inode i dir => { d with inodes := d.inodes.set i dir }

def Disk.puts (d : Disk β) (ws : List (Write β)) : Disk β := writeAll Disk.put d ws

def words (fromblock toblock : Nat) : Sanity :=
  ⟨some fromblock, some toblock, some fromblock, some toblock⟩

def cleared : Sanity := ⟨none, none, none, none⟩

/-- The transfers of one chunk: the buffer is read whole before its blocks are written. -/
def chunkWrites (d : Disk β) (fromblock toblock n : Nat) : List (Write β) :=
  (List.range n).map fun k => .block (toblock + k) (d.blocks (fromblock + k))

/-- The loop of either `bfs_shiftfile`; `small` says that the gap is smaller than the file, so that
the words are written around every chunk. The loop ends when no block is left; `none` means that
`fuel` chunks were not enough. -/
def shiftLoop (small : Bool) : Nat → Disk β → Nat → Nat → Nat → Nat → Option (List (Write β))
  | fuel, d, eblock, fromblock, toblock, maxshift => if fromblock = eblock + 1 then some [] else
      match fuel with
      | 0 => none
      | fuel + 1 =>
        let maxshift := min maxshift ((eblock - fromblock + 1) * BFS_BSIZE)
        let n := maxshift / BFS_BSIZE
        let before := if small then [.sanity (words fromblock toblock)] else []
        let after := if small then [.w4fsck] else []
        let ws := before ++ chunkWrites d fromblock toblock n ++ after
        (shiftLoop small fuel (d.puts ws) eblock (fromblock + n) (toblock + n) maxshift).map
          (ws ++ ·)

/-- The entry of the file after the shift: both programs compute the new end of file before the loop,
when it lies in the last block and that is no block before the first one to be shifted. -/
def Dirent.shift (dir : Dirent) (fromblock gapsize : Nat) : Dirent :=
  { dir with
    d_sblock := dir.d_sblock - gapsize
    d_eblock := dir.d_eblock - gapsize
    d_eoffset :=
      if dir.d_eoffset / BFS_BSIZE = dir.d_eblock ∧ dir.d_eblock ≥ fromblock then
        dir.d_eoffset - dir.d_sblock * BFS_BSIZE + (dir.d_sblock - gapsize) * BFS_BSIZE
      else dir.d_eoffset }

/-- The writes after the words are set: the blocks, the entry, and the words again. -/
def shiftWrites (d : Disk β) (i : Nat) (dir : Dirent) (fromblock toblock gapsize : Nat) :
    Option (List (Write β)) :=
  let d' := d.put (.sanity (words fromblock toblock))
  let filesize := (dir.d_eblock - dir.d_sblock + 1) * BFS_BSIZE
  (shiftLoop (gapsize * BFS_BSIZE < filesize) (dir.d_eblock + 1 - fromblock) d' dir.d_eblock
      fromblock toblock (min BFSBUFSIZE (gapsize * BFS_BSIZE))).map fun ws =>
    .sanity (words fromblock toblock) ::
      (ws ++ [.inode i (dir.shift fromblock gapsize), .sanity cleared])

def bfs_shiftfile (d : Disk β) (dir : Dirent) (gapsize offset : Nat) : Option (List (Write β)) :=
  shiftWrites d offset dir dir.d_sblock (dir.d_sblock - gapsize) gapsize

namespace Fsck

/-- `fsck`: the file from `fromblock` on, by the gap between the two words. -/
def bfs_shiftfile (d : Disk β) (dir : Dirent) (fromblock offset toblock : Nat) :
    Option (List (Write β)) :=
  shiftWrites d offset dir fromblock toblock (fromblock - toblock)

def holds (fromblock : Nat) (dir : Dirent) : Bool :=
  dir.d_sblock ≤ fromblock ∧ dir.d_eblock > fromblock

def restart (sw : Sanity) (bfromblock btoblock : Nat) : List (Write β) × Nat × Nat :=
  match sw.fromblock, sw.toblock with
  | some fromblock, some toblock => ([], fromblock, toblock)
  | _, _ => ([.sanity (words bfromblock btoblock)], bfromblock, btoblock)

/-- Finishing the shift: every inode slot is searched, also one that is not in use; when none is
found the file is taken to have been shifted. -/
def complete (d : Disk β) (bfromblock btoblock : Nat) : Option (List (Write β)) :=
  match restart d.sane bfromblock btoblock with
  | (ws, fromblock, toblock) =>
    match d.inodes.findIdx? (holds fromblock) with
    | none => some (ws ++ [.sanity cleared])
    | some i =>
      match d.inodes[i]? with
      | none => none
      | some dir => (bfs_shiftfile (d.puts ws) dir fromblock i toblock).map (ws ++ ·)

def consents (mflag nflag yflag : Bool) (ans : Char) : Bool :=
  !mflag && !nflag && (yflag || ans == 'y' || ans == 'Y')

def check_compaction (mflag nflag yflag : Bool) (ans : Char) (d : Disk β) : Option (List (Write β)) :=
  match d.sane.bfromblock, d.sane.btoblock with
  | some bfromblock, some btoblock =>
    if consents mflag nflag yflag ans then complete d bfromblock btoblock else some []
  | _, _ => some []

end Fsck

end Svr42.BfsShift
