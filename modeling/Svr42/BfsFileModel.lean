import Svr42.BfsShiftModel

/-! The files of a mounted boot file system (`bfs_subr.c`, `bfs_vnops.c`, `bfs_compact.c`): where each
lies on the device, the counts of free blocks and inodes, and the calls that write, read, truncate,
remove, move and compact files. The device does every transfer, and calls follow one another.
Names are left out: the slot that a name leads to is data of the call. -/

namespace Svr42.BfsFile

open BfsShift (Dirent Disk BFS_BSIZE)

inductive Errno
  | ENOENT | EISDIR | EINVAL | ENFILE | ENOSPC
  deriving DecidableEq, Repr

/-- The bytes of a block, by their offset in it. -/
abbrev Block := Nat → UInt8

def MAXBSIZE : Nat := 8192

def BIGFILE : Nat := 500

def SMALLFILE : Nat := 10

/-- A mounted file system; `nlink` holds the link counts of the inode slots, and `lastfile` is the
slot of the last file, `none` for offset 0. Slot 0 is the root. -/
structure Fs where
  disk : Disk Block
  nlink : List Nat
  bsup_start : Nat
  bsup_end : Nat
  bsup_freeblocks : Int
  bsup_freedrents : Int
  bsup_lastfile : Option Nat
  bsup_compacted : Bool

/-- How a call ends: `none` is an error code of zero. -/
abbrev Outcome := Option Errno × Fs

def byte (d : Disk Block) (a : Nat) : UInt8 := d.blocks (a / BFS_BSIZE) (a % BFS_BSIZE)

def readBytes (d : Disk Block) (offset len : Nat) : List UInt8 :=
  (List.range len).map fun k => byte d (offset + k)

/-- `vn_rdwr` with `UIO_WRITE`. -/
def writeBytes (d : Disk Block) (offset : Nat) (data : List UInt8) : Disk Block :=
  { d with
    blocks := fun b k =>
      if offset ≤ b * BFS_BSIZE + k ∧ b * BFS_BSIZE + k < offset + data.length then
        data.getD (b * BFS_BSIZE + k - offset) 0
      else d.blocks b k }

namespace Fs

def getinode (s : Fs) (i : Nat) : Dirent := (s.disk.inodes[i]?).getD ⟨0, 0, 0, 0⟩

def putinode (s : Fs) (i : Nat) (dir : Dirent) : Fs := { s with disk := s.disk.put (.inode i dir) }

end Fs

/-- The scan of the inode slots for the first file after a block: the entry and the slot found so far
are in `acc`. -/
def nxtcblock (curblock : Nat) : List Dirent → Nat → Dirent × Option Nat → Dirent × Option Nat
  | [], _, acc => acc
  | dir :: rest, i, acc =>
    nxtcblock curblock rest (i + 1)
      (if dir.d_ino ≠ 0 ∧ dir.d_sblock > curblock ∧ dir.d_sblock < acc.1.d_sblock then (dir, some i)
        else acc)

def bfs_getnxtcblock (s : Fs) (curblock : Nat) (drent : Dirent) : Dirent × Option Nat :=
  nxtcblock curblock s.disk.inodes 0 ({ drent with d_sblock := (s.bsup_end + 1) / BFS_BSIZE }, none)

/-- One round of the compaction: the file is shifted when there is a gap before it. -/
def closeGap (s : Fs) (eblock : Nat) (dir : Dirent) (off : Nat) : Option (Fs × Dirent) :=
  if dir.d_sblock ≠ eblock + 1 ∧ dir.d_sblock ≠ eblock then
    let gapsize := dir.d_sblock - eblock - 1
    (BfsShift.bfs_shiftfile s.disk dir gapsize off).map fun ws =>
      ({ s with disk := s.disk.puts ws }, dir.shift dir.d_sblock gapsize)
  else some (s, dir)

def compactLoop : Nat → Fs → Nat → Dirent → Nat → Option Fs
  | 0, _, _, _, _ => none
  | fuel + 1, s, eblock, dir, off =>
    (closeGap s eblock dir off).bind fun r =>
      match bfs_getnxtcblock r.1 r.2.d_eblock r.2 with
      | (_, none) => some r.1
      | (dir', some off') => compactLoop fuel r.1 r.2.d_eblock dir' off'

/-- Close the gaps between the files. The root is a file with blocks, so the first search finds one;
there are no more rounds than slots. -/
def bfs_compact (s : Fs) : Option Fs :=
  match bfs_getnxtcblock s 0 ⟨0, 0, 0, 0⟩ with
  | (_, none) => none
  | (dir, some off) =>
    (compactLoop (s.disk.inodes.length + 1) s (s.bsup_start / BFS_BSIZE) dir off).map fun s' =>
      { s' with bsup_compacted := true }

def nextblock (s : Fs) : Nat :=
  match s.bsup_lastfile with
  | some l => (s.getinode l).d_eblock + 1
  | none => s.bsup_start / BFS_BSIZE + 1

/-- The search for the last file other than `skip`. -/
def lastOther (skip : Nat) : List Dirent → Nat → Nat × Option Nat → Option Nat
  | [], _, acc => acc.2
  | dir :: rest, i, acc =>
    lastOther skip rest (i + 1)
      (if i ≠ skip ∧ dir.d_eblock > acc.1 ∧ dir.d_ino ≠ 0 then (dir.d_eblock, some i) else acc)

def relast (s : Fs) (i : Nat) : Fs :=
  { s with bsup_lastfile := lastOther i s.disk.inodes 0 (0, none) }

/-- After a big file is gone that only one small file follows, the file system is compacted. -/
def compactSmall (s : Fs) (oeblock : Nat) : Option Fs :=
  let ldir := s.getinode (s.bsup_lastfile.getD 0)
  if ldir.d_sblock = oeblock + 1 ∧ ldir.d_eblock - ldir.d_sblock < SMALLFILE then bfs_compact s
  else some s

/-- A new empty file in the first free slot. -/
def bfs_create (s : Fs) : Option Outcome :=
  if s.bsup_freedrents ≤ 0 then some (some .ENFILE, s)
  else
    match s.disk.inodes.findIdx? fun dir => dir.d_ino = 0 with
    | none => none
    | some i =>
      let s' := s.putinode i ⟨i + 2, 0, 0, 0⟩
      some (none, { s' with nlink := s'.nlink.set i 1, bsup_freedrents := s'.bsup_freedrents - 1 })

def nlinkDec (n : Nat) : Nat := (n + (1 <<< 32) - 1) % (1 <<< 32)

def nlinkInc (n : Nat) : Nat := (n + 1) % (1 <<< 32)

def bfs_link (s : Fs) (i : Nat) : Option Outcome :=
  some (none, { s with nlink := s.nlink.set i (nlinkInc (s.nlink.getD i 0)) })

def bfs_remove (s : Fs) (i : Nat) : Option Outcome :=
  let dir := s.getinode i
  let nlink := s.nlink.getD i 0
  let s := s.putinode i { dir with d_ino := if nlink = 1 then 0 else dir.d_ino }
  let s := { s with nlink := s.nlink.set i (nlinkDec nlink) }
  if nlinkDec nlink ≥ 1 then some (none, s)
  else
    let s := { s with
      bsup_freeblocks := s.bsup_freeblocks +
        if dir.d_eblock ≠ 0 then (dir.d_eblock : Int) + 1 - dir.d_sblock else 0
      bsup_freedrents := s.bsup_freedrents + 1 }
    if s.bsup_lastfile = some i then some (none, relast s i)
    else
      let s := { s with bsup_compacted := false }
      if dir.d_eblock - dir.d_sblock > BIGFILE then
        (compactSmall s dir.d_eblock).map fun s => (none, s)
      else some (none, s)

def bfs_rename (s : Fs) (target : Option Nat) : Option Outcome :=
  match target with
  | some i => bfs_remove s i
  | none => some (none, s)

def bfs_truncate (s : Fs) (i length : Nat) : Option Outcome :=
  let dir := s.getinode i
  if dir.d_sblock = 0 then some (if length = 0 then none else some .EINVAL, s)
  else if dir.d_eoffset + 1 - dir.d_sblock * BFS_BSIZE = length then some (none, s)
  else if dir.d_eoffset + 1 - dir.d_sblock * BFS_BSIZE < length then some (some .EINVAL, s)
  else
    let oeblock := dir.d_eblock
    let eoffset := dir.d_sblock * BFS_BSIZE + length - 1
    let eblock := eoffset / BFS_BSIZE
    let s := { s with
      bsup_freeblocks := s.bsup_freeblocks +
        (if oeblock > eblock then (oeblock : Int) - eblock else 0) +
        if oeblock = dir.d_sblock ∧ length = 0 then 1 else 0 }
    if eoffset = dir.d_sblock * BFS_BSIZE - 1 then
      let s := s.putinode i { dir with d_sblock := 0, d_eblock := 0, d_eoffset := 0 }
      if s.bsup_lastfile = some i then some (none, relast s i)
      -- the start block has just been set to zero
      else if oeblock - 0 > BIGFILE then
        let ldir := s.getinode (s.bsup_lastfile.getD 0)
        if ldir.d_sblock = oeblock + 1 ∧ ldir.d_eblock - ldir.d_sblock < SMALLFILE then
          (bfs_compact s).map fun s => (none, s)
        else some (none, { s with bsup_compacted := false })
      else some (none, { s with bsup_compacted := false })
    else some (none, s.putinode i { dir with d_eblock := eblock, d_eoffset := eoffset })

/-- `bfs_setattr` with `AT_SIZE`, which takes only a size of zero. -/
def bfs_setattr (s : Fs) (i va_size : Nat) : Option Outcome :=
  if va_size ≠ 0 then some (some .EINVAL, s)
  else if i = 0 then some (some .EISDIR, s)
  else
    let dir := s.getinode i
    let s := { s with
      bsup_freeblocks := s.bsup_freeblocks + ((dir.d_eblock : Int) - dir.d_sblock + 1) }
    let s := if s.bsup_lastfile = some i then relast s i else s
    some (none, s.putinode i { dir with d_sblock := 0, d_eblock := 0, d_eoffset := 0 })

/-- The loop of `bfs_filetoend`: chunks are read at `offset2` and written at `offset1` while
`offset2` is before the last byte. -/
def moveLoop (eoffset chunksize : Nat) : Nat → Disk Block → Nat → Nat → Option (Disk Block × Nat)
  | 0, _, _, _ => none
  | fuel + 1, d, offset1, offset2 => let j := min (eoffset - offset2 + 1) chunksize
    let d' := writeBytes d offset1 (readBytes d offset2 j)
    if offset2 + j < eoffset then moveLoop eoffset chunksize fuel d' (offset1 + j) (offset2 + j)
    else some (d', offset1 + j)

/-- Move a file to the end, by the entry `dir` that the caller has read. -/
def bfs_filetoend : Nat → Fs → Dirent → Nat → Option Outcome
  | 0, _, _, _ => none
  | fuel + 1, s, dir, i => let newblock := nextblock s
    let offset1 := newblock * BFS_BSIZE
    let offset2 := dir.d_sblock * BFS_BSIZE
    let size := dir.d_eoffset - offset2
    if offset1 + size > s.bsup_end then
      if s.bsup_compacted then some (some .ENOSPC, s)
      else (bfs_compact s).bind fun s' => bfs_filetoend fuel s' dir i
    else
      let chunksize := min (dir.d_eoffset - offset2 + 1) MAXBSIZE
      (moveLoop dir.d_eoffset chunksize (size + 1) s.disk offset1 offset2).map fun r =>
        let dir := { dir with
          d_eoffset := r.2 - 1
          d_sblock := newblock
          d_eblock := (r.2 - 1) / BFS_BSIZE }
        let s := { s with disk := r.1 }
        (none, { s.putinode i dir with bsup_lastfile := some i, bsup_compacted := false })

/-- The zeros of a hole, a block at a time. -/
def zeroHole : Nat → Disk Block → Nat → Nat → Disk Block
  | 0, d, _, _ => d
  | fuel + 1, d, curoff, holesz => if holesz = 0 then d else
      let count := min BFS_BSIZE holesz
      zeroHole fuel (writeBytes d curoff (List.replicate count 0)) (curoff + count) (holesz - count)

/-- The entry and the count of free blocks after a chunk was written. -/
def growEntry (s : Fs) (i : Nat) (dir : Dirent) (oeblock offset buflen : Nat) : Fs × Dirent × Nat :=
  let eoffset := if offset + buflen > dir.d_eoffset then offset + buflen - 1 else dir.d_eoffset
  let dir := { dir with d_eoffset := eoffset }
  if eoffset ≥ dir.d_eblock * BFS_BSIZE then
    let dir := { dir with d_eblock := eoffset / BFS_BSIZE }
    let used : Int :=
      if oeblock = 0 then (dir.d_eblock : Int) - dir.d_sblock + 1
      else if dir.d_eblock ≠ oeblock then (dir.d_eblock : Int) - oeblock
      else 0
    let s := { s with bsup_freeblocks := s.bsup_freeblocks - used }
    (s.putinode i dir, dir, dir.d_eblock)
  else (s, dir, oeblock)

def writeLoop (chunksize : Nat) : Nat → Fs → Nat → Dirent → Nat → Nat → List UInt8 → Option Fs
  | fuel, s, i, dir, oeblock, offset, data => if data = [] then some s else
      match fuel with
      | 0 => none
      | fuel + 1 =>
        let buflen := min chunksize data.length
        let s := { s with disk := writeBytes s.disk offset (data.take buflen) }
        let r := growEntry s i dir oeblock offset buflen
        writeLoop chunksize fuel r.1 i r.2.1 r.2.2 (offset + buflen) (data.drop buflen)

/-- The last part of `bfs_write`: the hole, the data and the last file. -/
def writeData (s : Fs) (i : Nat) (dir : Dirent) (oeblock endfile offset : Nat) (lastfile : Option Nat)
    (data : List UInt8) : Option Fs :=
  let holesz := offset - (endfile + 1)
  let s := { s with disk := zeroHole holesz s.disk (endfile + 1) holesz }
  (writeLoop (min MAXBSIZE data.length) data.length s i dir oeblock offset data).map fun s =>
    { s with bsup_lastfile := lastfile }

/-- The first block for a file that has none, after a compaction when the device is full; a second one
does not help. -/
def findBlock (s : Fs) : Option (Fs × Option Nat) :=
  if nextblock s * BFS_BSIZE > s.bsup_end then
    if s.bsup_compacted then some (s, none)
    else
      (bfs_compact s).map fun s' =>
        (s', if nextblock s' * BFS_BSIZE > s'.bsup_end then none else some (nextblock s'))
  else some (s, some (nextblock s))

/-- `bfs_write` calls itself again after it has moved the file or compacted the file system; the
second argument of the fuel is how often it may. -/
def bfs_write : Nat → Fs → Nat → Nat → Bool → List UInt8 → Option Outcome
  | 0, _, _, _, _, _ => none
  | fuel + 1, s, i, uio_offset, append, data => if data = [] then some (none, s)
    else if (s.getinode i).d_ino = 0 then some (some .EINVAL, s) else if (s.getinode i).d_sblock = 0 then
      (findBlock s).bind fun r =>
        match r.2 with
        | none => some (some .ENOSPC, r.1)
        | some newblock =>
          let s := r.1
          let dir := { s.getinode i with
            d_sblock := newblock
            d_eblock := newblock + uio_offset / BFS_BSIZE
            d_eoffset := newblock * BFS_BSIZE + uio_offset - 1 }
          let offset := newblock * BFS_BSIZE + uio_offset
          if offset + data.length > s.bsup_end then
            if s.bsup_compacted then some (some .ENOSPC, s)
            else (bfs_compact s).bind fun s' => bfs_write fuel s' i uio_offset append data
          else
            (writeData s i dir 0 (newblock * BFS_BSIZE - 1) offset (some i) data).map fun s =>
              (none, s)
    else
      let dir := s.getinode i
      let offset := if append then dir.d_eoffset + 1 else dir.d_sblock * BFS_BSIZE + uio_offset
      if offset + data.length > dir.d_eoffset ∧ s.bsup_lastfile ≠ some i then
        match bfs_filetoend 2 s dir i with
        | none => none
        | some (some e, s') => some (some e, s')
        | some (none, s') => bfs_write fuel s' i uio_offset append data
      else if offset + data.length > s.bsup_end then
        if s.bsup_compacted then some (some .ENOSPC, s)
        else (bfs_compact s).bind fun s' => bfs_write fuel s' i uio_offset append data
      else
        (writeData s i dir dir.d_eblock dir.d_eoffset offset s.bsup_lastfile data).map fun s =>
          (none, s)

/-- The loop of `bfs_read`, cut off at the last byte of the file. -/
def readLoop (d : Disk Block) (eoffset chunksize : Nat) : Nat → Nat → Nat → List UInt8
  | 0, _, _ => []
  | fuel + 1, offset, resid => if resid = 0 then [] else if offset ≤ eoffset then
      let buflen := min chunksize resid
      let buflen := if offset + buflen > eoffset then eoffset - offset + 1 else buflen
      readBytes d offset buflen ++ readLoop d eoffset chunksize fuel (offset + buflen) (resid - buflen)
    else []

def bfs_read (s : Fs) (i uio_offset resid : Nat) : List UInt8 :=
  let dir := s.getinode i
  if resid = 0 then []
  else if dir.d_sblock = 0 then []
  else readLoop s.disk dir.d_eoffset (min MAXBSIZE resid) resid
    (uio_offset + dir.d_sblock * BFS_BSIZE) resid

end Svr42.BfsFile
