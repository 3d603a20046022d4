import Mathlib.Data.Finmap

/-! The root directory of a boot file system (`bfs_subr.c`, `bfs_vnops.c`, and the `vn_` calls of
`vnode.c` that reach it): the directory entries, the inode slots with their link counts, and the
calls that create, link, rename and remove names. The outcome of every transfer to the device and
of every permission check is data of the call. File contents and times are left out. -/

namespace Svr42.BfsDir

inductive Errno
  | EPERM | ENOENT | EIO | ENXIO | EACCES | EBUSY | EEXIST | EXDEV | ENOTDIR | EISDIR | EINVAL
  | ENFILE | EROFS | ENOSYS | EAGAIN
  deriving DecidableEq, Repr

/-- The characters of a path component, without the null that ends it. -/
abbrev Name := List Char

def BFS_MAXFNLEN : Nat := 14

/-- The part of a name that `strncpy` stores and `strncmp` compares. -/
def Name.key (nm : Name) : Name := nm.take BFS_MAXFNLEN

/-- An entry of the root directory, empty when its inode number is zero. -/
structure Ldir where
  l_ino : Nat
  l_name : Name
  deriving DecidableEq, Repr

/-- An inode slot, without the extent and the attributes that no call here reads. -/
structure Dirent where
  d_ino : Nat
  va_nlink : Nat
  deriving DecidableEq, Repr

def BFSROOTINO : Nat := 2

def BFS_BSIZE : Nat := 512

def ldirSize : Nat := 16

/-- A mounted file system: slot `i` of `inodes` is inode `i + 2`, `ldirs` are the entries up to
the end that the root inode records, `d_sblock` and `d_eblock` the blocks of the root directory. -/
structure Bfs where
  inodes : List Dirent
  ldirs : List Ldir
  d_sblock : Nat
  d_eblock : Nat
  freedrents : Int
  deriving DecidableEq, Repr

inductive Vtype
  | VREG | VDIR | VCHR | VBLK | VFIFO
  deriving DecidableEq, Repr

inductive Vcexcl
  | NONEXCL | EXCL
  deriving DecidableEq, Repr

def v_type (vp : Nat) : Vtype := if vp = BFSROOTINO then .VDIR else .VREG

namespace Bfs

def d_eoffset (s : Bfs) : Nat := s.d_sblock * BFS_BSIZE + s.ldirs.length * ldirSize - 1

def getinode (s : Bfs) (ino : Nat) : Dirent := (s.inodes[ino - BFSROOTINO]?).getD ⟨0, 0⟩

def putinode (s : Bfs) (ino : Nat) (dir : Dirent) : Bfs :=
  { s with inodes := s.inodes.set (ino - BFSROOTINO) dir }

end Bfs

/-- The transfers of `bfs_dotsearch` count as one: the first error the device gives it, if any.
Those of the other calls stand one by one, in program order. -/
structure DirentIo where
  search : Option Errno
  getRoot : Option Errno
  write : Option Errno
  putRoot : Option Errno
  deriving DecidableEq, Repr

structure LookupIo where
  access : Option Errno
  search : Option Errno
  deriving DecidableEq, Repr

structure RemoveIo where
  access : Option Errno
  look : LookupIo
  getInode : Option Errno
  dirent : DirentIo
  putInode : Option Errno
  deriving DecidableEq, Repr

structure RenameIo where
  access : Option Errno
  look : LookupIo
  find : Option Errno
  remove : RemoveIo
  dirent : DirentIo
  deriving DecidableEq, Repr

structure LinkIo where
  access : Option Errno
  dirent : DirentIo
  getInode : Option Errno
  putInode : Option Errno
  deriving DecidableEq, Repr

/-- `openOld` is what `bfs_iaccess` and `bfs_truncate` say about a file that is there already. -/
structure CreateIo where
  find : Option Errno
  openOld : Option Errno
  access : Option Errno
  nextfile : Option Errno
  putInode : Option Errno
  dirent : DirentIo
  deriving DecidableEq, Repr

/-- The scan of `bfs_dotsearch` from entry `i` on: the inode number and the place of the entry
called `nm`, or number 0 and the first empty entry. The chunks that the code reads hold whole
entries and follow each other. -/
def scan (nm : Name) : Nat → Option Nat → List Ldir → Nat × Option Nat
  | _, eslot, [] => (0, eslot)
  | i, eslot, ld :: rest =>
    if ld.l_ino ≠ 0 ∧ ld.l_name.key = nm.key then (ld.l_ino, some i)
    else if ld.l_ino = 0 ∧ eslot = none then scan nm (i + 1) (some i) rest
    else scan nm (i + 1) eslot rest

def bfs_dotsearch (io : Option Errno) (s : Bfs) (nm : Name) : Except Errno (Nat × Option Nat) :=
  match io with
  | some e => .error e
  | none => .ok (scan nm 0 none s.ldirs)

def bfs_searchdir (io : Option Errno) (s : Bfs) (nm : Name) : Nat :=
  match bfs_dotsearch io s nm with
  | .error _ => 0
  | .ok r => r.1

def bfs_rmdirent (io : DirentIo) (s : Bfs) (nm : Name) : Option Errno × Bfs :=
  match bfs_dotsearch io.search s nm with
  | .error e => (some e, s)
  | .ok (ino, offset) =>
    match io.getRoot with
    | some e => (some e, s)
    | none =>
      match if ino ≠ 0 then offset else none with
      | none => (some .ENOENT, s)
      | some i =>
        match io.write with
        | some e => (some e, s)
        | none => (io.putRoot, { s with ldirs := s.ldirs.modify i fun ld => { ld with l_ino := 0 } })

def bfs_addirent (io : DirentIo) (s : Bfs) (nm : Name) (inode : Nat) : Option Errno × Bfs :=
  match bfs_dotsearch io.search s nm with
  | .error e => (some e, s)
  | .ok (ino, offset) =>
    if ino ≠ 0 then (some .EEXIST, s)
    else
      match io.getRoot with
      | some e => (some e, s)
      | none =>
        match offset with
        | some i =>
          match io.write with
          | some e => (some e, s)
          | none => (io.putRoot, { s with ldirs := s.ldirs.set i ⟨inode, nm.key⟩ })
        | none =>
          if s.d_eoffset + ldirSize < (s.d_eblock + 1) * BFS_BSIZE then
            match io.write with
            | some e => (some e, s)
            | none =>
              match io.putRoot with
              -- the entry lies past the end that the root inode on the disk still records
              | some e => (some e, s)
              | none => (none, { s with ldirs := s.ldirs ++ [⟨inode, nm.key⟩] })
          else (some .ENFILE, s)

def bfs_rendirent (io : DirentIo) (s : Bfs) (snm tnm : Name) : Option Errno × Bfs :=
  match bfs_dotsearch io.search s snm with
  | .error e => (some e, s)
  | .ok (ino, offset) =>
    match io.getRoot with
    | some e => (some e, s)
    | none =>
      match if ino ≠ 0 then offset else none with
      | none => (some .ENOENT, s)
      | some i =>
        match io.write with
        | some e => (some e, s)
        | none => (io.putRoot, { s with ldirs := s.ldirs.set i ⟨ino, tnm.key⟩ })

def bfs_nextfile (io : Option Errno) (s : Bfs) : Except Errno (Option Nat) :=
  match io with
  | some e => .error e
  | none => .ok (s.inodes.findIdx? fun dir => dir.d_ino = 0)

/-- The inode number of a slot, as an unsigned short; without a slot the offset stays that of
the superblock. -/
def BFS_OFF2INO : Option Nat → Nat
  | some i => (i + BFSROOTINO) % 65536
  | none => 65530

def bfs_lookup (io : LookupIo) (s : Bfs) (dvp : Nat) (nm : Name) : Except Errno Nat :=
  if v_type dvp ≠ .VDIR then .error .ENOTDIR
  else
    match io.access with
    | some e => .error e
    | none =>
      if nm = [] then .ok dvp
      else if nm = ['.', '.'] then .ok BFSROOTINO
      else if bfs_searchdir io.search s nm = 0 then .error .ENOENT
      else .ok (bfs_searchdir io.search s nm)

def nlinkDec (n : Nat) : Nat := (n + (1 <<< 32) - 1) % (1 <<< 32)

def nlinkInc (n : Nat) : Nat := (n + 1) % (1 <<< 32)

/-- Freeing the blocks and choosing another last file, and any compaction after it, change
neither names nor link counts and return no error. -/
def bfs_remove (io : RemoveIo) (s : Bfs) (vp : Nat) (nm : Name) : Option Errno × Bfs :=
  match io.access with
  | some e => (some e, s)
  | none =>
    match bfs_lookup io.look s vp nm with
    | .error e => (some e, s)
    | .ok rvp =>
      if v_type rvp = .VDIR then (some .EISDIR, s)
      else
        match io.getInode with
        | some e => (some e, s)
        | none =>
          match bfs_rmdirent io.dirent s nm with
          | (some e, s') => (some e, s')
          | (none, s') =>
            let dir := s.getinode rvp
            let dir' : Dirent :=
              ⟨if dir.va_nlink = 1 then 0 else dir.d_ino, nlinkDec dir.va_nlink⟩
            match io.putInode with
            | some e => (some e, s')
            | none =>
              if dir'.va_nlink ≥ 1 then (none, s'.putinode rvp dir')
              else (none, { s'.putinode rvp dir' with freedrents := s'.freedrents + 1 })

def bfs_rename (io : RenameIo) (s : Bfs) (sdvp : Nat) (snm : Name) (tdvp : Nat) (tnm : Name) :
    Option Errno × Bfs :=
  if sdvp ≠ tdvp then (some .EINVAL, s)
  else
    match io.access with
    | some e => (some e, s)
    | none =>
      if snm = ['.'] ∨ snm = ['.', '.'] then (some .EINVAL, s)
      else
        match bfs_lookup io.look s sdvp snm with
        | .error e => (some e, s)
        | .ok _ =>
          if bfs_searchdir io.find s tnm ≠ 0 then
            match bfs_remove io.remove s sdvp tnm with
            | (some e, s') => (some e, s')
            | (none, s') => bfs_rendirent io.dirent s' snm tnm
          else bfs_rendirent io.dirent s snm tnm

def bfs_link (io : LinkIo) (s : Bfs) (tdvp svp : Nat) (tnm : Name) : Option Errno × Bfs :=
  if v_type tdvp ≠ .VDIR then (some .ENOTDIR, s)
  else if v_type svp ≠ .VREG then (some .ENOSYS, s)
  else
    match io.access with
    | some e => (some e, s)
    | none =>
      match bfs_addirent io.dirent s tnm svp with
      | (some e, s') => (some e, s')
      | (none, s') =>
        match io.getInode with
        | some e => (some e, s')
        | none =>
          match io.putInode with
          | some e => (some e, s')
          | none =>
            let dir := s'.getinode svp
            (none, s'.putinode svp { dir with va_nlink := nlinkInc dir.va_nlink })

/-- The new inode goes to its slot before its name goes to the directory. Without a slot the
inode is written over the superblock. -/
def bfs_create (io : CreateIo) (s : Bfs) (writelock : Option Nat) (dvp : Nat) (fname : Name)
    (va_type : Vtype) (excl : Vcexcl) : Option Errno × Bfs :=
  if fname = [] then (some .EISDIR, s)
  else if v_type dvp ≠ .VDIR then (some .ENOTDIR, s)
  else if va_type ≠ .VREG then (some .ENOSYS, s)
  else
    let dir_off := bfs_searchdir io.find s fname
    if writelock ≠ none ∧ writelock ≠ some dir_off then (some .EBUSY, s)
    else if dir_off ≠ 0 then
      if excl = .NONEXCL then (io.openOld, s) else (some .EEXIST, s)
    else if s.freedrents ≤ 0 then (some .ENFILE, s)
    else
      match io.access with
      | some e => (some e, s)
      | none =>
        match bfs_nextfile io.nextfile s with
        | .error e => (some e, s)
        | .ok slot =>
          let d_ino := BFS_OFF2INO slot
          match io.putInode with
          | some e => (some e, s)
          | none =>
            match bfs_addirent io.dirent (s.putinode d_ino ⟨d_ino, 1⟩) fname d_ino with
            | (some e, s') => (some e, s')
            | (none, s') => (none, { s' with freedrents := s'.freedrents - 1 })

/-- What the path lookups of a `vn_` call meet, and what its own checks say (file system boundaries,
read-only mounts, access levels, locks). -/
structure VnIo where
  look : LookupIo
  toLook : LookupIo
  denied : Option Errno
  deriving DecidableEq, Repr

/-- The lookup of a last component whose directory is wanted: a missing entry is no error, an
empty component is. -/
def lookupParent (io : LookupIo) (s : Bfs) (nm : Name) : Option Errno :=
  if nm = [] then some .EINVAL
  else
    match bfs_lookup io s BFSROOTINO nm with
    | .error e => if e = .ENOENT then none else some e
    | .ok _ => none

def vn_remove (vn : VnIo) (io : RemoveIo) (s : Bfs) (fname : Name) : Option Errno × Bfs :=
  match lookupParent vn.look s fname with
  | some e => (some e, s)
  | none =>
    match bfs_lookup vn.look s BFSROOTINO fname with
    | .error _ => (some .ENOENT, s)
    | .ok vp =>
      if vp = BFSROOTINO then (some .EBUSY, s)
      else
        match vn.denied with
        | some e => (some e, s)
        | none => bfs_remove io s BFSROOTINO fname

def vn_rename (vn : VnIo) (io : RenameIo) (s : Bfs) (fnm tnm : Name) : Option Errno × Bfs :=
  match lookupParent vn.look s fnm with
  | some e => (some e, s)
  | none =>
    match bfs_lookup vn.look s BFSROOTINO fnm with
    | .error _ => (some .ENOENT, s)
    | .ok _ =>
      match lookupParent vn.toLook s tnm with
      | some e => (some e, s)
      | none =>
        match vn.denied with
        | some e => (some e, s)
        | none => bfs_rename io s BFSROOTINO fnm BFSROOTINO tnm

def vn_link (vn : VnIo) (io : LinkIo) (s : Bfs) (fnm tnm : Name) : Option Errno × Bfs :=
  match bfs_lookup vn.look s BFSROOTINO fnm with
  | .error e => (some e, s)
  | .ok fvp =>
    match lookupParent vn.toLook s tnm with
    | some e => (some e, s)
    | none =>
      match vn.denied with
      | some e => (some e, s)
      | none => bfs_link io s BFSROOTINO fvp tnm

/-- A call that is not exclusive and finds the root itself passes the null name on. -/
def vn_create (vn : VnIo) (io : CreateIo) (s : Bfs) (writelock : Option Nat) (pname : Name)
    (va_type : Vtype) (excl : Vcexcl) : Option Errno × Bfs :=
  match lookupParent vn.look s pname with
  | some e => (some e, s)
  | none =>
    match vn.denied with
    | some e => (some e, s)
    | none =>
      match bfs_lookup vn.look s BFSROOTINO pname with
      | .error _ => bfs_create io s writelock BFSROOTINO pname va_type excl
      | .ok vp =>
        if excl = .NONEXCL ∧ vp = BFSROOTINO then bfs_create io s writelock vp [] va_type excl
        else bfs_create io s writelock BFSROOTINO pname va_type excl

inductive Call
  | create (vn : VnIo) (io : CreateIo) (writelock : Option Nat) (nm : Name) (va_type : Vtype)
      (excl : Vcexcl)
  | link (vn : VnIo) (io : LinkIo) (fnm tnm : Name)
  | rename (vn : VnIo) (io : RenameIo) (fnm tnm : Name)
  | remove (vn : VnIo) (io : RemoveIo) (nm : Name)
  deriving DecidableEq, Repr

def Call.exec (s : Bfs) : Call → Option Errno × Bfs
  | .create vn io writelock nm va_type excl => vn_create vn io s writelock nm va_type excl
  | .link vn io fnm tnm => vn_link vn io s fnm tnm
  | .rename vn io fnm tnm => vn_rename vn io s fnm tnm
  | .remove vn io nm => vn_remove vn io s nm

/-- The file system that `mkfs` makes and `bfs_mount` counts: no more inodes than the sixteen
blocks of the root directory have room for entries, and the root with its two names. -/
def mkfs (files : Nat) : Bfs :=
  let files := if files > 512 then 512 else files
  let d_sblock := (512 + files * 64 + 511) / BFS_BSIZE
  { inodes := ⟨BFSROOTINO, 2⟩ :: List.replicate (files - 1) ⟨0, 0⟩
    ldirs := [⟨BFSROOTINO, ['.']⟩, ⟨BFSROOTINO, ['.', '.']⟩]
    d_sblock := d_sblock
    d_eblock := d_sblock + 15
    freedrents := ((files - 1 : Nat) : Int) }

end Svr42.BfsDir
