import Svr42.BitmapWords
import Svr42.SegModel

/-! Locking pages in memory: `segvn_lockop`, `as_ctl`, `bt_range`, and `memcntl` with its clean-up. Segments start at pages and are whole
pages long, so addresses and sizes are counted in pages from `as_ctl` on. -/

namespace Svr42.Mlock
open Function Bitmap

/-- A sum of page numbers, of which there are as many as fit in 32 bits less the page offset. -/
def addp (a b : Nat) : Nat := (a + b) % 0x100000

inductive Errno where
  | EINVAL
  | ENOMEM
  | EPERM
  | EAGAIN
  | EIO
deriving DecidableEq

open Errno

structure Vpage where
  vp_prot : Nat
  vp_pplock : Bool

/-- `struct segvn_data`; `shared` if the type is `MAP_SHARED`. -/
structure Svd where
  shared : Bool
  prot : Nat
  pageprot : Bool
  vpage : Option (Nat → Vpage)

/-- A segment; the driver of the segments without `svd` is `segdev`. -/
structure Seg where
  s_base : Nat
  s_pages : Nat
  svd : Option Svd

def Seg.stop (seg : Seg) : Nat := seg.s_base + seg.s_pages

/-- `MC_LOCK` and `MC_UNLOCK` -/
inductive Op where
  | lock
  | unlock
deriving DecidableEq

/-- Whether the page can be brought into memory, and whether it can be locked there; whether the process may lock, and what `ublock`
answers. -/
structure Env where
  fault : Nat → Bool
  page_pp_lock : Nat → Bool
  pm_denied : Bool
  ublock : Option Errno

def SHARED : Nat := 0x10

def PRIVATE : Nat := 0x20

def pageprotOf (attr : Nat) : Nat := attr &&& 0xffffffcf

def sharedOf (attr : Nat) : Bool := decide (attr &&& SHARED ≠ 0)

/-! ### Segments -/

def Wants (attr : Nat) (vpp : Vpage) : Prop := attr = 0 ∨ vpp.vp_prot = pageprotOf attr

instance (attr : Nat) (vpp : Vpage) : Decidable (Wants attr vpp) :=
  inferInstanceAs (Decidable (_ ∨ _))

/-- The loop of `segvn_lockop`, from the page `i` of the segment on. -/
def pageLoop (env : Env) (attr : Nat) (op : Op) (base : Nat) :
    Nat → Nat → Nat → (Nat → Vpage) → Option Words → Option Errno × (Nat → Vpage) × Option Words
  | 0, _, _, vpage, lockmap => (none, vpage, lockmap)
  | n + 1, i, pos, vpage, lockmap =>
      if Wants attr (vpage i) ∧ op = .lock ∧ (vpage i).vp_pplock = false then
        if env.fault (base + i) = false then (some EIO, vpage, lockmap)
        else if env.page_pp_lock (base + i) = false then (some .EAGAIN, vpage, lockmap)
        else
          pageLoop env attr op base n (i + 1) (pos + 1)
            (update vpage i { vpage i with vp_pplock := true })
            (lockmap.map fun map => btSet map pos)
      else if Wants attr (vpage i) ∧ op = .unlock ∧ (vpage i).vp_pplock = true then
        pageLoop env attr op base n (i + 1) (pos + 1)
          (update vpage i { vpage i with vp_pplock := false }) lockmap
      else pageLoop env attr op base n (i + 1) (pos + 1) vpage lockmap

/-- The segment has the type and, if it has one protection for all pages, the protection. -/
def SegWants (attr : Nat) (svd : Svd) : Prop :=
  attr = 0 ∨ svd.shared = sharedOf attr ∧ (svd.pageprot = false → svd.prot = pageprotOf attr)

instance (attr : Nat) (svd : Svd) : Decidable (SegWants attr svd) :=
  inferInstanceAs (Decidable (_ ∨ _))

def segvn_vpage (svd : Svd) : Svd :=
  { svd with pageprot := true, vpage := some fun _ => ⟨svd.prot, false⟩ }

def segvn_lockop (env : Env) (base : Nat) (svd : Svd) (addr len attr : Nat) (op : Op)
    (lockmap : Option Words) (pos : Nat) : Option Errno × Svd × Option Words :=
  if ¬ SegWants attr svd then (none, svd, lockmap)
  else
    match svd.vpage with
    | some vpage =>
        let r := pageLoop env attr op base len (addr - base) pos vpage lockmap
        (r.1, { svd with vpage := some r.2.1 }, r.2.2)
    | none =>
        if op = .lock then
          let r := pageLoop env attr op base len (addr - base) pos
            (fun _ => ⟨svd.prot, false⟩) lockmap
          (r.1, { segvn_vpage svd with vpage := some r.2.1 }, r.2.2)
        else (none, svd, lockmap)

/-- `(*seg->s_ops->lockop)` -/
def lockop (env : Env) (seg : Seg) (addr len attr : Nat) (op : Op) (lockmap : Option Words) (pos : Nat) :
    Option Errno × Seg × Option Words :=
  match seg.svd with
  | none => (none, seg, lockmap)
  | some svd =>
      let r := segvn_lockop env seg.s_base svd addr len attr op lockmap pos
      (r.1, { seg with svd := some r.2.1 }, r.2.2)

/-! ### Address spaces -/

/-- The loop of `as_ctl` from the segment of `raddr` on. After the last segment comes the first, which never starts at `raddr`. -/
def ctlLoop (env : Env) (attr : Nat) (op : Op) (pos : Nat) :
    List Seg → Nat → Nat → Option Words → Option Errno × List Seg × Option Words
  | [], _, _, lockmap => (some .ENOMEM, [], lockmap)
  | seg :: segs, raddr, rsize, lockmap =>
      let ssize := if addp raddr rsize > seg.stop then seg.stop - raddr else rsize
      let r := lockop env seg raddr ssize attr op lockmap pos
      if op = .lock ∧ r.1 ≠ none then (r.1, r.2.1 :: segs, r.2.2)
      else if rsize - ssize = 0 then (none, r.2.1 :: segs, r.2.2)
      else if segs.head?.map Seg.s_base ≠ some (raddr + ssize) then
        (some .ENOMEM, r.2.1 :: segs, r.2.2)
      else
        let t := ctlLoop env attr op pos segs (raddr + ssize) (rsize - ssize) r.2.2
        (t.1, r.2.1 :: t.2.1, t.2.2)

/-- `as_ctl` for a range, once `as_segat` has found the first segment. -/
def ctlRange (env : Env) (attr : Nat) (op : Op) (addr size : Nat) (lock_map : Option Words) (pos : Nat) :
    List Seg → Option Errno × List Seg × Option Words
  | [] => (some .ENOMEM, [], lock_map)
  | seg :: segs =>
      if seg.s_base ≤ addr ∧ addr < seg.stop then
        if size = 0 then (none, seg :: segs, lock_map)
        else ctlLoop env attr op pos (seg :: segs) addr size lock_map
      else
        let t := ctlRange env attr op addr size lock_map pos segs
        (t.1, seg :: t.2.1, t.2.2)

/-- `as_ctl` for `MC_LOCKAS` and `MCL_CURRENT`. -/
def lockAll (env : Env) (attr : Nat) :
    List Seg → Option Words → Nat → Option Errno × List Seg × Option Words
  | [], lock_map, _ => (none, [], lock_map)
  | seg :: segs, lock_map, pos =>
      let r := lockop env seg seg.s_base seg.s_pages attr .lock lock_map pos
      if r.1 ≠ none then (r.1, r.2.1 :: segs, r.2.2)
      else
        let t := lockAll env attr segs r.2.2 (pos + seg.s_pages)
        (t.1, r.2.1 :: t.2.1, t.2.2)

/-! ### The clean-up -/

def scanTo (bit : Nat → Bool) (nbits : Nat) : Nat → Nat → Nat
  | 0, inx => inx
  | fuel + 1, inx => if inx < nbits ∧ bit inx = false then scanTo bit nbits fuel (inx + 1) else inx

/-- `*pos1` and `*pos2` -/
def bt_range (bitmap : Words) (pos1 nbits : Nat) : Option (Nat × Nat) :=
  let inx := scanTo (btTest bitmap) nbits nbits pos1
  if inx = nbits then none
  else some (inx, scanTo (fun i => !btTest bitmap i) nbits nbits inx - 1)

/-- The loop of `mem_unlock`, with a bound on its steps. -/
def unlockLoop (env : Env) (attr : Nat) (bitmap : Words) (addr nbits : Nat) :
    Nat → Nat → List Seg → List Seg
  | 0, _, segs => segs
  | fuel + 1, pos1, segs =>
      match bt_range bitmap pos1 nbits with
      | none => segs
      | some (p1, p2) =>
          unlockLoop env attr bitmap addr nbits fuel (p2 + 1)
            (ctlRange env attr .unlock (addp addr p1) (p2 - p1 + 1) none 0 segs).2.1

def mem_unlock (env : Env) (attr : Nat) (bitmap : Words) (addr position nbits : Nat) (segs : List Seg) :
    List Seg :=
  unlockLoop env attr bitmap addr nbits (nbits + 1) position segs

/-- The clean-up of `MC_LOCKAS`: for each segment its bits, from `inx` to `npages`. -/
def unlockAll (env : Env) (attr : Nat) (bitmap : Words) :
    List (Nat × Nat) → Nat → List Seg → List Seg
  | [], _, segs => segs
  | (s_base, s_pages) :: layout, inx, segs =>
      unlockAll env attr bitmap layout (inx + s_pages)
        (mem_unlock env attr bitmap s_base inx (inx + s_pages) segs)

/-! ### `memcntl` -/

structure Memcntla where
  addr : Nat
  len : Nat
  /-- `MC_LOCKAS`, else `MC_LOCK` -/
  lockas : Bool
  arg : Nat
  attr : Nat
  mask : Nat

/-- What can go wrong before any page is touched. -/
def memcntlChecks (env : Env) (uap : Memcntla) : Option Errno :=
  if uap.mask ≠ 0 then some .EINVAL
  else if uap.lockas ∧ (uap.addr ≠ 0 ∨ uap.len ≠ 0) then some .EINVAL
  else if uap.lockas = false ∧ uap.addr % 0x1000 ≠ 0 then some .EINVAL
  else if uap.lockas = false ∧ ¬ Svr42.Seg.validUsrRange uap.addr uap.len then some .ENOMEM
  else if uap.attr &&& 0x37 ≠ uap.attr then some .EINVAL
  else if uap.attr &&& SHARED ≠ 0 ∧ uap.attr &&& PRIVATE ≠ 0 then some .EINVAL
  else if env.pm_denied then some .EPERM
  else if uap.lockas then
    if uap.arg &&& 0xfffffffc ≠ 0 ∨ uap.arg = 0 then some .EINVAL else env.ublock
  else none

def userAttr (attr : Nat) : Nat := if attr ≠ 0 then attr ||| 0x8 else attr

/-- An address space. -/
structure As where
  a_segs : List Seg
  a_paglck : Bool

/-- The error of `memcntl`, and the address space. -/
def memcntl (env : Env) (uap : Memcntla) (as : As) : Option Errno × As :=
  match memcntlChecks env uap with
  | some error => (some error, as)
  | none =>
      let attr := userAttr uap.attr
      if uap.lockas then
        if as.a_segs = [] then (none, as)
        else
          let paglck := if uap.arg &&& 2 ≠ 0 then true else as.a_paglck
          if uap.arg &&& 1 = 0 then (none, { as with a_paglck := paglck })
          else
            let r := lockAll env attr as.a_segs (some fun _ => 0) 0
            match r.1 with
            | none => (none, { a_segs := r.2.1, a_paglck := paglck })
            | some error =>
                (some error,
                  { a_segs := unlockAll env attr (r.2.2.getD fun _ => 0)
                      (r.2.1.map fun seg => (seg.s_base, seg.s_pages)) 0 r.2.1
                    a_paglck := paglck })
      else
        let raddr := uap.addr / 0x1000
        let npages := Svr42.Seg.pageRound (Svr42.Seg.add uap.addr uap.len) / 0x1000 - raddr
        let r := ctlRange env attr .lock raddr npages (some fun _ => 0) 0 as.a_segs
        match r.1 with
        | none => (none, { as with a_segs := r.2.1 })
        | some error =>
            (some error,
              { as with
                a_segs := mem_unlock env attr (r.2.2.getD fun _ => 0) raddr 0 npages r.2.1 })

end Svr42.Mlock
