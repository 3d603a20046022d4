import Mathlib.Data.List.FinRange
import Svr42.RingList
import Svr42.RunExec

/-! The directory name lookup cache: `dnlc_init`, `dnlc_enter`, `dnlc_lookup`, `dnlc_remove` and the
purges. -/

namespace Svr42.Dnlc
open Function

def ncNAMLEN : Nat := 15

/-- What there are links to: `nc_lru`, the heads `nc_hash[h]` and the entries `ncache[i]`. -/
inductive Ncp (n : Nat) where
  | lru
  | hash (h : Nat)
  | entry (i : Fin n)
  deriving DecidableEq, Repr

/-- A credential pointer: `NOCRED`, `ANYCRED` or one to a credential. -/
inductive CredPtr (Cred : Type) where
  | nocred
  | anycred
  | cred (c : Cred)
  deriving DecidableEq, Repr

/-- A C string, with the byte in front of it. -/
structure CString where
  front : BitVec 8
  chars : List (BitVec 8)
  deriving DecidableEq, Repr

def CString.strlen (name : CString) : Nat := name.chars.length

def CString.get (name : CString) (k : Int) : BitVec 8 :=
  if k < 0 then name.front else name.chars.getD k.toNat 0

structure Ncache (Vnode Cred : Type) where
  vp : Option Vnode
  dp : Option Vnode
  namlen : Nat
  name : Nat → BitVec 8
  cred : CredPtr Cred
  lid : BitVec 32

/-- What the kernel is built with: where vnodes are, the size of the hash table, and whether MAC is
installed. -/
structure Kernel (Vnode : Type) where
  addr : Vnode → BitVec 32
  nchashSize : Nat
  nchashSize_pos : 0 < nchashSize
  macInstalled : Bool

structure Dnlc (n : Nat) (Vnode Cred Vfs : Type) where
  doingcache : Bool
  hashNext : Ncp n → Ncp n
  hashPrev : Ncp n → Ncp n
  lruNext : Ncp n → Ncp n
  lruPrev : Ncp n → Ncp n
  cache : Ncp n → Ncache Vnode Cred
  vCount : Vnode → Int
  vVfsp : Vnode → Vfs
  crRef : CredPtr Cred → Int

variable {n : Nat} {Vnode Cred Vfs : Type}

/-- `NC_HASH` -/
def ncHash (k : Kernel Vnode) (name : CString) (vp : Vnode) : Nat :=
  (((name.get 0).signExtend 32 + (name.get (name.strlen - 1)).signExtend 32 +
      BitVec.ofNat 32 name.strlen + (k.addr vp).sshiftRight 8) &&&
    BitVec.ofNat 32 (k.nchashSize - 1)).toNat

def macUnequal (k : Kernel Vnode) (lid1 lid2 : BitVec 32) : Prop :=
  k.macInstalled = true ∧ lid1 ≠ lid2

instance (k : Kernel Vnode) (lid1 lid2 : BitVec 32) : Decidable (macUnequal k lid1 lid2) :=
  inferInstanceAs (Decidable (_ ∧ _))

/-! ### Links -/

def ncInshash (s : Dnlc n Vnode Cred Vfs) (ncp hp : Ncp n) : Dnlc n Vnode Cred Vfs :=
  { s with
    hashNext := update (update s.hashNext ncp (s.hashNext hp)) hp ncp
    hashPrev := update (update s.hashPrev ncp hp) (s.hashNext hp) ncp }

def ncRmhash (s : Dnlc n Vnode Cred Vfs) (ncp : Ncp n) : Dnlc n Vnode Cred Vfs :=
  { s with
    hashNext := update s.hashNext (s.hashPrev ncp) (s.hashNext ncp)
    hashPrev := update s.hashPrev (s.hashNext ncp) (s.hashPrev ncp) }

def ncInslru (s : Dnlc n Vnode Cred Vfs) (ncp2 ncp1 : Ncp n) : Dnlc n Vnode Cred Vfs :=
  { s with
    lruNext := update (update s.lruNext ncp1 ncp2) ncp2 (s.lruNext ncp1)
    lruPrev := update (update s.lruPrev (s.lruNext ncp1) ncp2) ncp2 ncp1 }

def ncRmlru (s : Dnlc n Vnode Cred Vfs) (ncp : Ncp n) : Dnlc n Vnode Cred Vfs :=
  { s with
    lruNext := update s.lruNext (s.lruPrev ncp) (s.lruNext ncp)
    lruPrev := update s.lruPrev (s.lruNext ncp) (s.lruPrev ncp) }

/-- `NULL_HASH` -/
def nullHash (s : Dnlc n Vnode Cred Vfs) (ncp : Ncp n) : Dnlc n Vnode Cred Vfs :=
  { s with
    hashNext := update s.hashNext ncp ncp
    hashPrev := update s.hashPrev ncp ncp }

def setCache (s : Dnlc n Vnode Cred Vfs) (ncp : Ncp n) (e : Ncache Vnode Cred) : Dnlc n Vnode Cred Vfs :=
  { s with cache := update s.cache ncp e }

section

variable [DecidableEq Vnode] [DecidableEq Cred]

def vnHold (s : Dnlc n Vnode Cred Vfs) (vp : Vnode) : Dnlc n Vnode Cred Vfs :=
  { s with vCount := update s.vCount vp (s.vCount vp + 1) }

def vnRele (s : Dnlc n Vnode Cred Vfs) (vp : Vnode) : Dnlc n Vnode Cred Vfs :=
  { s with vCount := update s.vCount vp (s.vCount vp - 1) }

/-- `if (vp != NULL) VN_RELE(vp)` -/
def releIf (s : Dnlc n Vnode Cred Vfs) (vp : Option Vnode) : Dnlc n Vnode Cred Vfs :=
  match vp with
  | none => s
  | some vp => vnRele s vp

def crholdIf (s : Dnlc n Vnode Cred Vfs) (cred : CredPtr Cred) : Dnlc n Vnode Cred Vfs :=
  if cred = .nocred then s
  else { s with crRef := update s.crRef cred (s.crRef cred + 1) }

def crfreeIf (s : Dnlc n Vnode Cred Vfs) (cred : CredPtr Cred) : Dnlc n Vnode Cred Vfs :=
  if cred = .nocred then s
  else { s with crRef := update s.crRef cred (s.crRef cred - 1) }

def zeroed : Ncache Vnode Cred :=
  { vp := none, dp := none, namlen := 0, name := fun _ => 0, cred := .nocred, lid := 0 }

/-- `n` is the number of entries there is memory for. -/
def dnlcInit (k : Kernel Vnode) (s : Dnlc n Vnode Cred Vfs) : Dnlc n Vnode Cred Vfs :=
  if n = 0 then { s with doingcache := false }
  else
    (List.range k.nchashSize).foldl (fun s h => nullHash s (.hash h))
      ((List.finRange n).foldl (fun s i => nullHash (ncInslru s (.entry i) .lru) (.entry i))
        { s with
          cache := fun _ => zeroed
          lruNext := update s.lruNext .lru .lru
          lruPrev := update s.lruPrev .lru .lru })

def Found (e : Ncache Vnode Cred) (dp : Vnode) (name : CString) (cred : CredPtr Cred) : Prop :=
  e.dp = some dp ∧ e.namlen = name.strlen ∧ (cred = .anycred ∨ e.cred = cred) ∧
    e.name 0 = name.get 0 ∧ ∀ k < name.strlen, e.name k = name.get k

instance (e : Ncache Vnode Cred) (dp : Vnode) (name : CString) (cred : CredPtr Cred) :
    Decidable (Found e dp name cred) :=
  inferInstanceAs (Decidable (_ ∧ _ ∧ _ ∧ _ ∧ _))

/-- `fuel` bounds the number of retries; `lid` is the level of the caller. -/
def dnlcSearch (k : Kernel Vnode) (dp : Vnode) (name : CString) (hash : Nat)
    (cred : CredPtr Cred) (lid : BitVec 32) :
    Nat → Dnlc n Vnode Cred Vfs → Option (Dnlc n Vnode Cred Vfs × Option (Ncp n))
  | 0, _ => none
  | fuel + 1, s =>
      (scan s.hashNext (.hash hash) (fun ncp => Found (s.cache ncp) dp name cred) (n + 1)
        (s.hashNext (.hash hash))).bind fun found =>
        match found with
        | none => some (s, none)
        | some ncp =>
            if (s.cache ncp).lid ≠ 0 ∧ macUnequal k (s.cache ncp).lid lid then
              dnlcSearch k dp name hash cred lid fuel
                (setCache s ncp { s.cache ncp with lid := 0 })
            else some (s, some ncp)

/-! ### `dnlc_enter` and `dnlc_lookup` -/

/-- The vnode, the name and the credential are put into the entry, and held. -/
def fill (s : Dnlc n Vnode Cred Vfs) (ncp : Ncp n) (dp : Vnode) (name : CString) (vp : Vnode)
    (cred : CredPtr Cred) (lid : BitVec 32) : Dnlc n Vnode Cred Vfs :=
  let e := s.cache ncp
  crholdIf
    (setCache (vnHold (vnHold s dp) vp) ncp
      { e with
        dp := some dp
        vp := some vp
        namlen := name.strlen
        name := fun k => if k < name.strlen then name.get k else e.name k
        lid := lid
        cred := cred }) cred

def releaseOld (s : Dnlc n Vnode Cred Vfs) (ncp : Ncp n) : Dnlc n Vnode Cred Vfs :=
  crfreeIf (releIf (releIf s (s.cache ncp).dp) (s.cache ncp).vp) (s.cache ncp).cred

def dnlcEnter (k : Kernel Vnode) (s : Dnlc n Vnode Cred Vfs) (dp : Vnode) (name : CString) (vp : Vnode)
    (cred : CredPtr Cred) (lid : BitVec 32) : Option (Dnlc n Vnode Cred Vfs) :=
  if s.doingcache = false then some s
  else if ncNAMLEN < name.strlen then some s
  else
    (dnlcSearch k dp name (ncHash k name dp) cred lid 2 s).map fun r =>
      if r.2.isSome then r.1 -- already cached
      else
        let s := r.1
        let ncp := s.lruNext .lru
        if ncp = .lru then s -- the LRU queue is empty
        else
          let s := releaseOld (ncRmhash (ncRmlru s ncp) ncp) ncp
          let s := fill s ncp dp name vp cred lid
          ncInshash (ncInslru s ncp (s.lruPrev .lru)) ncp (.hash (ncHash k name dp))

def dnlcLookup (k : Kernel Vnode) (s : Dnlc n Vnode Cred Vfs) (dp : Vnode) (name : CString)
    (cred : CredPtr Cred) (lid : BitVec 32) : Option (Dnlc n Vnode Cred Vfs × Option Vnode) :=
  if s.doingcache = false then some (s, none)
  else if ncNAMLEN < name.strlen then some (s, none)
  else
    (dnlcSearch k dp name (ncHash k name dp) cred lid 2 s).map fun r =>
      match r.2 with
      | none => (r.1, none)
      | some ncp =>
          let s := ncRmlru r.1 ncp
          let s := ncInslru s ncp (s.lruPrev .lru)
          if s.hashPrev ncp ≠ .hash (ncHash k name dp) then
            let s := ncRmhash s ncp
            (ncInshash s ncp (s.hashPrev (s.hashPrev ncp)), (s.cache ncp).vp)
          else (s, (s.cache ncp).vp)

/-! ### `dnlc_rm`, `dnlc_remove` and the purges -/

/-- `none` is a release of a null vnode. -/
def dnlcRm (s : Dnlc n Vnode Cred Vfs) (ncp : Ncp n) : Option (Dnlc n Vnode Cred Vfs) :=
  let e := s.cache ncp
  e.dp.bind fun dp => e.vp.map fun vp =>
    let s := ncRmhash (ncRmlru s ncp) ncp
    let s := crfreeIf (vnRele (vnRele s dp) vp) e.cred
    let s := setCache s ncp { e with dp := none, vp := none, cred := .nocred }
    nullHash (ncInslru s ncp .lru) ncp

/-- Entries are removed as long as `pick` finds one and `more` says so of the number removed, which
is returned. -/
def drain (pick : Dnlc n Vnode Cred Vfs → Option (Dnlc n Vnode Cred Vfs × Option (Ncp n)))
    (more : Int → Bool) :
    Nat → Dnlc n Vnode Cred Vfs → Int → Option (Dnlc n Vnode Cred Vfs × Int)
  | 0, _, _ => none
  | fuel + 1, s, count =>
      (pick s).bind fun r =>
        match r.2 with
        | none => some (r.1, count)
        | some ncp => (dnlcRm r.1 ncp).bind fun s =>
            if more (count + 1) then drain pick more fuel s (count + 1) else some (s, count + 1)

def firstLru (test : Dnlc n Vnode Cred Vfs → Ncp n → Bool) (s : Dnlc n Vnode Cred Vfs) :
    Option (Dnlc n Vnode Cred Vfs × Option (Ncp n)) :=
  (scan s.lruNext .lru (fun ncp => test s ncp = true) (n + 1) (s.lruNext .lru)).map fun found =>
    (s, found)

/-- The first entry of the first hash chain that has one; `none` is the panic over a null vnode. -/
def firstHashed (k : Kernel Vnode) (s : Dnlc n Vnode Cred Vfs) :
    Option (Dnlc n Vnode Cred Vfs × Option (Ncp n)) :=
  match (List.range k.nchashSize).find? fun h => s.hashNext (.hash h) ≠ .hash h with
  | none => some (s, none)
  | some h =>
      let ncp := s.hashNext (.hash h)
      if (s.cache ncp).dp = none ∨ (s.cache ncp).vp = none then none else some (s, some ncp)

def dnlcRemove (k : Kernel Vnode) (s : Dnlc n Vnode Cred Vfs) (dp : Vnode) (name : CString)
    (lid : BitVec 32) : Option (Dnlc n Vnode Cred Vfs) :=
  if s.doingcache = false then some s
  else if ncNAMLEN < name.strlen then some s
  else
    (drain (dnlcSearch k dp name (ncHash k name dp) .anycred lid 2) (fun _ => true) (n + 1) s 0).map
      Prod.fst

def dnlcPurge (k : Kernel Vnode) (s : Dnlc n Vnode Cred Vfs) : Option (Dnlc n Vnode Cred Vfs) :=
  if s.doingcache = false then some s
  else (drain (firstHashed k) (fun _ => true) (n + 1) s 0).map Prod.fst

def refersTo (vp : Vnode) (s : Dnlc n Vnode Cred Vfs) (ncp : Ncp n) : Bool :=
  decide ((s.cache ncp).dp = some vp ∨ (s.cache ncp).vp = some vp)

def dnlcPurgeVp (s : Dnlc n Vnode Cred Vfs) (vp : Vnode) : Option (Dnlc n Vnode Cred Vfs) :=
  if s.doingcache = false then some s
  else (drain (firstLru (refersTo vp)) (fun _ => true) (n + 1) s 0).map Prod.fst

def isOn [DecidableEq Vfs] (vfsp : Vfs) (s : Dnlc n Vnode Cred Vfs) (ncp : Ncp n) : Bool :=
  decide ((s.cache ncp).dp.map s.vVfsp = some vfsp ∨ (s.cache ncp).vp.map s.vVfsp = some vfsp)

def dnlcPurgeVfsp [DecidableEq Vfs] (s : Dnlc n Vnode Cred Vfs) (vfsp : Vfs) (count : Int) :
    Option (Dnlc n Vnode Cred Vfs × Int) :=
  if s.doingcache = false then some (s, 0)
  else drain (firstLru (isOn vfsp)) (fun done => count = 0 ∨ done < count) (n + 1) s 0

def dnlcPurge1 (s : Dnlc n Vnode Cred Vfs) : Option (Dnlc n Vnode Cred Vfs × Int) :=
  if s.doingcache = false then some (s, 0)
  else drain (firstLru fun s ncp => (s.cache ncp).dp.isSome) (fun _ => false) (n + 1) s 0

end

end Svr42.Dnlc
