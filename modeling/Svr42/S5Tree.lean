import Svr42.S5Disk

/-! The block tree of an S5 inode: direct blocks, and indirect blocks of three levels. -/

namespace Svr42.S5.Tree
open Function List

def NADDR : Nat := 13

def NDADDR : Nat := 10

/-- The types of files that have blocks. -/
inductive VType
  | VREG | VDIR | VLNK
  deriving DecidableEq

/-- An inode with its file system. `iMap` is the array that `s5allocmap` builds; `iSync` is `ISYNC`
in `i_flag`. -/
structure Inode where
  iAddr : Nat → Nat
  iMap : Option (Nat → Nat)
  iSize : Nat
  vType : VType
  iSync : Bool
  fs : State Unit

/-- A place in the tree: an entry of `i_addr` and the indices in the indirect blocks from there, the
last one first. -/
structure Place where
  entry : Nat
  indices : List Nat
  deriving DecidableEq

def depth (entry : Nat) : Nat := entry - 9

/-- The place is there; `nindir` is the number of pointers in a block. -/
structure Place.Valid (nindir : Nat) (q : Place) : Prop where
  entry : q.entry < NADDR
  length : q.indices.length ≤ depth q.entry
  indices : ∀ i ∈ q.indices, i < nindir

def Place.Leaf (q : Place) : Prop := q.indices.length = depth q.entry

def nodeAt (ip : Inode) (entry : Nat) : List Nat → Nat
  | [] => ip.iAddr entry
  | i :: indices =>
      if nodeAt ip entry indices = 0 then 0 else ptr (ip.fs.block (nodeAt ip entry indices)) i

def node (ip : Inode) (q : Place) : Nat := nodeAt ip q.entry q.indices

/-- The file system is idle, and the blocks of the tree are different ones that have been handed
out. -/
structure Sound (nindir : Nat) (ip : Inode) : Prop where
  idle : Idle ip.fs
  owned : ∀ q : Place, q.Valid nindir → node ip q ≠ 0 →
    ¬ badblock ip.fs (node ip q) ∧ ip.fs.taken (node ip q) = 1
  distinct : ∀ q q' : Place, q.Valid nindir → q'.Valid nindir → node ip q ≠ 0 →
    node ip q = node ip q' → q = q'

def setEntry (ip : Inode) (entry nb : Nat) : Inode :=
  { ip with iAddr := update ip.iAddr entry nb }

def setBap (ip : Inode) (inb i nb : Nat) : Inode :=
  { ip with fs := { ip.fs with
      block := update ip.fs.block inb (setPtr (ip.fs.block inb) i nb) } }

def store (ip : Inode) (q : Place) (nb : Nat) : Inode :=
  match q.indices with
  | [] => setEntry ip q.entry nb
  | i :: indices => setBap ip (nodeAt ip q.entry indices) i nb

/-- The new block `nb` in an inode whose file system has become `t`, with its content. -/
def filled (ip : Inode) (t : State Unit) (nb : Nat) (content : Fblk) : Inode :=
  { ip with fs := { t with block := update t.block nb content } }

variable {nindir nb i entry : Nat} {ip ip' : Inode} {q q' : Place} {indices : List Nat}
  {t : State Unit} {content : Fblk}

theorem Place.Valid.tail (h : Place.Valid nindir ⟨entry, i :: indices⟩) :
    Place.Valid nindir ⟨entry, indices⟩ where
  entry := h.entry
  length := Nat.le_of_succ_le h.length
  indices j hj := h.indices j (.tail i hj)

theorem Place.Valid.root (hentry : entry < NADDR) : Place.Valid nindir ⟨entry, []⟩ where
  entry := hentry
  length := Nat.zero_le _
  indices _ hi := absurd hi not_mem_nil

theorem nodeAt_same (haddr : ip'.iAddr = ip.iAddr) (hfs : ip'.fs = ip.fs) :
    nodeAt ip' entry indices = nodeAt ip entry indices := by
  induction indices with
  | nil => exact congrFun haddr entry
  | cons i indices ih => rw [nodeAt, nodeAt, ih, hfs]

theorem nodeAt_cons (hne : nodeAt ip entry indices ≠ 0) :
    nodeAt ip entry (i :: indices) = ptr (ip.fs.block (nodeAt ip entry indices)) i :=
  if_neg hne

theorem nodeAt_hole (hzero : nodeAt ip entry indices = 0) : nodeAt ip entry (i :: indices) = 0 :=
  if_pos hzero

theorem store_root : store ip ⟨entry, []⟩ nb = setEntry ip entry nb := rfl

theorem store_block : store ip ⟨entry, i :: indices⟩ nb = setBap ip (nodeAt ip entry indices) i nb := rfl

theorem nodeAt_congr (haddr : ip'.iAddr = ip.iAddr)
    (hblock : ∀ q : Place, q.Valid nindir → node ip q ≠ 0 →
      ip'.fs.block (node ip q) = ip.fs.block (node ip q)) (hv : Place.Valid nindir ⟨entry, indices⟩) :
    nodeAt ip' entry indices = nodeAt ip entry indices := by
  induction indices with
  | nil => exact congrFun haddr entry
  | cons i indices ih =>
    have hrest := ih hv.tail
    by_cases hzero : nodeAt ip entry indices = 0
    · rw [nodeAt_hole hzero, nodeAt_hole (hrest.trans hzero)]
    · have hsame := hblock ⟨entry, indices⟩ hv.tail hzero
      rw [nodeAt_cons hzero, nodeAt_cons (by rw [hrest]; exact hzero), hrest]
      exact congrArg (fun c => ptr c i) hsame

theorem Sound.not_free (hs : Sound nindir ip) (hv : q.Valid nindir) (hne : node ip q ≠ 0)
    (hfree : IsFree ip.fs nb) : node ip q ≠ nb := by
  rintro rfl
  have hone := (hs.owned q hv hne).2
  rw [hfree.2] at hone
  cases hone

/-! ### A hole is filled -/

/-- A block that has just been allocated, for the hole at `q`. -/
structure Fills (nindir : Nat) (ip : Inode) (q : Place) (t : State Unit) (nb : Nat)
    (content : Fblk) : Prop where
  valid : q.Valid nindir
  hole : node ip q = 0
  parent : ∀ i indices, q.indices = i :: indices → nodeAt ip q.entry indices ≠ 0
  allocates : Allocates ip.fs t (some nb)
  nonzero : nb ≠ 0
  content : ¬ q.Leaf → content = cleared

namespace Fills

section

variable (h : Fills nindir ip q t nb content)
include h

theorem free : IsFree ip.fs nb ∧ t.taken = update ip.fs.taken nb 1 := h.allocates.free

theorem fresh (hs : Sound nindir ip) (hv : Place.Valid nindir ⟨entry, indices⟩)
    (hne : nodeAt ip entry indices ≠ 0) : nodeAt ip entry indices ≠ nb :=
  hs.not_free hv hne h.free.1

theorem block_of_ne {b : Nat} (hb : b ≠ nb) : (filled ip t nb content).fs.block b = ip.fs.block b :=
  (update_of_ne hb _ _).trans (congrFun h.allocates.block b)

theorem nodeAt_filled (hs : Sound nindir ip) (hv : Place.Valid nindir ⟨entry, indices⟩) :
    nodeAt (filled ip t nb content) entry indices = nodeAt ip entry indices :=
  nodeAt_congr rfl (fun _ hv' hne => h.block_of_ne (h.fresh hs hv' hne)) hv

end

theorem iAddr_eq : (store (filled ip t nb content) q nb).iAddr entry =
    if q = ⟨entry, []⟩ then nb else ip.iAddr entry := by
  obtain ⟨e, indices⟩ := q
  cases indices with
  | nil =>
    rw [store_root]
    by_cases he : entry = e
    · rw [he, if_pos rfl]
      exact update_self _ _ _
    · rw [if_neg fun heq => he (Place.mk.inj heq).1.symm]
      exact update_of_ne he _ _
  | cons i indices =>
    rw [store_block, if_neg fun heq => cons_ne_nil i indices (Place.mk.inj heq).2]
    rfl

section

variable (h : Fills nindir ip q t nb content) (hs : Sound nindir ip)
include h hs

theorem ptr_eq (hv : Place.Valid nindir ⟨entry, indices⟩) (hne : nodeAt ip entry indices ≠ 0) :
    ptr ((store (filled ip t nb content) q nb).fs.block (nodeAt ip entry indices)) i =
      if q = ⟨entry, i :: indices⟩ then nb else ptr (ip.fs.block (nodeAt ip entry indices)) i := by
  have hfresh := h.fresh hs hv hne
  obtain ⟨e, js⟩ := q
  cases js with
  | nil =>
    rw [store_root, if_neg fun heq => cons_ne_nil i indices (Place.mk.inj heq).2.symm]
    exact congrArg (fun c => ptr c i) (h.block_of_ne hfresh)
  | cons j js =>
    have hparent := h.parent j js rfl
    have hpv : Place.Valid nindir ⟨e, js⟩ := h.valid.tail
    rw [store_block, h.nodeAt_filled hs hpv]
    show ptr (update (filled ip t nb content).fs.block (nodeAt ip e js) _ _) i = _
    by_cases hsame : nodeAt ip entry indices = nodeAt ip e js
    · have heq := Place.mk.inj (hs.distinct ⟨entry, indices⟩ ⟨e, js⟩ hv hpv hne hsame)
      rw [heq.1, heq.2, update_self, ptr_setPtr, h.block_of_ne (h.fresh hs hpv hparent)]
      by_cases hi : i = j
      · rw [if_pos hi, if_pos (by rw [hi])]
      · rw [if_neg hi, if_neg fun h => hi (cons.inj (Place.mk.inj h).2).1.symm]
    · rw [update_of_ne hsame, h.block_of_ne hfresh, if_neg]
      intro heq
      obtain ⟨rfl, hcons⟩ := Place.mk.inj heq
      exact hsame (by rw [(cons.inj hcons).2])

theorem ptr_new (hleaf : ¬ q.Leaf) : ptr ((store (filled ip t nb content) q nb).fs.block nb) i = 0 := by
  have hnew : (filled ip t nb content).fs.block nb = cleared :=
    (update_self _ _ _).trans (h.content hleaf)
  obtain ⟨e, js⟩ := q
  cases js with
  | nil =>
    rw [store_root]
    show ptr ((filled ip t nb content).fs.block nb) i = 0
    rw [hnew, ptr_cleared]
  | cons j js =>
    have hpv : Place.Valid nindir ⟨e, js⟩ := h.valid.tail
    rw [store_block, h.nodeAt_filled hs hpv]
    show ptr (update (filled ip t nb content).fs.block (nodeAt ip e js) _ nb) i = 0
    rw [update_of_ne (h.fresh hs hpv (h.parent j js rfl)).symm, hnew, ptr_cleared]

/-- The tree is the same but for the hole. -/
theorem node_eq (hv : q'.Valid nindir) :
    node (store (filled ip t nb content) q nb) q' = if q' = q then nb else node ip q' := by
  obtain ⟨entry, indices⟩ := q'
  unfold node
  induction indices with
  | nil =>
    rw [nodeAt, iAddr_eq]
    by_cases heq : q = ⟨entry, []⟩
    · rw [if_pos heq, if_pos heq.symm]
    · rw [if_neg heq, if_neg (Ne.symm heq)]
      rfl
  | cons i indices ih =>
    have hrest := ih hv.tail
    by_cases hq : (⟨entry, indices⟩ : Place) = q
    · have hleaf : ¬ q.Leaf := by
        intro hleaf
        have hlength := hv.length
        rw [← hq] at hleaf
        unfold Place.Leaf at hleaf
        rw [length_cons] at hlength
        dsimp only at hleaf hlength
        omega
      have hne : (⟨entry, i :: indices⟩ : Place) ≠ q := by
        rw [← hq]
        intro heq
        have hlength := congrArg length (Place.mk.inj heq).2
        rw [length_cons] at hlength
        omega
      have hhole : nodeAt ip entry indices = 0 := by
        have hole := h.hole
        rw [← hq] at hole
        exact hole
      rw [if_pos hq] at hrest
      rw [if_neg hne, nodeAt_hole hhole, nodeAt_cons (by rw [hrest]; exact h.nonzero), hrest]
      exact h.ptr_new hs hleaf
    · rw [if_neg hq] at hrest
      by_cases hzero : nodeAt ip entry indices = 0
      · have hne : (⟨entry, i :: indices⟩ : Place) ≠ q := by
          intro heq
          refine h.parent i indices (by rw [← heq]) ?_
          rw [← heq]
          exact hzero
        rw [if_neg hne, nodeAt_hole hzero, nodeAt_hole (hrest.trans hzero)]
      · rw [nodeAt_cons (by rw [hrest]; exact hzero), hrest, h.ptr_eq hs hv.tail hzero,
          nodeAt_cons hzero]
        by_cases heq : q = ⟨entry, i :: indices⟩
        · rw [if_pos heq, if_pos heq.symm]
        · rw [if_neg heq, if_neg (Ne.symm heq)]

end

theorem taken_eq (b : Nat) : (store (filled ip t nb content) q nb).fs.taken b = t.taken b := by
  obtain ⟨e, js⟩ := q
  cases js with
  | nil => rfl
  | cons j js => rfl

section

variable (h : Fills nindir ip q t nb content)
include h

theorem bad_iff (b : Nat) : badblock (store (filled ip t nb content) q nb).fs b ↔ badblock ip.fs b := by
  obtain ⟨e, js⟩ := q
  cases js with
  | nil => exact h.allocates.bad b
  | cons j js => exact h.allocates.bad b

theorem good : ¬ badblock ip.fs nb := h.free.1.1

theorem idle (hs : Sound nindir ip) : Idle (store (filled ip t nb content) q nb).fs := by
  have hnew : Idle (filled ip t nb content).fs :=
    h.allocates.idle.write (fun hbad => h.good ((h.allocates.bad nb).mp hbad))
      (by rw [h.free.2, update_self]) content
  obtain ⟨e, js⟩ := q
  cases js with
  | nil => exact hnew
  | cons j js =>
    have hpv : Place.Valid nindir ⟨e, js⟩ := h.valid.tail
    have hparent := h.parent j js rfl
    obtain ⟨hgood, htaken⟩ := hs.owned ⟨e, js⟩ hpv hparent
    rw [store_block, h.nodeAt_filled hs hpv]
    refine hnew.write (fun hbad => hgood ((h.allocates.bad _).mp hbad)) ?_ _
    show t.taken (nodeAt ip e js) = 1
    rw [h.free.2, update_of_ne (h.fresh hs hpv hparent)]
    exact htaken

theorem sound (hs : Sound nindir ip) : Sound nindir (store (filled ip t nb content) q nb) where
  idle := h.idle hs
  owned q' hv hne := by
    rw [h.node_eq hs hv] at hne ⊢
    rw [h.bad_iff, taken_eq, h.free.2]
    by_cases heq : q' = q
    · rw [if_pos heq]
      exact ⟨h.good, update_self _ _ _⟩
    · rw [if_neg heq] at hne ⊢
      rw [update_of_ne (hs.not_free hv hne h.free.1)]
      exact hs.owned q' hv hne
  distinct q₁ q₂ hv₁ hv₂ hne hsame := by
    rw [h.node_eq hs hv₁] at hne hsame
    rw [h.node_eq hs hv₂] at hsame
    by_cases heq₁ : q₁ = q
    · by_cases heq₂ : q₂ = q
      · exact heq₁.trans heq₂.symm
      · rw [if_pos heq₁, if_neg heq₂] at hsame
        exact absurd hsame.symm (hs.not_free hv₂ (by rw [← hsame]; exact h.nonzero) h.free.1)
    · rw [if_neg heq₁] at hne hsame
      split_ifs at hsame with heq₂
      · exact absurd hsame (hs.not_free hv₁ hne h.free.1)
      · exact hs.distinct q₁ q₂ hv₁ hv₂ hne hsame

end

end Fills

/-- The tree and its blocks are the same in a file system that has come back to what it was. -/
theorem Sound.congr (hs : Sound nindir ip) (haddr : ip'.iAddr = ip.iAddr) (hidle : Idle ip'.fs)
    (hblock : ∀ q : Place, q.Valid nindir → node ip q ≠ 0 →
      ip'.fs.block (node ip q) = ip.fs.block (node ip q))
    (hbad : ∀ b, badblock ip'.fs b ↔ badblock ip.fs b)
    (htaken : ∀ q : Place, q.Valid nindir → node ip q ≠ 0 → ip'.fs.taken (node ip q) = 1) :
    Sound nindir ip' ∧ ∀ q : Place, q.Valid nindir → node ip' q = node ip q := by
  have hnode : ∀ q : Place, q.Valid nindir → node ip' q = node ip q :=
    fun q hv => nodeAt_congr haddr hblock hv
  refine ⟨⟨hidle, fun q hv hne => ?_, fun q q' hv hv' hne hsame => ?_⟩, hnode⟩
  · rw [hnode q hv] at hne ⊢
    rw [hbad]
    exact ⟨(hs.owned q hv hne).1, htaken q hv hne⟩
  · rw [hnode q hv] at hne hsame
    rw [hnode q' hv'] at hsame
    exact hs.distinct q q' hv hv' hne hsame

end Svr42.S5.Tree
