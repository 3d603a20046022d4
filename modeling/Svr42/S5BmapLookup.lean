import Svr42.S5Bmap

/-! Lookups by `bmap`: a read finds the block at the place of the logical block, a write fills that
place or leaves the file's blocks as they are. -/

namespace Svr42.S5.Tree
open Function List Option

variable {n nshift nb inb i bn levels sh entry lbn lbn' : Nat} {ip ip' ip₁ : Inode} {q q' : Place}
  {indices : List Nat} {t : State Unit} {content : Fblk} {r : Request} {allocOnly flush : Bool}
  {result : Except Nat Found × Inode}

/-! ### New blocks -/

structure SameHead (ip ip' : Inode) : Prop where
  iMap : ip'.iMap = ip.iMap
  iSize : ip'.iSize = ip.iSize
  vType : ip'.vType = ip.vType
  iSync : ip'.iSync = ip.iSync

/-- The blocks are where they were. -/
structure Same (n : Nat) (ip ip' : Inode) : Prop where
  sound : Sound n ip'
  head : SameHead ip ip'
  node : ∀ q : Place, q.Valid n → node ip' q = node ip q

def Above (q leaf : Place) : Prop :=
  q.entry = leaf.entry ∧ q.indices <:+ leaf.indices ∧ q.indices.length < leaf.indices.length

/-- The blocks are where they were; indirect blocks on the way to a leaf may be new. -/
structure Keeps (n : Nat) (leaf : Place) (ip ip' : Inode) : Prop where
  sound : Sound n ip'
  head : SameHead ip ip'
  node : ∀ q : Place, q.Valid n → ¬ Above q leaf → node ip' q = node ip q

/-- One hole is filled. -/
structure Grows (n : Nat) (ip : Inode) (q : Place) (nb : Nat) (ip' : Inode) : Prop where
  sound : Sound n ip'
  head : SameHead ip ip'
  nonzero : nb ≠ 0
  node : ∀ q' : Place, q'.Valid n → node ip' q' = if q' = q then nb else node ip q'

/-- A place that can be filled. -/
structure Hole (n : Nat) (ip : Inode) (q : Place) : Prop where
  valid : q.Valid n
  hole : node ip q = 0
  parent : ∀ i indices, q.indices = i :: indices → nodeAt ip q.entry indices ≠ 0

theorem SameHead.refl : SameHead ip ip := ⟨rfl, rfl, rfl, rfl⟩

theorem SameHead.trans (h : SameHead ip ip₁) (h' : SameHead ip₁ ip') : SameHead ip ip' where
  iMap := h'.iMap.trans h.iMap
  iSize := h'.iSize.trans h.iSize
  vType := h'.vType.trans h.vType
  iSync := h'.iSync.trans h.iSync

theorem Same.keeps (h : Same n ip ip') : Keeps n q ip ip' :=
  ⟨h.sound, h.head, fun q hv _ => h.node q hv⟩

theorem Same.refl (hs : Sound n ip) : Same n ip ip := ⟨hs, .refl, fun _ _ => rfl⟩

theorem Keeps.trans (h : Keeps n q ip ip₁) (h' : Keeps n q ip₁ ip') : Keeps n q ip ip' where
  sound := h'.sound
  head := h.head.trans h'.head
  node q hv hnot := (h'.node q hv hnot).trans (h.node q hv hnot)

theorem Place.Leaf.not_above (hleaf : q'.Leaf) (hv : q.Valid n) : ¬ Above q' q := by
  rintro ⟨hentry, -, hlt⟩
  have hle := hv.length
  rw [← hentry] at hle
  unfold Place.Leaf at hleaf
  omega

theorem Keeps.leaf (h : Keeps n q ip ip') (hv : q.Valid n) (hv' : q'.Valid n) (hleaf : q'.Leaf) :
    Tree.node ip' q' = Tree.node ip q' := h.node q' hv' (hleaf.not_above hv)

theorem Grows.keeps {leaf : Place} (h : Grows n ip q nb ip') (habove : Above q leaf) :
    Keeps n leaf ip ip' where
  sound := h.sound
  head := h.head
  node q' hv hnot := by
    rw [h.node q' hv, if_neg]
    rintro rfl
    exact hnot habove

theorem store_head (ip : Inode) (q : Place) (nb : Nat) : SameHead ip (store ip q nb) := by
  obtain ⟨e, js⟩ := q
  cases js with
  | nil => exact ⟨rfl, rfl, rfl, rfl⟩
  | cons j js => exact ⟨rfl, rfl, rfl, rfl⟩

theorem Fills.grows (h : Fills n ip q t nb content) (hs : Sound n ip) :
    Grows n ip q nb (store (filled ip t nb content) q nb) where
  sound := h.sound hs
  head := SameHead.trans (show SameHead ip (filled ip t nb content) from ⟨rfl, rfl, rfl, rfl⟩)
    (store_head _ q nb)
  nonzero := h.nonzero
  node _ hv := h.node_eq hs hv

theorem Sound.alloc_cases (hs : Sound n ip) :
    (∃ t, blkalloc ip.fs = (none, t) ∧ Same n ip { ip with fs := t }) ∨
    ∃ nb t, blkalloc ip.fs = (some nb, t) ∧ Allocates ip.fs t (some nb) ∧ nb ≠ 0 := by
  have halloc := blkalloc_allocates hs.idle
  cases hrun : blkalloc ip.fs with
  | mk answer t =>
    rw [hrun] at halloc
    cases answer with
    | none =>
      have hkept : Sound n { ip with fs := t } ∧
          ∀ q : Place, q.Valid n → node { ip with fs := t } q = node ip q :=
        hs.congr rfl halloc.idle (fun q _ _ => congrFun halloc.block _) halloc.bad
          fun q hv hne => (congrFun halloc.full _).trans (hs.owned q hv hne).2
      exact .inl ⟨t, rfl, hkept.1, ⟨rfl, rfl, rfl, rfl⟩, hkept.2⟩
    | some nb =>
      exact .inr ⟨nb, t, rfl, halloc, halloc.free.1.ne_zero hs.idle.inv.isize⟩

theorem Sound.undo (hs : Sound n ip) (halloc : Allocates ip.fs t (some nb)) :
    Same n ip { ip with fs := blkfree t nb } := by
  obtain ⟨hfree, htaken⟩ := halloc.free
  have hfrees : Frees t (blkfree t nb) nb :=
    blkfree_frees halloc.idle (fun hbad => hfree.1 ((halloc.bad nb).mp hbad))
      (by rw [htaken, update_self])
  have hkept : Sound n { ip with fs := blkfree t nb } ∧
      ∀ q : Place, q.Valid n → node { ip with fs := blkfree t nb } q = node ip q := by
    refine hs.congr rfl hfrees.idle (fun q hv hne => ?_)
      (fun b => (hfrees.bad b).trans (halloc.bad b)) fun q hv hne => ?_
    · exact (hfrees.block _ (hs.not_free hv hne hfree)).trans (congrFun halloc.block _)
    · have hother := hs.not_free hv hne hfree
      rw [hfrees.taken, htaken, update_of_ne hother, update_of_ne hother]
      exact (hs.owned q hv hne).2
  exact ⟨hkept.1, ⟨rfl, rfl, rfl, rfl⟩, hkept.2⟩

/-- An attempt to get a block for a hole. -/
inductive Attempt (n : Nat) (ip : Inode) (q : Place) (errs : Nat → Prop) :
    Except Nat Nat × Inode → Prop
  | failed {error : Nat} {ip' : Inode} (herror : errs error) (hsame : Same n ip ip') :
      Attempt n ip q errs (.error error, ip')
  | got {nb : Nat} {ip' : Inode} (hgrows : Grows n ip q nb (store ip' q nb))
      (hsame : ∀ q' : Place, q'.Valid n → nodeAt ip' q'.entry q'.indices =
        nodeAt ip q'.entry q'.indices) : Attempt n ip q errs (.ok nb, ip')

theorem Hole.attempt (hq : Hole n ip q) (hs : Sound n ip) {errs : Nat → Prop}
    (halloc : Allocates ip.fs t (some nb)) (hnb : nb ≠ 0) (hcontent : ¬ q.Leaf → content = cleared) :
    Attempt n ip q errs (.ok nb, filled ip t nb content) := by
  have hfills : Fills n ip q t nb content := ⟨hq.valid, hq.hole, hq.parent, halloc, hnb, hcontent⟩
  exact Attempt.got (hfills.grows hs) fun q' hv => hfills.nodeAt_filled hs hv

theorem newIndirect_attempt (hs : Sound n ip) (hq : Hole n ip q) :
    Attempt n ip q (· = ENOSPC) (newIndirect ip) := by
  unfold newIndirect
  rcases hs.alloc_cases with ⟨t, hnone, hsame⟩ | ⟨nb, t, hsome, halloc, hnb⟩
  · rw [hnone]
    exact Attempt.failed rfl hsame
  · rw [hsome]
    exact hq.attempt hs halloc hnb fun _ => rfl

theorem newData_attempt (hs : Sound n ip) (hq : Hole n ip q) (hleaf : q.Leaf) :
    Attempt n ip q (fun error => error = ENOSPC ∨ r.fbread = some error)
      (newData r allocOnly flush ip) := by
  unfold newData
  rcases hs.alloc_cases with ⟨t, hnone, hsame⟩ | ⟨nb, t, hsome, halloc, hnb⟩
  · rw [hnone]
    exact Attempt.failed (.inl rfl) hsame
  rw [hsome]
  cases allocOnly with
  | true => exact hq.attempt hs halloc hnb fun hnot => absurd hleaf hnot
  | false =>
    cases hread : r.fbread with
    | some error => exact Attempt.failed (.inr rfl) (hs.undo halloc)
    | none => exact hq.attempt hs halloc hnb fun hnot => absurd hleaf hnot

/-! ### The walk -/

/-- What a lookup of the block at the leaf `q` comes to. -/
inductive Outcome (n : Nat) (r : Request) (q : Place) (ip : Inode) :
    Except Nat Found × Inode → Prop
  | found {rabnp : Option Nat} (hne : node ip q ≠ 0) :
      Outcome n r q ip (.ok ⟨some (node ip q), rabnp⟩, ip)
  | hole (hzero : node ip q = 0) (hrw : r.rw ≠ .S_WRITE) : Outcome n r q ip (.ok ⟨none, none⟩, ip)
  | grown {ip₁ ip' : Inode} {nb : Nat} {rabnp : Option Nat} (hzero : node ip q = 0)
      (hrw : r.rw = .S_WRITE) (hkeeps : Keeps n q ip ip₁) (hgrows : Grows n ip₁ q nb ip') :
      Outcome n r q ip (.ok ⟨some nb, rabnp⟩, ip')
  | failed {ip' : Inode} {error : Nat} (hzero : node ip q = 0) (hrw : r.rw = .S_WRITE)
      (hkeeps : Keeps n q ip ip') (herror : error = ENOSPC ∨ r.fbread = some error) :
      Outcome n r q ip (.error error, ip')

theorem Outcome.after (h : Outcome n r q ip₁ result) (hkeeps : Keeps n q ip ip₁) (hrw : r.rw = .S_WRITE)
    (hzero : node ip q = 0) (hv : q.Valid n) (hleaf : q.Leaf) : Outcome n r q ip result := by
  cases h with
  | found hne => exact absurd ((hkeeps.leaf hv hv hleaf).trans hzero) hne
  | hole _ hread => exact absurd hrw hread
  | grown _ _ hmore hgrows => exact Outcome.grown hzero hrw (hkeeps.trans hmore) hgrows
  | failed _ _ hmore herror => exact Outcome.failed hzero hrw (hkeeps.trans hmore) herror

theorem leafIndices_hole (hzero : nodeAt ip entry indices = 0) :
    nodeAt ip entry (leafIndices nshift bn levels sh indices) = 0 := by
  induction levels generalizing sh indices with
  | zero => exact hzero
  | succ levels ih => exact ih (nodeAt_hole hzero)

theorem leafIndices_suffix : indices <:+ leafIndices nshift bn levels sh indices := by
  induction levels generalizing sh indices with
  | zero => exact suffix_refl _
  | succ levels ih => exact (suffix_cons _ _).trans ih

theorem leafIndices_above :
    Above ⟨entry, indices⟩ ⟨entry, leafIndices nshift bn (levels + 1) sh indices⟩ := by
  refine ⟨rfl, leafIndices_suffix, ?_⟩
  rw [leafIndices_length]
  show indices.length < levels + 1 + indices.length
  omega

theorem Place.Valid.cons (hv : Place.Valid n ⟨entry, indices⟩) (hi : i < n)
    (hlength : indices.length < depth entry) : Place.Valid n ⟨entry, i :: indices⟩ where
  entry := hv.entry
  length := hlength
  indices j hj := by
    rcases mem_cons.mp hj with rfl | hj
    · exact hi
    · exact hv.indices j hj

theorem Hole.cons (hv : Place.Valid n ⟨entry, i :: indices⟩) (hinb : nodeAt ip entry indices ≠ 0)
    (hzero : node ip ⟨entry, i :: indices⟩ = 0) : Hole n ip ⟨entry, i :: indices⟩ where
  valid := hv
  hole := hzero
  parent j js heq := by
    obtain ⟨-, rfl⟩ := cons.inj heq
    exact hinb

theorem Hole.root (hentry : entry < NADDR) (hzero : ip.iAddr entry = 0) : Hole n ip ⟨entry, []⟩ where
  valid := Place.Valid.root hentry
  hole := hzero
  parent i js h := by cases h

theorem fetch_outcome (hs : Sound (nindir nshift) ip) (hv : Place.Valid (nindir nshift) ⟨entry, indices⟩)
    (hinb : nodeAt ip entry indices = inb) (hne : inb ≠ 0)
    (hlength : indices.length + (levels + 1) = depth entry) :
    Outcome (nindir nshift) r ⟨entry, leafIndices nshift bn (levels + 1) sh indices⟩ ip
      (fetch nshift r allocOnly flush bn levels sh inb ip) := by
  induction levels generalizing sh indices inb ip with
  | zero =>
    have hnext : Place.Valid (nindir nshift) ⟨entry, digit nshift bn (sh - nshift) :: indices⟩ :=
      hv.cons digit_lt (by omega)
    have hleaf : Place.Leaf ⟨entry, digit nshift bn (sh - nshift) :: indices⟩ := hlength
    have hnode : node ip ⟨entry, digit nshift bn (sh - nshift) :: indices⟩ =
        ptr (ip.fs.block inb) (digit nshift bn (sh - nshift)) := by
      rw [← hinb] at hne ⊢
      exact nodeAt_cons hne
    rw [fetch, leafIndices, leafIndices, ← hnode]
    by_cases hzero : node ip ⟨entry, digit nshift bn (sh - nshift) :: indices⟩ = 0
    · rw [if_pos hzero]
      by_cases hrw : r.rw ≠ .S_WRITE
      · rw [if_pos hrw]
        exact Outcome.hole hzero hrw
      rw [if_neg hrw]
      have hattempt : Attempt _ ip _ _ (newData r allocOnly flush ip) :=
        newData_attempt hs (Hole.cons hnext (by rw [hinb]; exact hne) hzero) hleaf
      cases hrun : newData r allocOnly flush ip with
      | mk answer ip' =>
        rw [hrun] at hattempt
        cases hattempt with
        | failed herror hsame =>
          exact Outcome.failed hzero (not_not.mp hrw) hsame.keeps herror
        | got hgrows hsame =>
          rw [store_block, hsame ⟨entry, indices⟩ hv, hinb] at hgrows
          exact Outcome.grown hzero (not_not.mp hrw) (Same.refl hs).keeps hgrows
    · rw [if_neg hzero]
      exact Outcome.found hzero
  | succ levels ih =>
    have hnext : Place.Valid (nindir nshift) ⟨entry, digit nshift bn (sh - nshift) :: indices⟩ :=
      hv.cons digit_lt (by omega)
    have hcount : (digit nshift bn (sh - nshift) :: indices).length + (levels + 1) = depth entry := by
      rw [length_cons]
      omega
    have hnode : node ip ⟨entry, digit nshift bn (sh - nshift) :: indices⟩ =
        ptr (ip.fs.block inb) (digit nshift bn (sh - nshift)) := by
      rw [← hinb] at hne ⊢
      exact nodeAt_cons hne
    have hleaf : Place.Leaf ⟨entry, leafIndices nshift bn (levels + 1) (sh - nshift)
        (digit nshift bn (sh - nshift) :: indices)⟩ := by
      unfold Place.Leaf
      rw [leafIndices_length, ← hcount]
      omega
    have hvalid : Place.Valid (nindir nshift) ⟨entry, leafIndices nshift bn (levels + 1)
        (sh - nshift) (digit nshift bn (sh - nshift) :: indices)⟩ :=
      ⟨hv.entry, hleaf.le, leafIndices_lt hnext.indices⟩
    rw [fetch, leafIndices, ← hnode]
    by_cases hzero : node ip ⟨entry, digit nshift bn (sh - nshift) :: indices⟩ = 0
    · have hmissing : node ip ⟨entry, leafIndices nshift bn (levels + 1) (sh - nshift)
          (digit nshift bn (sh - nshift) :: indices)⟩ = 0 := leafIndices_hole hzero
      rw [if_pos hzero]
      by_cases hrw : r.rw ≠ .S_WRITE
      · rw [if_pos hrw]
        exact Outcome.hole hmissing hrw
      rw [if_neg hrw]
      have hattempt : Attempt _ ip _ _ (newIndirect ip) :=
        newIndirect_attempt hs (Hole.cons hnext (by rw [hinb]; exact hne) hzero)
      cases hrun : newIndirect ip with
      | mk answer ip' =>
        rw [hrun] at hattempt
        cases hattempt with
        | failed herror hsame =>
          exact Outcome.failed hmissing (not_not.mp hrw) hsame.keeps (.inl herror)
        | got hgrows hsame =>
          rw [store_block, hsame ⟨entry, indices⟩ hv, hinb] at hgrows
          have hnew := (hgrows.node _ hnext).trans (if_pos rfl)
          exact (ih hgrows.sound hnext hnew hgrows.nonzero hcount).after
            (hgrows.keeps leafIndices_above) (not_not.mp hrw) hmissing hvalid hleaf
    · rw [if_neg hzero]
      exact ih hs hnext rfl hzero hcount

/-! ### A lookup -/

theorem direct_outcome (hs : Sound n ip) (hlbn : lbn < NADDR - 3) :
    Outcome n r ⟨lbn, []⟩ ip (direct r allocOnly lbn ip) := by
  have hnaddr : NADDR = 13 := rfl
  have hentry : lbn < NADDR := by omega
  have hleaf : Place.Leaf ⟨lbn, []⟩ := by
    show 0 = lbn - 9
    omega
  unfold direct
  rw [show ip.iAddr lbn = node ip ⟨lbn, []⟩ from rfl]
  by_cases hzero : node ip ⟨lbn, []⟩ = 0
  · rw [if_pos hzero]
    by_cases hrw : r.rw ≠ .S_WRITE
    · rw [if_pos hrw]
      exact Outcome.hole hzero hrw
    rw [if_neg hrw]
    have hattempt : Attempt n ip _ _ (newData r allocOnly (ip.vType = .VDIR) ip) :=
      newData_attempt hs (Hole.root hentry hzero) hleaf
    cases hrun : newData r allocOnly (ip.vType = .VDIR) ip with
    | mk answer ip' =>
      rw [hrun] at hattempt
      cases hattempt with
      | failed herror hsame => exact Outcome.failed hzero (not_not.mp hrw) hsame.keeps herror
      | got hgrows _ => exact Outcome.grown hzero (not_not.mp hrw) (Same.refl hs).keeps hgrows
  · rw [if_neg hzero]
    exact Outcome.found hzero

theorem lbmap_none (hq : leafOf nshift lbn = none) : lbmap nshift r lbn ip = (.error EFBIG, ip) := by
  unfold leafOf at hq
  unfold lbmap
  by_cases hlbn : lbn < NADDR - 3
  · rw [if_pos hlbn] at hq
    cases hq
  rw [if_neg hlbn] at hq ⊢
  cases hloop : levelLoop nshift 3 0 1 (lbn - (NADDR - 3)) with
  | none => rfl
  | some found =>
    rw [hloop] at hq
    cases hq

theorem lbmap_outcome (hs : Sound (nindir nshift) ip) (hq : leafOf nshift lbn = some q) :
    Outcome (nindir nshift) r q ip (lbmap nshift r lbn ip) := by
  have hnaddr : NADDR = 13 := rfl
  obtain ⟨hvalid, hleaf⟩ := leafOf_valid hq
  unfold lbmap
  rcases leafOf_cases hq with ⟨hlbn, rfl⟩ | ⟨hlbn, j, sh, bn, hloop, hone, hthree, -, -, rfl⟩
  · rw [if_pos hlbn]
    exact direct_outcome hs hlbn
  rw [if_neg hlbn, hloop]
  dsimp only
  obtain ⟨levels, hlevels⟩ : ∃ levels, 4 - j = levels + 1 := ⟨3 - j, by omega⟩
  have hrest : 3 - j = levels := by omega
  rw [hlevels] at hvalid hleaf ⊢
  rw [hrest]
  have hentry : NADDR - j < NADDR := by omega
  have hroot : Place.Valid (nindir nshift) ⟨NADDR - j, []⟩ := Place.Valid.root hentry
  have hdepth : 0 + (levels + 1) = depth (NADDR - j) := by
    unfold depth
    omega
  by_cases hzero : ip.iAddr (NADDR - j) = 0
  · have hmissing : node ip ⟨NADDR - j, leafIndices nshift bn (levels + 1) sh []⟩ = 0 :=
      leafIndices_hole hzero
    rw [if_pos hzero]
    split_ifs with hrw
    · exact Outcome.hole hmissing hrw
    · have hattempt : Attempt _ ip _ _ (newIndirect ip) :=
        newIndirect_attempt hs (Hole.root hentry hzero)
      cases hrun : newIndirect ip with
      | mk answer ip' =>
        rw [hrun] at hattempt
        cases hattempt with
        | failed herror hsame =>
          exact Outcome.failed hmissing (not_not.mp hrw) hsame.keeps (.inl herror)
        | got hgrows _ =>
          have hnew := (hgrows.node _ hroot).trans (if_pos rfl)
          exact (fetch_outcome hgrows.sound hroot hnew hgrows.nonzero hdepth).after
            (hgrows.keeps leafIndices_above) (not_not.mp hrw) hmissing hvalid hleaf
  · rw [if_neg hzero]
    exact fetch_outcome hs hroot rfl hzero hdepth

def mapped (nshift : Nat) (ip : Inode) (lbn : Nat) : Nat :=
  match leafOf nshift lbn with
  | none => 0
  | some q => node ip q

/-- Where block numbers are kept. -/
inductive Slot
  | entry (i : Nat)
  | bap (inb i : Nat)
  deriving DecidableEq

def slotAt (ip : Inode) (q : Place) : Option Slot :=
  match q.indices with
  | [] => some (.entry q.entry)
  | i :: indices =>
      if nodeAt ip q.entry indices = 0 then none else some (.bap (nodeAt ip q.entry indices) i)

def slot (nshift : Nat) (ip : Inode) (lbn : Nat) : Option Slot :=
  match leafOf nshift lbn with
  | none => none
  | some q => slotAt ip q

/-- The blocks are sound, and the array that `s5allocmap` built is that of a regular file and holds
the numbers of its blocks, and nothing from the end of the file on. -/
structure WellFormed (nshift : Nat) (ip : Inode) : Prop where
  sound : Sound (nindir nshift) ip
  regular : ip.iMap ≠ none → ip.vType = .VREG
  cached : ∀ iMap, ip.iMap = some iMap → ∀ lbn, lbn < mapBlocks nshift ip →
    iMap lbn = if lbn < fileBlocks nshift ip then mapped nshift ip lbn else 0

theorem mapped_eq (hq : leafOf nshift lbn = some q) : mapped nshift ip lbn = node ip q := by
  unfold mapped
  rw [hq]

/-- Two places with one slot. -/
theorem slotAt_inj (hs : Sound n ip) (hv : q.Valid n) (hv' : q'.Valid n) {x : Slot}
    (hx : slotAt ip q = some x) (hx' : slotAt ip q' = some x) : q = q' := by
  obtain ⟨e, js⟩ := q
  obtain ⟨e', js'⟩ := q'
  unfold slotAt at hx hx'
  cases js with
  | nil =>
    obtain rfl := some.inj hx
    cases js' with
    | nil =>
      have he := Slot.entry.inj (some.inj hx')
      exact congrArg (fun e => Place.mk e []) he.symm
    | cons j' js' =>
      dsimp only at hx'
      split_ifs at hx'
      exact Slot.noConfusion (some.inj hx')
  | cons j js =>
    dsimp only at hx
    split_ifs at hx with hzero
    obtain rfl := some.inj hx
    cases js' with
    | nil => exact Slot.noConfusion (some.inj hx')
    | cons j' js' =>
      dsimp only at hx'
      split_ifs at hx'
      obtain ⟨hsame, hj⟩ := Slot.bap.inj (some.inj hx')
      have hplace := hs.distinct ⟨e, js⟩ ⟨e', js'⟩ hv.tail hv'.tail hzero hsame.symm
      obtain ⟨he, hjs⟩ := Place.mk.inj hplace
      rw [he, hj, hjs]

theorem slot_inj (hs : Sound (nindir nshift) ip) {x : Slot} (hx : slot nshift ip lbn = some x)
    (hx' : slot nshift ip lbn' = some x) : lbn = lbn' := by
  unfold slot at hx hx'
  cases hq : leafOf nshift lbn with
  | none =>
    rw [hq] at hx
    cases hx
  | some q =>
    rw [hq] at hx
    cases hq' : leafOf nshift lbn' with
    | none =>
      rw [hq'] at hx'
      cases hx'
    | some q' =>
      rw [hq'] at hx'
      obtain rfl := slotAt_inj hs (leafOf_valid hq).1 (leafOf_valid hq').1 hx hx'
      exact leafOf_inj hq hq'

def unmapped (ip : Inode) : Inode := { ip with iMap := none }

theorem unmapped_sound (hs : Sound n ip) : Sound n (unmapped ip) := by
  have hkept : Sound n (unmapped ip) ∧ ∀ q : Place, q.Valid n → node (unmapped ip) q = node ip q :=
    hs.congr rfl hs.idle (fun _ _ _ => rfl) (fun _ => .rfl) fun q hv hne => (hs.owned q hv hne).2
  exact hkept.1

theorem node_unmapped : node (unmapped ip) q = node ip q := nodeAt_same rfl rfl

/-- The array goes to the end of the file. -/
theorem fileBlocks_le : fileBlocks nshift ip ≤ mapBlocks nshift ip := by
  have hbsize : vfsBsize nshift = 2 ^ vfsBshift nshift := Nat.one_shiftLeft _
  have hpage : PAGESIZE = 2 ^ 12 := rfl
  unfold mapBlocks
  split_ifs with hlt
  · have hshift : vfsBshift nshift < 12 := by
      rw [hbsize, hpage] at hlt
      exact (Nat.pow_lt_pow_iff_right (by decide)).mp hlt
    have hdvd : vfsBsize nshift ∣ PAGESIZE := by
      rw [hbsize, hpage]
      exact Nat.pow_dvd_pow 2 hshift.le
    obtain ⟨k, hk⟩ := hdvd
    have hpos : 0 < vfsBsize nshift := by
      rw [hbsize]
      exact Nat.two_pow_pos _
    have hratio : PAGESIZE / vfsBsize nshift = k := by
      rw [hk]
      exact Nat.mul_div_cancel_left k hpos
    have hpages : ip.iSize ≤ vfsBsize nshift * ((ip.iSize + (PAGESIZE - 1)) / PAGESIZE * k) := by
      calc ip.iSize ≤ PAGESIZE * ((ip.iSize + (PAGESIZE - 1)) / PAGESIZE) := by
            have hmod := Nat.div_add_mod (ip.iSize + (PAGESIZE - 1)) PAGESIZE
            have hlast := Nat.mod_lt (ip.iSize + (PAGESIZE - 1)) (show PAGESIZE > 0 by decide)
            omega
        _ = vfsBsize nshift * ((ip.iSize + (PAGESIZE - 1)) / PAGESIZE * k) := by
            rw [mul_comm _ k, ← mul_assoc, ← hk]
    rw [hratio]
    refine Nat.le_of_lt_succ (Nat.div_lt_of_lt_mul ?_)
    rw [Nat.mul_succ]
    omega
  · exact le_rfl

/-- Through the tree, or by the array. -/
theorem bmap_cases (hwf : WellFormed nshift ip) (hq : leafOf nshift lbn = some q) :
    Outcome (nindir nshift) r q (unmapped ip) (bmap nshift r lbn ip) ∧
      (r.rw = .S_WRITE ∨ ip.iMap = none) ∨
    (∃ rabnp, node ip q ≠ 0 ∧ lbn < fileBlocks nshift ip ∧
      bmap nshift r lbn ip = (.ok ⟨some (node ip q), rabnp⟩, ip)) ∨
    r.rw ≠ .S_WRITE ∧ ip.iMap ≠ none ∧ (lbn < fileBlocks nshift ip → node ip q = 0) ∧
      bmap nshift r lbn ip = (.ok ⟨none, none⟩, ip) := by
  have htree : Outcome (nindir nshift) r q (unmapped ip) (lbmap nshift r lbn (unmapped ip)) :=
    lbmap_outcome (unmapped_sound hwf.sound) hq
  unfold bmap
  cases hmap : ip.iMap with
  | none =>
    have hsame : unmapped ip = ip := by
      unfold unmapped
      rw [← hmap]
    rw [hsame] at htree ⊢
    exact .inl ⟨htree, .inr rfl⟩
  | some iMap =>
    have hcached := hwf.cached iMap hmap
    dsimp only
    by_cases hzero : (if lbn < mapBlocks nshift ip then iMap lbn else 0) = 0
    · rw [if_pos hzero]
      by_cases hrw : r.rw = .S_WRITE
      · have hfreed : s5freemap ip = unmapped ip :=
          if_neg (not_not.mpr (hwf.regular (by rw [hmap]; exact some_ne_none _)))
        rw [if_pos hrw, hfreed]
        exact .inl ⟨htree, .inl hrw⟩
      · rw [if_neg hrw]
        refine .inr (.inr ⟨hrw, some_ne_none _, fun hlt => ?_, rfl⟩)
        rw [if_pos (hlt.trans_le fileBlocks_le), hcached lbn
          (hlt.trans_le fileBlocks_le), if_pos hlt, mapped_eq hq] at hzero
        exact hzero
    · rw [if_neg hzero]
      by_cases hlt : lbn < mapBlocks nshift ip
      · rw [if_pos hlt] at hzero ⊢
        have hvalue := hcached lbn hlt
        by_cases hfile : lbn < fileBlocks nshift ip
        · rw [if_pos hfile, mapped_eq hq] at hvalue
          rw [hvalue] at hzero ⊢
          exact .inr (.inl ⟨_, hzero, hfile, rfl⟩)
        · rw [if_neg hfile] at hvalue
          exact absurd hvalue hzero
      · rw [if_neg hlt] at hzero
        exact absurd rfl hzero

def Reads (nshift : Nat) (ip : Inode) (lbn b : Nat) : Prop :=
  ∀ r : Request, r.rw ≠ .S_WRITE →
    ∃ rabnp, bmap nshift r lbn ip = (.ok ⟨toHole b, rabnp⟩, ip)

/-- Where `bmap` can be asked: the array does not go beyond the end of the file. -/
def Within (nshift : Nat) (ip : Inode) (lbn : Nat) : Prop :=
  ip.iMap = none ∨ lbn < fileBlocks nshift ip

/-- A logical block is mapped as before, and is found if it was within the file. -/
structure Stays (nshift : Nat) (ip ip' : Inode) (lbn : Nat) : Prop where
  mapped : mapped nshift ip' lbn = mapped nshift ip lbn
  reads : lbn < maxLbn nshift → Within nshift ip lbn →
    Reads nshift ip lbn (Tree.mapped nshift ip lbn) ∧ Reads nshift ip' lbn (Tree.mapped nshift ip lbn)

/-- What a lookup does. -/
structure Looks (nshift : Nat) (r : Request) (lbn : Nat) (ip : Inode)
    (result : Except Nat Found × Inode) : Prop where
  wellFormed : WellFormed nshift result.2
  written : ∀ found, r.rw = .S_WRITE → result.1 = .ok found →
    ∃ b, b ≠ 0 ∧ found.bnp = some b ∧ mapped nshift result.2 lbn = b ∧ Reads nshift result.2 lbn b ∧
      ∀ lbn', lbn' ≠ lbn → Stays nshift ip result.2 lbn'
  failed : ∀ error, result.1 = .error error → r.rw = .S_WRITE ∧
    (error = ENOSPC ∨ r.fbread = some error) ∧ ∀ lbn', Stays nshift ip result.2 lbn'
  read : r.rw ≠ .S_WRITE → result.2 = ip ∧
    (Within nshift ip lbn → Reads nshift ip lbn (mapped nshift ip lbn))

theorem unmapped_eq (hmap : ip.iMap = none) : unmapped ip = ip := by
  unfold unmapped
  rw [← hmap]

theorem toHole_of_ne (hne : nb ≠ 0) : toHole nb = some nb := if_neg hne

theorem WellFormed.reads (hwf : WellFormed nshift ip) (hlbn : lbn < maxLbn nshift)
    (hwithin : Within nshift ip lbn) : Reads nshift ip lbn (mapped nshift ip lbn) := by
  intro r hrw
  obtain ⟨q, hq⟩ := leafOf_isSome hlbn
  rw [mapped_eq hq]
  rcases bmap_cases (r := r) hwf hq with ⟨htree, hhow⟩ | ⟨rabnp, hne, -, hfound⟩ |
    ⟨-, hmap, hzero, hhole⟩
  · have hsame := unmapped_eq (hhow.resolve_left hrw)
    rw [hsame] at htree
    generalize hresult : bmap nshift r lbn ip = result at htree
    cases htree with
    | found hne => exact ⟨_, by rw [toHole_of_ne hne]⟩
    | hole hzero _ => exact ⟨none, by rw [hzero]; rfl⟩
    | grown _ hwrite _ _ => exact absurd hwrite hrw
    | failed _ hwrite _ _ => exact absurd hwrite hrw
  · exact ⟨rabnp, by rw [toHole_of_ne hne]; exact hfound⟩
  · exact ⟨none, by rw [hzero (hwithin.resolve_left hmap)]; exact hhole⟩

theorem WellFormed.of_none (hs : Sound (nindir nshift) ip) (hmap : ip.iMap = none) :
    WellFormed nshift ip where
  sound := hs
  regular hne := absurd hmap hne
  cached iMap hsome := by
    rw [hmap] at hsome
    cases hsome

theorem mapped_congr (h : ∀ q : Place, q.Valid (nindir nshift) → q.Leaf → node ip' q = node ip q) :
    mapped nshift ip' lbn = mapped nshift ip lbn := by
  cases hq : leafOf nshift lbn with
  | none =>
    unfold mapped
    rw [hq]
  | some q =>
    obtain ⟨hv, hleaf⟩ := leafOf_valid hq
    rw [mapped_eq hq, mapped_eq hq, h q hv hleaf]

theorem mapped_unmapped : mapped nshift (unmapped ip) lbn = mapped nshift ip lbn :=
  mapped_congr fun _ _ _ => node_unmapped

theorem Keeps.mapped (h : Keeps (nindir nshift) q ip ip') (hv : q.Valid (nindir nshift)) :
    mapped nshift ip' lbn = mapped nshift ip lbn := mapped_congr fun _ hv' hleaf => h.leaf hv hv' hleaf

theorem WellFormed.stays (hwf : WellFormed nshift ip) (hwf' : WellFormed nshift ip')
    (hmap : ip' = ip ∨ ip'.iMap = none) (hmapped : mapped nshift ip' lbn = mapped nshift ip lbn) :
    Stays nshift ip ip' lbn where
  mapped := hmapped
  reads hlbn hwithin := by
    refine ⟨hwf.reads hlbn hwithin, ?_⟩
    rw [← hmapped]
    refine hwf'.reads hlbn ?_
    rcases hmap with rfl | hnone
    · exact hwithin
    · exact .inl hnone

section

variable (h : Grows (nindir nshift) ip₁ q nb ip') (hq : leafOf nshift lbn = some q)
include h hq

theorem Grows.mapped_eq : mapped nshift ip' lbn = nb := by
  rw [Tree.mapped_eq hq, h.node q (leafOf_valid hq).1, if_pos rfl]

theorem Grows.mapped_of_ne
    (hne : lbn' ≠ lbn) : mapped nshift ip' lbn' = mapped nshift ip₁ lbn' := by
  unfold mapped
  cases hq' : leafOf nshift lbn' with
  | none => exact rfl
  | some q' =>
    refine (h.node q' (leafOf_valid hq').1).trans (if_neg ?_)
    rintro rfl
    exact hne (leafOf_inj hq' hq)

end

theorem Looks.of_block {rabnp : Option Nat} (hwf : WellFormed nshift ip) (hwf' : WellFormed nshift ip')
    (hlbn : lbn < maxLbn nshift) (hne : nb ≠ 0) (hmap : ip' = ip ∨ ip'.iMap = none)
    (hread : r.rw ≠ .S_WRITE → ip' = ip) (hwithin : Within nshift ip' lbn)
    (hmapped : mapped nshift ip' lbn = nb)
    (hothers : ∀ lbn', lbn' ≠ lbn → mapped nshift ip' lbn' = mapped nshift ip lbn') :
    Looks nshift r lbn ip (.ok ⟨some nb, rabnp⟩, ip') where
  wellFormed := hwf'
  written found _ hok := by
    obtain rfl := Except.ok.inj hok
    refine ⟨nb, hne, rfl, hmapped, ?_, fun lbn' hne' => hwf.stays hwf' hmap (hothers lbn' hne')⟩
    rw [← hmapped]
    exact hwf'.reads hlbn hwithin
  failed error herror := by cases herror
  read hrw := ⟨hread hrw, hwf.reads hlbn⟩

theorem Looks.of_hole (hwf : WellFormed nshift ip) (hlbn : lbn < maxLbn nshift) (hrw : r.rw ≠ .S_WRITE) :
    Looks nshift r lbn ip (.ok ⟨none, none⟩, ip) where
  wellFormed := hwf
  written _ hwrite _ := absurd hwrite hrw
  failed error herror := by cases herror
  read _ := ⟨rfl, hwf.reads hlbn⟩

/-- A lookup through the tree, once the array is gone. -/
theorem Outcome.looks (h : Outcome (nindir nshift) r q (unmapped ip) result) (hwf : WellFormed nshift ip)
    (hq : leafOf nshift lbn = some q) (hlbn : lbn < maxLbn nshift)
    (hhow : r.rw = .S_WRITE ∨ ip.iMap = none) : Looks nshift r lbn ip result := by
  have hbare : WellFormed nshift (unmapped ip) := WellFormed.of_none (unmapped_sound hwf.sound) rfl
  have hkept : ∀ {ip' : Inode} (lbn' : Nat), Keeps (nindir nshift) q (unmapped ip) ip' →
      mapped nshift ip' lbn' = mapped nshift ip lbn' :=
    fun _ h => (h.mapped (leafOf_valid hq).1).trans mapped_unmapped
  have hread : r.rw ≠ .S_WRITE → unmapped ip = ip := fun hrw => unmapped_eq (hhow.resolve_left hrw)
  cases h with
  | found hne =>
    exact Looks.of_block hwf hbare hlbn hne (.inr rfl) hread (.inl rfl)
      (mapped_eq hq) fun lbn' _ => hkept lbn' (Same.refl hbare.sound).keeps
  | hole hzero hrw =>
    rw [hread hrw]
    exact Looks.of_hole hwf hlbn hrw
  | grown hzero hrw hkeeps hgrows =>
    have hnone := hgrows.head.iMap.trans hkeeps.head.iMap
    exact Looks.of_block hwf (WellFormed.of_none hgrows.sound hnone) hlbn hgrows.nonzero
      (.inr hnone) (fun hnot => absurd hrw hnot) (.inl hnone) (hgrows.mapped_eq hq)
      fun lbn' hne => (hgrows.mapped_of_ne hq hne).trans (hkept lbn' hkeeps)
  | @failed ip' error hzero hrw hkeeps herror =>
    have hnone : ip'.iMap = none := hkeeps.head.iMap
    have hwf' : WellFormed nshift ip' := WellFormed.of_none hkeeps.sound hnone
    refine ⟨hwf', fun found _ hok => ?_, fun e he => ?_, fun hnot => absurd hrw hnot⟩
    · cases hok
    · obtain rfl := Except.error.inj he
      exact ⟨hrw, herror, fun lbn' => hwf.stays hwf' (.inr hnone) (hkept lbn' hkeeps)⟩

/-- The logical blocks of a file have slots of their own. A lookup that writes maps its block to the one
it answers with, which a read then finds, or fails; all other blocks stay. -/
theorem bmap_looks (hwf : WellFormed nshift ip) (r : Request) :
    (∀ lbn₁ lbn₂ x, slot nshift ip lbn₁ = some x → slot nshift ip lbn₂ = some x → lbn₁ = lbn₂) ∧
    ∀ lbn, lbn < maxLbn nshift → Looks nshift r lbn ip (bmap nshift r lbn ip) := by
  refine ⟨fun lbn₁ lbn₂ x => slot_inj hwf.sound, fun lbn hlbn => ?_⟩
  obtain ⟨q, hq⟩ := leafOf_isSome hlbn
  rcases bmap_cases (r := r) hwf hq with ⟨htree, hhow⟩ | ⟨rabnp, hne, hfile, hfound⟩ | ⟨hrw, -, -, hhole⟩
  · exact htree.looks hwf hq hlbn hhow
  · rw [hfound]
    exact Looks.of_block hwf hwf hlbn hne (.inl rfl) (fun _ => rfl) (.inr hfile)
      (mapped_eq hq) fun _ _ => rfl
  · rw [hhole]
    exact Looks.of_hole hwf hlbn hrw

/-- A file system with three blocks, all of them free. -/
def threeFree : State Unit :=
  { sIsize := 2
    sFsize := 5
    sNfree := 4
    sFree := fun i => if i = 0 then 0 else i + 1
    sFlock := false
    sTfree := 3
    block := fun _ => cleared
    taken := fun _ => 0
    point := fun _ => .out
    result := fun _ => none }

theorem threeFree_idle : Idle threeFree := by
  have hsound : S5.Sound threeFree := by
    refine ⟨by decide, ⟨upper threeFree.sFree 3, .inl ⟨fun p bno hp => ?_,
      .inr (Chain.last (by decide) (by decide)), by decide⟩, by decide, fun b => ?_⟩, fun b => ?_⟩
    · cases hp
    · show b ∈ [4, 3, 2] ↔ ¬ (b < 2 ∨ 5 ≤ b) ∧ 0 = 0
      rw [mem_cons, mem_cons, mem_singleton]
      constructor
      · rintro (rfl | rfl | rfl)
        · decide
        · decide
        · decide
      · rintro ⟨hgood, -⟩
        omega
    · exact Nat.zero_le 1
  exact Idle.mk_sound (by decide) hsound rfl rfl

def emptyFile : Inode := ⟨fun _ => 0, none, 0, .VREG, false, threeFree⟩

theorem emptyFile_hole (entry : Nat) (indices : List Nat) : nodeAt emptyFile entry indices = 0 := by
  induction indices with
  | nil => exact rfl
  | cons i indices ih => exact nodeAt_hole ih

theorem emptyFile_wellFormed : WellFormed 8 emptyFile :=
  WellFormed.of_none ⟨threeFree_idle, fun _ _ hne => absurd (emptyFile_hole _ _) hne,
    fun _ _ _ _ hne => absurd (emptyFile_hole _ _) hne⟩ rfl

/-- A write beyond the direct blocks allocates an indirect block and a block of the file. -/
theorem bmap_looks_indirect :
    (bmap 8 ⟨.S_WRITE, true, false, none⟩ 10 emptyFile).1.toOption.map Found.bnp = some (some 3) ∧
    Looks 8 ⟨.S_WRITE, true, false, none⟩ 10 emptyFile
      (bmap 8 ⟨.S_WRITE, true, false, none⟩ 10 emptyFile) :=
  ⟨by decide, (bmap_looks emptyFile_wellFormed _).2 10 (by decide)⟩

end Svr42.S5.Tree
