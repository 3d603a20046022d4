import Svr42.BfsFileCalls
import Svr42.RunExec

/-! Calls on a boot file system one after the other, from `mkfs` on: where its files lie and what it
counts. -/

namespace Svr42.BfsFile
open List Nat Option

open BfsShift (Dirent Disk BFS_BSIZE)

inductive Call
  | create
  | link (i : Nat)
  | remove (i : Nat)
  | rename (target : Option Nat)
  | write (i uio_offset : Nat) (append : Bool) (data : List UInt8)
  | read (i uio_offset resid : Nat)
  | truncate (i length : Nat)
  | setattr (i va_size : Nat)
  | compact
  deriving DecidableEq, Repr

/-- The error code of a call and the bytes it has read. -/
abbrev Answer := Option Errno × List UInt8

def quiet (r : Outcome) : Answer × Fs := ((r.1, []), r.2)

def call (s : Fs) : Call → Option (Answer × Fs)
  | .create => (bfs_create s).map quiet
  | .link i => (bfs_link s i).map quiet
  | .remove i => (bfs_remove s i).map quiet
  | .rename target => (bfs_rename s target).map quiet
  | .write i uio_offset append data => (bfs_write 3 s i uio_offset append data).map quiet
  | .read i uio_offset resid => some ((none, bfs_read s i uio_offset resid), s)
  | .truncate i length => (bfs_truncate s i length).map quiet
  | .setattr i va_size => (bfs_setattr s i va_size).map quiet
  | .compact => (bfs_compact s).map fun s' => quiet (none, s')

def Named (s : Fs) (i : Nat) : Prop := i ≠ 0 ∧ ∃ dir, s.disk.inodes[i]? = some dir ∧ dir.d_ino ≠ 0

/-- A name leads to a file in use; an open file keeps its slot, even when its last name is gone. The
root directory is not opened for writing. -/
def Allowed (s : Fs) : Call → Prop
  | .link i => Named s i
  | .remove i => Named s i
  | .rename (some i) => Named s i
  | .write i _ _ _ => i ≠ 0 ∧ i < s.disk.inodes.length
  | .truncate i _ => i ≠ 0 ∧ i < s.disk.inodes.length
  | .setattr i _ => i < s.disk.inodes.length
  | _ => True

def step (s : Fs) (ev : Call × Answer) (s' : Fs) : Prop :=
  Allowed s ev.1 ∧ call s ev.1 = some (ev.2, s')

instance (s : Fs) (i : Nat) : Decidable (Named s i) :=
  decidable_of_iff (i ≠ 0 ∧ (s.getinode i).d_ino ≠ 0) (by
    unfold Named Fs.getinode
    cases hslot : s.disk.inodes[i]? with
    | none =>
      exact ⟨fun h => absurd rfl h.2, fun ⟨_, _, h, _⟩ => absurd h (Option.some_ne_none _).symm⟩
    | some dir =>
      exact ⟨fun h => ⟨h.1, dir, rfl, h.2⟩, fun ⟨hi, _, h, hused⟩ =>
        ⟨hi, Option.some.inj h ▸ hused⟩⟩)

instance (s : Fs) (c : Call) : Decidable (Allowed s c) := by
  cases c with
  | rename target =>
    cases target with
    | none => exact .isTrue trivial
    | some i => exact inferInstanceAs (Decidable (Named s i))
  | link i => exact inferInstanceAs (Decidable (Named s i))
  | remove i => exact inferInstanceAs (Decidable (Named s i))
  | write i off app data => exact inferInstanceAs (Decidable (i ≠ 0 ∧ i < s.disk.inodes.length))
  | truncate i length => exact inferInstanceAs (Decidable (i ≠ 0 ∧ i < s.disk.inodes.length))
  | setattr i va_size => exact inferInstanceAs (Decidable (i < s.disk.inodes.length))
  | create => exact .isTrue trivial
  | read i off resid => exact .isTrue trivial
  | compact => exact .isTrue trivial

def next (s : Fs) (ev : Call × Answer) : Option Fs :=
  if Allowed s ev.1 then
    (call s ev.1).bind fun r => if r.1 = ev.2 then some r.2 else none
  else none

def BFSDOTSIZE : Nat := 16

/-- A file system of `size` blocks with `files + 1` inodes, as `mkfs` makes it on a device with the
given blocks and `mount` reads it; `none` when `mkfs` refuses. -/
def mkfs (size files : Nat) (blocks : Nat → Block) : Option Fs :=
  let ino_size := (files + 1) * 64
  let start := BFS_BSIZE + ino_size
  let inoblocks := ino_size / BFS_BSIZE + (ino_size % BFS_BSIZE + 511) / BFS_BSIZE
  if files + 1 > BFSDOTSIZE * BFS_BSIZE / 16 then none
  else if size * BFS_BSIZE ≤ start ∨ inoblocks + 2 * BFSDOTSIZE > size then none
  else
    let first := firstBlock start
    some {
      disk :=
        { sane := BfsShift.cleared
          inodes := ⟨2, first, first + BFSDOTSIZE - 1, first * BFS_BSIZE + 2 * 16 - 1⟩ ::
            List.replicate files ⟨0, 0, 0, 0⟩
          blocks := blocks }
      nlink := 2 :: List.replicate files 0
      bsup_start := start
      bsup_end := size * BFS_BSIZE - 1
      bsup_freeblocks := ((size * BFS_BSIZE - start) / BFS_BSIZE : Nat) - (BFSDOTSIZE : Int)
      bsup_freedrents := files
      bsup_lastfile := some 0
      bsup_compacted := false }

variable {s s₀ s' M K : Fs} {dir new : Dirent} {i j n off len : Nat} {app : Bool} {data : List UInt8}
  {db dd : Int} {ev : Call × Answer} {events : List (Call × Answer)}

/-- What holds whether or not the free blocks are counted right. -/
structure Sound (s : Fs) : Prop where
  layout : Arranged s
  drents : s.bsup_freedrents = freeSlots s.disk.inodes
  links : ∀ i, s.nlink.getD i 0 < 1 <<< 32

/-- The count of free blocks is the size of the data area less the blocks of the files. -/
def Counted (s : Fs) : Prop :=
  s.bsup_freeblocks =
    ((s.bsup_end + 1 - s.bsup_start) / BFS_BSIZE : Nat) - (heldBlocks s.disk.inodes : Int)

theorem Kept.sound (h : Kept s s') (hs : Sound s) : Sound s' where
  layout := h.layout
  drents := by rw [h.drents, h.freeSlots, hs.drents]
  links := by rw [h.nlink]; exact hs.links

theorem Kept.counted (h : Kept s s') (hs : Counted s) : Counted s' := by
  unfold Counted at *
  rw [h.free, h.heldBlocks, h.start, h.fin, hs]

theorem Sound.set (hs : Sound s) (hslot : s.disk.inodes[i]? = some dir) (hlayout : Arranged M)
    (hin : M.disk.inodes = s.disk.inodes.set i new)
    (hdrents : M.bsup_freedrents + slotFree dir = s.bsup_freedrents + slotFree new)
    (hlinks : ∀ i, M.nlink.getD i 0 < 1 <<< 32) : Sound M where
  layout := hlayout
  drents := by
    have htotal := total_set hslot slotFree new
    have hold := hs.drents
    rw [hin]
    unfold freeSlots at *
    omega
  links := hlinks

theorem Counted.set (hs : Counted s) (hslot : s.disk.inodes[i]? = some dir)
    (hin : M.disk.inodes = s.disk.inodes.set i new) (hstart : M.bsup_start = s.bsup_start)
    (hfin : M.bsup_end = s.bsup_end)
    (hfree : M.bsup_freeblocks + blocksOf new = s.bsup_freeblocks + blocksOf dir) : Counted M := by
  have htotal := total_set hslot blocksOf new
  unfold Counted heldBlocks at *
  rw [hin, hstart, hfin]
  omega

theorem getD_set_lt {l : List Nat} {b x : Nat} (h : ∀ i, l.getD i 0 < b) (hx : x < b) (i j : Nat) :
    (l.set i x).getD j 0 < b := by
  have hj := h j
  rw [getD_eq_getElem?_getD] at hj ⊢
  rw [List.getElem?_set]
  split
  · split
    · exact hx
    · exact lt_of_le_of_lt (zero_le _) hx
  · exact hj

theorem blocksOf_entry_eq (ino : Nat) {b b' : Nat} (hb : b ≠ 0) (hb' : b' ≠ 0) (hn : 0 < n) :
    blocksOf (entry ino b n) = blocksOf (entry ino b' n) := by
  by_cases hino : ino = 0
  · rw [blocksOf, blocksOf, if_neg fun hold => hold.1 hino, if_neg fun hold => hold.1 hino]
  rw [blocksOf_entry hino hb, blocksOf_entry hino hb']
  unfold entry BFS_BSIZE
  simp only
  omega

section Write

variable (hs : Sound K) (hi : i ≠ 0)

include hs hi

/-- Where the file lies that was written to. -/
theorem Filled.arranged {b o : Nat} (hf : Filled K s' i b o dir data)
    (hslot : K.disk.inodes[i]? = some dir) (hused : dir.d_ino ≠ 0) (hdata : data ≠ [])
    (hb : dir.d_sblock = 0 ∧ b = nextblock K ∨ dir.d_sblock ≠ 0 ∧ b = dir.d_sblock)
    (hroom : b * BFS_BSIZE + o + data.length ≤ K.bsup_end) : Arranged s' := by
  have h := hs.layout
  have hlen := length_pos_iff.mpr hdata
  unfold Arranged
  rw [hf.inodes, hf.start, hf.fin]
  rcases hb with ⟨hempty, rfl⟩ | ⟨hne, rfl⟩
  · have hn : filesize dir = 0 := if_pos hempty
    have hlast : s'.bsup_lastfile = some i := by
      rcases hf.last with ⟨hlast, -⟩ | ⟨-, hlt⟩
      · exact hlast
      · omega
    rw [hlast, hn, Nat.zero_max]
    have hfirst := first_lt_next h
    exact h.place hi hslot hused (entry_fits h dir.d_ino (by omega) hfirst.le (by omega))
      fun j dj _ hj hold => next_beyond h hj hold
  have hold : Holds dir := ⟨hused, hne⟩
  have hfits := h.fits hslot hold
  obtain ⟨hsize, hdir⟩ := hfits.entry hi
  have hn : filesize dir = size dir := if_neg hne
  rw [hn]
  rcases hf.last with ⟨hlast, hempty | hlastK⟩ | ⟨hlast, hlt⟩
  · exact absurd hempty hne
  · rw [hlast]
    have hend := hfits.room hi h.whole
    refine h.place hi hslot hused (entry_fits h dir.d_ino (by omega) hfits.first (by omega))
      fun j dj hj hdj hjold => ?_
    obtain ⟨l, dl, hl, hdl, -, hmax⟩ := h.last
    obtain rfl : i = l := some.inj (hlastK.symm.trans hl)
    obtain rfl : dir = dl := some.inj (hslot.symm.trans hdl)
    have hle := hmax j dj hdj hjold.1
    have horder := (h.fits hdj hjold).order
    rcases h.apart i j dir dj hj.symm hslot hdj hold hjold with hlt | hlt
    · omega
    · exact hlt
  · rw [hn] at hlt
    rw [hlast, Nat.max_eq_left hlt.le, ← hdir, set_getElem?_self hslot]
    exact h

theorem Settles.sound {r : Outcome} (hr : Settles K i off app data r)
    (hslot : K.disk.inodes[i]? = some dir) (hused : dir.d_ino ≠ 0) (hdata : data ≠ []) :
    Sound r.2 ∧ (Counted K → Counted r.2) := by
  have hfilled : ∀ {s' : Fs} {b o : Nat}, Filled K s' i b o dir data → Arranged s' →
      Sound s' ∧ (Counted K → Counted s') := by
    intro s' b o hf hlayout
    have hfree : slotFree (entry dir.d_ino b (max (filesize dir) (o + data.length))) = slotFree dir := rfl
    refine ⟨hs.set hslot hlayout hf.inodes (by rw [hf.drents, hfree]) (by rw [hf.nlink]; exact hs.links),
      fun hc => hc.set hslot hf.inodes hf.start hf.fin (by rw [hf.free]; omega)⟩
  cases hr with
  | full => exact ⟨hs, id⟩
  | held s' dir' hslot' hne hroom hf =>
    obtain rfl : dir = dir' := some.inj (hslot.symm.trans hslot')
    exact hfilled hf (hf.arranged hs hi hslot hused hdata (.inr ⟨hne, rfl⟩) hroom)
  | empty s' dir' hslot' hempty hroom hf =>
    obtain rfl : dir = dir' := some.inj (hslot.symm.trans hslot')
    exact hfilled hf (hf.arranged hs hi hslot hused hdata (.inl ⟨hempty, rfl⟩) hroom)

end Write

/-- The move keeps the invariants; when a byte stays behind the count of free blocks may be wrong. -/
theorem MovedTo.sound (h : MovedTo s M dir i) (hlayout : Arranged M) (hs : Sound s) (hi : i ≠ 0)
    (hslot : s.disk.inodes[i]? = some new) (hino : new.d_ino = dir.d_ino) (hold : Holds new)
    (hsize : size new = size dir) : Sound M ∧ (moved (size dir) = size dir → Counted s → Counted M) := by
  have hfree : slotFree (entry dir.d_ino (nextblock s) (moved (size dir))) = slotFree new := by
    rw [slotFree, slotFree, hino]
    rfl
  refine ⟨hs.set hslot hlayout h.inodes (by rw [h.drents, hfree]) (by rw [h.nlink]; exact hs.links),
    fun hwhole hc => hc.set hslot h.inodes h.start h.fin ?_⟩
  obtain ⟨hpos, hnew⟩ := (hs.layout.fits hslot hold).entry hi
  have hfirst := first_lt_next hs.layout
  have hblocks := blocksOf_entry_eq dir.d_ino (show nextblock s ≠ 0 by omega) hold.2
    (show 0 < size dir by omega)
  rw [hino, hsize] at hnew
  rw [h.free, hwhole, hblocks, ← hnew]

/-- A write has an outcome, and keeps the invariants; so does the count of free blocks when no byte
stays behind in a move. -/
theorem bfs_write_sound (hs : Sound s) (hi : i ≠ 0) (hslot : s.disk.inodes[i]? = some dir) (off : Nat)
    (app : Bool) (data : List UInt8) : ∃ r, bfs_write 3 s i off app data = some r ∧ Sound r.2 ∧
      ((data ≠ [] → dir.d_ino ≠ 0 → MustMove s i dir off app data.length →
        moved (size dir) = size dir) → Counted s → Counted r.2) := by
  have hget : s.getinode i = dir := by
    rw [Fs.getinode, hslot]
    rfl
  by_cases hdata : data = []
  · exact ⟨_, by rw [bfs_write, if_pos hdata], hs, fun _ hc => hc⟩
  by_cases hused : dir.d_ino = 0
  · exact ⟨_, by rw [bfs_write, if_neg hdata, hget, if_pos hused], hs, fun _ hc => hc⟩
  obtain ⟨M, K, r, hr, hK, hsettles, hM⟩ := bfs_write_spec hs.layout hi hslot hused hdata off app
  have hbefore : Sound M ∧ (∃ dirM, M.disk.inodes[i]? = some dirM ∧ dirM.d_ino ≠ 0) ∧
      ((MustMove s i dir off app data.length → moved (size dir) = size dir) → Counted s →
        Counted M) := by
    rcases hM with ⟨rfl, -⟩ | ⟨rfl, -, -⟩ | ⟨hmove, C, hC, -, hmoved, hlayout⟩
    · exact ⟨hs, ⟨dir, hslot, hused⟩, fun _ hc => hc⟩
    · exact ⟨hs, ⟨dir, hslot, hused⟩, fun _ hc => hc⟩
    · have hCs : Kept s C := by
        rcases hC with rfl | ⟨-, -, hcompacted⟩
        · exact .refl hs.layout
        · exact hcompacted.kept
      obtain ⟨dirC, hslotC, hslid⟩ := hCs.slid i dir hslot
      obtain ⟨hsound, hcount⟩ := hmoved.sound hlayout (hCs.sound hs) hi hslotC hslid.ino
        (hslid.holds ⟨hused, hmove.1⟩) hslid.size
      refine ⟨hsound, ⟨entry dir.d_ino (nextblock C) (moved (size dir)), ?_, hused⟩,
        fun hok hc => hcount (hok hmove) (hCs.counted hc)⟩
      rw [hmoved.inodes, List.getElem?_set_self (List.getElem?_eq_some_iff.mp hslotC).1]
  obtain ⟨hsoundM, ⟨dirM, hslotM, husedM⟩, hcountM⟩ := hbefore
  have hKM : Kept M K := by
    rcases hK with rfl | hcompacted
    · exact .refl hsoundM.layout
    · exact hcompacted.kept
  obtain ⟨dirK, hslotK, hslid⟩ := hKM.slid i dirM hslotM
  obtain ⟨hsound, hcount⟩ := hsettles.sound (hKM.sound hsoundM) hi hslotK (hslid.ino ▸ husedM) hdata
  exact ⟨r, hr, hsound, fun hok hc => hcount (hKM.counted (hcountM (hok hdata hused) hc))⟩

/-- The calls that count the free blocks right. A move leaves the last byte behind when it alone is left
after the chunks; a cut to nothing counts the block of a one-block file twice, and a cut of a file
without a name counts blocks that are free already; setting the size of a file without blocks counts
one more. -/
def CountsRight (s : Fs) (ev : Call × Answer) : Prop :=
  match ev.1 with
  | .write i off app data => ∀ dir, s.disk.inodes[i]? = some dir → data ≠ [] → dir.d_ino ≠ 0 →
      MustMove s i dir off app data.length → size dir ≤ MAXBSIZE ∨ size dir % MAXBSIZE ≠ 1
  | .truncate i length => ∀ dir, s.disk.inodes[i]? = some dir → dir.d_sblock ≠ 0 →
      length < size dir →
      dir.d_ino ≠ 0 ∧ (length ≠ 0 ∨ dir.d_eblock ≠ dir.d_sblock) ∨
        dir.d_ino = 0 ∧ dir.d_eblock ≤ (dir.d_sblock * BFS_BSIZE + length - 1) / BFS_BSIZE
  | .setattr i va_size => va_size = 0 → i ≠ 0 → ∀ dir, s.disk.inodes[i]? = some dir → Holds dir
  | _ => True

theorem moved_eq (h : n ≤ MAXBSIZE ∨ n % MAXBSIZE ≠ 1) : moved n = n := by
  refine if_neg fun hleft => ?_
  unfold MAXBSIZE at *
  omega

theorem slotFree_cutEntry : slotFree (cutEntry dir n) = slotFree dir := by
  unfold cutEntry slotFree entry
  split <;> rfl

/-- What a cut adds to the count is what the file loses. -/
theorem freedBy_eq (hs : Sound s) (hi : i ≠ 0) (hslot : s.disk.inodes[i]? = some dir)
    (hpos : dir.d_sblock ≠ 0) (hcut : n < size dir)
    (hok : dir.d_ino ≠ 0 ∧ (n ≠ 0 ∨ dir.d_eblock ≠ dir.d_sblock) ∨
      dir.d_ino = 0 ∧ dir.d_eblock ≤ (dir.d_sblock * BFS_BSIZE + n - 1) / BFS_BSIZE) :
    freedBy dir n + blocksOf (cutEntry dir n) = blocksOf dir := by
  rcases hok with ⟨hused, hblocks⟩ | ⟨hfree, hsame⟩
  · have hold : Holds dir := ⟨hused, hpos⟩
    have hfits := hs.layout.fits hslot hold
    have horder := hfits.order
    have heof := hfits.eof hi
    rw [blocksOf, blocksOf, if_pos hold]
    unfold freedBy cutEntry
    by_cases hn : n = 0
    · have hprev : (dir.d_sblock * BFS_BSIZE + n - 1) / BFS_BSIZE = dir.d_sblock - 1 := by
        unfold BFS_BSIZE
        omega
      have hnone : ¬Holds ⟨dir.d_ino, 0, 0, 0⟩ := fun h => h.2 rfl
      rw [if_pos hn, if_neg hnone, hprev, if_pos (by omega), if_neg (by omega)]
      omega
    have hnew : Holds (entry dir.d_ino dir.d_sblock n) := hold
    have hlt : ¬(dir.d_eblock = dir.d_sblock ∧ n = 0) := fun h => hn h.2
    rw [if_neg hn, if_pos hnew, if_neg hlt]
    have hle : (dir.d_sblock * BFS_BSIZE + n - 1) / BFS_BSIZE ≤ dir.d_eblock := by
      rw [← heof]
      refine Nat.div_le_div_right ?_
      unfold size at hcut
      omega
    have hge := entry_order dir.d_ino dir.d_sblock (Nat.pos_of_ne_zero hn)
    unfold entry at hge ⊢
    simp only at hge ⊢
    generalize (dir.d_sblock * BFS_BSIZE + n - 1) / BFS_BSIZE = q at hle hge ⊢
    split <;> omega
  · have hnone : ∀ d : Dirent, d.d_ino = 0 → blocksOf d = 0 := fun d hd => if_neg fun hold => hold.1 hd
    have hcutino : (cutEntry dir n).d_ino = 0 := by
      unfold cutEntry entry
      split <;> exact hfree
    have hlt : ¬(dir.d_eblock = dir.d_sblock ∧ n = 0) := by
      rintro ⟨heq, rfl⟩
      unfold BFS_BSIZE at hsame
      omega
    rw [hnone _ hcutino, hnone _ hfree, freedBy, if_neg (not_lt.mpr hsame), if_neg hlt]
    rfl

theorem bfs_remove_sound (hs : Sound s) (hnamed : Named s i) :
    ∃ s', bfs_remove s i = some (none, s') ∧ Sound s' ∧ (Counted s → Counted s') := by
  obtain ⟨hi, dir, hslot, hused⟩ := hnamed
  obtain ⟨s', heq, hnlink, M, hkept, hM⟩ := bfs_remove_spec hs.layout hi hslot hused (hs.links i)
  have hlinks : ∀ j, M.nlink.getD j 0 < 1 <<< 32 := fun j => by
    rw [← hkept.nlink, hnlink]
    exact getD_set_lt hs.links (mod_lt _ (by decide)) i j
  have hMs : Sound M ∧ (Counted s → Counted M) := by
    rcases hM with ⟨-, hc⟩ | ⟨-, hc⟩
    · exact ⟨hs.set hslot hc.layout hc.inodes (by rw [hc.drents]; omega) hlinks,
        fun hcount => hcount.set hslot hc.inodes hc.start hc.fin (by rw [hc.free]; omega)⟩
    have hfree : slotFree { dir with d_ino := 0 } = 1 := rfl
    have hold : slotFree dir = 0 := if_neg hused
    have hnone : blocksOf { dir with d_ino := 0 } = 0 := if_neg fun hold => hold.1 rfl
    exact ⟨hs.set hslot hc.layout hc.inodes (by rw [hc.drents, hfree, hold]; omega) hlinks,
      fun hcount => hcount.set hslot hc.inodes hc.start hc.fin (by rw [hc.free, hnone]; omega)⟩
  exact ⟨s', heq, hkept.sound hMs.1, fun hcount => hkept.counted (hMs.2 hcount)⟩

/-- Every call has an outcome; it keeps the files apart, and the count of free blocks when it is one of
those that count right. -/
theorem call_sound (hs : Sound s) (c : Call) (hallowed : Allowed s c) :
    ∃ a s', call s c = some (a, s') ∧ Sound s' ∧ (CountsRight s (c, a) → Counted s → Counted s') := by
  cases c with
  | create =>
    rcases bfs_create_spec hs.layout hs.drents with
      heq | ⟨i, dir, s', heq, hslot, hfree, hi, hc, hnlink⟩
    · exact ⟨_, s, by rw [call, heq]; rfl, hs, fun _ hc => hc⟩
    · have hnew : slotFree ⟨i + 2, 0, 0, 0⟩ = 0 := rfl
      have hold : slotFree dir = 1 := if_pos hfree
      have hnone : blocksOf ⟨i + 2, 0, 0, 0⟩ = 0 := if_neg fun hold => hold.2 rfl
      have hnone' : blocksOf dir = 0 := if_neg fun hold => hold.1 hfree
      refine ⟨_, s', by rw [call, heq]; rfl, hs.set hslot hc.layout hc.inodes ?_ fun j => ?_,
        fun _ hcount => hcount.set hslot hc.inodes hc.start hc.fin ?_⟩
      · rw [hc.drents, hnew, hold]
        omega
      · rw [hnlink]
        exact getD_set_lt hs.links (by decide) i j
      · rw [hc.free, hnone, hnone', Int.add_zero]
  | link i =>
    refine ⟨_, _, rfl, ⟨hs.layout, hs.drents, fun j => ?_⟩, fun _ hc => hc⟩
    exact getD_set_lt hs.links (mod_lt _ (by decide)) i j
  | remove i =>
    obtain ⟨s', heq, hsound, hcount⟩ := bfs_remove_sound hs hallowed
    exact ⟨_, s', by rw [call, heq]; rfl, hsound, fun _ => hcount⟩
  | rename target =>
    cases target with
    | none => exact ⟨_, s, rfl, hs, fun _ hc => hc⟩
    | some i =>
      obtain ⟨s', heq, hsound, hcount⟩ := bfs_remove_sound hs hallowed
      exact ⟨_, s', by rw [call, bfs_rename, heq]; rfl, hsound, fun _ => hcount⟩
  | write i off app data =>
    obtain ⟨hi, hlt⟩ := hallowed
    have hslot := List.getElem?_eq_getElem hlt
    obtain ⟨r, heq, hsound, hcount⟩ := bfs_write_sound hs hi hslot off app data
    exact ⟨_, r.2, by rw [call, heq]; rfl, hsound, fun hok => hcount fun hdata hused hmove =>
      moved_eq (hok _ hslot hdata hused hmove)⟩
  | read i off resid => exact ⟨_, s, rfl, hs, fun _ hc => hc⟩
  | truncate i length =>
    obtain ⟨hi, hlt⟩ := hallowed
    have hslot := List.getElem?_eq_getElem hlt
    rcases bfs_truncate_spec hs.layout hi hslot length with
      ⟨e, heq, -⟩ | ⟨hpos, hcut, s', M, heq, hkept, hnlink, hc⟩
    · exact ⟨_, s, by rw [call, heq]; rfl, hs, fun _ hc => hc⟩
    · have hM : Sound M := hs.set hslot hc.layout hc.inodes
        (by rw [hc.drents, slotFree_cutEntry, Int.add_zero]) (by rw [hnlink]; exact hs.links)
      refine ⟨_, s', by rw [call, heq]; rfl, hkept.sound hM, fun hok hcount => hkept.counted ?_⟩
      have hfreed := freedBy_eq hs hi hslot hpos hcut (hok _ hslot hpos hcut)
      exact hcount.set hslot hc.inodes hc.start hc.fin (by rw [hc.free]; omega)
  | setattr i va_size =>
    have hslot := List.getElem?_eq_getElem hallowed
    rcases bfs_setattr_spec hs.layout hslot va_size with ⟨e, heq⟩ | ⟨hi, hzero, M, heq, hnlink, hc⟩
    · exact ⟨_, s, by rw [call, heq]; rfl, hs, fun _ hc => hc⟩
    refine ⟨_, M, by rw [call, heq]; rfl, hs.set hslot hc.layout hc.inodes
      (by rw [hc.drents, Int.add_zero]; rfl) (by rw [hnlink]; exact hs.links),
      fun hok hcount => hcount.set hslot hc.inodes hc.start hc.fin ?_⟩
    have hold := hok hzero hi _ hslot
    have horder := (hs.layout.fits hslot hold).order
    have hnone : blocksOf ⟨(s.disk.inodes[i]).d_ino, 0, 0, 0⟩ = 0 := if_neg fun hold => hold.2 rfl
    rw [hc.free, hnone, blocksOf, if_pos hold]
    omega
  | compact =>
    obtain ⟨s', heq, hcompacted⟩ := bfs_compact_spec hs.layout
    exact ⟨_, s', by rw [call, heq]; rfl, hcompacted.kept.sound hs, fun _ => hcompacted.kept.counted⟩

theorem step_sound (hs : Sound s) (h : step s ev s') :
    Sound s' ∧ (CountsRight s ev → Counted s → Counted s') := by
  obtain ⟨a, t, heq, hsound, hcount⟩ := call_sound hs ev.1 h.1
  obtain ⟨rfl, rfl⟩ := Prod.mk.inj (some.inj (heq.symm.trans h.2))
  exact ⟨hsound, hcount⟩

theorem root_only {files : Nat} {root : Dirent}
    (hi : (root :: replicate files ⟨0, 0, 0, 0⟩)[i]? = some dir) (hused : dir.d_ino ≠ 0) :
    i = 0 ∧ dir = root := by
  cases i with
  | zero => exact ⟨rfl, (some.inj hi).symm⟩
  | succ i =>
    rw [List.getElem?_cons_succ, List.getElem?_replicate] at hi
    split at hi
    · exact absurd (congrArg Dirent.d_ino (some.inj hi)).symm hused
    · cases hi

/-- The slots of a fresh file system. -/
theorem root_layout {files start size first : Nat} (hfirst : firstBlock start = first)
    (hsuper : BFS_BSIZE ≤ start) (hroom : first + BFSDOTSIZE ≤ size) :
    Layout (⟨2, first, first + BFSDOTSIZE - 1, first * BFS_BSIZE + 2 * 16 - 1⟩ ::
      replicate files ⟨0, 0, 0, 0⟩) start (size * BFS_BSIZE - 1) (some 0) where
  whole := by
    unfold BFSDOTSIZE BFS_BSIZE at *
    omega
  super := hsuper
  root := ⟨_, rfl, (by decide : 2 ≠ 0), hfirst.symm⟩
  held i dir hi hused := by
    obtain ⟨rfl, rfl⟩ := root_only hi hused
    refine .inr ⟨hfirst.le, ?_, ?_, ?_, fun hne => absurd rfl hne⟩
    · unfold BFSDOTSIZE
      simp only
      omega
    · unfold blockCount BFSDOTSIZE BFS_BSIZE at *
      simp only
      omega
    · unfold BFSDOTSIZE BFS_BSIZE
      simp only
      omega
  apart i j di dj hne hi hj hdi hdj :=
    absurd ((root_only hi hdi.1).1.trans (root_only hj hdj.1).1.symm) hne
  last := by
    refine ⟨0, _, rfl, rfl, ⟨(by decide : 2 ≠ 0), ?_⟩, fun j dj hj hused => ?_⟩
    · unfold firstBlock BFS_BSIZE at *
      simp only
      omega
    · rw [(root_only hj hused).2]

/-- A fresh file system holds the root directory and nothing else. -/
theorem mkfs_sound {size files : Nat} {blocks : Nat → Block} (h : mkfs size files blocks = some s) :
    Sound s ∧ Counted s := by
  rw [mkfs] at h
  simp only at h
  split at h
  · cases h
  split at h
  · cases h
  rename_i hmax hfits
  obtain rfl := some.inj h
  have hfirst : firstBlock (BFS_BSIZE + (files + 1) * 64) =
      1 + ((files + 1) * 64 / BFS_BSIZE + ((files + 1) * 64 % BFS_BSIZE + 511) / BFS_BSIZE) := by
    unfold firstBlock BFS_BSIZE
    omega
  have hroom : firstBlock (BFS_BSIZE + (files + 1) * 64) + BFSDOTSIZE ≤ size := by
    rw [hfirst]
    unfold BFSDOTSIZE at *
    omega
  have hpos : 0 < firstBlock (BFS_BSIZE + (files + 1) * 64) := by
    rw [hfirst]
    exact Nat.one_pos.trans_le (Nat.le_add_right 1 _)
  refine ⟨⟨root_layout rfl (Nat.le_add_right _ _) hroom, ?_, fun i => ?_⟩, ?_⟩
  · have hroot : ∀ a b c, slotFree ⟨2, a, b, c⟩ = 0 := fun _ _ _ => rfl
    have hnone : slotFree ⟨0, 0, 0, 0⟩ = 1 := rfl
    simp only [freeSlots, total, total_replicate, hroot, hnone, mul_one, zero_add]
  · cases i with
    | zero => exact (by decide : 2 < 1 <<< 32)
    | succ i =>
      rw [getD_cons_succ, getD_eq_getElem?_getD, List.getElem?_replicate]
      split <;> decide
  · have hroot : blocksOf ⟨2, firstBlock (BFS_BSIZE + (files + 1) * 64),
        firstBlock (BFS_BSIZE + (files + 1) * 64) + BFSDOTSIZE - 1,
        firstBlock (BFS_BSIZE + (files + 1) * 64) * BFS_BSIZE + 2 * 16 - 1⟩ = BFSDOTSIZE := by
      rw [blocksOf, if_pos ⟨(by decide : 2 ≠ 0), hpos.ne'⟩]
      simp only
      omega
    have hnone : blocksOf ⟨0, 0, 0, 0⟩ = 0 := rfl
    have hsize : size * BFS_BSIZE - 1 + 1 = size * BFS_BSIZE := by
      omega
    unfold Counted
    simp only [heldBlocks, total, total_replicate, hroot, hnone, hsize, Nat.mul_zero, add_zero]

/-- Where the files lie and what is counted; the root directory keeps the blocks it was given. -/
structure WellKept (s : Fs) : Prop where
  apart : ∀ (i j : Nat) (di dj : Dirent), i ≠ j → s.disk.inodes[i]? = some di →
    s.disk.inodes[j]? = some dj → Holds di → Holds dj → Apart di dj
  inside : ∀ (i : Nat) (dir : Dirent), s.disk.inodes[i]? = some dir → Holds dir →
    firstBlock s.bsup_start ≤ dir.d_sblock ∧ dir.d_sblock ≤ dir.d_eblock ∧
      dir.d_eblock < blockCount s.bsup_end
  eof : ∀ (i : Nat) (dir : Dirent), i ≠ 0 → s.disk.inodes[i]? = some dir → Holds dir →
    dir.d_eblock = dir.d_eoffset / BFS_BSIZE
  last : Last s.disk.inodes s.bsup_lastfile
  blocks : s.bsup_freeblocks =
    (blockCount s.bsup_end : Int) - firstBlock s.bsup_start - heldBlocks s.disk.inodes
  drents : s.bsup_freedrents = freeSlots s.disk.inodes

theorem Sound.wellKept (hs : Sound s) (hc : Counted s) : WellKept s where
  apart := hs.layout.apart
  inside i dir hi hold := by
    have hfits := hs.layout.fits hi hold
    exact ⟨hfits.first, hfits.order, hfits.inside⟩
  eof i dir hne hi hold := ((hs.layout.fits hi hold).eof hne).symm
  last := hs.layout.last
  blocks := by
    obtain ⟨root, hroot, hold, hfirst⟩ := hs.layout.root_holds
    have hfits := hs.layout.fits hroot hold
    have horder := hfits.order
    have hinside := hfits.inside
    have hwhole := hs.layout.whole
    have hdata : (s.bsup_end + 1 - s.bsup_start) / BFS_BSIZE + firstBlock s.bsup_start =
        blockCount s.bsup_end := by
      have hlt : firstBlock s.bsup_start < blockCount s.bsup_end := by omega
      unfold firstBlock blockCount BFS_BSIZE at *
      omega
    rw [hc]
    omega
  drents := hs.drents

/-- The files of a boot file system stay apart and its counts stay right in every run, from a fresh file
system on, of calls that count the free blocks right. -/
theorem files_run {size files : Nat} {blocks : Nat → Block} (hmkfs : mkfs size files blocks = some s₀)
    (h : Exec (Guarded step CountsRight) s₀ events s) : WellKept s := by
  have hinv := h.keeps (fun s => Sound s ∧ Counted s) (fun s ev t hs hstep => by
      obtain ⟨hsound, hcount⟩ := step_sound hs.1 hstep.2
      exact ⟨hsound, hcount hstep.1 hs.2⟩) (mkfs_sound hmkfs)
  exact hinv.1.wellKept hinv.2

def fresh : Option Fs := mkfs 40 1 fun _ _ => 0

def after (calls : List Call) : Option Fs :=
  calls.foldlM (fun s c => (call s c).map Prod.snd) =<< fresh

theorem files_run_written : ∃ s₀ s, mkfs 40 1 (fun _ _ => 0) = some s₀ ∧
      Exec step s₀ [(.create, none, []), (.write 1 0 false [7], none, [])] s ∧ WellKept s := by
  have hcreate : Guarded step CountsRight (fresh.get rfl) (.create, none, [])
      ((after [.create]).get rfl) := ⟨trivial, trivial, rfl⟩
  have hwrite : Guarded step CountsRight ((after [.create]).get rfl)
      (.write 1 0 false [7], none, []) ((after [.create, .write 1 0 false [7]]).get rfl) := by
    refine ⟨fun dir hslot _ _ hmove => ?_, ⟨by decide, by decide⟩, rfl⟩
    obtain rfl : ⟨3, 0, 0, 0⟩ = dir := some.inj hslot
    exact absurd rfl hmove.1
  have hrun := Exec.cons hcreate (Exec.single hwrite)
  have hmkfs : mkfs 40 1 (fun _ _ => 0) = some (fresh.get rfl) := rfl
  exact ⟨_, _, hmkfs, hrun.of_guarded, files_run hmkfs hrun⟩

/-- Cutting a file of one byte to nothing frees its block twice. -/
theorem files_run_cut :
    ¬∀ (s₀ s : Fs) (events : List (Call × Answer)), mkfs 40 1 (fun _ _ => 0) = some s₀ →
      (∀ ev ∈ events, ev.2.1 = none) → Exec step s₀ events s → WellKept s := by
  intro hall
  have hcreate : step (fresh.get rfl) (.create, none, []) ((after [.create]).get rfl) := ⟨trivial, rfl⟩
  have hwrite : step ((after [.create]).get rfl) (.write 1 0 false [7], none, [])
      ((after [.create, .write 1 0 false [7]]).get rfl) := ⟨⟨by decide, by decide⟩, rfl⟩
  have hcut : step ((after [.create, .write 1 0 false [7]]).get rfl) (.truncate 1 0, none, [])
      ((after [.create, .write 1 0 false [7], .truncate 1 0]).get rfl) :=
    ⟨⟨by decide, by decide⟩, rfl⟩
  have hkept := hall _ _ _ rfl (by decide)
    (Exec.cons hcreate (Exec.cons hwrite (Exec.single hcut)))
  exact absurd hkept.blocks (by decide)

end Svr42.BfsFile
