import Svr42.BfsDirents

/-! Link counts and inode slots against the names of the root directory, through each of the calls
that create, link, rename and remove names. -/

namespace Svr42.BfsDir
open List Option

/-- The entries stand for the map `m`; the link count of an inode is the number of its names, its
slot is in use exactly when there are any, and the free slots are counted. -/
structure Books (s : Bfs) (m : Dir) : Prop where
  stores : Stores Ldir.held s.ldirs m
  nlink : ∀ i dir, s.inodes[i]? = some dir → dir.va_nlink = named m (i + BFSROOTINO)
  used : ∀ i dir, s.inodes[i]? = some dir → (dir.d_ino ≠ 0 ↔ 0 < named m (i + BFSROOTINO))
  inside : ∀ ino, 0 < named m ino → ∃ i < s.inodes.length, ino = i + BFSROOTINO
  free : s.freedrents = s.inodes.countP fun dir => dir.d_ino = 0
  blocks : s.d_eblock = s.d_sblock + 15
  entries : s.ldirs.length ≤ 512
  slots : s.inodes.length ≤ 512

variable {ino : Nat}

namespace Books

variable {s : Bfs} {m m' : Dir} {l' : List Ldir}

section

variable (h : Books s m)
include h

theorem named_le (ino : Nat) : named m ino ≤ 512 :=
  calc named m ino ≤ m.keys.card := named_le_card
    _ ≤ s.ldirs.length := h.stores.card_le
    _ ≤ 512 := h.entries

theorem entries_extend (hext : s.Extends) : s.ldirs.length + 1 ≤ 512 := by
  have hblocks := h.blocks
  unfold Bfs.Extends Bfs.d_eoffset ldirSize BFS_BSIZE at hext
  omega

theorem entries_add
    (hlen : l'.length = s.ldirs.length ∨ s.Extends ∧ l'.length = s.ldirs.length + 1) :
    l'.length ≤ 512 := by
  rcases hlen with hlen | ⟨hext, hlen⟩
  · exact hlen ▸ h.entries
  · exact hlen ▸ h.entries_extend hext

theorem slot {k : Name} (hk : m.lookup k = some ino) :
    ∃ i dir, ino = i + BFSROOTINO ∧ s.inodes[i]? = some dir ∧ s.getinode ino = dir := by
  obtain ⟨i, hi, rfl⟩ := h.inside ino (named_pos.mpr ⟨k, hk⟩)
  refine ⟨i, s.inodes[i], rfl, List.getElem?_eq_getElem hi, ?_⟩
  rw [Bfs.getinode, Nat.add_sub_cancel, List.getElem?_eq_getElem hi]
  rfl

theorem relabel (hstores : Stores Ldir.held l' m') (hlen : l'.length = s.ldirs.length)
    (hnamed : ∀ ino, named m' ino = named m ino) : Books { s with ldirs := l' } m' where
  stores := hstores
  nlink i dir hi := (h.nlink i dir hi).trans (hnamed _).symm
  used i dir hi := by
    rw [hnamed]
    exact h.used i dir hi
  inside ino hpos := h.inside ino (by rwa [hnamed] at hpos)
  free := h.free
  blocks := h.blocks
  entries := hlen ▸ h.entries
  slots := h.slots

/-- The names of one inode may change when its slot follows. -/
theorem recount {i : Nat} {dir : Dirent} (dir' : Dirent) (f : Int)
    (hstores : Stores Ldir.held l' m') (hlen : l'.length ≤ 512) (hi : s.inodes[i]? = some dir)
    (hother : ∀ ino, ino ≠ i + BFSROOTINO → named m' ino = named m ino)
    (hnlink : dir'.va_nlink = named m' (i + BFSROOTINO))
    (hused : dir'.d_ino ≠ 0 ↔ 0 < named m' (i + BFSROOTINO))
    (hfree : f + (if dir.d_ino = 0 then 1 else 0) = s.freedrents + if dir'.d_ino = 0 then 1 else 0) :
    Books { s with inodes := s.inodes.set i dir', ldirs := l', freedrents := f } m' := by
  obtain ⟨hlt, hdir⟩ := List.getElem?_eq_some_iff.mp hi
  have hset : ∀ j x, (s.inodes.set i dir')[j]? = some x →
      j = i ∧ x = dir' ∨ j ≠ i ∧ s.inodes[j]? = some x := by
    intro j x hx
    rw [List.getElem?_set] at hx
    by_cases hji : i = j
    · rw [if_pos hji, if_pos hlt, some_inj] at hx
      exact .inl ⟨hji.symm, hx.symm⟩
    · rw [if_neg hji] at hx
      exact .inr ⟨fun h => hji h.symm, hx⟩
  have hne : ∀ j, j ≠ i → named m' (j + BFSROOTINO) = named m (j + BFSROOTINO) :=
    fun j hj => hother _ fun h => hj (Nat.add_right_cancel h)
  refine ⟨hstores, ?_, ?_, ?_, ?_, h.blocks, hlen, ?_⟩
  · intro j x hx
    rcases hset j x hx with ⟨rfl, rfl⟩ | ⟨hj, hx⟩
    · exact hnlink
    · exact (h.nlink j x hx).trans (hne j hj).symm
  · intro j x hx
    rcases hset j x hx with ⟨rfl, rfl⟩ | ⟨hj, hx⟩
    · exact hused
    · rw [hne j hj]
      exact h.used j x hx
  · intro ino hpos
    rw [List.length_set]
    by_cases hino : ino = i + BFSROOTINO
    · exact ⟨i, hlt, hino⟩
    · exact h.inside ino (by rwa [hother ino hino] at hpos)
  · have hcount := List.countP_set (p := fun dir => decide (dir.d_ino = 0)) (a := dir') hlt
    have hone : (if decide (dir.d_ino = 0) = true then 1 else 0) ≤
        s.inodes.countP fun dir => decide (dir.d_ino = 0) :=
      hdir ▸ List.boole_getElem_le_countP (p := fun dir => decide (dir.d_ino = 0)) hlt
    rw [hdir] at hcount
    have hold := h.free
    simp only [decide_eq_true_eq] at hcount hone hold ⊢
    rw [hcount]
    split_ifs at hfree hcount hone ⊢ <;> omega
  · rw [List.length_set]
    exact h.slots

end

end Books

section Calls

theorem nlinkDec_eq {n : Nat} (hpos : 0 < n) (hle : n ≤ 512) : nlinkDec n = n - 1 := by
  have hwide : (1 <<< 32 : Nat) = 4294967296 := rfl
  rw [nlinkDec, hwide]
  omega

theorem nlinkInc_eq {n : Nat} (hle : n ≤ 512) : nlinkInc n = n + 1 := by
  have hwide : (1 <<< 32 : Nat) = 4294967296 := rfl
  rw [nlinkInc, hwide]
  omega

variable {s : Bfs} {m : Dir} {nm snm tnm : Name}

/-- A vnode that a lookup finds is the root under one of its two own names or the file that the
name is mapped to. -/
theorem lookup_ok {io : LookupIo} {vp : Nat} (h : Books s m)
    (hlook : bfs_lookup io s BFSROOTINO nm = .ok vp) : (nm = [] ∨ nm = ['.', '.']) ∧ vp = BFSROOTINO ∨
      io.access = none ∧ io.search = none ∧ m.lookup nm.key = some vp := by
  unfold bfs_lookup at hlook
  rw [if_neg (fun hdir => hdir rfl)] at hlook
  cases haccess : io.access with
  | some e => simp only [haccess, reduceCtorEq] at hlook
  | none =>
    simp only [haccess] at hlook
    split_ifs at hlook with hnil hdots hzero
    · exact .inl ⟨.inl hnil, (Except.ok.inj hlook).symm⟩
    · exact .inl ⟨.inr hdots, (Except.ok.inj hlook).symm⟩
    · cases hsearch : io.search with
      | some e =>
        rw [hsearch] at hzero
        exact absurd rfl hzero
      | none =>
        rw [hsearch, searchdir_eq h.stores] at hlook hzero
        cases hm : m.lookup nm.key with
        | none =>
          rw [hm] at hzero
          exact absurd rfl hzero
        | some ino =>
          rw [hm] at hlook
          exact .inr ⟨rfl, rfl, congrArg some (Except.ok.inj hlook)⟩

theorem v_type_dir {vp : Nat} : v_type vp = .VDIR ↔ vp = BFSROOTINO := by
  unfold v_type
  split_ifs with hvp
  · exact ⟨fun _ => hvp, fun _ => rfl⟩
  · exact ⟨fun h => (by cases h), fun h => absurd h hvp⟩

def RemoveIo.Through (io : RemoveIo) : Prop :=
  io.access = none ∧ io.look.access = none ∧ io.look.search = none ∧ io.getInode = none ∧
    io.dirent.Through

def RemoveIo.Ends (io : RemoveIo) : Prop := io.dirent.putRoot = none ∧ io.putInode = none

/-- A removal fails and changes nothing, or takes away the name, and the inode with its last name. -/
theorem remove_cases (io : RemoveIo) (nm : Name) (h : Books s m) :
    (∃ e, bfs_remove io s BFSROOTINO nm = (some e, s)) ∨
      io.Through ∧ ∃ ino, m.lookup nm.key = some ino ∧ ino ≠ BFSROOTINO ∧
        (io.Ends → ∃ s', bfs_remove io s BFSROOTINO nm = (none, s') ∧ Books s' (m.erase nm.key)) := by
  unfold bfs_remove
  cases haccess : io.access with
  | some e => exact .inl ⟨e, rfl⟩
  | none =>
    cases hlook : bfs_lookup io.look s BFSROOTINO nm with
    | error e => exact .inl ⟨e, rfl⟩
    | ok rvp =>
      by_cases hdir : v_type rvp = .VDIR
      · simp only [if_pos hdir]
        exact .inl ⟨_, rfl⟩
      simp only [if_neg hdir]
      have hroot : rvp ≠ BFSROOTINO := mt v_type_dir.mpr hdir
      obtain ⟨-, hrvp⟩ | ⟨hlookaccess, hsearch, hm⟩ := lookup_ok h hlook
      · exact absurd hrvp hroot
      cases hget : io.getInode with
      | some e => exact .inl ⟨e, rfl⟩
      | none =>
        obtain ⟨e, heq, -⟩ | ⟨hthrough, l', hmem, hstores, hlen, heq⟩ :=
          rmdirent_cases io.dirent nm h.stores
        · simp only [heq]
          exact .inl ⟨e, rfl⟩
        refine .inr ⟨⟨haccess, hlookaccess, hsearch, hget, hthrough⟩, rvp, hm, hroot, ?_⟩
        rintro ⟨hputRoot, hput⟩
        rw [hputRoot] at heq
        simp only [heq, hput]
        obtain ⟨i, dir, rfl, hi, hdirent⟩ := h.slot hm
        have herase : ∀ ino, named m ino = named (m.erase nm.key) ino +
            if i + BFSROOTINO = ino then 1 else 0 := fun ino => named_erase hm
        have hother : ∀ ino, ino ≠ i + BFSROOTINO → named (m.erase nm.key) ino = named m ino := by
          intro ino hino
          rw [herase ino, if_neg (fun h => hino h.symm), add_zero]
        have hone := herase (i + BFSROOTINO)
        rw [if_pos rfl] at hone
        have hle := h.named_le (i + BFSROOTINO)
        have hnlink := h.nlink i dir hi
        have hused : dir.d_ino ≠ 0 := (h.used i dir hi).mpr (by omega)
        have hdec : nlinkDec dir.va_nlink = named (m.erase nm.key) (i + BFSROOTINO) := by
          rw [hnlink, nlinkDec_eq (by omega) hle, hone, Nat.add_sub_cancel]
        simp only [hdirent, Bfs.putinode, Nat.add_sub_cancel]
        by_cases hlast : nlinkDec dir.va_nlink ≥ 1
        · rw [if_pos hlast]
          refine ⟨_, rfl, h.recount _ s.freedrents hstores (hlen ▸ h.entries) hi hother hdec ?_ ?_⟩
          · rw [if_neg (by omega)]
            exact ⟨fun _ => by omega, fun _ => hused⟩
          · rw [if_neg (show dir.va_nlink ≠ 1 by omega)]
        · rw [if_neg hlast]
          refine ⟨_, rfl, h.recount _ (s.freedrents + 1) hstores (hlen ▸ h.entries) hi hother hdec ?_ ?_⟩
          · rw [if_pos (by omega)]
            exact ⟨fun h => absurd rfl h, fun _ => by omega⟩
          · rw [if_neg hused, if_pos (if_pos (by omega))]
            omega

variable {a b : Name}

theorem named_move (ha : m.lookup a = some ino) (hb : b ∉ m.erase a) (v : Nat) :
    named ((m.erase a).insert b ino) v = named m v := by
  rw [named_insert hb, named_erase ha]

theorem rendirent_books (io : DirentIo) (h : Books s m) (hk : tnm.key ∉ m.erase snm.key) :
    (∃ e, bfs_rendirent io s snm tnm = (some e, s) ∧ ¬ (io.Through ∧ snm.key ∈ m)) ∨
      ∃ ino s', m.lookup snm.key = some ino ∧ bfs_rendirent io s snm tnm = (io.putRoot, s') ∧
        Books s' ((m.erase snm.key).insert tnm.key ino) := by
  obtain herr | ⟨-, ino, l', hino, hstores, hlen, heq⟩ := rendirent_cases io h.stores hk
  · exact .inl herr
  · exact .inr ⟨ino, _, hino, heq, h.relabel hstores hlen (named_move hino hk)⟩

theorem rendirent_ok (io : DirentIo) (tnm : Name) (h : Books s m) (hsrc : m.lookup snm.key = some ino)
    (hk : tnm.key ∉ m.erase snm.key) (hput : io.putRoot = none) :
    (∃ e, bfs_rendirent io s snm tnm = (some e, s) ∧ ¬ io.Through) ∨
      ∃ s', bfs_rendirent io s snm tnm = (none, s') ∧
        Books s' ((m.erase snm.key).insert tnm.key ino) := by
  obtain ⟨e, heq, hno⟩ | ⟨ino', s', hino, heq, hbooks⟩ := rendirent_books io h hk
  · exact .inl ⟨e, heq, fun hthrough => hno ⟨hthrough, Finmap.mem_of_lookup_eq_some hsrc⟩⟩
  · rw [hput] at heq
    rw [hsrc, some_inj] at hino
    exact .inr ⟨s', heq, hino ▸ hbooks⟩

/-- What a map is after the binding of `a`, the inode `ino`, was moved to `b`: nothing changes when
`b` names that inode already. -/
def Renamed (m : Dir) (a b : Name) (ino : Nat) (m' : Dir) : Prop :=
  m.lookup a = some ino ∧
    (m.lookup b = some ino ∧ m' = m ∨ m.lookup b ≠ some ino ∧ m' = (m.erase a).insert b ino)

def RenameIo.Passes (io : RenameIo) (s : Bfs) (snm : Name) : Prop :=
  io.access = none ∧ snm ≠ ['.'] ∧ snm ≠ ['.', '.'] ∧ io.look.access = none ∧
    io.look.search = none ∧ bfs_searchdir none s snm ≠ 0

/-- Either there is no target, or the device hides it and it is the source itself, or its removal is
refused, or it is another file, and then the device does every write of the call. -/
def RenameIo.Fits (io : RenameIo) (s : Bfs) (snm tnm : Name) : Prop :=
  bfs_searchdir none s tnm = 0 ∧ io.dirent.putRoot = none ∨
    io.find ≠ none ∧ snm.key = tnm.key ∧ io.dirent.putRoot = none ∨
    io.find = none ∧ bfs_searchdir none s tnm ≠ 0 ∧
      (io.remove.Through → bfs_searchdir none s tnm = BFSROOTINO ∨
        bfs_searchdir none s snm ≠ bfs_searchdir none s tnm ∧ io.remove.Ends ∧ io.dirent.Quiet)

theorem erase_insert_self (ha : m.lookup a = some ino) : (m.erase a).insert a ino = m :=
  Finmap.ext_lookup fun q => by
    by_cases hq : q = a
    · rw [hq, Finmap.lookup_insert, ha]
    · rw [Finmap.lookup_insert_of_ne _ hq, Finmap.lookup_erase_ne hq]

theorem erase_erase_insert : ((m.erase b).erase a).insert b ino = (m.erase a).insert b ino :=
  Finmap.ext_lookup fun q => by
    by_cases hq : q = b
    · rw [hq, Finmap.lookup_insert, Finmap.lookup_insert]
    · rw [Finmap.lookup_insert_of_ne _ hq, Finmap.lookup_insert_of_ne _ hq, Finmap.erase_erase,
        Finmap.lookup_erase_ne hq]

theorem searchdir_zero (h : Books s m) : bfs_searchdir none s nm = 0 ↔ nm.key ∉ m := by
  rw [searchdir_eq h.stores, ← Finmap.lookup_eq_none]
  cases hlook : m.lookup nm.key with
  | none => exact ⟨fun _ => rfl, fun _ => rfl⟩
  | some ino =>
    exact ⟨fun hzero => absurd hzero (lookup_ne_zero h.stores hlook),
      fun hnone => absurd hnone (some_ne_none ino)⟩

theorem rename_cases {io : RenameIo} (h : Books s m) (hnil : snm ≠ [])
    (hfits : io.Passes s snm → io.Fits s snm tnm) :
    (∃ e, bfs_rename io s BFSROOTINO snm BFSROOTINO tnm = (some e, s)) ∨
      ∃ s' ino m', bfs_rename io s BFSROOTINO snm BFSROOTINO tnm = (none, s') ∧ Books s' m' ∧
        Renamed m snm.key tnm.key ino m' := by
  unfold bfs_rename
  rw [if_neg (fun hne => hne rfl)]
  cases haccess : io.access with
  | some e => exact .inl ⟨e, rfl⟩
  | none =>
    by_cases hdots : snm = ['.'] ∨ snm = ['.', '.']
    · simp only [if_pos hdots]
      exact .inl ⟨_, rfl⟩
    simp only [if_neg hdots]
    obtain ⟨hdot, hdotdot⟩ := not_or.mp hdots
    cases hlook : bfs_lookup io.look s BFSROOTINO snm with
    | error e => exact .inl ⟨e, rfl⟩
    | ok vp =>
      obtain ⟨hroot | hroot, -⟩ | ⟨hlookaccess, hlooksearch, hsrc⟩ := lookup_ok h hlook
      · exact absurd hroot hnil
      · exact absurd hroot hdotdot
      have hsearch : bfs_searchdir none s snm = vp := by
        rw [searchdir_eq h.stores, hsrc]
        rfl
      have hvp : vp ≠ 0 := lookup_ne_zero h.stores hsrc
      have hfit := hfits ⟨haccess, hdot, hdotdot, hlookaccess, hlooksearch, by rwa [hsearch]⟩
      have hmove := fun hk hput => rendirent_ok io.dirent tnm h hsrc hk hput
      by_cases hgo : bfs_searchdir io.find s tnm ≠ 0
      · -- the device has shown the target, so it is to be removed first
        have hfind : io.find = none := by
          cases hio : io.find with
          | none => rfl
          | some e =>
            rw [hio] at hgo
            exact absurd rfl hgo
        rw [hfind] at hgo
        rw [if_pos (by rwa [hfind])]
        obtain ⟨hzero, -⟩ | ⟨hne, -⟩ | ⟨-, -, hremove⟩ := hfit
        · exact absurd hzero hgo
        · exact absurd hfind hne
        obtain ⟨e, heq⟩ | ⟨hthrough, ino, htgt, hroot, hends⟩ := remove_cases io.remove tnm h
        · simp only [heq]
          exact .inl ⟨e, rfl⟩
        have htsearch : bfs_searchdir none s tnm = ino := by
          rw [searchdir_eq h.stores, htgt]
          rfl
        obtain htroot | ⟨hother, hend, hquiet⟩ := hremove hthrough
        · exact absurd (htsearch.symm.trans htroot) hroot
        rw [hsearch, htsearch] at hother
        obtain ⟨s₁, heq, hbooks⟩ := hends hend
        have hkey : snm.key ≠ tnm.key := fun hkey => hother (some.inj (by rw [← hsrc, hkey, htgt]))
        have hsrc₁ : (m.erase tnm.key).lookup snm.key = some vp := by
          rw [Finmap.lookup_erase_ne hkey, hsrc]
        have hk : tnm.key ∉ (m.erase tnm.key).erase snm.key := fun hk =>
          Finmap.notMem_erase_self (Finmap.mem_erase.mp hk).2
        simp only [heq]
        obtain ⟨e, -, hno⟩ | ⟨s', heq', hbooks'⟩ := rendirent_ok io.dirent tnm hbooks hsrc₁ hk hquiet.2
        · exact absurd hquiet.1 hno
        · rw [erase_erase_insert] at hbooks'
          exact .inr ⟨s', vp, _, heq', hbooks', hsrc, .inr ⟨fun hsame =>
            hother (some.inj (hsame.symm.trans htgt)), rfl⟩⟩
      · rw [if_neg hgo]
        obtain ⟨hzero, hput⟩ | ⟨-, hkey, hput⟩ | ⟨hfind, hne, -⟩ := hfit
        · have habsent := (searchdir_zero h).mp hzero
          obtain ⟨e, heq, -⟩ | ⟨s', heq, hbooks⟩ :=
            hmove (fun hk => habsent (Finmap.mem_erase.mp hk).2) hput
          · exact .inl ⟨e, heq⟩
          · exact .inr ⟨s', vp, _, heq, hbooks, hsrc, .inr ⟨fun hsome =>
              habsent (Finmap.mem_of_lookup_eq_some hsome), rfl⟩⟩
        · obtain ⟨e, heq, -⟩ | ⟨s', heq, hbooks⟩ :=
            hmove (by rw [hkey]; exact Finmap.notMem_erase_self) hput
          · exact .inl ⟨e, heq⟩
          · rw [← hkey, erase_insert_self hsrc] at hbooks
            exact .inr ⟨s', vp, m, heq, hbooks, hsrc, .inl ⟨by rw [← hkey, hsrc], rfl⟩⟩
        · rw [hfind] at hgo
          exact absurd hne hgo

/-- The device does the transfers of a link that follow the write of the entry; a failure to put the
root inode back does no harm when the entry was to lie past the end of the directory. -/
def LinkIo.Fits (io : LinkIo) (s : Bfs) : Prop :=
  io.getInode = none ∧ io.putInode = none ∧ (io.dirent.putRoot = none ∨ ¬ s.HasEmpty)

theorem link_cases {io : LinkIo} {svp : Nat} (h : Books s m) (hsrc : m.lookup snm.key = some svp)
    (hfits : io.Fits s) : (∃ e, bfs_link io s BFSROOTINO svp tnm = (some e, s)) ∨
      ∃ s', bfs_link io s BFSROOTINO svp tnm = (none, s') ∧ tnm.key ∉ m ∧
        Books s' (m.insert tnm.key svp) := by
  unfold bfs_link
  rw [if_neg (fun hne => hne rfl)]
  by_cases hreg : v_type svp ≠ .VREG
  · exact .inl ⟨_, by rw [if_pos hreg]⟩
  rw [if_neg hreg]
  cases haccess : io.access with
  | some e => exact .inl ⟨e, rfl⟩
  | none =>
    obtain ⟨e, heq, -⟩ | ⟨l', hnew, hstores, hlen, heq | ⟨e, hput, hempty, -⟩⟩ :=
      addirent_cases io.dirent tnm h.stores (lookup_ne_zero h.stores hsrc)
    · simp only [heq]
      exact .inl ⟨e, rfl⟩
    · obtain ⟨hget, hputInode, -⟩ := hfits
      obtain ⟨i, dir, rfl, hi, hdirent⟩ := h.slot hsrc
      have hdirent' : ({ s with ldirs := l' } : Bfs).getinode (i + BFSROOTINO) = dir := hdirent
      simp only [heq, hget, hputInode, hdirent', Bfs.putinode, Nat.add_sub_cancel]
      have hinsert : ∀ ino, named (m.insert tnm.key (i + BFSROOTINO)) ino =
          named m ino + if i + BFSROOTINO = ino then 1 else 0 := fun ino => named_insert hnew
      have hpos : 0 < named m (i + BFSROOTINO) := named_pos.mpr ⟨_, hsrc⟩
      have hone := hinsert (i + BFSROOTINO)
      rw [if_pos rfl] at hone
      refine .inr ⟨_, rfl, hnew, h.recount _ s.freedrents hstores (h.entries_add hlen) hi ?_ ?_ ?_ rfl⟩
      · intro ino hino
        rw [hinsert ino, if_neg (fun h => hino h.symm), add_zero]
      · rw [h.nlink i dir hi, nlinkInc_eq (h.named_le _), hone]
      · rw [hone]
        exact ⟨fun _ => Nat.succ_pos _, fun _ => (h.used i dir hi).mpr hpos⟩
    · rcases hfits.2.2 with hnone | hno
      · exact absurd hnone (failed hput)
      · exact absurd hempty hno

def CreateIo.Starts (io : CreateIo) (s : Bfs) (writelock : Option Nat) (va_type : Vtype) : Prop :=
  va_type = .VREG ∧ writelock.getD 0 = 0 ∧ 0 < s.freedrents ∧ io.access = none ∧ io.nextfile = none ∧
    io.putInode = none

/-- The file is seen to be there, or its inode is refused, or it is new and its entry can be added. -/
def CreateIo.Fits (io : CreateIo) (s : Bfs) (writelock : Option Nat) (nm : Name) (va_type : Vtype) :
    Prop :=
  io.find = none ∧ bfs_searchdir none s nm ≠ 0 ∨ ¬ io.Starts s writelock va_type ∨
    bfs_searchdir none s nm = 0 ∧ io.dirent.Quiet ∧ s.HasRoom

theorem nextfile_slot (h : Books s m) (hfree : 0 < s.freedrents) :
    ∃ i dir, bfs_nextfile none s = .ok (some i) ∧ s.inodes[i]? = some dir ∧ dir.d_ino = 0 := by
  unfold bfs_nextfile
  cases hfind : s.inodes.findIdx? fun dir => decide (dir.d_ino = 0) with
  | none =>
    have hcount : s.inodes.countP (fun dir => decide (dir.d_ino = 0)) = 0 := by
      rw [countP_eq_zero]
      intro dir hdir hzero
      exact absurd (findIdx?_eq_none_iff.mp hfind dir hdir) (by rw [hzero]; decide)
    have hbooks := h.free
    rw [hcount] at hbooks
    omega
  | some i =>
    obtain ⟨hlt, hzero, -⟩ := findIdx?_eq_some_iff_getElem.mp hfind
    exact ⟨i, _, rfl, List.getElem?_eq_getElem hlt, of_decide_eq_true hzero⟩

theorem create_cases {io : CreateIo} {writelock : Option Nat} {va_type : Vtype} (excl : Vcexcl)
    (h : Books s m) (hfits : io.Fits s writelock nm va_type) :
    (∃ e, bfs_create io s writelock BFSROOTINO nm va_type excl = (some e, s)) ∨
      bfs_create io s writelock BFSROOTINO nm va_type excl = (none, s) ∧ nm.key ∈ m ∨
      ∃ s' ino, bfs_create io s writelock BFSROOTINO nm va_type excl = (none, s') ∧
        nm.key ∉ m ∧ named m ino = 0 ∧ Books s' (m.insert nm.key ino) := by
  unfold bfs_create
  by_cases hnil : nm = []
  · rw [if_pos hnil]
    exact .inl ⟨_, rfl⟩
  rw [if_neg hnil, if_neg (fun hne => hne rfl)]
  by_cases hreg : va_type ≠ .VREG
  · rw [if_pos hreg]
    exact .inl ⟨_, rfl⟩
  rw [if_neg hreg]
  by_cases hlock : writelock ≠ none ∧ writelock ≠ some (bfs_searchdir io.find s nm)
  · rw [if_pos hlock]
    exact .inl ⟨_, rfl⟩
  rw [if_neg hlock]
  by_cases hseen : bfs_searchdir io.find s nm ≠ 0
  · rw [if_pos hseen]
    split_ifs with hexcl
    · have hmem : nm.key ∈ m := by
        cases hfind : io.find with
        | some e =>
          rw [hfind] at hseen
          exact absurd rfl hseen
        | none =>
          rw [hfind] at hseen
          exact not_not.mp (mt (searchdir_zero h).mpr hseen)
      cases hold : io.openOld with
      | some e => exact .inl ⟨e, rfl⟩
      | none => exact .inr (.inl ⟨rfl, hmem⟩)
    · exact .inl ⟨_, rfl⟩
  rw [if_neg hseen]
  by_cases hfull : s.freedrents ≤ 0
  · rw [if_pos hfull]
    exact .inl ⟨_, rfl⟩
  rw [if_neg hfull]
  cases haccess : io.access with
  | some e => exact .inl ⟨e, rfl⟩
  | none =>
    cases hnext : io.nextfile with
    | some e => exact .inl ⟨e, rfl⟩
    | none =>
      obtain ⟨i, dir, hslot, hi, hzero⟩ := nextfile_slot h (not_le.mp hfull)
      simp only [hslot]
      cases hput : io.putInode with
      | some e => exact .inl ⟨e, rfl⟩
      | none =>
        have hnolock : writelock.getD 0 = 0 := by
          rw [not_not.mp hseen] at hlock
          cases hwl : writelock with
          | none => rfl
          | some vp =>
            rw [hwl] at hlock
            by_contra hne
            exact hlock ⟨some_ne_none vp, fun h => hne (some.inj h)⟩
        have hstarts : io.Starts s writelock va_type :=
          ⟨not_not.mp hreg, hnolock, not_le.mp hfull, haccess, hnext, hput⟩
        obtain ⟨hfind, hne⟩ | hno | ⟨hzeroSearch, hquiet, hroom⟩ := hfits
        · rw [hfind] at hseen
          exact absurd hne hseen
        · exact absurd hstarts hno
        have hslots := h.slots
        have hlt := (List.getElem?_eq_some_iff.mp hi).1
        have hino : BFS_OFF2INO (some i) = i + BFSROOTINO := Nat.mod_eq_of_lt (by
          unfold BFSROOTINO
          omega)
        have hunused : named m (i + BFSROOTINO) = 0 := by
          by_contra hpos
          exact (h.used i dir hi).mpr (Nat.pos_of_ne_zero hpos) hzero
        have hpos : i + BFSROOTINO ≠ 0 := Nat.succ_ne_zero _
        have hnew := (searchdir_zero h).mp hzeroSearch
        obtain ⟨e, -, hno⟩ | ⟨l', -, hstores, hlen, heq | ⟨e, hputRoot, -, -⟩⟩ :=
          addirent_cases (s := s.putinode (i + BFSROOTINO) ⟨i + BFSROOTINO, 1⟩) io.dirent nm
            h.stores hpos
        · exact absurd ⟨hquiet, hnew, hroom⟩ hno
        · simp only [hino, heq]
          simp only [Bfs.putinode, Nat.add_sub_cancel]
          have hinsert : ∀ ino, named (m.insert nm.key (i + BFSROOTINO)) ino =
              named m ino + if i + BFSROOTINO = ino then 1 else 0 := fun ino => named_insert hnew
          have hone := hinsert (i + BFSROOTINO)
          rw [if_pos rfl, hunused, zero_add] at hone
          refine .inr (.inr ⟨_, i + BFSROOTINO, rfl, hnew, hunused, h.recount
            ⟨i + BFSROOTINO, 1⟩ (s.freedrents - 1) hstores (h.entries_add hlen) hi ?_ hone.symm ?_ ?_⟩)
          · intro ino hne
            rw [hinsert ino, if_neg (fun h => hne h.symm), add_zero]
          · rw [hone]
            exact ⟨fun _ => Nat.one_pos, fun _ => hpos⟩
          · rw [if_pos hzero, if_neg hpos]
            omega
        · exact absurd hquiet.2 (failed hputRoot)

end Calls

end Svr42.BfsDir
