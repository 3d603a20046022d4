import Svr42.SlotMap
import Svr42.BfsDirModel

/-! The directory entries of a boot file system as a finite map from names to inode numbers: what
a search finds, and what removing, adding and renaming one entry does to the map. -/

namespace Svr42.BfsDir
open List Option

/-- The names of the root directory, cut to the length that is stored, with their inode numbers. -/
abbrev Dir := Finmap fun _ : Name => Nat

def Ldir.held (ld : Ldir) : Option (Σ _ : Name, Nat) :=
  if ld.l_ino = 0 then none else some ⟨ld.l_name.key, ld.l_ino⟩

theorem Ldir.held_none {ld : Ldir} (h : ld.l_ino = 0) : ld.held = none := if_pos h

theorem Ldir.held_some {ld : Ldir} (h : ld.l_ino ≠ 0) : ld.held = some ⟨ld.l_name.key, ld.l_ino⟩ :=
  if_neg h

@[simp] theorem Name.key_key (nm : Name) : nm.key.key = nm.key := by
  rw [Name.key, Name.key, take_take, Nat.min_self]

/-- The entry that is written for a name holds it as it was cut. -/
theorem Ldir.held_new {ino : Nat} (h : ino ≠ 0) (nm : Name) :
    Ldir.held ⟨ino, nm.key⟩ = some ⟨nm.key, ino⟩ := by
  rw [Ldir.held_some h, Name.key_key]

/-- What a search for `nm` can come back with. -/
inductive Found (l : List Ldir) (nm : Name) : Nat × Option Nat → Prop
  | entry {j : Nat} {ld : Ldir} (at_ : l[j]? = some ld) (used : ld.l_ino ≠ 0)
      (named : ld.l_name.key = nm.key) : Found l nm (ld.l_ino, some j)
  | empty {j : Nat} {ld : Ldir} (absent : ∀ ld ∈ l, ld.l_ino ≠ 0 → ld.l_name.key ≠ nm.key)
      (at_ : l[j]? = some ld) (free : ld.l_ino = 0) : Found l nm (0, some j)
  | full (absent : ∀ ld ∈ l, ld.l_ino ≠ 0 → ld.l_name.key ≠ nm.key)
      (used : ∀ ld ∈ l, ld.l_ino ≠ 0) : Found l nm (0, none)

/-- The scan of the last part of a directory, when the first part has no entry called `nm` and its
first empty entry is `eslot`. -/
theorem scan_rest (nm : Name) (pre rest : List Ldir) (eslot : Option Nat)
    (habsent : ∀ ld ∈ pre, ld.l_ino ≠ 0 → ld.l_name.key ≠ nm.key)
    (hnone : eslot = none → ∀ ld ∈ pre, ld.l_ino ≠ 0)
    (hsome : ∀ j, eslot = some j → ∃ ld, pre[j]? = some ld ∧ ld.l_ino = 0) :
    Found (pre ++ rest) nm (scan nm pre.length eslot rest) := by
  induction rest generalizing pre eslot with
  | nil =>
    rw [append_nil, scan]
    cases heslot : eslot with
    | none => exact .full habsent (hnone heslot)
    | some j =>
      obtain ⟨ld, hld, hfree⟩ := hsome j heslot
      exact .empty habsent hld hfree
  | cons ld rest ih =>
    have hstep : ∀ eslot', ¬ (ld.l_ino ≠ 0 ∧ ld.l_name.key = nm.key) →
        (eslot' = none → eslot = none ∧ ld.l_ino ≠ 0) →
        (∀ j, eslot' = some j → eslot = some j ∨ j = pre.length ∧ ld.l_ino = 0) →
        Found (pre ++ ld :: rest) nm (scan nm (pre.length + 1) eslot' rest) := by
      intro eslot' hno hnone' hsome'
      have hgo := ih (pre ++ [ld]) eslot' (fun x hx hused hkey => by
          rcases mem_append.mp hx with hx | hx
          · exact habsent x hx hused hkey
          · obtain rfl := mem_singleton.mp hx
            exact hno ⟨hused, hkey⟩)
        (fun h x hx => by
          rcases mem_append.mp hx with hx | hx
          · exact hnone (hnone' h).1 x hx
          · obtain rfl := mem_singleton.mp hx
            exact (hnone' h).2)
        (fun j h => by
          rcases hsome' j h with h | ⟨rfl, hfree⟩
          · obtain ⟨x, hx, hfree⟩ := hsome j h
            exact ⟨x, by rw [List.getElem?_append_left (List.getElem?_eq_some_iff.mp hx).1, hx], hfree⟩
          · exact ⟨ld, List.getElem?_concat_length, hfree⟩)
      rwa [append_assoc, singleton_append, length_append, length_singleton] at hgo
    rw [scan]
    by_cases hfound : ld.l_ino ≠ 0 ∧ ld.l_name.key = nm.key
    · rw [if_pos hfound]
      refine .entry ?_ hfound.1 hfound.2
      rw [List.getElem?_append_right Nat.le.refl, Nat.sub_self, List.getElem?_cons_zero]
    rw [if_neg hfound]
    split_ifs with hempty
    · exact hstep _ hfound (fun h => absurd h (some_ne_none _))
        fun j h => .inr ⟨(some.inj h).symm, hempty.1⟩
    · exact hstep _ hfound (fun h => ⟨h, fun hfree => hempty ⟨hfree, h⟩⟩) fun j h => .inl h

theorem scan_found (nm : Name) (l : List Ldir) : Found l nm (scan nm 0 none l) :=
  scan_rest nm [] l none nofun
    (fun _ _ h => absurd h not_mem_nil) fun _ h => absurd h (some_ne_none _).symm

/-- The device does every transfer of a directory update up to the write of the entry. -/
def DirentIo.Through (io : DirentIo) : Prop := io.search = none ∧ io.getRoot = none ∧ io.write = none

def DirentIo.Quiet (io : DirentIo) : Prop := io.Through ∧ io.putRoot = none

namespace Bfs

def HasEmpty (s : Bfs) : Prop := ∃ ld ∈ s.ldirs, ld.l_ino = 0

/-- The blocks of the root directory have room for one more entry after the last one. -/
def Extends (s : Bfs) : Prop := s.d_eoffset + ldirSize < (s.d_eblock + 1) * BFS_BSIZE

def HasRoom (s : Bfs) : Prop := s.HasEmpty ∨ s.Extends

end Bfs

section Dirents

theorem failed {o : Option Errno} {e : Errno} (h : o = some e) : o ≠ none :=
  h.trans_ne (some_ne_none e)

variable {s : Bfs} {m : Dir} {nm snm tnm : Name} {ino : Nat}

section

variable (h : Stores Ldir.held s.ldirs m)
include h

theorem mem_iff {k : Name} : k ∈ m ↔ ∃ ld ∈ s.ldirs, ld.l_ino ≠ 0 ∧ ld.l_name.key = k := by
  rw [h.mem_iff]
  constructor
  · rintro ⟨ld, hld, v, hheld⟩
    by_cases hused : ld.l_ino = 0
    · rw [Ldir.held_none hused] at hheld
      cases hheld
    · rw [Ldir.held_some hused] at hheld
      exact ⟨ld, hld, hused, congrArg Sigma.fst (some.inj hheld)⟩
  · rintro ⟨ld, hld, hused, rfl⟩
    exact ⟨ld, hld, ld.l_ino, Ldir.held_some hused⟩

theorem lookup_ne_zero {k : Name} (hk : m.lookup k = some ino) : ino ≠ 0 := by
  obtain ⟨ld, -, hheld⟩ := h.lookup_iff.mp hk
  by_cases hused : ld.l_ino = 0
  · rw [Ldir.held_none hused] at hheld
    cases hheld
  · rw [Ldir.held_some hused, some_inj] at hheld
    injection hheld with _ hino
    exact fun hzero => hused (hino.trans hzero)

theorem notMem_of_absent (habsent : ∀ ld ∈ s.ldirs, ld.l_ino ≠ 0 → ld.l_name.key ≠ nm.key) :
    nm.key ∉ m := by
  rw [mem_iff h]
  rintro ⟨ld, hld, hused, hkey⟩
  exact habsent ld hld hused hkey

/-- A search that the device does not fail finds the inode that the name is mapped to. -/
theorem searchdir_eq : bfs_searchdir none s nm = (m.lookup nm.key).getD 0 := by
  rw [bfs_searchdir, bfs_dotsearch]
  have hfound := scan_found nm s.ldirs
  generalize scan nm 0 none s.ldirs = r at hfound ⊢
  cases hfound with
  | entry hat hused hname =>
    have hlook := h.lookup_at hat (Ldir.held_some hused)
    rw [hname] at hlook
    rw [hlook]
    rfl
  | empty habsent hat hfree =>
    rw [Finmap.lookup_eq_none.mpr (notMem_of_absent h habsent)]
    rfl
  | full habsent hused =>
    rw [Finmap.lookup_eq_none.mpr (notMem_of_absent h habsent)]
    rfl

end

/-- Removing an entry either fails and changes nothing, or takes the name out of the map. -/
theorem rmdirent_cases (io : DirentIo) (nm : Name) (h : Stores Ldir.held s.ldirs m) :
    (∃ e, bfs_rmdirent io s nm = (some e, s) ∧ ¬ (io.Through ∧ nm.key ∈ m)) ∨
      io.Through ∧ ∃ l', nm.key ∈ m ∧ Stores Ldir.held l' (m.erase nm.key) ∧
        l'.length = s.ldirs.length ∧
        bfs_rmdirent io s nm = (io.putRoot, { s with ldirs := l' }) := by
  unfold bfs_rmdirent
  cases hsearch : io.search with
  | some e => exact .inl ⟨e, rfl, fun hno => failed hsearch hno.1.1⟩
  | none =>
    simp only [bfs_dotsearch]
    cases hroot : io.getRoot with
    | some e => exact .inl ⟨e, rfl, fun hno => failed hroot hno.1.2.1⟩
    | none =>
      have hfound := scan_found nm s.ldirs
      generalize scan nm 0 none s.ldirs = r at hfound ⊢
      cases hfound with
      | empty habsent hat hfree => exact .inl ⟨_, rfl, fun hno => notMem_of_absent h habsent hno.2⟩
      | full habsent hused => exact .inl ⟨_, rfl, fun hno => notMem_of_absent h habsent hno.2⟩
      | @entry j ld hat hused hname =>
        simp only [if_pos hused]
        cases hwrite : io.write with
        | some e =>
          exact .inl ⟨e, rfl, fun hno => failed hwrite hno.1.2.2⟩
        | none =>
          have hclear := h.clear (y := { ld with l_ino := 0 }) hat (Ldir.held_some hused)
            (Ldir.held_none rfl)
          rw [hname] at hclear
          have hset : s.ldirs.modify j (fun ld => { ld with l_ino := 0 }) =
              s.ldirs.set j { ld with l_ino := 0 } := by
            rw [modify_eq_set_getElem?, hat]
            rfl
          refine .inr ⟨⟨hsearch, hroot, hwrite⟩, _, ?_, hclear, length_set, ?_⟩
          · exact (mem_iff h).mpr ⟨ld, mem_of_getElem? hat, hused, hname⟩
          · rw [hset]

/-- Renaming an entry either fails and changes nothing, or moves the binding to the new name. -/
theorem rendirent_cases (io : DirentIo) (h : Stores Ldir.held s.ldirs m)
    (hk : tnm.key ∉ m.erase snm.key) :
    (∃ e, bfs_rendirent io s snm tnm = (some e, s) ∧ ¬ (io.Through ∧ snm.key ∈ m)) ∨
      io.Through ∧ ∃ ino l', m.lookup snm.key = some ino ∧
        Stores Ldir.held l' ((m.erase snm.key).insert tnm.key ino) ∧
        l'.length = s.ldirs.length ∧
        bfs_rendirent io s snm tnm = (io.putRoot, { s with ldirs := l' }) := by
  unfold bfs_rendirent
  cases hsearch : io.search with
  | some e => exact .inl ⟨e, rfl, fun hno => failed hsearch hno.1.1⟩
  | none =>
    simp only [bfs_dotsearch]
    cases hroot : io.getRoot with
    | some e => exact .inl ⟨e, rfl, fun hno => failed hroot hno.1.2.1⟩
    | none =>
      have hfound := scan_found snm s.ldirs
      generalize scan snm 0 none s.ldirs = r at hfound ⊢
      cases hfound with
      | empty habsent hat hfree => exact .inl ⟨_, rfl, fun hno => notMem_of_absent h habsent hno.2⟩
      | full habsent hused => exact .inl ⟨_, rfl, fun hno => notMem_of_absent h habsent hno.2⟩
      | @entry j ld hat hused hname =>
        simp only [if_pos hused]
        cases hwrite : io.write with
        | some e =>
          exact .inl ⟨e, rfl, fun hno => failed hwrite hno.1.2.2⟩
        | none =>
          have hlook := h.lookup_at hat (Ldir.held_some hused)
          have hren := h.rename (y := ⟨ld.l_ino, tnm.key⟩) (w := ld.l_ino) hat
            (Ldir.held_some hused) (by rw [hname]; exact hk)
            (Ldir.held_new hused tnm)
          rw [hname] at hlook hren
          exact .inr ⟨⟨hsearch, hroot, hwrite⟩, _, _, hlook, hren, length_set, rfl⟩

/-- Adding an entry either fails and changes nothing, or binds the new name; only when it fills an
empty entry can it still return an error then. -/
theorem addirent_cases (io : DirentIo) (nm : Name) (h : Stores Ldir.held s.ldirs m) (hino : ino ≠ 0) :
    (∃ e, bfs_addirent io s nm ino = (some e, s) ∧ ¬ (io.Quiet ∧ nm.key ∉ m ∧ s.HasRoom)) ∨
      ∃ l', nm.key ∉ m ∧ Stores Ldir.held l' (m.insert nm.key ino) ∧
        (l'.length = s.ldirs.length ∨ s.Extends ∧ l'.length = s.ldirs.length + 1) ∧
        (bfs_addirent io s nm ino = (none, { s with ldirs := l' }) ∨
          ∃ e, io.putRoot = some e ∧ s.HasEmpty ∧
            bfs_addirent io s nm ino = (some e, { s with ldirs := l' })) := by
  unfold bfs_addirent
  cases hsearch : io.search with
  | some e =>
    exact .inl ⟨e, rfl, fun hno => failed hsearch hno.1.1.1⟩
  | none =>
    simp only [bfs_dotsearch]
    have hheld := Ldir.held_new hino nm
    have hfound := scan_found nm s.ldirs
    generalize scan nm 0 none s.ldirs = r at hfound ⊢
    cases hfound with
    | @entry j ld hat hused hname =>
      simp only [if_pos hused]
      exact .inl ⟨_, rfl, fun hno => hno.2.1 ((mem_iff h).mpr ⟨ld, mem_of_getElem? hat, hused, hname⟩)⟩
    | @empty j ld habsent hat hfree =>
      cases hroot : io.getRoot with
      | some e =>
        exact .inl ⟨e, rfl, fun hno => failed hroot hno.1.1.2.1⟩
      | none =>
        cases hwrite : io.write with
        | some e =>
          exact .inl ⟨e, rfl, fun hno => failed hwrite hno.1.1.2.2⟩
        | none =>
          have hnew := notMem_of_absent h habsent
          refine .inr ⟨_, hnew, h.fill hat (Ldir.held_none hfree) hnew hheld, .inl length_set, ?_⟩
          cases hput : io.putRoot with
          | none => exact .inl rfl
          | some e => exact .inr ⟨e, rfl, ⟨ld, mem_of_getElem? hat, hfree⟩, rfl⟩
    | full habsent hused =>
      cases hroot : io.getRoot with
      | some e =>
        exact .inl ⟨e, rfl, fun hno => failed hroot hno.1.1.2.1⟩
      | none =>
        by_cases hext : s.d_eoffset + ldirSize < (s.d_eblock + 1) * BFS_BSIZE
        · simp only [if_pos hext]
          cases hwrite : io.write with
          | some e =>
            exact .inl ⟨e, rfl, fun hno => failed hwrite hno.1.1.2.2⟩
          | none =>
            cases hput : io.putRoot with
            | some e =>
              exact .inl ⟨e, rfl, fun hno => failed hput hno.1.2⟩
            | none =>
              have hnew := notMem_of_absent h habsent
              exact .inr ⟨_, hnew, h.push hnew hheld, .inr ⟨hext, length_append⟩, .inl rfl⟩
        · simp only [if_neg hext]
          refine .inl ⟨_, rfl, fun hno => ?_⟩
          rcases hno.2.2 with ⟨ld, hld, hfree⟩ | hroom
          · exact hused ld hld hfree
          · exact hext hroom

end Dirents

end Svr42.BfsDir
