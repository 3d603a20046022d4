import Svr42.BfsDirBooks

/-! Runs of create, link, rename and remove calls on a freshly made boot file system: as long as no
call meets one of the cases that the code gets wrong, the root directory is a finite map, the link
counts and the inode slots agree with it, and a call that fails changes nothing. -/

namespace Svr42.BfsDir
open List Option

/-- What a call that succeeds does to the map of names. -/
def Call.Meets (m m' : Dir) : Call → Prop
  | .create _ _ _ nm _ _ =>
    nm.key ∈ m ∧ m' = m ∨ nm.key ∉ m ∧ ∃ ino, named m ino = 0 ∧ m' = m.insert nm.key ino
  | .link _ _ fnm tnm =>
    ∃ ino, m.lookup fnm.key = some ino ∧ tnm.key ∉ m ∧ m' = m.insert tnm.key ino
  | .rename _ _ fnm tnm => ∃ ino, Renamed m fnm.key tnm.key ino m'
  | .remove _ _ nm => nm.key ∈ m ∧ m' = m.erase nm.key

/-- The directory is a map before and after the call, with the link counts and the inode slots that
belong to it; the call does to the map what it is for, or fails and changes nothing. -/
def Kept (s : Bfs) (c : Call) : Prop :=
  ∃ m m', Books s m ∧ Books (c.exec s).2 m' ∧
    (∀ e, (c.exec s).1 = some e → m' = m ∧ (c.exec s).2.inodes = s.inodes) ∧
    ((c.exec s).1 = none → c.Meets m m')

/-- The call does not meet a case that the code gets wrong: a rename onto the same file or the same
name, a new file in a full directory, or an error of the device after it did the first write of the
call or in the search for a target that is there. -/
def Call.Clean (s : Bfs) : Call → Prop
  | .create vn io writelock nm va_type _ => vn.denied = none → io.Fits s writelock nm va_type
  | .link vn io _ _ => vn.denied = none → io.Fits s
  | .rename vn io fnm tnm => vn.denied = none → io.Passes s fnm → io.Fits s fnm tnm
  | .remove vn io _ => vn.denied = none → io.Ends

/-- The states that a run of calls reaches from a freshly made file system, when every call is `ok`
in the state it starts from. -/
inductive Reaches (ok : Bfs → Call → Prop) (files : Nat) : Bfs → Prop
  | start : Reaches ok files (mkfs files)
  | step {s : Bfs} (c : Call) : Reaches ok files s → ok s c → Reaches ok files (c.exec s).2

section Steps

variable {s s' : Bfs} {m m' : Dir} {c : Call} {e : Errno}

theorem kept_of_error (h : Books s m) (hexec : c.exec s = (some e, s)) : Kept s c := by
  refine ⟨m, m, h, ?_, fun _ _ => ⟨rfl, ?_⟩, fun hok => ?_⟩
  · rw [hexec]
    exact h
  · rw [hexec]
  · rw [hexec] at hok
    cases hok

theorem kept_of_ok (h : Books s m) (h' : Books s' m') (hexec : c.exec s = (none, s'))
    (hmeets : c.Meets m m') : Kept s c := by
  refine ⟨m, m', h, ?_, fun e herr => ?_, fun _ => hmeets⟩
  · rw [hexec]
    exact h'
  · rw [hexec] at herr
    cases herr

variable {nm : Name}

theorem ne_nil_of_parent {io : LookupIo} (h : lookupParent io s nm = none) : nm ≠ [] := by
  rintro rfl
  rw [lookupParent, if_pos rfl] at h
  cases h

variable {vn : VnIo}

section

variable (h : Books s m)
include h

theorem remove_kept {io : RemoveIo} (hclean : (Call.remove vn io nm).Clean s) :
    Kept s (.remove vn io nm) := by
  have hexec : (Call.remove vn io nm).exec s = vn_remove vn io s nm := rfl
  unfold vn_remove at hexec
  cases hparent : lookupParent vn.look s nm with
  | some e =>
    rw [hparent] at hexec
    exact kept_of_error h hexec
  | none =>
    cases hlook : bfs_lookup vn.look s BFSROOTINO nm with
    | error e =>
      simp only [hparent, hlook] at hexec
      exact kept_of_error h hexec
    | ok vp =>
      simp only [hparent, hlook] at hexec
      by_cases hroot : vp = BFSROOTINO
      · rw [if_pos hroot] at hexec
        exact kept_of_error h hexec
      rw [if_neg hroot] at hexec
      cases hdenied : vn.denied with
      | some e =>
        rw [hdenied] at hexec
        exact kept_of_error h hexec
      | none =>
        rw [hdenied] at hexec
        obtain ⟨e, heq⟩ | ⟨-, ino, hino, -, hends⟩ := remove_cases io nm h
        · exact kept_of_error h (hexec.trans heq)
        · obtain ⟨s', heq, hbooks⟩ := hends (hclean hdenied)
          exact kept_of_ok h hbooks (hexec.trans heq) ⟨Finmap.mem_of_lookup_eq_some hino, rfl⟩

theorem rename_kept {io : RenameIo} {fnm tnm : Name}
    (hclean : (Call.rename vn io fnm tnm).Clean s) : Kept s (.rename vn io fnm tnm) := by
  have hexec : (Call.rename vn io fnm tnm).exec s = vn_rename vn io s fnm tnm := rfl
  unfold vn_rename at hexec
  cases hparent : lookupParent vn.look s fnm with
  | some e =>
    rw [hparent] at hexec
    exact kept_of_error h hexec
  | none =>
    cases hlook : bfs_lookup vn.look s BFSROOTINO fnm with
    | error e =>
      simp only [hparent, hlook] at hexec
      exact kept_of_error h hexec
    | ok vp =>
      simp only [hparent, hlook] at hexec
      cases htarget : lookupParent vn.toLook s tnm with
      | some e =>
        rw [htarget] at hexec
        exact kept_of_error h hexec
      | none =>
        cases hdenied : vn.denied with
        | some e =>
          simp only [htarget, hdenied] at hexec
          exact kept_of_error h hexec
        | none =>
          simp only [htarget, hdenied] at hexec
          obtain ⟨e, heq⟩ | ⟨s', ino, m', heq, hbooks, hren⟩ :=
            rename_cases h (ne_nil_of_parent hparent) (hclean hdenied)
          · exact kept_of_error h (hexec.trans heq)
          · exact kept_of_ok h hbooks (hexec.trans heq) ⟨ino, hren⟩

theorem link_kept {io : LinkIo} {fnm tnm : Name}
    (hclean : (Call.link vn io fnm tnm).Clean s) : Kept s (.link vn io fnm tnm) := by
  have hexec : (Call.link vn io fnm tnm).exec s = vn_link vn io s fnm tnm := rfl
  unfold vn_link at hexec
  cases hlook : bfs_lookup vn.look s BFSROOTINO fnm with
  | error e =>
    rw [hlook] at hexec
    exact kept_of_error h hexec
  | ok fvp =>
    simp only [hlook] at hexec
    cases htarget : lookupParent vn.toLook s tnm with
    | some e =>
      rw [htarget] at hexec
      exact kept_of_error h hexec
    | none =>
      cases hdenied : vn.denied with
      | some e =>
        simp only [htarget, hdenied] at hexec
        exact kept_of_error h hexec
      | none =>
        simp only [htarget, hdenied] at hexec
        obtain ⟨-, rfl⟩ | ⟨-, -, hsrc⟩ := lookup_ok h hlook
        · -- the root itself cannot be linked
          exact kept_of_error h hexec
        obtain ⟨e, heq⟩ | ⟨s', heq, hnew, hbooks⟩ := link_cases h hsrc (hclean hdenied)
        · exact kept_of_error h (hexec.trans heq)
        · exact kept_of_ok h hbooks (hexec.trans heq) ⟨fvp, hsrc, hnew, rfl⟩

theorem create_kept {io : CreateIo} {writelock : Option Nat} {va_type : Vtype} {excl : Vcexcl} (hclean : (Call.create vn io writelock nm va_type excl).Clean s) :
    Kept s (.create vn io writelock nm va_type excl) := by
  have hexec : (Call.create vn io writelock nm va_type excl).exec s =
      vn_create vn io s writelock nm va_type excl := rfl
  unfold vn_create at hexec
  cases hparent : lookupParent vn.look s nm with
  | some e =>
    rw [hparent] at hexec
    exact kept_of_error h hexec
  | none =>
    cases hdenied : vn.denied with
    | some e =>
      simp only [hparent, hdenied] at hexec
      exact kept_of_error h hexec
    | none =>
      have hcreate : ∀ {r}, r = bfs_create io s writelock BFSROOTINO nm va_type excl →
          (Call.create vn io writelock nm va_type excl).exec s = r →
          Kept s (.create vn io writelock nm va_type excl) := by
        rintro r rfl hexec
        obtain ⟨e, heq⟩ | ⟨heq, hmem⟩ | ⟨s', ino, heq, hnew, hunused, hbooks⟩ :=
          create_cases excl h (hclean hdenied)
        · exact kept_of_error h (hexec.trans heq)
        · exact kept_of_ok h h (hexec.trans heq) (.inl ⟨hmem, rfl⟩)
        · exact kept_of_ok h hbooks (hexec.trans heq) (.inr ⟨hnew, ino, hunused, rfl⟩)
      cases hlook : bfs_lookup vn.look s BFSROOTINO nm with
      | error e =>
        simp only [hparent, hdenied, hlook] at hexec
        exact hcreate rfl hexec
      | ok vp =>
        simp only [hparent, hdenied, hlook] at hexec
        split_ifs at hexec with hroot
        · exact kept_of_error h hexec
        · exact hcreate rfl hexec

theorem step_kept (hclean : c.Clean s) : Kept s c := by
  cases c with
  | create vn io writelock nm va_type excl => exact create_kept h hclean
  | link vn io fnm tnm => exact link_kept h hclean
  | rename vn io fnm tnm => exact rename_kept h hclean
  | remove vn io nm => exact remove_kept h hclean

end

end Steps

def rootNames : Dir := ((∅ : Dir).insert ['.'] BFSROOTINO).insert ['.', '.'] BFSROOTINO

theorem rootNames_stores (files : Nat) : Stores Ldir.held (mkfs files).ldirs rootNames := by
  have hdot : Stores Ldir.held [⟨BFSROOTINO, ['.']⟩] ((∅ : Dir).insert ['.'] BFSROOTINO) :=
    (Stores.nil Ldir.held).push Finmap.notMem_empty rfl
  refine hdot.push ?_ rfl
  rw [Finmap.mem_insert]
  rintro (hdots | hmem)
  · exact absurd hdots (by decide)
  · exact Finmap.notMem_empty hmem

theorem named_rootNames (ino : Nat) : named rootNames ino = if BFSROOTINO = ino then 2 else 0 := by
  have hdots : (['.', '.'] : Name) ∉ (∅ : Dir).insert ['.'] BFSROOTINO := by
    rw [Finmap.mem_insert]
    rintro (hdots | hmem)
    · exact absurd hdots (by decide)
    · exact Finmap.notMem_empty hmem
  have hempty : named (∅ : Dir) ino = 0 := rfl
  rw [rootNames, named_insert hdots, named_insert Finmap.notMem_empty, hempty]
  split_ifs <;> rfl

theorem mkfs_slot {files i : Nat} {dir : Dirent} (hi : (mkfs files).inodes[i]? = some dir) :
    i = 0 ∧ dir = ⟨BFSROOTINO, 2⟩ ∨ i ≠ 0 ∧ dir = ⟨0, 0⟩ := by
  cases i with
  | zero => exact .inl ⟨rfl, (some.inj hi).symm⟩
  | succ i => exact .inr ⟨Nat.succ_ne_zero i, eq_of_mem_replicate (mem_of_getElem? hi)⟩

theorem mkfs_books (files : Nat) : Books (mkfs files) rootNames where
  stores := rootNames_stores files
  nlink i dir hi := by
    rw [named_rootNames]
    obtain ⟨rfl, rfl⟩ | ⟨hne, rfl⟩ := mkfs_slot hi
    · rfl
    · rw [if_neg (by omega)]
  used i dir hi := by
    rw [named_rootNames]
    obtain ⟨rfl, rfl⟩ | ⟨hne, rfl⟩ := mkfs_slot hi
    · decide
    · rw [if_neg (by omega)]
      decide
  inside ino hpos := by
    rw [named_rootNames] at hpos
    refine ⟨0, Nat.succ_pos _, ?_⟩
    by_contra hne
    rw [if_neg fun h => hne (h.symm.trans (zero_add _).symm)] at hpos
    exact lt_irrefl 0 hpos
  free := by
    unfold mkfs
    simp only
    rw [countP_cons_of_neg (by decide), countP_replicate]
    rfl
  blocks := rfl
  entries := Nat.le_of_ble_eq_true rfl
  slots := by
    rw [mkfs, length_cons, length_replicate]
    split_ifs <;> omega

/-- **The root directory over a run.** -/
theorem root_directory_run {files : Nat} {s : Bfs} (h : Reaches (fun s c => c.Clean s) files s) :
    (∃ m, Books s m) ∧ ∀ c : Call, c.Clean s → Kept s c := by
  suffices hbooks : ∃ m, Books s m from
    ⟨hbooks, fun c hclean => hbooks.elim fun m hm => step_kept hm hclean⟩
  induction h with
  | start => exact ⟨rootNames, mkfs_books files⟩
  | step c _ hclean ih =>
    obtain ⟨m, hm⟩ := ih
    obtain ⟨-, m', -, hm', -⟩ := step_kept hm hclean
    exact ⟨m', hm'⟩

/-! A device that does every transfer, for every user. -/

def quietDirent : DirentIo := ⟨none, none, none, none⟩

def quietLookup : LookupIo := ⟨none, none⟩

def quietVn : VnIo := ⟨quietLookup, quietLookup, none⟩

def quietRemove : RemoveIo := ⟨none, quietLookup, none, quietDirent, none⟩

def newFile (nm : Name) : Call :=
  .create quietVn ⟨none, none, none, none, none, quietDirent⟩ none nm .VREG .EXCL

def mv (fnm tnm : Name) : Call :=
  .rename quietVn ⟨none, quietLookup, none, quietRemove, quietDirent⟩ fnm tnm

theorem newFile_clean : (newFile ['a']).Clean (mkfs 48) := fun _ =>
  .inr (.inr ⟨rfl, ⟨⟨rfl, rfl, rfl⟩, rfl⟩, .inr (by unfold Bfs.Extends; decide)⟩)

theorem root_directory_run_mv : ((mv ['a'] ['b']).Clean ((newFile ['a']).exec (mkfs 48)).2) ∧
      Kept ((newFile ['a']).exec (mkfs 48)).2 (mv ['a'] ['b']) := by
  have hclean : (mv ['a'] ['b']).Clean ((newFile ['a']).exec (mkfs 48)).2 := fun _ _ => .inl ⟨rfl, rfl⟩
  exact ⟨hclean, (root_directory_run (.step (newFile ['a']) .start newFile_clean)).2 _ hclean⟩

/-- Renaming a file to its own name removes the name before it looks for it. -/
theorem mv_onto_itself :
    ¬ ∀ (files : Nat) (s : Bfs) (c : Call), Reaches (fun _ _ => True) files s → Kept s c := by
  intro hall
  obtain ⟨m, m', hm, hm', herr, -⟩ := hall 48 ((newFile ['a']).exec (mkfs 48)).2 (mv ['a'] ['a'])
    (.step (newFile ['a']) .start trivial)
  obtain ⟨hsame, -⟩ := herr .ENOENT rfl
  have hbefore : (['a'] : Name) ∈ m := (mem_iff hm.stores).mpr ⟨⟨3, ['a']⟩, by decide, by decide, rfl⟩
  rw [← hsame, mem_iff hm'.stores] at hbefore
  exact absurd hbefore (by decide)

end Svr42.BfsDir
