import Svr42.ModLinksLoad
import Svr42.RunExec

/-! How far a `modld` or a `modunld` that fails is undone. -/

namespace Svr42.ModLinks
open Function List Option Prod

variable {Name : Type} [DecidableEq Name] {m : Module Name} {s s' : Kernel Name} {name : Name}
  {modStatic : Name → Bool} {retval fuel : Nat} {files : Name → Module Name}

theorem LoadOk.unchanged (h : Inv modStatic s) (hfail : retval ≠ 0) : LoadOk modStatic s name retval s :=
  ⟨h, Grows.refl, fun hzero => absurd hzero hfail, fun _ hnot => hnot⟩

/-- The call gets as far as `mod_connect`. -/
def Connects (files : Name → Module Name) (modStatic : Name → Bool) (fuel : Nat) (name : Name)
    (s : Kernel Name) : Prop :=
  s.modInitialized = true ∧ modStatic name = false ∧
    (∃ s₁, modObjLoad modStatic (modld files modStatic fuel) (files name) name (enter s name) =
      some (0, s₁)) ∧
    (files name).mwRevOk = true ∧ (files name).mwLoad.getD 0 = 0

theorem modld_ok (h : Inv modStatic s) (hmodld : modld files modStatic fuel name s = some (retval, s')) :
    LoadOk modStatic s name retval s' := by
  induction fuel generalizing name s retval s' with
  | zero => cases hmodld
  | succ fuel ih =>
    rw [modld] at hmodld
    split_ifs at hmodld with hinit hstatic hname hcircular htrans
    · obtain ⟨rfl, rfl⟩ := mk.inj (some.inj hmodld)
      exact LoadOk.unchanged h (by decide)
    · obtain ⟨rfl, rfl⟩ := mk.inj (some.inj hmodld)
      exact LoadOk.unchanged h (by decide)
    · obtain ⟨rfl, rfl⟩ := mk.inj (some.inj hmodld)
      exact LoadOk.unchanged h (by decide)
    · obtain ⟨rfl, rfl⟩ := mk.inj (some.inj hmodld)
      have hloaded : ¬ (s.modctl name).modLoading = true := fun hloading => htrans (.inl hloading)
      exact ⟨h, Grows.refl, fun _ => ⟨hname, Bool.not_eq_true _ ▸ hloaded⟩, fun hfail => absurd rfl hfail⟩
    · have hloading := Loading.enter h hname (Bool.not_eq_true _ ▸ hstatic)
      split at hmodld
      · cases hmodld
      · rename_i answer s₁ hload
        have hmid := hloading.modObjLoad (fun hinv hcall => ih hinv hcall) hload
        split_ifs at hmodld with hanswer
        · obtain ⟨rfl, rfl⟩ := mk.inj (some.inj hmodld)
          exact hmid.alone.discard hname hanswer
        · exact (hmid.attach hname hmodld).1

/-! ### The linkages -/

/-- What is left of them. -/
theorem modld_unlinked (h : Inv modStatic s) (hname : name ∉ s.modhead)
    (hnone : ∀ i, s.linked name i = false)
    (hmodld : modld files modStatic (fuel + 1) name s = some (retval, s')) (hfail : retval ≠ 0) :
    (∀ i, s'.linked name i = false) ↔
      ¬ (Connects files modStatic fuel name s ∧ LeftLinked (files name)) := by
  rw [modld] at hmodld
  split_ifs at hmodld with hinit hstatic
  · obtain ⟨rfl, rfl⟩ := mk.inj (some.inj hmodld)
    exact iff_of_true hnone fun hreach => Bool.noConfusion (hinit.symm.trans hreach.1.1)
  · obtain ⟨rfl, rfl⟩ := mk.inj (some.inj hmodld)
    exact iff_of_true hnone fun hreach => Bool.noConfusion (hreach.1.2.1.symm.trans hstatic)
  · have hloading := Loading.enter h hname (Bool.not_eq_true _ ▸ hstatic)
    split at hmodld
    · cases hmodld
    · rename_i answer s₁ hload
      have hmid := hloading.modObjLoad (fun hinv hcall => modld_ok hinv hcall) hload
      have hnone₁ : ∀ i, s₁.linked name i = false := by
        rw [hmid.linked]
        exact hnone
      split_ifs at hmodld with hanswer
      · obtain ⟨rfl, rfl⟩ := mk.inj (some.inj hmodld)
        rw [discard_linked]
        refine iff_of_true hnone₁ fun hreach => ?_
        obtain ⟨s₂, hzero⟩ := hreach.1.2.2.1
        rw [hload] at hzero
        exact hanswer (mk.inj (some.inj hzero)).1
      · rw [not_not.mp hanswer] at hload
        rw [(hmid.attach hname hmodld).2 hfail hnone₁]
        refine not_congr ⟨fun hreach => ⟨⟨?_, ?_, ⟨s₁, hload⟩, hreach.1, hreach.2.1⟩, hreach.2.2⟩,
          fun hreach => ⟨hreach.1.2.2.2.1, hreach.1.2.2.2.2, hreach.2⟩⟩
        · exact Bool.not_eq_false _ ▸ hinit
        · exact Bool.not_eq_true _ ▸ hstatic

/-! ### A kernel between two calls -/

/-- Nothing is loading, and before `modinit` there are no modules. -/
structure Quiet (modStatic : Name → Bool) (s : Kernel Name) : Prop where
  inv : Inv modStatic s
  idle : ∀ x ∈ s.modhead, (s.modctl x).modInprogress = false
  booted : s.modInitialized = false → s.modhead = []

section

variable (h : Quiet modStatic s) (hmodld : modld files modStatic fuel name s = some (retval, s'))
include h hmodld

theorem Quiet.not_mem (hfail : retval ≠ 0) : name ∉ s.modhead := by
  intro hname
  cases fuel with
  | zero => cases hmodld
  | succ fuel =>
    rw [modld] at hmodld
    split_ifs at hmodld with hinit hstatic hcircular htrans
    · rw [h.booted hinit] at hname
      cases hname
    · rw [h.inv.loadable name hname] at hstatic
      cases hstatic
    · rw [h.idle name hname] at hcircular
      cases hcircular
    · exact hfail (mk.inj (some.inj hmodld)).1.symm

theorem Quiet.modld : Quiet modStatic s' := by
  have hok := modld_ok h.inv hmodld
  refine ⟨hok.inv, fun x hx => ?_, fun hinit => ?_⟩
  · by_cases hold : x ∈ s.modhead
    · rw [modInprogress_of_core (hok.grows.modctl x trivial hold)]
      exact h.idle x hold
    · exact hok.grows.settled x trivial hx hold
  · rw [hok.grows.modInitialized] at hinit
    cases fuel with
    | zero => cases hmodld
    | succ fuel =>
      rw [ModLinks.modld, if_pos hinit] at hmodld
      obtain ⟨-, rfl⟩ := mk.inj (some.inj hmodld)
      exact h.booted hinit

end

theorem setLinked_setLinked {linked linked' : Nat → Bool} :
    setLinked (setLinked s name linked) name linked' = setLinked s name linked' := by
  rw [setLinked, setLinked]
  rw [update_idem]
  rfl

def UnloadRestores (m : Module Name) (c : Modctl Name) : Prop :=
  c.modDemand = true ∨ modbusy c ∨ m.remove 0 ≠ 0 ∨ ∀ j, j < m.links → m.remove j = 0

/-- The flag is cleared, and no other module notices; the linkages are the question. -/
theorem modunld_fails (h : modunld m name s = some (retval, s')) (hfail : retval ≠ 0) :
    ∃ linked, s' = stayLoaded (setLinked s name linked) name ∧
      ((∀ i, i < m.links → s.linked name i = true) →
        ((∀ i, i < m.links → linked i = true) ↔ UnloadRestores m (s.modctl name))) := by
  have hsame : setLinked s name (s.linked name) = s := by
    rw [setLinked, update_eq_self]
  rw [modunld] at h
  dsimp only at h
  split_ifs at h with hdemand hdisconn hunload hconnect
  · obtain ⟨-, rfl⟩ := mk.inj (some.inj h)
    refine ⟨s.linked name, by rw [hsame], fun hall => iff_of_true hall (.inl hdemand)⟩
  · obtain ⟨-, rfl⟩ := mk.inj (some.inj h)
    refine ⟨_, rfl, fun hall => ?_⟩
    rw [modDisconn] at hdisconn ⊢
    split_ifs at hdisconn ⊢ with hbusy
    · exact iff_of_true hall (.inr (.inl hbusy))
    · rcases @disconnLoop_cases Name m (s.linked name) m.links 0 with ⟨k, hfirst, hlt, heq⟩ | ⟨-, heq⟩
      · rw [heq]
        dsimp only
        by_cases hzero : m.remove 0 = 0
        · have hpos : 0 < k := by
            refine Nat.pos_of_ne_zero ?_
            rintro rfl
            exact hfirst.2.1 hzero
          have hgone : setRange false (s.linked name) 0 k 0 = false := if_pos ⟨Nat.le_refl 0, hpos⟩
          refine iff_of_false (fun hback => ?_) ?_
          · have hfirstback := hback 0 (by omega)
            rw [hgone] at hfirstback
            cases hfirstback
          · rintro (h' | h' | h' | h')
            · exact hdemand h'
            · exact hbusy h'
            · exact h' hzero
            · exact hfirst.2.1 (h' k (by omega))
        · have hk : 0 = k := by
            refine First.unique ?_ hfirst
            exact ⟨Nat.le_refl 0, hzero, fun j _ hj => absurd hj (Nat.not_lt_zero j)⟩
          rw [← hk, setRange_same]
          exact iff_of_true hall (.inr (.inr (.inl hzero)))
      · rw [heq] at hdisconn
        exact absurd rfl hdisconn
  · obtain ⟨-, rfl⟩ := mk.inj (some.inj h)
    obtain ⟨-, -, hall⟩ := modDisconn_done (not_not.mp hdisconn)
    rw [setLinked_linked, setLinked_setLinked]
    rw [setLinked_linked] at hconnect
    refine ⟨_, rfl, fun _ => ?_⟩
    rw [(modConnect_done (not_not.mp hconnect)).1]
    exact iff_of_true (fun i hi => if_pos ⟨Nat.zero_le i, hi⟩) (.inr (.inr (.inr hall)))
  · exact absurd (mk.inj (some.inj h)).1.symm hfail

theorem Quiet.stayLoaded (h : Quiet modStatic s) : Quiet modStatic (stayLoaded s name) := by
  rw [ModLinks.stayLoaded]
  refine ⟨h.inv.flags rfl rfl id, fun x hx => ?_, h.booted⟩
  by_cases hxn : x = name
  · rw [hxn, setModctl_modctl]
    exact h.idle name (hxn ▸ hx)
  rw [setModctl]
  dsimp only
  rw [update_of_ne hxn]
  exact h.idle x hx

theorem not_mem_of_holders {f : Name → Modctl Name} {d : Name} {l : List Name} (h : holders f d l = 0) :
    ∀ y ∈ l, d ∉ (f y).mdMcl := by
  induction l with
  | nil => exact nofun
  | cons z l ih =>
    rw [holders] at h
    intro y hy
    rcases mem_cons.mp hy with rfl | hrest
    · exact count_eq_zero.mp (Nat.eq_zero_of_add_eq_zero_right h)
    · exact ih (Nat.eq_zero_of_add_eq_zero_left h) y hrest

theorem Quiet.modunld (h : Quiet modStatic s) (hname : name ∈ s.modhead)
    (hmodunld : modunld m name s = some (retval, s')) : Quiet modStatic s' := by
  by_cases hretval : retval = 0
  · rw [hretval] at hmodunld
    obtain ⟨hidle, rfl⟩ := modunld_done hmodunld
    have hcount := h.inv.counted name hname
    have hzero : (s.modctl name).modDepcnt = 0 := not_not.mp fun hne => hidle (.inl hne)
    have hfree := not_mem_of_holders (Int.ofNat_eq_zero.mp (hcount.symm.trans hzero))
    refine ⟨h.inv.setLinked.discard hname hfree, fun x hx => ?_, fun hinit => ?_⟩
    · have hin : x ∈ (setLinked s name (setRange false (s.linked name) 0 m.links)).modhead := by
        rw [(@discard_eq Name _ _ name).2.1] at hx
        exact mem_of_mem_erase hx
      exact (modInprogress_of_core (discard_keeps.modctl x trivial hin)).trans (h.idle x hin)
    · rw [discard_keeps.modInitialized] at hinit
      rw [h.booted hinit] at hname
      cases hname
  · obtain ⟨linked, rfl, -⟩ := modunld_fails hmodunld hretval
    exact Quiet.stayLoaded ⟨h.inv.setLinked, h.idle, h.booted⟩

/-! ### What an error promises -/

/-- The module is gone; what it depends on may be on the list now, and then its counts come from the
list alone. -/
structure LoadUndone (name : Name) (s s' : Kernel Name) : Prop where
  linkages : ∀ i, s'.linked name i = false
  off : name ∉ s'.modhead
  counts : ∃ stay, s'.modhead = s.modhead ++ stay ∧
    (∀ x ∈ s.modhead, (s'.modctl x).modDepcnt = (s.modctl x).modDepcnt + holders s'.modctl x stay) ∧
    ∀ x ∈ stay, (s'.modctl x).modDepcnt = holders s'.modctl x stay

/-- The module is as before, but no longer `MOD_UNLOADING`. -/
structure UnloadUndone (m : Module Name) (name : Name) (s s' : Kernel Name) : Prop where
  linkages : ∀ i, i < m.links → s'.linked name i = true
  modhead : s'.modhead = s.modhead
  self : s'.modctl name = { s.modctl name with modUnloading := false }
  others : ∀ x, x ≠ name → s'.modctl x = s.modctl x ∧ s'.linked x = s.linked x

theorem LoadOk.undone (h : LoadOk modStatic s name retval s') (hinv : Inv modStatic s)
    (hname : name ∉ s.modhead) (hfail : retval ≠ 0) (hlinkages : ∀ i, s'.linked name i = false) :
    LoadUndone name s s' := by
  obtain ⟨stay, hstay⟩ := h.grows.grown
  have hold : ∀ x, holders s'.modctl x s.modhead = holders s.modctl x s.modhead := by
    intro x
    exact holders_congr fun y hy => mdMcl_of_core (h.grows.modctl y trivial hy)
  have hnodup := h.inv.nodup
  rw [← hstay] at hnodup
  refine ⟨hlinkages, h.failed hfail hname, stay, hstay.symm, fun x hx => ?_, fun x hx => ?_⟩
  · rw [h.inv.counted x (h.grows.grown.subset hx), ← hstay, holders_append, hold, hinv.counted x hx]
    omega
  · have hnot : x ∉ s.modhead := fun hin => disjoint_of_nodup_append hnodup hin hx
    have hnone : holders s.modctl x s.modhead = 0 :=
      holders_zero fun y hy hdep => hnot (hinv.held y hy x hdep).1
    rw [h.inv.counted x (hstay ▸ mem_append_right s.modhead hx), ← hstay, holders_append, hold, hnone]
    omega

theorem modunld_undone (h : modunld m name s = some (retval, s')) (hfail : retval ≠ 0)
    (hall : ∀ i, i < m.links → s.linked name i = true) :
    UnloadUndone m name s s' ↔ UnloadRestores m (s.modctl name) := by
  obtain ⟨linked, rfl, hiff⟩ := modunld_fails h hfail
  rw [← hiff hall]
  have hlinked : (stayLoaded (setLinked s name linked) name).linked name = linked := setLinked_linked
  constructor
  · intro hundone i hi
    rw [← hlinked]
    exact hundone.linkages i hi
  · intro hback
    refine ⟨fun i hi => ?_, Eq.refl s.modhead, setModctl_modctl, fun x hx => ⟨?_, ?_⟩⟩
    · rw [hlinked]
      exact hback i hi
    · rw [stayLoaded, setModctl]
      exact update_of_ne hx _ _
    · exact update_of_ne hx _ _

/-- Both calls, for a kernel in which nothing else happens meanwhile. -/
theorem modld_modunld_undo (files : Name → Module Name) (modStatic : Name → Bool) (fuel : Nat) (m : Module Name)
    (name : Name) (s s' : Kernel Name) (retval : Nat) (hquiet : Quiet modStatic s) (hfail : retval ≠ 0) :
    ((name ∉ s.modhead → ∀ i, s.linked name i = false) →
      modld files modStatic (fuel + 1) name s = some (retval, s') →
      (LoadUndone name s s' ↔ ¬ (Connects files modStatic fuel name s ∧ LeftLinked (files name)))) ∧
    (name ∈ s.modhead → (∀ i, i < m.links → s.linked name i = true) → modunld m name s = some (retval, s') →
      (UnloadUndone m name s s' ↔ UnloadRestores m (s.modctl name))) := by
  constructor
  · intro hunlinked hmodld
    have hname := hquiet.not_mem hmodld hfail
    have hok := modld_ok hquiet.inv hmodld
    rw [← modld_unlinked hquiet.inv hname (hunlinked hname) hmodld hfail]
    exact ⟨fun hundone => hundone.linkages, hok.undone hquiet.inv hname hfail⟩
  · intro _ hall hmodunld
    exact modunld_undone hmodunld hfail hall

/-! ### Runs -/

/-- A module is loaded or unloaded, or others change its flags and how often it is held. -/
def Changes (files : Name → Module Name) (modStatic : Name → Bool) (s : Kernel Name) (name : Name)
    (s' : Kernel Name) : Prop :=
  (∃ fuel retval, modld files modStatic fuel name s = some (retval, s')) ∨
  (name ∈ s.modhead ∧ ∃ retval, modunld (files name) name s = some (retval, s')) ∨
  ∃ c, s' = setModctl s name c ∧ c.mdMcl = (s.modctl name).mdMcl ∧
    c.modDepcnt = (s.modctl name).modDepcnt ∧ c.modLoading = (s.modctl name).modLoading ∧
    c.modInprogress = (s.modctl name).modInprogress

theorem Quiet.flags (h : Quiet modStatic s) (hmcl : c.mdMcl = (s.modctl name).mdMcl)
    (hdepcnt : c.modDepcnt = (s.modctl name).modDepcnt)
    (hloading : c.modLoading = (s.modctl name).modLoading)
    (hinprogress : c.modInprogress = (s.modctl name).modInprogress) :
    Quiet modStatic (setModctl s name c) := by
  refine ⟨h.inv.flags hmcl hdepcnt hloading.trans, fun x hx => ?_, h.booted⟩
  by_cases hxn : x = name
  · rw [hxn, setModctl_modctl, hinprogress]
    exact h.idle name (hxn ▸ hx)
  · rw [setModctl]
    dsimp only
    rw [update_of_ne hxn]
    exact h.idle x hx

theorem Quiet.changes (h : Quiet modStatic s) (hstep : Changes files modStatic s name s') :
    Quiet modStatic s' := by
  rcases hstep with ⟨fuel, retval, hmodld⟩ | ⟨hname, retval, hmodunld⟩ | ⟨c, rfl, hmcl, hcount, hload, hin⟩
  · exact h.modld hmodld
  · exact h.modunld hname hmodunld
  · exact h.flags hmcl hcount hload hin

theorem modunld_busy (hbusy : modbusy (s.modctl name)) :
    modunld m name s = some (EBUSY, ModLinks.stayLoaded s name) := by
  have hsame : setLinked s name (s.linked name) = s := by
    rw [setLinked, update_eq_self]
  have herror : EBUSY ≠ 0 := by decide
  rw [modunld, modDisconn, if_pos hbusy]
  dsimp only
  rw [hsame, if_pos herror, ite_self]

/-- What a loaded module depends on is loaded, and refuses to go. -/
theorem depended_on_stays {files : Name → Module Name} {modStatic : Name → Bool} {s s' : Kernel Name}
    {names : List Name} (hnone : s.modhead = [])
    (hrun : Exec (Changes files modStatic) s names s') (y d : Name) (hy : y ∈ s'.modhead)
    (hd : d ∈ (s'.modctl y).mdMcl) (m : Module Name) :
    d ∈ s'.modhead ∧ (s'.modctl d).modDepcnt = holders s'.modctl d s'.modhead ∧
      modunld m d s' = some (EBUSY, stayLoaded s' d) := by
  have hempty : Quiet modStatic s := by
    refine ⟨⟨?_, ?_, ?_, ?_⟩, ?_, fun _ => hnone⟩ <;> rw [hnone]
    · exact nodup_nil
    all_goals exact nofun
  have hinv := (hrun.invariant (fun _ _ _ h hstep => Quiet.changes h hstep) hempty).inv
  have hlisted := (hinv.held y hy d hd).1
  have hcount := hinv.counted d hlisted
  refine ⟨hlisted, hcount, modunld_busy (.inl ?_)⟩
  rw [hcount]
  intro hzero
  exact not_mem_of_holders (Int.ofNat_eq_zero.mp hzero) y hy hd

/-! ### A kernel with one module on the list -/

/-- The module 1, with two linkages. -/
def oneModule : Kernel Nat where
  modInitialized := true
  modhead := [1]
  modctl := fun _ =>
    { modPrf := false
      modLoading := false
      modUnloading := false
      modDemand := false
      modSymtabok := true
      modInprogress := false
      modDepcnt := 0
      modRefcnt := 0
      mdMcl := [] }
  linked := fun name i => decide (name = 1 ∧ i < 2)

theorem oneModule_quiet : Quiet (fun _ => false) oneModule where
  inv := ⟨nodup_singleton 1, fun _ _ => Eq.refl (0 : Int), fun _ _ _ hd => absurd hd not_mem_nil,
      fun _ _ => Eq.refl false⟩
  idle := fun _ _ => Eq.refl false
  booted := fun h => Bool.noConfusion h

/-- The routines of a linkage refuse where it says so. -/
def twoLinkages (mwUnload : Option Nat) (install remove : Nat → Nat) : Module Nat where
  dependents := []
  readError := 0
  relocError := 0
  mwRevOk := true
  mwLoad := none
  mwUnload := mwUnload
  links := 2
  install := install
  remove := remove
  stubs := 0

def refuses (k i : Nat) : Nat := if i = k then EBUSY else 0

/-- The second linkage cannot be installed; `_unload` refuses. -/
theorem modld_modunld_undo_twoLinkages :
    (∃ s', modld (fun _ => twoLinkages none (refuses 1) fun _ => 0) (fun _ => false) 1 2 oneModule =
        some (EBUSY, s') ∧ LoadUndone 2 oneModule s') ∧
      ∃ s', modunld (twoLinkages (some EINVAL) (fun _ => 0) fun _ => 0) 1 oneModule = some (EINVAL, s') ∧
        UnloadUndone (twoLinkages (some EINVAL) (fun _ => 0) fun _ => 0) 1 oneModule s' := by
  refine ⟨⟨_, rfl, ?_⟩, ⟨_, rfl, ?_⟩⟩
  · refine ((modld_modunld_undo (fun _ => twoLinkages none (refuses 1) fun _ => 0) (fun _ => false) 0
      (twoLinkages none (refuses 1) fun _ => 0) 2 oneModule _ EBUSY oneModule_quiet (by decide)).1
      (fun _ i => ?_) rfl).mpr ?_
    · have hother : ¬ (2 = 1 ∧ i < 2) := fun h => absurd h.1 (by decide)
      exact decide_eq_false hother
    · rintro ⟨-, k, -, -, j, -, hremove⟩
      exact hremove rfl
  · refine ((modld_modunld_undo (fun _ => twoLinkages none (refuses 1) fun _ => 0) (fun _ => false) 0
      (twoLinkages (some EINVAL) (fun _ => 0) fun _ => 0) 1 oneModule _ EINVAL oneModule_quiet (by decide)).2
      (.head _) (fun i hi => ?_) rfl).mpr ?_
    · exact decide_eq_true ⟨rfl, hi⟩
    · exact .inr (.inr (.inr fun _ _ => rfl))

/-- The second linkage cannot be removed, and the first is gone; a linkage that could not be installed
leaves one behind that cannot be removed. -/
theorem modunld_linkage_lost : Quiet (fun _ => false) oneModule ∧
    (∃ s', modunld (twoLinkages none (fun _ => 0) (refuses 1)) 1 oneModule = some (EBUSY, s') ∧
      oneModule.linked 1 0 = true ∧ s'.linked 1 0 = false) ∧
    ∃ s', modld (fun _ => twoLinkages none (refuses 1) (refuses 0)) (fun _ => false) 1 2 oneModule =
      some (EBUSY, s') ∧ s'.linked 2 0 = true :=
  ⟨oneModule_quiet, ⟨_, rfl, rfl, rfl⟩, _, rfl, rfl⟩

def needsOne (name : Nat) : Module Nat :=
  { twoLinkages none (fun _ => 0) fun _ => 0 with dependents := if name = 2 then [1] else [] }

/-- The module 2 is loaded, and with it 1, which it depends on. -/
theorem depended_on_stays_two : ∃ s',
    Exec (Changes needsOne fun _ => false) { oneModule with modhead := [] } [2] s' ∧
      s'.modhead = [2, 1] ∧ modunld (needsOne 1) 1 s' = some (EBUSY, stayLoaded s' 1) := by
  have hrun : ∃ s', Exec (Changes needsOne fun _ => false) { oneModule with modhead := [] } [2] s' ∧
      s'.modhead = [2, 1] ∧ (s'.modctl 2).mdMcl = [1] :=
    ⟨_, Exec.single (.inl ⟨2, 0, rfl⟩), rfl, rfl⟩
  obtain ⟨s', hrun, hlist, hdeps⟩ := hrun
  have hlisted : 2 ∈ s'.modhead := by
    rw [hlist]
    exact .head _
  have hneeds : 1 ∈ (s'.modctl 2).mdMcl := by
    rw [hdeps]
    exact .head _
  exact ⟨s', hrun, hlist, (depended_on_stays rfl hrun 2 1 hlisted hneeds _).2.2⟩

end Svr42.ModLinks
