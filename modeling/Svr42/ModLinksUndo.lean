import Mathlib.Data.List.Nodup
import Svr42.ModLinks

/-! What a `modld` or `modunld` that fails leaves behind. -/

namespace Svr42.ModLinks
open Function List

variable {Name : Type} {m : Module Name} {linked : Nat → Bool} {todo p i k : Nat} {v : Bool}

/-! ### The loops over the linkages -/

theorem cleanUp_eq : cleanUp m todo p linked i =
    if p ≤ i ∧ i < p + todo ∧ m.remove i = 0 then false else linked i := by
  induction todo generalizing p linked with
  | zero => exact (if_neg (by omega)).symm
  | succ todo ih =>
    rw [cleanUp, ih]
    by_cases hi : i = p
    · rw [hi, if_neg (by omega)]
      by_cases hremove : m.remove p = 0
      · rw [if_pos hremove, if_pos ⟨Nat.le_refl _, by omega, hremove⟩, update_self]
      · rw [if_neg hremove, if_neg fun h => hremove h.2.2]
    have hsame : (if m.remove p = 0 then update linked p false else linked) i = linked i := by
      split_ifs
      · exact update_of_ne hi _ _
      · rfl
    rw [hsame]
    by_cases hrange : p + 1 ≤ i ∧ i < p + 1 + todo ∧ m.remove i = 0
    · rw [if_pos hrange, if_pos ⟨by omega, by omega, hrange.2.2⟩]
    · rw [if_neg hrange, if_neg fun h => hrange ⟨by omega, by omega, h.2.2⟩]

def setRange (v : Bool) (linked : Nat → Bool) (p k i : Nat) : Bool :=
  if p ≤ i ∧ i < k then v else linked i

theorem setRange_update (h : p < k) :
    setRange v (update linked p v) (p + 1) k = setRange v linked p k := by
  funext i
  unfold setRange
  by_cases hi : i = p
  · rw [hi, if_neg (by omega), if_pos ⟨Nat.le_refl _, h⟩, update_self]
  rw [update_of_ne hi]
  by_cases hrange : p ≤ i ∧ i < k
  · rw [if_pos hrange, if_pos (by omega)]
  · rw [if_neg hrange, if_neg (by omega)]

theorem setRange_same : setRange v linked p p = linked := by
  funext i
  exact if_neg (by omega)

def First (answer : Nat → Nat) (p k : Nat) : Prop := p ≤ k ∧ answer k ≠ 0 ∧ ∀ j, p ≤ j → j < k → answer j = 0

variable {answer : Nat → Nat}

theorem First.succ (h : First answer (p + 1) k) (hp : answer p = 0) : First answer p k := by
  refine ⟨Nat.le_of_succ_le h.1, h.2.1, fun j hlow hhigh => ?_⟩
  rcases Nat.eq_or_lt_of_le hlow with rfl | hlt
  · exact hp
  · exact h.2.2 j hlt hhigh

theorem First.unique {k' : Nat} (h : First answer p k) (h' : First answer p k') : k = k' := by
  rcases Nat.lt_trichotomy k k' with hlt | heq | hgt
  · exact absurd (h'.2.2 k h.1 hlt) h.2.1
  · exact heq
  · exact absurd (h.2.2 k' h'.1 hgt) h'.2.1

/-- A loop over the linkages ends at the first answer that is not 0, or has seen them all. -/
theorem loop_cases {loop : Nat → Nat → (Nat → Bool) → Nat × (Nat → Bool)} {value : Bool}
    {f : Nat → (Nat → Bool) → Nat → Bool} (hzero : ∀ p linked, loop 0 p linked = (0, linked))
    (hsucc : ∀ todo p linked, loop (todo + 1) p linked =
      if answer p ≠ 0 then (answer p, f p linked) else loop todo (p + 1) (update linked p value)) :
    (∃ k, First answer p k ∧ k < p + todo ∧
      loop todo p linked = (answer k, f k (setRange value linked p k))) ∨
    (∀ j, p ≤ j → j < p + todo → answer j = 0) ∧
      loop todo p linked = (0, setRange value linked p (p + todo)) := by
  induction todo generalizing p linked with
  | zero =>
    refine Or.inr ⟨fun j hlow hhigh => by omega, ?_⟩
    rw [Nat.add_zero, setRange_same, hzero]
  | succ todo ih =>
    rw [hsucc]
    by_cases hp : answer p = 0
    · rw [if_neg (not_not.mpr hp)]
      rcases @ih (update linked p value) (p + 1) with ⟨k, hfirst, hlt, heq⟩ | ⟨hall, heq⟩
      · refine Or.inl ⟨k, hfirst.succ hp, by omega, heq.trans ?_⟩
        rw [setRange_update hfirst.1]
      · refine Or.inr ⟨fun j hlow hhigh => ?_, heq.trans ?_⟩
        · rcases Nat.eq_or_lt_of_le hlow with rfl | hgt
          · exact hp
          · exact hall j hgt (by omega)
        · rw [setRange_update (by omega), show p + 1 + todo = p + (todo + 1) by omega]
    · rw [if_pos hp]
      refine Or.inl ⟨p, ⟨Nat.le_refl _, hp, fun j hlow hhigh => by omega⟩, by omega, ?_⟩
      rw [setRange_same]

theorem connectLoop_cases : (∃ k, First m.install p k ∧ k < p + todo ∧
      connectLoop m todo p linked = (m.install k, cleanUp m k 0 (setRange true linked p k))) ∨
    (∀ j, p ≤ j → j < p + todo → m.install j = 0) ∧
      connectLoop m todo p linked = (0, setRange true linked p (p + todo)) :=
  loop_cases (fun _ _ => rfl) fun _ _ _ => rfl

theorem disconnLoop_cases : (∃ k, First m.remove p k ∧ k < p + todo ∧
      disconnLoop m todo p linked = (m.remove k, setRange false linked p k)) ∨
    (∀ j, p ≤ j → j < p + todo → m.remove j = 0) ∧
      disconnLoop m todo p linked = (0, setRange false linked p (p + todo)) :=
  loop_cases (f := fun _ linked => linked) (fun _ _ => rfl) fun _ _ _ => rfl

def core (c : Modctl Name) : Modctl Name := { c with modDepcnt := 0 }

variable {c c' : Modctl Name}

theorem mdMcl_of_core (h : core c = core c') : c.mdMcl = c'.mdMcl := by
  have hmcl : (core c).mdMcl = (core c').mdMcl := by rw [h]
  exact hmcl

theorem modLoading_of_core (h : core c = core c') : c.modLoading = c'.modLoading := by
  have hloading : (core c).modLoading = (core c').modLoading := by rw [h]
  exact hloading

theorem modInprogress_of_core (h : core c = core c') : c.modInprogress = c'.modInprogress := by
  have hprogress : (core c).modInprogress = (core c').modInprogress := by rw [h]
  exact hprogress

/-! ### The counts -/

variable [DecidableEq Name] {s s' s₁ : Kernel Name} {name dep x y d : Name}
  {modStatic : Name → Bool} {f g : Name → Modctl Name} {l l' : List Name}

def holders (modctl : Name → Modctl Name) (d : Name) : List Name → Nat
  | [] => 0
  | y :: ys => (modctl y).mdMcl.count d + holders modctl d ys

theorem holders_append : holders f d (l ++ l') = holders f d l + holders f d l' := by
  induction l with
  | nil => exact (Nat.zero_add _).symm
  | cons y l ih => rw [cons_append, holders, holders, ih, Nat.add_assoc]

theorem holders_congr (h : ∀ y ∈ l, (g y).mdMcl = (f y).mdMcl) : holders g d l = holders f d l := by
  induction l with
  | nil => rfl
  | cons y l ih =>
    rw [holders, holders, h y (.head _), ih fun z hz => h z (.tail y hz)]

theorem holders_zero (h : ∀ y ∈ l, d ∉ (f y).mdMcl) : holders f d l = 0 := by
  induction l with
  | nil => rfl
  | cons y l ih =>
    rw [holders, count_eq_zero.mpr (h y (.head _)), ih fun z hz => h z (.tail y hz)]

theorem holders_erase (h : name ∈ l) :
    holders f d l = (f name).mdMcl.count d + holders f d (l.erase name) := by
  induction l with
  | nil => cases h
  | cons y l ih =>
    by_cases hy : y = name
    · rw [hy, erase_cons_head, holders]
    · have hrest : name ∈ l := (mem_cons.mp h).resolve_left (Ne.symm hy)
      rw [erase_cons_tail (by simpa using hy), holders, holders, ih hrest]
      omega

/-- The kernel's books: a module is counted once for every time a module on the list depends on it,
and modules only depend on what has been loaded. -/
structure Inv (modStatic : Name → Bool) (s : Kernel Name) : Prop where
  nodup : s.modhead.Nodup
  counted : ∀ x ∈ s.modhead, (s.modctl x).modDepcnt = holders s.modctl x s.modhead
  held : ∀ y ∈ s.modhead, ∀ d ∈ (s.modctl y).mdMcl, d ∈ s.modhead ∧ (s.modctl d).modLoading = false
  loadable : ∀ x ∈ s.modhead, modStatic x = false

/-- What stays of some modules on the list. -/
structure Keeps (others : Name → Prop) (s s' : Kernel Name) : Prop where
  modInitialized : s'.modInitialized = s.modInitialized
  modctl : ∀ x, others x → x ∈ s.modhead → core (s'.modctl x) = core (s.modctl x)
  linked : ∀ x, others x → x ∈ s.modhead → s'.linked x = s.linked x

theorem modObjUnload_eq : (modObjUnload l s).modInitialized = s.modInitialized ∧
    (modObjUnload l s).modhead = s.modhead ∧ (modObjUnload l s).linked = s.linked ∧
    ∀ x, (modObjUnload l s).modctl x =
      { s.modctl x with modDepcnt := (s.modctl x).modDepcnt - (l.count x : Nat) } := by
  induction l generalizing s with
  | nil =>
    refine ⟨rfl, rfl, rfl, fun x => ?_⟩
    rw [count_nil]
    show s.modctl x = { s.modctl x with modDepcnt := (s.modctl x).modDepcnt - 0 }
    rw [Int.sub_zero]
  | cons dep l ih =>
    rw [modObjUnload]
    obtain ⟨hinit, hlist, hlinked, hmodctl⟩ :=
      ih (s := setModctl s dep { s.modctl dep with modDepcnt := (s.modctl dep).modDepcnt - 1 })
    refine ⟨hinit, hlist, hlinked, fun x => (hmodctl x).trans ?_⟩
    by_cases hx : x = dep
    · rw [hx, setModctl, count_cons_self]
      dsimp only
      rw [update_self]
      rw [show (s.modctl dep).modDepcnt - 1 - (l.count dep : Nat) =
        (s.modctl dep).modDepcnt - ((l.count dep + 1 : Nat) : Int) by omega]
    · rw [setModctl, count_cons_of_ne (Ne.symm hx)]
      dsimp only
      rw [update_of_ne hx]

theorem discard_eq : (discard s name).modInitialized = s.modInitialized ∧
    (discard s name).modhead = s.modhead.erase name ∧ (discard s name).linked = s.linked ∧
    ∀ x, (discard s name).modctl x = { s.modctl x with
      modDepcnt := (s.modctl x).modDepcnt - ((s.modctl name).mdMcl.count x : Nat) } := by
  obtain ⟨hinit, hlist, hlinked, hmodctl⟩ := modObjUnload_eq (l := (s.modctl name).mdMcl) (s := s)
  exact ⟨hinit, congrArg (·.erase name) hlist, hlinked, hmodctl⟩

theorem discard_keeps : Keeps (fun _ => True) s (discard s name) := by
  obtain ⟨hinit, -, hlinked, hmodctl⟩ := @discard_eq Name _ s name
  refine ⟨hinit, fun x _ _ => ?_, fun x _ _ => congrFun hlinked x⟩
  rw [hmodctl]
  rfl

/-- A module that no other depends on goes away. -/
theorem Inv.discard (h : Inv modStatic s) (hname : name ∈ s.modhead)
    (hfree : ∀ y ∈ s.modhead, name ∉ (s.modctl y).mdMcl) : Inv modStatic (discard s name) := by
  obtain ⟨-, hlist, -, hmodctl⟩ := @discard_eq Name _ s name
  have hmcl : ∀ y, ((ModLinks.discard s name).modctl y).mdMcl = (s.modctl y).mdMcl := by
    intro y
    rw [hmodctl]
  have hloading : ∀ y, ((ModLinks.discard s name).modctl y).modLoading = (s.modctl y).modLoading := by
    intro y
    rw [hmodctl]
  have hmem : ∀ {y}, y ∈ s.modhead.erase name ↔ y ≠ name ∧ y ∈ s.modhead :=
    List.Nodup.mem_erase_iff h.nodup
  refine ⟨by rw [hlist]; exact h.nodup.erase name, fun x hx => ?_, fun y hy d hd => ?_, fun x hx => ?_⟩
  · rw [hlist] at hx ⊢
    have hbooks := h.counted x (hmem.mp hx).2
    rw [holders_erase hname] at hbooks
    rw [hmodctl, holders_congr fun y _ => hmcl y]
    dsimp only
    omega
  · rw [hlist] at hy ⊢
    rw [hmcl] at hd
    rw [hloading]
    obtain ⟨hin, hloaded⟩ := h.held y (hmem.mp hy).2 d hd
    refine ⟨hmem.mpr ⟨?_, hin⟩, hloaded⟩
    rintro rfl
    exact hfree y (hmem.mp hy).2 hd
  · rw [hlist] at hx
    exact h.loadable x (hmem.mp hx).2

/-- Nothing about the books changes, except that a module may be done loading. -/
theorem Inv.flags (h : Inv modStatic s) (hmcl : c.mdMcl = (s.modctl name).mdMcl)
    (hdepcnt : c.modDepcnt = (s.modctl name).modDepcnt)
    (hloading : (s.modctl name).modLoading = false → c.modLoading = false) :
    Inv modStatic (setModctl s name c) := by
  have hmcls : ∀ y, ((setModctl s name c).modctl y).mdMcl = (s.modctl y).mdMcl := by
    intro y
    by_cases hy : y = name
    · rw [hy, setModctl, ← hmcl]
      dsimp only
      rw [update_self]
    · rw [setModctl]
      dsimp only
      rw [update_of_ne hy]
  refine ⟨h.nodup, fun x hx => ?_, fun y hy d hd => ?_, h.loadable⟩
  · rw [holders_congr fun y _ => hmcls y]
    refine Eq.trans ?_ (h.counted x hx)
    by_cases hxn : x = name
    · rw [hxn, setModctl, ← hdepcnt]
      dsimp only
      rw [update_self]
    · rw [setModctl]
      dsimp only
      rw [update_of_ne hxn]
  · rw [hmcls] at hd
    obtain ⟨hin, hloaded⟩ := h.held y hy d hd
    refine ⟨hin, ?_⟩
    rw [setModctl]
    dsimp only
    by_cases hdn : d = name
    · rw [hdn, update_self]
      exact hloading (hdn ▸ hloaded)
    · rw [update_of_ne hdn]
      exact hloaded

theorem Inv.setLinked (h : Inv modStatic s) : Inv modStatic (setLinked s name linked) :=
  ⟨h.nodup, h.counted, h.held, h.loadable⟩

theorem enter_modctl_of_ne (h : x ≠ name) : (enter s name).modctl x = s.modctl x := by
  rw [enter, setModctl]
  exact update_of_ne h _ _

theorem enter_modctl_self : ((enter s name).modctl name).mdMcl = [] ∧
    ((enter s name).modctl name).modLoading = true ∧ ((enter s name).modctl name).modDepcnt = 0 := by
  rw [enter, setModctl]
  dsimp only
  rw [update_self]
  exact ⟨rfl, rfl, rfl⟩

/-- A module that starts to load depends on nothing, and nothing depends on it. -/
theorem Inv.enter (h : Inv modStatic s) (hname : name ∉ s.modhead) (hstatic : modStatic name = false) :
    Inv modStatic (enter s name) := by
  have hne : ∀ {y}, y ∈ s.modhead → y ≠ name := by
    rintro y hy rfl
    exact hname hy
  have hlist : (ModLinks.enter s name).modhead = s.modhead ++ [name] := rfl
  obtain ⟨hnone, -, hzero⟩ := @enter_modctl_self Name _ s name
  have hholders : ∀ x, holders (ModLinks.enter s name).modctl x (s.modhead ++ [name]) =
      holders s.modctl x s.modhead := by
    intro x
    rw [holders_append, holders, holders, hnone, count_nil,
      holders_congr (f := s.modctl) fun y hy => congrArg Modctl.mdMcl (enter_modctl_of_ne (hne hy))]
    omega
  refine ⟨?_, fun x hx => ?_, fun y hy d hd => ?_, fun x hx => ?_⟩
  · rw [hlist]
    exact List.Nodup.append h.nodup (nodup_singleton name) (disjoint_singleton.mpr hname)
  · rw [hlist, hholders]
    rcases mem_append.mp (hlist ▸ hx) with hold | hnew
    · rw [enter_modctl_of_ne (hne hold)]
      exact h.counted x hold
    · rw [mem_singleton.mp hnew, hzero, holders_zero fun y hy hd => hname (h.held y hy name hd).1]
      rfl
  · rcases mem_append.mp (hlist ▸ hy) with hold | hnew
    · rw [enter_modctl_of_ne (hne hold)] at hd
      obtain ⟨hin, hloaded⟩ := h.held y hold d hd
      rw [enter_modctl_of_ne (hne hin)]
      exact ⟨mem_append_left _ hin, hloaded⟩
    · rw [mem_singleton.mp hnew, hnone] at hd
      cases hd
  · rcases mem_append.mp (hlist ▸ hx) with hold | hnew
    · exact h.loadable x hold
    · rw [mem_singleton.mp hnew]
      exact hstatic

theorem record_modctl_of_ne (h : x ≠ name) :
    core ((record s name dep).modctl x) = core (s.modctl x) ∧ ((record s name dep).modctl x).modDepcnt =
        (s.modctl x).modDepcnt + if x = dep then 1 else 0 := by
  rw [record, setModctl, setModctl]
  dsimp only
  rw [update_of_ne h]
  by_cases hx : x = dep
  · rw [hx, update_self, if_pos rfl]
    exact ⟨rfl, rfl⟩
  · rw [update_of_ne hx, if_neg hx, Int.add_zero]
    exact ⟨rfl, rfl⟩

theorem record_modctl_self (h : dep ≠ name) :
    (record s name dep).modctl name = { s.modctl name with mdMcl := dep :: (s.modctl name).mdMcl } := by
  rw [record, setModctl, setModctl]
  dsimp only
  rw [update_self, update_of_ne h.symm]

/-- A dependent that has been loaded is counted for a module that is loading. -/
theorem Inv.record (h : Inv modStatic s) (hname : name ∈ s.modhead) (hdep : dep ∈ s.modhead)
    (hne : dep ≠ name) (hloaded : (s.modctl dep).modLoading = false) :
    Inv modStatic (record s name dep) := by
  have hlist : (ModLinks.record s name dep).modhead = s.modhead := rfl
  have hself := record_modctl_self (s := s) hne
  have hloading : ∀ y, ((ModLinks.record s name dep).modctl y).modLoading = (s.modctl y).modLoading := by
    intro y
    by_cases hy : y = name
    · rw [hy, hself]
    · exact modLoading_of_core (record_modctl_of_ne hy).1
  have hholders : ∀ x, holders (ModLinks.record s name dep).modctl x s.modhead =
      holders s.modctl x s.modhead + if x = dep then 1 else 0 := by
    intro x
    have hothers : holders (ModLinks.record s name dep).modctl x (s.modhead.erase name) =
        holders s.modctl x (s.modhead.erase name) := by
      refine holders_congr fun y hy => mdMcl_of_core (record_modctl_of_ne ?_).1
      exact ((List.Nodup.mem_erase_iff h.nodup).mp hy).1
    rw [holders_erase hname, holders_erase hname, hothers, hself]
    by_cases hx : x = dep
    · rw [hx, count_cons_self, if_pos rfl]
      omega
    · rw [count_cons_of_ne (Ne.symm hx), if_neg hx]
      omega
  refine ⟨h.nodup, fun x hx => ?_, fun y hy d hd => ?_, h.loadable⟩
  · rw [hlist, hholders]
    have hbooks := h.counted x hx
    by_cases hxn : x = name
    · rw [hxn, hself, if_neg hne.symm]
      exact hxn ▸ hbooks
    rw [(record_modctl_of_ne hxn).2, hbooks]
    split_ifs
    · rfl
    · rfl
  · rw [hlist, hloading]
    by_cases hyn : y = name
    · rw [hyn, hself] at hd
      rcases mem_cons.mp hd with rfl | hold
      · exact ⟨hdep, hloaded⟩
      · exact h.held name hname d hold
    · rw [mdMcl_of_core (record_modctl_of_ne hyn).1] at hd
      exact h.held y hy d hd

end Svr42.ModLinks
