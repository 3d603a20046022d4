import Svr42.ModLinksUndo

/-! A `modld` that fails, and a `modunld` that fails. -/

namespace Svr42.ModLinks
open Function List Option Prod

variable {Name : Type} {m : Module Name} {s s₀ s₁ s' : Kernel Name}
  {name dep x : Name} {modStatic : Name → Bool} {others : Name → Prop} {retval fuel : Nat}
  {files : Name → Module Name} {c : Modctl Name} {linked : Nat → Bool}

/-! ### While a module loads -/

/-- More modules at the end of the list, all but the exceptions loaded. -/
structure Grows (others : Name → Prop) (s s' : Kernel Name) : Prop extends Keeps others s s' where
  grown : s.modhead <+: s'.modhead
  settled : ∀ x, others x → x ∈ s'.modhead → x ∉ s.modhead → (s'.modctl x).modInprogress = false

theorem Grows.refl : Grows others s s where
  modInitialized := Eq.refl s.modInitialized
  modctl := fun x _ _ => Eq.refl (core (s.modctl x))
  linked := fun x _ _ => Eq.refl (s.linked x)
  grown := prefix_refl s.modhead
  settled := fun _ _ hx hnot => absurd hx hnot

theorem Grows.trans (h : Grows others s s₁) (h' : Grows others s₁ s') : Grows others s s' := by
  have hin : ∀ {x}, x ∈ s.modhead → x ∈ s₁.modhead := fun hx => h.grown.subset hx
  refine ⟨⟨h'.modInitialized.trans h.modInitialized, fun x hothers hx => ?_, fun x hothers hx => ?_⟩,
    h.grown.trans h'.grown, fun x hothers hx hnot => ?_⟩
  · exact (h'.modctl x hothers (hin hx)).trans (h.modctl x hothers hx)
  · exact (h'.linked x hothers (hin hx)).trans (h.linked x hothers hx)
  · by_cases hmid : x ∈ s₁.modhead
    · rw [modInprogress_of_core (h'.modctl x hothers hmid)]
      exact h.settled x hothers hmid hnot
    · exact h'.settled x hothers hx hmid

theorem Grows.mono {others' : Name → Prop} (h : Grows others s s') (hsub : ∀ x, others' x → others x) :
    Grows others' s s' where
  modInitialized := h.modInitialized
  modctl := fun x hothers => h.modctl x (hsub x hothers)
  linked := fun x hothers => h.linked x (hsub x hothers)
  grown := h.grown
  settled := fun x hothers => h.settled x (hsub x hothers)

theorem Grows.all (h : Grows (· ≠ name) s s') (hname : name ∉ s.modhead)
    (hdone : (s'.modctl name).modInprogress = false) : Grows (fun _ => True) s s' := by
  have hne : ∀ {x}, x ∈ s.modhead → x ≠ name := by
    rintro x hx rfl
    exact hname hx
  refine ⟨⟨h.modInitialized, fun x _ hx => h.modctl x (hne hx) hx, fun x _ hx => h.linked x (hne hx) hx⟩,
    h.grown, fun x _ hx hnot => ?_⟩
  by_cases hxn : x = name
  · rw [hxn]
    exact hdone
  · exact h.settled x hxn hx hnot

/-! ### Connecting -/

def LeftLinked (m : Module Name) : Prop :=
  ∃ k, k < m.links ∧ First m.install 0 k ∧ ∃ j, j < k ∧ m.remove j ≠ 0

theorem modConnect_fails (hnone : ∀ i, linked i = false) (hfail : (modConnect m linked).1 ≠ 0) :
    (∀ i, (modConnect m linked).2 i = false) ↔ ¬ LeftLinked m := by
  rw [modConnect] at hfail ⊢
  rcases @connectLoop_cases Name m linked m.links 0 with ⟨k, hfirst, hlt, heq⟩ | ⟨-, heq⟩
  · have hleft : ∀ i, (connectLoop m m.links 0 linked).2 i = false ↔ ¬ (i < k ∧ m.remove i ≠ 0) := by
      intro i
      rw [heq]
      dsimp only
      rw [cleanUp_eq, setRange]
      by_cases hi : i < k
      · by_cases hremove : m.remove i = 0
        · rw [if_pos ⟨Nat.zero_le i, by omega, hremove⟩]
          exact iff_of_true rfl fun h => h.2 hremove
        · rw [if_neg fun h => hremove h.2.2, if_pos ⟨Nat.zero_le i, hi⟩]
          exact iff_of_false Bool.noConfusion (not_not.mpr ⟨hi, hremove⟩)
      · rw [if_neg (by omega), if_neg (by omega)]
        exact iff_of_true (hnone i) fun h => hi h.1
    constructor
    · rintro hall ⟨k', hlt', hfirst', j, hj, hremove⟩
      rw [← hfirst.unique hfirst'] at hj
      exact (hleft j).mp (hall j) ⟨hj, hremove⟩
    · intro hnot i
      exact (hleft i).mpr fun h => hnot ⟨k, by omega, hfirst, i, h⟩
  · rw [heq] at hfail
    exact absurd rfl hfail

theorem modConnect_done (hdone : (modConnect m linked).1 = 0) :
    (modConnect m linked).2 = setRange true linked 0 m.links ∧ ¬ LeftLinked m := by
  rw [modConnect] at hdone ⊢
  rcases @connectLoop_cases Name m linked m.links 0 with ⟨k, hfirst, hlt, heq⟩ | ⟨hall, heq⟩
  · rw [heq] at hdone
    exact absurd hdone hfirst.2.1
  rw [heq]
  refine ⟨by rw [Nat.zero_add], ?_⟩
  rintro ⟨k, hlt, hfirst, -⟩
  exact hfirst.2.1 (hall k (Nat.zero_le k) (by omega))

theorem modDisconn_done (hdone : (modDisconn m c linked).1 = 0) :
    (modDisconn m c linked).2 = setRange false linked 0 m.links ∧ ¬ modbusy c ∧
      ∀ j, j < m.links → m.remove j = 0 := by
  rw [modDisconn] at hdone ⊢
  split_ifs at hdone ⊢ with hbusy
  · exact absurd hdone (show EBUSY ≠ 0 by decide)
  · rcases @disconnLoop_cases Name m linked m.links 0 with ⟨k, hfirst, hlt, heq⟩ | ⟨hall, heq⟩
    · rw [heq] at hdone
      exact absurd hdone hfirst.2.1
    · rw [heq]
      exact ⟨by rw [Nat.zero_add], hbusy, fun j hj => hall j (Nat.zero_le j) (by omega)⟩

/-! ### Loading -/

variable [DecidableEq Name]

/-- What a call of `modld` does to everything but the linkages of the module. -/
structure LoadOk (modStatic : Name → Bool) (s : Kernel Name) (name : Name) (retval : Nat)
    (s' : Kernel Name) : Prop where
  inv : Inv modStatic s'
  grows : Grows (fun _ => True) s s'
  loaded : retval = 0 → name ∈ s'.modhead ∧ (s'.modctl name).modLoading = false
  failed : retval ≠ 0 → name ∉ s.modhead → name ∉ s'.modhead

/-- A module on the list that no other depends on, `s₀` the kernel before. -/
structure Alone (modStatic : Name → Bool) (s₀ : Kernel Name) (name : Name) (s : Kernel Name) : Prop where
  inv : Inv modStatic s
  grows : Grows (· ≠ name) s₀ s
  mem : name ∈ s.modhead
  free : ∀ y ∈ s.modhead, name ∉ (s.modctl y).mdMcl

/-- The module is loading. -/
structure Loading (modStatic : Name → Bool) (s₀ : Kernel Name) (name : Name) (s : Kernel Name) : Prop where
  inv : Inv modStatic s
  grows : Grows (· ≠ name) s₀ s
  mem : name ∈ s.modhead
  loading : (s.modctl name).modLoading = true
  linked : s.linked name = s₀.linked name

theorem Loading.alone (h : Loading modStatic s₀ name s) : Alone modStatic s₀ name s := by
  refine ⟨h.inv, h.grows, h.mem, fun y hy hdep => ?_⟩
  have hloaded := (h.inv.held y hy name hdep).2
  rw [h.loading] at hloaded
  cases hloaded

theorem Grows.setModctl : Grows (· ≠ name) s (setModctl s name c) := by
  refine ⟨⟨Eq.refl s.modInitialized, fun x hx _ => ?_, fun x _ _ => Eq.refl (s.linked x)⟩,
    prefix_refl s.modhead, fun x _ hx hnot => absurd hx hnot⟩
  rw [ModLinks.setModctl]
  dsimp only
  rw [update_of_ne hx]

theorem Grows.setLinked : Grows (· ≠ name) s (setLinked s name linked) := by
  refine ⟨⟨Eq.refl s.modInitialized, fun x _ _ => Eq.refl (core (s.modctl x)), fun x hx _ => ?_⟩,
    prefix_refl s.modhead, fun x _ hx hnot => absurd hx hnot⟩
  rw [ModLinks.setLinked]
  dsimp only
  rw [update_of_ne hx]

theorem Grows.record : Grows (· ≠ name) s (record s name dep) :=
  ⟨⟨Eq.refl s.modInitialized, fun _ hx _ => (record_modctl_of_ne hx).1, fun x _ _ => Eq.refl (s.linked x)⟩,
    prefix_refl s.modhead, fun _ _ hx hnot => absurd hx hnot⟩

theorem Loading.enter (h : Inv modStatic s) (hname : name ∉ s.modhead) (hstatic : modStatic name = false) :
    Loading modStatic s name (enter s name) := by
  refine ⟨h.enter hname hstatic, ⟨⟨Eq.refl s.modInitialized, fun x hx _ => ?_,
    fun x _ _ => Eq.refl (s.linked x)⟩, prefix_append s.modhead [name], fun x hother hx hnot => ?_⟩,
    mem_append_right _ (mem_singleton_self name), (@enter_modctl_self Name _ s name).2.1,
    Eq.refl (s.linked name)⟩
  · rw [enter_modctl_of_ne hx]
  · rcases mem_append.mp hx with hold | hnew
    · exact absurd hold hnot
    · exact absurd (mem_singleton.mp hnew) hother

theorem Loading.modld (h : Loading modStatic s₀ name s) (hmodld : LoadOk modStatic s dep retval s') :
    Loading modStatic s₀ name s' where
  inv := hmodld.inv
  grows := h.grows.trans (hmodld.grows.mono fun _ _ => trivial)
  mem := hmodld.grows.grown.subset h.mem
  loading := (modLoading_of_core (hmodld.grows.modctl name trivial h.mem)).trans h.loading
  linked := (hmodld.grows.linked name trivial h.mem).trans h.linked

theorem Loading.record (h : Loading modStatic s₀ name s) (hdep : dep ∈ s.modhead)
    (hloaded : (s.modctl dep).modLoading = false) : Loading modStatic s₀ name (record s name dep) := by
  have hne : dep ≠ name := by
    rintro rfl
    rw [h.loading] at hloaded
    cases hloaded
  refine ⟨h.inv.record h.mem hdep hne hloaded, h.grows.trans Grows.record, h.mem, ?_, h.linked⟩
  rw [record_modctl_self hne]
  exact h.loading

variable {modld : Name → Kernel Name → Option (Nat × Kernel Name)}

section

variable
  (hmodld : ∀ {dep s retval s'}, Inv modStatic s → modld dep s = some (retval, s') → LoadOk modStatic s dep retval s')
  (h : Loading modStatic s₀ name s)
include hmodld h

theorem Loading.modObjDodep {deps : List Name} {ok : Bool}
    (hdodep : modObjDodep modStatic modld name deps s = some (ok, s')) :
    Loading modStatic s₀ name s' := by
  induction deps generalizing s with
  | nil =>
    obtain ⟨-, rfl⟩ := mk.inj (some.inj hdodep)
    exact h
  | cons dep deps ih =>
    rw [ModLinks.modObjDodep] at hdodep
    split_ifs at hdodep with hstatic
    · exact ih h hdodep
    · split at hdodep
      · cases hdodep
      · rename_i retval s₁ hcall
        have hstep := hmodld h.inv hcall
        split_ifs at hdodep with hfail
        · obtain ⟨-, rfl⟩ := mk.inj (some.inj hdodep)
          exact h.modld hstep
        · obtain ⟨hdep, hloaded⟩ := hstep.loaded (not_not.mp hfail)
          exact ih ((h.modld hstep).record hdep hloaded) hdodep

theorem Loading.modObjLoad
    (hload : modObjLoad modStatic modld m name s = some (retval, s')) : Loading modStatic s₀ name s' := by
  rw [ModLinks.modObjLoad] at hload
  split_ifs at hload with hread
  · obtain ⟨-, rfl⟩ := mk.inj (some.inj hload)
    exact h
  · split at hload
    · cases hload
    · rename_i s₁ hdodep
      obtain ⟨-, rfl⟩ := mk.inj (some.inj hload)
      exact h.modObjDodep hmodld hdodep
    · rename_i s₁ hdodep
      obtain ⟨-, rfl⟩ := mk.inj (some.inj hload)
      exact h.modObjDodep hmodld hdodep

end

section

variable (h : Alone modStatic s₀ name s)
include h

theorem Alone.discard (hname : name ∉ s₀.modhead) (hfail : retval ≠ 0) :
    LoadOk modStatic s₀ name retval (discard s name) := by
  obtain ⟨-, hlist, -, -⟩ := @discard_eq Name _ s name
  have hkeeps := @discard_keeps Name _ s name
  have hne : ∀ {x}, x ∈ s₀.modhead → x ≠ name := by
    rintro x hx rfl
    exact hname hx
  have hmem : ∀ {y}, y ∈ s.modhead.erase name ↔ y ≠ name ∧ y ∈ s.modhead :=
    List.Nodup.mem_erase_iff h.inv.nodup
  refine ⟨h.inv.discard h.mem h.free, ⟨⟨hkeeps.modInitialized.trans h.grows.modInitialized,
    fun x _ hx => ?_, fun x _ hx => ?_⟩, ?_, fun x _ hx hnot => ?_⟩, fun hzero => absurd hzero hfail,
    fun _ _ hx => ?_⟩
  · exact (hkeeps.modctl x trivial (h.grows.grown.subset hx)).trans (h.grows.modctl x (hne hx) hx)
  · exact (hkeeps.linked x trivial (h.grows.grown.subset hx)).trans (h.grows.linked x (hne hx) hx)
  · obtain ⟨new, hnew⟩ := h.grows.grown
    rw [hlist, ← hnew, erase_append_right new hname]
    exact prefix_append s₀.modhead (new.erase name)
  · rw [hlist] at hx
    obtain ⟨hother, hin⟩ := hmem.mp hx
    rw [modInprogress_of_core (hkeeps.modctl x trivial hin)]
    exact h.grows.settled x hother hin hnot
  · rw [hlist] at hx
    exact (hmem.mp hx).1 rfl

theorem Alone.setLinked : Alone modStatic s₀ name (setLinked s name linked) :=
  ⟨h.inv.setLinked, h.grows.trans Grows.setLinked, h.mem, h.free⟩

theorem Alone.flags (hmcl : c.mdMcl = (s.modctl name).mdMcl)
    (hdepcnt : c.modDepcnt = (s.modctl name).modDepcnt)
    (hloading : (s.modctl name).modLoading = false → c.modLoading = false) :
    Alone modStatic s₀ name (setModctl s name c) := by
  refine ⟨h.inv.flags hmcl hdepcnt hloading, h.grows.trans Grows.setModctl, h.mem, fun y hy hdep => ?_⟩
  refine h.free y hy ?_
  rw [ModLinks.setModctl] at hdep
  dsimp only at hdep
  by_cases hyn : y = name
  · rw [hyn, update_self, hmcl] at hdep
    rw [hyn]
    exact hdep
  · rw [update_of_ne hyn] at hdep
    exact hdep

end

theorem modunld_done (h : modunld m name s = some (0, s')) : ¬ modbusy (s.modctl name) ∧
    s' = discard (setLinked s name (setRange false (s.linked name) 0 m.links)) name := by
  rw [modunld] at h
  dsimp only at h
  split_ifs at h with hdemand hdisconn hunload hconnect
  · exact absurd (mk.inj (some.inj h)).1 (by decide)
  · exact absurd (mk.inj (some.inj h)).1 hdisconn
  · exact absurd (mk.inj (some.inj h)).1 hunload
  · obtain ⟨hlinked, hfree, -⟩ := modDisconn_done (not_not.mp hdisconn)
    rw [hlinked] at h
    exact ⟨hfree, (mk.inj (some.inj h)).2.symm⟩

theorem discard_linked : (discard s name).linked = s.linked := (@discard_eq Name _ s name).2.2.1

theorem setLinked_linked : (setLinked s name linked).linked name = linked := by
  rw [setLinked]
  exact update_self _ _ _

theorem setModctl_modctl : (setModctl s name c).modctl name = c := by
  rw [setModctl]
  exact update_self _ _ _

/-- From where the module is in memory. -/
theorem Loading.attach (h : Loading modStatic s₀ name s) (hname : name ∉ s₀.modhead)
    (hattach : attach m name s = some (retval, s')) : LoadOk modStatic s₀ name retval s' ∧
    (retval ≠ 0 → (∀ i, s.linked name i = false) →
      ((∀ i, s'.linked name i = false) ↔
        ¬ (m.mwRevOk = true ∧ m.mwLoad.getD 0 = 0 ∧ LeftLinked m))) := by
  rw [ModLinks.attach] at hattach
  dsimp only at hattach
  split_ifs at hattach with hrev hload hconnect hstubs
  · obtain ⟨rfl, rfl⟩ := mk.inj (some.inj hattach)
    refine ⟨h.alone.discard hname (by decide), fun _ hnone => ?_⟩
    rw [discard_linked]
    exact iff_of_true hnone fun hreach => Bool.noConfusion (hrev.symm.trans hreach.1)
  · obtain ⟨rfl, rfl⟩ := mk.inj (some.inj hattach)
    refine ⟨h.alone.discard hname hload, fun _ hnone => ?_⟩
    rw [discard_linked]
    exact iff_of_true hnone fun hreach => hload hreach.2.1
  · obtain ⟨rfl, rfl⟩ := mk.inj (some.inj hattach)
    refine ⟨h.alone.setLinked.discard hname hconnect, fun _ hnone => ?_⟩
    rw [discard_linked, setLinked_linked, modConnect_fails hnone hconnect]
    refine not_congr ⟨fun hleft => ⟨?_, not_not.mp hload, hleft⟩, fun hreach => hreach.2.2⟩
    exact Bool.not_eq_false _ ▸ hrev
  · obtain ⟨hlinked, hnotleft⟩ := modConnect_done (not_not.mp hconnect)
    split at hattach
    · cases hattach
    · rename_i answer s₂ hunload
      split_ifs at hattach with hanswer
      obtain ⟨rfl, rfl⟩ := mk.inj (some.inj hattach)
      rw [not_not.mp hanswer] at hunload
      obtain ⟨-, rfl⟩ := modunld_done hunload
      have halone : Alone modStatic s₀ name (setLinked s name (modConnect m (s.linked name)).2) :=
        h.alone.setLinked
      refine ⟨Alone.discard (Alone.setLinked (halone.flags ?_ ?_ ?_)) hname hstubs, fun _ hnone => ?_⟩
      · rfl
      · rfl
      · exact fun _ => rfl
      · rw [discard_linked, setLinked_linked]
        refine iff_of_true (fun i => ?_) fun hreach => hnotleft hreach.2.2
        have hin : ∀ c, (setModctl (setLinked s name (modConnect m (s.linked name)).2) name c).linked name =
            setRange true (s.linked name) 0 m.links := by
          intro c
          exact setLinked_linked.trans hlinked
        rw [hin, setRange, setRange]
        split_ifs
        · rfl
        · exact hnone i
  · obtain ⟨rfl, rfl⟩ := mk.inj (some.inj hattach)
    refine ⟨⟨Inv.flags h.inv.setLinked ?_ ?_ ?_, ?_, fun _ => ⟨h.mem, ?_⟩, fun hfail => absurd rfl hfail⟩,
      fun hfail => absurd rfl hfail⟩
    · rfl
    · rfl
    · exact fun _ => rfl
    · refine ((h.grows.trans Grows.setLinked).trans Grows.setModctl).all hname ?_
      rw [setModctl_modctl]
    · rw [setModctl_modctl]

end Svr42.ModLinks
