import Svr42.ShmBooks

/-! What every process and every address space satisfies between two steps, and what of it a step
leaves alone. -/

namespace Svr42.Shm
open Function List Option

variable {P I S A : Type}

/-! ### The address spaces of a process -/

/-- The process can use the address space it has. The parent in `vfork` cannot, and the child not yet. -/
def Pc.active : Pc P I S A → Bool
  | .born _ => false
  | .vwait _ => false
  | _ => true

/-- An address space that is made for a child. -/
def Pc.building : Pc P I S A → List S
  | .dup _ newas _ => [newas]
  | .undup _ newas => [newas]
  | .fork _ newas _ false => [newas]
  | _ => []

/-- The child that a process is making. -/
def Pc.child : Pc P I S A → Option P
  | .dup cp _ _ => some cp
  | .undup cp _ => some cp
  | .fork cp _ _ _ => some cp
  | _ => none

def Proc.spaces (proc : Proc P I S A) : List S :=
  (if proc.pc.active = true then proc.pAs.toList else []) ++ proc.pc.building

def Proc.saps (proc : Proc P I S A) : List (Segacct A) :=
  match proc.pc with
  | .attach _ sap => sap :: proc.pSegacct
  | _ => proc.pSegacct

/-- No two processes use one address space. -/
structure Spaces (s : State P I S A) : Prop where
  nodup : ∀ p, (s.proc p).spaces.Nodup
  alone : ∀ p q as, as ∈ (s.proc p).spaces → as ∈ (s.proc q).spaces → p = q
  inUse : ∀ p as, as ∈ (s.proc p).spaces → s.asUsed as = true
  empty : ∀ as, s.asUsed as = false → s.segs as = []

/-- A parent in `vfork` waits for the one child that has its address space. -/
structure Waits (s : State P I S A) : Prop where
  waits : ∀ p cp, (s.proc p).pc = .vwait cp → ∃ as, (s.proc p).pAs = some as ∧
    (s.proc cp).pAs = some as ∧ (s.proc cp).svfork = true ∧ ∀ pp, (s.proc cp).pc = .born pp → pp = p
  once : ∀ p q cp, (s.proc p).pc = .vwait cp → (s.proc q).pc = .vwait cp → p = q

/-- A process that makes a child is the one that the child is made by. -/
structure Child (s : State P I S A) (p cp : P) : Prop where
  born : (s.proc cp).pc = .born p
  count : (s.proc cp).uNshmseg = (s.proc p).uNshmseg

/-- What holds of the process wherever it is. -/
def Settled (s : State P I S A) (p : P) : Prop :=
  match (s.proc p).pc with
  | .slot => (s.proc p).pSegacct = [] ∧ (s.proc p).pAs = none
  | .attach sp sap => (s.shmem sp).locked = some p ∧ (s.shmem sp).shmAmp = some sap.saAmp
  | .detach sap _ => saFind sap.saAddr (s.proc p).pSegacct = some sap
  | .dup cp newas segs => Child s p cp ∧ (s.proc cp).pSegacct = [] ∧ (s.proc cp).pAs = some newas ∧
      (s.proc cp).svfork = false ∧ ∀ seg ∈ segs, Held (s.proc p).pSegacct seg
  | .undup cp _ => Child s p cp ∧ (s.proc cp).pSegacct = []
  | .fork cp newas saps isvfork => Child s p cp ∧
      ((s.proc cp).pSegacct ++ saps).Perm (s.proc p).pSegacct ∧ (s.proc cp).pAs = some newas ∧
      (s.proc cp).svfork = isvfork ∧ (isvfork = true → (s.proc p).pAs = some newas)
  | .relvm _ => (s.proc p).pSegacct = []
  | .bare _ => (s.proc p).pSegacct = [] ∧ (s.proc p).pAs = none
  | _ => True

structure Inv [DecidableEq A] [Fintype P] [Fintype I] [Fintype S] (s : State P I S A) : Prop where
  counts : ∀ a, Tallied (s.amps a) (refs s a)
  one : ∀ i j a, (s.shmem i).shmAmp = some a → (s.shmem j).shmAmp = some a → i = j
  spaces : Spaces s
  waits : Waits s
  covered : ∀ p as, as ∈ (s.proc p).spaces → ∀ seg ∈ s.segs as, Held (s.proc p).saps seg
  ordered : ∀ p, Ordered (s.proc p).pSegacct
  nshmseg : ∀ p, (s.proc p).pc ≠ .slot → (∀ pp, (s.proc p).pc ≠ .born pp) →
    (s.proc p).uNshmseg = (s.proc p).pSegacct.length
  settled : ∀ p, Settled s p

variable {s t : State P I S A} {p q cp pp : P} {as : S} {proc : Proc P I S A}

theorem mem_spaces_of_active (hactive : (s.proc p).pc.active = true) (has : (s.proc p).pAs = some as) :
    as ∈ (s.proc p).spaces := by
  unfold Proc.spaces
  rw [if_pos hactive, has]
  exact mem_append_left _ (mem_singleton_self as)

theorem mem_spaces_stay (hold : (s.proc p).pc.active = true) (has : proc.pAs = (s.proc p).pAs)
    (hnew : proc.pc.building = []) (hmem : as ∈ proc.spaces) : as ∈ (s.proc p).spaces := by
  unfold Proc.spaces at hmem ⊢
  rw [hnew, append_nil] at hmem
  rw [if_pos hold, ← has]
  split_ifs at hmem
  · exact mem_append_left _ hmem
  · cases hmem

theorem saps_eq (hpc : ∀ sp sap, proc.pc ≠ .attach sp sap) : proc.saps = proc.pSegacct := by
  unfold Proc.saps
  split
  · rename_i i sap heq
    exact absurd heq (hpc i sap)
  · rfl

/-- What a process satisfies is not changed by a step of others, unless it is at its child or at what
it has locked. -/
theorem Settled.frame (h : Settled s p) (hproc : t.proc p = s.proc p)
    (hchild : ∀ cp, (s.proc p).pc.child = some cp → t.proc cp = s.proc cp)
    (hlock : ∀ i sap, (s.proc p).pc = .attach i sap → t.shmem i = s.shmem i) : Settled t p := by
  have hkeep : ∀ {cp : P}, t.proc cp = s.proc cp → Child s p cp → Child t p cp := fun hcp hborn =>
    ⟨by rw [hcp, hborn.born], by rw [hcp, hproc, hborn.count]⟩
  unfold Settled at h ⊢
  rw [hproc]
  cases hpc : (s.proc p).pc with
  | attach sp sap =>
    rw [hpc] at h
    change (t.shmem sp).locked = some p ∧ (t.shmem sp).shmAmp = some sap.saAmp
    rw [hlock sp sap hpc]
    exact h
  | dup cp newas segs =>
    rw [hpc] at h
    have hcp := hchild cp (by rw [hpc]; rfl)
    refine ⟨hkeep hcp h.1, ?_⟩
    rw [hcp]
    exact h.2
  | undup cp newas =>
    rw [hpc] at h
    have hcp := hchild cp (by rw [hpc]; rfl)
    refine ⟨hkeep hcp h.1, ?_⟩
    rw [hcp]
    exact h.2
  | fork cp newas saps isvfork =>
    rw [hpc] at h
    have hcp := hchild cp (by rw [hpc]; rfl)
    refine ⟨hkeep hcp h.1, ?_⟩
    rw [hcp]
    exact h.2
  | _ => rw [hpc] at h; exact h

theorem Settled.child (h : Settled s p) (hcp : (s.proc p).pc.child = some cp) : Child s p cp := by
  unfold Settled at h
  cases hpc : (s.proc p).pc with
  | dup c newas segs =>
    rw [hpc] at h hcp
    obtain rfl := some.inj hcp
    exact h.1
  | undup c newas =>
    rw [hpc] at h hcp
    obtain rfl := some.inj hcp
    exact h.1
  | fork c newas saps isvfork =>
    rw [hpc] at h hcp
    obtain rfl := some.inj hcp
    exact h.1
  | _ => rw [hpc] at hcp; cases hcp

theorem not_child (h : ∀ q, Settled s q) (hborn : ∀ pp, (s.proc p).pc ≠ .born pp) (q : P) :
    (s.proc q).pc.child ≠ some p := fun hchild => hborn q ((h q).child hchild).born

theorem Child.ne (h : Child s p cp) (hborn : ∀ pp, (s.proc p).pc ≠ .born pp) : cp ≠ p := by
  rintro rfl
  exact hborn cp h.born

theorem shmforkSaps_eq (h : (s.proc p).uNshmseg = (s.proc p).pSegacct.length) :
    shmforkSaps s p = (s.proc p).pSegacct := by
  unfold shmforkSaps
  split_ifs with hcount
  · rfl
  · rw [not_not.mp hcount] at h
    exact (eq_nil_of_length_eq_zero (Int.ofNat_eq_zero.mp h.symm)).symm

theorem user_plain (hpc : (s.proc p).pc = .user) :
    (∀ pp, (s.proc p).pc ≠ .born pp) ∧ ∀ sp sap, (s.proc p).pc ≠ .attach sp sap := by
  rw [hpc]
  exact ⟨nofun, nofun⟩

theorem range_active {pc : Pc P I S A} {range : Nat × Nat} (h : pc.range = some range) :
    pc.active = true ∧ ∀ sp sap, pc ≠ .attach sp sap := by
  cases pc with
  | unmap addr size => exact ⟨rfl, nofun⟩
  | detach sap caller => exact ⟨rfl, nofun⟩
  | _ => cases h

/-! ### Books, address spaces and identifiers -/

variable {a : A} {amp : AnonMap}

section Counts

variable [DecidableEq A] [Fintype P] [Fintype I] [Fintype S]

theorem counts_update (h : ∀ b, Tallied (s.amps b) (refs s b)) (hamps : t.amps = update s.amps a amp)
    (hrefs : ∀ b, b ≠ a → refs t b = refs s b) (hself : Tallied amp (refs t a)) :
    ∀ b, Tallied (t.amps b) (refs t b) := by
  intro b
  rw [hamps]
  by_cases hb : b = a
  · subst hb
    rw [update_self]
    exact hself
  · rw [update_of_ne hb, hrefs b hb]
    exact h b

theorem refs_setSegs [DecidableEq S] (s : State P I S A) (as : S) (segs : List (Seg A)) (a : A) :
    refs (s.setSegs as segs) a + ((s.segs as).map Seg.amp).count a =
      refs s a + (segs.map Seg.amp).count a := by
  have hsum := mappings_setSegs s as segs a
  change identifiers s a + records s a + mappings (s.setSegs as segs) a + _ = _
  unfold refs
  omega

section

variable (h : Inv s)
include h

/-- The segments of an address space change, in the hands of the process that uses it, and the count
of an `anon_map` follows. -/
theorem Inv.remap [DecidableEq S] {segs : List (Seg A)} (has : as ∈ (s.proc p).spaces)
    (hheld : ∀ seg ∈ segs, Held (s.proc p).saps seg) (htally : Tallied amp (refs (s.setSegs as segs) a))
    (hothers : ∀ b, b ≠ a → (segs.map Seg.amp).count b = ((s.segs as).map Seg.amp).count b) :
    Inv ((s.setSegs as segs).setAmp a amp) :=
  { h with
    counts := by
      refine counts_update h.counts rfl (fun b hb => ?_) htally
      have hsum := refs_setSegs s as segs b
      rw [hothers b hb] at hsum
      exact Nat.add_right_cancel hsum
    spaces := by
      refine ⟨h.spaces.nodup, h.spaces.alone, h.spaces.inUse, fun x hx => ?_⟩
      have hne : x ≠ as := by
        rintro rfl
        exact Bool.noConfusion (hx.symm.trans (h.spaces.inUse p x has))
      exact (update_of_ne hne _ _).trans (h.spaces.empty x hx)
    waits := ⟨h.waits.waits, h.waits.once⟩
    covered := fun q x hx seg hseg => by
      change seg ∈ update s.segs as segs x at hseg
      by_cases hxas : x = as
      · subst hxas
        rw [update_self] at hseg
        obtain rfl := h.spaces.alone q p x hx has
        exact hheld seg hseg
      · rw [update_of_ne hxas] at hseg
        exact h.covered q x hx seg hseg
    settled := fun q => (h.settled q).frame rfl (fun _ _ => rfl) fun _ _ _ => rfl }

theorem Inv.allocate [DecidableEq S] (as : S) : Inv (s.setAs as true) :=
  { h with
    spaces := by
      refine ⟨h.spaces.nodup, h.spaces.alone, fun q x hx => ?_, fun x hx => ?_⟩
      · change update s.asUsed as true x = true
        by_cases hxas : x = as
        · rw [hxas, update_self]
        · rw [update_of_ne hxas]
          exact h.spaces.inUse q x hx
      · change update s.asUsed as true x = false at hx
        by_cases hxas : x = as
        · rw [hxas, update_self] at hx
          cases hx
        · rw [update_of_ne hxas] at hx
          exact h.spaces.empty x hx
    waits := ⟨h.waits.waits, h.waits.once⟩
    settled := fun q => (h.settled q).frame rfl (fun _ _ => rfl) fun _ _ _ => rfl }

theorem Inv.give [DecidableEq S] (hfree : ∀ q, as ∉ (s.proc q).spaces)
    (hempty : s.segs as = []) : Inv (s.setAs as false) :=
  { h with
    spaces := by
      refine ⟨h.spaces.nodup, h.spaces.alone, fun q x hx => ?_, fun x hx => ?_⟩
      · change update s.asUsed as false x = true
        have hxas : x ≠ as := by
          rintro rfl
          exact hfree q hx
        rw [update_of_ne hxas]
        exact h.spaces.inUse q x hx
      · change update s.asUsed as false x = false at hx
        by_cases hxas : x = as
        · rw [hxas]
          exact hempty
        · rw [update_of_ne hxas] at hx
          exact h.spaces.empty x hx
    waits := ⟨h.waits.waits, h.waits.once⟩
    settled := fun q => (h.settled q).frame rfl (fun _ _ => rfl) fun _ _ _ => rfl }

theorem Inv.lock [DecidableEq I] {sp : I} {locked : Option P}
    (hfree : ∀ q sap, (s.proc q).pc ≠ .attach sp sap) :
    Inv (s.setShmid sp { s.shmem sp with locked := locked }) := by
  have hamp : ∀ i, ((s.setShmid sp { s.shmem sp with locked := locked }).shmem i).shmAmp =
      (s.shmem i).shmAmp := by
    intro i
    change (update s.shmem sp _ i).shmAmp = _
    by_cases hi : i = sp
    · rw [hi, update_self]
    · rw [update_of_ne hi]
  refine ⟨fun a => ?_, fun i j a hi hj => ?_, ⟨h.spaces.nodup, h.spaces.alone, h.spaces.inUse,
    h.spaces.empty⟩, ⟨h.waits.waits, h.waits.once⟩, h.covered, h.ordered, h.nshmseg, fun q => ?_⟩
  · have hrefs : refs (s.setShmid sp { s.shmem sp with locked := locked }) a = refs s a := by
      unfold refs identifiers
      simp only [hamp]
      rfl
    rw [hrefs]
    exact h.counts a
  · rw [hamp] at hi hj
    exact h.one i j a hi hj
  · refine (h.settled q).frame rfl (fun _ _ => rfl) fun i sap hpc => ?_
    refine update_of_ne ?_ _ _
    rintro rfl
    exact hfree q sap hpc

theorem Inv.count_user (hpc : (s.proc p).pc = .user) :
    (s.proc p).uNshmseg = (s.proc p).pSegacct.length :=
  h.nshmseg p (by rw [hpc]; exact nofun) (by rw [hpc]; exact nofun)

theorem Inv.unmapped (has : as ∈ (s.proc p).spaces) (hsaps : (s.proc p).saps = []) :
    s.segs as = [] := by
  refine eq_nil_iff_forall_not_mem.mpr fun seg hseg => ?_
  obtain ⟨-, sap, hsap, -⟩ := h.covered p as has seg hseg
  rw [hsaps] at hsap
  cases hsap

end

variable {sap : Segacct A}

theorem refs_pos_of_record (h : sap ∈ (s.proc p).pSegacct) : 0 < refs s sap.saAmp := by
  have hpos := records_pos h
  unfold refs
  omega

theorem refs_pos_of_held {seg : Seg A} (h : Held (s.proc p).pSegacct seg) : 0 < refs s seg.amp := by
  obtain ⟨-, sap, hsap, hcovers⟩ := h
  rw [← hcovers.amp]
  exact refs_pos_of_record hsap

theorem refs_pos_of_identifier (sp : I) (h : (s.shmem sp).shmAmp = some a) : 0 < refs s a := by
  have hone := identifiers_pos sp h
  unfold refs
  omega

theorem Inv.made (h : Inv s) (hborn : (s.proc cp).pc = .born p) (hq : (s.proc q).pc.child = some cp) :
    q = p := by
  have hchild := ((h.settled q).child hq).born
  rw [hborn] at hchild
  cases hchild
  rfl

theorem Inv.unwaited (h : Inv s) (hborn : (s.proc cp).pc = .born p)
    (hwait : ∀ c, (s.proc p).pc ≠ .vwait c) (q : P) : (s.proc q).pc ≠ .vwait cp := by
  intro hq
  obtain ⟨x, -, -, -, hmade⟩ := h.waits.waits q cp hq
  obtain rfl := hmade p hborn
  exact hwait cp hq

theorem Inv.attached (h : Inv s) (hpc : (s.proc q).pc = .attach sp sap) :
    (s.shmem sp).locked = some q ∧ (s.shmem sp).shmAmp = some sap.saAmp := by
  have hself := h.settled q
  unfold Settled at hself
  rw [hpc] at hself
  exact hself

end Counts

/-! ### One process moves on -/

/-- The process uses no address space that another uses, and nothing about it has changed that a parent
in `vfork` waits for. -/
structure Moves (s : State P I S A) (p : P) (proc : Proc P I S A) : Prop where
  spaces : ∀ as ∈ proc.spaces, as ∈ (s.proc p).spaces ∨
    (∀ q, as ∉ (s.proc q).spaces) ∧ s.asUsed as = true
  nodup : proc.spaces.Nodup
  wait : ∀ cp, proc.pc = .vwait cp → cp ≠ p ∧ (∀ q, (s.proc q).pc ≠ .vwait cp) ∧
    ∃ as, proc.pAs = some as ∧ (s.proc cp).pAs = some as ∧ (s.proc cp).svfork = true ∧
      ∀ pp, (s.proc cp).pc = .born pp → pp = p
  waited : ∀ pp, (s.proc pp).pc = .vwait p →
    proc.pAs = (s.proc p).pAs ∧ proc.svfork = (s.proc p).svfork ∧ ∀ r, proc.pc = .born r → r = pp

theorem Moves.stay (hold : (s.proc p).pc.active = true) (has : proc.pAs = (s.proc p).pAs)
    (hv : proc.svfork = (s.proc p).svfork) (hnew : proc.pc.building = [])
    (hwait : ∀ cp, proc.pc ≠ .vwait cp) (hborn : ∀ pp, proc.pc ≠ .born pp) : Moves s p proc := by
  refine ⟨fun as hmem => .inl ?_, ?_, fun cp hcp => absurd hcp (hwait cp),
    fun pp _ => ⟨has, hv, fun r hr => absurd hr (hborn r)⟩⟩
  · exact mem_spaces_stay hold has hnew hmem
  · unfold Proc.spaces
    rw [hnew, append_nil]
    split_ifs
    · cases proc.pAs with
      | none => exact nodup_nil
      | some as => exact nodup_singleton as
    · exact nodup_nil

variable [DecidableEq P]

@[simp] theorem setProc_proc : (s.setProc p proc).proc p = proc := update_self ..

theorem setProc_other (h : q ≠ p) : (s.setProc p proc).proc q = s.proc q := update_of_ne h _ _

theorem Spaces.move (h : Spaces s) (hspaces : ∀ as ∈ proc.spaces, as ∈ (s.proc p).spaces ∨
      (∀ q, as ∉ (s.proc q).spaces) ∧ s.asUsed as = true) (hnodup : proc.spaces.Nodup) :
    Spaces (s.setProc p proc) := by
  have halone : ∀ q as, q ≠ p → as ∈ (s.proc q).spaces → as ∉ proc.spaces := by
    intro q as hq has hmem
    rcases hspaces as hmem with hold | ⟨hfree, -⟩
    · exact hq (h.alone q p as has hold)
    · exact hfree q has
  refine ⟨fun q => ?_, fun q r as hq hr => ?_, fun q as has => ?_, h.empty⟩
  · by_cases hq : q = p
    · rw [hq, setProc_proc]
      exact hnodup
    · rw [setProc_other hq]
      exact h.nodup q
  · by_cases hqp : q = p
    · by_cases hrp : r = p
      · rw [hqp, hrp]
      · rw [hqp, setProc_proc] at hq
        rw [setProc_other hrp] at hr
        exact absurd hq (halone r as hrp hr)
    · rw [setProc_other hqp] at hq
      by_cases hrp : r = p
      · rw [hrp, setProc_proc] at hr
        exact absurd hr (halone q as hqp hq)
      · rw [setProc_other hrp] at hr
        exact h.alone q r as hq hr
  · by_cases hq : q = p
    · rw [hq, setProc_proc] at has
      rcases hspaces as has with hold | ⟨-, hin⟩
      · exact h.inUse p as hold
      · exact hin
    · rw [setProc_other hq] at has
      exact h.inUse q as has

theorem Waits.move (h : Waits s) (hm : Moves s p proc) : Waits (s.setProc p proc) := by
  refine ⟨fun r cp hpc => ?_, fun q r cp hq hr => ?_⟩
  · by_cases hr : r = p
    · subst hr
      rw [setProc_proc] at hpc ⊢
      obtain ⟨hcp, -, hwait⟩ := hm.wait cp hpc
      rw [setProc_other hcp]
      exact hwait
    · rw [setProc_other hr] at hpc ⊢
      obtain ⟨as, hras, hcpas, hcpv, hcpborn⟩ := h.waits r cp hpc
      by_cases hcp : cp = p
      · subst hcp
        obtain ⟨has, hv, hborn⟩ := hm.waited r hpc
        rw [setProc_proc]
        exact ⟨as, hras, by rw [has, hcpas], by rw [hv, hcpv], hborn⟩
      · rw [setProc_other hcp]
        exact ⟨as, hras, hcpas, hcpv, hcpborn⟩
  · by_cases hqp : q = p
    · by_cases hrp : r = p
      · rw [hqp, hrp]
      · rw [hqp, setProc_proc] at hq
        rw [setProc_other hrp] at hr
        exact absurd hr ((hm.wait cp hq).2.1 r)
    · rw [setProc_other hqp] at hq
      by_cases hrp : r = p
      · rw [hrp, setProc_proc] at hr
        exact absurd hq ((hm.wait cp hr).2.1 q)
      · rw [setProc_other hrp] at hr
        exact h.once q r cp hq hr

theorem settled_move (h : ∀ q, Settled s q) (hproc : t.proc = (s.setProc p proc).proc)
    (hmade : ∀ q, (s.proc q).pc.child ≠ some p)
    (hlock : ∀ i q sap, q ≠ p → (s.proc q).pc = .attach i sap → t.shmem i = s.shmem i)
    (hself : Settled t p) : ∀ q, Settled t q := by
  intro q
  by_cases hq : q = p
  · rw [hq]
    exact hself
  refine (h q).frame (by rw [hproc, setProc_other hq]) (fun cp hcp => ?_) fun i sap =>
    hlock i q sap hq
  rw [hproc, setProc_other]
  rintro rfl
  exact hmade q hcp

theorem forall_move {F : Proc P I S A → Prop} (h : ∀ q, F (s.proc q))
    (hproc : t.proc = (s.setProc p proc).proc) (hself : F proc) : ∀ q, F (t.proc q) := by
  intro q
  by_cases hq : q = p
  · rw [hproc, hq, setProc_proc]
    exact hself
  · rw [hproc, setProc_other hq]
    exact h q

theorem forall_moves {child parent : Proc P I S A} (F : Proc P I S A → Prop) (h : ∀ q, F (s.proc q))
    (hchild : F child) (hparent : F parent) : ∀ q, F (((s.setProc cp child).setProc pp parent).proc q) :=
  forall_move (forall_move h rfl hchild) rfl hparent

/-! ### The books as a process moves on -/

section Counts

variable [DecidableEq A] [Fintype P] [Fintype I] [Fintype S]

theorem refs_setProc (s : State P I S A) (p : P) (proc : Proc P I S A) (a : A) :
    refs (s.setProc p proc) a + (s.proc p).records a = refs s a + proc.records a := by
  have hsum := records_setProc s p proc a
  change identifiers s a + records (s.setProc p proc) a + mappings s a + _ = _
  unfold refs
  omega

section

variable (h : Inv s) (hm : Moves s p proc) (hmade : ∀ q, (s.proc q).pc.child ≠ some p)
include h hm hmade

/-- A process moves on with other records, and the count of an `anon_map` follows. -/
theorem Inv.rerecord (htally : Tallied amp (refs (s.setProc p proc) a))
    (hothers : ∀ b, b ≠ a → proc.records b = (s.proc p).records b) (hordered : Ordered proc.pSegacct)
    (hcovered : ∀ as ∈ proc.spaces, ∀ seg ∈ s.segs as, Held proc.saps seg)
    (hcount : proc.pc ≠ .slot → (∀ pp, proc.pc ≠ .born pp) → proc.uNshmseg = proc.pSegacct.length)
    (hself : Settled (s.setProc p proc) p) : Inv ((s.setAmp a amp).setProc p proc) where
  counts := by
    refine counts_update h.counts rfl (fun b hb => ?_) htally
    have hsum := refs_setProc s p proc b
    rw [hothers b hb] at hsum
    exact Nat.add_right_cancel hsum
  one := h.one
  spaces := by
    have hspaces := h.spaces.move hm.spaces hm.nodup
    exact ⟨hspaces.nodup, hspaces.alone, hspaces.inUse, hspaces.empty⟩
  waits := by
    have hwaits := h.waits.move hm
    exact ⟨hwaits.waits, hwaits.once⟩
  covered := forall_move (F := fun proc => ∀ as, as ∈ proc.spaces → ∀ seg ∈ s.segs as, Held proc.saps seg)
    h.covered rfl hcovered
  ordered := forall_move (F := fun proc => Ordered proc.pSegacct) h.ordered rfl hordered
  nshmseg := forall_move (F := fun proc => proc.pc ≠ .slot → (∀ pp, proc.pc ≠ .born pp) →
    proc.uNshmseg = proc.pSegacct.length) h.nshmseg rfl hcount
  settled := by
    have hsettled := settled_move (t := s.setProc p proc) h.settled rfl hmade
      (fun _ _ _ _ _ => rfl) hself
    exact fun q => (hsettled q).frame rfl (fun _ _ => rfl) fun _ _ _ => rfl

theorem Inv.move (hsaps : proc.pSegacct = (s.proc p).pSegacct)
    (hcovered : ∀ as ∈ proc.spaces, ∀ seg ∈ s.segs as, Held proc.saps seg)
    (hcount : proc.pc ≠ .slot → (∀ pp, proc.pc ≠ .born pp) → proc.uNshmseg = proc.pSegacct.length)
    (hself : Settled (s.setProc p proc) p) : Inv (s.setProc p proc) where
  counts := fun a => by
    have hsum := refs_setProc s p proc a
    have hrecords : proc.records a = (s.proc p).records a := by
      rw [Proc.records, Proc.records, hsaps]
    rw [hrecords] at hsum
    rw [Nat.add_right_cancel hsum]
    exact h.counts a
  one := h.one
  spaces := h.spaces.move hm.spaces hm.nodup
  waits := h.waits.move hm
  covered := forall_move (F := fun proc => ∀ as, as ∈ proc.spaces → ∀ seg ∈ s.segs as, Held proc.saps seg)
    h.covered rfl hcovered
  ordered := forall_move (F := fun proc => Ordered proc.pSegacct) h.ordered rfl (by
    rw [hsaps]
    exact h.ordered p)
  nshmseg := forall_move (F := fun proc => proc.pc ≠ .slot → (∀ pp, proc.pc ≠ .born pp) →
    proc.uNshmseg = proc.pSegacct.length) h.nshmseg rfl hcount
  settled := settled_move h.settled rfl hmade (fun _ _ _ _ _ => rfl) hself

end

theorem Inv.setAio (h : Inv s) (p : P) (count : Int) : Inv (s.setAio p count) :=
  { h with
    spaces := ⟨h.spaces.nodup, h.spaces.alone, h.spaces.inUse, h.spaces.empty⟩
    waits := ⟨h.waits.waits, h.waits.once⟩
    settled := fun q => (h.settled q).frame rfl (fun _ _ => rfl) fun _ _ _ => rfl }

/-- A process gives up an address space, which nobody else has. -/
theorem Inv.gone (h : Inv s) (hmem : as ∈ (s.proc p).spaces) (hout : as ∉ proc.spaces) :
    ∀ q, as ∉ ((s.setProc p proc).proc q).spaces := by
  intro q hq
  by_cases hqp : q = p
  · rw [hqp, setProc_proc] at hq
    exact hout hq
  · rw [setProc_other hqp] at hq
    exact hqp (h.spaces.alone q p as hq hmem)

/-- A process that is not about to add a record goes on, with the records and the address space it
has. -/
theorem Inv.goOn (h : Inv s) (hold : (s.proc p).pc.active = true)
    (hattach : ∀ sp sap, (s.proc p).pc ≠ .attach sp sap) (hsaps : proc.pSegacct = (s.proc p).pSegacct)
    (has : proc.pAs = (s.proc p).pAs) (hv : proc.svfork = (s.proc p).svfork)
    (hnew : proc.pc.building = []) (hwait : ∀ cp, proc.pc ≠ .vwait cp) (hborn : ∀ pp, proc.pc ≠ .born pp)
    (hcount : proc.uNshmseg = proc.pSegacct.length) (hself : Settled (s.setProc p proc) p) :
    Inv (s.setProc p proc) := by
  refine h.move (Moves.stay hold has hv hnew hwait hborn) (not_child h.settled fun pp hpp => ?_) hsaps
    (fun x hx seg hseg => ?_) (fun _ _ => hcount) hself
  · rw [hpp] at hold
    cases hold
  · refine (h.covered p x (mem_spaces_stay hold has hnew hx) seg hseg).mono fun sap hsap => ?_
    rw [saps_eq hattach, ← hsaps] at hsap
    unfold Proc.saps
    split
    · exact .tail _ hsap
    · exact hsap

/-- Nothing of a process changes but where it is. -/
theorem Inv.goTo {old pc : Pc P I S A} (h : Inv s) (hpc : (s.proc p).pc = old)
    (hold : old.active = true) (hattach : ∀ sp sap, old ≠ .attach sp sap) (hslot : old ≠ .slot)
    (hnew : pc.building = []) (hwait : ∀ cp, pc ≠ .vwait cp) (hborn : ∀ pp, pc ≠ .born pp)
    (hself : Settled (s.setProc p { s.proc p with pc := pc }) p) :
    Inv (s.setProc p { s.proc p with pc := pc }) := by
  subst hpc
  refine h.goOn hold hattach rfl rfl rfl hnew hwait hborn (h.nshmseg p hslot fun pp heq => ?_) hself
  rw [heq] at hold
  cases hold

theorem Inv.keep (h : Inv s) (hspaces : proc.spaces = (s.proc p).spaces)
    (hattach : ∀ sp sap, (s.proc p).pc ≠ .attach sp sap) (hold : ∀ pp, (s.proc p).pc ≠ .born pp)
    (hslot : (s.proc p).pc ≠ .slot) (hsaps : proc.pSegacct = (s.proc p).pSegacct)
    (has : proc.pAs = (s.proc p).pAs) (hv : proc.svfork = (s.proc p).svfork)
    (hcount : proc.uNshmseg = (s.proc p).uNshmseg) (hwait : ∀ cp, proc.pc ≠ .vwait cp)
    (hborn : ∀ pp, proc.pc ≠ .born pp) (hself : Settled (s.setProc p proc) p) :
    Inv (s.setProc p proc) := by
  refine h.move ⟨fun x hx => .inl (hspaces ▸ hx), hspaces ▸ h.spaces.nodup p,
    fun cp hcp => absurd hcp (hwait cp), fun pp _ => ⟨has, hv, fun r hr => absurd hr (hborn r)⟩⟩
    (not_child h.settled hold) hsaps (fun x hx seg hseg => ?_) (fun _ _ => ?_) hself
  · rw [hspaces] at hx
    refine (h.covered p x hx seg hseg).mono fun sap hsap => ?_
    rw [saps_eq hattach, ← hsaps] at hsap
    unfold Proc.saps
    split
    · exact .tail _ hsap
    · exact hsap
  · rw [hcount, hsaps]
    exact h.nshmseg p hslot hold

theorem Inv.newborn (h : Inv s) (hslot : (s.proc cp).pc = .slot) (isvfork : Bool) (as : Option S) :
    Inv (s.setProc cp (newproc s p isvfork as)) := by
  have hself := h.settled cp
  unfold Settled at hself
  rw [hslot] at hself
  refine h.move ⟨nofun, nodup_nil, nofun, fun q hq => ?_⟩
    (not_child h.settled (by rw [hslot]; exact nofun)) hself.1.symm nofun
    (fun _ hborn => absurd rfl (hborn p)) ?_
  · obtain ⟨x, -, hcpas, -⟩ := h.waits.waits q cp hq
    exact absurd (hcpas.symm.trans hself.2) (some_ne_none x)
  · unfold Settled
    rw [setProc_proc]
    trivial

end Counts

end Svr42.Shm
