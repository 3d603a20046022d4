import Svr42.Mlock

/-! Which pages a call of `lockop` or `as_ctl` locks or unlocks, and which bits it sets. -/

namespace Svr42.Mlock
open Function
open Bitmap Errno

/-! ### Pages of a segment -/

def Done : Op → Prop → Prop → Prop
  | .lock, locked, hit => locked ∨ hit
  | .unlock, locked, hit => locked ∧ ¬ hit

def Fails (env : Env) (page : Nat) : Prop := env.fault page = false ∨ env.page_pp_lock page = false

def bit (map : Option Words) (b : Nat) : Bool := (map.map fun map => btTest map b).getD false

theorem bit_set {map : Option Words} {pos b : Nat} : bit (map.map fun map => btSet map pos) b = true ↔
      bit map b = true ∨ map.isSome = true ∧ b = pos := by
  cases map with
  | none => simp [bit]
  | some map => simp [bit, btTest_btSet]

theorem wants_congr {attr : Nat} {vpp vpp' : Vpage} (h : vpp'.vp_prot = vpp.vp_prot) :
    Wants attr vpp' ↔ Wants attr vpp := by
  rw [Wants, Wants, h]

/-- The pages from `i` to `stop` are done: what the loop leaves, and the bits of the pages it has locked. -/
structure PagesDone (env : Env) (attr : Nat) (op : Op) (base i stop pos : Nat)
    (vpage vpage' : Nat → Vpage) (map map' : Option Words) : Prop where
  prot : ∀ j, (vpage' j).vp_prot = (vpage j).vp_prot
  locks : ∀ j, (vpage' j).vp_pplock = true ↔
    Done op ((vpage j).vp_pplock = true) (i ≤ j ∧ j < stop ∧ Wants attr (vpage j))
  isSome : map'.isSome = map.isSome
  bits : ∀ b, bit map' b = true ↔ bit map b = true ∨ op = .lock ∧ map.isSome = true ∧
    ∃ j, i ≤ j ∧ j < stop ∧ Wants attr (vpage j) ∧ (vpage j).vp_pplock = false ∧ b = pos + (j - i)
  able : op = .lock → ∀ j, i ≤ j → j < stop → Wants attr (vpage j) →
    (vpage j).vp_pplock = false → ¬ Fails env (base + j)

theorem PagesDone.refl (env : Env) (attr : Nat) (op : Op) (base i pos : Nat) (vpage : Nat → Vpage)
    (map : Option Words) : PagesDone env attr op base i i pos vpage vpage map map := by
  constructor
  · exact fun _ => rfl
  · intro j
    have hno : ¬ (i ≤ j ∧ j < i ∧ Wants attr (vpage j)) := fun h => absurd h.2.1 (by omega)
    cases op <;> simp only [Done, hno, or_false, not_false_eq_true, and_true]
  · rfl
  · intro b
    constructor
    · exact .inl
    · rintro (h | ⟨_, _, j, h1, h2, _⟩)
      · exact h
      · omega
  · intro _ j h1 h2
    omega

/-- One page and the pages after it. -/
theorem PagesDone.step {env : Env} {attr base i stop pos : Nat} {op : Op}
    {vpage vpage₁ vpage' : Nat → Vpage} {map map₁ map' : Option Words}
    (hone : PagesDone env attr op base i (i + 1) pos vpage vpage₁ map map₁)
    (hrest : PagesDone env attr op base (i + 1) stop (pos + 1) vpage₁ vpage' map₁ map')
    (hle : i + 1 ≤ stop) : PagesDone env attr op base i stop pos vpage vpage' map map' := by
  have hkept : ∀ j, i + 1 ≤ j → op = .lock → (vpage j).vp_pplock = false →
      (vpage₁ j).vp_pplock = false := by
    intro j hj hop h4
    have hlock := hone.locks j
    rw [hop, Done, h4] at hlock
    cases hv : (vpage₁ j).vp_pplock with
    | false => rfl
    | true =>
      rcases hlock.mp hv with hold | hnew
      · exact absurd hold (by decide)
      · omega
  constructor
  · exact fun j => (hrest.prot j).trans (hone.prot j)
  · intro j
    rw [hrest.locks, hone.locks, wants_congr (hone.prot j)]
    have hsplit : (i ≤ j ∧ j < stop ∧ Wants attr (vpage j)) ↔
        (i ≤ j ∧ j < i + 1 ∧ Wants attr (vpage j)) ∨ (i + 1 ≤ j ∧ j < stop ∧ Wants attr (vpage j)) := by
      constructor
      · rintro ⟨h1, h2, h3⟩
        rcases lt_or_ge j (i + 1) with h | h
        · exact .inl ⟨h1, h, h3⟩
        · exact .inr ⟨h, h2, h3⟩
      · rintro (⟨h1, h2, h3⟩ | ⟨h1, h2, h3⟩)
        · exact ⟨h1, by omega, h3⟩
        · exact ⟨by omega, h2, h3⟩
    rw [hsplit]
    cases op with
    | lock => rw [Done, Done, Done, or_assoc]
    | unlock => rw [Done, Done, Done, not_or, and_assoc]
  · exact hrest.isSome.trans hone.isSome
  · intro b
    rw [hrest.bits, hone.bits, hone.isSome, or_assoc]
    apply or_congr_right
    constructor
    · rintro (⟨hop, hmap, j, h1, h2, h3, h4, h5⟩ | ⟨hop, hmap, j, h1, h2, h3, h4, h5⟩)
      · exact ⟨hop, hmap, j, h1, by omega, h3, h4, h5⟩
      · refine ⟨hop, hmap, j, by omega, h2, (wants_congr (hone.prot j)).mp h3, ?_, by omega⟩
        have hlock := hone.locks j
        rw [hop, Done, h4] at hlock
        cases hv : (vpage j).vp_pplock with
        | false => rfl
        | true => exact absurd (hlock.mpr (.inl hv)) (by decide)
    · rintro ⟨hop, hmap, j, h1, h2, h3, h4, h5⟩
      rcases lt_or_ge j (i + 1) with h | h
      · exact .inl ⟨hop, hmap, j, h1, h, h3, h4, h5⟩
      · exact .inr ⟨hop, hmap, j, h, h2, (wants_congr (hone.prot j)).mpr h3, hkept j h hop h4, by omega⟩
  · intro hop j h1 h2 h3 h4
    rcases lt_or_ge j (i + 1) with h | h
    · exact hone.able hop j h1 h h3 h4
    · exact hrest.able hop j h h2 ((wants_congr (hone.prot j)).mpr h3) (hkept j h hop h4)

theorem PagesDone.locked {env : Env} {attr base i pos : Nat} {vpage : Nat → Vpage} (map : Option Words)
    (hwants : Wants attr (vpage i)) (hlock : (vpage i).vp_pplock = false)
    (hable : ¬ Fails env (base + i)) : PagesDone env attr .lock base i (i + 1) pos vpage
      (update vpage i { vpage i with vp_pplock := true }) map
      (map.map fun map => btSet map pos) := by
  constructor
  · intro j
    by_cases hj : j = i
    · rw [hj, update_self]
    · rw [update_of_ne hj]
  · intro j
    by_cases hj : j = i
    · rw [hj, update_self, Done]
      exact ⟨fun _ => .inr ⟨le_refl i, by omega, hwants⟩, fun _ => rfl⟩
    rw [update_of_ne hj, Done]
    constructor
    · exact .inl
    · rintro (h | ⟨h1, h2, _⟩)
      · exact h
      · omega
  · exact Option.isSome_map
  · intro b
    rw [bit_set]
    apply or_congr_right
    constructor
    · rintro ⟨hmap, rfl⟩
      exact ⟨rfl, hmap, i, le_refl i, by omega, hwants, hlock, by omega⟩
    · rintro ⟨_, hmap, j, h1, h2, _, _, h5⟩
      exact ⟨hmap, by omega⟩
  · intro _ j h1 h2 _ _
    obtain rfl : j = i := by omega
    exact hable

theorem PagesDone.unlocked {env : Env} {attr base i pos : Nat} {vpage : Nat → Vpage} (map : Option Words)
    (hwants : Wants attr (vpage i)) : PagesDone env attr .unlock base i (i + 1) pos vpage
      (update vpage i { vpage i with vp_pplock := false }) map map := by
  constructor
  · intro j
    by_cases hj : j = i
    · rw [hj, update_self]
    · rw [update_of_ne hj]
  · intro j
    by_cases hj : j = i
    · rw [hj, update_self, Done]
      exact ⟨fun h => absurd h Bool.false_ne_true, fun h => absurd ⟨le_refl i, by omega, hwants⟩ h.2⟩
    · rw [update_of_ne hj, Done]
      exact ⟨fun h => ⟨h, fun hit => hj (by omega)⟩, fun h => h.1⟩
  · rfl
  · intro b
    constructor
    · exact .inl
    · rintro (h | ⟨h, _⟩)
      · exact h
      · exact absurd h (by decide)
  · exact fun h => absurd h (by decide)

/-- A page that does not have the attributes or is as it should be. -/
theorem PagesDone.skipped {env : Env} {attr base i pos : Nat} {op : Op} {vpage : Nat → Vpage}
    (map : Option Words) (hlock : ¬ (Wants attr (vpage i) ∧ op = .lock ∧ (vpage i).vp_pplock = false))
    (hunlock : ¬ (Wants attr (vpage i) ∧ op = .unlock ∧ (vpage i).vp_pplock = true)) :
    PagesDone env attr op base i (i + 1) pos vpage vpage map map := by
  constructor
  · exact fun _ => rfl
  · intro j
    cases op with
    | lock =>
      constructor
      · exact .inl
      · rintro (h | ⟨h1, h2, h3⟩)
        · exact h
        · obtain rfl : j = i := by omega
          cases hv : (vpage j).vp_pplock with
          | false => exact absurd ⟨h3, rfl, hv⟩ hlock
          | true => rfl
    | unlock =>
      constructor
      · rintro h
        refine ⟨h, ?_⟩
        rintro ⟨h1, h2, h3⟩
        obtain rfl : j = i := by omega
        exact hunlock ⟨h3, rfl, h⟩
      · exact fun h => h.1
  · rfl
  · intro b
    constructor
    · exact .inl
    · rintro (h | ⟨hop, _, j, h1, h2, h3, h4, _⟩)
      · exact h
      · obtain rfl : j = i := by omega
        exact absurd ⟨h3, hop, h4⟩ hlock
  · intro hop j h1 h2 h3 h4
    obtain rfl : j = i := by omega
    exact absurd ⟨h3, hop, h4⟩ hlock

theorem pageLoop_spec (env : Env) (attr : Nat) (op : Op) (base n : Nat) :
    ∀ (i pos : Nat) (vpage : Nat → Vpage) (map : Option Words),
      let r := pageLoop env attr op base n i pos vpage map
      ∃ stop, i ≤ stop ∧ PagesDone env attr op base i stop pos vpage r.2.1 map r.2.2 ∧
        (r.1 = none ∧ stop = i + n ∨ r.1 ≠ none ∧ op = .lock ∧ stop < i + n ∧
          Wants attr (vpage stop) ∧ (vpage stop).vp_pplock = false ∧ Fails env (base + stop)) := by
  induction n with
  | zero =>
    intro i pos vpage map
    exact ⟨i, le_refl i, PagesDone.refl env attr op base i pos vpage map, .inl ⟨rfl, rfl⟩⟩
  | succ n ih =>
    intro i pos vpage map
    have hgo : ∀ {vpage₁ : Nat → Vpage} {map₁ : Option Words},
        PagesDone env attr op base i (i + 1) pos vpage vpage₁ map map₁ →
        let r := pageLoop env attr op base n (i + 1) (pos + 1) vpage₁ map₁
        ∃ stop, i ≤ stop ∧ PagesDone env attr op base i stop pos vpage r.2.1 map r.2.2 ∧
          (r.1 = none ∧ stop = i + (n + 1) ∨ r.1 ≠ none ∧ op = .lock ∧ stop < i + (n + 1) ∧
            Wants attr (vpage stop) ∧ (vpage stop).vp_pplock = false ∧
            Fails env (base + stop)) := by
      intro vpage₁ map₁ hone
      obtain ⟨stop, hle, hdone, hend⟩ := ih (i + 1) (pos + 1) vpage₁ map₁
      refine ⟨stop, by omega, hone.step hdone hle, ?_⟩
      rcases hend with ⟨hnone, hstop⟩ | ⟨herr, hop, hlt, hwants, hlock, hfails⟩
      · exact .inl ⟨hnone, by omega⟩
      refine .inr ⟨herr, hop, by omega, (wants_congr (hone.prot stop)).mp hwants, ?_, hfails⟩
      have hkept := hone.locks stop
      rw [hop, Done, hlock] at hkept
      cases hv : (vpage stop).vp_pplock with
      | false => rfl
      | true => exact absurd (hkept.mpr (.inl hv)) (by decide)
    have hstuck : ∀ e : Errno, Fails env (base + i) →
        (Wants attr (vpage i) ∧ op = .lock ∧ (vpage i).vp_pplock = false) →
        ∃ stop, i ≤ stop ∧ PagesDone env attr op base i stop pos vpage vpage map map ∧
          (some e = none ∧ stop = i + (n + 1) ∨ some e ≠ none ∧ op = .lock ∧
            stop < i + (n + 1) ∧ Wants attr (vpage stop) ∧ (vpage stop).vp_pplock = false ∧
            Fails env (base + stop)) := by
      intro e hfails h
      exact ⟨i, le_refl i, PagesDone.refl env attr op base i pos vpage map,
        .inr ⟨by simp, h.2.1, by omega, h.1, h.2.2, hfails⟩⟩
    rw [pageLoop]
    by_cases hlock : Wants attr (vpage i) ∧ op = .lock ∧ (vpage i).vp_pplock = false
    · rw [if_pos hlock]
      by_cases hfault : env.fault (base + i) = false
      · rw [if_pos hfault]
        exact hstuck EIO (.inl hfault) hlock
      rw [if_neg hfault]
      by_cases hpp : env.page_pp_lock (base + i) = false
      · rw [if_pos hpp]
        exact hstuck .EAGAIN (.inr hpp) hlock
      rw [if_neg hpp]
      apply hgo
      rw [hlock.2.1]
      exact PagesDone.locked map hlock.1 hlock.2.2 fun h => h.elim hfault hpp
    · rw [if_neg hlock]
      by_cases hunlock : Wants attr (vpage i) ∧ op = .unlock ∧ (vpage i).vp_pplock = true
      · rw [if_pos hunlock]
        apply hgo
        rw [hunlock.2.1]
        exact PagesDone.unlocked map hunlock.1
      · rw [if_neg hunlock]
        exact hgo (PagesDone.skipped map hlock hunlock)

/-! ### Segments -/

def Svd.page (svd : Svd) (i : Nat) : Vpage :=
  match svd.vpage with
  | some vpage => vpage i
  | none => ⟨svd.prot, false⟩

def Seg.Matches (seg : Seg) (attr p : Nat) : Prop :=
  ∃ svd, seg.svd = some svd ∧ SegWants attr svd ∧ Wants attr (svd.page (p - seg.s_base))

def Seg.Locked (seg : Seg) (p : Nat) : Prop :=
  ∃ svd, seg.svd = some svd ∧ (svd.page (p - seg.s_base)).vp_pplock = true

def Seg.Has (seg : Seg) (p : Nat) : Prop := seg.s_base ≤ p ∧ p < seg.stop

/-- The pages of the segment from `a` to `stop` are done. -/
structure SegDone (env : Env) (attr : Nat) (op : Op) (a stop pos : Nat) (seg seg' : Seg)
    (map map' : Option Words) : Prop where
  base : seg'.s_base = seg.s_base
  pages : seg'.s_pages = seg.s_pages
  same : ∀ p, seg.s_base ≤ p → (seg'.Matches attr p ↔ seg.Matches attr p)
  locks : ∀ p, seg.s_base ≤ p → (seg'.Locked p ↔
    Done op (seg.Locked p) (a ≤ p ∧ p < stop ∧ seg.Matches attr p))
  isSome : map'.isSome = map.isSome
  bits : ∀ b, bit map' b = true ↔ bit map b = true ∨ op = .lock ∧ map.isSome = true ∧
    ∃ p, a ≤ p ∧ p < stop ∧ seg.Matches attr p ∧ ¬ seg.Locked p ∧ b = pos + (p - a)
  able : op = .lock → ∀ p, a ≤ p → p < stop → seg.Matches attr p → ¬ seg.Locked p → ¬ Fails env p

theorem SegDone.refl {env : Env} {attr a stop pos : Nat} {op : Op} {seg : Seg} (map : Option Words)
    (h : ∀ p, seg.Matches attr p → (op = .lock ↔ seg.Locked p)) :
    SegDone env attr op a stop pos seg seg map map := by
  constructor
  · rfl
  · rfl
  · exact fun _ _ => .rfl
  · intro p _
    cases op with
    | lock => exact ⟨.inl, fun hp => hp.elim id fun hit => (h p hit.2.2).mp rfl⟩
    | unlock =>
      refine ⟨fun hp => ⟨hp, fun hit => ?_⟩, fun hp => hp.1⟩
      exact absurd ((h p hit.2.2).mpr hp) (by decide)
  · rfl
  · intro b
    refine ⟨.inl, fun hb => hb.elim id ?_⟩
    rintro ⟨hop, _, p, _, _, hmatch, hnew, _⟩
    exact absurd ((h p hmatch).mp hop) hnew
  · exact fun hop p _ _ hmatch hnew => absurd ((h p hmatch).mp hop) hnew

/-- From the pages of the array to those of the address space. -/
theorem PagesDone.seg {env : Env} {attr a i pos : Nat} {op : Op} {seg : Seg} {svd svd' : Svd}
    {vpage vpage' : Nat → Vpage} {map map' : Option Words} (hsvd : seg.svd = some svd)
    (hwants : SegWants attr svd) (hwants' : SegWants attr svd') (hpage : ∀ j, svd.page j = vpage j)
    (hpage' : ∀ j, svd'.page j = vpage' j) (ha : seg.s_base ≤ a)
    (h : PagesDone env attr op seg.s_base (a - seg.s_base) i pos vpage vpage' map map') :
    SegDone env attr op a (seg.s_base + i) pos seg { seg with svd := some svd' } map map' := by
  have hmatch : ∀ p, seg.Matches attr p ↔ Wants attr (vpage (p - seg.s_base)) := by
    intro p
    constructor
    · rintro ⟨svd₁, h1, _, h3⟩
      rw [hsvd, Option.some.injEq] at h1
      rw [← h1, hpage] at h3
      exact h3
    · intro hw
      exact ⟨svd, hsvd, hwants, by rw [hpage]; exact hw⟩
  have hlocked : ∀ p, seg.Locked p ↔ (vpage (p - seg.s_base)).vp_pplock = true := by
    intro p
    constructor
    · rintro ⟨svd₁, h1, h2⟩
      rw [hsvd, Option.some.injEq] at h1
      rw [← h1, hpage] at h2
      exact h2
    · intro hl
      exact ⟨svd, hsvd, by rw [hpage]; exact hl⟩
  have hmatch' : ∀ p, Seg.Matches { seg with svd := some svd' } attr p ↔
      Wants attr (vpage' (p - seg.s_base)) := by
    intro p
    constructor
    · rintro ⟨svd₁, h1, _, h3⟩
      rw [Option.some.injEq] at h1
      rw [← h1, hpage'] at h3
      exact h3
    · intro hw
      exact ⟨svd', rfl, hwants', by rw [hpage']; exact hw⟩
  have hlocked' : ∀ p, Seg.Locked { seg with svd := some svd' } p ↔
      (vpage' (p - seg.s_base)).vp_pplock = true := by
    intro p
    constructor
    · rintro ⟨svd₁, h1, h2⟩
      rw [Option.some.injEq] at h1
      rw [← h1, hpage'] at h2
      exact h2
    · intro hl
      exact ⟨svd', rfl, by rw [hpage']; exact hl⟩
  constructor
  · rfl
  · rfl
  · intro p _
    rw [hmatch, hmatch', wants_congr (h.prot _)]
  · intro p hp
    rw [hlocked', hlocked, hmatch, h.locks]
    have hrange : (a - seg.s_base ≤ p - seg.s_base ∧ p - seg.s_base < i ∧
        Wants attr (vpage (p - seg.s_base))) ↔
        (a ≤ p ∧ p < seg.s_base + i ∧ Wants attr (vpage (p - seg.s_base))) := by
      constructor
      · rintro ⟨h1, h2, h3⟩
        exact ⟨by omega, by omega, h3⟩
      · rintro ⟨h1, h2, h3⟩
        exact ⟨by omega, by omega, h3⟩
    rw [hrange]
  · exact h.isSome
  · intro b
    rw [h.bits]
    apply or_congr_right
    constructor
    · rintro ⟨hop, hmap, j, h1, h2, h3, h4, h5⟩
      refine ⟨hop, hmap, seg.s_base + j, by omega, by omega, ?_, ?_, by omega⟩
      · rw [hmatch, Nat.add_sub_cancel_left]
        exact h3
      · rw [hlocked, Nat.add_sub_cancel_left, h4]
        exact Bool.false_ne_true
    · rintro ⟨hop, hmap, p, h1, h2, h3, h4, h5⟩
      rw [hlocked, Bool.not_eq_true] at h4
      exact ⟨hop, hmap, p - seg.s_base, by omega, by omega, (hmatch p).mp h3, h4, by omega⟩
  · intro hop p h1 h2 h3 h4
    rw [hlocked, Bool.not_eq_true] at h4
    have hable := h.able hop (p - seg.s_base) (by omega) (by omega) ((hmatch p).mp h3) h4
    rwa [Nat.add_sub_cancel' (by omega)] at hable

/-- The pages of a call of `lockop` are done up to the end, or up to one that cannot be locked. -/
theorem lockop_spec (env : Env) {seg : Seg} {addr : Nat} (len attr : Nat) (op : Op) (map : Option Words)
    (pos : Nat) (haddr : seg.s_base ≤ addr) : let r := lockop env seg addr len attr op map pos
    ∃ stop, addr ≤ stop ∧ SegDone env attr op addr stop pos seg r.2.1 map r.2.2 ∧
      (r.1 = none ∧ stop = addr + len ∨ r.1 ≠ none ∧ op = .lock ∧ stop < addr + len ∧
        seg.Matches attr stop ∧ ¬ seg.Locked stop ∧ Fails env stop) := by
  have hall : (∀ p, seg.Matches attr p → (op = .lock ↔ seg.Locked p)) →
      ∃ stop, addr ≤ stop ∧ SegDone env attr op addr stop pos seg seg map map ∧
        ((none : Option Errno) = none ∧ stop = addr + len ∨
          (none : Option Errno) ≠ none ∧ op = .lock ∧ stop < addr + len ∧
          seg.Matches attr stop ∧ ¬ seg.Locked stop ∧ Fails env stop) := fun h =>
    ⟨addr + len, by omega, SegDone.refl map h, .inl ⟨rfl, rfl⟩⟩
  cases hsvd : seg.svd with
  | none =>
    rw [lockop, hsvd]
    refine hall fun p hp => ?_
    obtain ⟨svd, h, _⟩ := hp
    rw [hsvd] at h
    exact absurd h (by simp)
  | some svd =>
    rw [lockop, hsvd]
    dsimp only
    rw [segvn_lockop]
    by_cases hwants : SegWants attr svd
    · rw [if_neg (not_not.mpr hwants)]
      -- the pages as `pageLoop` sees them
      have hrun : ∀ {vpage : Nat → Vpage} {svd' : Svd}, (∀ j, svd.page j = vpage j) →
          (∀ v, SegWants attr { svd' with vpage := some v }) →
          let r := pageLoop env attr op seg.s_base len (addr - seg.s_base) pos vpage map
          ∃ stop, addr ≤ stop ∧ SegDone env attr op addr stop pos seg
              { seg with svd := some { svd' with vpage := some r.2.1 } } map r.2.2 ∧
            (r.1 = none ∧ stop = addr + len ∨ r.1 ≠ none ∧ op = .lock ∧ stop < addr + len ∧
              seg.Matches attr stop ∧ ¬ seg.Locked stop ∧ Fails env stop) := by
        intro vpage svd' hpage hwants'
        obtain ⟨stop, hle, hdone, hend⟩ :=
          pageLoop_spec env attr op seg.s_base len (addr - seg.s_base) pos vpage map
        refine ⟨seg.s_base + stop, by omega,
          hdone.seg hsvd hwants (hwants' _) hpage (fun _ => rfl) haddr, ?_⟩
        rcases hend with ⟨hnone, hstop⟩ | ⟨herr, hop, hlt, hw, hlock, hfails⟩
        · exact .inl ⟨hnone, by omega⟩
        refine .inr ⟨herr, hop, by omega, ⟨svd, hsvd, hwants, ?_⟩, ?_, hfails⟩
        · rw [Nat.add_sub_cancel_left, hpage]
          exact hw
        · rintro ⟨svd₁, h1, h2⟩
          rw [hsvd, Option.some.injEq] at h1
          rw [← h1, Nat.add_sub_cancel_left, hpage, hlock] at h2
          exact absurd h2 Bool.false_ne_true
      cases hv : svd.vpage with
      | some vpage =>
        have hpage : ∀ j, svd.page j = vpage j := fun j => by rw [Svd.page, hv]
        exact hrun hpage fun _ => hwants
      | none =>
        have hpage : ∀ j, svd.page j = ⟨svd.prot, false⟩ := fun j => by rw [Svd.page, hv]
        split_ifs with hop
        · have hsegwants : ∀ v, SegWants attr { segvn_vpage svd with vpage := some v } :=
            fun _ => hwants.imp_right fun h => ⟨h.1, fun h' => absurd h'.symm Bool.false_ne_true⟩
          exact hrun (fun j => hpage j) hsegwants
        · have hseg : { seg with svd := some svd } = seg := by rw [← hsvd]
          rw [hseg]
          refine hall fun p _ => ⟨fun h => absurd h hop, ?_⟩
          rintro ⟨svd₁, h1, h2⟩
          rw [hsvd, Option.some.injEq] at h1
          rw [← h1, hpage] at h2
          exact absurd h2 Bool.false_ne_true
    · rw [if_pos hwants]
      have hseg : { seg with svd := some svd } = seg := by rw [← hsvd]
      rw [hseg]
      refine hall fun p hp => ?_
      obtain ⟨svd₁, h1, h2, _⟩ := hp
      rw [hsvd, Option.some.injEq] at h1
      rw [← h1] at h2
      exact absurd h2 hwants

end Svr42.Mlock
