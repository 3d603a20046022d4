import Svr42.MlockRange

/-! The clean-up of `memcntl` when not all pages can be locked. -/

namespace Svr42.Mlock
open Bitmap Bool Nat

variable {env : Env} {attr : Nat} {segs segs' : List Seg}

/-! ### `bt_range` -/

theorem scanTo_spec (p : Nat → Bool) (nbits fuel : Nat) : ∀ (inx : Nat), inx ≤ nbits →
    nbits ≤ inx + fuel →
    inx ≤ scanTo p nbits fuel inx ∧ scanTo p nbits fuel inx ≤ nbits ∧
      (∀ i, inx ≤ i → i < scanTo p nbits fuel inx → p i = false) ∧
      (scanTo p nbits fuel inx < nbits → p (scanTo p nbits fuel inx) = true) := by
  induction fuel with
  | zero =>
    intro inx h1 h2
    rw [scanTo]
    exact ⟨le_refl _, h1, fun i h3 h4 => by omega, fun h3 => by omega⟩
  | succ fuel ih =>
    intro inx h1 h2
    rw [scanTo]
    split_ifs with hoff
    · obtain ⟨hle, hbits, hbefore, hat⟩ := ih (inx + 1) (by omega) (by omega)
      refine ⟨by omega, hbits, fun i h3 h4 => ?_, hat⟩
      rcases eq_or_lt_of_le h3 with rfl | h
      · exact hoff.2
      · exact hbefore i h h4
    · refine ⟨le_refl _, h1, fun i h3 h4 => by omega, fun h3 => ?_⟩
      cases hp : p inx with
      | false => exact absurd ⟨h3, hp⟩ hoff
      | true => rfl

variable {bitmap : Words} {pos1 nbits : Nat}

theorem bt_range_none (hpos : pos1 ≤ nbits) (h : bt_range bitmap pos1 nbits = none) (o : Nat)
    (h1 : pos1 ≤ o) (h2 : o < nbits) : btTest bitmap o = false := by
  obtain ⟨_, _, hbefore, _⟩ := scanTo_spec (btTest bitmap) nbits nbits pos1 hpos (by omega)
  rw [bt_range] at h
  by_cases hend : scanTo (btTest bitmap) nbits nbits pos1 = nbits
  · exact hbefore o h1 (by omega)
  · rw [if_neg hend] at h
    exact absurd h (by simp)

/-- The range that is found: its bits are on, and those before it are off. -/
theorem bt_range_some {p1 p2 : Nat} (hpos : pos1 ≤ nbits)
    (h : bt_range bitmap pos1 nbits = some (p1, p2)) :
    (pos1 ≤ p1 ∧ p1 ≤ p2 ∧ p2 < nbits) ∧ (∀ o, pos1 ≤ o → o < p1 → btTest bitmap o = false) ∧
      ∀ o, p1 ≤ o → o ≤ p2 → btTest bitmap o = true := by
  obtain ⟨hle, hbits, hbefore, hat⟩ := scanTo_spec (btTest bitmap) nbits nbits pos1 hpos (by omega)
  rw [bt_range] at h
  generalize scanTo (btTest bitmap) nbits nbits pos1 = inx at *
  by_cases hend : inx = nbits
  · rw [if_pos hend] at h
    exact absurd h (by simp)
  rw [if_neg hend, Option.some.injEq, Prod.mk.injEq] at h
  obtain ⟨hle', hbits', hon, hoff⟩ :=
    scanTo_spec (fun i => !btTest bitmap i) nbits nbits inx hbits (by omega)
  generalize scanTo (fun i => !btTest bitmap i) nbits nbits inx = stop at *
  have hinx := hat (by omega)
  have hlt : inx < stop := by
    rcases eq_or_lt_of_le hle' with heq | hlt
    · have hnot := hoff (by omega)
      rw [← heq, hinx] at hnot
      exact absurd hnot (by decide)
    · exact hlt
  obtain ⟨rfl, rfl⟩ := h
  refine ⟨⟨hle, by omega, by omega⟩, hbefore, fun o h1 h2 => ?_⟩
  have hbit := hon o h1 (by omega)
  rwa [not_eq_false'] at hbit

/-! ### `mem_unlock` -/

/-- The pages from `addr` on of the bits from `pos1` to `nbits` are unlocked, no others. -/
structure Undone (attr : Nat) (bitmap : Words) (addr pos1 nbits : Nat) (segs segs' : List Seg) :
    Prop where
  placed : layout segs' = layout segs
  same : ∀ p, MatchesAt segs' attr p ↔ MatchesAt segs attr p
  locks : ∀ p, LockedAt segs' p → LockedAt segs p
  only : ∀ p, LockedAt segs p → ¬ LockedAt segs' p →
    ∃ o, pos1 ≤ o ∧ o < nbits ∧ btTest bitmap o = true ∧ p = addr + o
  all : (∀ o, pos1 ≤ o → o < nbits → btTest bitmap o = true → Mapped segs (addr + o)) →
    ∀ o, pos1 ≤ o → o < nbits → btTest bitmap o = true → MatchesAt segs attr (addr + o) →
      ¬ LockedAt segs' (addr + o)

theorem Undone.none {addr : Nat} (h : ∀ o, pos1 ≤ o → o < nbits → btTest bitmap o = false) :
    Undone attr bitmap addr pos1 nbits segs segs := by
  constructor
  · rfl
  · exact fun _ => .rfl
  · exact fun _ hp => hp
  · exact fun _ hp hno => absurd hp hno
  · intro _ o h1 h2 h3
    rw [h o h1 h2] at h3
    exact absurd h3 false_ne_true

/-- One range of bits and those after it. -/
theorem Undone.step {addr p1 p2 stop : Nat} {segs₁ : List Seg}
    (hrange : pos1 ≤ p1 ∧ p1 ≤ p2 ∧ p2 < nbits) (hoff : ∀ o, pos1 ≤ o → o < p1 → btTest bitmap o = false)
    (hon : ∀ o, p1 ≤ o → o ≤ p2 → btTest bitmap o = true)
    (hone : ListDone env attr .unlock (addr + p1) stop segs segs₁) (hstop : stop ≤ addr + p2 + 1)
    (hhole : stop = addr + p2 + 1 ∨ ¬ Mapped segs stop ∧ addr + p1 ≤ stop)
    (hrest : Undone attr bitmap addr (p2 + 1) nbits segs₁ segs') :
    Undone attr bitmap addr pos1 nbits segs segs' := by
  constructor
  · exact hrest.placed.trans hone.placed
  · exact fun p => (hrest.same p).trans (hone.same p)
  · exact fun p hp => ((hone.locks p).mp (hrest.locks p hp)).1
  · intro p hp hno
    by_cases hmid : LockedAt segs₁ p
    · obtain ⟨o, h1, h2, h3, h4⟩ := hrest.only p hmid hno
      exact ⟨o, by omega, h2, h3, h4⟩
    have hhit : addr + p1 ≤ p ∧ p < stop ∧ MatchesAt segs attr p := by
      by_contra hout
      exact hmid ((hone.locks p).mpr ⟨hp, hout⟩)
    exact ⟨p - addr, by omega, by omega, hon _ (by omega) (by omega), by omega⟩
  · intro hmapped o h1 h2 h3 hmatch hlocked
    have hfull : stop = addr + p2 + 1 := by
      rcases hhole with hfull | ⟨hhole, hle⟩
      · exact hfull
      by_contra hne
      have hm := hmapped (stop - addr) (by omega) (by omega) (hon _ (by omega) (by omega))
      rw [Nat.add_sub_cancel' (by omega)] at hm
      exact hhole hm
    rcases lt_or_ge o (p2 + 1) with hlt | hge
    · have hp1 : p1 ≤ o := by
        by_contra hlow
        rw [hoff o h1 (by omega)] at h3
        exact absurd h3 false_ne_true
      have hdone := (hone.locks (addr + o)).mp (hrest.locks _ hlocked)
      exact hdone.2 ⟨by omega, by omega, hmatch⟩
    · refine hrest.all (fun o' h1' h2' h3' => ?_) o hge h2 h3 ((hone.same _).mpr hmatch) hlocked
      exact (mapped_congr hone.placed).mpr (hmapped o' (by omega) h2' h3')

theorem unlockLoop_spec (env : Env) (attr : Nat) (bitmap : Words) {addr : Nat}
    (hword : addr + nbits < 0x100000) (fuel : Nat) : ∀ (pos1 : Nat) (segs : List Seg), Laid segs →
    pos1 ≤ nbits → nbits < pos1 + fuel →
    Undone attr bitmap addr pos1 nbits segs (unlockLoop env attr bitmap addr nbits fuel pos1 segs) := by
  induction fuel with
  | zero => intro pos1 segs _ h1 h2; omega
  | succ fuel ih =>
    intro pos1 segs hlaid hpos hfuel
    rw [unlockLoop]
    cases hrange : bt_range bitmap pos1 nbits with
    | none => exact Undone.none fun o => bt_range_none hpos hrange o
    | some r =>
      obtain ⟨p1, p2⟩ := r
      obtain ⟨hle, hoff, hon⟩ := bt_range_some hpos hrange
      have hsum : addp addr p1 = addr + p1 := mod_eq_of_lt (by omega)
      obtain ⟨stop, hwalk⟩ := ctlRange_spec env attr .unlock 0 (addr + p1)
        (p2 - p1 + 1) none (by omega) (by omega) hlaid
      dsimp only
      rw [hsum]
      have hstop := hwalk.le
      refine Undone.step hle hoff hon hwalk.done (by omega) ?_
        (ih (p2 + 1) _ (laid_congr hwalk.done.placed hlaid) (by omega) (by omega))
      rcases hwalk.ends with ⟨_, hend⟩ | ⟨_, _, hhole | ⟨hop, _⟩⟩
      · exact .inl (by omega)
      · exact .inr ⟨hhole, hstop.1⟩
      · exact absurd hop (by decide)

theorem mem_unlock_spec (env : Env) (attr : Nat) (bitmap : Words) (addr position nbits : Nat)
    (hword : addr + nbits < 0x100000) (hlaid : Laid segs) (hpos : position ≤ nbits) :
    Undone attr bitmap addr position nbits segs (mem_unlock env attr bitmap addr position nbits segs) :=
  unlockLoop_spec env attr bitmap hword (nbits + 1) position segs hlaid hpos (by omega)

theorem mem_unlock_none (env : Env) (attr : Nat) (addr : Nat) {position : Nat} (hpos : position ≤ nbits)
    (h : ∀ o, position ≤ o → btTest bitmap o = false) :
    mem_unlock env attr bitmap addr position nbits segs = segs := by
  rw [mem_unlock, unlockLoop]
  cases hrange : bt_range bitmap position nbits with
  | none => rfl
  | some r =>
    obtain ⟨hle, _, hon⟩ := bt_range_some hpos (show _ = some (r.1, r.2) from hrange)
    have hbit := hon r.1 (le_refl _) hle.2.1
    rw [h r.1 hle.1] at hbit
    exact absurd hbit false_ne_true

/-! ### The clean-up of `MC_LOCKAS` -/

/-- The bit `o` is one of the segment, and `p` is the page that the clean-up takes for it. -/
def TakenFor : List (Nat × Nat) → Nat → Nat → Nat → Prop
  | [], _, _, _ => False
  | seg :: segs, inx, p, o =>
      (inx ≤ o ∧ o < inx + seg.2 ∧ p = seg.1 + o) ∨ TakenFor segs (inx + seg.2) p o

def NoWrap : List (Nat × Nat) → Nat → Prop
  | [], _ => True
  | seg :: segs, inx => seg.1 + (inx + seg.2) < 0x100000 ∧ NoWrap segs (inx + seg.2)

theorem TakenFor.le {lay : List (Nat × Nat)} {inx p o : Nat} (h : TakenFor lay inx p o) : inx ≤ o := by
  induction lay generalizing inx with
  | nil => exact False.elim h
  | cons seg lay ih =>
    rcases h with h | h
    · exact h.1
    · have hle := ih h
      omega

theorem IndexAt.le {pos p b : Nat} (h : IndexAt segs pos p b) : pos ≤ b := by
  induction segs generalizing pos with
  | nil => exact False.elim h
  | cons seg segs ih =>
    rcases h with h | h
    · omega
    · have hle := ih h
      omega

/-- The page taken for the bit of the page `q` lies at least `inx` pages after it. -/
theorem TakenFor.after {inx p q o : Nat} (h : TakenFor (layout segs) inx p o)
    (hq : IndexAt segs inx q o) : q + inx ≤ p := by
  induction segs generalizing inx with
  | nil => exact False.elim h
  | cons seg segs ih =>
    rcases h with ⟨h1, h2, h3⟩ | h
    · dsimp only at h2 h3
      rcases hq with ⟨hhas, ho⟩ | hq
      · have hbase := hhas.1
        omega
      · have hle := hq.le
        omega
    · rcases hq with ⟨hhas, ho⟩ | hq
      · have hle := h.le
        have hlt := hhas.2
        have hbase := hhas.1
        rw [Seg.stop] at hlt
        dsimp only at hle
        omega
      · have hle := ih h hq
        omega

theorem unlockAll_none (env : Env) (attr : Nat) (lay : List (Nat × Nat)) :
    ∀ {inx : Nat}, (∀ o, inx ≤ o → btTest bitmap o = false) →
      unlockAll env attr bitmap lay inx segs = segs := by
  induction lay with
  | nil => exact fun _ => rfl
  | cons seg lay ih =>
    intro inx h
    rw [unlockAll, mem_unlock_none env attr seg.1 (by omega) h]
    exact ih fun o ho => h o (by omega)

theorem unlockAll_only (env : Env) (attr : Nat) (bitmap : Words) (lay : List (Nat × Nat)) :
    ∀ {inx : Nat} {segs : List Seg}, Laid segs → NoWrap lay inx → ∀ p, LockedAt segs p →
      ¬ LockedAt (unlockAll env attr bitmap lay inx segs) p →
      ∃ o, btTest bitmap o = true ∧ TakenFor lay inx p o := by
  induction lay with
  | nil => exact fun _ _ p hp hno => absurd hp hno
  | cons seg lay ih =>
    intro inx segs hlaid hwrap p hp hno
    have hundone := mem_unlock_spec env attr bitmap seg.1 inx (inx + seg.2) hwrap.1 hlaid (by omega)
    rw [unlockAll] at hno
    by_cases hmid : LockedAt (mem_unlock env attr bitmap seg.1 inx (inx + seg.2) segs) p
    · obtain ⟨o, hbit, htaken⟩ := ih (laid_congr hundone.placed hlaid) hwrap.2 p hmid hno
      exact ⟨o, hbit, .inr htaken⟩
    · obtain ⟨o, h1, h2, h3, h4⟩ := hundone.only p hp hmid
      exact ⟨o, h3, .inl ⟨h1, h2, h4⟩⟩

end Svr42.Mlock
