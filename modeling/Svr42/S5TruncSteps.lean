import Svr42.S5Trunc

/-! The tree of a file while `s5freesp` frees blocks of it, described by the places in the tree as it
was before. -/

namespace Svr42.S5.Tree
open Function List Nat

variable {n level lastbn last base k entry i j b : Nat} {ip : Inode} {p q r : Place}
  {indices : List Nat} {Z Z' F F' : Place → Prop} {x : Freeing} {bap : Fblk}

/-- The blocks at the places `F` have been freed, and the pointers to the places `Z` erased where they
were in a block that has not been freed. -/
structure Trims (n : Nat) (ip : Inode) (Z F : Place → Prop) (x : Freeing) : Prop where
  idle : Idle x.fs
  bad : ∀ b, badblock x.fs b ↔ badblock ip.fs b
  freed : ∀ b, b ∈ x.freed ↔ ∃ q : Place, q.Valid n ∧ F q ∧ node ip q = b ∧ b ≠ 0
  nodup : x.freed.Nodup
  taken : ∀ b, x.fs.taken b = if b ∈ x.freed then 0 else ip.fs.taken b
  erased : ∀ entry i indices, Place.Valid n ⟨entry, i :: indices⟩ → nodeAt ip entry indices ≠ 0 →
    ¬ F ⟨entry, indices⟩ → Z ⟨entry, i :: indices⟩ →
    ptr (x.fs.block (nodeAt ip entry indices)) i = 0
  kept : ∀ entry i indices, Place.Valid n ⟨entry, i :: indices⟩ → nodeAt ip entry indices ≠ 0 →
    ¬ F ⟨entry, indices⟩ → ¬ Z ⟨entry, i :: indices⟩ →
    ptr (x.fs.block (nodeAt ip entry indices)) i = ptr (ip.fs.block (nodeAt ip entry indices)) i

def Under (p q : Place) : Prop := q.entry = p.entry ∧ p.indices <:+ q.indices

def child (p : Place) (i : Nat) : Place := ⟨p.entry, i :: p.indices⟩

/-! ### Places -/

theorem Under.refl (p : Place) : Under p p := ⟨rfl, suffix_refl _⟩

theorem Under.of_child (h : Under (child p i) q) : Under p q ∧ q ≠ p := by
  obtain ⟨hentry, hsuffix⟩ := h
  refine ⟨⟨hentry, (suffix_cons i p.indices).trans hsuffix⟩, ?_⟩
  rintro rfl
  have hle := hsuffix.length_le
  rw [child, length_cons] at hle
  omega

theorem Under.exists_append (h : Under p q) : ∃ t, q = ⟨p.entry, t ++ p.indices⟩ := by
  obtain ⟨hentry, t, htail⟩ := h
  exact ⟨t, congrArg₂ Place.mk hentry htail.symm⟩

/-- What a place leads to, other than itself, is led to by a pointer of its block. -/
theorem Under.cases (h : Under p q) (hv : q.Valid n) (hne : q ≠ p) :
    ∃ i, i < n ∧ (child p i).Valid n ∧ Under (child p i) q := by
  obtain ⟨t, rfl⟩ := h.exists_append
  rcases eq_nil_or_concat t with rfl | ⟨t, i, rfl⟩
  · exact absurd rfl hne
  have happend : t.concat i ++ p.indices = t ++ i :: p.indices := by
    rw [concat_eq_append, append_assoc]
    rfl
  have hi : i ∈ t.concat i ++ p.indices := by
    rw [happend]
    exact mem_append_right _ (.head _)
  have hsuffix : i :: p.indices <:+ t.concat i ++ p.indices := ⟨t, happend.symm⟩
  exact ⟨i, hv.indices i hi, ⟨hv.entry, hsuffix.length_le.trans hv.length,
    fun j hj => hv.indices j (hsuffix.subset hj)⟩, rfl, hsuffix⟩

theorem Under.child_inj (h : Under (child p i) q) (h' : Under (child p j) q) : i = j := by
  have hsuffix := suffix_of_suffix_length_le h.2 h'.2 (le_refl (p.indices.length + 1))
  exact (cons.inj (hsuffix.eq_of_length rfl)).1

theorem Under.hole (h : Under p q) (hzero : node ip p = 0) : node ip q = 0 := by
  obtain ⟨t, rfl⟩ := h.exists_append
  clear h
  induction t with
  | nil => exact hzero
  | cons j t ih => exact nodeAt_hole ih

theorem Under.leaf (h : Under p q) (hv : q.Valid n) (hleaf : p.Leaf) : q = p := by
  obtain ⟨t, rfl⟩ := h.exists_append
  have hmax := hv.length
  dsimp only at hmax
  rw [length_append] at hmax
  unfold Place.Leaf at hleaf
  rw [eq_nil_of_length_eq_zero (show t.length = 0 by omega)]
  rfl

theorem Under.first_le (h : Under p q) (hv : q.Valid n) :
    first n p ≤ first n q ∧ first n q + span n q ≤ first n p + span n p := by
  obtain ⟨t, rfl⟩ := h.exists_append
  exact firstAt_append t hv

/-! ### Steps -/

namespace Trims

theorem congr (h : Trims n ip Z F x) (hF : ∀ q : Place, q.Valid n → node ip q ≠ 0 → (F' q ↔ F q))
    (hZ : ∀ entry i indices, Place.Valid n ⟨entry, i :: indices⟩ → nodeAt ip entry indices ≠ 0 →
      ¬ F' ⟨entry, indices⟩ → (Z' ⟨entry, i :: indices⟩ ↔ Z ⟨entry, i :: indices⟩)) :
    Trims n ip Z' F' x where
  idle := h.idle
  bad := h.bad
  freed b := by
    rw [h.freed]
    constructor
    · rintro ⟨q, hv, hq, rfl, hne⟩
      exact ⟨q, hv, (hF q hv hne).mpr hq, rfl, hne⟩
    · rintro ⟨q, hv, hq, rfl, hne⟩
      exact ⟨q, hv, (hF q hv hne).mp hq, rfl, hne⟩
  nodup := h.nodup
  taken := h.taken
  erased entry i indices hv hne hnot hz :=
    h.erased entry i indices hv hne (fun hf => hnot ((hF _ hv.tail hne).mpr hf))
      ((hZ entry i indices hv hne hnot).mp hz)
  kept entry i indices hv hne hnot hz :=
    h.kept entry i indices hv hne (fun hf => hnot ((hF _ hv.tail hne).mpr hf))
      fun hz' => hz ((hZ entry i indices hv hne hnot).mpr hz')

section

variable (h : Trims n ip Z F x) (hs : Sound n ip) (hv : q.Valid n) (hne : node ip q ≠ 0)
  (hnot : ¬ F q)
include h hs hv hne hnot

theorem notMem : node ip q ∉ x.freed := by
  intro hmem
  obtain ⟨q', hv', hf, hsame, -⟩ := (h.freed _).mp hmem
  have heq := hs.distinct q q' hv hv' hne hsame.symm
  rw [heq] at hnot
  exact hnot hf

/-- `blkfree` for the block at a place. -/
theorem free : Trims n ip Z (fun r => F r ∨ r = q) (Tree.free x (node ip q)) := by
  have hout := h.notMem hs hv hne hnot
  obtain ⟨hgood, htaken⟩ := hs.owned q hv hne
  have hfrees : Frees x.fs (blkfree x.fs (node ip q)) (node ip q) := by
    refine blkfree_frees h.idle (fun hbad => hgood ((h.bad _).mp hbad)) ?_
    rw [h.taken, if_neg hout, htaken]
  have hother : ∀ entry i indices, Place.Valid n ⟨entry, i :: indices⟩ →
      nodeAt ip entry indices ≠ 0 → ¬ (F ⟨entry, indices⟩ ∨ (⟨entry, indices⟩ : Place) = q) →
      (blkfree x.fs (node ip q)).block (nodeAt ip entry indices) =
        x.fs.block (nodeAt ip entry indices) := by
    intro entry i indices hv' hne' hnot'
    refine hfrees.block _ fun heq => hnot' (.inr ?_)
    exact hs.distinct ⟨entry, indices⟩ q hv'.tail hv hne' heq
  refine ⟨hfrees.idle, fun b => (hfrees.bad b).trans (h.bad b), fun b => ?_,
    nodup_cons.mpr ⟨hout, h.nodup⟩, fun b => ?_, fun entry i indices hv' hne' hnot' hz => ?_,
    fun entry i indices hv' hne' hnot' hz => ?_⟩
  · show b ∈ node ip q :: x.freed ↔ _
    rw [mem_cons, h.freed]
    constructor
    · rintro (rfl | ⟨q', hv', hf, rfl, hne'⟩)
      · exact ⟨q, hv, .inr rfl, rfl, hne⟩
      · exact ⟨q', hv', .inl hf, rfl, hne'⟩
    · rintro ⟨q', hv', hf | rfl, rfl, hne'⟩
      · exact .inr ⟨q', hv', hf, rfl, hne'⟩
      · exact .inl rfl
  · show (blkfree x.fs (node ip q)).taken b = if b ∈ node ip q :: x.freed then 0 else _
    rw [hfrees.taken]
    by_cases hb : b = node ip q
    · rw [hb, update_self, if_pos mem_cons_self]
    rw [update_of_ne hb, h.taken]
    by_cases hmem : b ∈ x.freed
    · rw [if_pos hmem, if_pos (.tail _ hmem)]
    · rw [if_neg hmem, if_neg (not_mem_cons_of_ne_of_not_mem hb hmem)]
  · show ptr ((blkfree x.fs (node ip q)).block _) i = 0
    rw [hother entry i indices hv' hne' hnot']
    exact h.erased entry i indices hv' hne' (fun hf => hnot' (.inl hf)) hz
  · show ptr ((blkfree x.fs (node ip q)).block _) i = _
    rw [hother entry i indices hv' hne' hnot']
    exact h.kept entry i indices hv' hne' (fun hf => hnot' (.inl hf)) hz

end

end Trims

theorem ptr_zeroAfter {content : Fblk} (hi : i < n) :
    ptr (zeroAfter n last content) i = if last < i then 0 else ptr content i := by
  unfold ptr zeroAfter
  by_cases hzero : i = 0
  · rw [if_pos hzero, if_pos hzero, if_neg (by omega)]
  rw [if_neg hzero, if_neg hzero]
  by_cases hlast : last < i
  · rw [if_pos hlast]
    exact if_pos ⟨by omega, by omega⟩
  · rw [if_neg hlast]
    exact if_neg (by omega)

def Behind (p : Place) (last : Nat) (q : Place) : Prop := ∃ i, last < i ∧ q = child p i

/-- The pointers behind the last one are erased. -/
theorem Trims.rewrite (h : Trims n ip Z F x) (hs : Sound n ip) (hv : p.Valid n) (hne : node ip p ≠ 0)
    (hnot : ¬ F p) : Trims n ip (fun q => Z q ∨ Behind p last q) F (rewrite n (node ip p) last x) := by
  have hout := h.notMem hs hv hne hnot
  obtain ⟨hgood, htaken⟩ := hs.owned p hv hne
  have hidle := h.idle.write (fun hbad => hgood ((h.bad _).mp hbad))
    (by rw [h.taken, if_neg hout, htaken]) (zeroAfter n last (x.fs.block (node ip p)))
  have hptr : ∀ entry i indices, Place.Valid n ⟨entry, i :: indices⟩ →
      nodeAt ip entry indices ≠ 0 →
      ptr (update x.fs.block (node ip p) (zeroAfter n last (x.fs.block (node ip p)))
        (nodeAt ip entry indices)) i = 0 ∧ Behind p last ⟨entry, i :: indices⟩ ∨
      ptr (update x.fs.block (node ip p) (zeroAfter n last (x.fs.block (node ip p)))
        (nodeAt ip entry indices)) i = ptr (x.fs.block (nodeAt ip entry indices)) i ∧
        ¬ Behind p last ⟨entry, i :: indices⟩ := by
    intro entry i indices hv' hne'
    by_cases hsame : nodeAt ip entry indices = node ip p
    · have hplace := hs.distinct ⟨entry, indices⟩ p hv'.tail hv hne' hsame
      rw [hsame, update_self, ptr_zeroAfter (hv'.indices i (.head _)), ← hplace]
      by_cases hlast : last < i
      · exact .inl ⟨if_pos hlast, i, hlast, rfl⟩
      refine .inr ⟨if_neg hlast, ?_⟩
      rintro ⟨i', hlast', heq⟩
      rw [(cons.inj (Place.mk.inj heq).2).1] at hlast
      exact hlast hlast'
    · refine .inr ⟨by rw [update_of_ne hsame], ?_⟩
      rintro ⟨i', -, heq⟩
      obtain ⟨he, hcons⟩ := Place.mk.inj heq
      rw [he, (cons.inj hcons).2] at hsame
      exact hsame rfl
  unfold Tree.rewrite
  rw [if_neg (by omega), Int.toNat_natCast]
  refine ⟨hidle, h.bad, h.freed, h.nodup, h.taken, fun entry i indices hv' hne' hnot' hz => ?_,
    fun entry i indices hv' hne' hnot' hz => ?_⟩
  · rcases hptr entry i indices hv' hne' with ⟨hzero, -⟩ | ⟨hsame, hbehind⟩
    · exact hzero
    · exact hsame.trans (h.erased entry i indices hv' hne' hnot' (hz.resolve_right hbehind))
  · rcases hptr entry i indices hv' hne' with ⟨-, hbehind⟩ | ⟨hsame, -⟩
    · exact absurd (.inr hbehind) hz
    · exact hsame.trans (h.kept entry i indices hv' hne' hnot' fun hz' => hz (.inl hz'))

/-- What the treatment of each block under `p` has to do. -/
def Clears (n : Nat) (ip : Inode) (p : Place) (Z : Place → Prop) (sub : Nat → Freeing → Freeing) : Prop :=
  ∀ i, i < n → node ip (child p i) ≠ 0 → ∀ (F : Place → Prop) (x : Freeing), Trims n ip Z F x →
    (∀ q, Under (child p i) q → ¬ F q) →
    Trims n ip Z (fun q => F q ∨ Under (child p i) q ∧ q ≠ child p i) (sub (node ip (child p i)) x)

theorem Trims.free_under (h : Trims n ip Z (fun q => F q ∨ Under p q ∧ q ≠ p) x) (hs : Sound n ip)
    (hv : p.Valid n) (hne : node ip p ≠ 0) (hnot : ¬ F p) :
    Trims n ip Z (fun q => F q ∨ Under p q) (Tree.free x (node ip p)) := by
  have hself : ¬ (F p ∨ Under p p ∧ p ≠ p) := fun hor => hnot (hor.resolve_right fun hand => hand.2 rfl)
  refine (h.free hs hv hne hself).congr (fun q _ _ => ?_) fun _ _ _ _ _ _ => .rfl
  constructor
  · rintro (hf | hunder)
    · exact .inl (.inl hf)
    · by_cases heq : q = p
      · exact .inr heq
      · exact .inl (.inr ⟨hunder, heq⟩)
  · rintro ((hf | ⟨hunder, -⟩) | rfl)
    · exact .inl hf
    · exact .inr hunder
    · exact .inr (Under.refl _)

variable {sub : Nat → Freeing → Freeing}

/-- The loop over the totally unused blocks of the indirect block at `p`. -/
theorem Trims.unused (hs : Sound n ip) (hv : p.Valid n) (hlength : p.indices.length < depth p.entry)
    (hbap : ∀ i, i < n → ptr bap i = node ip (child p i)) (hsub : Clears n ip p Z sub)
    (h : Trims n ip Z F x) (hk : base + k ≤ n)
    (hF : ∀ i, base ≤ i → i < base + k → ∀ q, Under (child p i) q → ¬ F q) :
    Trims n ip Z (fun q => F q ∨ ∃ i, base ≤ i ∧ i < base + k ∧ Under (child p i) q)
      (unused sub bap base k x) := by
  induction k generalizing F x with
  | zero =>
    refine h.congr (fun q _ _ => ⟨fun hq => ?_, .inl⟩) fun _ _ _ _ _ _ => .rfl
    rcases hq with hq | ⟨i, hlow, hhigh, -⟩
    · exact hq
    · omega
  | succ k ih =>
    have hi : base + k < n := by omega
    have hchild : (child p (base + k)).Valid n := Place.Valid.cons hv hi hlength
    have hclear := hF (base + k) (by omega) (by omega)
    have hstep : Trims n ip Z (fun q => F q ∨ Under (child p (base + k)) q)
        (if ptr bap (base + k) ≠ 0 then Tree.free (sub (ptr bap (base + k)) x) (ptr bap (base + k))
          else x) := by
      rw [hbap _ hi]
      split_ifs with hne
      · exact (hsub _ hi hne F x h hclear).free_under hs hchild hne (hclear _ (Under.refl _))
      · refine h.congr (fun q _ hq => ⟨fun hor => ?_, .inl⟩) fun _ _ _ _ _ _ => .rfl
        exact hor.resolve_right fun hunder => hq (hunder.hole (not_not.mp hne))
    refine (ih hstep (by omega) fun i hlow hhigh q hunder => ?_).congr (fun q _ _ => ?_)
      fun _ _ _ _ _ _ => .rfl
    · rintro (hf | hother)
      · exact hF i hlow (by omega) q hunder hf
      · have heq := hunder.child_inj hother
        omega
    · constructor
      · rintro (hf | ⟨i, hlow, hhigh, hunder⟩)
        · exact .inl (.inl hf)
        · rcases lt_or_ge i (base + k) with hlt | hge
          · exact .inr ⟨i, hlow, hlt, hunder⟩
          · rw [show i = base + k by omega] at hunder
            exact .inl (.inr hunder)
      · rintro ((hf | hunder) | ⟨i, hlow, hhigh, hunder⟩)
        · exact .inl hf
        · exact .inr ⟨base + k, by omega, by omega, hunder⟩
        · exact .inr ⟨i, hlow, by omega, hunder⟩

theorem Trims.ptr_child (h : Trims n ip Z F x) (hv : p.Valid n)
    (hlength : p.indices.length < depth p.entry) (hne : node ip p ≠ 0) (hnot : ¬ F p)
    (hZ : ∀ q, Under p q → q ≠ p → ¬ Z q) (hi : i < n) :
    ptr (x.fs.block (node ip p)) i = node ip (child p i) := by
  have hchild : (child p i).Valid n := Place.Valid.cons hv hi hlength
  have hunder := (Under.refl (child p i)).of_child
  exact (h.kept p.entry i p.indices hchild hne hnot (hZ _ hunder.1 hunder.2)).trans
    (nodeAt_cons hne).symm

theorem lastIndex_neg : lastIndex n level (-1) = -1 := if_neg (by decide)

theorem lastIndex_nat : lastIndex n level lastbn = (lastbn / factor n level : Nat) := by
  unfold lastIndex
  rcases Nat.eq_zero_or_pos lastbn with rfl | hpos
  · rw [if_neg (by decide), Nat.zero_div]
  · rw [if_pos (Int.natCast_pos.mpr hpos)]
    rfl

theorem rewrite_neg : rewrite n b (-1) x = x := if_pos (by decide)

theorem Trims.wholeLoop (hs : Sound n ip) (h : Trims n ip Z F x) (hv : p.Valid n) (hne : node ip p ≠ 0)
    (hlength : p.indices.length < depth p.entry) (hF : ∀ q, Under p q → ¬ F q)
    (hZ : ∀ q, Under p q → q ≠ p → ¬ Z q) (hsub : Clears n ip p Z sub) :
    Trims n ip Z (fun q => F q ∨ Under p q ∧ q ≠ p)
      (Tree.unused sub (x.fs.block (node ip p)) 0 n x) := by
  refine (Trims.unused hs hv hlength
    (fun i hi => h.ptr_child hv hlength hne (hF p (Under.refl p)) hZ hi) hsub h (by omega)
    fun i _ _ q hunder => hF q hunder.of_child.1).congr (fun q hq _ => ?_) fun _ _ _ _ _ _ => .rfl
  constructor
  · rintro (hf | ⟨hunder, hneq⟩)
    · exact .inl hf
    · obtain ⟨i, hi, -, hchild⟩ := hunder.cases hq hneq
      exact .inr ⟨i, zero_le i, by omega, hchild⟩
  · rintro (hf | ⟨i, -, -, hunder⟩)
    · exact .inl hf
    · exact .inr hunder.of_child

theorem clears_data (hlength : p.indices.length + 1 = depth p.entry) : Clears n ip p Z fun _ x => x := by
  intro i hi _ F x h _
  refine h.congr (fun q hq _ => ⟨fun hor => ?_, .inl⟩) fun _ _ _ _ _ _ => .rfl
  rcases hor with hf | ⟨hunder, hneq⟩
  · exact hf
  · exact absurd (hunder.leaf hq hlength) hneq

theorem Trims.whole (hs : Sound n ip) (h : Trims n ip Z F x) (hv : p.Valid n) (hne : node ip p ≠ 0)
    (hlength : p.indices.length + (level + 1) = depth p.entry) (hF : ∀ q, Under p q → ¬ F q)
    (hZ : ∀ q, Under p q → q ≠ p → ¬ Z q) :
    Trims n ip Z (fun q => F q ∨ Under p q ∧ q ≠ p) (s5indirtrunc n level (node ip p) (-1) x) := by
  induction level generalizing p F x with
  | zero =>
    rw [s5indirtrunc, lastIndex_neg, rewrite_neg]
    exact h.wholeLoop hs hv hne (by omega) hF hZ (clears_data hlength)
  | succ level ih =>
    rw [s5indirtrunc, lastIndex_neg, rewrite_neg]
    rw [if_neg (by decide)]
    refine h.wholeLoop hs hv hne (by omega) hF hZ fun i hi hnode F' x' h' hF' => ?_
    have hchild : (child p i).Valid n := Place.Valid.cons hv hi (by omega)
    refine ih h' hchild hnode ?_ hF' fun q hunder _ => hZ q hunder.of_child.1 hunder.of_child.2
    rw [child, length_cons]
    dsimp only
    omega

def Cut (n keep : Nat) (p q : Place) : Prop := (Under p q ∧ q ≠ p) ∧ keep ≤ first n q

theorem first_child (hlength : p.indices.length + (level + 1) = depth p.entry) :
    first n (child p i) = first n p + i * factor n level ∧ span n (child p i) = factor n level := by
  have hdepth : depth p.entry - (p.indices.length + 1) = level := by omega
  refine ⟨?_, congrArg (factor n) hdepth⟩
  show firstAt n p.entry (i :: p.indices) = _
  rw [firstAt_cons, hdepth]
  rfl

variable {keep : Nat}

section

variable (hn : 0 < n) (hlength : p.indices.length + (level + 1) = depth p.entry)
  (hkeep : keep = first n p + lastbn + 1) (hq : q.Valid n)
include hn hlength hkeep hq

theorem beyond_child (hunder : Under (child p i) q) :
    (lastbn / factor n level < i → keep ≤ first n q) ∧
      (i < lastbn / factor n level → first n q < keep) := by
  obtain ⟨hfirst, hspan⟩ := first_child (n := n) (i := i) hlength
  obtain ⟨hlow, hhigh⟩ := hunder.first_le hq
  have hf : 0 < factor n level := factor_pos hn _
  constructor
  · intro hlt
    have hnext : lastbn < factor n level * (lastbn / factor n level + 1) := lt_mul_div_succ _ hf
    have hmul : factor n level * (lastbn / factor n level + 1) ≤ i * factor n level := by
      rw [mul_comm]
      exact mul_le_mul_right _ hlt
    omega
  · intro hlt
    have hmul : (i + 1) * factor n level ≤ lastbn / factor n level * factor n level :=
      mul_le_mul_right _ hlt
    have hdiv := div_mul_le_self lastbn (factor n level)
    rw [succ_mul] at hmul
    omega

/-- The blocks beyond: all that is reached from the pointers behind the last one that is kept, and
some of what is reached from that. -/
theorem cut_split :
    Cut n keep p q ↔ (∃ i, lastbn / factor n level + 1 ≤ i ∧ i < n ∧ Under (child p i) q) ∨
      Cut n keep (child p (lastbn / factor n level)) q := by
  constructor
  · rintro ⟨⟨hunder, hne⟩, hbeyond⟩
    obtain ⟨i, hi, -, hchild⟩ := hunder.cases hq hne
    have hbounds := beyond_child hn hlength hkeep hq hchild
    rcases lt_trichotomy i (lastbn / factor n level) with hlt | rfl | hgt
    · omega
    · refine .inr ⟨⟨hchild, ?_⟩, hbeyond⟩
      rintro rfl
      have hdiv := div_mul_le_self lastbn (factor n level)
      rw [(first_child hlength).1] at hbeyond
      omega
    · exact .inl ⟨i, hgt, hi, hchild⟩
  · rintro (⟨i, hgt, -, hchild⟩ | ⟨⟨hchild, -⟩, hbeyond⟩)
    · exact ⟨hchild.of_child, (beyond_child hn hlength hkeep hq hchild).1 hgt⟩
    · exact ⟨hchild.of_child, hbeyond⟩

end

theorem Under.parent (h : Under p ⟨entry, i :: indices⟩) (hne : (⟨entry, i :: indices⟩ : Place) ≠ p) :
    Under p ⟨entry, indices⟩ := by
  obtain ⟨hentry, hsuffix⟩ := h
  refine ⟨hentry, ?_⟩
  rcases suffix_cons_iff.mp hsuffix with hsame | hrest
  · exact absurd (congrArg₂ Place.mk hentry hsame.symm) hne
  · exact hrest

theorem erased_split (hn : 0 < n) (hlength : p.indices.length + (level + 1) = depth p.entry)
    (hkeep : keep = first n p + lastbn + 1) (hv : Place.Valid n ⟨entry, i :: indices⟩)
    (hnot : ¬ Cut n keep p ⟨entry, indices⟩) :
    Cut n keep p ⟨entry, i :: indices⟩ ↔ Behind p (lastbn / factor n level) ⟨entry, i :: indices⟩ ∨
      Cut n keep (child p (lastbn / factor n level)) ⟨entry, i :: indices⟩ := by
  rw [cut_split hn hlength hkeep hv]
  constructor
  · rintro (⟨j, hgt, hj, hunder⟩ | hcut)
    · by_cases heq : (⟨entry, i :: indices⟩ : Place) = child p j
      · exact .inl ⟨j, hgt, heq⟩
      · refine absurd ((cut_split hn hlength hkeep hv.tail).mpr (.inl ⟨j, hgt, hj, ?_⟩)) hnot
        exact hunder.parent heq
    · exact .inr hcut
  · rintro (⟨j, hgt, heq⟩ | hcut)
    · rw [heq] at hv ⊢
      exact .inl ⟨j, hgt, hv.indices j (.head _), Under.refl _⟩
    · exact .inr hcut

theorem Trims.partLoop (hs : Sound n ip) (h : Trims n ip Z F x) (hv : p.Valid n) (hne : node ip p ≠ 0)
    (hlength : p.indices.length < depth p.entry) (hF : ∀ q, Under p q → ¬ F q)
    (hZ : ∀ q, Under p q → q ≠ p → ¬ Z q) (hlast : last < n)
    (hsub : Clears n ip p (fun q => Z q ∨ Behind p last q) sub) :
    Trims n ip (fun q => Z q ∨ Behind p last q)
      (fun q => F q ∨ ∃ i, last + 1 ≤ i ∧ i < n ∧ Under (child p i) q)
      (Tree.unused sub (x.fs.block (node ip p)) (last + 1) (n - (last + 1))
        (Tree.rewrite n (node ip p) last x)) := by
  have hrest : last + 1 + (n - (last + 1)) = n := by omega
  have hloop : Trims n ip _ _ (Tree.unused sub (x.fs.block (node ip p)) (last + 1) (n - (last + 1))
      (Tree.rewrite n (node ip p) last x)) :=
    Trims.unused hs hv hlength (fun i hi => h.ptr_child hv hlength hne (hF p (Under.refl p)) hZ hi) hsub
      (h.rewrite hs hv hne (hF p (Under.refl p))) (by omega)
      fun i _ _ q hunder => hF q hunder.of_child.1
  rw [hrest] at hloop
  exact hloop

theorem toNat_succ (last : Nat) : ((last : Int) + 1).toNat = last + 1 := by omega

/-- An indirect block that is kept in part. -/
theorem Trims.part (hs : Sound n ip) (h : Trims n ip Z F x) (hv : p.Valid n) (hne : node ip p ≠ 0)
    (hlength : p.indices.length + (level + 1) = depth p.entry) (hF : ∀ q, Under p q → ¬ F q)
    (hZ : ∀ q, Under p q → q ≠ p → ¬ Z q) (hlast : lastbn < factor n (level + 1))
    (hkeep : keep = first n p + lastbn + 1) :
    Trims n ip (fun q => Z q ∨ Cut n keep p q) (fun q => F q ∨ Cut n keep p q)
      (s5indirtrunc n level (node ip p) lastbn x) := by
  induction level generalizing p lastbn Z F x with
  | zero =>
    have hn : 0 < n := by
      rw [factor, factor, one_mul] at hlast
      omega
    have hmax : lastbn / factor n 0 < n := by
      rw [factor, Nat.div_one]
      rw [factor, factor, one_mul] at hlast
      exact hlast
    have hleaf : ∀ q : Place, q.Valid n → ¬ Cut n keep (child p (lastbn / factor n 0)) q :=
      fun q hq hcut => hcut.1.2 (hcut.1.1.leaf hq hlength)
    rw [s5indirtrunc, lastIndex_nat, toNat_succ]
    refine (h.partLoop hs hv hne (by omega) hF hZ hmax (clears_data hlength)).congr
      (fun q hq _ => ?_) fun entry i indices hq _ hnot => ?_
    · rw [cut_split hn hlength hkeep hq]
      exact or_congr_right (or_iff_left (hleaf q hq))
    · rw [erased_split hn hlength hkeep hq fun hcut => hnot (.inr hcut)]
      exact or_congr_right (or_iff_left (hleaf _ hq))
  | succ level ih =>
    have hn : 0 < n := by
      rcases Nat.eq_zero_or_pos n with rfl | hpos
      · rw [factor, Nat.mul_zero] at hlast
        omega
      · exact hpos
    have hf : 0 < factor n (level + 1) := factor_pos hn _
    have hmax : lastbn / factor n (level + 1) < n := Nat.div_lt_of_lt_mul hlast
    have hshort : p.indices.length < depth p.entry := by omega
    have hbehind : ∀ {last i : Nat} {q : Place}, Under (child p i) q → q ≠ child p i →
        ¬ (Z q ∨ Behind p last q) := by
      rintro last i q hunder hneq (hz | ⟨j, -, rfl⟩)
      · exact hZ q hunder.of_child.1 hunder.of_child.2 hz
      · rw [hunder.child_inj (Under.refl _)] at hneq
        exact hneq rfl
    have hclears : Clears n ip p (fun q => Z q ∨ Behind p (lastbn / factor n (level + 1)) q)
        (fun bn x => s5indirtrunc n level bn (-1) x) := by
      intro i hi hnode F' x' h' hF'
      refine h'.whole hs (Place.Valid.cons hv hi hshort) hnode ?_ hF' fun q => hbehind
      rw [child, length_cons]
      dsimp only
      omega
    have hloop := h.partLoop hs hv hne hshort hF hZ hmax hclears
    have hindex : (if ((lastbn / factor n (level + 1) : Nat) : Int) < (n : Int) - 1 then
        ((lastbn / factor n (level + 1) : Nat) : Int).toNat else n - 1) =
        lastbn / factor n (level + 1) := by
      split_ifs
      · rfl
      · omega
    rw [s5indirtrunc, lastIndex_nat, toNat_succ]
    dsimp only
    rw [if_pos (Int.natCast_nonneg lastbn), hindex,
      h.ptr_child hv hshort hne (hF p (Under.refl p)) hZ hmax]
    by_cases hnode : node ip (child p (lastbn / factor n (level + 1))) = 0
    · rw [if_neg (not_not.mpr hnode)]
      refine hloop.congr (fun q hq hqne => ?_) fun entry i indices hq hqne hnot => ?_
      · rw [cut_split hn hlength hkeep hq]
        exact or_congr_right (or_iff_left fun hcut => hqne (hcut.1.1.hole hnode))
      · rw [erased_split hn hlength hkeep hq fun hcut => hnot (.inr hcut)]
        exact or_congr_right (or_iff_left fun hcut =>
          hqne ((hcut.1.1.parent hcut.1.2).hole hnode))
    rw [if_pos hnode]
    have hchild : (child p (lastbn / factor n (level + 1))).Valid n := Place.Valid.cons hv hmax hshort
    have hlower : (child p (lastbn / factor n (level + 1))).indices.length + (level + 1) =
        depth (child p (lastbn / factor n (level + 1))).entry := by
      rw [child, length_cons]
      dsimp only
      omega
    have hbound : keep = first n (child p (lastbn / factor n (level + 1))) +
        lastbn % factor n (level + 1) + 1 := by
      have hdiv := Nat.div_add_mod lastbn (factor n (level + 1))
      rw [(first_child hlength).1, mul_comm]
      omega
    refine (ih hloop hchild hnode hlower ?_ (fun q => hbehind) (Nat.mod_lt _ hf) hbound).congr
      (fun q hq _ => ?_) fun entry i indices hq _ hnot => ?_
    · rintro q hunder (hf | ⟨i, hlow, -, hother⟩)
      · exact hF q hunder.of_child.1 hf
      · have heq := hunder.child_inj hother
        omega
    · rw [cut_split hn hlength hkeep hq, or_assoc]
    · rw [erased_split hn hlength hkeep hq fun hcut => hnot (.inr hcut), or_assoc]

end Svr42.S5.Tree
