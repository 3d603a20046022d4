import Svr42.LvlWords

/-! `turnon_cat` and `adjust_lvl`: the categories that are turned on, packed. -/

namespace Svr42.Lvl
open Bool List Nat Option

variable {lvl cur orig : MacLevel} {c i j k w todo : Nat} {cats : List Nat}

/-! ### Categories turned on -/

/-- The level before it is packed: word `w` has the categories from `1 + w * 32` on. -/
structure Raised (lvl : MacLevel) (cats : List Nat) : Prop where
  bits : ∀ w i, i < 32 → (bit (lvl.lvlCat w) i = true ↔ 1 + w * 32 + i ∈ cats)
  sig : ∀ w, lvl.lvlCatsig w ≠ 0 ↔ lvl.lvlCat w ≠ 0
  range : ∀ c ∈ cats, 1 ≤ c ∧ c ≤ MAXCATS

theorem raised_noCats (classnum : Nat) : Raised (noCats classnum) [] := by
  refine ⟨fun w i _ => ?_, fun w => ?_, nofun⟩
  · refine iff_of_false (fun h => ?_) not_mem_nil
    rw [bit, noCats, show BitVec.getLsbD 0 (31 - i) = false from BitVec.getLsbD_zero] at h
    exact false_ne_true h
  · exact iff_of_false (fun h => h rfl) fun h => h rfl

theorem catindex_eq : (c - 1) >>> LONG_SHIFT = (c - 1) / 32 := by
  rw [LONG_SHIFT, shiftRight_eq_div_pow]

theorem catbit_eq : (c - 1) &&& (NB_LONG - 1) = (c - 1) % 32 :=
  and_two_pow_sub_one_eq_mod (c - 1) 5

theorem Raised.again (h : Raised lvl cats) (hc : c ∈ cats) : turnonCat c lvl = none := by
  have hrange := h.range c hc
  have hbit : bit (lvl.lvlCat ((c - 1) / 32)) ((c - 1) % 32) = true := by
    rw [h.bits _ _ (mod_lt _ (by decide)), show 1 + (c - 1) / 32 * 32 + (c - 1) % 32 = c by omega]
    exact hc
  rw [turnonCat, catindex_eq, catbit_eq, if_pos ((and_catmask (mod_lt _ (by decide))).mpr hbit)]

theorem Raised.turnonCat (h : Raised lvl cats) (hc : c ∉ cats) (hlow : 1 ≤ c) (hhigh : c ≤ MAXCATS) :
    ∃ lvl', turnonCat c lvl = some lvl' ∧ Raised lvl' (c :: cats) ∧ lvl'.lvlClass = lvl.lvlClass := by
  have hi : (c - 1) % 32 < 32 := mod_lt _ (by decide)
  have hbit : ¬ bit (lvl.lvlCat ((c - 1) / 32)) ((c - 1) % 32) = true := by
    rw [h.bits _ _ hi, show 1 + (c - 1) / 32 * 32 + (c - 1) % 32 = c by omega]
    exact hc
  rw [Lvl.turnonCat, catindex_eq, catbit_eq, if_neg ((and_catmask hi).not.mpr hbit)]
  refine ⟨_, rfl, ⟨fun w i hiw => ?_, fun w => ?_, ?_⟩, rfl⟩
  · dsimp only
    by_cases hw : w = (c - 1) / 32
    · rw [if_pos hw, or_catmask hi hiw, or_eq_true, h.bits w i hiw, decide_eq_true_eq, mem_cons]
      constructor
      · rintro (hin | heq)
        · exact .inr hin
        · exact .inl (by omega)
      · rintro (heq | hin)
        · exact .inr (by omega)
        · exact .inl hin
    · rw [if_neg hw, h.bits w i hiw, mem_cons]
      exact ⟨.inr, fun hor => hor.resolve_left fun heq => hw (by omega)⟩
  · dsimp only
    by_cases hw : w = (c - 1) / 32
    · rw [if_pos hw, if_pos hw]
      refine iff_of_true Nat.one_ne_zero fun hzero => ?_
      have hset := @or_catmask (lvl.lvlCat w) _ _ hi hi
      rw [hzero, decide_eq_true rfl, Bool.or_true, bit,
        show BitVec.getLsbD 0 (31 - (c - 1) % 32) = false from BitVec.getLsbD_zero] at hset
      exact false_ne_true hset
    · rw [if_neg hw, if_neg hw]
      exact h.sig w
  · intro d hd
    rcases mem_cons.mp hd with rfl | hin
    · exact ⟨hlow, hhigh⟩
    · exact h.range d hin

def turnonEach : List Nat → MacLevel → Option MacLevel
  | [], lvl => some lvl
  | c :: cats, lvl => (turnonCat c lvl).bind (turnonEach cats)

theorem Raised.turnonEach (h : Raised lvl cats) {more : List Nat}
    (hmore : ∀ c ∈ more, 1 ≤ c ∧ c ≤ MAXCATS) (hcats : cats.Nodup) :
    ((more.reverse ++ cats).Nodup → ∃ lvl', turnonEach more lvl = some lvl' ∧
      Raised lvl' (more.reverse ++ cats) ∧ lvl'.lvlClass = lvl.lvlClass) ∧
    (¬ (more.reverse ++ cats).Nodup → turnonEach more lvl = none) := by
  induction more generalizing lvl cats with
  | nil => exact ⟨fun _ => ⟨lvl, rfl, h, rfl⟩, fun hnot => absurd hcats hnot⟩
  | cons c more ih =>
    have hmore' := fun d hd => hmore d (.tail c hd)
    have hrange := hmore c (.head _)
    rw [reverse_cons, append_assoc, singleton_append, Lvl.turnonEach]
    by_cases hc : c ∈ cats
    · rw [h.again hc, bind_none]
      refine ⟨fun hnodup => ?_, fun _ => rfl⟩
      exact absurd hc (nodup_cons.mp (nodup_append.mp hnodup).2.1).1
    · obtain ⟨lvl', hrun, hraised, hclass⟩ := h.turnonCat hc hrange.1 hrange.2
      rw [hrun, bind_some, ← hclass]
      exact ih hraised hmore' (nodup_cons.mpr ⟨hc, hcats⟩)

theorem turnonAll_eq (h : Raised lvl cats) (hlow : 1 ≤ c) (hhigh : c + todo ≤ MAXCATS + 1)
    (hbelow : ∀ d ∈ cats, d < c) : Raised (turnonAll todo c lvl) ((List.range' c todo).reverse ++ cats) ∧
      (turnonAll todo c lvl).lvlClass = lvl.lvlClass := by
  induction todo generalizing c lvl cats with
  | zero => exact ⟨h, rfl⟩
  | succ todo ih =>
    obtain ⟨lvl', hrun, hraised, hclass⟩ :=
      h.turnonCat (fun hc => Nat.lt_irrefl c (hbelow c hc)) hlow (by omega)
    rw [turnonAll, hrun, getD_some, List.range'_succ, reverse_cons, append_assoc,
      singleton_append, ← hclass]
    refine ih hraised (by omega) (by omega) fun d hd => ?_
    rcases mem_cons.mp hd with rfl | hin
    · omega
    · exact lt_succ_of_lt (hbelow d hin)

/-! ### Packing -/

/-- The words before `i` are packed into `j` words, the others are as they were. -/
structure Compacted (orig cur : MacLevel) (i j : Nat) : Prop where
  le : j ≤ i
  ahead : ∀ k, i ≤ k → cur.lvlCat k = orig.lvlCat k ∧ cur.lvlCatsig k = orig.lvlCatsig k
  kept : ∀ k, k < j → 0 < cur.lvlCatsig k ∧ cur.lvlCatsig k ≤ i ∧
    cur.lvlCat k = orig.lvlCat (cur.lvlCatsig k - 1) ∧ cur.lvlCat k ≠ 0
  mono : ∀ a b, a < b → b < j → cur.lvlCatsig a < cur.lvlCatsig b
  all : ∀ w, w < i → orig.lvlCat w ≠ 0 → ∃ k, k < j ∧ cur.lvlCatsig k = w + 1

theorem compacted_start (orig : MacLevel) : Compacted orig orig 0 0 :=
  ⟨Nat.le_refl 0, fun _ _ => ⟨rfl, rfl⟩, fun k hk => absurd hk (not_lt_zero k),
    fun _ b _ hb => absurd hb (not_lt_zero b), fun w hw => absurd hw (not_lt_zero w)⟩

theorem compact_spec (h : Compacted orig cur i j)
    (hsig : ∀ w, orig.lvlCatsig w ≠ 0 ↔ orig.lvlCat w ≠ 0) :
    Compacted orig (compact todo i j cur).1 (i + todo) (compact todo i j cur).2 ∧
      (compact todo i j cur).1.lvlClass = cur.lvlClass := by
  induction todo generalizing i j cur with
  | zero => exact ⟨h, rfl⟩
  | succ todo ih =>
    have hle := h.le
    obtain ⟨hcat, hcatsig⟩ := h.ahead i (Nat.le_refl i)
    rw [compact, show i + (todo + 1) = i + 1 + todo by omega]
    split_ifs with hin
    · have hnonzero : cur.lvlCat i ≠ 0 := by
        rw [hcat]
        rw [hcatsig] at hin
        exact (hsig i).mp hin
      refine ih ⟨by omega, fun k hk => ?_, fun k hk => ?_, fun a b hab hb => ?_, fun w hw hne => ?_⟩
      · dsimp only
        rw [if_neg (show k ≠ j by omega), if_neg (show k ≠ j by omega)]
        exact h.ahead k (by omega)
      · dsimp only
        rcases Nat.lt_succ_iff_lt_or_eq.mp hk with hlt | rfl
        · rw [if_neg (Nat.ne_of_lt hlt), if_neg (Nat.ne_of_lt hlt)]
          obtain ⟨hpos, hend, hkept⟩ := h.kept k hlt
          exact ⟨hpos, Nat.le_succ_of_le hend, hkept⟩
        · rw [if_pos rfl, if_pos rfl, Nat.add_sub_cancel]
          exact ⟨Nat.succ_pos i, Nat.le_refl _, hcat, hnonzero⟩
      · dsimp only
        rw [if_neg (show a ≠ j by omega)]
        rcases Nat.lt_succ_iff_lt_or_eq.mp hb with hlt | rfl
        · rw [if_neg (Nat.ne_of_lt hlt)]
          exact h.mono a b hab hlt
        · rw [if_pos rfl]
          exact Nat.lt_succ_of_le (h.kept a hab).2.1
      · dsimp only
        rcases Nat.lt_succ_iff_lt_or_eq.mp hw with hlt | rfl
        · obtain ⟨k, hk, heq⟩ := h.all w hlt hne
          exact ⟨k, Nat.lt_succ_of_lt hk, by rw [if_neg (Nat.ne_of_lt hk)]; exact heq⟩
        · exact ⟨j, Nat.lt_succ_self j, if_pos rfl⟩
    · refine ih ⟨by omega, fun k hk => h.ahead k (by omega), fun k hk => ?_, h.mono, fun w hw hne => ?_⟩
      · obtain ⟨hpos, hend, hkept⟩ := h.kept k hk
        exact ⟨hpos, Nat.le_succ_of_le hend, hkept⟩
      · rcases Nat.lt_succ_iff_lt_or_eq.mp hw with hlt | rfl
        · exact h.all w hlt hne
        · rw [hcatsig] at hin
          exact absurd ((hsig w).mpr hne) hin

theorem zeroRest_spec : (zeroRest todo j lvl).lvlClass = lvl.lvlClass ∧ ∀ k,
    (zeroRest todo j lvl).lvlCatsig k = (if j ≤ k ∧ k < j + todo then 0 else lvl.lvlCatsig k) ∧
      (zeroRest todo j lvl).lvlCat k = (if j ≤ k ∧ k < j + todo then 0 else lvl.lvlCat k) := by
  induction todo generalizing j lvl with
  | zero =>
    refine ⟨rfl, fun k => ?_⟩
    rw [if_neg (by omega), if_neg (by omega)]
    exact ⟨rfl, rfl⟩
  | succ todo ih =>
    rw [zeroRest]
    refine ⟨ih.1, fun k => ?_⟩
    rw [(ih.2 k).1, (ih.2 k).2]
    dsimp only
    split_ifs
    all_goals first
      | exact ⟨rfl, rfl⟩
      | omega

/-- The categories that were turned on are those of the adjusted level. -/
theorem Raised.adjustLvl (h : Raised lvl cats) : ∃ m, Packed (adjustLvl lvl) m ∧
    (∀ c, c ∈ categories (Lvl.adjustLvl lvl) ↔ c ∈ cats) ∧
      (Lvl.adjustLvl lvl).lvlClass = lvl.lvlClass := by
  obtain ⟨hcompacted, hclass⟩ := @compact_spec lvl lvl 0 0 CAT_SIZE (compacted_start lvl) h.sig
  rw [Nat.zero_add] at hcompacted
  rw [Lvl.adjustLvl]
  revert hcompacted hclass
  generalize compact CAT_SIZE 0 0 lvl = r
  intro hcompacted hclass
  have hle := hcompacted.le
  obtain ⟨hclass', hrest⟩ := @zeroRest_spec r.1 r.2 (CAT_SIZE - r.2)
  -- no category is beyond the last word
  have hbeyond : lvl.lvlCatsig CAT_SIZE = 0 := by
    by_contra hne
    obtain ⟨i, hi, hbit⟩ := exists_bit ((h.sig CAT_SIZE).mp hne)
    have hrange := h.range _ ((h.bits CAT_SIZE i hi).mp hbit)
    unfold CAT_SIZE MAXCATS at hrange
    omega
  have hpacked : Packed (zeroRest (CAT_SIZE - r.2) r.2 r.1) r.2 := by
    refine ⟨hle, fun j hj => ?_, fun i j hij hj => ?_, fun j hj hend => ?_, fun j hj hend => ?_⟩
    · rw [(hrest j).1, (hrest j).2, if_neg (by omega), if_neg (by omega)]
      obtain ⟨hpos, hend, -, hne⟩ := hcompacted.kept j hj
      exact ⟨hpos, hend, hne⟩
    · rw [(hrest i).1, (hrest j).1, if_neg (by omega), if_neg (by omega)]
      exact hcompacted.mono i j hij hj
    · rw [(hrest j).1]
      rcases Nat.eq_or_lt_of_le hend with rfl | hlt
      · rw [if_neg (by omega), (hcompacted.ahead _ (Nat.le_refl _)).2]
        exact hbeyond
      · rw [if_pos (by omega)]
    · rw [(hrest j).2, if_pos (by omega)]
  refine ⟨r.2, hpacked, fun c => ?_, hclass'.trans hclass⟩
  rw [hpacked.mem_categories]
  constructor
  · rintro ⟨j, i, hj, hi, hbit, rfl⟩
    rw [(hrest j).2, if_neg (by omega), (hcompacted.kept j hj).2.2.1] at hbit
    rw [(hrest j).1, if_neg (by omega)]
    exact (h.bits _ i hi).mp hbit
  · intro hc
    have hrange := h.range c hc
    unfold MAXCATS at hrange
    have hsplit : 1 + (c - 1) / 32 * 32 + (c - 1) % 32 = c := by omega
    have hbit := (h.bits ((c - 1) / 32) ((c - 1) % 32) (Nat.mod_lt _ (by decide))).mpr
      (by rw [hsplit]; exact hc)
    have hne : lvl.lvlCat ((c - 1) / 32) ≠ 0 := by
      intro hzero
      rw [hzero, bit, show BitVec.getLsbD 0 (31 - (c - 1) % 32) = false from BitVec.getLsbD_zero] at hbit
      exact false_ne_true hbit
    obtain ⟨k, hk, heq⟩ := hcompacted.all ((c - 1) / 32) (by unfold CAT_SIZE; omega) hne
    refine ⟨k, (c - 1) % 32, hk, Nat.mod_lt _ (by decide), ?_, ?_⟩
    · rw [(hrest k).2, if_neg (by omega), (hcompacted.kept k hk).2.2.1, heq, Nat.add_sub_cancel]
      exact hbit
    · rw [(hrest k).1, if_neg (by omega), heq, Nat.add_sub_cancel]
      exact hsplit.symm

end Svr42.Lvl
