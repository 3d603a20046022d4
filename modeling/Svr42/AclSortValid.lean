import Mathlib.Data.List.Forall2
import Svr42.AclSortChecks

/-! What `aclsort` answers, and what it leaves. -/

namespace Svr42.AclSort
open List

variable {calclass : Bool} {acls pre rest : List Acl} {e x y : Acl} {c c' : Counts} {t : Int32}
  {pos : Nat} {perms : UInt16}

def Kept (calclass : Bool) (perms : UInt16) (e e' : Acl) : Prop :=
  e'.aType = e.aType ∧ e'.aId = e.aId ∧
    (e'.aPerm = e.aPerm ∨ calclass = true ∧ e.aType = CLASS_OBJ ∧ e'.aPerm = perms)

theorem kept_refl : Kept calclass perms e e := ⟨rfl, rfl, .inl rfl⟩

theorem classPermsOf_rest (h : ∀ x ∈ rest, ¬ (x.aType = USER ∨ x.aType = GROUP_OBJ ∨ x.aType = GROUP)) :
    classPermsOf (pre ++ rest) = classPermsOf pre := by
  induction rest generalizing pre with
  | nil => rw [append_nil]
  | cons e rest ih =>
    rw [append_cons, ih fun x hx => h x (.tail e hx), classPermsOf_append, if_neg (h e (.head _))]

theorem class_last (hsorted : (pre ++ e :: rest).Pairwise fun x y => ¬ Before y x) (hclass : e.aType = CLASS_OBJ) :
    classPermsOf (pre ++ e :: rest) = classPermsOf pre := by
  refine classPermsOf_rest fun x hx => ?_
  have hclass' : e.aType.toInt = 16 := by
    rw [hclass]
    rfl
  have hge : 16 ≤ x.aType.toInt := by
    rcases mem_cons.mp hx with rfl | hin
    · omega
    · have hle := not_before.mp (rel_of_pairwise_cons (pairwise_append.mp hsorted).2.1 hin)
      rw [← Int32.toInt_inj] at hle
      omega
  have hfar : ∀ t : Int32, t.toInt < 16 → x.aType ≠ t := by
    rintro t ht rfl
    omega
  rintro (heq | heq | heq)
  · exact hfar USER (by decide) heq
  · exact hfar GROUP_OBJ (by decide) heq
  · exact hfar GROUP (by decide) heq

theorem Noted.kept (h : Noted calclass pre c)
    (hsorted : (pre ++ e :: rest).Pairwise fun x y => ¬ Before y x) :
    Kept calclass (classPermsOf (pre ++ e :: rest)) e (recalculate calclass c e) := by
  rw [recalculate]
  split_ifs with hclass
  · refine ⟨rfl, rfl, .inr ⟨hclass.1, hclass.2, ?_⟩⟩
    rw [class_last hsorted hclass.2]
    exact h.recalculated hclass.1
  · exact kept_refl

/-- The loop goes to the end, or it finds a type that there is not, or a duplicate. -/
theorem check_spec (h : Noted calclass pre c) (hsorted : (pre ++ rest).Pairwise fun x y => ¬ Before y x)
    (hid : ∀ e ∈ rest, e.aType ∈ idTypes → e.aId ≠ -1) (hdistinct : pre.Pairwise fun x y => ¬ Dup x y) :
    ((∃ c', (check calclass pos c rest).1 = .ok c' ∧ Noted calclass (pre ++ rest) c' ∧
        (∀ e ∈ rest, Known e.aType) ∧ (pre ++ rest).Pairwise fun x y => ¬ Dup x y) ∨
      ((check calclass pos c rest).1 = .error (-1) ∧ ∃ e ∈ rest, ¬ Known e.aType) ∨
      ∃ p e r, rest = p ++ e :: r ∧ (check calclass pos c rest).1 = .error ↑(pos + p.length) ∧
        ∃ x ∈ pre ++ p, Dup x e) ∧
      List.Forall₂ (Kept calclass (classPermsOf (pre ++ rest))) rest (check calclass pos c rest).2 := by
  induction rest generalizing pre c pos with
  | nil =>
    refine ⟨Or.inl ⟨c, rfl, ?_, nofun, ?_⟩, List.Forall₂.nil⟩
    · rw [append_nil]
      exact h
    · rw [append_nil]
      exact hdistinct
  | cons e rest ih =>
    have hsame : ∀ l : List Acl, List.Forall₂ (Kept calclass (classPermsOf (pre ++ e :: rest))) l l := by
      intro l
      exact List.forall₂_same.mpr fun x _ => kept_refl
    rw [check]
    by_cases hknown : Known e.aType
    · have hsorted' : (pre ++ [e]).Pairwise fun x y => ¬ Before y x := by
        rw [append_cons] at hsorted
        exact (pairwise_append.mp hsorted).1
      rcases entry_spec h hsorted' (hid e (.head _)) hknown with ⟨hdup, hentry⟩ | ⟨hnone, hentry⟩
      · rw [hentry]
        obtain ⟨x, hx, hxe⟩ := hdup
        refine ⟨Or.inr (Or.inr ⟨[], e, rest, rfl, rfl, x, ?_, hxe⟩), hsame _⟩
        rw [append_nil]
        exact hx
      rw [hentry]
      have hfirst : e.aType ∈ objTypes → ∀ x ∈ pre, x.aType ≠ e.aType :=
        fun hobj x hx htype => hnone ⟨x, hx, htype, Or.inl hobj⟩
      have hdistinct' : (pre ++ [e]).Pairwise fun x y => ¬ Dup x y := by
        refine pairwise_append.mpr ⟨hdistinct, pairwise_singleton _ e, fun x hx y hy => ?_⟩
        rw [mem_singleton.mp hy]
        exact fun hdup => hnone ⟨x, hx, hdup⟩
      have hkept := h.kept hsorted
      rw [append_cons] at hsorted hkept ⊢
      obtain ⟨hcases, hout⟩ := @ih (pre ++ [e]) (note calclass c e) (pos + 1) (h.note hfirst) hsorted
        (fun x hx => hid x (.tail e hx)) hdistinct'
      refine ⟨?_, List.Forall₂.cons hkept hout⟩
      rcases hcases with ⟨c', hok, hnoted, hall, hpairs⟩ | ⟨herr, x, hx, hunknown⟩ |
        ⟨p, y, r, hsplit, herr, x, hx, hdup⟩
      · refine Or.inl ⟨c', hok, hnoted, fun x hx => ?_, hpairs⟩
        rcases mem_cons.mp hx with rfl | hin
        · exact hknown
        · exact hall x hin
      · exact Or.inr (Or.inl ⟨herr, x, .tail e hx, hunknown⟩)
      · refine Or.inr (Or.inr ⟨e :: p, y, r, by rw [hsplit]; rfl, ?_, x, ?_, hdup⟩)
        · rw [herr, length_cons, Nat.add_assoc, Nat.add_comm 1]
        · rw [append_cons]
          exact hx
    · have hentry : entry calclass c e = .noSuchType := by
        rw [entry, if_neg fun hobj => hknown (Or.inl hobj), if_neg fun hin => hknown (Or.inr hin)]
      rw [hentry]
      exact ⟨Or.inr (Or.inl ⟨rfl, e, .head _, hknown⟩), hsame _⟩

/-! ### Valid lists -/

/-- A list that `aclsort` accepts: entries of the types there are, each mandatory type, no duplicates,
and class entries that go with the entry of the owning group if there are no additional ones. -/
structure Valid (calclass : Bool) (acls : List Acl) : Prop where
  known : ∀ e ∈ acls, Known e.aType
  mandatory : ∀ t ∈ [USER_OBJ, GROUP_OBJ, CLASS_OBJ, OTHER_OBJ], ∃ e ∈ acls, e.aType = t
  distinct : acls.Pairwise fun x y => ¬ Dup x y
  classObj : calclass = false → (∀ e ∈ acls, e.aType ≠ USER ∧ e.aType ≠ GROUP) →
    ∀ g ∈ acls, ∀ k ∈ acls, g.aType = GROUP_OBJ → k.aType = CLASS_OBJ → g.aPerm = k.aPerm
  defClassObj : (∀ e ∈ acls, e.aType ≠ DEF_USER ∧ e.aType ≠ DEF_GROUP) →
    ∀ g ∈ acls, g.aType = DEF_GROUP_OBJ → ∃ k ∈ acls, k.aType = DEF_CLASS_OBJ ∧ g.aPerm = k.aPerm

theorem Valid.perm {acls' : List Acl} (h : Valid calclass acls) (hperm : acls.Perm acls') :
    Valid calclass acls' := by
  have hmem : ∀ {e}, e ∈ acls ↔ e ∈ acls' := hperm.mem_iff
  refine ⟨fun e he => h.known e (hmem.mpr he), fun t ht => ?_, ?_, fun hcalc hnone g hg k hk => ?_,
    fun hnone g hg htype => ?_⟩
  · obtain ⟨e, he, htype⟩ := h.mandatory t ht
    exact ⟨e, hmem.mp he, htype⟩
  · refine (hperm.pairwise_iff ?_).mp h.distinct
    exact fun hnot hdup => hnot hdup.symm
  · exact h.classObj hcalc (fun e he => hnone e (hmem.mp he)) g (hmem.mpr hg) k (hmem.mpr hk)
  · obtain ⟨k, hk, hboth⟩ := h.defClassObj (fun e he => hnone e (hmem.mp he)) g (hmem.mpr hg) htype
    exact ⟨k, hmem.mp hk, hboth⟩

theorem countP_le_one (ht : t ∈ objTypes) (h : acls.Pairwise fun x y => ¬ Dup x y) :
    (acls.countP fun e => e.aType = t) ≤ 1 := by
  induction acls with
  | nil => exact Nat.zero_le 1
  | cons e acls ih =>
    obtain ⟨hfirst, hrest⟩ := pairwise_cons.mp h
    by_cases htype : e.aType = t
    · have hnone : (acls.countP fun e => e.aType = t) = 0 := by
        rw [countP_eq_zero]
        intro x hx hxt
        have hxtype : x.aType = t := by simpa using hxt
        exact hfirst x hx ⟨htype.trans hxtype.symm, .inl (hxtype ▸ ht)⟩
      rw [countP_cons, hnone]
      split_ifs
      · exact Nat.le_refl 1
      · exact Nat.zero_le 1
    · rw [countP_cons_of_neg (by simpa using htype)]
      exact ih hrest

/-- Without additional entries the class has the permissions of the owning group. -/
theorem classPermsOf_group (h : acls.Pairwise fun x y => ¬ Dup x y)
    (hnone : ∀ e ∈ acls, e.aType ≠ USER ∧ e.aType ≠ GROUP) (he : e ∈ acls) (htype : e.aType = GROUP_OBJ) :
    classPermsOf acls = e.aPerm := by
  obtain ⟨p, r, rfl⟩ := append_of_mem he
  have hother : ∀ x ∈ p ++ r, ¬ (x.aType = USER ∨ x.aType = GROUP_OBJ ∨ x.aType = GROUP) := by
    intro x hx
    have hin : x ∈ p ++ e :: r := by
      rcases mem_append.mp hx with hp | hr
      · exact mem_append_left _ hp
      · exact mem_append_right _ (.tail e hr)
    have hdup : x.aType ≠ GROUP_OBJ := by
      intro hx'
      have hsame : Dup x e := ⟨hx'.trans htype.symm, .inl (htype ▸ by decide)⟩
      obtain ⟨-, hr, hp⟩ := pairwise_append.mp h
      rcases mem_append.mp hx with hin' | hin'
      · exact hp x hin' e (.head _) hsame
      · exact (pairwise_cons.mp hr).1 x hin' hsame.symm
    rintro (hx' | hx' | hx')
    · exact (hnone x hin).1 hx'
    · exact hdup hx'
    · exact (hnone x hin).2 hx'
  have hp : classPermsOf ([] ++ p) = classPermsOf [] :=
    classPermsOf_rest fun x hx => hother x (mem_append_left r hx)
  rw [nil_append] at hp
  rw [append_cons, classPermsOf_rest fun x hx => hother x (mem_append_right p hx), classPermsOf_append,
    if_pos (.inr (.inl htype)), hp]
  exact UInt16.zero_or

section

variable (h : Noted calclass acls c)
include h

theorem Noted.count_ne_zero : c.count t ≠ 0 ↔ ∃ e ∈ acls, e.aType = t := by
  rw [ne_eq, h.count_zero]
  simp

theorem Noted.none_of {t' : Int32} : c.count t + c.count t' = 0 ↔
    ∀ e ∈ acls, e.aType ≠ t ∧ e.aType ≠ t' := by
  rw [Nat.add_eq_zero_iff, h.count_zero, h.count_zero]
  exact ⟨fun hboth e he => ⟨hboth.1 e he, hboth.2 e he⟩,
    fun hnone => ⟨fun e he => (hnone e he).1, fun e he => (hnone e he).2⟩⟩

theorem Noted.class_iff (hdistinct : acls.Pairwise fun x y => ¬ Dup x y)
    (hgroup : ∃ e ∈ acls, e.aType = GROUP_OBJ) (hclass : ∃ e ∈ acls, e.aType = CLASS_OBJ) :
    ¬ (c.count USER + c.count GROUP = 0 ∧ c.groupPerms ≠ c.classPerms) ↔
      (calclass = false → (∀ e ∈ acls, e.aType ≠ USER ∧ e.aType ≠ GROUP) →
        ∀ g ∈ acls, ∀ k ∈ acls, g.aType = GROUP_OBJ → k.aType = CLASS_OBJ → g.aPerm = k.aPerm) := by
  rw [h.none_of]
  constructor
  · intro hnot hcalc hnone g hg k hk hgt hkt
    rw [← h.groupPerms g hg hgt, ← h.classPerms hcalc k hk hkt]
    by_contra hne
    exact hnot ⟨hnone, hne⟩
  · rintro hall ⟨hnone, hne⟩
    obtain ⟨g, hg, hgt⟩ := hgroup
    obtain ⟨k, hk, hkt⟩ := hclass
    apply hne
    rw [h.groupPerms g hg hgt]
    by_cases hcalc : calclass = true
    · rw [h.recalculated hcalc, classPermsOf_group hdistinct hnone hg hgt]
    · have hfalse : calclass = false := Bool.not_eq_true _ ▸ hcalc
      rw [h.classPerms hfalse k hk hkt]
      exact hall hfalse hnone g hg k hk hgt hkt

theorem Noted.default_iff : (c.count DEF_GROUP_OBJ ≠ 0 ∧ c.count DEF_USER + c.count DEF_GROUP = 0 →
        c.count DEF_CLASS_OBJ ≠ 0 ∧ c.defGroupPerms = c.defClassPerms) ↔
      ((∀ e ∈ acls, e.aType ≠ DEF_USER ∧ e.aType ≠ DEF_GROUP) →
        ∀ g ∈ acls, g.aType = DEF_GROUP_OBJ →
          ∃ k ∈ acls, k.aType = DEF_CLASS_OBJ ∧ g.aPerm = k.aPerm) := by
  rw [h.none_of, h.count_ne_zero, h.count_ne_zero]
  constructor
  · intro himp hnone g hg hgt
    obtain ⟨⟨k, hk, hkt⟩, heq⟩ := himp ⟨⟨g, hg, hgt⟩, hnone⟩
    refine ⟨k, hk, hkt, ?_⟩
    rw [← h.defGroupPerms g hg hgt, ← h.defClassPerms k hk hkt]
    exact heq
  · rintro hall ⟨⟨g, hg, hgt⟩, hnone⟩
    obtain ⟨k, hk, hkt, heq⟩ := hall hnone g hg hgt
    refine ⟨⟨k, hk, hkt⟩, ?_⟩
    rw [h.defGroupPerms g hg hgt, h.defClassPerms k hk hkt]
    exact heq

end

theorem conclude_cases : (conclude c = 0 ∨ conclude c = -1) ∧ (conclude c = 0 ↔
      c.count USER_OBJ + c.count GROUP_OBJ + c.count CLASS_OBJ + c.count OTHER_OBJ = NACLBASE ∧
        ¬ (c.count USER + c.count GROUP = 0 ∧ c.groupPerms ≠ c.classPerms) ∧
        (c.count DEF_GROUP_OBJ ≠ 0 ∧ c.count DEF_USER + c.count DEF_GROUP = 0 →
          c.count DEF_CLASS_OBJ ≠ 0 ∧ c.defGroupPerms = c.defClassPerms)) := by
  rw [conclude]
  split_ifs <;> simp_all

theorem conclude_spec (h : Noted calclass acls c) (hknown : ∀ e ∈ acls, Known e.aType)
    (hdistinct : acls.Pairwise fun x y => ¬ Dup x y) : conclude c = 0 ↔ Valid calclass acls := by
  have hle : ∀ {t}, t ∈ objTypes → c.count t ≤ 1 := by
    intro t ht
    rw [h.count]
    exact countP_le_one ht hdistinct
  have huser : c.count USER_OBJ ≤ 1 := hle (by decide)
  have hgroup : c.count GROUP_OBJ ≤ 1 := hle (by decide)
  have hclass : c.count CLASS_OBJ ≤ 1 := hle (by decide)
  have hother : c.count OTHER_OBJ ≤ 1 := hle (by decide)
  rw [conclude_cases.2, h.default_iff]
  constructor
  · rintro ⟨hsum, hclassPerms, hdefault⟩
    unfold NACLBASE at hsum
    have hpresent : ∀ t ∈ [USER_OBJ, GROUP_OBJ, CLASS_OBJ, OTHER_OBJ], ∃ e ∈ acls, e.aType = t := by
      simp only [forall_mem_cons, ← h.count_ne_zero]
      exact ⟨by omega, by omega, by omega, by omega, nofun⟩
    rw [h.class_iff hdistinct (hpresent _ (by decide)) (hpresent _ (by decide))] at hclassPerms
    exact ⟨hknown, hpresent, hdistinct, hclassPerms, hdefault⟩
  · intro hvalid
    have hone : ∀ t ∈ [USER_OBJ, GROUP_OBJ, CLASS_OBJ, OTHER_OBJ], c.count t ≠ 0 :=
      fun t ht => h.count_ne_zero.mpr (hvalid.mandatory t ht)
    simp only [forall_mem_cons] at hone
    refine ⟨?_, ?_, hvalid.defClassObj⟩
    · unfold NACLBASE
      omega
    · rw [h.class_iff hdistinct (hvalid.mandatory _ (by decide)) (hvalid.mandatory _ (by decide))]
      exact hvalid.classObj

/-! ### The answer -/

def NoSentinel (acls : List Acl) : Prop := ∀ e ∈ acls, e.aType ∈ idTypes → e.aId ≠ -1

def DuplicateAt (acls : List Acl) (k : Nat) : Prop :=
  ∃ j x e, j < k ∧ acls[j]? = some x ∧ acls[k]? = some e ∧ Dup x e

theorem kept_at {s out : List Acl} (h : List.Forall₂ (Kept calclass perms) s out) {k : Nat}
    (hk : s[k]? = some e) : ∃ e', out[k]? = some e' ∧ Kept calclass perms e e' := by
  induction h generalizing k with
  | nil => cases hk
  | @cons x x' s out hx _ ih =>
    cases k with
    | zero =>
      obtain rfl := Option.some.inj hk
      exact ⟨x', rfl, hx⟩
    | succ k => exact ih hk

theorem duplicateAt_kept {p r out : List Acl} (hx : x ∈ p) (hdup : Dup x e)
    (h : List.Forall₂ (Kept calclass perms) (p ++ e :: r) out) : DuplicateAt out p.length := by
  obtain ⟨j, hj⟩ := mem_iff_getElem?.mp hx
  have hlt : j < p.length := (List.getElem?_eq_some_iff.mp hj).1
  have hj' : (p ++ e :: r)[j]? = some x := by
    rw [List.getElem?_append_left hlt]
    exact hj
  have hp : (p ++ e :: r)[p.length]? = some e := by simp
  obtain ⟨x', hx', hkept⟩ := kept_at h hj'
  obtain ⟨e', he', hkept'⟩ := kept_at h hp
  refine ⟨j, x', e', hlt, hx', he', ?_⟩
  obtain ⟨htype, hor⟩ := hdup
  rw [Dup, hkept.1, hkept.2.1, hkept'.1, hkept'.2.1]
  exact ⟨htype, hor⟩

/-- What `aclsort` answers and leaves. -/
theorem aclsort_valid (calclass : Bool) (acls : List Acl) (hid : NoSentinel acls) (hfits : Fits acls) :
    ((aclsort calclass acls).1 = 0 ↔ Valid calclass acls) ∧
      ((aclsort calclass acls).1 ≠ 0 → (aclsort calclass acls).1 = -1 ∨
        ∃ k : Nat, 0 < k ∧ (aclsort calclass acls).1 = k ∧ DuplicateAt (aclsort calclass acls).2 k) ∧
      ∃ sorted, sorted.Perm acls ∧ (sorted.Pairwise fun x y => ¬ Before y x) ∧
        List.Forall₂ (Kept calclass (classPermsOf acls)) sorted (aclsort calclass acls).2 := by
  obtain ⟨hperm, hsorted⟩ := isort_spec hfits
  have hspec := @check_spec calclass [] (isort acls) counts 0 noted_nil hsorted
    (fun e he => hid e (hperm.subset he)) List.Pairwise.nil
  rw [nil_append, classPermsOf_perm hperm] at hspec
  rw [aclsort]
  generalize check calclass 0 counts (isort acls) = r at hspec
  obtain ⟨answer, out⟩ := r
  obtain ⟨hcases, hout⟩ := hspec
  have hleft : ∃ sorted, sorted.Perm acls ∧ (sorted.Pairwise fun x y => ¬ Before y x) ∧
      List.Forall₂ (Kept calclass (classPermsOf acls)) sorted out := ⟨isort acls, hperm, hsorted, hout⟩
  rcases hcases with ⟨c, rfl, hnoted, hknown, hdistinct⟩ | ⟨rfl, e, he, hunknown⟩ |
    ⟨p, e, r, hsplit, rfl, x, hx, hdup⟩
  · have hvalid : Valid calclass (isort acls) ↔ Valid calclass acls :=
      ⟨fun h => h.perm hperm, fun h => h.perm hperm.symm⟩
    refine ⟨(conclude_spec hnoted hknown hdistinct).trans hvalid, fun hne => Or.inl ?_, hleft⟩
    exact conclude_cases.1.resolve_left hne
  · have hne : (-1 : Int) ≠ 0 := by decide
    refine ⟨iff_of_false hne fun hvalid => ?_, fun _ => Or.inl rfl, hleft⟩
    exact hunknown (hvalid.known e (hperm.subset he))
  · have hpos : 0 < p.length := length_pos_of_mem hx
    dsimp only
    rw [Nat.zero_add]
    refine ⟨iff_of_false (by omega) fun hvalid => ?_, fun _ => Or.inr ⟨p.length, hpos, rfl, ?_⟩, hleft⟩
    · have hdistinct := (hvalid.perm hperm.symm).distinct
      rw [hsplit] at hdistinct
      exact (pairwise_append.mp hdistinct).2.2 x hx e (.head _) hdup
    · rw [hsplit] at hout
      exact duplicateAt_kept hx hdup hout

instance : Decidable (Dup x e) := inferInstanceAs (Decidable (_ ∧ _))

def sample : List Acl :=
  [⟨OTHER_OBJ, 0, 4⟩, ⟨USER, 7, 6⟩, ⟨CLASS_OBJ, 0, 0⟩, ⟨GROUP_OBJ, 0, 1⟩, ⟨USER_OBJ, 0, 7⟩]

theorem aclsort_valid_sample : Valid true sample := by
  refine (aclsort_valid true sample ?_ ?_).1.mp (by decide +kernel)
  · unfold NoSentinel
    decide
  · unfold Fits
    decide

/-- The mandatory entries and a default entry for the owning group, but none for the default class. -/
def noDefClass : List Acl :=
  [⟨USER_OBJ, 0, 7⟩, ⟨GROUP_OBJ, 0, 5⟩, ⟨CLASS_OBJ, 0, 5⟩, ⟨OTHER_OBJ, 0, 4⟩, ⟨DEF_GROUP_OBJ, 0, 5⟩]

def entriesOf (acls : List Acl) (t : Int32) : Nat := acls.countP fun e => e.aType = t

/-- Nothing is missing or twice, and the class has the permissions of the group. -/
theorem aclsort_noDefClass : (aclsort false noDefClass).1 = -1 ∧
    [USER_OBJ, GROUP_OBJ, CLASS_OBJ, OTHER_OBJ].map (entriesOf noDefClass) = [1, 1, 1, 1] ∧
    (noDefClass.Pairwise fun x y => ¬ Dup x y) ∧
    ∀ g ∈ noDefClass, ∀ k ∈ noDefClass, g.aType = GROUP_OBJ → k.aType = CLASS_OBJ → g.aPerm = k.aPerm := by
  decide +kernel

end Svr42.AclSort
