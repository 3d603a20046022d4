import Svr42.AclSort

/-! When an access control list is valid, and that `aclsort` finds out. -/

namespace Svr42.AclSort
open Function List

variable {calclass : Bool} {acls pre rest : List Acl} {e e' x y z : Acl} {c c' : Counts} {t : Int32}
  {pos : Nat}

/-! ### The order -/

def Before (e1 e2 : Acl) : Prop :=
  e1.aType.toInt < e2.aType.toInt ∨ e1.aType = e2.aType ∧ e1.aId.toInt < e2.aId.toInt

def Fits (acls : List Acl) : Prop :=
  ∀ e1 ∈ acls, ∀ e2 ∈ acls,
    e1.aType.toInt - e2.aType.toInt < 2147483648 ∧
      (e1.aType = e2.aType → e1.aId.toInt - e2.aId.toInt < 2147483648)

theorem sub_neg {a b : Int32} (h : a.toInt - b.toInt < 2147483648) (h' : b.toInt - a.toInt < 2147483648) :
    a - b < 0 ↔ a.toInt < b.toInt := by
  rw [Int32.lt_iff_toInt_lt, Int32.toInt_sub, Int.bmod_eq_of_le_mul_two (by omega) (by omega),
    Int32.toInt_zero]
  omega

theorem aclcmpfcn_neg (h : Fits acls) (hx : x ∈ acls) (hy : y ∈ acls) : aclcmpfcn x y < 0 ↔ Before x y := by
  rw [aclcmpfcn, Before]
  split_ifs with htype
  · rw [sub_neg ((h x hx y hy).2 htype) ((h y hy x hx).2 htype.symm), htype]
    simp
  · rw [sub_neg (h x hx y hy).1 (h y hy x hx).1]
    simp [htype]

theorem Before.asymm (h : Before x y) : ¬ Before y x := by
  rintro (hlt | ⟨heq, hlt⟩)
  · rcases h with hlt' | ⟨heq, -⟩
    · omega
    · rw [heq] at hlt
      omega
  · rcases h with hlt' | ⟨-, hlt'⟩
    · rw [heq] at hlt'
      omega
    · omega

theorem not_before : ¬ Before y x ↔
    x.aType.toInt < y.aType.toInt ∨ x.aType = y.aType ∧ x.aId.toInt ≤ y.aId.toInt := by
  rw [Before, ← Int32.toInt_inj, ← Int32.toInt_inj]
  omega

theorem less_eq_false (h : Fits acls) (hx : x ∈ acls) (hy : y ∈ acls) :
    decide (aclcmpfcn y x < 0) = false ↔ ¬ Before y x := by
  rw [decide_eq_false_iff_not, aclcmpfcn_neg h hy hx]

theorem isort_spec (h : Fits acls) :
    (isort acls).Perm acls ∧ (isort acls).Pairwise fun x y => ¬ Before y x := by
  have horder : SelectSort.WeakOrder (fun e1 e2 => decide (aclcmpfcn e1 e2 < 0)) (· ∈ acls) := by
    refine ⟨fun x y hx hy hless => ?_, fun x y z hx hy hz hxy hyz => ?_⟩
    · rw [less_eq_false h hx hy]
      exact ((aclcmpfcn_neg h hx hy).mp (of_decide_eq_true hless)).asymm
    · rw [less_eq_false h hx hy, not_before] at hxy
      rw [less_eq_false h hy hz, not_before] at hyz
      rw [less_eq_false h hx hz, not_before]
      rw [← Int32.toInt_inj] at hxy hyz ⊢
      omega
  obtain ⟨hperm, hsorted⟩ := SelectSort.selectSort_spec horder fun x hx => hx
  refine ⟨hperm, hsorted.imp_of_mem fun hx hy hless => ?_⟩
  exact (less_eq_false h (hperm.subset hx) (hperm.subset hy)).mp hless

def Known (t : Int32) : Prop := t ∈ objTypes ∨ t ∈ idTypes

def Dup (x e : Acl) : Prop := x.aType = e.aType ∧ (e.aType ∈ objTypes ∨ x.aId = e.aId)

theorem Dup.symm (h : Dup x e) : Dup e x := by
  obtain ⟨htype, hor⟩ := h
  exact ⟨htype.symm, hor.imp (fun hobj => htype ▸ hobj) fun hid => hid.symm⟩

def classPermsOf (acls : List Acl) : UInt16 :=
  acls.foldl (fun perms e =>
    if e.aType = USER ∨ e.aType = GROUP_OBJ ∨ e.aType = GROUP then perms ||| e.aPerm else perms) 0

theorem classPermsOf_append : classPermsOf (pre ++ [e]) =
    if e.aType = USER ∨ e.aType = GROUP_OBJ ∨ e.aType = GROUP then classPermsOf pre ||| e.aPerm
    else classPermsOf pre := by
  rw [classPermsOf, foldl_append]
  rfl

theorem classPermsOf_perm {acls' : List Acl} (h : acls.Perm acls') : classPermsOf acls = classPermsOf acls' := by
  refine h.foldl_eq' (fun x _ y _ perms => ?_) 0
  split_ifs
  · rw [UInt16.or_assoc, UInt16.or_assoc, UInt16.or_comm y.aPerm]
  · rfl
  · rfl
  · rfl

/-! ### The loop -/

/-- The variables of the loop after the entries `pre`. -/
structure Noted (calclass : Bool) (pre : List Acl) (c : Counts) : Prop where
  count : ∀ t, c.count t = pre.countP fun e => e.aType = t
  lastId : ∀ p x, pre = p ++ [x] → x.aType ∈ idTypes → c.lastId = x.aId
  groupPerms : ∀ e ∈ pre, e.aType = GROUP_OBJ → c.groupPerms = e.aPerm
  classPerms : calclass = false → ∀ e ∈ pre, e.aType = CLASS_OBJ → c.classPerms = e.aPerm
  recalculated : calclass = true → c.classPerms = classPermsOf pre
  defGroupPerms : ∀ e ∈ pre, e.aType = DEF_GROUP_OBJ → c.defGroupPerms = e.aPerm
  defClassPerms : ∀ e ∈ pre, e.aType = DEF_CLASS_OBJ → c.defClassPerms = e.aPerm

theorem noted_nil : Noted calclass [] counts where
  count := fun _ => rfl
  lastId := fun p x h => absurd h.symm (append_ne_nil_of_right_ne_nil p (cons_ne_nil x []))
  groupPerms := nofun
  classPerms := fun _ _ he => absurd he not_mem_nil
  recalculated := fun _ => rfl
  defGroupPerms := nofun
  defClassPerms := nofun

theorem Noted.count_zero (h : Noted calclass pre c) : c.count t = 0 ↔ ∀ x ∈ pre, x.aType ≠ t := by
  rw [h.count, countP_eq_zero]
  simp

theorem perms_note {perms : UInt16} (ht : t ∈ objTypes) (h : ∀ x ∈ pre, x.aType = t → perms = x.aPerm)
    (hfirst : e.aType ∈ objTypes → ∀ x ∈ pre, x.aType ≠ e.aType) :
    ∀ x ∈ pre ++ [e], x.aType = t → (if e.aType = t then e.aPerm else perms) = x.aPerm := by
  intro x hx hxt
  rcases mem_append.mp hx with hold | hnew
  · have hne : e.aType ≠ t := by
      intro het
      exact hfirst (het ▸ ht) x hold (hxt.trans het.symm)
    rw [if_neg hne]
    exact h x hold hxt
  · rw [mem_singleton.mp hnew] at hxt ⊢
    rw [if_pos hxt]

theorem Noted.note (h : Noted calclass pre c)
    (hfirst : e.aType ∈ objTypes → ∀ x ∈ pre, x.aType ≠ e.aType) :
    Noted calclass (pre ++ [e]) (note calclass c e) where
  count := by
    intro t
    rw [countP_append, ← h.count, countP_singleton]
    show update c.count e.aType (c.count e.aType + 1) t = _
    by_cases ht : e.aType = t
    · simp [← ht]
    · rw [update_of_ne (Ne.symm ht)]
      simp [ht]
  lastId := by
    intro p x hpx hx
    obtain ⟨-, hlast⟩ := append_inj' hpx rfl
    obtain rfl := (List.cons.inj hlast).1
    exact if_pos hx
  groupPerms := perms_note (by decide) h.groupPerms hfirst
  classPerms := by
    intro hcalc
    have hperms := perms_note (t := CLASS_OBJ) (by decide) (h.classPerms hcalc) hfirst
    intro x hx hxt
    rw [← hperms x hx hxt]
    show (if calclass = true then _ else _) = _
    rw [if_neg (by simp [hcalc])]
  recalculated := by
    intro hcalc
    rw [classPermsOf_append, ← h.recalculated hcalc]
    exact if_pos hcalc
  defGroupPerms := perms_note (by decide) h.defGroupPerms hfirst
  defClassPerms := perms_note (by decide) h.defClassPerms hfirst

theorem last_of_type (hsorted : (pre ++ [z, e]).Pairwise fun x y => ¬ Before y x) (hx : x ∈ pre ++ [z])
    (htype : x.aType = e.aType) :
    z.aType = e.aType ∧ x.aId.toInt ≤ z.aId.toInt ∧ z.aId.toInt ≤ e.aId.toInt := by
  rw [pairwise_append] at hsorted
  obtain ⟨-, hze, hall⟩ := hsorted
  have hze' := not_before.mp (rel_of_pairwise_cons hze (mem_singleton_self e))
  rw [← Int32.toInt_inj] at htype hze' ⊢
  rcases mem_append.mp hx with hold | hnew
  · have hxz := not_before.mp (hall x hold z (.head _))
    rw [← Int32.toInt_inj] at hxz
    omega
  · rw [mem_singleton.mp hnew] at htype ⊢
    omega

theorem entry_spec (h : Noted calclass pre c) (hsorted : (pre ++ [e]).Pairwise fun x y => ¬ Before y x)
    (hid : e.aType ∈ idTypes → e.aId ≠ -1) (hknown : Known e.aType) :
    ((∃ x ∈ pre, Dup x e) ∧ entry calclass c e = .duplicate) ∨
      (¬ ∃ x ∈ pre, Dup x e) ∧ entry calclass c e = .goes (note calclass c e) (recalculate calclass c e) := by
  rw [entry]
  by_cases hobj : e.aType ∈ objTypes
  · rw [if_pos hobj]
    by_cases hcount : c.count e.aType = 0
    · rw [if_neg (not_not.mpr hcount)]
      refine .inr ⟨?_, rfl⟩
      rintro ⟨x, hx, hdup⟩
      exact h.count_zero.mp hcount x hx hdup.1
    · rw [if_pos hcount]
      refine .inl ⟨?_, rfl⟩
      by_contra hnone
      refine hcount (h.count_zero.mpr fun x hx htype => hnone ⟨x, hx, htype, .inl hobj⟩)
  have hin := hknown.resolve_left hobj
  rw [if_neg hobj, if_pos hin]
  by_cases hcount : c.count e.aType = 0
  · rw [if_pos hcount, if_neg (hid hin)]
    refine .inr ⟨?_, rfl⟩
    rintro ⟨x, hx, hdup⟩
    exact h.count_zero.mp hcount x hx hdup.1
  obtain ⟨x, hx, htype⟩ : ∃ x ∈ pre, x.aType = e.aType := by
    by_contra hnone
    exact hcount (h.count_zero.mpr fun x hx htype => hnone ⟨x, hx, htype⟩)
  rcases eq_nil_or_concat pre with hnil | ⟨p, z, hpz⟩
  · rw [hnil] at hx
    cases hx
  rw [concat_eq_append] at hpz
  rw [hpz, append_assoc] at hsorted
  have hlast : ∀ {x}, x ∈ pre → x.aType = e.aType →
      z.aType = e.aType ∧ x.aId.toInt ≤ z.aId.toInt ∧ z.aId.toInt ≤ e.aId.toInt :=
    fun hx htype => last_of_type hsorted (hpz ▸ hx) htype
  have hz := (hlast hx htype).1
  have hzin : z ∈ pre := hpz ▸ mem_append_right p (mem_singleton_self z)
  rw [if_neg hcount, h.lastId p z hpz (hz ▸ hin)]
  split_ifs with hsame
  · exact .inl ⟨⟨z, hzin, hz, .inr hsame.symm⟩, rfl⟩
  · refine .inr ⟨?_, rfl⟩
    rintro ⟨y, hy, hytype, hor⟩
    have hyid := hor.resolve_left hobj
    have hbetween := hlast hy hytype
    rw [hyid] at hbetween
    exact hsame (Int32.toInt_inj.mp (by omega))

end Svr42.AclSort
