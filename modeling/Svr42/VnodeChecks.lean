import Svr42.VnodeCalls

/-! Which of the calls by name heed all their mandatory access checks. -/

namespace Svr42.Vn
open List

variable {V : Type} [DecidableEq V]

/-! ### The checks that are made -/

theorem renameChecks_checks (v : Vnodes V) (a : RenameAnswers V) (fvp : V) :
    Call.Checks (renameChecks v a fvp).2 (renameChecks v a fvp).1 := by
  unfold renameChecks
  by_cases hfrom : a.macFrom = 0
  · rw [if_neg (not_not.mpr hfrom), hfrom]
    by_cases hto : a.macTo = 0
    · rw [if_neg (not_not.mpr hto), hto]
      split_ifs with hdir
      · exact (Call.Checks.one a.macFile).cons.cons
      · exact Call.Checks.nil.cons.cons
    · rw [if_pos hto]
      exact (Call.Checks.one a.macTo).cons
  · rw [if_pos hfrom]
    exact Call.Checks.one a.macFrom

theorem removeChecks_checks (a : RemoveAnswers V) : Call.Checks (removeChecks a).2 (removeChecks a).1 := by
  unfold removeChecks
  by_cases hdir : a.macDir = 0
  · rw [if_neg (not_not.mpr hdir), hdir]
    exact (Call.Checks.one _).cons
  · rw [if_pos hdir]
    exact Call.Checks.one a.macDir

theorem createChecks_checks (v : Vnodes V) (a : CreateAnswers V) (found : Option V) :
    Call.Checks (createChecks v a found).2 (createChecks v a found).1 := by
  cases found with
  | none =>
    unfold createChecks
    by_cases hdir : a.macDir = 0
    · simp only [hdir, ne_eq, not_true_eq_false, if_false]
      exact (Call.Checks.one _).cons
    · simp only [ne_eq, hdir, not_false_eq_true, if_true]
      exact Call.Checks.one a.macDir
  | some vp =>
    unfold createChecks
    by_cases htype : v.vType vp ≠ .vchr ∧ v.vType vp ≠ .vblk
    · simp only [if_pos htype]
      exact Call.Checks.one a.macFile
    · simp only [if_neg htype]
      exact Call.Checks.nil

/-! ### The three that heed them -/

variable {checks : List (Call V Vop)} {error result : Nat} {x y z : V}

def done : Option Vop → List (Call V Vop)
  | none => []
  | some op => [.act op]

theorem respects_done (hchecks : Call.Checks checks error) (op : Option Vop)
    (h : error ≠ 0 → result = error ∧ op = none) (front back : List (Call V Vop))
    (hfront : Call.firstError front = 0 ∧ Call.acts front = [])
    (hback : Call.firstError back = 0 ∧ Call.acts back = [])
    (hrefs : ∀ ref, Call.refs ref (front ++ back) 0 = some 0) :
    (⟨result, front ++ (checks ++ (done op ++ back))⟩ : Return V Vop).Respects := by
  refine (Return.respects_iff front (done op ++ back) hchecks hfront ?_ (fun ref => ?_) result).mpr
    fun hne => ?_
  · cases op with
    | none => exact hback.1
    | some op => exact hback.1
  · rw [← hrefs ref, Call.refs_append, Call.refs_append]
    cases op with
    | none => rfl
    | some op => rfl
  · obtain ⟨hresult, rfl⟩ := h hne
    exact ⟨hresult, hback.2⟩

theorem refs_one (x ref : V) : Call.refs ref ([.hold x] ++ (rele (some x) : List (Call V Vop))) 0 = some 0 := by
  by_cases hx : x = ref
  · simp [rele, hx]
  · simp [rele, hx]

theorem refs_two (x y ref : V) :
    Call.refs ref ([.hold x, .hold y] ++ (rele (some x) ++ rele (some y) : List (Call V Vop))) 0 =
      some 0 := by
  by_cases hx : x = ref <;> by_cases hy : y = ref <;> simp [rele, hx, hy]

theorem refs_three (x y z ref : V) : Call.refs ref ([.hold x, .hold y, .hold z] ++
      (rele (some y) ++ (rele (some x) ++ rele (some z)) : List (Call V Vop))) 0 = some 0 := by
  by_cases hx : x = ref <;> by_cases hy : y = ref <;> by_cases hz : z = ref <;>
    simp [rele, hx, hy, hz]

theorem refs_swap (x y ref : V) :
    Call.refs ref ([.hold x, .hold y] ++ (rele (some y) ++ rele (some x) : List (Call V Vop))) 0 =
      some 0 := by
  by_cases hx : x = ref <;> by_cases hy : y = ref <;> simp [rele, hx, hy]

theorem vnRename_respects (v : Vnodes V) (a : RenameAnswers V) : (vnRename v a).Respects := by
  unfold vnRename
  cases hfvp : a.fvp with
  | none =>
    simp only
    split_ifs with h1 h2 h3
    · exact Return.respects_nil _
    · exact Return.respects_nil _
    · exact Return.respects_nil _
    · exact ⟨fun h => absurd rfl h, refs_one a.fdvp⟩
  | some fvp =>
    have hout : ∀ {checks : List (Call V Vop)} {error result : Nat} (_ : Call.Checks checks error)
        (op : Option Vop) (_ : error ≠ 0 → result = error ∧ op = none),
        (⟨result, .hold a.fdvp :: .hold fvp :: .hold a.tdvp ::
          (checks ++ done op ++ rele (some fvp) ++ rele (some a.fdvp) ++ rele (some a.tdvp))⟩ :
          Return V Vop).Respects := by
      intro checks error result hchecks op hop
      have hleaf := respects_done hchecks op hop [.hold a.fdvp, .hold fvp, .hold a.tdvp]
        (rele (some fvp) ++ (rele (some a.fdvp) ++ rele (some a.tdvp))) ⟨rfl, rfl⟩ ⟨rfl, rfl⟩
        (refs_three a.fdvp fvp a.tdvp)
      rw [append_assoc, append_assoc, append_assoc]
      exact hleaf
    have hchecks := renameChecks_checks v a fvp
    simp only
    split_ifs with h1 h2 h3 h4 h5 h6 h7
    · exact Return.respects_nil _
    · exact Return.respects_nil _
    · exact Return.respects_nil _
    · exact ⟨fun h => absurd rfl h, refs_swap a.fdvp fvp⟩
    · exact hout Call.Checks.nil none fun h => absurd rfl h
    · exact hout Call.Checks.nil none fun h => absurd rfl h
    · have hleaf := hout hchecks none fun _ => ⟨rfl, rfl⟩
      rwa [done, append_nil] at hleaf
    · exact hout hchecks (some .rename) fun h => absurd h h7

theorem vnRemove_respects (v : Vnodes V) (a : RemoveAnswers V) (rmdirectory : Bool) :
    (vnRemove v a rmdirectory).Respects := by
  unfold vnRemove
  cases hvp : a.vp with
  | none =>
    simp only
    split_ifs with h1 h2
    · exact Return.respects_nil _
    · exact Return.respects_nil _
    · exact ⟨fun h => absurd rfl h, refs_one a.dvp⟩
  | some vp =>
    have hout : ∀ {checks : List (Call V Vop)} {error result : Nat} (_ : Call.Checks checks error)
        (op : Option Vop) (_ : error ≠ 0 → result = error ∧ op = none),
        (⟨result, .hold a.dvp :: .hold vp ::
          (rele (some vp) ++ (checks ++ done op) ++ rele (some a.dvp))⟩ : Return V Vop).Respects := by
      intro checks error result hchecks op hop
      have hleaf := respects_done hchecks op hop [.hold a.dvp, .hold vp, .rele vp]
        (rele (some a.dvp)) ⟨rfl, rfl⟩ ⟨rfl, rfl⟩ (refs_swap a.dvp vp)
      rw [append_assoc, append_assoc]
      exact hleaf
    have hchecks := removeChecks_checks a
    simp only
    split_ifs with h1 h2 h3 h4 h5 h6 h7
    · exact Return.respects_nil _
    · exact Return.respects_nil _
    · exact ⟨fun h => absurd rfl h, refs_swap a.dvp vp⟩
    · exact ⟨fun h => absurd rfl h, refs_swap a.dvp vp⟩
    · exact hout Call.Checks.nil none fun h => absurd rfl h
    · have hleaf := hout hchecks none fun _ => ⟨rfl, rfl⟩
      rwa [done, append_nil] at hleaf
    · exact hout hchecks (some .rmdir) fun h => absurd h h6
    · exact hout hchecks (some .remove) fun h => absurd h h6

theorem vnCreate_respects (v : Vnodes V) (a : CreateAnswers V) (excl : Bool) (why : Why) :
    (vnCreate v a excl why).Respects := by
  unfold vnCreate
  simp only
  generalize a.found excl = found
  have hchecks := createChecks_checks v a found
  cases found with
  | none =>
    have hout : ∀ {result : Nat} (op : Option Vop),
        ((createChecks v a none).1 ≠ 0 → result = (createChecks v a none).1 ∧ op = none) →
        (⟨result, .hold a.dvp :: (((none : Option V).toList.map .hold) ++ (createChecks v a none).2 ++
          done op ++ rele (some a.dvp))⟩ : Return V Vop).Respects := by
      intro result op hop
      have hleaf := respects_done hchecks op hop [.hold a.dvp] (rele (some a.dvp)) ⟨rfl, rfl⟩
        ⟨rfl, rfl⟩ (refs_one a.dvp)
      rw [append_assoc]
      exact hleaf
    simp only
    split_ifs with h1 h2 h3 h4 h5
    · exact Return.respects_nil _
    · exact Return.respects_nil _
    · exact Return.respects_nil _
    · exact hout none fun _ => ⟨rfl, rfl⟩
    · exact hout none fun h => absurd h h4
    · exact hout (some _) fun h => absurd h h4
  | some vp =>
    have hout : ∀ {result : Nat} (op : Option Vop), ((createChecks v a (some vp)).1 ≠ 0 →
          result = (createChecks v a (some vp)).1 ∧ op = none) →
        (⟨result, .hold a.dvp :: (((some vp).toList.map .hold) ++ (createChecks v a (some vp)).2 ++
          (done op ++ rele (some vp)) ++ rele (some a.dvp))⟩ : Return V Vop).Respects := by
      intro result op hop
      have hleaf := respects_done hchecks op hop [.hold a.dvp, .hold vp]
        (rele (some vp) ++ rele (some a.dvp)) ⟨rfl, rfl⟩ ⟨rfl, rfl⟩ (refs_swap a.dvp vp)
      rw [append_assoc, append_assoc, append_assoc]
      exact hleaf
    simp only
    split_ifs with h1 h2 h3 h4 h5 h6 h7
    · exact Return.respects_nil _
    · exact Return.respects_nil _
    · exact Return.respects_nil _
    · exact hout none fun _ => ⟨rfl, rfl⟩
    · exact hout none fun h => absurd h h4
    · exact hout none fun h => absurd h h4
    · exact hout (some .create) fun h => absurd h h4
    · -- the file is released before the operation
      have hleaf := (Return.respects_iff [.hold a.dvp, .hold vp]
        ([.rele vp] ++ ([.act (createOp a why).2] ++ [.rele a.dvp])) hchecks ⟨rfl, rfl⟩ rfl
        (refs_swap a.dvp vp) (createOp a why).1).mpr fun h => absurd h h4
      rw [append_assoc, append_assoc, append_assoc]
      exact hleaf

/-! ### `vn_link` -/

def Reaches (v : Vnodes V) (a : LinkAnswers V) : Prop :=
  a.pnGet = 0 ∧ a.lookupname = 0 ∧ a.lookuppn = 0 ∧ a.getattrTo = 0 ∧ a.getattrFrom = 0 ∧
    a.tfsid = a.ffsid ∧ v.rdonly a.tdvp = false

/-- When the check of the file fails, something behind it refuses the link with the same error. -/
def Backed (v : Vnodes V) (a : LinkAnswers V) : Prop :=
  Reaches v a → a.macFrom ≠ 0 →
    a.pmFile = a.macFrom ∨ a.pmFile = 0 ∧ 0 < a.nprv ∧ a.access = a.macFrom

theorem vnLink_respects_iff (v : Vnodes V) (a : LinkAnswers V) : (vnLink v a).Respects ↔ Backed v a := by
  have hout : ∀ {checks : List (Call V Vop)} {error : Nat} (_ : Call.Checks checks error) (result : Nat)
      (op : Option Vop), (⟨result, .hold a.fvp :: .hold a.tdvp ::
        (checks ++ done op ++ rele (some a.fvp) ++ rele (some a.tdvp))⟩ : Return V Vop).Respects ↔
          (error ≠ 0 → result = error ∧ op = none) := by
    intro checks error hchecks result op
    have hacts : Call.acts (done op ++ (rele (some a.fvp) ++ rele (some a.tdvp))) = [] ↔ op = none := by
      cases op with
      | none => exact ⟨fun _ => rfl, fun _ => rfl⟩
      | some op => exact ⟨fun h => absurd h (cons_ne_nil _ _), fun h => absurd h (Option.some_ne_none op)⟩
    rw [← hacts, append_assoc, append_assoc]
    refine Return.respects_iff [.hold a.fvp, .hold a.tdvp]
      (done op ++ (rele (some a.fvp) ++ rele (some a.tdvp))) hchecks ⟨rfl, rfl⟩ ?_ (fun ref => ?_) result
    · cases op with
      | none => rfl
      | some op => rfl
    · rw [← refs_two a.fvp a.tdvp ref]
      cases op with
      | none => rfl
      | some op => rfl
  have hnone : ∀ result, (⟨result, .hold a.fvp :: .hold a.tdvp ::
      ([] ++ done none ++ rele (some a.fvp) ++ rele (some a.tdvp))⟩ : Return V Vop).Respects :=
    fun result => (hout Call.Checks.nil result none).mpr fun h => absurd rfl h
  unfold vnLink
  by_cases hreach : Reaches v a
  · have hbacked : Backed v a ↔ (a.macFrom ≠ 0 →
        a.pmFile = a.macFrom ∨ a.pmFile = 0 ∧ 0 < a.nprv ∧ a.access = a.macFrom) :=
      ⟨fun h => h hreach, fun h _ => h⟩
    rw [hbacked]
    obtain ⟨h1, h2, h3, h4, h5, h6, h7⟩ := hreach
    simp only [h1, h2, h3, h4, h5, h6, h7, ne_eq, not_true_eq_false, if_false, Bool.false_eq_true]
    by_cases hfrom : a.macFrom = 0
    · -- both checks are made, and the second leads out
      have hchecks : Call.Checks ([.check 0, .check a.macTo] : List (Call V Vop)) a.macTo :=
        (Call.Checks.one a.macTo).cons
      simp only [hfrom, if_true, true_and, not_true_eq_false, false_implies, iff_true]
      by_cases hto : a.macTo = 0
      · rw [if_neg (not_not.mpr hto)]
        by_cases hpm : a.pmFile = 0
        · rw [if_neg (not_not.mpr hpm)]
          split_ifs with haccess
          · exact (hout hchecks a.access none).mpr fun h => absurd hto h
          · exact (hout hchecks a.vopLink (some .link)).mpr fun h => absurd hto h
        · rw [if_pos hpm]
          exact (hout hchecks a.pmFile none).mpr fun h => absurd hto h
      · rw [if_pos hto]
        exact (hout hchecks a.macTo none).mpr fun _ => ⟨rfl, rfl⟩
    · -- the check of the file has failed, and nothing leads out
      have hchecks : Call.Checks ([.check a.macFrom] : List (Call V Vop)) a.macFrom :=
        Call.Checks.one a.macFrom
      simp only [hfrom, if_false, false_and, not_false_eq_true, true_implies]
      by_cases hpm : a.pmFile = 0
      · simp only [hpm, not_true_eq_false, if_false, Ne.symm hfrom, false_or, true_and]
        split_ifs with haccess
        · refine (hout hchecks a.access none).trans ?_
          exact ⟨fun h => ⟨haccess.1, (h hfrom).1⟩, fun h _ => ⟨h.2, rfl⟩⟩
        · refine (hout hchecks a.vopLink (some .link)).trans ?_
          refine ⟨fun h => absurd (h hfrom).2 (Option.some_ne_none _), fun h => absurd ⟨h.1, ?_⟩ haccess⟩
          rw [h.2]
          exact hfrom
      · simp only [hpm, not_false_eq_true, if_true, false_and, or_false]
        refine (hout hchecks a.pmFile none).trans ?_
        exact ⟨fun h => (h hfrom).1, fun h _ => ⟨h, rfl⟩⟩
  · have hskip : Backed v a := fun hdoes => absurd hdoes hreach
    simp only [hskip, iff_true]
    refine iteInduction (fun _ => Return.respects_nil _) fun h1 => ?_
    refine iteInduction (fun _ => Return.respects_nil _) fun h2 => ?_
    refine iteInduction (fun _ => ⟨fun h => absurd rfl h, refs_one a.fvp⟩) fun h3 => ?_
    refine iteInduction (fun _ => hnone _) fun h4 => ?_
    refine iteInduction (fun _ => hnone _) fun h5 => ?_
    refine iteInduction (fun _ => hnone _) fun h6 => ?_
    refine iteInduction (fun _ => hnone _) fun h7 => ?_
    exact absurd ⟨not_not.mp h1, not_not.mp h2, not_not.mp h3, not_not.mp h4, not_not.mp h5,
      not_not.mp h6, eq_false_of_ne_true h7⟩ hreach

/-- `vn_rename`, `vn_remove` and `vn_create` always heed their checks, and give up every reference once;
`vn_link` does exactly when something else refuses what the check of the file has refused. -/
theorem heed_checks_iff (v : Vnodes V) (link : LinkAnswers V) (rename : RenameAnswers V)
    (remove : RemoveAnswers V) (rmdirectory : Bool) (create : CreateAnswers V) (excl : Bool) (why : Why) :
    ((vnLink v link).Respects ∧ (vnRename v rename).Respects ∧
      (vnRemove v remove rmdirectory).Respects ∧ (vnCreate v create excl why).Respects) ↔
        Backed v link := by
  rw [vnLink_respects_iff]
  exact ⟨fun h => h.1, fun h => ⟨h, vnRename_respects v rename, vnRemove_respects v remove rmdirectory,
    vnCreate_respects v create excl why⟩⟩

def plain : Vnodes Bool := ⟨fun _ => .vreg, fun _ => 0, fun _ => false, fun _ => false⟩

/-- A link to a file that the process may not write. -/
def unwritable : LinkAnswers Bool :=
  { pnGet := 0
    lookupname := 0
    fvp := true
    lookuppn := 0
    tdvp := false
    getattrTo := 0
    getattrFrom := 0
    tfsid := 7
    ffsid := 7
    macFrom := EACCES
    macTo := 0
    pmFile := 0
    nprv := 0
    access := 0
    vopLink := 0 }

/-- The check of the file fails, and the link is made. -/
theorem link_made_unchecked : Call.firstError (vnLink plain unwritable).calls = EACCES ∧
    Call.acts (vnLink plain unwritable).calls = [.link] ∧ (vnLink plain unwritable).error = 0 ∧
      ¬ (vnLink plain unwritable).Respects := by
  refine ⟨by decide, by decide, by decide, fun h => ?_⟩
  exact absurd (h.failed (by decide)).1 (by decide)

end Svr42.Vn
