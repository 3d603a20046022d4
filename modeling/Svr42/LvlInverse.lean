import Svr42.LvlOutRuns
import Svr42.LvlRoundTrip

/-! `lvlin` accepts what denotes a level, and takes what `lvlout` writes back to the level. -/

namespace Svr42.Lvl
open List Option

variable {lvl : MacLevel} {text name : Str} {lid m c len : Nat} {cats : List Nat} {t : Tables}
  {firstcat : Bool} {file : List Str} {malloc : Nat → Bool} {st : Statics} {format : Format} {bufsize : Int}

/-! ### Reading -/

theorem Packed.no_categories (hp : Packed lvl m) (hcats : Lvl.categories lvl = []) : allcats lvl = false := by
  by_contra hall
  have hmem := (allcats_iff hp).mp (Bool.not_eq_false _ ▸ hall) 1 (Nat.le_refl 1) (by decide)
  rw [hcats] at hmem
  exact not_mem_nil hmem

theorem Spells.no_colon (h : Spells t lvl text) (hp : Packed lvl m) (hcolon : colon ∉ text) :
    LevelName t lvl text := by
  obtain ⟨name, hclass, ⟨rfl, -⟩ | ⟨cats, hperm, -, -, rfl⟩⟩ := h
  · exact absurd (mem_append_right name (.head _)) hcolon
  rcases catsText_head t.cats cats with hnil | ⟨s, hs⟩
  · have hempty : cats = [] := by
      cases cats with
      | nil => rfl
      | cons c cats => cases hnil
    rw [hempty] at hperm
    have hcats := nil_perm.mp hperm
    refine ⟨name, hclass, .inr ⟨hp.no_categories hcats, ?_, ?_⟩⟩
    · rw [hcats]
      exact nofun
    · rw [hcats, hnil]
      rfl
  · rw [hs] at hcolon
    exact absurd (mem_append_right name (.head _)) hcolon

theorem lvlin_iff (h : t.Sound) : lvlin t.db text = .ok lid ↔ Denotes t text lid := by
  rw [lvlin]
  split_ifs with htry
  · have hcolon : colon ∉ text := fun hin => by
      rw [contains_iff_mem.mpr hin] at htry
      cases htry.2
    rcases aliasToLid_cases h text with ⟨lid', lvl', hactive', hname', hok⟩ | ⟨hnone, herr⟩
    · rw [hok]
      constructor
      · intro heq
        obtain rfl := Except.ok.inj heq
        exact Denotes.byAlias lvl' hactive' hname'
      · intro hdenotes
        have hpos' := (active_iff.mp hactive').1
        cases hdenotes with
        | byAlias lvl hactive hname =>
          rw [h.aliasNames.distinct _ _ _ hpos' (active_iff.mp hactive).1 hname' hname]
        | byName lvl hactive hspells =>
          obtain ⟨-, m, hp⟩ := h.levels _ _ hactive
          exact absurd (hspells.no_colon hp hcolon) (h.aliasLevels _ _ _ _ hpos' hname' hactive)
    · rw [herr]
      dsimp only
      rw [if_pos rfl, levelToLid_iff h]
      constructor
      · rintro ⟨lvl, hactive, hspells⟩
        exact Denotes.byName lvl hactive hspells
      · intro hdenotes
        cases hdenotes with
        | byAlias lvl hactive hname => exact absurd hname (hnone lid lvl hactive)
        | byName lvl hactive hspells => exact ⟨lvl, hactive, hspells⟩
  · dsimp only
    rw [if_pos rfl, levelToLid_iff h]
    constructor
    · rintro ⟨lvl, hactive, hspells⟩
      exact Denotes.byName lvl hactive hspells
    · intro hdenotes
      cases hdenotes with
      | byAlias lvl hactive hname =>
        have hisname := isName_of (h.aliasNames.valid _ _ (active_iff.mp hactive).1 hname)
        refine absurd ⟨hisname.length, ?_⟩ htry
        by_contra hin
        exact hisname.no_colon (contains_iff_mem.mp (Bool.not_eq_false _ ▸ hin))
      | byName lvl hactive hspells => exact ⟨lvl, hactive, hspells⟩

/-! ### Writing -/

/-- The text that the loop makes of the categories, if it makes one. -/
theorem addCats_text {r : Nat × Str × Nat} (h : addCats file malloc cats firstcat text len = some r)
    (hok : r.1 = 0) : (∀ c ∈ cats, indexToName file c ≠ none) ∧
      r.2.1 = text ++ catsText file (if firstcat = true then colon else comma) cats := by
  induction cats generalizing firstcat text len with
  | nil =>
    obtain rfl := some.inj h
    exact ⟨nofun, (append_nil text).symm⟩
  | cons c cats ih =>
    rw [addCats] at h
    cases hname : indexToName file c with
    | none =>
      rw [hname] at h
      obtain rfl := some.inj h
      cases hok
    | some name =>
      rw [hname] at h
      dsimp only at h
      generalize (if firstcat = true then colon else comma) = separator at h ⊢
      generalize (if text.length + name.length + 1 > len then
        enlarge (text.length + name.length + 1) (text.length + name.length + 1) len else len) = tmp at h
      split_ifs at h with hmalloc hroom
      · obtain rfl := some.inj h
        cases hok
      · obtain ⟨hnamed, htext⟩ := ih h
        refine ⟨fun d hd => ?_, ?_⟩
        · rcases mem_cons.mp hd with rfl | hin
          · rw [hname]
            exact some_ne_none name
          · exact hnamed d hin
        · rw [htext, catsText, hname, getD_some, append_assoc, cons_append]
          rfl

theorem cnvLvlToName_text {r : Nat × Statics} (h : cnvLvlToName t.db malloc st lvl = some r)
    (hok : r.1 = 0) : ∃ text, r.2.lvlname = some text ∧ LevelName t lvl text := by
  rw [cnvLvlToName, Tables.db] at h
  dsimp only at h
  cases hname : indexToName t.classes lvl.lvlClass with
  | none =>
    rw [hname] at h
    obtain rfl := some.inj h
    cases hok
  | some name =>
    rw [hname] at h
    dsimp only at h
    split_ifs at h with hmalloc hroom hall hfit
    · obtain rfl := some.inj h
      cases hok
    · obtain rfl := some.inj h
      exact ⟨_, rfl, name, hname, .inl ⟨hall, rfl⟩⟩
    · obtain ⟨r', hrun, rfl⟩ := map_eq_some_iff.mp h
      obtain ⟨hnamed, htext⟩ := addCats_text hrun hok
      refine ⟨_, rfl, name, hname, .inr ⟨Bool.not_eq_true _ ▸ hall, hnamed, ?_⟩⟩
      rw [htext]
      rfl

theorem deliver_written {retval : Int} (h : (deliver name retval bufsize).written = some text) :
    name = text := by
  rw [deliver] at h
  split_ifs at h
  exact some.inj h

/-- What `lvlout` writes for an active level is its alias, its identifier as it has none, or its name. -/
theorem lvlout_text {r : Answer × Statics} (hactive : t.Active lid lvl)
    (hrun : lvlout t.db malloc st lid bufsize format = some r) (htext : r.1.written = some text) :
    (format = .lvlAlias ∧ (indexToName t.aliases lid = some text ∨ indexToName t.aliases lid = none)) ∨
      format = .lvlFull ∧ LevelName t lvl text := by
  rw [lvlout, hactive.1] at hrun
  obtain ⟨r', hconvert, rfl⟩ := map_eq_some_iff.mp hrun
  cases format with
  | other =>
    obtain rfl := some.inj hconvert
    cases htext
  | lvlAlias =>
    rw [convert, if_pos hactive.2, lidToAlias, Tables.db] at hconvert
    dsimp only at hconvert
    cases hname : indexToName t.aliases lid with
    | none => exact .inl ⟨rfl, .inr rfl⟩
    | some name =>
      rw [hname] at hconvert
      obtain rfl := some.inj hconvert
      refine .inl ⟨rfl, .inl ?_⟩
      rw [deliver_written htext]
  | lvlFull =>
    rw [convert, if_pos hactive.2] at hconvert
    obtain ⟨r'', hname, rfl⟩ := map_eq_some_iff.mp hconvert
    refine .inr ⟨rfl, ?_⟩
    by_cases hok : r''.1 = 0
    · obtain ⟨full, hfull, hlevel⟩ := cnvLvlToName_text hname hok
      rw [if_pos hok] at htext
      rw [hfull] at htext
      rw [← deliver_written htext]
      exact hlevel
    · rw [if_neg hok] at htext
      cases htext

theorem LevelName.spells (h : LevelName t lvl text) (hp : Packed lvl m)
    (hnot : ∀ c, categories lvl = [c] → indexToName t.cats c ≠ some LVL_ALLCATS) : Spells t lvl text := by
  obtain ⟨name, hname, ⟨hall, htext⟩ | ⟨-, hnamed, htext⟩⟩ := h
  · exact ⟨name, hname, .inl ⟨htext, (allcats_iff hp).mp hall⟩⟩
  · refine ⟨name, hname, .inr ⟨_, List.Perm.refl _, hnamed, fun heq => ?_, htext⟩⟩
    obtain ⟨c, hcats, hc⟩ := catsText_allcats heq
    exact hnot c hcats hc

/-- What `lvlout` writes for an active level is read back to the same level; and `lvlin` accepts what denotes an active level. An alias
must exist, and the only category of a level must not be called as all of them. -/
theorem lvlin_lvlout (t : Tables) (h : t.Sound) :
    (∀ malloc st lid lvl bufsize format r text, t.Active lid lvl →
      lvlout t.db malloc st lid bufsize format = some r → r.1.written = some text →
      (format = .lvlAlias → indexToName t.aliases lid ≠ none) →
      (format = .lvlFull → ∀ c, categories lvl = [c] → indexToName t.cats c ≠ some LVL_ALLCATS) →
      lvlin t.db text = .ok lid) ∧ ∀ text lid, lvlin t.db text = .ok lid ↔ Denotes t text lid := by
  refine ⟨?_, fun text lid => lvlin_iff h⟩
  intro malloc st lid lvl bufsize format r text hactive hrun htext halias hcat
  rw [lvlin_iff h]
  rcases lvlout_text hactive hrun htext with ⟨hformat, hname | hnone⟩ | ⟨hformat, hname⟩
  · exact Denotes.byAlias lvl hactive hname
  · exact absurd hnone (halias hformat)
  · obtain ⟨-, m, hp⟩ := h.levels _ _ hactive
    exact Denotes.byName lvl hactive (hname.spells hp (hcat hformat))

/-! ### Small level files -/

theorem names_of {head : Str} {names : List Str} (hvalid : ∀ name ∈ names, isaName name = true)
    (hnodup : names.Nodup) : Names (head :: names) := by
  have hget : ∀ i name, 0 < i → indexToName (head :: names) i = some name →
      ∃ h : i - 1 < names.length, names[i - 1] = name := by
    intro i name hi hname
    obtain ⟨i, rfl⟩ := Nat.exists_eq_succ_of_ne_zero (Nat.ne_of_gt hi)
    exact List.getElem?_eq_some_iff.mp (indexToName_iff.mp hname).1
  refine ⟨fun i name hi hname => ?_, fun i j name hi hj hname hname' => ?_⟩
  · obtain ⟨hlt, rfl⟩ := hget i name hi hname
    exact hvalid _ (getElem_mem hlt)
  · obtain ⟨hlt, heq⟩ := hget i name hi hname
    obtain ⟨hlt', heq'⟩ := hget j name hj hname'
    have := (List.Nodup.getElem_inj_iff hnodup).mp (heq.trans heq'.symm)
    omega

variable {cat : BitVec 32}

theorem packed_oneWord (hcat : cat ≠ 0) : Packed (oneWord cat) 1 := by
  refine ⟨by decide, fun j hj => ?_, fun i j hij hj => by omega, fun j hj _ => ?_, fun j hj _ => ?_⟩
  · obtain rfl : j = 0 := by omega
    exact ⟨Nat.one_pos, (by decide : 1 ≤ CAT_SIZE), hcat⟩
  · exact if_neg (by omega)
  · exact if_neg (by omega)

/-- One active level, whose class is "A". -/
def oneTables (cat : BitVec 32) (cats : List Str) (aliases : List Str) : Tables where
  lids := [oneWord 0, oneWord cat]
  classes := [[], [65]]
  cats := [] :: cats
  aliases := [] :: aliases

theorem active_one {cats aliases : List Str} :
    (oneTables cat cats aliases).Active lid lvl ↔ lid = 1 ∧ lvl = oneWord cat := by
  rw [active_iff, oneTables]
  constructor
  · rintro ⟨hpos, hget, -⟩
    obtain ⟨lid, rfl⟩ := Nat.exists_eq_succ_of_ne_zero (Nat.ne_of_gt hpos)
    cases lid with
    | zero => exact ⟨rfl, (some.inj hget).symm⟩
    | succ lid => cases hget
  · rintro ⟨rfl, rfl⟩
    exact ⟨Nat.one_pos, rfl, rfl⟩

theorem sound_one {cats aliases : List Str} (hcat : cat ≠ 0) (hcats : Names ([] :: cats))
    (hmax : cats.length ≤ MAXCATS) (haliases : Names ([] :: aliases))
    (hfirst : ∀ name ∈ aliases, name.head? ≠ some 65) : (oneTables cat cats aliases).Sound where
  classNames := names_of (all_eq_true.mp (by decide)) (nodup_singleton _)
  catNames := hcats
  aliasNames := haliases
  maxclasses := (by decide : 2 ≤ MAXCLASSES + 1)
  maxcats := Nat.succ_le_succ hmax
  levels := by
    intro lid lvl hactive
    obtain ⟨-, rfl⟩ := active_one.mp hactive
    exact ⟨Nat.one_pos, 1, packed_oneWord hcat⟩
  levelNames := by
    intro lid lid' lvl lvl' text hactive hactive' _ _
    rw [(active_one.mp hactive).1, (active_one.mp hactive').1]
  aliasLevels := by
    intro lid lid' lvl text hpos hname hactive hlevel
    obtain ⟨-, rfl⟩ := active_one.mp hactive
    obtain ⟨lid, rfl⟩ := Nat.exists_eq_succ_of_ne_zero (Nat.ne_of_gt hpos)
    obtain ⟨hlt, heq⟩ := List.getElem?_eq_some_iff.mp (indexToName_iff.mp hname).1
    have hin : text ∈ aliases := heq ▸ getElem_mem (Nat.lt_of_succ_lt_succ hlt)
    apply hfirst text hin
    obtain ⟨name, hclass, ⟨-, rfl⟩ | ⟨-, -, rfl⟩⟩ := hlevel
    · obtain rfl := some.inj hclass
      rfl
    · obtain rfl := some.inj hclass
      rfl

def lowTables : Tables := oneTables 0xc0000000 [[98], [99]] [[108, 111, 119]]

theorem lowTables_sound : lowTables.Sound := by
  refine sound_one (by decide) (names_of (all_eq_true.mp (by decide)) (by simp)) (by decide)
    (names_of (all_eq_true.mp (by decide)) (nodup_singleton _)) fun name hname => ?_
  rw [mem_singleton.mp hname]
  decide

theorem lvlin_lvlout_low :
    lvlin lowTables.db [65, 58, 98, 44, 99] = .ok 1 ∧ lvlin lowTables.db [108, 111, 119] = .ok 1 := by
  have hactive : lowTables.Active 1 (oneWord 0xc0000000) := active_one.mpr ⟨rfl, rfl⟩
  obtain ⟨hback, -⟩ := lvlin_lvlout lowTables lowTables_sound
  constructor
  · refine hback (fun _ => true) statics 1 _ 6 .lvlFull _ _ hactive rfl rfl nofun ?_
    intro _ c hcats
    cases hcats
  · refine hback (fun _ => true) statics 1 _ 6 .lvlAlias _ _ hactive rfl rfl nofun ?_
    intro h
    cases h

def allTables : Tables := oneTables 0x80000000 [LVL_ALLCATS] []

/-- Neither the identifier, written for want of an alias, nor the name with "ALL" is read back. -/
theorem lvlin_misses : allTables.Sound ∧ allTables.Active 1 (oneWord 0x80000000) ∧
    lvlout allTables.db (fun _ => true) statics 1 6 .lvlAlias = some (⟨0, 0, some [49]⟩, statics) ∧
    lvlin allTables.db [49] = .error EINVAL ∧
    (lvlout allTables.db (fun _ => true) statics 1 6 .lvlFull).map (fun r => r.1) =
      some ⟨0, 0, some (65 :: colon :: LVL_ALLCATS)⟩ ∧
    lvlin allTables.db (65 :: colon :: LVL_ALLCATS) ≠ .ok 1 := by
  have hsound : allTables.Sound := by
    refine sound_one (by decide) (names_of (all_eq_true.mp (by decide)) (nodup_singleton _))
      (by decide) (names_of nofun nodup_nil) ?_
    exact nofun
  refine ⟨hsound, active_one.mpr ⟨rfl, rfl⟩, rfl, rfl, rfl, fun hok => ?_⟩
  have hcats : categories (oneWord 0x80000000) = [1] := rfl
  cases (lvlin_iff hsound).mp hok with
  | byAlias lvl hactive hname => cases hname
  | byName lvl hactive hspells =>
    obtain ⟨-, rfl⟩ := active_one.mp hactive
    obtain ⟨name, hclass, ⟨-, hall⟩ | ⟨cats, hperm, -, hnot, htext⟩⟩ := hspells
    · have htwo := hall 2 (by decide) (by decide)
      rw [hcats] at htwo
      exact absurd htwo (by decide)
    · obtain rfl := some.inj hclass
      exact hnot (List.cons.inj htext).2.symm

end Svr42.Lvl
