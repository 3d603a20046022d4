import Svr42.LvlNames

/-! `lvlin` reads the levels that a text denotes, and what `lvlout` writes denotes its level. -/

namespace Svr42.Lvl
open List

variable {lvl lvl' : MacLevel} {text name : Str} {lid lid' m n c : Nat} {cats : List Nat}

/-! ### The level files -/

/-- The level files, all of which can be opened. -/
structure Tables where
  lids : List MacLevel
  classes : List Str
  cats : List Str
  aliases : List Str

def Tables.db (t : Tables) : Ltdb := ⟨some t.lids, some t.classes, some t.cats, some t.aliases⟩

variable {t : Tables}

def Tables.Active (t : Tables) (lid : Nat) (lvl : MacLevel) : Prop :=
  lvlLidToStruct t.db lid = .ok lvl ∧ lvl.lvlValid = .active

/-- The fully qualified name of a level, as it is written. -/
def LevelName (t : Tables) (lvl : MacLevel) (text : Str) : Prop :=
  ∃ name, indexToName t.classes lvl.lvlClass = some name ∧
    ((allcats lvl = true ∧ text = name ++ colon :: LVL_ALLCATS) ∨
      allcats lvl = false ∧ (∀ c ∈ categories lvl, indexToName t.cats c ≠ none) ∧
        text = name ++ catsText t.cats colon (categories lvl))

/-- The tables have no more names than there may be, no name twice, and packed levels. -/
structure Tables.Sound (t : Tables) : Prop where
  classNames : Names t.classes
  catNames : Names t.cats
  aliasNames : Names t.aliases
  maxclasses : t.classes.length ≤ MAXCLASSES + 1
  maxcats : t.cats.length ≤ MAXCATS + 1
  levels : ∀ lid lvl, t.Active lid lvl → 0 < lvl.lvlClass ∧ ∃ m, Packed lvl m
  levelNames : ∀ lid lid' lvl lvl' text, t.Active lid lvl → t.Active lid' lvl' →
    LevelName t lvl text → LevelName t lvl' text → lid = lid'
  aliasLevels : ∀ lid lid' lvl text, 0 < lid → indexToName t.aliases lid = some text →
    t.Active lid' lvl → ¬ LevelName t lvl text

theorem active_iff : t.Active lid lvl ↔ 0 < lid ∧ t.lids[lid]? = some lvl ∧ lvl.lvlValid = .active := by
  rw [Tables.Active, lvlLidToStruct]
  split_ifs with hzero
  · exact iff_of_false (fun h => by cases h.1) fun h => by omega
  · rw [Tables.db]
    dsimp only
    cases hget : t.lids[lid]? with
    | none => exact iff_of_false (fun h => by cases h.1) fun h => by cases h.2.1
    | some found =>
      dsimp only
      split_ifs with hinvalid
      · refine iff_of_false (fun h => by cases h.1) fun h => ?_
        obtain rfl := Option.some.inj h.2.1
        rw [hinvalid] at h
        cases h.2.2
      · constructor
        · rintro ⟨hok, hactive⟩
          obtain rfl := Except.ok.inj hok
          exact ⟨Nat.pos_of_ne_zero hzero, rfl, hactive⟩
        · rintro ⟨-, hsome, hactive⟩
          obtain rfl := Option.some.inj hsome
          exact ⟨rfl, hactive⟩

/-! ### All categories -/

theorem Packed.full (h : Packed lvl CAT_SIZE) {j : Nat} (hj : j < CAT_SIZE) : lvl.lvlCatsig j = j + 1 := by
  have hlow : ∀ j, j < CAT_SIZE → j + 1 ≤ lvl.lvlCatsig j := by
    intro j hj
    induction j with
    | zero => exact (h.sig 0 hj).1
    | succ j ih =>
      have := h.mono j (j + 1) (by omega) hj
      omega
  have hhigh : ∀ d, d < CAT_SIZE → lvl.lvlCatsig (31 - d) ≤ 32 - d := by
    intro d hd
    induction d with
    | zero => exact (h.sig 31 (by decide)).2.1
    | succ d ih =>
      unfold CAT_SIZE at hd
      have := ih (by unfold CAT_SIZE; omega)
      have := h.mono (31 - (d + 1)) (31 - d) (by omega) (by unfold CAT_SIZE; omega)
      omega
  have hup := hhigh (31 - j) (by unfold CAT_SIZE; omega)
  have hdown := hlow j hj
  unfold CAT_SIZE at hj
  rw [show 31 - (31 - j) = j by omega] at hup
  omega

theorem allcats_iff (h : Packed lvl m) :
    allcats lvl = true ↔ ∀ c, 1 ≤ c → c ≤ MAXCATS → c ∈ categories lvl := by
  have hm := h.le
  have hones : ∀ i, i < 32 → bit (0xffffffff : BitVec 32) i = true := by decide
  rw [allcats, all_eq_true]
  simp only [mem_range, decide_eq_true_eq]
  constructor
  · intro hall c hlow hhigh
    have hfull : m = CAT_SIZE := by
      by_contra hne
      have hzero := h.zero m (Nat.le_refl m) (by omega)
      rw [hall m (by omega)] at hzero
      exact absurd hzero (by decide)
    subst hfull
    unfold MAXCATS at hhigh
    have hw : (c - 1) / 32 < CAT_SIZE := by unfold CAT_SIZE; omega
    rw [h.mem_categories]
    refine ⟨(c - 1) / 32, (c - 1) % 32, hw, Nat.mod_lt _ (by decide), ?_, ?_⟩
    · rw [hall _ hw]
      exact hones _ (Nat.mod_lt _ (by decide))
    · rw [h.full hw]
      omega
  · intro hall
    -- every number of a word is in use
    have hsub : range' 1 CAT_SIZE ⊆ (range m).map lvl.lvlCatsig := by
      intro s hs
      rw [mem_range'_1] at hs
      unfold CAT_SIZE at hs
      exact h.mem_sigs.mpr ⟨by omega, 0, by decide, hall _ (by omega) (by unfold MAXCATS; omega)⟩
    have hlength := (subperm_of_subset nodup_range' hsub).length_le
    rw [length_range', length_map, length_range] at hlength
    obtain rfl : m = CAT_SIZE := by omega
    intro w hw
    apply eq_of_bits
    intro i hi
    rw [hones i hi]
    have hw' := hw
    unfold CAT_SIZE at hw'
    obtain ⟨j, k, hj, hk, hbit, heq⟩ := h.mem_categories.mp
      (hall (1 + w * 32 + i) (by omega) (by unfold MAXCATS; omega))
    rw [h.full hj] at heq
    obtain rfl : j = w := by omega
    obtain rfl : k = i := by omega
    exact hbit

/-! ### What a text denotes -/

/-- A text names the class of a level and its categories in some order, or `LVL_ALLCATS` for all of them. -/
def Spells (t : Tables) (lvl : MacLevel) (text : Str) : Prop :=
  ∃ name, indexToName t.classes lvl.lvlClass = some name ∧
    ((text = name ++ colon :: LVL_ALLCATS ∧ ∀ c, 1 ≤ c → c ≤ MAXCATS → c ∈ categories lvl) ∨
      ∃ cats, cats.Perm (categories lvl) ∧ (∀ c ∈ cats, indexToName t.cats c ≠ none) ∧
        catsText t.cats colon cats ≠ colon :: LVL_ALLCATS ∧ text = name ++ catsText t.cats colon cats)

/-- The active level with a text as its alias or as one of its fully qualified forms. -/
inductive Denotes (t : Tables) (text : Str) (lid : Nat) : Prop
  | byAlias (lvl : MacLevel) (hactive : t.Active lid lvl) (hname : indexToName t.aliases lid = some text)
  | byName (lvl : MacLevel) (hactive : t.Active lid lvl) (hspells : Spells t lvl text)

/-- A level that is spelled has a name, which depends on its class and its categories. -/
theorem Spells.levelName (h : Spells t lvl text) (hp : Packed lvl m) (hp' : Packed lvl' n)
    (hclass : lvl'.lvlClass = lvl.lvlClass) (hcats : categories lvl' = categories lvl) :
    ∃ text', LevelName t lvl' text' ∧ LevelName t lvl text' := by
  obtain ⟨name, hname, hspells⟩ := h
  have hall : allcats lvl' = allcats lvl :=
    Bool.eq_iff_iff.mpr (by rw [allcats_iff hp, allcats_iff hp', hcats])
  unfold LevelName
  rw [hclass, hall, hcats]
  cases hcase : allcats lvl with
  | true => exact ⟨_, ⟨name, hname, .inl ⟨rfl, rfl⟩⟩, ⟨name, hname, .inl ⟨rfl, rfl⟩⟩⟩
  | false =>
    rcases hspells with ⟨-, hmany⟩ | ⟨cats, hperm, hnamed, -, -⟩
    · rw [(allcats_iff hp).mpr hmany] at hcase
      cases hcase
    · have hnamed' : ∀ c ∈ categories lvl, indexToName t.cats c ≠ none :=
        fun c hc => hnamed c (hperm.mem_iff.mpr hc)
      exact ⟨_, ⟨name, hname, .inr ⟨rfl, hnamed', rfl⟩⟩, ⟨name, hname, .inr ⟨rfl, hnamed', rfl⟩⟩⟩

/-! ### The level with a structure -/

section

variable (h : t.Sound) (hp : Packed lvl m)
include h hp

theorem lvlStructToLid_ok (hlid : lvlStructToLid t.db lvl = .ok lid) :
    ∃ lvl', t.Active lid lvl' ∧ lvl'.lvlClass = lvl.lvlClass ∧ categories lvl' = categories lvl := by
  rw [lvlStructToLid, Tables.db] at hlid
  dsimp only at hlid
  cases hfind : (t.lids.drop 1).findIdx? fun buf =>
      buf.lvlValid = .active && lvl.lvlClass == buf.lvlClass && sameCats lvl buf (CAT_SIZE + 1) 0 with
  | none =>
    rw [hfind] at hlid
    cases hlid
  | some i =>
    rw [hfind] at hlid
    obtain rfl := Except.ok.inj hlid
    obtain ⟨hi, hmatch, -⟩ := findIdx?_eq_some_iff_getElem.mp hfind
    rw [Bool.and_eq_true, Bool.and_eq_true, decide_eq_true_eq] at hmatch
    obtain ⟨⟨hvalid, hclass⟩, hsame⟩ := hmatch
    have hactive : t.Active (i + 1) (t.lids.drop 1)[i] := by
      rw [active_iff]
      refine ⟨Nat.succ_pos i, ?_, hvalid⟩
      rw [length_drop] at hi
      rw [List.getElem?_eq_some_iff]
      refine ⟨by omega, ?_⟩
      rw [getElem_drop]
      simp only [Nat.add_comm 1 i]
    obtain ⟨-, n, hp'⟩ := h.levels _ _ hactive
    exact ⟨_, hactive, (eq_of_beq hclass).symm, ((sameCats_iff hp hp').mp hsame).symm⟩

theorem lvlStructToLid_found (hactive : t.Active lid lvl')
    (hclass : lvl'.lvlClass = lvl.lvlClass) (hcats : categories lvl' = categories lvl) :
    ∃ lid', lvlStructToLid t.db lvl = .ok lid' := by
  rw [lvlStructToLid, Tables.db]
  dsimp only
  cases hfind : (t.lids.drop 1).findIdx? fun buf =>
      buf.lvlValid = .active && lvl.lvlClass == buf.lvlClass && sameCats lvl buf (CAT_SIZE + 1) 0 with
  | some i => exact ⟨i + 1, rfl⟩
  | none =>
    obtain ⟨hpos, hget, hvalid⟩ := active_iff.mp hactive
    obtain ⟨hlt, hget⟩ := List.getElem?_eq_some_iff.mp hget
    have hin : lvl' ∈ t.lids.drop 1 := by
      rw [mem_iff_getElem]
      refine ⟨lid - 1, by rw [length_drop]; omega, ?_⟩
      rw [getElem_drop]
      simpa only [show 1 + (lid - 1) = lid by omega] using hget
    have hnot := List.findIdx?_eq_none_iff.mp hfind lvl' hin
    obtain ⟨-, n, hp'⟩ := h.levels _ _ hactive
    rw [hvalid, hclass, beq_self_eq_true, (sameCats_iff hp hp').mpr hcats.symm] at hnot
    cases hnot

theorem lvlStructToLid_iff
    (hspells : ∀ lvl', lvl'.lvlClass = lvl.lvlClass → categories lvl' = categories lvl →
      ∃ text, Spells t lvl' text) : lvlStructToLid t.db lvl = .ok lid ↔ ∃ lvl', t.Active lid lvl' ∧
      lvl'.lvlClass = lvl.lvlClass ∧ categories lvl' = categories lvl := by
  constructor
  · exact lvlStructToLid_ok h hp
  · rintro ⟨lvl₁, hactive₁, hclass₁, hcats₁⟩
    obtain ⟨lid', hlid'⟩ := lvlStructToLid_found h hp hactive₁ hclass₁ hcats₁
    obtain ⟨lvl₂, hactive₂, hclass₂, hcats₂⟩ := lvlStructToLid_ok h hp hlid'
    obtain ⟨-, m₁, hp₁⟩ := h.levels _ _ hactive₁
    obtain ⟨-, m₂, hp₂⟩ := h.levels _ _ hactive₂
    obtain ⟨text, htext⟩ := hspells lvl₁ hclass₁ hcats₁
    obtain ⟨text', hname₂, hname₁⟩ := htext.levelName hp₁ hp₂ (hclass₂.trans hclass₁.symm)
      (hcats₂.trans hcats₁.symm)
    rw [hlid', h.levelNames _ _ _ _ _ hactive₁ hactive₂ hname₁ hname₂]

end

end Svr42.Lvl
