import Svr42.LvlOut

/-! The memory that `lvlout` writes to, over calls in a row. -/

namespace Svr42.Lvl
open List Option Prod

variable {db : Ltdb} {malloc : Nat → Bool} {st st' : Statics} {lvl : MacLevel} {file : List Str}
  {cats : List Nat} {firstcat : Bool} {text name : Str} {need turns len total start c : Nat}

/-! ### One more category -/

theorem enlarge_once (hturns : 0 < turns) (h : need ≤ len * 2) : enlarge need turns len = len * 2 := by
  obtain ⟨turns, rfl⟩ := Nat.exists_eq_succ_of_ne_zero (Nat.ne_zero_of_lt hturns)
  rw [enlarge, if_neg (by omega)]

theorem le_enlarge : len ≤ enlarge need turns len := by
  induction turns generalizing len with
  | zero => exact Nat.le_refl len
  | succ turns ih =>
    rw [enlarge]
    split_ifs
    · exact Nat.le_trans (Nat.le_mul_of_pos_right len (by decide)) ih
    · exact Nat.le_mul_of_pos_right len (by decide)

def catsLength (file : List Str) : List Nat → Nat
  | [] => 0
  | c :: cats => ((indexToName file c).getD []).length + 1 + catsLength file cats

def Exact (malloc : Nat → Bool) (len total : Nat) : Prop :=
  ∃ i, total = len <<< i ∧ ∀ j, 0 < j → j ≤ i → malloc (len <<< j) = true

theorem exact_lt (h : total < len) : ¬ Exact malloc len total := by
  rintro ⟨i, hi, -⟩
  have hle : len ≤ len <<< i := by
    rw [Nat.shiftLeft_eq]
    exact Nat.le_mul_of_pos_right len (Nat.two_pow_pos i)
  omega

theorem exact_self : Exact malloc len len :=
  ⟨0, (Nat.shiftLeft_zero).symm, fun j hlow hhigh => by omega⟩

theorem exact_double (h : len < total) :
    Exact malloc len total ↔ malloc (len * 2) = true ∧ Exact malloc (len * 2) total := by
  have hshift : ∀ i, len <<< (i + 1) = (len * 2) <<< i := by
    intro i
    rw [Nat.shiftLeft_eq, Nat.shiftLeft_eq, Nat.pow_succ, Nat.mul_assoc, Nat.mul_comm 2]
  constructor
  · rintro ⟨i, hi, hmalloc⟩
    cases i with
    | zero => rw [Nat.shiftLeft_zero] at hi; omega
    | succ i =>
      refine ⟨?_, i, hi.trans (hshift i), fun j hlow hhigh => ?_⟩
      · have hone := hmalloc 1 (by omega) (by omega)
        rw [hshift 0, Nat.shiftLeft_zero] at hone
        exact hone
      · rw [← hshift]
        exact hmalloc (j + 1) (by omega) (by omega)
  · rintro ⟨hone, i, hi, hmalloc⟩
    refine ⟨i + 1, hi.trans (hshift i).symm, fun j hlow hhigh => ?_⟩
    obtain ⟨j, rfl⟩ := Nat.exists_eq_succ_of_ne_zero (Nat.ne_zero_of_lt hlow)
    rw [Nat.succ_eq_add_one, hshift]
    cases j with
    | zero =>
      rw [Nat.shiftLeft_zero]
      exact hone
    | succ j => exact hmalloc (j + 1) (by omega) (by omega)

def Fills (file : List Str) (malloc : Nat → Bool) (len start : Nat) (cats : List Nat) : Prop :=
  ∃ front back, cats = front ++ back ∧ front ≠ [] ∧ (∀ c ∈ front, indexToName file c ≠ none) ∧
    Exact malloc len (start + catsLength file front)

theorem fills_cons (hname : indexToName file c = some name) : Fills file malloc len start (c :: cats) ↔
      Exact malloc len (start + (name.length + 1)) ∨
        ∃ front back, cats = front ++ back ∧ front ≠ [] ∧ (∀ c ∈ front, indexToName file c ≠ none) ∧
          Exact malloc len (start + (name.length + 1) + catsLength file front) := by
  have hlength : ∀ front, catsLength file (c :: front) = name.length + 1 + catsLength file front := by
    intro front
    rw [catsLength, hname]
    rfl
  constructor
  · rintro ⟨front, back, heq, hne, hnamed, hexact⟩
    cases front with
    | nil => exact absurd rfl hne
    | cons d front =>
      obtain ⟨rfl, rfl⟩ := cons.inj heq
      rw [hlength, ← Nat.add_assoc] at hexact
      cases front with
      | nil => exact Or.inl hexact
      | cons d' front =>
        exact Or.inr ⟨d' :: front, back, rfl, cons_ne_nil _ _, fun x hx => hnamed x (.tail c hx), hexact⟩
  · rintro (hexact | ⟨front, back, rfl, -, hnamed, hexact⟩)
    · refine ⟨[c], cats, rfl, cons_ne_nil _ _, fun x hx => ?_, ?_⟩
      · rw [mem_singleton.mp hx, hname]
        exact some_ne_none name
      · rw [hlength]
        exact hexact
    · refine ⟨c :: front, back, rfl, cons_ne_nil _ _, fun x hx => ?_, ?_⟩
      · rcases mem_cons.mp hx with rfl | hin
        · rw [hname]
          exact some_ne_none name
        · exact hnamed x hin
      · rw [hlength, ← Nat.add_assoc]
        exact hexact

def Admitted (file : List Str) : Prop := ∀ name ∈ file, name.length ≤ LVL_MAXNAMELEN

theorem Admitted.indexToName (h : Admitted file) (hname : indexToName file c = some name) :
    name.length ≤ LVL_MAXNAMELEN := by
  unfold Lvl.indexToName at hname
  cases hget : file[c]? with
  | none =>
    rw [hget] at hname
    cases hname
  | some name' =>
    rw [hget] at hname
    dsimp only at hname
    split_ifs at hname
    obtain rfl := some.inj hname
    exact h _ (mem_of_getElem? hget)

def Fits (text : Str) (len : Nat) : Prop := text.length + 1 ≤ len

theorem addCats_none (hfile : Admitted file) (hfits : Fits text len) (hlen : INITBUFSIZ ≤ len) :
    addCats file malloc cats firstcat text len = none ↔ Fills file malloc len text.length cats := by
  induction cats generalizing firstcat text len with
  | nil =>
    refine iff_of_false (some_ne_none _) ?_
    rintro ⟨front, back, heq, hne, -⟩
    exact hne (append_eq_nil_iff.mp heq.symm).1
  | cons c cats ih =>
    rw [addCats]
    cases hname : indexToName file c with
    | none =>
      refine iff_of_false (some_ne_none _) ?_
      rintro ⟨front, back, heq, hne, hnamed, -⟩
      cases front with
      | nil => exact hne rfl
      | cons d front =>
        obtain ⟨rfl, -⟩ := cons.inj heq
        exact hnamed c (.head _) hname
    | some name =>
      have hadmitted := hfile.indexToName hname
      have hnext : (text ++ (if firstcat = true then colon else comma) :: name).length =
          text.length + (name.length + 1) := by
        rw [length_append, length_cons]
      unfold Fits at hfits
      unfold LVL_MAXNAMELEN at hadmitted
      unfold INITBUFSIZ at hlen
      rw [fills_cons hname]
      dsimp only
      rw [hnext]
      by_cases hneed : text.length + name.length + 1 > len
      · rw [if_pos hneed, enlarge_once (by omega) (by omega), exact_double (by omega)]
        by_cases hmalloc : malloc (len * 2) = false
        · rw [if_pos ⟨hneed, hmalloc⟩]
          refine iff_of_false (some_ne_none _) ?_
          rintro (⟨hmore, -⟩ | ⟨front, back, -, -, -, hexact⟩)
          · rw [hmalloc] at hmore
            cases hmore
          · rw [exact_double (by omega), hmalloc] at hexact
            cases hexact.1
        · rw [if_neg fun h => hmalloc h.2, if_neg (by omega)]
          rw [ih (by unfold Fits; omega) (by unfold INITBUFSIZ; omega), hnext, Fills]
          have hmore : malloc (len * 2) = true := Bool.not_eq_false _ ▸ hmalloc
          constructor
          · rintro ⟨front, back, heq, hne, hnamed, hexact⟩
            refine .inr ⟨front, back, heq, hne, hnamed, ?_⟩
            rw [exact_double (by omega)]
            exact ⟨hmore, hexact⟩
          · rintro (⟨-, hexact⟩ | ⟨front, back, heq, hne, hnamed, hexact⟩)
            · exact absurd hexact (exact_lt (by omega))
            · rw [exact_double (by omega)] at hexact
              exact ⟨front, back, heq, hne, hnamed, hexact.2⟩
      · rw [if_neg hneed, if_neg fun h => hneed h.1]
        by_cases hfull : text.length + (name.length + 1) = len
        · rw [if_pos (by omega), hfull]
          exact iff_of_true rfl (.inl exact_self)
        · rw [if_neg (by omega), ih (by unfold Fits; omega) (by unfold INITBUFSIZ; omega), hnext, Fills]
          exact ⟨.inr, fun h => h.resolve_left (exact_lt (by omega))⟩

theorem einval_ne : EINVAL ≠ ENOSPC := by decide

theorem eacces_ne : EACCES ≠ ENOSPC := by decide

theorem zero_ne : 0 ≠ ENOSPC := by decide

/-- What is left fits, and there is no less memory. -/
theorem addCats_fits (hfits : Fits text len) {r : Nat × Str × Nat}
    (h : addCats file malloc cats firstcat text len = some r) (hlen : INITBUFSIZ ≤ len) :
    Fits r.2.1 r.2.2 ∧ INITBUFSIZ ≤ r.2.2 ∧ r.1 ≠ ENOSPC := by
  induction cats generalizing firstcat text len with
  | nil =>
    obtain rfl := some.inj h
    exact ⟨hfits, hlen, zero_ne⟩
  | cons c cats ih =>
    rw [addCats] at h
    cases hname : indexToName file c with
    | none =>
      rw [hname] at h
      obtain rfl := some.inj h
      exact ⟨hfits, hlen, einval_ne⟩
    | some name =>
      rw [hname] at h
      dsimp only at h
      generalize (if firstcat = true then colon else comma) = separator at h
      by_cases hneed : text.length + name.length + 1 > len
      · rw [if_pos hneed] at h
        have hmore : len ≤ enlarge (text.length + name.length + 1) (text.length + name.length + 1) len :=
          le_enlarge
        split_ifs at h with hmalloc hroom
        · obtain rfl := some.inj h
          exact ⟨hfits, hlen, einval_ne⟩
        · exact ih (Nat.not_lt.mp hroom) h (Nat.le_trans hlen hmore)
      · rw [if_neg hneed, if_neg fun hboth => hneed hboth.1] at h
        split_ifs at h with hroom
        · exact ih (Nat.not_lt.mp hroom) h hlen

/-! ### One conversion -/

/-- A prefix of the text of a level, up to the end of a category, is as long as the memory it is in. -/
def Overruns (db : Ltdb) (malloc : Nat → Bool) (st : Statics) (lvl : MacLevel) : Prop :=
  ∃ classes name cats, db.ltfClass = some classes ∧ indexToName classes lvl.lvlClass = some name ∧
    (st.lvlname = none → malloc st.lvllength = true) ∧ allcats lvl = false ∧ db.ltfCat = some cats ∧
    Fills cats malloc st.lvllength name.length (categories lvl)

/-- The names in the level files are no longer than names may be. -/
structure AdmittedDb (db : Ltdb) : Prop where
  ltfClass : ∀ file, db.ltfClass = some file → Admitted file
  ltfCat : ∀ file, db.ltfCat = some file → Admitted file

/-- The static variables between two calls. -/
structure Sound (st : Statics) : Prop where
  lvllength : INITBUFSIZ ≤ st.lvllength
  lvlname : ∀ text, st.lvlname = some text → Fits text st.lvllength

theorem sound_statics : Sound statics :=
  ⟨Nat.le_refl INITBUFSIZ, nofun⟩

theorem cnvLvlToName_none (hdb : AdmittedDb db) (hst : Sound st) :
    cnvLvlToName db malloc st lvl = none ↔ Overruns db malloc st lvl := by
  have hlen := hst.lvllength
  unfold INITBUFSIZ at hlen
  rw [cnvLvlToName]
  cases hclass : db.ltfClass with
  | none =>
    refine iff_of_false (some_ne_none _) ?_
    rintro ⟨classes, name, cats, hsome, -⟩
    rw [hclass] at hsome
    cases hsome
  | some classes =>
    dsimp only
    cases hname : indexToName classes lvl.lvlClass with
    | none =>
      refine iff_of_false (some_ne_none _) ?_
      rintro ⟨classes', name, cats, hsome, hsome', -⟩
      obtain rfl := some.inj (hclass.symm.trans hsome)
      rw [hname] at hsome'
      cases hsome'
    | some name =>
      have hshort := (hdb.ltfClass classes hclass).indexToName hname
      unfold LVL_MAXNAMELEN at hshort
      dsimp only
      have hinv : Overruns db malloc st lvl ↔ (st.lvlname = none → malloc st.lvllength = true) ∧
          allcats lvl = false ∧ ∃ cats, db.ltfCat = some cats ∧
            Fills cats malloc st.lvllength name.length (categories lvl) := by
        constructor
        · rintro ⟨classes', name', cats, hsome, hsome', hgot, hall, hcat, hfills⟩
          obtain rfl := some.inj (hclass.symm.trans hsome)
          obtain rfl := some.inj (hname.symm.trans hsome')
          exact ⟨hgot, hall, cats, hcat, hfills⟩
        · rintro ⟨hgot, hall, cats, hcat, hfills⟩
          exact ⟨classes, name, cats, hclass, hname, hgot, hall, hcat, hfills⟩
      rw [hinv]
      by_cases hgot : st.lvlname = none ∧ malloc st.lvllength = false
      · rw [if_pos hgot]
        refine iff_of_false (some_ne_none _) fun h => ?_
        have hmalloc := h.1 hgot.1
        rw [hgot.2] at hmalloc
        cases hmalloc
      rw [if_neg hgot, if_neg (by omega)]
      have hgot' : st.lvlname = none → malloc st.lvllength = true := by
        intro hnone
        exact Bool.not_eq_false _ ▸ fun hmalloc => hgot ⟨hnone, hmalloc⟩
      by_cases hall : allcats lvl = true
      · have hfits : (name ++ colon :: LVL_ALLCATS).length = name.length + 4 := by
          rw [length_append]
          rfl
        rw [if_pos hall, if_neg (by omega)]
        refine iff_of_false (some_ne_none _) fun h => ?_
        rw [hall] at h
        cases h.2.1
      rw [if_neg hall]
      have hall' : allcats lvl = false := Bool.not_eq_true _ ▸ hall
      cases hcat : db.ltfCat with
      | none =>
        refine iff_of_false (some_ne_none _) fun h => ?_
        obtain ⟨cats, hcats, -⟩ := h.2.2
        cases hcats
      | some cats =>
        rw [map_eq_none_iff, addCats_none (hdb.ltfCat cats hcat) (by unfold Fits; omega) hst.lvllength]
        constructor
        · exact fun hfills => ⟨hgot', hall', cats, rfl, hfills⟩
        · rintro ⟨-, -, cats', hcats', hfills⟩
          obtain rfl := some.inj hcats'
          exact hfills

theorem Sound.keep (h : Sound st) (hfits : Fits text st.lvllength) :
    Sound { st with lvlname := some text } := by
  refine ⟨h.lvllength, fun t ht => ?_⟩
  obtain rfl := some.inj ht
  exact hfits

theorem cnvLvlToName_sound (hst : Sound st) {r : Nat × Statics} (h : cnvLvlToName db malloc st lvl = some r) :
    Sound r.2 ∧ r.1 ≠ ENOSPC := by
  rw [cnvLvlToName] at h
  split at h
  · obtain rfl := some.inj h
    exact ⟨hst, eacces_ne⟩
  · split at h
    · obtain rfl := some.inj h
      exact ⟨hst, einval_ne⟩
    · rename_i name _
      split_ifs at h with hgot hclass hall hroom
      · obtain rfl := some.inj h
        exact ⟨hst, einval_ne⟩
      · obtain rfl := some.inj h
        exact ⟨hst.keep (Nat.not_lt.mp hroom), zero_ne⟩
      · split at h
        · obtain rfl := some.inj h
          exact ⟨hst.keep (Nat.not_lt.mp hclass), eacces_ne⟩
        · obtain ⟨r', hr', rfl⟩ := map_eq_some_iff.mp h
          obtain ⟨hfits, hlen, herr⟩ := addCats_fits (Nat.not_lt.mp hclass) hr' hst.lvllength
          refine ⟨⟨hlen, fun t ht => ?_⟩, herr⟩
          obtain rfl := some.inj ht
          exact hfits

/-! ### One call -/

/-- The string a call of `lvlout` has to deliver. -/
def Converts (db : Ltdb) (malloc : Nat → Bool) (st : Statics) (c : Call) (text : Str) : Prop :=
  ∃ lvl st', lvlLidToStruct db c.lid = .ok lvl ∧
    (convert db malloc st c.lid lvl c.format = some (.name text, st') ∨
      convert db malloc st c.lid lvl c.format = some (.lid text, st'))

def Strays (db : Ltdb) (malloc : Nat → Bool) (st : Statics) (c : Call) : Prop :=
  ∃ lvl, lvlLidToStruct db c.lid = .ok lvl ∧ c.format = .lvlFull ∧ lvl.lvlValid = .active ∧
    Overruns db malloc st lvl

/-- What a call may do with the buffer of its caller, and when it fails for lack of space. -/
structure Delivers (db : Ltdb) (malloc : Nat → Bool) (st : Statics) (c : Call) (answer : Answer) : Prop where
  written : ∀ text, answer.written = some text → (text.length + 1 : Int) ≤ c.bufsize
  enospc : answer.errno = ENOSPC ↔
    c.bufsize ≠ 0 ∧ ∃ text, Converts db malloc st c text ∧ c.bufsize < text.length + 1
  failed : answer.errno ≠ 0 → answer.retval = -1 ∧ answer.written = none
  size : c.bufsize = 0 → ∀ text, Converts db malloc st c text → answer = ⟨text.length + 1, 0, none⟩
  text : 0 < c.bufsize → ∀ text, Converts db malloc st c text → text.length + 1 ≤ c.bufsize →
    answer.errno = 0 ∧ answer.written = some text

variable {call : Call}

theorem lvlout_none (hdb : AdmittedDb db) (hst : Sound st) :
    lvlout db malloc st call.lid call.bufsize call.format = none ↔ Strays db malloc st call := by
  rw [lvlout]
  cases hlid : lvlLidToStruct db call.lid with
  | error err =>
    refine iff_of_false (some_ne_none _) ?_
    rintro ⟨lvl, hok, -⟩
    rw [hlid] at hok
    cases hok
  | ok lvl =>
    rw [map_eq_none_iff]
    have hinv : Strays db malloc st call ↔
        call.format = .lvlFull ∧ lvl.lvlValid = .active ∧ Overruns db malloc st lvl := by
      constructor
      · rintro ⟨lvl', hok, hrest⟩
        rw [hlid] at hok
        obtain rfl := Except.ok.inj hok
        exact hrest
      · exact fun h => ⟨lvl, hlid, h⟩
    rw [hinv]
    cases hformat : call.format with
    | lvlAlias => exact iff_of_false (some_ne_none _) fun h => by cases h.1
    | other => exact iff_of_false (some_ne_none _) fun h => by cases h.1
    | lvlFull =>
      rw [convert]
      split_ifs with hactive
      · rw [map_eq_none_iff, cnvLvlToName_none hdb hst]
        exact ⟨fun h => ⟨rfl, hactive, h⟩, fun h => h.2.2⟩
      · exact iff_of_false not_false fun h => hactive h.2.1

theorem convert_sound (hst : Sound st) {lid : Nat} {format : Format} {r : Text × Statics}
    (h : convert db malloc st lid lvl format = some r) : Sound r.2 ∧ r.1 ≠ .error ENOSPC := by
  cases format with
  | lvlAlias =>
    obtain rfl := some.inj h
    refine ⟨hst, ?_⟩
    split_ifs with hactive
    · rw [lidToAlias]
      split
      · exact fun herr => eacces_ne (Text.error.inj herr)
      · split
        · exact Text.noConfusion
        · exact Text.noConfusion
    · exact Text.noConfusion
  | other =>
    obtain rfl := some.inj h
    exact ⟨hst, fun herr => einval_ne (Text.error.inj herr)⟩
  | lvlFull =>
    rw [convert] at h
    split_ifs at h with hactive
    · obtain ⟨r', hr', rfl⟩ := map_eq_some_iff.mp h
      obtain ⟨hsound, herr⟩ := cnvLvlToName_sound hst hr'
      refine ⟨hsound, ?_⟩
      split_ifs with hzero
      · exact Text.noConfusion
      · exact fun hsame => herr (Text.error.inj hsame)
    · obtain rfl := some.inj h
      exact ⟨hst, Text.noConfusion⟩

theorem deliver_cases (text : Str) (retval bufsize : Int) :
    (bufsize = 0 ∧ deliver text retval bufsize = ⟨text.length + 1, 0, none⟩) ∨
      (bufsize ≠ 0 ∧ bufsize < text.length + 1 ∧ deliver text retval bufsize = ⟨-1, ENOSPC, none⟩) ∨
      (bufsize ≠ 0 ∧ ¬ bufsize < text.length + 1 ∧ deliver text retval bufsize = ⟨retval, 0, some text⟩) := by
  rw [deliver]
  by_cases hzero : bufsize = 0
  · exact .inl ⟨hzero, if_pos hzero⟩
  · by_cases hspace : bufsize < text.length + 1
    · exact .inr (.inl ⟨hzero, hspace, (if_neg hzero).trans (if_pos hspace)⟩)
    · exact .inr (.inr ⟨hzero, hspace, (if_neg hzero).trans (if_neg hspace)⟩)

theorem Delivers.of_text {answer : Answer} {retval : Int}
    (h : ∀ t, Converts db malloc st call t ↔ t = text)
    (hanswer : answer = deliver text retval call.bufsize) : Delivers db malloc st call answer := by
  have hself : Converts db malloc st call text := (h text).mpr rfl
  rcases deliver_cases text retval call.bufsize with
    ⟨hzero, hdeliver⟩ | ⟨hzero, hspace, hdeliver⟩ | ⟨hzero, hspace, hdeliver⟩
  · rw [hdeliver] at hanswer
    rw [hanswer]
    refine ⟨fun t ht => (by cases ht), ?_, fun herr => absurd rfl herr, fun _ t ht => ?_, fun hpos => ?_⟩
    · exact iff_of_false zero_ne fun hspace => hspace.1 hzero
    · rw [(h t).mp ht]
    · exact absurd hzero (by omega)
  · rw [hdeliver] at hanswer
    rw [hanswer]
    refine ⟨fun t ht => (by cases ht), ?_, fun _ => ⟨rfl, rfl⟩, fun hnone => absurd hnone hzero,
      fun _ t ht hfits => ?_⟩
    · exact iff_of_true rfl ⟨hzero, text, hself, hspace⟩
    · rw [(h t).mp ht] at hfits
      omega
  · rw [hdeliver] at hanswer
    rw [hanswer]
    refine ⟨fun t ht => ?_, ?_, fun herr => absurd rfl herr, fun hnone => absurd hnone hzero,
      fun _ t ht _ => ⟨rfl, ?_⟩⟩
    · rw [← some.inj ht]
      omega
    · refine iff_of_false zero_ne ?_
      rintro ⟨-, t, ht, hless⟩
      rw [(h t).mp ht] at hless
      exact hspace hless
    · rw [(h t).mp ht]

theorem Delivers.of_error {err : Nat} (h : ∀ t, ¬ Converts db malloc st call t) (herr : err ≠ ENOSPC) :
    Delivers db malloc st call ⟨-1, err, none⟩ where
  written := fun t ht => by cases ht
  enospc := iff_of_false herr fun hspace => Exists.elim hspace.2 fun t ht => h t ht.1
  failed := fun _ => ⟨rfl, rfl⟩
  size := fun _ t ht => absurd ht (h t)
  text := fun _ t ht => absurd ht (h t)

theorem lvlLidToStruct_error {lid err : Nat} (h : lvlLidToStruct db lid = .error err) : err ≠ ENOSPC := by
  rw [lvlLidToStruct] at h
  split_ifs at h with hzero
  · obtain rfl := Except.error.inj h
    exact einval_ne
  · split at h
    · obtain rfl := Except.error.inj h
      exact eacces_ne
    · split at h
      · obtain rfl := Except.error.inj h
        exact einval_ne
      · split_ifs at h with hvalid
        obtain rfl := Except.error.inj h
        exact einval_ne

/-- A call that stays in its memory. -/
theorem lvlout_delivers (hst : Sound st) {r : Answer × Statics}
    (h : lvlout db malloc st call.lid call.bufsize call.format = some r) :
    Delivers db malloc st call r.1 ∧ Sound r.2 := by
  rw [lvlout] at h
  cases hlid : lvlLidToStruct db call.lid with
  | error err =>
    rw [hlid] at h
    obtain rfl := some.inj h
    refine ⟨Delivers.of_error ?_ (lvlLidToStruct_error hlid), hst⟩
    rintro t ⟨lvl, st', hok, -⟩
    rw [hlid] at hok
    cases hok
  | ok lvl =>
    rw [hlid] at h
    obtain ⟨⟨text, st'⟩, hconvert, hr⟩ := map_eq_some_iff.mp h
    obtain ⟨hsound, herr⟩ := convert_sound hst hconvert
    have hinv : ∀ t, Converts db malloc st call t ↔ text = .name t ∨ text = .lid t := by
      intro t
      constructor
      · rintro ⟨lvl', st'', hok, hsome⟩
        rw [hlid] at hok
        obtain rfl := Except.ok.inj hok
        rw [hconvert] at hsome
        rcases hsome with hsome | hsome
        · exact .inl (mk.inj (some.inj hsome)).1
        · exact .inr (mk.inj (some.inj hsome)).1
      · rintro (rfl | rfl)
        · exact ⟨lvl, st', hlid, .inl hconvert⟩
        · exact ⟨lvl, st', hlid, .inr hconvert⟩
    cases text with
    | name name =>
      obtain rfl := hr
      refine ⟨Delivers.of_text (fun t => ?_) rfl, hsound⟩
      rw [hinv]
      exact ⟨fun hor => hor.elim (fun hn => (Text.name.inj hn).symm) fun hl => (by cases hl),
        fun heq => .inl (congrArg Text.name heq.symm)⟩
    | lid name =>
      obtain rfl := hr
      refine ⟨Delivers.of_text (fun t => ?_) rfl, hsound⟩
      rw [hinv]
      exact ⟨fun hor => hor.elim nofun fun hl => (Text.lid.inj hl).symm,
        fun heq => .inr (congrArg Text.lid heq.symm)⟩
    | error err =>
      obtain rfl := hr
      refine ⟨Delivers.of_error (fun t ht => ?_) fun hsame => herr (congrArg Text.error hsame), hsound⟩
      rw [hinv] at ht
      rcases ht with ht | ht
      · cases ht
      · cases ht

/-! ### Calls in a row -/

variable {list : List (Call × (Nat → Bool))}

theorem calls_sound (hst : Sound st) {r : List Answer × Statics} (h : calls db st list = some r) :
    Sound r.2 := by
  induction list generalizing st r with
  | nil =>
    obtain rfl := some.inj h
    exact hst
  | cons c list ih =>
    obtain ⟨r', hcall, hmap⟩ := bind_eq_some_iff.mp h
    obtain ⟨rs, hrest, rfl⟩ := map_eq_some_iff.mp hmap
    have hsound : Sound rs.2 := ih (lvlout_delivers hst hcall).2 hrest
    exact hsound

theorem calls_none (hdb : AdmittedDb db) (hst : Sound st) :
    calls db st list = none ↔ ∃ front call malloc back answers st', list = front ++ (call, malloc) :: back ∧
      calls db st front = some (answers, st') ∧ Strays db malloc st' call := by
  induction list generalizing st with
  | nil =>
    refine iff_of_false (some_ne_none _) ?_
    rintro ⟨front, call, malloc, back, answers, st', heq, -⟩
    exact cons_ne_nil _ _ (append_eq_nil_iff.mp heq.symm).2
  | cons c list ih =>
    obtain ⟨call, malloc⟩ := c
    rw [calls]
    cases hcall : lvlout db malloc st call.lid call.bufsize call.format with
    | none =>
      exact iff_of_true rfl ⟨[], call, malloc, list, [], st, rfl, rfl, (lvlout_none hdb hst).mp hcall⟩
    | some r =>
      have hsound := (lvlout_delivers hst hcall).2
      rw [bind_some, map_eq_none_iff, ih hsound]
      constructor
      · rintro ⟨front, call', malloc', back, answers, st', rfl, hfront, hstrays⟩
        refine ⟨(call, malloc) :: front, call', malloc', back, r.1 :: answers, st', rfl, ?_, hstrays⟩
        rw [calls, hcall, bind_some, hfront]
        rfl
      · rintro ⟨front, call', malloc', back, answers, st', heq, hfront, hstrays⟩
        cases front with
        | nil =>
          obtain ⟨hfirst, -⟩ := cons.inj heq
          obtain ⟨rfl, rfl⟩ := mk.inj hfirst
          obtain ⟨-, rfl⟩ := mk.inj (some.inj hfront)
          rw [(lvlout_none hdb hst).mpr hstrays] at hcall
          cases hcall
        | cons c front =>
          obtain ⟨rfl, rfl⟩ := cons.inj heq
          rw [calls, hcall, bind_some] at hfront
          obtain ⟨rs, hrs, heq'⟩ := map_eq_some_iff.mp hfront
          obtain ⟨-, rfl⟩ := mk.inj heq'
          exact ⟨front, call', malloc', back, rs.1, rs.2, rfl, hrs, hstrays⟩

/-- Nothing is written behind memory or buffer in a program that calls `lvlout`, and each call delivers
what it has to. -/
structure Safe (db : Ltdb) (list : List (Call × (Nat → Bool))) : Prop where
  inside : calls db statics list ≠ none
  fits : ∀ front back answers st, list = front ++ back → calls db statics front = some (answers, st) →
    ∀ text, st.lvlname = some text → Fits text st.lvllength
  delivers : ∀ front call malloc back answers st, list = front ++ (call, malloc) :: back →
    calls db statics front = some (answers, st) →
      ∀ r, lvlout db malloc st call.lid call.bufsize call.format = some r →
        Delivers db malloc st call r.1

theorem lvlout_safe (db : Ltdb) (hdb : AdmittedDb db) (list : List (Call × (Nat → Bool))) :
    Safe db list ↔ ∀ front call malloc back answers st, list = front ++ (call, malloc) :: back →
      calls db statics front = some (answers, st) → ¬ Strays db malloc st call := by
  constructor
  · intro hsafe front call malloc back answers st heq hfront hstrays
    exact hsafe.inside ((calls_none hdb sound_statics).mpr
      ⟨front, call, malloc, back, answers, st, heq, hfront, hstrays⟩)
  · intro h
    refine ⟨fun hnone => ?_, fun front back answers st _ hfront => ?_,
      fun front call malloc back answers st _ hfront r hr => ?_⟩
    · obtain ⟨front, call, malloc, back, answers, st, heq, hfront, hstrays⟩ :=
        (calls_none hdb sound_statics).mp hnone
      exact h front call malloc back answers st heq hfront hstrays
    · exact (calls_sound sound_statics hfront).lvlname
    · exact (lvlout_delivers (calls_sound sound_statics hfront) hr).1

/-- A level of class 1 with the categories whose bits are given. -/
def oneWord (cat : BitVec 32) : MacLevel where
  lvlCat := fun j => if j = 0 then cat else 0
  lvlClass := 1
  lvlValid := .active
  lvlCatsig := fun j => if j = 0 then 1 else 0

/-- One level, "A:b,c". -/
def shortDb : Ltdb where
  ltfLid := some [oneWord 0, oneWord 0xc0000000]
  ltfClass := some [[], [65]]
  ltfCat := some [[], [98], [99]]
  ltfAlias := some []

theorem shortDb_admitted : AdmittedDb shortDb := by
  refine ⟨fun file hfile => ?_, fun file hfile => ?_⟩
  · obtain rfl := some.inj hfile
    unfold Admitted
    decide
  · obtain rfl := some.inj hfile
    unfold Admitted
    decide

/-- The buffer has room for five characters, or for six. -/
theorem lvlout_safe_shortDb :
    Safe shortDb [(⟨1, 5, .lvlFull⟩, fun _ => true), (⟨1, 6, .lvlFull⟩, fun _ => true)] := by
  refine (lvlout_safe shortDb shortDb_admitted _).mpr ?_
  intro front call malloc back answers st heq hfront hstrays
  have hnone := (calls_none shortDb_admitted sound_statics).mpr
    ⟨front, call, malloc, back, answers, st, heq, hfront, hstrays⟩
  cases hnone

/-- A class with 16 characters and 16 categories with 30 characters. -/
def longDb : Ltdb where
  ltfLid := some [oneWord 0, oneWord 0xffff0000]
  ltfClass := some [[], List.replicate 16 65]
  ltfCat := some ([] :: (List.range 16).map fun i => (97 + i).toUInt8 :: List.replicate 29 98)
  ltfAlias := some []

set_option maxRecDepth 10000 in
/-- The 512 characters leave no room for the null byte. -/
theorem lvlout_strays : AdmittedDb longDb ∧
    calls longDb statics [(⟨1, 0, .lvlFull⟩, fun _ => true)] = none := by
  refine ⟨⟨fun file hfile => ?_, fun file hfile => ?_⟩, rfl⟩
  · obtain rfl := some.inj hfile
    unfold Admitted
    decide
  · obtain rfl := some.inj hfile
    unfold Admitted
    decide

end Svr42.Lvl
