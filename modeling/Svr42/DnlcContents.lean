import Mathlib.Algebra.BigOperators.Ring.Finset
import Mathlib.Tactic.Ring
import Svr42.DnlcLinks

/-! What the entries of the name cache stand for, and what every call makes of it. -/

namespace Svr42.Dnlc
open Function Int List Option

/-- What an entry stands for: the vnode a name in a directory leads to, for a credential. -/
@[ext]
structure View (Vnode Cred : Type) where
  dp : Option Vnode
  vp : Option Vnode
  text : List (BitVec 8)
  cred : CredPtr Cred

def Ncache.view {Vnode Cred : Type} (e : Ncache Vnode Cred) : View Vnode Cred :=
  ⟨e.dp, e.vp, (List.range e.namlen).map e.name, e.cred⟩

def Dnlc.view {n : Nat} {Vnode Cred Vfs : Type} (s : Dnlc n Vnode Cred Vfs) (i : Fin n) :
    View Vnode Cred := (s.cache (.entry i)).view

variable {n : Nat} {Vnode Cred Vfs : Type} {k : Kernel Vnode} {s t : Dnlc n Vnode Cred Vfs}
  {e : Ncache Vnode Cred} {dp vp v : Vnode} {name : CString} {cred : CredPtr Cred}
  {lid : BitVec 32} {i j : Fin n} {view : Fin n → View Vnode Cred} {w : View Vnode Cred}

theorem ncHash_lt : ncHash k name dp < k.nchashSize := by
  have hpos := k.nchashSize_pos
  calc ncHash k name dp
      ≤ (BitVec.ofNat 32 (k.nchashSize - 1)).toNat := by
        unfold ncHash
        rw [BitVec.toNat_and]
        exact Nat.and_le_right
    _ ≤ k.nchashSize - 1 := by
        rw [BitVec.toNat_ofNat]
        exact Nat.mod_le _ _
    _ < k.nchashSize := by omega

def hashOf (k : Kernel Vnode) (text : List (BitVec 8)) (dp : Vnode) : Fin k.nchashSize :=
  ⟨ncHash k ⟨0, text⟩ dp, ncHash_lt⟩

theorem ncHash_eq (hname : name.chars ≠ []) : ncHash k name dp = hashOf k name.chars dp := by
  have hlength : 0 < name.chars.length := length_pos_iff.mpr hname
  have hlast : ∀ front, CString.get ⟨front, name.chars⟩ ((name.chars.length : Int) - 1) =
      name.chars.getD ((name.chars.length : Int) - 1).toNat 0 := by
    intro front
    exact if_neg (by omega)
  have hlast' : name.get ((name.chars.length : Int) - 1) =
      name.chars.getD ((name.chars.length : Int) - 1).toNat 0 := hlast name.front
  unfold hashOf ncHash CString.strlen
  simp only [hlast]
  rfl

/-! ### What an entry is found by -/

theorem get_eq (m : Nat) : name.get m = name.chars.getD m 0 := by
  unfold CString.get
  rw [if_neg (by omega), toNat_natCast]

theorem text_eq_iff : e.view.text = name.chars ↔
    e.namlen = name.strlen ∧ ∀ m < name.strlen, e.name m = name.get m := by
  unfold Ncache.view CString.strlen
  constructor
  · intro htext
    have hlength : e.namlen = name.chars.length := by
      rw [← htext, length_map, length_range]
    refine ⟨hlength, fun m hm => ?_⟩
    have hm' : m < e.namlen := by omega
    rw [get_eq, ← htext, getD_eq_getElem?_getD]
    simp [hm']
  · rintro ⟨hlength, hbytes⟩
    apply ext_getElem
    · rw [length_map, length_range, hlength]
    · intro m hm hm'
      rw [getElem_map, getElem_range, hbytes m hm', get_eq,
        getD_eq_getElem?_getD, getElem?_eq_getElem hm', getD_some]

theorem view_update (h : t.cache = Function.update s.cache (.entry i) e) :
    t.view = Function.update s.view i e.view := by
  funext j
  unfold Dnlc.view
  rw [h]
  by_cases hj : j = i
  · rw [hj, update_self, update_self]
  · rw [update_of_ne hj, update_of_ne fun heq => hj (entry_injective heq)]

theorem found_iff (hname : name.chars ≠ []) : Found e dp name cred ↔
    e.view.dp = some dp ∧ e.view.text = name.chars ∧ (cred = .anycred ∨ e.view.cred = cred) := by
  have hlength : 0 < name.strlen := length_pos_iff.mpr hname
  rw [text_eq_iff]
  constructor
  · rintro ⟨hdp, hnamlen, hcred, -, hbytes⟩
    exact ⟨hdp, ⟨hnamlen, hbytes⟩, hcred⟩
  · rintro ⟨hdp, ⟨hnamlen, hbytes⟩, hcred⟩
    exact ⟨hdp, hnamlen, hcred, hbytes 0 hlength, hbytes⟩

/-! ### The contents of the cache -/

/-- The entries that stand for a name are on its chain, and no others are on any; no two stand for
the same. -/
structure Filled (k : Kernel Vnode) (view : Fin n → View Vnode Cred)
    (chains : Fin k.nchashSize → List (Fin n)) : Prop where
  empty : ∀ i, (view i).dp = none →
    (view i).vp = none ∧ (view i).cred = .nocred ∧ ∀ h, i ∉ chains h
  full : ∀ i dp, (view i).dp = some dp → (∃ vp, (view i).vp = some vp) ∧ (view i).text ≠ [] ∧
    (view i).text.length ≤ ncNAMLEN ∧ i ∈ chains (hashOf k (view i).text dp)
  unique : ∀ i j, (view i).dp ≠ none → (view i).dp = (view j).dp → (view i).text = (view j).text →
    (view i).cred = (view j).cred → i = j

variable {chains chains' : Fin k.nchashSize → List (Fin n)} {lru : List (Fin n)}

namespace Filled

section

variable (hf : Filled k view chains)
include hf

theorem congr (hchains : ∀ h i, i ∈ chains' h ↔ i ∈ chains h) : Filled k view chains' := by
  refine ⟨fun i hi => ?_, fun i dp hi => ?_, hf.unique⟩
  · obtain ⟨hvp, hcred, hoff⟩ := hf.empty i hi
    exact ⟨hvp, hcred, fun h hmem => hoff h ((hchains h i).mp hmem)⟩
  · obtain ⟨hvp, hne, hlength, hon⟩ := hf.full i dp hi
    exact ⟨hvp, hne, hlength, (hchains _ i).mpr hon⟩

/-- An entry is emptied and is on no chain any more. -/
theorem clear (i : Fin n) (hdp : w.dp = none) (hvp : w.vp = none)
    (hcred : w.cred = .nocred) (hchains : ∀ h j, j ∈ chains' h ↔ j ∈ chains h ∧ j ≠ i) :
    Filled k (Function.update view i w) chains' := by
  constructor
  · intro j hj
    by_cases hji : j = i
    · rw [hji, update_self]
      exact ⟨hvp, hcred, fun h hmem => ((hchains h i).mp hmem).2 rfl⟩
    · rw [update_of_ne hji] at hj ⊢
      obtain ⟨hvp, hcred, hoff⟩ := hf.empty j hj
      exact ⟨hvp, hcred, fun h hmem => hoff h ((hchains h j).mp hmem).1⟩
  · intro j dp hj
    by_cases hji : j = i
    · rw [hji, update_self, hdp] at hj
      cases hj
    · rw [update_of_ne hji] at hj ⊢
      obtain ⟨hvp, hne, hlength, hon⟩ := hf.full j dp hj
      exact ⟨hvp, hne, hlength, (hchains _ j).mpr ⟨hon, hji⟩⟩
  · intro j j' hj hsame
    by_cases hji : j = i
    · rw [hji, update_self] at hj
      exact absurd hdp hj
    by_cases hji' : j' = i
    · rw [update_of_ne hji] at hj hsame
      rw [hji', update_self, hdp] at hsame
      exact absurd hsame hj
    · rw [update_of_ne hji] at hj hsame ⊢
      rw [update_of_ne hji'] at hsame ⊢
      exact hf.unique j j' hj hsame

/-- An entry is made to stand for a name that none stands for. -/
theorem put (i : Fin n) {w : View Vnode Cred} (hdp : w.dp = some dp)
    (hvp : w.vp = some vp) (hne : w.text ≠ []) (hlength : w.text.length ≤ ncNAMLEN)
    (hnew : ∀ j, (view j).dp = w.dp → (view j).text = w.text → (view j).cred ≠ w.cred)
    (hchains : ∀ h j, j ∈ chains' h ↔ j ∈ chains h ∧ j ≠ i ∨ j = i ∧ h = hashOf k w.text dp) :
    Filled k (Function.update view i w) chains' := by
  constructor
  · intro j hj
    by_cases hji : j = i
    · rw [hji, update_self, hdp] at hj
      cases hj
    rw [update_of_ne hji] at hj ⊢
    obtain ⟨hvp, hcred, hoff⟩ := hf.empty j hj
    refine ⟨hvp, hcred, fun h hmem => ?_⟩
    rcases (hchains h j).mp hmem with ⟨hold, -⟩ | ⟨heq, -⟩
    · exact hoff h hold
    · exact hji heq
  · intro j d hj
    by_cases hji : j = i
    · rw [hji, update_self] at hj ⊢
      have hd : d = dp := some_injective _ (hj.symm.trans hdp)
      exact ⟨⟨vp, hvp⟩, hne, hlength, (hchains _ i).mpr (.inr ⟨rfl, by rw [hd]⟩)⟩
    · rw [update_of_ne hji] at hj ⊢
      obtain ⟨hvp, hne, hlength, hon⟩ := hf.full j d hj
      exact ⟨hvp, hne, hlength, (hchains _ j).mpr (.inl ⟨hon, hji⟩)⟩
  · intro j j' hj hsame htext hcred
    by_cases hji : j = i
    · by_cases hji' : j' = i
      · rw [hji, hji']
      · rw [hji, update_self, update_of_ne hji'] at hsame htext hcred
        exact absurd hcred.symm (hnew j' hsame.symm htext.symm)
    · rw [update_of_ne hji] at hj hsame htext hcred
      by_cases hji' : j' = i
      · rw [hji', update_self] at hsame htext hcred
        exact absurd hcred (hnew j hsame htext)
      · rw [update_of_ne hji'] at hsame htext hcred
        exact hf.unique j j' hj hsame htext hcred

end

end Filled

variable [DecidableEq Vnode] [DecidableEq Cred]

/-! ### Holds -/

def tally {α : Type} [DecidableEq α] (field : Fin n → α) (a : α) : Int :=
  ∑ i, if field i = a then 1 else 0

theorem tally_update {α : Type} [DecidableEq α] (field : Fin n → α) (i : Fin n) (b a : α) :
    tally (Function.update field i b) a =
      tally field a - (if field i = a then 1 else 0) + if b = a then 1 else 0 := by
  have hi : i ∈ Finset.univ := Finset.mem_univ i
  have hrest : ∑ j ∈ Finset.univ.erase i, (if Function.update field i b j = a then (1 : Int) else 0) =
      ∑ j ∈ Finset.univ.erase i, if field j = a then 1 else 0 := by
    refine Finset.sum_congr rfl fun j hj => ?_
    rw [update_of_ne (Finset.ne_of_mem_erase hj)]
  unfold tally
  rw [← Finset.add_sum_erase _ _ hi, hrest, update_self,
    ← Finset.add_sum_erase _ (fun j => if field j = a then (1 : Int) else 0) hi]
  ring

/-- Every vnode has a hold, apart from those that others have on it, for each time an entry names it;
so have credentials. -/
structure Counted (view : Fin n → View Vnode Cred) (s : Dnlc n Vnode Cred Vfs)
    (others : Vnode → Int) (crOthers : CredPtr Cred → Int) : Prop where
  vnodes : ∀ v, s.vCount v =
    others v + tally (fun i => (view i).dp) (some v) + tally (fun i => (view i).vp) (some v)
  creds : ∀ c, c ≠ .nocred → s.crRef c = crOthers c + tally (fun i => (view i).cred) c

variable {others : Vnode → Int} {crOthers : CredPtr Cred → Int}

theorem Counted.update (h : Counted view s others crOthers) (hvnodes : ∀ v, t.vCount v = s.vCount v -
      (if (view i).dp = some v then 1 else 0) - (if (view i).vp = some v then 1 else 0) +
      (if w.dp = some v then 1 else 0) + if w.vp = some v then 1 else 0)
    (hcreds : ∀ c, c ≠ .nocred → t.crRef c = s.crRef c -
      (if (view i).cred = c then 1 else 0) + if w.cred = c then 1 else 0) :
    Counted (Function.update view i w) t others crOthers := by
  have hfield : ∀ {α : Type} (field : View Vnode Cred → α),
      (fun j => field (Function.update view i w j)) =
        Function.update (fun j => field (view j)) i (field w) := by
    intro α field
    funext j
    by_cases hj : j = i
    · rw [hj, update_self, update_self]
    · rw [update_of_ne hj, update_of_ne hj]
  constructor
  · intro v
    rw [hvnodes, h.vnodes, hfield View.dp, hfield View.vp, tally_update, tally_update]
    ring
  · intro c hc
    rw [hcreds c hc, h.creds c hc, hfield View.cred, tally_update]
    ring

omit [DecidableEq Cred] in
theorem vnRele_vCount (v : Vnode) :
    (vnRele s vp).vCount v = s.vCount v - if some vp = some v then 1 else 0 := by
  by_cases hv : v = vp
  · rw [hv, if_pos rfl]
    exact update_self _ _ _
  · rw [if_neg fun heq => hv (some_injective _ heq).symm, sub_zero]
    exact update_of_ne hv _ _

omit [DecidableEq Cred] in
theorem vnHold_vCount (v : Vnode) :
    (vnHold s vp).vCount v = s.vCount v + if some vp = some v then 1 else 0 := by
  by_cases hv : v = vp
  · rw [hv, if_pos rfl]
    exact update_self _ _ _
  · rw [if_neg fun heq => hv (some_injective _ heq).symm, add_zero]
    exact update_of_ne hv _ _

omit [DecidableEq Cred] in
theorem releIf_vCount (vp : Option Vnode) (v : Vnode) :
    (releIf s vp).vCount v = s.vCount v - if vp = some v then 1 else 0 := by
  cases vp with
  | none => rw [releIf, if_neg (some_ne_none v).symm, sub_zero]
  | some vp => exact vnRele_vCount v

variable {c : CredPtr Cred}

omit [DecidableEq Vnode] in
theorem crfreeIf_crRef (hc : c ≠ .nocred) :
    (crfreeIf s cred).crRef c = s.crRef c - if cred = c then 1 else 0 := by
  unfold crfreeIf
  by_cases hcred : cred = .nocred
  · rw [if_pos hcred, if_neg fun heq => hc (heq.symm.trans hcred), sub_zero]
  rw [if_neg hcred]
  by_cases heq : c = cred
  · rw [heq, if_pos rfl]
    exact update_self _ _ _
  · rw [if_neg (Ne.symm heq), sub_zero]
    exact update_of_ne heq _ _

omit [DecidableEq Vnode] in
theorem crholdIf_crRef (hc : c ≠ .nocred) :
    (crholdIf s cred).crRef c = s.crRef c + if cred = c then 1 else 0 := by
  unfold crholdIf
  by_cases hcred : cred = .nocred
  · rw [if_pos hcred, if_neg fun heq => hc (heq.symm.trans hcred), add_zero]
  rw [if_neg hcred]
  by_cases heq : c = cred
  · rw [heq, if_pos rfl]
    exact update_self _ _ _
  · rw [if_neg (Ne.symm heq), add_zero]
    exact update_of_ne heq _ _

/-- A cache in order. -/
structure Good (k : Kernel Vnode) (others : Vnode → Int) (crOthers : CredPtr Cred → Int)
    (s : Dnlc n Vnode Cred Vfs) (chains : Fin k.nchashSize → List (Fin n)) (lru : List (Fin n)) :
    Prop where
  hashed : Hashed s none chains
  aged : Aged s none lru
  filled : Filled k s.view chains
  counted : Counted s.view s others crOthers

/-- The same contents. -/
structure Same (s t : Dnlc n Vnode Cred Vfs) : Prop where
  view : t.view = s.view
  vCount : t.vCount = s.vCount
  crRef : t.crRef = s.crRef
  vVfsp : t.vVfsp = s.vVfsp
  doingcache : t.doingcache = s.doingcache

/-- And the same links. -/
structure Alike (s t : Dnlc n Vnode Cred Vfs) : Prop extends Same s t where
  hashNext : t.hashNext = s.hashNext
  hashPrev : t.hashPrev = s.hashPrev
  lruNext : t.lruNext = s.lruNext
  lruPrev : t.lruPrev = s.lruPrev

theorem Counted.same (h : Counted view s others crOthers) (hvCount : t.vCount = s.vCount)
    (hcrRef : t.crRef = s.crRef) : Counted view t others crOthers := by
  refine ⟨fun v => ?_, fun c hc => ?_⟩
  · rw [hvCount]
    exact h.vnodes v
  · rw [hcrRef]
    exact h.creds c hc

theorem Good.alike (hs : Good k others crOthers s chains lru) (h : Alike s t) :
    Good k others crOthers t chains lru := by
  refine ⟨hs.hashed.congr h.hashNext h.hashPrev, hs.aged.congr h.lruNext h.lruPrev, ?_, ?_⟩
  · rw [h.view]
    exact hs.filled
  · rw [h.view]
    exact hs.counted.same h.vCount h.crRef

/-! ### `dnlc_search` -/

def Searched (test : Fin n → Prop) (r : Option (Ncp n)) : Prop :=
  (r = none ∧ ∀ i, ¬ test i) ∨ ∃ i, r = some (.entry i) ∧ test i

omit [DecidableEq Vnode] [DecidableEq Cred] in
/-- A level is forgotten. -/
theorem alike_lid (i : Fin n) : Alike s (setCache s (.entry i) { s.cache (.entry i) with lid := 0 }) := by
  refine ⟨⟨?_, rfl, rfl, rfl, rfl⟩, rfl, rfl, rfl, rfl⟩
  funext j
  unfold Dnlc.view setCache
  by_cases hj : j = i
  · rw [hj]
    change (Function.update s.cache (Ncp.entry i) _ (Ncp.entry i)).view = _
    rw [update_self]
    rfl
  · change (Function.update s.cache (Ncp.entry i) _ (Ncp.entry j)).view = _
    rw [update_of_ne fun heq => hj (entry_injective heq)]

section

variable (hs : Good k others crOthers s chains lru) (hname : name.chars ≠ [])
include hs hname

theorem Good.scan :
    ∃ r, scan s.hashNext (.hash (ncHash k name dp)) (fun ncp => Found (s.cache ncp) dp name cred)
        (n + 1) (s.hashNext (.hash (ncHash k name dp))) = some r ∧
      Searched (fun i => Found (s.cache (.entry i)) dp name cred) r := by
  have hlength := hs.hashed.length_le (hashOf k name.chars dp)
  have hring := hs.hashed.ring (hashOf k name.chars dp)
  refine ⟨_, by
    rw [ncHash_eq hname]
    exact hring.scan_eq (by
      rw [length_map]
      omega), ?_⟩
  rcases eq_none_or_eq_some (((chains (hashOf k name.chars dp)).map Ncp.entry).find?
    fun ncp => decide (Found (s.cache ncp) dp name cred)) with hnone | ⟨ncp, hsome⟩
  · refine .inl ⟨hnone, fun i hfound => ?_⟩
    obtain ⟨hdp, htext, -⟩ := (found_iff hname).mp hfound
    have hon := (hs.filled.full i dp hdp).2.2.2
    rw [show (s.view i).text = name.chars from htext] at hon
    have hnot := find?_eq_none.mp hnone (.entry i) (mem_map_of_mem hon)
    rw [decide_eq_true_iff] at hnot
    exact hnot hfound
  · obtain ⟨i, -, rfl⟩ := mem_map.mp (mem_of_find?_eq_some hsome)
    have htest := find?_some hsome
    rw [decide_eq_true_iff] at htest
    exact .inr ⟨i, hsome, htest⟩

variable (dp cred lid) in
theorem Good.search :
    ∃ t r, dnlcSearch k dp name (ncHash k name dp) cred lid 2 s = some (t, r) ∧ Alike s t ∧
      Searched (fun i => Found (s.cache (.entry i)) dp name cred) r := by
  obtain ⟨r, hscan, hr⟩ := hs.scan hname
  rw [dnlcSearch, hscan, bind_some]
  rcases hr with ⟨rfl, hnone⟩ | ⟨i, rfl, hi⟩
  · exact ⟨s, none, rfl, ⟨⟨rfl, rfl, rfl, rfl, rfl⟩, rfl, rfl, rfl, rfl⟩, .inl ⟨rfl, hnone⟩⟩
  by_cases hlid : (s.cache (.entry i)).lid ≠ 0 ∧ macUnequal k (s.cache (.entry i)).lid lid
  · -- the retry finds the same entry, which has no level now
    have halike : Alike s (setCache s (.entry i) { s.cache (.entry i) with lid := 0 }) := alike_lid i
    have htest : ∀ ncp, Found (s.cache ncp) dp name cred ↔ Found ((setCache s (.entry i)
        { s.cache (.entry i) with lid := 0 }).cache ncp) dp name cred := by
      intro ncp
      unfold setCache
      by_cases hncp : ncp = .entry i
      · rw [hncp]
        simp only [update_self]
        rfl
      · simp only [update_of_ne hncp]
    rw [scan_congr htest] at hscan
    have hnone : ¬ (((setCache s (.entry i) { s.cache (.entry i) with lid := 0 }).cache
        (.entry i)).lid ≠ 0 ∧ macUnequal k ((setCache s (.entry i)
          { s.cache (.entry i) with lid := 0 }).cache (.entry i)).lid lid) := by
      unfold setCache
      simp only [update_self]
      exact fun hne => hne.1 rfl
    refine ⟨_, some (.entry i), ?_, halike, .inr ⟨i, rfl, hi⟩⟩
    simp only [if_pos hlid]
    rw [dnlcSearch]
    erw [hscan]
    rw [bind_some]
    exact if_neg hnone
  · simp only [if_neg hlid]
    exact ⟨s, some (.entry i), rfl, ⟨⟨rfl, rfl, rfl, rfl, rfl⟩, rfl, rfl, rfl, rfl⟩, .inr ⟨i, rfl, hi⟩⟩

end

/-! ### `dnlc_rm` -/

/-- The vnodes and the credential are let go of, and nothing else is touched. -/
theorem release_spec (s : Dnlc n Vnode Cred Vfs) (dp vp : Option Vnode) (cred : CredPtr Cred) :
    ∃ vCount crRef, crfreeIf (releIf (releIf s dp) vp) cred =
        { s with vCount := vCount, crRef := crRef } ∧
      (∀ v, vCount v = s.vCount v - (if dp = some v then 1 else 0) - if vp = some v then 1 else 0) ∧
      ∀ c, c ≠ .nocred → crRef c = s.crRef c - if cred = c then 1 else 0 := by
  have hrele : ∀ (s : Dnlc n Vnode Cred Vfs) (vp : Option Vnode),
      releIf s vp = { s with vCount := (releIf s vp).vCount } := by
    intro s vp
    cases vp with
    | none => rfl
    | some vp => rfl
  have hfree : ∀ s : Dnlc n Vnode Cred Vfs,
      crfreeIf s cred = { s with crRef := (crfreeIf s cred).crRef } := by
    intro s
    unfold crfreeIf
    by_cases hcred : cred = .nocred
    · rw [if_pos hcred]
    · rw [if_neg hcred]
  refine ⟨(releIf (releIf s dp) vp).vCount, (crfreeIf (releIf (releIf s dp) vp) cred).crRef, ?_,
    fun v => ?_, fun c hc => ?_⟩
  · have hboth : releIf (releIf s dp) vp = { s with vCount := (releIf (releIf s dp) vp).vCount } := by
      calc releIf (releIf s dp) vp
          = { releIf s dp with vCount := (releIf (releIf s dp) vp).vCount } := hrele _ vp
        _ = { s with vCount := (releIf (releIf s dp) vp).vCount } := by rw [hrele s dp]
    calc crfreeIf (releIf (releIf s dp) vp) cred
        = { releIf (releIf s dp) vp with crRef := (crfreeIf (releIf (releIf s dp) vp) cred).crRef } :=
          hfree _
      _ = _ := by rw [hboth]
  · rw [releIf_vCount, releIf_vCount]
  · rw [crfreeIf_crRef hc, hrele (releIf s dp), hrele s dp]

/-- `dnlc_rm` empties an entry that stands for a name. -/
theorem Good.rm (hs : Good k others crOthers s chains lru) (hdp : (s.view i).dp ≠ none) :
    ∃ t, dnlcRm s (.entry i) = some t ∧
      (∃ chains lru, Good k others crOthers t chains lru) ∧
      (t.view i).dp = none ∧ (∀ j, j ≠ i → t.view j = s.view j) ∧ t.vVfsp = s.vVfsp ∧
      t.doingcache = s.doingcache := by
  obtain ⟨dp, hdp⟩ := ne_none_iff_exists'.mp hdp
  obtain ⟨⟨vp, hvp⟩, -⟩ := hs.filled.full i dp hdp
  obtain ⟨vCount, crRef, hrelease, hvCount, hcrRef⟩ :=
    release_spec (ncRmhash (ncRmlru s (.entry i)) (.entry i)) (some dp) (some vp)
      (s.cache (.entry i)).cred
  have hcache_dp : (s.cache (.entry i)).dp = some dp := hdp
  have hcache_vp : (s.cache (.entry i)).vp = some vp := hvp
  have hhashed : Hashed (ncRmlru s (.entry i)) none chains := hs.hashed.congr rfl rfl
  obtain ⟨hunhash, hoff⟩ := hhashed.unhash i
  obtain ⟨hremove, hlru⟩ := hs.aged.remove i
  unfold dnlcRm
  simp only [hcache_dp, hcache_vp, bind_some, map_some]
  rw [show vnRele (vnRele (ncRmhash (ncRmlru s (.entry i)) (.entry i)) dp) vp =
    releIf (releIf (ncRmhash (ncRmlru s (.entry i)) (.entry i)) (some dp)) (some vp) from rfl,
    hrelease]
  have hempty : ∀ t : Dnlc n Vnode Cred Vfs, t.cache = Function.update s.cache (.entry i)
        { s.cache (.entry i) with dp := none, vp := none, cred := .nocred } →
      (t.view i).dp = none ∧ ∀ j, j ≠ i → t.view j = s.view j := by
    intro t ht
    rw [view_update ht]
    exact ⟨by rw [update_self]; rfl, fun j hj => update_of_ne hj _ _⟩
  refine ⟨_, rfl, ⟨fun h => (chains h).erase i, i :: lru.erase i, ?_⟩, (hempty _ rfl).1,
    (hempty _ rfl).2, rfl, rfl⟩
  constructor
  · exact (hunhash.null hoff).congr rfl rfl
  · exact (hremove.push hlru).congr rfl rfl
  · rw [view_update rfl]
    refine hs.filled.clear i rfl rfl rfl fun h j => ?_
    rw [(hs.hashed.nodup h).mem_erase_iff, and_comm]
  · rw [view_update rfl]
    refine hs.counted.update (fun v => ?_) fun c hc => ?_
    · rw [hdp, hvp]
      exact (hvCount v).trans (by simp [Ncache.view]; rfl)
    · exact (hcrRef c hc).trans (by simp [Ncache.view, hc.symm]; rfl)

/-! ### `dnlc_init` -/

omit [DecidableEq Vnode] [DecidableEq Cred] in
/-- The entries are put on the LRU list one by one. -/
theorem init_entries (xs : List (Fin n)) {cells : List (Fin n)}
    (hring : Ring s.lruNext s.lruPrev .lru (cells.map .entry)) (hnodup : (xs ++ cells).Nodup)
    (ht : xs.foldl (fun s i => nullHash (ncInslru s (.entry i) .lru) (.entry i)) s = t) :
    Ring t.lruNext t.lruPrev .lru ((xs.reverse ++ cells).map .entry) ∧
      (∀ i, i ∈ xs → t.hashNext (.entry i) = .entry i ∧ t.hashPrev (.entry i) = .entry i) ∧
      (∀ i, i ∉ xs → t.hashNext (.entry i) = s.hashNext (.entry i) ∧
        t.hashPrev (.entry i) = s.hashPrev (.entry i)) ∧
      t.cache = s.cache ∧ t.vCount = s.vCount ∧ t.crRef = s.crRef ∧
      t.doingcache = s.doingcache := by
  induction xs generalizing s cells with
  | nil =>
    rw [← ht]
    exact ⟨hring, nofun, fun i _ => ⟨rfl, rfl⟩, rfl, rfl, rfl, rfl⟩
  | cons x xs ih =>
    rw [cons_append, nodup_cons, mem_append, not_or] at hnodup
    obtain ⟨⟨hxs, hcells⟩, hrest⟩ := hnodup
    have hpush := Aged.push_ring hring hcells
    have hnodup : (xs ++ x :: cells).Nodup := by
      rw [perm_middle.nodup_iff, nodup_cons, mem_append, not_or]
      exact ⟨⟨hxs, hcells⟩, hrest⟩
    obtain ⟨hlru, hself, hsame, hcache, hvCount, hcrRef, hdoing⟩ :=
      ih (s := nullHash (ncInslru s (.entry x) .lru) (.entry x)) hpush hnodup ht
    have hnull : ∀ i, i ≠ x → Ncp.entry i ≠ .entry x := fun i hi heq => hi (entry_injective heq)
    refine ⟨?_, fun i hi => ?_, fun i hi => ?_, hcache, hvCount, hcrRef, hdoing⟩
    · rw [reverse_cons, append_assoc, singleton_append]
      exact hlru
    · by_cases hmem : i ∈ xs
      · exact hself i hmem
      have hix : i = x := (mem_cons.mp hi).resolve_right hmem
      obtain ⟨hnext, hprev⟩ := hsame i hmem
      rw [hnext, hprev, hix]
      exact ⟨update_self _ _ _, update_self _ _ _⟩
    · rw [mem_cons, not_or] at hi
      obtain ⟨hnext, hprev⟩ := hsame i hi.2
      rw [hnext, hprev]
      exact ⟨update_of_ne (hnull i hi.1) _ _, update_of_ne (hnull i hi.1) _ _⟩

omit [DecidableEq Vnode] [DecidableEq Cred] in
/-- The hash chains are emptied one by one. -/
theorem init_heads (xs : List Nat) (ht : xs.foldl (fun s h => nullHash s (.hash h)) s = t) :
    (∀ h, h ∈ xs → t.hashNext (.hash h) = .hash h ∧ t.hashPrev (.hash h) = .hash h) ∧
      (∀ p, (∀ h, h ∈ xs → p ≠ .hash h) →
        t.hashNext p = s.hashNext p ∧ t.hashPrev p = s.hashPrev p) ∧
      t.lruNext = s.lruNext ∧ t.lruPrev = s.lruPrev ∧ t.cache = s.cache ∧ t.vCount = s.vCount ∧
      t.crRef = s.crRef ∧ t.doingcache = s.doingcache := by
  induction xs generalizing s with
  | nil =>
    rw [← ht]
    exact ⟨nofun, fun p _ => ⟨rfl, rfl⟩, rfl, rfl, rfl, rfl, rfl, rfl⟩
  | cons x xs ih =>
    obtain ⟨hself, hsame, hlruNext, hlruPrev, hcache, hvCount, hcrRef, hdoing⟩ := ih ht
    refine ⟨fun h hh => ?_, fun p hp => ?_, hlruNext, hlruPrev, hcache, hvCount, hcrRef, hdoing⟩
    · by_cases hmem : h ∈ xs
      · exact hself h hmem
      have hx : h = x := (mem_cons.mp hh).resolve_right hmem
      have hother : ∀ g, g ∈ xs → Ncp.hash (n := n) h ≠ .hash g := by
        rintro g hg heq
        cases heq
        exact hmem hg
      obtain ⟨hnext, hprev⟩ := hsame (.hash h) hother
      rw [hnext, hprev, hx]
      exact ⟨update_self _ _ _, update_self _ _ _⟩
    · obtain ⟨hnext, hprev⟩ := hsame p fun g hg => hp g (.tail x hg)
      have hpx : p ≠ .hash x := hp x (.head _)
      rw [hnext, hprev]
      exact ⟨update_of_ne hpx _ _, update_of_ne hpx _ _⟩

theorem tally_none {α : Type} [DecidableEq α] {field : Fin n → α} {a : α} (h : ∀ i, field i ≠ a) :
    tally field a = 0 := by
  exact Finset.sum_eq_zero fun i _ => if_neg (h i)

/-- After `dnlc_init` the cache is in order and empty. -/
theorem Good.initial (hn : n ≠ 0) (ht : dnlcInit k s = t) :
    Good k s.vCount s.crRef t (fun _ => []) (finRange n).reverse ∧
      (∀ i, (t.view i).dp = none) ∧ t.doingcache = s.doingcache := by
  unfold dnlcInit at ht
  rw [if_neg hn] at ht
  have hempty : Ring (Function.update s.lruNext .lru .lru) (Function.update s.lruPrev .lru .lru)
      Ncp.lru (([] : List (Fin n)).map .entry) :=
    ⟨⟨update_self _ _ _, update_self _ _ _⟩, nodup_singleton _⟩
  have hnodup : (finRange n ++ []).Nodup := by
    rw [append_nil]
    exact nodup_finRange n
  obtain ⟨hlru, hself, -, hcache, hvCount, hcrRef, hdoing⟩ := init_entries (s := { s with
      cache := fun _ => zeroed
      lruNext := Function.update s.lruNext .lru .lru
      lruPrev := Function.update s.lruPrev .lru .lru }) (finRange n) hempty hnodup rfl
  obtain ⟨hheads, hsame, hlruNext, hlruPrev, hcache', hvCount', hcrRef', hdoing'⟩ := init_heads _ ht
  rw [append_nil] at hlru
  have hzero : ∀ i, t.view i = (zeroed : Ncache Vnode Cred).view := by
    intro i
    unfold Dnlc.view
    rw [hcache', hcache]
  refine ⟨⟨⟨⟨fun h => ?_, fun h g x hh hg => ?_⟩, fun i _ _ => ?_⟩, ⟨?_, fun i _ => ?_⟩,
    ⟨fun i _ => ?_, fun i dp hi => ?_, fun i j hi => ?_⟩, ⟨fun v => ?_, fun c hc => ?_⟩⟩,
    fun i => ?_, hdoing'.trans hdoing⟩
  · exact ⟨hheads h (mem_range.mpr h.isLt), nodup_singleton _⟩
  · rw [mem_singleton.mp hh] at hg
    have heq : Ncp.hash (n := n) h.val = .hash g.val := mem_singleton.mp hg
    exact Fin.ext (Ncp.hash.inj heq)
  · obtain ⟨hnext, hprev⟩ := hsame (.entry i) (by
      intro h _ heq
      cases heq)
    rw [hnext, hprev]
    exact hself i (mem_finRange i)
  · rw [hlruNext, hlruPrev]
    exact hlru
  · exact mem_reverse.mpr (mem_finRange i)
  · rw [hzero]
    exact ⟨rfl, rfl, fun h => not_mem_nil⟩
  · rw [hzero] at hi
    cases hi
  · rw [hzero] at hi
    exact absurd rfl hi
  · have hno : ∀ i, (t.view i).dp ≠ some v ∧ (t.view i).vp ≠ some v := by
      intro i
      rw [hzero]
      exact ⟨(some_ne_none v).symm, (some_ne_none v).symm⟩
    rw [hvCount', hvCount, tally_none fun i => (hno i).1, tally_none fun i => (hno i).2]
    simp
  · have hno : ∀ i, (t.view i).cred ≠ c := by
      intro i
      rw [hzero]
      exact hc.symm
    rw [hcrRef', hcrRef, tally_none hno]
    simp
  · rw [hzero]
    rfl

end Svr42.Dnlc
