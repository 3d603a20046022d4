import Svr42.DnlcContents

/-! The calls on the name cache and their runs: what a lookup may return after any of them. -/

namespace Svr42.Dnlc
open Function List Option Prod

variable {n : Nat} {Vnode Cred Vfs : Type} [DecidableEq Vnode] [DecidableEq Cred]
  {k : Kernel Vnode} {s t : Dnlc n Vnode Cred Vfs} {dp vp v : Vnode} {name : CString}
  {cred : CredPtr Cred} {lid : BitVec 32} {i j : Fin n} {others : Vnode → Int}
  {crOthers : CredPtr Cred → Int} {chains : Fin k.nchashSize → List (Fin n)} {lru : List (Fin n)}
  {P : View Vnode Cred → Prop} {vVfsp : Vnode → Vfs}
  {pick : Dnlc n Vnode Cred Vfs → Option (Dnlc n Vnode Cred Vfs × Option (Ncp n))}

def InOrder (k : Kernel Vnode) (others : Vnode → Int) (crOthers : CredPtr Cred → Int)
    (s : Dnlc n Vnode Cred Vfs) : Prop :=
  ∃ chains lru, Good k others crOthers s chains lru

/-! ### The purges -/

/-- Entries are gone, of those that meet `P`, and the others as they were. -/
structure Purged (P : View Vnode Cred → Prop) (s t : Dnlc n Vnode Cred Vfs) : Prop where
  kept : ∀ i, (t.view i).dp ≠ none → t.view i = s.view i
  dropped : ∀ i, (t.view i).dp = none → (s.view i).dp ≠ none → P (s.view i)
  vVfsp : t.vVfsp = s.vVfsp
  doingcache : t.doingcache = s.doingcache

/-- `pick` leaves the contents alone and finds an entry that meets `P`, if there is one. -/
def Picks (k : Kernel Vnode) (vVfsp : Vnode → Vfs)
    (pick : Dnlc n Vnode Cred Vfs → Option (Dnlc n Vnode Cred Vfs × Option (Ncp n)))
    (P : View Vnode Cred → Prop) : Prop :=
  ∀ (others : Vnode → Int) (crOthers : CredPtr Cred → Int) s chains lru,
    Good k others crOthers s chains lru → s.vVfsp = vVfsp →
    ∃ t r, pick s = some (t, r) ∧ Alike s t ∧
      Searched (fun i => (s.view i).dp ≠ none ∧ P (s.view i)) r

def inUse (s : Dnlc n Vnode Cred Vfs) : Nat :=
  (Finset.univ.filter fun i => (s.view i).dp.isSome = true).card

omit [DecidableEq Vnode] [DecidableEq Cred] in
theorem inUse_le : inUse s ≤ n := by
  calc inUse s ≤ (Finset.univ : Finset (Fin n)).card := Finset.card_filter_le _ _
    _ = n := Finset.card_fin n

omit [DecidableEq Vnode] [DecidableEq Cred] in
theorem inUse_lt (hold : (s.view i).dp ≠ none) (hnew : (t.view i).dp = none)
    (hothers : ∀ j, j ≠ i → t.view j = s.view j) : inUse t < inUse s := by
  apply Finset.card_lt_card
  refine Finset.ssubset_iff_subset_ne.mpr ⟨fun j hj => ?_, fun heq => ?_⟩
  · rw [Finset.mem_filter] at hj ⊢
    refine ⟨hj.1, ?_⟩
    by_cases hji : j = i
    · rw [hji, hnew] at hj
      exact absurd hj.2 Bool.false_ne_true
    · rw [← hothers j hji]
      exact hj.2
  · have hmem : i ∈ Finset.univ.filter fun i => (s.view i).dp.isSome = true :=
      Finset.mem_filter.mpr ⟨Finset.mem_univ i, isSome_iff_ne_none.mpr hold⟩
    rw [← heq, Finset.mem_filter, hnew] at hmem
    exact Bool.false_ne_true hmem.2

variable {more : Int → Bool}

theorem drain_ok (hpick : Picks k vVfsp pick P) (fuel : Nat) (count : Int)
    (hs : InOrder k others crOthers s) (hvfsp : s.vVfsp = vVfsp) (hfuel : inUse s < fuel) :
    ∃ t done, drain pick more fuel s count = some (t, done) ∧ InOrder k others crOthers t ∧
      Purged P s t ∧ ((∀ i, (t.view i).dp ≠ none → ¬ P (t.view i)) ∨ more done = false) := by
  induction fuel generalizing s count with
  | zero => exact absurd hfuel (Nat.not_lt_zero _)
  | succ fuel ih =>
    obtain ⟨chains, lru, hgood⟩ := hs
    obtain ⟨t, r, hpicked, halike, hr⟩ := hpick others crOthers s chains lru hgood hvfsp
    have ht := hgood.alike halike
    rw [drain, hpicked, bind_some]
    rcases hr with ⟨rfl, hnone⟩ | ⟨i, rfl, hdp, hP⟩
    · refine ⟨t, count, rfl, ⟨chains, lru, ht⟩, ⟨fun i _ => ?_, fun i hnew hold => ?_,
        halike.vVfsp, halike.doingcache⟩, .inl fun i hi hPi => ?_⟩
      · rw [halike.view]
      · rw [halike.view] at hnew
        exact absurd hnew hold
      · rw [halike.view] at hi hPi
        exact hnone i ⟨hi, hPi⟩
    rw [← halike.view] at hdp hP
    obtain ⟨u, hrm, hu, hempty, hothers, huvfsp, hudoing⟩ := ht.rm hdp
    have hstep : Purged P s u := by
      refine ⟨fun j hj => ?_, fun j hnew hold => ?_, huvfsp.trans halike.vVfsp,
        hudoing.trans halike.doingcache⟩
      · rw [hothers j fun heq => hj (heq ▸ hempty), halike.view]
      · rw [← halike.view] at hold ⊢
        by_cases hji : j = i
        · rw [hji]
          exact hP
        · rw [hothers j hji] at hnew
          exact absurd hnew hold
    simp only [hrm, bind_some]
    split_ifs with hmore
    · have hless : inUse u < fuel := by
        have hlt := inUse_lt hdp hempty hothers
        have hsame : inUse t = inUse s := by
          unfold inUse
          rw [halike.view]
        omega
      obtain ⟨w, done, hdrain, hw, hpurged, hdone⟩ :=
        ih (count + 1) hu (huvfsp.trans (halike.vVfsp.trans hvfsp)) hless
      refine ⟨w, done, hdrain, hw, ⟨fun j hj => ?_, fun j hnew hold => ?_,
        hpurged.vVfsp.trans hstep.vVfsp, hpurged.doingcache.trans hstep.doingcache⟩, hdone⟩
      · have hsame := hpurged.kept j hj
        rw [hsame] at hj ⊢
        exact hstep.kept j hj
      · by_cases hj : (u.view j).dp = none
        · exact hstep.dropped j hj hold
        · rw [← hstep.kept j hj]
          exact hpurged.dropped j hnew hj
    · exact ⟨u, count + 1, rfl, hu, hstep, .inr (Bool.not_eq_true _ ▸ hmore)⟩

omit [DecidableEq Vnode] [DecidableEq Cred] in
theorem Searched.congr {test test' : Fin n → Prop} {r : Option (Ncp n)} (h : Searched test r)
    (htest : ∀ i, test i ↔ test' i) : Searched test' r := by
  rcases h with ⟨hr, hnone⟩ | ⟨i, hr, hi⟩
  · exact .inl ⟨hr, fun i hi => hnone i ((htest i).mpr hi)⟩
  · exact .inr ⟨i, hr, (htest i).mp hi⟩

theorem search_picks (hname : name.chars ≠ []) :
    Picks k vVfsp (dnlcSearch (n := n) k dp name (ncHash k name dp) .anycred lid 2)
      fun w : View Vnode Cred => w.dp = some dp ∧ w.text = name.chars := by
  intro others crOthers s chains lru hs _
  obtain ⟨t, r, hsearch, halike, hr⟩ := hs.search dp .anycred lid hname
  refine ⟨t, r, hsearch, halike, hr.congr fun i => ?_⟩
  rw [found_iff hname]
  constructor
  · rintro ⟨hdp, htext, -⟩
    refine ⟨?_, hdp, htext⟩
    rw [show (s.view i).dp = some dp from hdp]
    exact some_ne_none dp
  · rintro ⟨-, hdp, htext⟩
    exact ⟨hdp, htext, .inl rfl⟩

/-- The LRU list has every entry. -/
theorem firstLru_picks {test : Dnlc n Vnode Cred Vfs → Ncp n → Bool}
    (htest : ∀ s : Dnlc n Vnode Cred Vfs, s.vVfsp = vVfsp → ∀ i, test s (.entry i) = true →
      (s.view i).dp ≠ none ∨ (s.view i).vp ≠ none)
    (hP : ∀ s : Dnlc n Vnode Cred Vfs, s.vVfsp = vVfsp → ∀ i, test s (.entry i) = true ↔ P (s.view i)) :
    Picks k vVfsp (firstLru test) P := by
  intro others crOthers s chains lru hs hvfsp
  have hlength := hs.aged.length_le
  have hscan : scan s.lruNext .lru (fun ncp => test s ncp = true) (n + 1) (s.lruNext .lru) =
      some ((lru.map .entry).find? fun ncp => test s ncp = true) := by
    refine hs.aged.ring.scan_eq ?_
    rw [length_map]
    omega
  unfold firstLru
  rw [hscan, map_some]
  refine ⟨s, _, rfl, ⟨⟨rfl, rfl, rfl, rfl, rfl⟩, rfl, rfl, rfl, rfl⟩, ?_⟩
  rcases eq_none_or_eq_some ((lru.map Ncp.entry).find? fun ncp => decide (test s ncp = true))
    with hnone | ⟨ncp, hsome⟩
  · refine .inl ⟨hnone, fun i hi => ?_⟩
    have hmem : Ncp.entry i ∈ lru.map Ncp.entry := mem_map_of_mem (hs.aged.all i (some_ne_none i))
    have hnot := find?_eq_none.mp hnone _ hmem
    rw [decide_eq_true_iff] at hnot
    exact hnot ((hP s hvfsp i).mpr hi.2)
  · obtain ⟨i, -, rfl⟩ := mem_map.mp (mem_of_find?_eq_some hsome)
    have hi := find?_some hsome
    rw [decide_eq_true_iff] at hi
    refine .inr ⟨i, hsome, fun hdp => ?_, (hP s hvfsp i).mp hi⟩
    rcases htest s hvfsp i hi with hdp' | hvp
    · exact hdp' hdp
    · exact hvp (hs.filled.empty i hdp).1

/-- As long as an entry stands for a name, a chain has it. -/
theorem firstHashed_picks : Picks k vVfsp (firstHashed (n := n) k) fun _ : View Vnode Cred => True := by
  intro others crOthers s chains lru hs _
  refine ⟨s, ?_⟩
  unfold firstHashed
  rcases eq_none_or_eq_some ((range k.nchashSize).find?
    fun h => decide (s.hashNext (.hash h) ≠ .hash h)) with hnone | ⟨h, hsome⟩
  · refine ⟨none, ?_, ⟨⟨rfl, rfl, rfl, rfl, rfl⟩, rfl, rfl, rfl, rfl⟩, .inl ⟨rfl, fun i hi => ?_⟩⟩
    · simp only [hnone]
    · obtain ⟨dp, hdp⟩ := ne_none_iff_exists'.mp hi.1
      have hon := (hs.filled.full i dp hdp).2.2.2
      generalize hashOf k (s.view i).text dp = h at hon
      have hnext := (hs.hashed.ring h).arc.next_eq
      have hself := find?_eq_none.mp hnone h.val (mem_range.mpr h.isLt)
      rw [decide_eq_true_iff, not_not, hnext] at hself
      cases hchain : chains h with
      | nil =>
        rw [hchain] at hon
        cases hon
      | cons j rest =>
        rw [hchain] at hself
        cases hself
  · have hlt := mem_range.mp (mem_of_find?_eq_some hsome)
    have hnot := find?_some hsome
    have hring := hs.hashed.ring ⟨h, hlt⟩
    have hnext := hring.arc.next_eq
    rw [decide_eq_true_iff] at hnot
    cases hchain : chains ⟨h, hlt⟩ with
    | nil =>
      rw [hchain] at hnext
      exact absurd hnext hnot
    | cons i rest =>
      rw [hchain] at hnext
      have hentry : s.hashNext (.hash h) = .entry i := hnext
      have hi : i ∈ chains ⟨h, hlt⟩ := hchain ▸ (.head _)
      have hdp : (s.view i).dp ≠ none := fun heq => (hs.filled.empty i heq).2.2 _ hi
      obtain ⟨dp, hdp'⟩ := ne_none_iff_exists'.mp hdp
      obtain ⟨⟨vp, hvp⟩, -⟩ := hs.filled.full i dp hdp'
      have hpanic : ¬ ((s.cache (.entry i)).dp = none ∨ (s.cache (.entry i)).vp = none) := by
        rintro (heq | heq)
        · exact hdp heq
        · rw [show (s.cache (.entry i)).vp = some vp from hvp] at heq
          cases heq
      refine ⟨some (.entry i), ?_, ⟨⟨rfl, rfl, rfl, rfl, rfl⟩, rfl, rfl, rfl, rfl⟩,
        .inr ⟨i, rfl, hdp, trivial⟩⟩
      simp only [hsome, hentry, if_neg hpanic]

theorem refersTo_picks (vp : Vnode) : Picks k vVfsp (firstLru (n := n) (refersTo vp))
      fun w : View Vnode Cred => w.dp = some vp ∨ w.vp = some vp := by
  have htest : ∀ (s : Dnlc n Vnode Cred Vfs) i, refersTo vp s (.entry i) = true ↔
      (s.view i).dp = some vp ∨ (s.view i).vp = some vp := fun s i => decide_eq_true_iff
  refine firstLru_picks (fun s _ i hi => ?_) fun s _ i => htest s i
  rcases (htest s i).mp hi with hdp | hvp
  · rw [hdp]
    exact .inl (some_ne_none vp)
  · rw [hvp]
    exact .inr (some_ne_none vp)

theorem isOn_picks [DecidableEq Vfs] (vfsp : Vfs) : Picks k vVfsp (firstLru (n := n) (isOn vfsp))
      fun w : View Vnode Cred => w.dp.map vVfsp = some vfsp ∨ w.vp.map vVfsp = some vfsp := by
  have htest : ∀ (s : Dnlc n Vnode Cred Vfs), s.vVfsp = vVfsp → ∀ i, isOn vfsp s (.entry i) = true ↔
        (s.view i).dp.map vVfsp = some vfsp ∨ (s.view i).vp.map vVfsp = some vfsp := by
    intro s hs i
    rw [← hs]
    exact decide_eq_true_iff
  refine firstLru_picks (fun s hs i hi => ?_) htest
  have hsome : ∀ vp : Option Vnode, vp.map vVfsp = some vfsp → vp ≠ none := by
    rintro vp hmap rfl
    cases hmap
  exact ((htest s hs i).mp hi).imp (hsome _) (hsome _)

theorem inUse_picks : Picks k vVfsp (firstLru (n := n) fun s ncp => (s.cache ncp).dp.isSome)
      fun w : View Vnode Cred => w.dp ≠ none := by
  have htest : ∀ (s : Dnlc n Vnode Cred Vfs) i,
      (s.cache (.entry i)).dp.isSome = true ↔ (s.view i).dp ≠ none :=
    fun s i => isSome_iff_ne_none
  exact firstLru_picks (fun s _ i hi => .inl ((htest s i).mp hi)) fun s _ i => htest s i

/-! ### `dnlc_lookup` -/

section

variable (hs : Good k others crOthers s chains lru) (hname : name.chars ≠ [])
include hs hname

theorem Found.short (hfound : Found (s.cache (.entry i)) dp name cred) : ¬ ncNAMLEN < name.strlen := by
  obtain ⟨hdp, htext, -⟩ := (found_iff hname).mp hfound
  have hlength := (hs.filled.full i dp hdp).2.2.1
  rw [show (s.view i).text = name.chars from htext] at hlength
  exact not_lt.mpr hlength

theorem Found.mem (hfound : Found (s.cache (.entry i)) dp name cred) :
    i ∈ chains (hashOf k name.chars dp) := by
  obtain ⟨hdp, htext, -⟩ := (found_iff hname).mp hfound
  have hon := (hs.filled.full i dp hdp).2.2.2
  rwa [show (s.view i).text = name.chars from htext] at hon

variable (dp cred lid) in
theorem Good.lookup :
    ∃ t r, dnlcLookup k s dp name cred lid = some (t, r) ∧ InOrder k others crOthers t ∧
      Same s t ∧ (s.doingcache = true →
        (r = none ∧ ∀ i, ¬ Found (s.cache (.entry i)) dp name cred) ∨
        ∃ i, Found (s.cache (.entry i)) dp name cred ∧ r = (s.view i).vp) := by
  have hsame : Same s s := ⟨rfl, rfl, rfl, rfl, rfl⟩
  unfold dnlcLookup
  by_cases hdoing : s.doingcache = false
  · rw [if_pos hdoing]
    exact ⟨s, none, rfl, ⟨chains, lru, hs⟩, hsame, fun htrue =>
      absurd (hdoing.symm.trans htrue) Bool.false_ne_true⟩
  rw [if_neg hdoing]
  by_cases hlong : ncNAMLEN < name.strlen
  · rw [if_pos hlong]
    exact ⟨s, none, rfl, ⟨chains, lru, hs⟩, hsame, fun _ =>
      .inl ⟨rfl, fun i hfound => hfound.short hs hname hlong⟩⟩
  rw [if_neg hlong]
  obtain ⟨t, r, hsearch, halike, hr⟩ := hs.search dp cred lid hname
  have ht := hs.alike halike
  rw [hsearch, map_some]
  rcases hr with ⟨rfl, hnone⟩ | ⟨i, rfl, hi⟩
  · exact ⟨t, none, rfl, ⟨chains, lru, ht⟩, halike.toSame, fun _ => .inl ⟨rfl, hnone⟩⟩
  obtain ⟨hremove, hlru⟩ := ht.aged.remove i
  have hsnoc := hremove.snoc hlru
  have hvp : (t.cache (.entry i)).vp = (s.view i).vp := by
    rw [← halike.view]
    rfl
  simp only
  generalize hu : ncInslru (ncRmlru t (.entry i)) (.entry i)
    ((ncRmlru t (.entry i)).lruPrev .lru) = u at hsnoc ⊢
  have hut : Hashed u none chains := ht.hashed.congr (by rw [← hu]; rfl) (by rw [← hu]; rfl)
  have hsame' : Same s u := by
    rw [← hu]
    exact ⟨halike.view, halike.vCount, halike.crRef, halike.vVfsp, halike.doingcache⟩
  have hfilled : Filled k u.view chains := by
    rw [hsame'.view]
    exact hs.filled
  have hcounted : Counted u.view u others crOthers := by
    rw [hsame'.view]
    exact hs.counted.same hsame'.vCount hsame'.crRef
  have hcache : (u.cache (.entry i)).vp = (s.view i).vp := by
    rw [← hu]
    exact hvp
  split_ifs with hprev
  · have hmem := hi.mem hs hname
    rw [ncHash_eq hname] at hprev
    obtain ⟨chains', hforward, hchains⟩ := hut.forward hmem hprev
    exact ⟨_, _, rfl, ⟨chains', _, hforward, hsnoc.congr rfl rfl, hfilled.congr hchains,
      hcounted.same rfl rfl⟩, ⟨hsame'.view, hsame'.vCount, hsame'.crRef, hsame'.vVfsp,
      hsame'.doingcache⟩, fun _ => .inr ⟨i, hi, hcache⟩⟩
  · exact ⟨_, _, rfl, ⟨chains, _, hut, hsnoc, hfilled, hcounted⟩, hsame', fun _ =>
      .inr ⟨i, hi, hcache⟩⟩

end

/-! ### `dnlc_enter` -/

/-- What an entry holds once it is filled. -/
def filling (e : Ncache Vnode Cred) (dp : Vnode) (name : CString) (vp : Vnode) (cred : CredPtr Cred)
    (lid : BitVec 32) : Ncache Vnode Cred :=
  { vp := some vp
    dp := some dp
    namlen := name.strlen
    name := fun m => if m < name.strlen then name.get m else e.name m
    cred := cred
    lid := lid }

omit [DecidableEq Vnode] [DecidableEq Cred] in
theorem filling_view (e : Ncache Vnode Cred) :
    (filling e dp name vp cred lid).view = ⟨some dp, some vp, name.chars, cred⟩ := by
  apply View.ext
  · rfl
  · rfl
  · exact text_eq_iff.mpr ⟨rfl, fun m hm => if_pos hm⟩
  · rfl

theorem fill_spec (s : Dnlc n Vnode Cred Vfs) (ncp : Ncp n) (dp : Vnode) (name : CString) (vp : Vnode)
    (cred : CredPtr Cred) (lid : BitVec 32) : ∃ vCount crRef, fill s ncp dp name vp cred lid = { s with
          cache := update s.cache ncp (filling (s.cache ncp) dp name vp cred lid)
          vCount := vCount
          crRef := crRef } ∧
      (∀ v, vCount v = s.vCount v + (if some dp = some v then 1 else 0) +
        if some vp = some v then 1 else 0) ∧
      ∀ c, c ≠ .nocred → crRef c = s.crRef c + if cred = c then 1 else 0 := by
  refine ⟨(vnHold (vnHold s dp) vp).vCount, (crholdIf s cred).crRef, ?_, fun v => ?_, fun c hc => ?_⟩
  · unfold fill crholdIf
    by_cases hcred : cred = .nocred
    · rw [if_pos hcred, if_pos hcred]
      rfl
    · rw [if_neg hcred, if_neg hcred]
      rfl
  · rw [vnHold_vCount, vnHold_vCount]
  · exact crholdIf_crRef hc

variable (dp vp cred lid) in
theorem Good.enter (hs : Good k others crOthers s chains lru) (hname : name.chars ≠ []) :
    ∃ t, dnlcEnter k s dp name vp cred lid = some t ∧ InOrder k others crOthers t ∧
      t.doingcache = s.doingcache ∧
      (t.view = s.view ∨ (∀ i, ¬ Found (s.cache (.entry i)) dp name cred) ∧
        ∃ i, t.view = update s.view i ⟨some dp, some vp, name.chars, cred⟩) := by
  have hself : InOrder k others crOthers s := ⟨chains, lru, hs⟩
  unfold dnlcEnter
  by_cases hdoing : s.doingcache = false
  · rw [if_pos hdoing]
    exact ⟨s, rfl, hself, rfl, .inl rfl⟩
  rw [if_neg hdoing]
  by_cases hlong : ncNAMLEN < name.strlen
  · rw [if_pos hlong]
    exact ⟨s, rfl, hself, rfl, .inl rfl⟩
  rw [if_neg hlong]
  obtain ⟨t, r, hsearch, halike, hr⟩ := hs.search dp cred lid hname
  have ht := hs.alike halike
  rw [hsearch, map_some]
  rcases hr with ⟨rfl, hnone⟩ | ⟨i, rfl, hi⟩
  · simp only [isSome_none, Bool.false_eq_true, if_false]
    have hfirst : t.lruNext .lru = (lru.map Ncp.entry).headD .lru := ht.aged.ring.arc.next_eq
    cases hlru : lru with
    | nil =>
      rw [hlru] at hfirst
      have hempty : t.lruNext .lru = .lru := hfirst
      rw [if_pos hempty]
      exact ⟨t, rfl, ⟨chains, lru, ht⟩, halike.doingcache, .inl halike.view⟩
    | cons i rest =>
      rw [hlru] at hfirst
      have hentry : t.lruNext .lru = .entry i := hfirst
      have hhead : ¬ t.lruNext .lru = .lru := by
        rw [hentry]
        intro heq
        cases heq
      rw [if_neg hhead, hentry]
      obtain ⟨vCount, crRef, hrelease, hvCount, hcrRef⟩ :=
        release_spec (ncRmhash (ncRmlru t (.entry i)) (.entry i)) (t.cache (.entry i)).dp
          (t.cache (.entry i)).vp (t.cache (.entry i)).cred
      have hreleased : releaseOld (ncRmhash (ncRmlru t (.entry i)) (.entry i)) (.entry i) =
          { ncRmhash (ncRmlru t (.entry i)) (.entry i) with
            vCount := vCount
            crRef := crRef } := hrelease
      rw [hreleased]
      obtain ⟨vCount', crRef', hfill, hvCount', hcrRef'⟩ :=
        fill_spec { ncRmhash (ncRmlru t (.entry i)) (.entry i) with
          vCount := vCount
          crRef := crRef } (.entry i) dp name vp cred lid
      rw [hfill]
      have hhashed : Hashed (ncRmlru t (.entry i)) none chains := ht.hashed.congr rfl rfl
      obtain ⟨hunhash, hoff⟩ := hhashed.unhash i
      obtain ⟨hremove, hnotlru⟩ := ht.aged.remove i
      have hpush := hunhash.push hoff (hashOf k name.chars dp)
      have hsnoc := hremove.snoc hnotlru
      have hview : ∀ u : Dnlc n Vnode Cred Vfs, u.cache = update t.cache (.entry i)
          (filling (t.cache (.entry i)) dp name vp cred lid) →
          u.view = update s.view i ⟨some dp, some vp, name.chars, cred⟩ := by
        intro u hu
        rw [view_update hu, halike.view, filling_view]
      rw [ncHash_eq hname]
      refine ⟨_, rfl, ⟨update (fun h => (chains h).erase i) (hashOf k name.chars dp)
        (i :: (chains (hashOf k name.chars dp)).erase i), lru.erase i ++ [i], ?_⟩,
        halike.doingcache, .inr ⟨hnone, i, hview _ rfl⟩⟩
      constructor
      · exact hpush.congr rfl rfl
      · exact hsnoc.congr rfl rfl
      · rw [hview _ rfl]
        refine hs.filled.put i rfl rfl hname (not_lt.mp hlong) (fun j hdp htext hcred => ?_)
          fun h j => ?_
        · exact hnone j ((found_iff hname).mpr ⟨hdp, htext, .inr hcred⟩)
        · by_cases hh : h = hashOf k name.chars dp
          · rw [hh, update_self, mem_cons, (ht.hashed.nodup (hashOf k name.chars dp)).mem_erase_iff]
            tauto
          · rw [update_of_ne hh, (ht.hashed.nodup h).mem_erase_iff]
            tauto
      · rw [hview _ rfl, ← halike.view]
        refine ht.counted.update (fun v => ?_) fun c hc => ?_
        · have hafter : vCount' v = vCount v + (if some dp = some v then 1 else 0) +
              if some vp = some v then 1 else 0 := hvCount' v
          rw [hvCount v] at hafter
          exact hafter
        · have hafter : crRef' c = crRef c + if cred = c then 1 else 0 := hcrRef' c hc
          rw [hcrRef c hc] at hafter
          exact hafter
  · rw [if_pos (show (some (Ncp.entry i)).isSome = true from rfl)]
    exact ⟨t, rfl, ⟨chains, lru, ht⟩, halike.doingcache, .inl halike.view⟩

/-! ### Runs -/

/-- The cache, the holds that others have, and what each name was last entered for, as long as no
remove or purge has covered it. -/
structure Sys (n : Nat) (Vnode Cred Vfs : Type) where
  dnlc : Dnlc n Vnode Cred Vfs
  others : Vnode → Int
  crOthers : CredPtr Cred → Int
  entered : Vnode → List (BitVec 8) → CredPtr Cred → Option Vnode

inductive Call (Vnode Cred Vfs : Type) where
  | enter (dp : Vnode) (name : CString) (vp : Vnode) (cred : CredPtr Cred) (lid : BitVec 32)
  | lookup (dp : Vnode) (name : CString) (cred : CredPtr Cred) (lid : BitVec 32)
  | remove (dp : Vnode) (name : CString) (lid : BitVec 32)
  | purge
  | purgeVp (vp : Vnode)
  | purgeVfsp (vfsp : Vfs) (count : Int)
  | purge1
  | elsewhere (holds : Vnode → Int) (crHolds : CredPtr Cred → Int) (vVfsp : Vnode → Vfs)

/-- The name is there already, and `dnlc_enter` does nothing about it. -/
def Cached (s : Dnlc n Vnode Cred Vfs) (dp : Vnode) (name : CString) (cred : CredPtr Cred) : Prop :=
  ∃ i, Found (s.cache (.entry i)) dp name cred

instance (s : Dnlc n Vnode Cred Vfs) (dp : Vnode) (name : CString) (cred : CredPtr Cred) :
    Decidable (Cached s dp name cred) := inferInstanceAs (Decidable (∃ _, _))

def Stands (s : Dnlc n Vnode Cred Vfs) (dp : Vnode) (text : List (BitVec 8)) (cred : CredPtr Cred) :
    Prop :=
  ∃ i, (s.view i).dp = some dp ∧ (s.view i).text = text ∧ (s.view i).cred = cred

instance (s : Dnlc n Vnode Cred Vfs) (dp : Vnode) (text : List (BitVec 8)) (cred : CredPtr Cred) :
    Decidable (Stands s dp text cred) := inferInstanceAs (Decidable (∃ _, _))

/-- What was entered for a name that a purge covers is forgotten. -/
def forget (entered : Vnode → List (BitVec 8) → CredPtr Cred → Option Vnode)
    (covered : Vnode → List (BitVec 8) → CredPtr Cred → Prop)
    [∀ dp text cred, Decidable (covered dp text cred)] :
    Vnode → List (BitVec 8) → CredPtr Cred → Option Vnode :=
  fun dp text cred => if covered dp text cred then none else entered dp text cred

/-- A call, with what becomes of `entered`. A purge of some number of entries covers those that are
gone after it. -/
inductive Step [DecidableEq Vfs] (k : Kernel Vnode) : Sys n Vnode Cred Vfs → Call Vnode Cred Vfs →
    Sys n Vnode Cred Vfs → Prop
  | enter {s : Sys n Vnode Cred Vfs} {c} {dp name vp cred lid}
      (h : dnlcEnter k s.dnlc dp name vp cred lid = some c) :
      Step k s (.enter dp name vp cred lid)
        { s with
          dnlc := c
          entered := fun d text r =>
            if d = dp ∧ text = name.chars ∧ r = cred ∧ ¬ Cached s.dnlc dp name cred then some vp
            else s.entered d text r }
  | lookup {s : Sys n Vnode Cred Vfs} {c r} {dp name cred lid}
      (h : dnlcLookup k s.dnlc dp name cred lid = some (c, r)) :
      Step k s (.lookup dp name cred lid) { s with dnlc := c }
  | remove {s : Sys n Vnode Cred Vfs} {c} {dp name lid}
      (h : dnlcRemove k s.dnlc dp name lid = some c) :
      Step k s (.remove dp name lid)
        { s with
          dnlc := c
          entered := forget s.entered fun d text _ => d = dp ∧ text = name.chars }
  | purge {s : Sys n Vnode Cred Vfs} {c} (h : dnlcPurge k s.dnlc = some c) :
      Step k s .purge { s with dnlc := c, entered := forget s.entered fun _ _ _ => True }
  | purgeVp {s : Sys n Vnode Cred Vfs} {c} {vp} (h : dnlcPurgeVp s.dnlc vp = some c) :
      Step k s (.purgeVp vp)
        { s with
          dnlc := c
          entered := forget s.entered fun d text r => d = vp ∨ s.entered d text r = some vp }
  | purgeVfsp {s : Sys n Vnode Cred Vfs} {c done} {vfsp}
      (h : dnlcPurgeVfsp s.dnlc vfsp 0 = some (c, done)) :
      Step k s (.purgeVfsp vfsp 0)
        { s with
          dnlc := c
          entered := forget s.entered fun d text r =>
            s.dnlc.vVfsp d = vfsp ∨ (s.entered d text r).map s.dnlc.vVfsp = some vfsp }
  | purgeSome {s : Sys n Vnode Cred Vfs} {c done} {vfsp count} (hcount : count ≠ 0)
      (h : dnlcPurgeVfsp s.dnlc vfsp count = some (c, done)) :
      Step k s (.purgeVfsp vfsp count)
        { s with
          dnlc := c
          entered := forget s.entered fun d text r =>
            Stands s.dnlc d text r ∧ ¬ Stands c d text r }
  | purge1 {s : Sys n Vnode Cred Vfs} {c done} (h : dnlcPurge1 s.dnlc = some (c, done)) :
      Step k s .purge1
        { s with
          dnlc := c
          entered := forget s.entered fun d text r =>
            Stands s.dnlc d text r ∧ ¬ Stands c d text r }
  | elsewhere {s : Sys n Vnode Cred Vfs} {holds crHolds vVfsp} :
      Step k s (.elsewhere holds crHolds vVfsp)
        { s with
          dnlc :=
            { s.dnlc with
              vCount := fun v => s.dnlc.vCount v + holds v
              crRef := fun c => s.dnlc.crRef c + crHolds c
              vVfsp := vVfsp }
          others := fun v => s.others v + holds v
          crOthers := fun c => s.crOthers c + crHolds c }

/-- File systems take a null name for the directory itself and do not look it up. -/
def Named : Call Vnode Cred Vfs → Prop
  | .enter _ name _ _ _ => name.chars ≠ []
  | .lookup _ name _ _ => name.chars ≠ []
  | .remove _ name _ => name.chars ≠ []
  | _ => True

/-- The static variables, with `doingcache` as it is initialised, after `dnlc_init`. -/
def boot (k : Kernel Vnode) (s : Dnlc n Vnode Cred Vfs) : Sys n Vnode Cred Vfs :=
  { dnlc := dnlcInit k { s with doingcache := true }
    others := s.vCount
    crOthers := s.crRef
    entered := fun _ _ _ => none }

/-- What every call keeps. -/
structure Held (k : Kernel Vnode) (s : Sys n Vnode Cred Vfs) : Prop where
  counted : Counted s.dnlc.view s.dnlc s.others s.crOthers
  off : s.dnlc.doingcache = false → n = 0
  order : s.dnlc.doingcache = true → InOrder k s.others s.crOthers s.dnlc
  known : ∀ i dp, (s.dnlc.view i).dp = some dp →
    s.entered dp (s.dnlc.view i).text (s.dnlc.view i).cred = (s.dnlc.view i).vp

variable {a b : Sys n Vnode Cred Vfs} {c : Dnlc n Vnode Cred Vfs}

theorem InOrder.counted (h : InOrder k others crOthers s) : Counted s.view s others crOthers := by
  obtain ⟨chains, lru, hgood⟩ := h
  exact hgood.counted

theorem Held.of_order {entered : Vnode → List (BitVec 8) → CredPtr Cred → Option Vnode}
    (hc : InOrder k others crOthers c) (hdoing : c.doingcache = true)
    (hknown : ∀ i dp, (c.view i).dp = some dp →
      entered dp (c.view i).text (c.view i).cred = (c.view i).vp) :
    Held k ⟨c, others, crOthers, entered⟩ :=
  ⟨hc.counted, fun hoff => absurd (hoff.symm.trans hdoing) Bool.false_ne_true, fun _ => hc, hknown⟩

theorem Held.purged {covered : Vnode → List (BitVec 8) → CredPtr Cred → Prop}
    [∀ dp text cred, Decidable (covered dp text cred)] (h : Held k a) (hdoing : a.dnlc.doingcache = true)
    (hc : InOrder k a.others a.crOthers c) (hpurged : Purged P a.dnlc c)
    (hcovered : ∀ i dp, (c.view i).dp = some dp →
      a.entered dp (c.view i).text (c.view i).cred = (c.view i).vp →
      ¬ covered dp (c.view i).text (c.view i).cred) :
    Held k { a with dnlc := c, entered := forget a.entered covered } := by
  refine Held.of_order hc (hpurged.doingcache.trans hdoing) fun i dp hi => ?_
  have hsame := hpurged.kept i (by
    rw [hi]
    exact some_ne_none dp)
  have hknown : a.entered dp (c.view i).text (c.view i).cred = (c.view i).vp := by
    rw [hsame] at hi ⊢
    exact h.known i dp hi
  unfold forget
  rw [if_neg (hcovered i dp hi hknown)]
  exact hknown

/-! ### What each purge does -/

section

variable (hpick : Picks k s.vVfsp pick P) (hs : InOrder k others crOthers s)
include hpick hs

variable (more) in
theorem InOrder.drained :
    ∃ t done, drain pick more (n + 1) s 0 = some (t, done) ∧ InOrder k others crOthers t ∧
      Purged P s t ∧ ((∀ i, (t.view i).dp ≠ none → ¬ P (t.view i)) ∨ more done = false) :=
  drain_ok hpick (n + 1) 0 hs rfl (Nat.lt_succ_of_le inUse_le)

theorem InOrder.drained_all : ∃ t done, drain pick (fun _ => true) (n + 1) s 0 = some (t, done) ∧
      InOrder k others crOthers t ∧ Purged P s t ∧ ∀ i, (t.view i).dp ≠ none → ¬ P (t.view i) := by
  obtain ⟨t, done, hdrain, ht, hpurged, hnone | hfalse⟩ := hs.drained _ hpick
  · exact ⟨t, done, hdrain, ht, hpurged, hnone⟩
  · cases hfalse

end

theorem InOrder.remove (hs : InOrder k others crOthers s) (hname : name.chars ≠ []) :
    ∃ t, dnlcRemove k s dp name lid = some t ∧ (s.doingcache = true →
      InOrder k others crOthers t ∧
      Purged (fun w => w.dp = some dp ∧ w.text = name.chars) s t ∧
      ∀ i, (t.view i).dp = some dp → (t.view i).text ≠ name.chars) := by
  unfold dnlcRemove
  by_cases hdoing : s.doingcache = false
  · rw [if_pos hdoing]
    exact ⟨s, rfl, fun htrue => absurd (hdoing.symm.trans htrue) Bool.false_ne_true⟩
  rw [if_neg hdoing]
  by_cases hlong : ncNAMLEN < name.strlen
  · rw [if_pos hlong]
    refine ⟨s, rfl, fun _ => ⟨hs, ⟨fun i _ => rfl, fun i hnew hold => absurd hnew hold, rfl, rfl⟩,
      fun i hdp htext => ?_⟩⟩
    obtain ⟨chains, lru, hgood⟩ := hs
    have hlength := (hgood.filled.full i dp hdp).2.2.1
    rw [htext] at hlength
    exact absurd hlong (not_lt.mpr hlength)
  rw [if_neg hlong]
  have hpick : Picks k s.vVfsp (dnlcSearch (n := n) k dp name (ncHash k name dp) .anycred lid 2)
      fun w : View Vnode Cred => w.dp = some dp ∧ w.text = name.chars := search_picks hname
  obtain ⟨t, done, hdrain, ht, hpurged, hgone⟩ := hs.drained_all hpick
  rw [hdrain]
  refine ⟨t, rfl, fun _ => ⟨ht, hpurged, fun i hdp htext => hgone i ?_ ⟨hdp, htext⟩⟩⟩
  rw [hdp]
  exact some_ne_none dp

theorem Held.elsewhere (h : Held k a) (holds : Vnode → Int) (crHolds : CredPtr Cred → Int)
    (vVfsp : Vnode → Vfs) : Held k { a with
        dnlc := { a.dnlc with
            vCount := fun v => a.dnlc.vCount v + holds v
            crRef := fun c => a.dnlc.crRef c + crHolds c
            vVfsp := vVfsp }
        others := fun v => a.others v + holds v
        crOthers := fun c => a.crOthers c + crHolds c } := by
  have hcounted : ∀ {view : Fin n → View Vnode Cred}, Counted view a.dnlc a.others a.crOthers →
      Counted view { a.dnlc with
          vCount := fun v => a.dnlc.vCount v + holds v
          crRef := fun c => a.dnlc.crRef c + crHolds c
          vVfsp := vVfsp } (fun v => a.others v + holds v) fun c => a.crOthers c + crHolds c := by
    intro view hc
    refine ⟨fun v => ?_, fun c hne => ?_⟩
    · have hv := hc.vnodes v
      simp only [hv]
      ring
    · have hr := hc.creds c hne
      simp only [hr]
      ring
  refine ⟨hcounted h.counted, h.off, fun hdoing => ?_, h.known⟩
  obtain ⟨chains, lru, hgood⟩ := h.order hdoing
  exact ⟨chains, lru, hgood.hashed.congr rfl rfl, hgood.aged.congr rfl rfl, hgood.filled,
    hcounted hgood.counted⟩

theorem Held.without (h : Held k a) (hoff : a.dnlc.doingcache = false) (hc : c = a.dnlc)
    (entered : Vnode → List (BitVec 8) → CredPtr Cred → Option Vnode) :
    Held k { a with dnlc := c, entered := entered } := by
  rw [hc]
  have hn := h.off hoff
  refine ⟨h.counted, h.off, h.order, fun i => ?_⟩
  exact absurd i.isLt (by omega)

variable {call : Call Vnode Cred Vfs}

theorem Held.off_step [DecidableEq Vfs] (h : Held k a) (hoff : a.dnlc.doingcache = false)
    (hstep : Step k a call b) : Held k b := by
  cases hstep with
  | enter hcall =>
    rw [dnlcEnter, if_pos hoff] at hcall
    exact h.without hoff (some_injective _ hcall).symm _
  | lookup hcall =>
    rw [dnlcLookup, if_pos hoff] at hcall
    exact h.without hoff (mk.inj (some_injective _ hcall)).1.symm _
  | remove hcall =>
    rw [dnlcRemove, if_pos hoff] at hcall
    exact h.without hoff (some_injective _ hcall).symm _
  | purge hcall =>
    rw [dnlcPurge, if_pos hoff] at hcall
    exact h.without hoff (some_injective _ hcall).symm _
  | purgeVp hcall =>
    rw [dnlcPurgeVp, if_pos hoff] at hcall
    exact h.without hoff (some_injective _ hcall).symm _
  | purgeVfsp hcall =>
    rw [dnlcPurgeVfsp, if_pos hoff] at hcall
    exact h.without hoff (mk.inj (some_injective _ hcall)).1.symm _
  | purgeSome _ hcall =>
    rw [dnlcPurgeVfsp, if_pos hoff] at hcall
    exact h.without hoff (mk.inj (some_injective _ hcall)).1.symm _
  | purge1 hcall =>
    rw [dnlcPurge1, if_pos hoff] at hcall
    exact h.without hoff (mk.inj (some_injective _ hcall)).1.symm _
  | elsewhere => exact h.elsewhere _ _ _

theorem Held.step [DecidableEq Vfs] (h : Held k a) (hnamed : Named call) (hstep : Step k a call b) :
    Held k b := by
  by_cases hoff : a.dnlc.doingcache = false
  · exact h.off_step hoff hstep
  have hdoing : a.dnlc.doingcache = true := Bool.not_eq_false _ ▸ hoff
  have horder := h.order hdoing
  cases hstep with
  | @enter c dp name vp cred lid hcall =>
    obtain ⟨chains, lru, hgood⟩ := horder
    obtain ⟨t, ht, hnew, hkeep, hview⟩ := hgood.enter dp vp cred lid hnamed
    obtain rfl : t = c := some_injective _ (ht.symm.trans hcall)
    refine Held.of_order hnew (hkeep.trans hdoing) fun i d hi => ?_
    -- an entry that was there is for another name, or for this one and the call ignored
    have hold : ∀ i d, (a.dnlc.view i).dp = some d →
        (if d = dp ∧ (a.dnlc.view i).text = name.chars ∧ (a.dnlc.view i).cred = cred ∧
            ¬ Cached a.dnlc dp name cred then some vp
          else a.entered d (a.dnlc.view i).text (a.dnlc.view i).cred) = (a.dnlc.view i).vp := by
      intro i d hi
      rw [if_neg]
      · exact h.known i d hi
      · rintro ⟨rfl, htext, hcred, hcached⟩
        exact hcached ⟨i, (found_iff hnamed).mpr ⟨hi, htext, .inr hcred⟩⟩
    rcases hview with hsame | ⟨hnone, x, hupdate⟩
    · rw [hsame] at hi ⊢
      exact hold i d hi
    rw [hupdate] at hi ⊢
    by_cases hix : i = x
    · rw [hix, update_self] at hi ⊢
      have hcached : ¬ Cached a.dnlc dp name cred := fun ⟨j, hj⟩ => hnone j hj
      rw [if_pos ⟨(some_injective _ hi).symm, rfl, rfl, hcached⟩]
    · rw [update_of_ne hix] at hi ⊢
      exact hold i d hi
  | @lookup c r dp name cred lid hcall =>
    obtain ⟨chains, lru, hgood⟩ := horder
    obtain ⟨t, r', ht, hnew, hsame, -⟩ := hgood.lookup dp cred lid hnamed
    obtain rfl : t = c := (mk.inj (some_injective _ (ht.symm.trans hcall))).1
    refine Held.of_order hnew (hsame.doingcache.trans hdoing) fun i d hi => ?_
    rw [hsame.view] at hi ⊢
    exact h.known i d hi
  | @remove c dp name lid hcall =>
    obtain ⟨t, ht, hafter⟩ : ∃ t, dnlcRemove k a.dnlc dp name lid = some t ∧ _ := horder.remove hnamed
    obtain rfl : t = c := some_injective _ (ht.symm.trans hcall)
    obtain ⟨hnew, hpurged, hgone⟩ := hafter hdoing
    refine h.purged hdoing hnew hpurged fun i d hi _ => ?_
    rintro ⟨rfl, htext⟩
    exact hgone i hi htext
  | @purge c hcall =>
    rw [dnlcPurge, if_neg hoff] at hcall
    obtain ⟨t, done, ht, hnew, hpurged, hgone⟩ := horder.drained_all firstHashed_picks
    rw [ht] at hcall
    obtain rfl : t = c := some_injective _ hcall
    refine h.purged hdoing hnew hpurged fun i d hi _ _ => ?_
    refine hgone i ?_ trivial
    rw [hi]
    exact some_ne_none d
  | @purgeVp c vp hcall =>
    rw [dnlcPurgeVp, if_neg hoff] at hcall
    obtain ⟨t, done, ht, hnew, hpurged, hgone⟩ := horder.drained_all (refersTo_picks vp)
    rw [ht] at hcall
    obtain rfl : t = c := some_injective _ hcall
    refine h.purged hdoing hnew hpurged fun i d hi hknown hcovered => ?_
    refine hgone i ?_ ?_
    · rw [hi]
      exact some_ne_none d
    · rw [← hknown, hi]
      exact hcovered.imp (congrArg some) id
  | @purgeVfsp c done vfsp hcall =>
    rw [dnlcPurgeVfsp, if_neg hoff] at hcall
    obtain ⟨t, done', ht, hnew, hpurged, hgone⟩ :=
      horder.drained (fun done => decide ((0 : Int) = 0 ∨ done < 0)) (isOn_picks vfsp)
    obtain rfl : t = c := (mk.inj (some_injective _ (ht.symm.trans hcall))).1
    refine h.purged hdoing hnew hpurged fun i d hi hknown hcovered => ?_
    rcases hgone with hnone | hmore
    · refine hnone i ?_ ?_
      · rw [hi]
        exact some_ne_none d
      · rw [← hknown, hi]
        exact hcovered.imp (congrArg some) id
    · exact absurd (.inl rfl) (of_decide_eq_false hmore)
  | @purgeSome c done vfsp count hcount hcall =>
    rw [dnlcPurgeVfsp, if_neg hoff] at hcall
    obtain ⟨t, done', ht, hnew, hpurged, -⟩ := horder.drained _ (isOn_picks vfsp)
    rw [ht] at hcall
    obtain rfl : t = c := (mk.inj (some_injective _ hcall)).1
    exact h.purged hdoing hnew hpurged fun i d hi _ hcovered => hcovered.2 ⟨i, hi, rfl, rfl⟩
  | @purge1 c done hcall =>
    rw [dnlcPurge1, if_neg hoff] at hcall
    obtain ⟨t, done', ht, hnew, hpurged, -⟩ := horder.drained _ inUse_picks
    rw [ht] at hcall
    obtain rfl : t = c := (mk.inj (some_injective _ hcall)).1
    exact h.purged hdoing hnew hpurged fun i d hi _ hcovered => hcovered.2 ⟨i, hi, rfl, rfl⟩
  | elsewhere => exact h.elsewhere _ _ _

theorem Held.boot (k : Kernel Vnode) (s : Dnlc n Vnode Cred Vfs) : Held k (boot k s) := by
  by_cases hn : n = 0
  · have hinit : dnlcInit k { s with doingcache := true } = { s with doingcache := false } := if_pos hn
    have hnone : ∀ {α : Type} [DecidableEq α] (field : Fin n → α) (a : α), tally field a = 0 :=
      fun field a => tally_none fun i => absurd i.isLt (by omega)
    unfold Dnlc.boot
    rw [hinit]
    refine ⟨⟨fun v => ?_, fun c _ => ?_⟩, fun _ => hn, fun hdoing => ?_, fun i => ?_⟩
    · rw [hnone, hnone]
      simp
    · rw [hnone]
      simp
    · cases hdoing
    · exact absurd i.isLt (by omega)
  · obtain ⟨hgood, hempty, hdoing⟩ := Good.initial (k := k) (s := { s with doingcache := true }) hn rfl
    refine Held.of_order ⟨_, _, hgood⟩ hdoing fun i dp hi => ?_
    rw [hempty i] at hi
    cases hi

/-- Every call comes back. -/
theorem Held.returns [DecidableEq Vfs] (h : Held k a) (hnamed : Named call) : ∃ b, Step k a call b := by
  by_cases hoff : a.dnlc.doingcache = false
  · cases call with
    | enter dp name vp cred lid => exact ⟨_, Step.enter (by rw [dnlcEnter, if_pos hoff])⟩
    | lookup dp name cred lid => exact ⟨_, Step.lookup (by rw [dnlcLookup, if_pos hoff])⟩
    | remove dp name lid => exact ⟨_, Step.remove (by rw [dnlcRemove, if_pos hoff])⟩
    | purge => exact ⟨_, Step.purge (by rw [dnlcPurge, if_pos hoff])⟩
    | purgeVp vp => exact ⟨_, Step.purgeVp (by rw [dnlcPurgeVp, if_pos hoff])⟩
    | purgeVfsp vfsp count =>
      by_cases hcount : count = 0
      · rw [hcount]
        exact ⟨_, Step.purgeVfsp (by rw [dnlcPurgeVfsp, if_pos hoff])⟩
      · exact ⟨_, Step.purgeSome hcount (by rw [dnlcPurgeVfsp, if_pos hoff])⟩
    | purge1 => exact ⟨_, Step.purge1 (by rw [dnlcPurge1, if_pos hoff])⟩
    | elsewhere holds crHolds vVfsp => exact ⟨_, Step.elsewhere⟩
  have horder := h.order (Bool.not_eq_false _ ▸ hoff)
  cases call with
  | enter dp name vp cred lid =>
    obtain ⟨chains, lru, hgood⟩ := horder
    obtain ⟨t, ht, -⟩ := hgood.enter dp vp cred lid hnamed
    exact ⟨_, Step.enter ht⟩
  | lookup dp name cred lid =>
    obtain ⟨chains, lru, hgood⟩ := horder
    obtain ⟨t, r, ht, -⟩ := hgood.lookup dp cred lid hnamed
    exact ⟨_, Step.lookup ht⟩
  | remove dp name lid =>
    obtain ⟨t, ht, -⟩ : ∃ t, dnlcRemove k a.dnlc dp name lid = some t ∧ _ := horder.remove hnamed
    exact ⟨_, Step.remove ht⟩
  | purge =>
    obtain ⟨t, done, ht, -⟩ := horder.drained_all firstHashed_picks
    exact ⟨_, Step.purge (by rw [dnlcPurge, if_neg hoff, ht, map_some])⟩
  | purgeVp vp =>
    obtain ⟨t, done, ht, -⟩ := horder.drained_all (refersTo_picks vp)
    exact ⟨_, Step.purgeVp (by rw [dnlcPurgeVp, if_neg hoff, ht, map_some])⟩
  | purgeVfsp vfsp count =>
    obtain ⟨t, done, ht, -⟩ :=
      horder.drained (fun done => decide (count = 0 ∨ done < count)) (isOn_picks vfsp)
    have hcall : dnlcPurgeVfsp a.dnlc vfsp count = some (t, done) := by
      rw [dnlcPurgeVfsp, if_neg hoff]
      exact ht
    by_cases hcount : count = 0
    · rw [hcount] at hcall ⊢
      exact ⟨_, Step.purgeVfsp hcall⟩
    · exact ⟨_, Step.purgeSome hcount hcall⟩
  | purge1 =>
    obtain ⟨t, done, ht, -⟩ := horder.drained (fun _ => false) inUse_picks
    exact ⟨_, Step.purge1 (by rw [dnlcPurge1, if_neg hoff, ht])⟩
  | elsewhere holds crHolds vVfsp => exact ⟨_, Step.elsewhere⟩

/-- What holds of the cache between calls. -/
structure Sound [DecidableEq Vfs] (k : Kernel Vnode) (s : Sys n Vnode Cred Vfs) : Prop where
  /-- Every call comes back. -/
  returns : ∀ call, Named call → ∃ t, Step k s call t
  /-- The links are those of chains and of an LRU list; the list has every entry once, and the
  chains those that stand for a name, each its own. -/
  linked : ∃ (chains : Fin k.nchashSize → List (Fin n)) (lru : List (Fin n)),
    (s.dnlc.doingcache = true → Hashed s.dnlc none chains ∧
      Ring s.dnlc.lruNext s.dnlc.lruPrev .lru (lru.map .entry)) ∧
    lru.Nodup ∧ (∀ i, i ∈ lru) ∧
    ∀ i, ((∃ h, i ∈ chains h) ↔
        ∃ dp vp, (s.dnlc.view i).dp = some dp ∧ (s.dnlc.view i).vp = some vp) ∧
      (∀ dp, (s.dnlc.view i).dp = some dp → i ∈ chains (hashOf k (s.dnlc.view i).text dp)) ∧
      ((∀ h, i ∉ chains h) → (s.dnlc.view i).dp = none ∧ (s.dnlc.view i).vp = none)
  /-- Every entry has one hold on either vnode. -/
  holds : ∀ v, s.dnlc.vCount v = s.others v +
    tally (fun i => (s.dnlc.view i).dp) (some v) + tally (fun i => (s.dnlc.view i).vp) (some v)
  unique : ∀ i j, (s.dnlc.view i).dp ≠ none → (s.dnlc.view i).dp = (s.dnlc.view j).dp →
    (s.dnlc.view i).text = (s.dnlc.view j).text → (s.dnlc.view i).cred = (s.dnlc.view j).cred → i = j
  /-- A lookup finds nothing, or what was entered last of what was not there already. -/
  lookup : ∀ dp name cred lid c r, name.chars ≠ [] →
    dnlcLookup k s.dnlc dp name cred lid = some (c, r) →
    r = none ∧ ¬ Cached s.dnlc dp name cred ∨
      ∃ vp held, r = some vp ∧ (cred = .anycred ∨ held = cred) ∧
        s.entered dp name.chars held = some vp

theorem Held.sound [DecidableEq Vfs] (h : Held k a) : Sound k a := by
  by_cases hoff : a.dnlc.doingcache = false
  · have hn := h.off hoff
    refine ⟨fun call hnamed => h.returns hnamed, ⟨fun _ => [], finRange n, fun hdoing => ?_,
      nodup_finRange n, mem_finRange, fun i => ?_⟩, h.counted.vnodes, fun i => ?_,
      fun dp name cred lid c r hname hcall => ?_⟩
    · exact absurd (hoff.symm.trans hdoing) Bool.false_ne_true
    · exact absurd i.isLt (by omega)
    · exact absurd i.isLt (by omega)
    · rw [dnlcLookup, if_pos hoff] at hcall
      refine .inl ⟨(mk.inj (some_injective _ hcall)).2.symm, ?_⟩
      rintro ⟨i, -⟩
      exact absurd i.isLt (by omega)
  have hdoing : a.dnlc.doingcache = true := Bool.not_eq_false _ ▸ hoff
  obtain ⟨chains, lru, hgood⟩ := h.order hdoing
  refine ⟨fun call hnamed => h.returns hnamed, ⟨chains, lru, fun _ => ⟨hgood.hashed,
    hgood.aged.ring⟩, hgood.aged.nodup, fun i => hgood.aged.all i (some_ne_none i),
    fun i => ⟨⟨?_, ?_⟩, fun dp hdp => (hgood.filled.full i dp hdp).2.2.2, fun hnot => ?_⟩⟩,
    h.counted.vnodes, hgood.filled.unique, fun dp name cred lid c r hname hcall => ?_⟩
  · rintro ⟨x, hx⟩
    rcases eq_none_or_eq_some (a.dnlc.view i).dp with hnone | ⟨dp, hdp⟩
    · exact absurd hx ((hgood.filled.empty i hnone).2.2 x)
    · obtain ⟨⟨vp, hvp⟩, -⟩ := hgood.filled.full i dp hdp
      exact ⟨dp, vp, hdp, hvp⟩
  · rintro ⟨dp, vp, hdp, -⟩
    exact ⟨_, (hgood.filled.full i dp hdp).2.2.2⟩
  · rcases eq_none_or_eq_some (a.dnlc.view i).dp with hnone | ⟨dp, hdp⟩
    · exact ⟨hnone, (hgood.filled.empty i hnone).1⟩
    · exact absurd (hgood.filled.full i dp hdp).2.2.2 (hnot _)
  · obtain ⟨t, r', ht, -, -, hr⟩ := hgood.lookup dp cred lid hname
    obtain rfl : r' = r := (mk.inj (some_injective _ (ht.symm.trans hcall))).2
    rcases hr hdoing with ⟨hnone, hnot⟩ | ⟨i, hfound, hvp⟩
    · exact .inl ⟨hnone, fun ⟨i, hi⟩ => hnot i hi⟩
    obtain ⟨hdp, htext, hcred⟩ := (found_iff hname).mp hfound
    obtain ⟨⟨vp, hview⟩, -⟩ := hgood.filled.full i dp hdp
    have hknown := h.known i dp hdp
    rw [hview, show (a.dnlc.view i).text = name.chars from htext] at hknown
    exact .inr ⟨vp, (a.dnlc.view i).cred, hvp.trans hview, hcred, hknown⟩

/-- After any calls the cache is sound. -/
theorem name_cache_run [DecidableEq Vfs] {s : Dnlc n Vnode Cred Vfs}
    {events : List (Call Vnode Cred Vfs)}
    (h : Exec (Guarded (Step k) fun _ call => Named call) (boot k s) events a) : Sound k a := by
  have hheld : Held k a := by
    refine h.keeps (Held k) (fun b call c hb hstep => ?_) (Held.boot k s)
    exact hb.step hstep.1 hstep.2
  exact hheld.sound

/-- Three vnodes and one hash chain. -/
def tiny : Kernel (Fin 3) :=
  { addr := fun v => BitVec.ofNat 32 v
    nchashSize := 1
    nchashSize_pos := Nat.one_pos
    macInstalled := false }

/-- A cache of two entries as the kernel starts with it. -/
def blank : Dnlc 2 (Fin 3) Unit Unit :=
  { doingcache := true
    hashNext := id
    hashPrev := id
    lruNext := id
    lruPrev := id
    cache := fun _ => zeroed
    vCount := fun _ => 1
    vVfsp := fun _ => ()
    crRef := fun _ => 1 }

def short (chars : List (BitVec 8)) : CString := ⟨0, chars⟩

def enterAll (names : List (List (BitVec 8) × Fin 3)) : Option (Dnlc 2 (Fin 3) Unit Unit) :=
  names.foldlM (fun s name => dnlcEnter tiny s 0 (short name.1) name.2 .nocred 0)
    (boot tiny blank).dnlc

/-- A run with one name, which is found. -/
theorem name_cache_run_enter : ∃ a : Sys 2 (Fin 3) Unit Unit,
    (dnlcLookup tiny a.dnlc 0 (short [102]) .nocred 0).map snd = some (some 1) ∧ Sound tiny a := by
  have hfound : ((dnlcEnter tiny (boot tiny blank).dnlc 0 (short [102]) 1 .nocred 0).bind fun c =>
      (dnlcLookup tiny c 0 (short [102]) .nocred 0).map snd) = some (some 1) := by
    decide
  obtain ⟨c, hc, hlookup⟩ := bind_eq_some_iff.mp hfound
  have hname : Named (.enter 0 (short [102]) 1 .nocred 0 : Call (Fin 3) Unit Unit) := cons_ne_nil _ _
  exact ⟨_, hlookup, name_cache_run (Exec.single ⟨hname, Step.enter hc⟩)⟩

/-- The second of two vnodes entered for a name is ignored, and the first one found; a null name is
entered twice where the first byte of its entry is not the one it is compared with. -/
theorem entered_twice : ((enterAll [([102], 1), ([102], 2)]).bind fun s =>
      (dnlcLookup tiny s 0 (short [102]) .nocred 0).map snd) = some (some 1) ∧
    ((enterAll [([102], 1), ([103], 1), ([], 1), ([], 1)]).map fun s =>
      decide (∀ i, (s.view i).dp = some 0 ∧ (s.view i).text = [] ∧ (s.view i).cred = .nocred)) =
        some true := by
  decide +kernel

end Svr42.Dnlc
