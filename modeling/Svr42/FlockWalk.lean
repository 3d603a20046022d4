import Svr42.FlockList

/-! The loop of `flckadj`. On a well-formed list it either meets a lock of the request's type over all
of its region, or takes from every lock of the owner that it touches what lies in the region, the
part after the region being put back as an entry of its own. -/

namespace Svr42.Flck
open List Option

def Touches (ld f : Flock) : Prop :=
  f.owner = ld.owner ∧
    if f.lType = ld.lType then f.lStart ≤ ld.lEnd + 1 ∧ ld.lStart ≤ f.lEnd + 1
    else f.lStart ≤ ld.lEnd ∧ ld.lStart ≤ f.lEnd

instance (ld f : Flock) : Decidable (Touches ld f) := by
  unfold Touches
  infer_instance

def Covers (ld f : Flock) : Prop :=
  f.owner = ld.owner ∧ f.lType = ld.lType ∧ f.lStart ≤ ld.lStart ∧ ld.lEnd ≤ f.lEnd

def Splits (ld f : Flock) : Prop :=
  f.owner = ld.owner ∧ f.lType ≠ ld.lType ∧ f.lStart ≤ ld.lEnd ∧ ld.lEnd < f.lEnd

instance (ld f : Flock) : Decidable (Covers ld f) := by
  unfold Covers
  infer_instance

instance (ld f : Flock) : Decidable (Splits ld f) := by
  unfold Splits
  infer_instance

/-- What is left of an entry in its place when the request is set. -/
def cut (ld : Flock) (f : Filock) : Option Filock :=
  if Touches ld f.set then
    if f.set.lType ≠ ld.lType ∧ f.set.lStart < ld.lStart then some (truncated f (ld.lStart - 1))
    else none
  else some f

def cutBefore (ld : Flock) (f : Filock) : Option Filock :=
  if Splits ld f.set then some f else cut ld f

theorem cut_of_not_touches {ld : Flock} {f : Filock} (h : ¬ Touches ld f.set) : cut ld f = some f := by
  rw [cut, if_neg h]

/-! ### One entry -/

section

variable (k : Kmem) {a : Adj} {flp : Filock}

theorem adjRegion_left (hregion : flp.set.lStart ≤ flp.set.lEnd) (hend : flp.set.lEnd < a.ld.lStart)
    (htype : a.ld.lType = flp.set.lType → flp.set.lEnd + 1 < a.ld.lStart) : adjRegion k a flp =
      .more (if flp.set.lEnd + 1 < a.ld.lStart then a.setInsrtp (some flp.addr) else a) := by
  by_cases hnear : flp.set.lEnd + 1 < a.ld.lStart
  · have hreg : regflck a.ld flp = (.after, .after) := by
      rw [regflck, if_neg (by omega), if_pos (by omega)]
    rw [adjRegion, hreg, if_pos hnear]
  · have hreg : regflck a.ld flp = (.end, .after) := by
      rw [regflck, if_pos (by omega)]
    rw [adjRegion, hreg, if_neg hnear]
    exact if_neg fun heq => hnear (htype heq)

theorem adjRegion_right (hld : a.ld.lStart ≤ a.ld.lEnd) (hregion : flp.set.lStart ≤ flp.set.lEnd)
    (hstart : a.ld.lEnd < flp.set.lStart)
    (htype : a.ld.lType = flp.set.lType → a.ld.lEnd + 1 < flp.set.lStart) :
    adjRegion k a flp = .last a := by
  by_cases hnear : a.ld.lEnd + 1 < flp.set.lStart
  · have hreg : regflck a.ld flp = (.before, .before) := by
      simp only [regflck]
      split_ifs <;> first | rfl | omega
    rw [adjRegion, hreg]
  · have hreg : regflck a.ld flp = (.before, .start) := by
      simp only [regflck]
      split_ifs <;> first | rfl | omega
    rw [adjRegion, hreg]
    exact if_neg fun heq => hnear (htype heq)

section

variable (hsame : a.ld.lType = flp.set.lType) (hstart : flp.set.lStart ≤ a.ld.lStart)
include hsame hstart

theorem adjRegion_covered (hld : a.ld.lStart ≤ a.ld.lEnd) (hend : a.ld.lEnd ≤ flp.set.lEnd) :
    ∃ p, adjRegion k a flp = .ret (a.setInsrtp p) none := by
  have hreg : regflck a.ld flp = (.start, .end) ∨ regflck a.ld flp = (.start, .middle) ∨
      regflck a.ld flp = (.middle, .middle) ∨ regflck a.ld flp = (.middle, .end) := by
    simp only [regflck]
    split_ifs <;> first | omega | simp
  rcases hreg with hreg | hreg | hreg | hreg
  · exact ⟨a.insrtp, by rw [adjRegion, hreg]; exact if_pos hsame⟩
  · exact ⟨prevOf a.list flp.addr, by rw [adjRegion, hreg]; exact if_pos hsame⟩
  · exact ⟨a.insrtp, by rw [adjRegion, hreg]; exact if_pos hsame⟩
  · exact ⟨a.insrtp, by rw [adjRegion, hreg]; exact if_pos hsame⟩

theorem adjRegion_same_left
    (htouch : a.ld.lStart ≤ flp.set.lEnd + 1) (hend : flp.set.lEnd < a.ld.lEnd) : adjRegion k a flp =
      .more (((a.setStart flp.set.lStart).setInsrtp (prevOf a.list flp.addr)).del flp) := by
  by_cases hlt : flp.set.lStart < a.ld.lStart
  · have hreg : regflck a.ld flp = (.end, .after) ∨ regflck a.ld flp = (.middle, .after) := by
      simp only [regflck]
      split_ifs <;> first | omega | simp
    rcases hreg with hreg | hreg
    · rw [adjRegion, hreg]
      exact if_pos hsame
    · rw [adjRegion, hreg]
      exact if_pos hsame
  · have hreg : regflck a.ld flp = (.start, .after) := by
      simp only [regflck]
      split_ifs <;> first | rfl | omega
    have hid : a.setStart flp.set.lStart = a := by
      rw [show flp.set.lStart = a.ld.lStart by omega]
      rfl
    rw [adjRegion, hreg, hid]

end

theorem adjRegion_inside (hstart : a.ld.lStart < flp.set.lStart) (hend : flp.set.lEnd ≤ a.ld.lEnd)
    (htype : a.ld.lType = flp.set.lType → flp.set.lEnd < a.ld.lEnd) :
    adjRegion k a flp = .more (a.del flp) := by
  by_cases hlt : flp.set.lEnd < a.ld.lEnd
  · have hreg : regflck a.ld flp = (.before, .after) := by
      simp only [regflck]
      split_ifs <;> first | rfl | omega
    rw [adjRegion, hreg]
  · have hreg : regflck a.ld flp = (.before, .end) := by
      simp only [regflck]
      split_ifs <;> first | rfl | omega
    rw [adjRegion, hreg]
    exact if_neg fun heq => hlt (htype heq)

theorem adjRegion_same_right (hsame : a.ld.lType = flp.set.lType) (hstart : a.ld.lStart < flp.set.lStart)
    (htouch : flp.set.lStart ≤ a.ld.lEnd + 1) (hend : a.ld.lEnd ≤ flp.set.lEnd) :
    adjRegion k a flp = .last ((a.setLdEnd flp.set.lEnd).del flp) := by
  by_cases hlt : a.ld.lEnd < flp.set.lEnd
  · have hreg : regflck a.ld flp = (.before, .start) ∨ regflck a.ld flp = (.before, .middle) := by
      simp only [regflck]
      split_ifs <;> first | omega | simp
    rcases hreg with hreg | hreg
    · rw [adjRegion, hreg]
      exact if_pos hsame
    · rw [adjRegion, hreg]
      exact if_pos hsame
  · have hreg : regflck a.ld flp = (.before, .end) := by
      simp only [regflck]
      split_ifs <;> first | rfl | omega
    have hid : a.setLdEnd flp.set.lEnd = a := by
      rw [show flp.set.lEnd = a.ld.lEnd by omega]
      rfl
    rw [adjRegion, hreg, hid]
    exact if_pos hsame

section

variable (hdiff : a.ld.lType ≠ flp.set.lType)
include hdiff

theorem adjRegion_front (hstart : flp.set.lStart < a.ld.lStart) (htouch : a.ld.lStart ≤ flp.set.lEnd)
    (hend : flp.set.lEnd ≤ a.ld.lEnd) : adjRegion k a flp = .more (a.cutBack flp) := by
  have hreg : regflck a.ld flp = (.middle, .after) ∨ regflck a.ld flp = (.middle, .end) := by
    simp only [regflck]
    split_ifs <;> first | omega | simp
  rcases hreg with hreg | hreg
  · rw [adjRegion, hreg]
    exact if_neg hdiff
  · rw [adjRegion, hreg]
    exact if_neg hdiff

theorem adjRegion_at_start (hstart : flp.set.lStart = a.ld.lStart) (hend : flp.set.lEnd ≤ a.ld.lEnd) :
    adjRegion k a flp = .more ((a.setInsrtp (prevOf a.list flp.addr)).del flp) := by
  have hreg : regflck a.ld flp = (.start, .after) ∨ regflck a.ld flp = (.start, .end) := by
    simp only [regflck]
    split_ifs <;> first | omega | simp
  rcases hreg with hreg | hreg
  · rw [adjRegion, hreg]
  · rw [adjRegion, hreg]
    exact if_neg hdiff

theorem adjRegion_split_front (hstart : flp.set.lStart < a.ld.lStart) (hld : a.ld.lStart ≤ a.ld.lEnd)
    (hend : a.ld.lEnd < flp.set.lEnd) : adjRegion k a flp = splitLock k a flp (.middle, .middle) := by
  have hreg : regflck a.ld flp = (.middle, .middle) := by
    simp only [regflck]
    split_ifs <;> first | rfl | omega
  rw [adjRegion, hreg]
  exact if_neg hdiff

theorem adjRegion_split_at_start (hstart : flp.set.lStart = a.ld.lStart) (hld : a.ld.lStart ≤ a.ld.lEnd)
    (hend : a.ld.lEnd < flp.set.lEnd) :
    adjRegion k a flp = splitLock k (a.setInsrtp (prevOf a.list flp.addr)) flp (.start, .middle) := by
  have hreg : regflck a.ld flp = (.start, .middle) := by
    simp only [regflck]
    split_ifs <;> first | rfl | omega
  rw [adjRegion, hreg]
  exact if_neg hdiff

theorem adjRegion_split_inside (hstart : a.ld.lStart < flp.set.lStart)
    (htouch : flp.set.lStart ≤ a.ld.lEnd) (hend : a.ld.lEnd < flp.set.lEnd) :
    adjRegion k a flp = splitLock k a flp (.before, .middle) := by
  have hreg : regflck a.ld flp = (.before, .middle) := by
    simp only [regflck]
    split_ifs <;> first | rfl | omega
  rw [adjRegion, hreg]
  exact if_neg hdiff

end

end

/-! ### Order on a well-formed list -/

theorem Wf.follows {pre post : List Filock} (h : Wf (pre ++ post)) {f g : Filock} (hf : f ∈ pre)
    (hg : g ∈ post) (howner : f.set.owner = g.set.owner) :
    f.set.lEnd < g.set.lStart ∧ (f.set.lType = g.set.lType → f.set.lEnd + 1 < g.set.lStart) := by
  have hsorted := (pairwise_append.mp h.sorted).2.2 f hf g hg
  have hne : f ≠ g := by
    rintro rfl
    have hnodup := h.addrs
    rw [map_append, nodup_append] at hnodup
    exact hnodup.2.2 _ (mem_map_of_mem hf) _ (mem_map_of_mem hg) rfl
  have hf' : f ∈ pre ++ post := mem_append_left _ hf
  have hg' : g ∈ pre ++ post := mem_append_right _ hg
  have hfv := h.valid f hf'
  have hgv := h.valid g hg'
  have hapart := h.apart f hf' g hg' hne
  have hregion' := hgv.region
  refine ⟨?_, fun ht => ?_⟩
  · have := hapart.disjoint howner
    omega
  · have := hapart.untouching howner ht
    omega

theorem Covers.touches {ld f : Flock} (h : Covers ld f) (hld : ld.lStart ≤ ld.lEnd) : Touches ld f := by
  refine ⟨h.1, ?_⟩
  rw [if_pos h.2.1]
  have := h.2.2
  omega

theorem Splits.touches {ld f : Flock} (h : Splits ld f) (hld : ld.lStart ≤ ld.lEnd) : Touches ld f := by
  refine ⟨h.1, ?_⟩
  rw [if_neg h.2.1]
  have := h.2.2
  omega

theorem cut_shrunk {ld : Flock} {f g : Filock} (hv : Valid f.set) (h : cut ld f = some g) :
    Shrunk f g := by
  have hregion := hv.region
  rw [cut] at h
  by_cases htouch : Touches ld f.set
  · rw [if_pos htouch] at h
    by_cases hfront : f.set.lType ≠ ld.lType ∧ f.set.lStart < ld.lStart
    · rw [if_pos hfront, some.injEq] at h
      subst h
      have hnear := htouch.2
      rw [if_neg hfront.1] at hnear
      refine ⟨rfl, rfl, rfl, rfl, ?_, ?_⟩
      · show ld.lStart - 1 ≤ f.set.lEnd
        omega
      · show f.set.lStart ≤ ld.lStart - 1
        omega
    · rw [if_neg hfront] at h
      exact absurd h (by simp)
  · rw [if_neg htouch, some.injEq] at h
    subst h
    exact ⟨rfl, rfl, rfl, rfl, Int.le_refl _, hregion⟩

theorem cutBefore_shrunk {ld : Flock} {f g : Filock} (hv : Valid f.set) (h : cutBefore ld f = some g) :
    Shrunk f g := by
  rw [cutBefore] at h
  split at h
  · cases h
    exact ⟨rfl, rfl, rfl, rfl, Int.le_refl _, hv.region⟩
  · exact cut_shrunk hv h

theorem Wf.cut_front {ld : Flock} {pre post : List Filock} (h : Wf (pre ++ post)) :
    Wf (pre.filterMap (cut ld) ++ post) := by
  have heq : pre.filterMap (cut ld) ++ post =
      (pre ++ post).filterMap fun f => if f ∈ pre then cut ld f else some f := by
    have hpost : ∀ f ∈ post, f ∉ pre := by
      intro f hf hf'
      have hnodup := h.addrs
      rw [map_append, nodup_append] at hnodup
      exact hnodup.2.2 _ (mem_map_of_mem hf') _ (mem_map_of_mem hf) rfl
    rw [filterMap_append]
    congr 1
    · exact filterMap_congr fun f hf => (if_pos hf).symm
    · refine (filterMap_some.symm).trans (filterMap_congr fun f hf => ?_)
      exact (if_neg (hpost f hf)).symm
  rw [heq]
  refine h.filterMap fun f hf g hg => ?_
  have hv := h.valid f hf
  split at hg
  · exact cut_shrunk hv hg
  · cases hg
    exact ⟨rfl, rfl, rfl, rfl, Int.le_refl _, hv.region⟩

/-! ### The loop -/

def PlaceOk (a : Adj) : Prop :=
  (∀ p, a.insrtp = some p → ∃ f ∈ a.list, f.addr = p ∧ f.set.lStart ≤ a.ld.lStart) ∧
    (a.insrtp = none → ∀ f ∈ a.list, a.ld.lStart ≤ f.set.lStart)

/-- `flckadj` for the request `ld` between two entries: `pre` is behind it, `todo` before it. -/
structure WalkInv (ld : Flock) (mem : Mem) (pre todo : List Filock) (a : Adj) : Prop where
  wf : Wf (pre ++ todo)
  list : a.list = pre.filterMap (cut ld) ++ todo
  ldEq : a.ld = { ld with lStart := a.ld.lStart }
  startLe : a.ld.lStart ≤ ld.lStart
  startMin : ∀ f ∈ pre, Touches ld f.set → f.set.lType = ld.lType → a.ld.lStart ≤ f.set.lStart
  startFrom : a.ld.lStart = ld.lStart ∨
    ∃ f ∈ pre, Touches ld f.set ∧ f.set.lType = ld.lType ∧ f.set.lStart = a.ld.lStart
  below : ∀ f ∈ pre, f.set.owner = ld.owner → f.set.lEnd ≤ ld.lEnd ∧ ¬ Covers ld f.set
  frame : MemFrame mem (pre ++ todo) a.mem a.list
  reccnt : a.mem.reccnt = mem.reccnt - pre.countP fun f => (cut ld f).isNone
  calls : a.mem.calls = mem.calls
  wake : ∀ f ∈ pre, Touches ld f.set → f.stat.wakeflg = 0 ∨ f.addr ∈ a.wakes
  place : ld.lType ≠ .unlck → PlaceOk a

namespace WalkInv

variable {ld : Flock} {mem : Mem} {pre rest : List Filock} {flp : Filock} {a : Adj}

theorem forall_mem_concat {P : Filock → Prop} (hpre : ∀ f ∈ pre, P f) (hflp : P flp) :
    ∀ f ∈ pre ++ [flp], P f :=
  forall_mem_append.mpr ⟨hpre, forall_mem_singleton.mpr hflp⟩

section

variable (h : WalkInv ld mem pre rest a)
include h

theorem ld_type : a.ld.lType = ld.lType := by
  rw [h.ldEq]

theorem ld_end : a.ld.lEnd = ld.lEnd := by
  rw [h.ldEq]

theorem ld_owner : a.ld.owner = ld.owner := by
  rw [h.ldEq]
  rfl

end

section

variable (h : WalkInv ld mem pre (flp :: rest) a)
include h

/-- Once the start of the request has moved, the owner's locks to come lie after the old start. -/
theorem start_moved (howner : flp.set.owner = ld.owner) :
    a.ld.lStart = ld.lStart ∨ a.ld.lStart < flp.set.lStart ∧ ld.lStart ≤ flp.set.lStart ∧
      (flp.set.lType = ld.lType → ld.lStart < flp.set.lStart) := by
  rcases h.startFrom with heq | ⟨f, hf, htouch, htype, hstart⟩
  · exact .inl heq
  have hafter := h.wf.follows hf (.head _) (htouch.1.trans howner.symm)
  have hregion := (h.wf.valid f (mem_append_left _ hf)).region
  have hnear := htouch.2
  rw [if_pos htype] at hnear
  refine .inr ⟨by omega, by omega, fun ht => ?_⟩
  have := hafter.2 (htype.trans ht.symm)
  omega

theorem wf_next : Wf ((pre ++ [flp]) ++ rest) := by
  rw [append_assoc]
  exact h.wf

/-- An entry that stays as it is. -/
theorem keep (p : Option Nat) (hcut : ¬ Touches ld flp.set)
    (hld : ld.lStart ≤ ld.lEnd) (hbelow : flp.set.owner = ld.owner → flp.set.lEnd ≤ ld.lEnd)
    (hplace : ld.lType ≠ .unlck → PlaceOk (a.setInsrtp p)) :
    WalkInv ld mem (pre ++ [flp]) rest (a.setInsrtp p) := by
  have hsome := cut_of_not_touches hcut
  refine ⟨h.wf_next, ?_, h.ldEq, h.startLe, ?_, ?_, ?_, ?_, ?_, h.calls, ?_, hplace⟩
  · rw [filterMap_append, filterMap_cons_some hsome, filterMap_nil, append_assoc]
    exact h.list
  · exact forall_mem_concat h.startMin fun ht => absurd ht hcut
  · exact h.startFrom.imp_right fun ⟨f, hf, hfrom⟩ => ⟨f, mem_append_left _ hf, hfrom⟩
  · exact forall_mem_concat h.below fun howner =>
      ⟨hbelow howner, fun hcovers => hcut (hcovers.touches hld)⟩
  · rw [append_assoc]
    exact h.frame
  · rw [countP_append, countP_singleton, hsome]
    simpa using h.reccnt
  · exact forall_mem_concat h.wake fun ht => absurd ht hcut

end

theorem wf_list (h : WalkInv ld mem pre rest a) : Wf a.list := by
  rw [h.list]
  exact h.wf.cut_front

section

variable (h : WalkInv ld mem pre (flp :: rest) a)
include h

theorem list_split : a.list = pre.filterMap (cut ld) ++ flp :: rest ∧
      flp.addr ∉ (pre.filterMap (cut ld)).map Filock.addr ∧ flp.addr ∉ rest.map Filock.addr := by
  have hnodup := h.wf_list.addrs
  rw [h.list, map_append, nodup_append, map_cons, nodup_cons] at hnodup
  exact ⟨h.list, fun hmem => hnodup.2.2 _ hmem _ (.head _) rfl, hnodup.2.1.1⟩

theorem del_list : (a.del flp).list = pre.filterMap (cut ld) ++ rest := by
  obtain ⟨hlist, hfront, -⟩ := h.list_split
  rw [Adj.del_list, hlist, delflck_append hfront]

theorem cutBack_list :
    (a.cutBack flp).list = pre.filterMap (cut ld) ++ truncated flp (a.ld.lStart - 1) :: rest := by
  obtain ⟨hlist, hfront, hback⟩ := h.list_split
  rw [Adj.cutBack_list, hlist, setEnd_append _ hfront hback]

theorem del_frame :
    MemFrame mem (pre ++ flp :: rest) (a.mem.free flp.addr) (pre.filterMap (cut ld) ++ rest) := by
  have hdel := MemFrame.del (h.list_split.1 ▸ by simp : flp ∈ a.list) h.frame.inUse h.wf_list.addrs
  rw [← h.del_list]
  exact h.frame.trans hdel

end

theorem wakes_del (f : Filock) (h : f.stat.wakeflg = 0 ∨ f.addr ∈ a.wakes) :
    f.stat.wakeflg = 0 ∨ f.addr ∈ a.wakes ++ wakeup flp := by
  rcases h with h | h
  · exact .inl h
  · exact .inr (mem_append_left _ h)

theorem wakes_self (f : Filock) : f.stat.wakeflg = 0 ∨ f.addr ∈ a.wakes ++ wakeup f := by
  by_cases hzero : f.stat.wakeflg = 0
  · exact .inl hzero
  · refine .inr (mem_append_right _ ?_)
    rw [wakeup, if_neg hzero]
    exact mem_singleton.mpr rfl

section

variable (h : WalkInv ld mem pre (flp :: rest) a)
include h

/-- An entry that goes; the start of the request moves to `start`. -/
theorem remove (start : Int) (p : Option Nat) (hcut : cut ld flp = none) (htouch : Touches ld flp.set)
    (hbelow : flp.set.lEnd ≤ ld.lEnd) (hcovers : ¬ Covers ld flp.set) (hle : start ≤ a.ld.lStart)
    (hmin : flp.set.lType = ld.lType → start ≤ flp.set.lStart)
    (hfrom : start = a.ld.lStart ∨ flp.set.lType = ld.lType ∧ flp.set.lStart = start)
    (hplace : ld.lType ≠ .unlck → PlaceOk (((a.setStart start).setInsrtp p).del flp)) :
    WalkInv ld mem (pre ++ [flp]) rest (((a.setStart start).setInsrtp p).del flp) := by
  have hlist : (((a.setStart start).setInsrtp p).del flp).list =
      (pre ++ [flp]).filterMap (cut ld) ++ rest := by
    rw [filterMap_append, filterMap_cons_none hcut, filterMap_nil, append_nil]
    exact h.del_list
  refine ⟨h.wf_next, hlist, ?_, Int.le_trans hle h.startLe, ?_, ?_, ?_, ?_, ?_, h.calls, ?_, hplace⟩
  · simp only [Adj.del_ld, Adj.setInsrtp_ld]
    rw [Adj.setStart, h.ldEq]
  · exact forall_mem_concat (fun f hf ht htype => Int.le_trans hle (h.startMin f hf ht htype))
      fun _ => hmin
  · rcases hfrom with heq | ⟨htype, heq⟩
    · rcases h.startFrom with hold | ⟨f, hf, ht, htype, hstart⟩
      · exact .inl (heq.trans hold)
      · exact .inr ⟨f, mem_append_left _ hf, ht, htype, hstart.trans heq.symm⟩
    · exact .inr ⟨flp, by simp, htouch, htype, heq⟩
  · exact forall_mem_concat h.below fun _ => ⟨hbelow, hcovers⟩
  · rw [hlist, filterMap_append, filterMap_cons_none hcut, filterMap_nil, append_nil, append_assoc]
    exact h.del_frame
  · rw [countP_append, countP_singleton, hcut]
    have hcount := h.reccnt
    simp only [Adj.del_mem, Adj.setInsrtp_mem, Adj.setStart_mem, Mem.free]
    simp only [isNone_none, if_true]
    omega
  · exact forall_mem_concat (fun f hf ht => wakes_del f (h.wake f hf ht)) fun _ => wakes_self flp

/-- An entry that keeps the part before the request. -/
theorem truncate (hstart : a.ld.lStart = ld.lStart)
    (hcut : cut ld flp = some (truncated flp (ld.lStart - 1))) (hbelow : flp.set.lEnd ≤ ld.lEnd)
    (hcovers : ¬ Covers ld flp.set) (hlt : flp.set.lStart < ld.lStart)
    (htype : flp.set.lType ≠ ld.lType) : WalkInv ld mem (pre ++ [flp]) rest (a.cutBack flp) := by
  have hlist : (a.cutBack flp).list = (pre ++ [flp]).filterMap (cut ld) ++ rest := by
    rw [filterMap_append, filterMap_cons_some hcut, filterMap_nil, append_assoc, ← hstart]
    exact h.cutBack_list
  refine ⟨h.wf_next, hlist, h.ldEq, h.startLe, ?_, ?_, ?_, ?_, ?_, h.calls, ?_, fun _ => ⟨?_, ?_⟩⟩
  · exact forall_mem_concat h.startMin fun _ htype' => absurd htype' htype
  · exact .inl hstart
  · exact forall_mem_concat h.below fun _ => ⟨hbelow, hcovers⟩
  · rw [append_assoc]
    exact h.frame.trans (MemFrame.setEnd _ _ h.frame.inUse)
  · rw [countP_append, countP_singleton, hcut]
    simpa using h.reccnt
  · exact forall_mem_concat (fun f hf ht => wakes_del f (h.wake f hf ht)) fun _ => wakes_self flp
  · intro p hp
    cases hp
    refine ⟨truncated flp (a.ld.lStart - 1), by rw [h.cutBack_list]; simp, rfl, ?_⟩
    show flp.set.lStart ≤ a.ld.lStart
    omega
  · intro hnone
    exact absurd hnone (by simp)

/-- Before the entry that goes, when the request starts where it did. -/
theorem place_prev :
    PlaceOk (((a.setStart flp.set.lStart).setInsrtp (prevOf a.list flp.addr)).del flp) := by
  have hlist : (((a.setStart flp.set.lStart).setInsrtp (prevOf a.list flp.addr)).del flp).list =
      pre.filterMap (cut ld) ++ rest := h.del_list
  have hwf := h.wf_list
  have hprev : prevOf a.list flp.addr = (pre.filterMap (cut ld)).getLast?.map Filock.addr := by
    have hnodup := hwf.addrs
    rw [h.list] at hnodup ⊢
    exact prevOf_append hnodup
  have hsorted := hwf.sorted
  rw [h.list, pairwise_append, pairwise_cons] at hsorted
  refine ⟨fun p hp => ?_, fun hnone => ?_⟩
  · have hp' : prevOf a.list flp.addr = some p := hp
    rw [hprev] at hp'
    obtain ⟨f, hf, rfl⟩ := map_eq_some_iff.mp hp'
    have hmem := mem_of_getLast? hf
    exact ⟨f, by rw [hlist]; exact mem_append_left _ hmem, rfl, hsorted.2.2 f hmem flp (.head _)⟩
  · have hnone' : prevOf a.list flp.addr = none := hnone
    rw [hprev, map_eq_none_iff, List.getLast?_eq_none_iff] at hnone'
    intro f hf
    rw [hlist, hnone', nil_append] at hf
    exact hsorted.2.1.1 f hf

theorem place_rest (hlt : a.ld.lStart < flp.set.lStart) (hplace : PlaceOk a) : PlaceOk (a.del flp) := by
  refine ⟨fun p hp => ?_, fun hnone f hf => ?_⟩
  · obtain ⟨f, hf, haddr, hle⟩ := hplace.1 p hp
    refine ⟨f, ?_, haddr, hle⟩
    have hne : f ≠ flp := by
      rintro rfl
      omega
    rw [h.list] at hf
    rw [h.del_list]
    simp only [mem_append, mem_cons] at hf ⊢
    tauto
  · refine hplace.2 hnone f ?_
    rw [h.del_list] at hf
    rw [h.list]
    simp only [mem_append, mem_cons] at hf ⊢
    tauto

end

end WalkInv

/-! ### What the loop comes to -/

/-- The region the request has grown to: it takes in the locks of its type that it touches. -/
structure Grown (ld : Flock) (lckList : List Filock) (ld' : Flock) : Prop where
  eq : ld' = { ld with lStart := ld'.lStart, lEnd := ld'.lEnd }
  startLe : ld'.lStart ≤ ld.lStart
  endGe : ld.lEnd ≤ ld'.lEnd
  takes : ∀ f ∈ lckList, Touches ld f.set → f.set.lType = ld.lType →
    ld'.lStart ≤ f.set.lStart ∧ f.set.lEnd ≤ ld'.lEnd
  startFrom : ld'.lStart = ld.lStart ∨
    ∃ f ∈ lckList, Touches ld f.set ∧ f.set.lType = ld.lType ∧ f.set.lStart = ld'.lStart
  endFrom : ld'.lEnd = ld.lEnd ∨
    ∃ f ∈ lckList, Touches ld f.set ∧ f.set.lType = ld.lType ∧ f.set.lEnd = ld'.lEnd

def WakeFrame (lckList lckList' : List Filock) (wakes : List Nat) : Prop :=
  ∀ f ∈ lckList, f ∈ lckList' ∨ f.stat.wakeflg = 0 ∨ f.addr ∈ wakes

def goneBefore (ld : Flock) (lckList : List Filock) : Nat :=
  lckList.countP fun f => (cutBefore ld f).isNone

def gone (ld : Flock) (lckList : List Filock) : Nat :=
  lckList.countP fun f => (cut ld f).isNone

def tailPiece (ld : Flock) (f : Filock) (p : Nat) : Filock :=
  ⟨p, { f.set with lStart := ld.lEnd + 1 }, ⟨0, 0⟩⟩

/-- The results of the loop: the request is already held; there is no memory for the piece of a lock
to be split; or the locks it touches are cut, with or without such a piece put back. -/
inductive LoopOk (k : Kmem) (ld : Flock) (mem : Mem) (l : List Filock) :
    Adj × Option (Option Errno) → Prop
  | covered {a : Adj} {f : Filock} :
      f ∈ l → Covers ld f.set → a.list = l → MemFrame mem l a.mem l → LoopOk k ld mem l (a, some none)
  | noTail {a : Adj} {f : Filock} :
      f ∈ l → Splits ld f.set →
      ¬ (mem.reccnt - goneBefore ld l < k.flckrec ∧ k.avail mem.calls = true) →
      a.list = l.filterMap (cutBefore ld) → MemFrame mem l a.mem a.list →
      WakeFrame l a.list a.wakes → LoopOk k ld mem l (a, some (some .enolck))
  | split {a : Adj} {f : Filock} {p : Nat} :
      f ∈ l → Splits ld f.set →
      (mem.reccnt - goneBefore ld l < k.flckrec ∧ k.avail mem.calls = true) →
      p ∉ (l.filterMap (cut ld)).map Filock.addr →
      Inserted (l.filterMap (cut ld)) (tailPiece ld f p) a.list → Grown ld l a.ld →
      a.mem.reccnt = mem.reccnt - gone ld l + 1 → a.mem.calls = mem.calls + 1 →
      MemFrame mem l a.mem a.list → WakeFrame l a.list a.wakes →
      (ld.lType ≠ .unlck → PlaceOk a) → LoopOk k ld mem l (a, none)
  | through {a : Adj} :
      (∀ f ∈ l, ¬ Splits ld f.set ∧ ¬ Covers ld f.set) →
      a.list = l.filterMap (cut ld) → Grown ld l a.ld →
      a.mem.reccnt = mem.reccnt - gone ld l → a.mem.calls = mem.calls →
      MemFrame mem l a.mem a.list → WakeFrame l a.list a.wakes →
      (ld.lType ≠ .unlck → PlaceOk a) → LoopOk k ld mem l (a, none)

namespace WalkInv

variable {k : Kmem} {ld : Flock} {mem : Mem} {pre rest : List Filock} {flp : Filock} {a : Adj}

theorem behind (h : WalkInv ld mem pre rest a) {f : Filock} (hf : f ∈ pre) :
    ¬ Splits ld f.set ∧ ¬ Covers ld f.set := by
  refine ⟨fun hs => ?_, fun hc => (h.below f hf hc.1).2 hc⟩
  have hend := (h.below f hf hs.1).1
  have := hs.2.2.2
  omega

theorem cut_untouched (hrest : ∀ f ∈ rest, ¬ Touches ld f.set) :
    rest.filterMap (cut ld) = rest ∧ rest.countP (fun f => (cut ld f).isNone) = 0 := by
  refine ⟨(filterMap_congr fun f hf => cut_of_not_touches (hrest f hf)).trans filterMap_some, ?_⟩
  rw [countP_eq_zero]
  intro f hf
  simp [cut_of_not_touches (hrest f hf)]

/-- The end of the loop with nothing of the owner left to touch. -/
theorem finish (h : WalkInv ld mem pre rest a) (hld : ld.lStart ≤ ld.lEnd)
    (hrest : ∀ f ∈ rest, ¬ Touches ld f.set) : LoopOk k ld mem (pre ++ rest) (a, none) := by
  obtain ⟨hkeep, hnone⟩ := cut_untouched hrest
  have hlist : a.list = (pre ++ rest).filterMap (cut ld) := by
    rw [filterMap_append, hkeep]
    exact h.list
  refine LoopOk.through ?_ hlist ⟨?_, h.startLe, Int.le_of_eq h.ld_end.symm, ?_, ?_,
    .inl h.ld_end⟩ ?_ h.calls h.frame ?_ h.place
  · exact forall_mem_append.mpr ⟨fun f hf => h.behind hf, fun f hf =>
      ⟨fun hs => hrest f hf (hs.touches hld), fun hc => hrest f hf (hc.touches hld)⟩⟩
  · rw [h.ld_end]
    exact h.ldEq
  · rw [h.ld_end]
    exact forall_mem_append.mpr ⟨fun f hf ht htype => ⟨h.startMin f hf ht htype, (h.below f hf ht.1).1⟩,
      fun f hf ht => absurd ht (hrest f hf)⟩
  · exact h.startFrom.imp_right fun ⟨f, hf, hfrom⟩ => ⟨f, mem_append_left _ hf, hfrom⟩
  · rw [gone, countP_append, hnone]
    exact h.reccnt
  · intro f hf
    by_cases ht : Touches ld f.set
    · rcases mem_append.mp hf with hf | hf
      · exact .inr (h.wake f hf ht)
      · exact absurd ht (hrest f hf)
    · refine .inl ?_
      rw [hlist]
      exact mem_filterMap.mpr ⟨f, hf, cut_of_not_touches ht⟩

section

variable (h : WalkInv ld mem pre (flp :: rest) a)
include h

theorem after_untouched (howner : flp.set.owner = ld.owner)
    (hend : ld.lEnd ≤ flp.set.lEnd) (hstrict : flp.set.lType = ld.lType ∨ ld.lEnd < flp.set.lEnd) :
    ∀ f ∈ rest, ¬ Touches ld f.set := by
  intro f hf htouch
  have hafter := h.wf_next.follows (mem_append_right _ (mem_singleton.mpr rfl)) hf
    (howner.trans htouch.1.symm)
  have hnear := htouch.2
  split_ifs at hnear with htype
  · rcases hstrict with hsame | hlt
    · have := hafter.2 (hsame.trans htype.symm)
      omega
    · omega
  · omega

/-- The end of the loop at a lock of the type that the request runs into. -/
theorem finish_right (htype : flp.set.lType = ld.lType)
    (htouch : Touches ld flp.set) (hcut : cut ld flp = none) (hcovers : ¬ Covers ld flp.set)
    (hstart : a.ld.lStart < flp.set.lStart) (hend : ld.lEnd ≤ flp.set.lEnd)
    (hrest : ∀ f ∈ rest, ¬ Touches ld f.set) (hld : ld.lStart ≤ ld.lEnd) :
    LoopOk k ld mem (pre ++ flp :: rest) ((a.setLdEnd flp.set.lEnd).del flp, none) := by
  obtain ⟨hkeep, hnone⟩ := cut_untouched hrest
  have hlist : ((a.setLdEnd flp.set.lEnd).del flp).list = (pre ++ flp :: rest).filterMap (cut ld) := by
    rw [filterMap_append, filterMap_cons_none hcut, hkeep]
    exact h.del_list
  refine LoopOk.through ?_ hlist ⟨?_, h.startLe, hend, ?_, ?_, ?_⟩ ?_ h.calls ?_ ?_ ?_
  · refine forall_mem_append.mpr ⟨fun f hf => h.behind hf, forall_mem_cons.mpr ⟨?_, fun f hf => ?_⟩⟩
    · exact ⟨fun hs => hs.2.1 htype, hcovers⟩
    · exact ⟨fun hs => hrest f hf (hs.touches hld), fun hc => hrest f hf (hc.touches hld)⟩
  · show { a.ld with lEnd := flp.set.lEnd } = { ld with lStart := a.ld.lStart, lEnd := flp.set.lEnd }
    rw [h.ldEq]
  · refine forall_mem_append.mpr ⟨fun f hf ht htype' => ?_, forall_mem_cons.mpr ⟨fun _ _ => ?_,
      fun f hf ht => absurd ht (hrest f hf)⟩⟩
    · exact ⟨h.startMin f hf ht htype', Int.le_trans (h.below f hf ht.1).1 hend⟩
    · exact ⟨Int.le_of_lt hstart, Int.le_refl _⟩
  · exact h.startFrom.imp_right fun ⟨f, hf, hfrom⟩ => ⟨f, mem_append_left _ hf, hfrom⟩
  · exact .inr ⟨flp, by simp, htouch, htype, rfl⟩
  · have hcount := h.reccnt
    rw [gone, countP_append, countP_cons_of_pos (by simp [hcut]), hnone]
    simp only [Adj.del_mem, Adj.setLdEnd_mem, Mem.free]
    omega
  · exact (h.del_list ▸ h.del_frame : MemFrame mem _ _ (a.del flp).list)
  · intro f hf
    rcases mem_append.mp hf with hf | hf
    · by_cases ht : Touches ld f.set
      · exact .inr (wakes_del f (h.wake f hf ht))
      · refine .inl ?_
        rw [hlist]
        exact mem_filterMap.mpr ⟨f, mem_append_left _ hf, cut_of_not_touches ht⟩
    · rcases mem_cons.mp hf with rfl | hf
      · exact .inr (wakes_self f)
      · refine .inl ?_
        rw [hlist]
        exact mem_filterMap.mpr ⟨f, by simp [hf], cut_of_not_touches (hrest f hf)⟩
  · exact fun hlock => h.place_rest hstart (h.place hlock)

theorem finish_covered (hcovers : Covers ld flp.set)
    (p : Option Nat) : LoopOk k ld mem (pre ++ flp :: rest) (a.setInsrtp p, some none) := by
  have hnone : ∀ f ∈ pre, ¬ Touches ld f.set := by
    intro f hf ht
    have hafter := h.wf.follows hf (.head _) (ht.1.trans hcovers.1.symm)
    have hnear := ht.2
    have hstart := hcovers.2.2.1
    split_ifs at hnear with htype
    · have := hafter.2 (htype.trans hcovers.2.1.symm)
      omega
    · omega
  have hlist : a.list = pre ++ flp :: rest := by
    rw [h.list, filterMap_congr fun f hf => cut_of_not_touches (hnone f hf), filterMap_some]
  exact LoopOk.covered (by simp) hcovers hlist (hlist ▸ h.frame)

variable (hs : Splits ld flp.set) (shrink : Filock → Option Filock)
  (hshrink : ∀ f, ¬ Splits ld f.set → shrink f = cut ld f) (hld : ld.lStart ≤ ld.lEnd)
include hs shrink hshrink hld

/-- The loop leaves at `flp`, which is to be split: what holds of every entry of the list there. -/
theorem split_list : (pre ++ flp :: rest).filterMap shrink =
      pre.filterMap (cut ld) ++ (shrink flp).toList ++ rest := by
  have hrest := h.after_untouched hs.1 (Int.le_of_lt hs.2.2.2) (.inr hs.2.2.2)
  have hkeep : rest.filterMap shrink = rest := by
    refine (filterMap_congr fun f hf => ?_).trans filterMap_some
    rw [hshrink f fun hs' => hrest f hf (hs'.touches hld), cut_of_not_touches (hrest f hf)]
  have hpre : pre.filterMap shrink = pre.filterMap (cut ld) :=
    filterMap_congr fun f hf => hshrink f (h.behind hf).1
  rw [filterMap_append, hpre, append_assoc]
  cases hcase : shrink flp with
  | none => rw [filterMap_cons_none hcase, hkeep]; rfl
  | some g => rw [filterMap_cons_some hcase, hkeep]; rfl

theorem split_count : ((pre ++ flp :: rest).countP fun f => (shrink f).isNone) =
      (pre.countP fun f => (cut ld f).isNone) + if (shrink flp).isNone = true then 1 else 0 := by
  have hrest := h.after_untouched hs.1 (Int.le_of_lt hs.2.2.2) (Or.inr hs.2.2.2)
  have hnone : rest.countP (fun f => (shrink f).isNone) = 0 := by
    rw [countP_eq_zero]
    intro f hf
    rw [hshrink f fun hs' => hrest f hf (hs'.touches hld), cut_of_not_touches (hrest f hf)]
    simp
  have hpre : pre.countP (fun f => (shrink f).isNone) = pre.countP fun f => (cut ld f).isNone :=
    countP_congr fun f hf => by rw [hshrink f (h.behind hf).1]
  rw [countP_append, countP_cons, hpre, hnone, Nat.zero_add]

end

theorem cutBefore_of_not_splits {f : Filock} (h : ¬ Splits ld f.set) : cutBefore ld f = cut ld f :=
  if_neg h

section

variable (h : WalkInv ld mem pre (flp :: rest) a) (hs : Splits ld flp.set)
  (hld : ld.lStart ≤ ld.lEnd)
include h hs hld

/-- No memory for the piece after the request. -/
theorem finish_noTail (halloc : ¬ a.mem.CanAlloc k) {a' : Adj} (hlist : a'.list = a.list)
    (hused : a'.mem.used = a.mem.used) (hwakes : a'.wakes = a.wakes) :
    LoopOk k ld mem (pre ++ flp :: rest) (a', some (some .enolck)) := by
  have hself : cutBefore ld flp = some flp := if_pos hs
  have hcut : a'.list = (pre ++ flp :: rest).filterMap (cutBefore ld) := by
    rw [hlist, h.split_list hs _ (fun f hf => cutBefore_of_not_splits hf) hld, hself, h.list]
    simp
  refine LoopOk.noTail (by simp) hs ?_ hcut ?_ ?_
  · have hcount := h.split_count hs _ (fun f hf => cutBefore_of_not_splits hf) hld
    rw [hself] at hcount
    simp only [isNone_some, Bool.false_eq_true, if_false, Nat.add_zero] at hcount
    rw [goneBefore, hcount, ← h.reccnt, ← h.calls]
    exact halloc
  · rw [hlist]
    exact ⟨fun p hp => hused ▸ h.frame.inUse p hp, fun p hp hnot => hused ▸ h.frame.others p hp hnot,
      h.frame.fresh⟩
  · intro f hf
    rw [hcut, hwakes]
    by_cases hcase : cutBefore ld f = some f
    · exact Or.inl (mem_filterMap.mpr ⟨f, hf, hcase⟩)
    rcases mem_append.mp hf with hpre | hrest
    · by_cases ht : Touches ld f.set
      · exact Or.inr (h.wake f hpre ht)
      · exact absurd ((cutBefore_of_not_splits (h.behind hpre).1).trans (cut_of_not_touches ht)) hcase
    · rcases mem_cons.mp hrest with rfl | hrest
      · exact absurd hself hcase
      · have hnot := h.after_untouched hs.1 (Int.le_of_lt hs.2.2.2) (Or.inr hs.2.2.2) f hrest
        exact absurd ((cutBefore_of_not_splits fun hs' => hnot (hs'.touches hld)).trans
          (cut_of_not_touches hnot)) hcase

/-- The piece after the request is put back. -/
theorem finish_split (halloc : a.mem.CanAlloc k) {a' : Adj} {p : Nat} (hp : p ∉ a.mem.used)
    (hins : Inserted ((pre ++ flp :: rest).filterMap (cut ld)) (tailPiece ld flp p) a'.list)
    (hldEq : a'.ld = a.ld) (hwakes : a'.wakes = a.wakes ++ wakeup flp)
    (hreccnt : a'.mem.reccnt = a.mem.reccnt + 1 - if (cut ld flp).isNone = true then 1 else 0)
    (hcalls : a'.mem.calls = a.mem.calls + 1) (hframe : MemFrame mem (pre ++ flp :: rest) a'.mem a'.list)
    (hplace : ld.lType ≠ .unlck → PlaceOk a') : LoopOk k ld mem (pre ++ flp :: rest) (a', none) := by
  have hrest := h.after_untouched hs.1 (Int.le_of_lt hs.2.2.2) (Or.inr hs.2.2.2)
  refine LoopOk.split (by simp) hs ?_ ?_ hins ⟨?_, ?_, ?_, ?_, ?_, ?_⟩ ?_ ?_ hframe ?_ hplace
  · have hcount := h.split_count hs _ (fun f hf => cutBefore_of_not_splits hf) hld
    rw [show cutBefore ld flp = some flp from if_pos hs] at hcount
    simp only [isNone_some, Bool.false_eq_true, if_false, Nat.add_zero] at hcount
    rw [goneBefore, hcount, ← h.reccnt, ← h.calls]
    exact halloc
  · intro hmem
    refine hp (h.frame.inUse p ?_)
    rw [h.split_list hs _ (fun _ _ => rfl) hld] at hmem
    rw [h.list]
    have haddr : ∀ g ∈ (cut ld flp).toList, g.addr = flp.addr := fun g hg =>
      (cut_shrunk (h.wf.valid flp (by simp)) (mem_toList.mp hg)).addr
    simp only [map_append, map_cons, mem_append, mem_cons, List.mem_map] at hmem ⊢
    rcases hmem with (hmem | ⟨g, hg, rfl⟩) | hmem
    · exact Or.inl hmem
    · exact Or.inr (Or.inl (haddr g hg))
    · exact Or.inr (Or.inr hmem)
  · rw [hldEq, h.ld_end]
    exact h.ldEq
  · exact hldEq ▸ h.startLe
  · exact Int.le_of_eq (by rw [hldEq, h.ld_end])
  · rw [hldEq, h.ld_end]
    exact forall_mem_append.mpr ⟨fun f hf ht htype => ⟨h.startMin f hf ht htype, (h.below f hf ht.1).1⟩,
      forall_mem_cons.mpr ⟨fun _ htype => absurd htype hs.2.1, fun f hf ht => absurd ht (hrest f hf)⟩⟩
  · rw [hldEq]
    exact h.startFrom.imp_right fun ⟨f, hf, hfrom⟩ => ⟨f, mem_append_left _ hf, hfrom⟩
  · exact Or.inl (by rw [hldEq, h.ld_end])
  · have hcount := h.split_count hs (cut ld) (fun _ _ => rfl) hld
    have hrec := h.reccnt
    rw [gone, hcount, hreccnt, hrec]
    split <;> push_cast <;> omega
  · rw [hcalls, h.calls]
  · intro f hf
    rw [hwakes]
    by_cases ht : Touches ld f.set
    · rcases mem_append.mp hf with hf | hf
      · exact Or.inr (wakes_del f (h.wake f hf ht))
      · rcases mem_cons.mp hf with rfl | hf
        · exact Or.inr (wakes_self f)
        · exact absurd ht (hrest f hf)
    · exact Or.inl ((hins.mem_iff f).mpr (Or.inr (mem_filterMap.mpr ⟨f, hf, cut_of_not_touches ht⟩)))

end

end WalkInv

def AdjNext.exit : AdjNext → Option (Adj × Option (Option Errno))
  | .more _ => none
  | .last a => some (a, none)
  | .ret a code => some (a, some code)

theorem PlaceOk.insert {a a' : Adj} {new : Filock} (h : PlaceOk a) (hins : Inserted a.list new a'.list)
    (hle : a.ld.lStart ≤ new.set.lStart) (hinsrtp : a'.insrtp = a.insrtp)
    (hstart : a'.ld.lStart = a.ld.lStart) : PlaceOk a' := by
  refine ⟨fun p hp => ?_, fun hnone f hf => ?_⟩
  · obtain ⟨f, hf, hrest⟩ := h.1 p (hinsrtp ▸ hp)
    exact ⟨f, (hins.mem_iff f).mpr (.inr hf), hrest.1, hstart ▸ hrest.2⟩
  · rw [hstart]
    rcases (hins.mem_iff f).mp hf with rfl | hf
    · exact hle
    · exact h.2 (hinsrtp ▸ hnone) f hf

theorem splitTail_fails {k : Kmem} {a : Adj} (flp : Filock) (h : ¬ a.mem.CanAlloc k) :
    ∃ mem, splitTail k a flp = ({ a with mem := mem }, false) ∧ mem.used = a.mem.used := by
  obtain ⟨mem, hins, hused⟩ := insflck_fails h a.list { flp.set with lStart := a.ld.lEnd + 1 }
    (some (placeFrom a.list flp.addr (a.ld.lEnd + 1)))
  exact ⟨mem, by simp only [splitTail, hins], hused⟩

theorem splitTail_succeeds {k : Kmem} {a : Adj} {flp : Filock} (h : a.mem.CanAlloc k) (hwf : Wf a.list)
    (hflp : flp ∈ a.list) (hle : flp.set.lStart ≤ a.ld.lEnd) :
    ∃ out, splitTail k a flp = ({ a with mem := a.mem.alloc k, list := out }, true) ∧
      Inserted a.list (tailPiece a.ld flp (k.place a.mem.calls a.mem.used)) out := by
  have hins := insflck_succeeds h a.list { flp.set with lStart := a.ld.lEnd + 1 }
    (some (placeFrom a.list flp.addr (a.ld.lEnd + 1)))
  refine ⟨insertAfter (newEntry k a.mem { flp.set with lStart := a.ld.lEnd + 1 })
    (placeFrom a.list flp.addr (a.ld.lEnd + 1)) a.list, by simp only [splitTail, hins], ?_⟩
  exact placeFrom_inserted hwf hflp (show flp.set.lStart ≤ a.ld.lEnd + 1 by omega)

namespace WalkInv

variable {k : Kmem} {ld : Flock} {mem : Mem} {pre rest : List Filock} {flp : Filock} {a : Adj}

section

variable (h : WalkInv ld mem pre (flp :: rest) a) (hs : Splits ld flp.set)
  (hld : ld.lStart ≤ ld.lEnd)
include h hs hld

/-- A lock that is split and has nothing before the request. -/
theorem splitLock_del (p : Option Nat) {regtyp : Place × Place}
    (hreg : regtyp ≠ (.middle, .middle)) (hcut : cut ld flp = none)
    (hplace : ld.lType ≠ .unlck → PlaceOk ((a.setInsrtp p).del flp)) :
    ∃ r, (splitLock k (a.setInsrtp p) flp regtyp).exit = some r ∧
      LoopOk k ld mem (pre ++ flp :: rest) r := by
  have hmem : flp ∈ a.list := by
    rw [h.list]
    simp
  by_cases halloc : a.mem.CanAlloc k
  · obtain ⟨out, htail, hins⟩ := splitTail_succeeds (a := a.setInsrtp p) halloc h.wf_list hmem
      (by rw [Adj.setInsrtp_ld, h.ld_end]; exact hs.2.2.1)
    rw [Adj.setInsrtp_ld] at hins
    have hfresh := k.place_fresh a.mem.calls a.mem.used
    have hne : k.place a.mem.calls a.mem.used ≠ flp.addr := by
      intro heq
      exact hfresh (heq ▸ h.frame.inUse _ (mem_map_of_mem hmem))
    have hnot : k.place a.mem.calls a.mem.used ∉ a.list.map Filock.addr :=
      fun hin => hfresh (h.frame.inUse _ hin)
    have hbase : delflck a.list flp = (pre ++ flp :: rest).filterMap (cut ld) := by
      rw [h.split_list hs _ (fun _ _ => rfl) hld, hcut]
      simpa using h.del_list
    have hdel := hins.delflck h.wf_list.addrs hnot hne
    refine ⟨_, by rw [splitLock, htail]; exact congrArg AdjNext.exit (if_neg hreg), ?_⟩
    refine h.finish_split hs hld halloc hfresh ?_ rfl rfl ?_ rfl ?_ ?_
    · rw [Adj.setInsrtp_list, hbase] at hdel
      simpa [tailPiece, h.ld_end] using hdel
    · simp [Mem.free, Mem.alloc, hcut]
    · have hout : flp ∈ out := (hins.mem_iff flp).mpr (.inr hmem)
      have hinsert : MemFrame a.mem a.list (a.mem.alloc k) out := MemFrame.insert k (fun f hf => (hins.mem_iff f).mp hf) h.frame.inUse
      exact (h.frame.trans hinsert).trans
        (MemFrame.del hout hinsert.inUse (hins.addrs_nodup h.wf_list.addrs hnot))
    · intro hlock
      refine (hplace hlock).insert hdel ?_ rfl rfl
      show a.ld.lStart ≤ a.ld.lEnd + 1
      have := h.startLe
      have := h.ld_end
      omega
  · obtain ⟨mem', htail, hused⟩ := splitTail_fails (a := a.setInsrtp p) flp halloc
    refine ⟨_, by rw [splitLock, htail]; rfl, ?_⟩
    exact h.finish_noTail hs hld halloc rfl hused rfl

/-- A lock that is split and keeps the part before the request. -/
theorem splitLock_front (hlt : flp.set.lStart < ld.lStart) (hstart : a.ld.lStart = ld.lStart)
    (hcut : cut ld flp = some (truncated flp (ld.lStart - 1))) :
    ∃ r, (splitLock k a flp (.middle, .middle)).exit = some r ∧
      LoopOk k ld mem (pre ++ flp :: rest) r := by
  have hmem : flp ∈ a.list := by
    rw [h.list]
    simp
  by_cases halloc : a.mem.CanAlloc k
  · obtain ⟨out, htail, hins⟩ := splitTail_succeeds halloc h.wf_list hmem
      (by rw [h.ld_end]; exact hs.2.2.1)
    have hfresh := k.place_fresh a.mem.calls a.mem.used
    have hne : k.place a.mem.calls a.mem.used ≠ flp.addr := by
      intro heq
      exact hfresh (heq ▸ h.frame.inUse _ (mem_map_of_mem hmem))
    have hbase : setEnd a.list flp (a.ld.lStart - 1) = (pre ++ flp :: rest).filterMap (cut ld) := by
      rw [h.split_list hs _ (fun _ _ => rfl) hld, hcut, ← hstart]
      simpa using h.cutBack_list
    have hset := hins.setEnd hne (a.ld.lStart - 1)
    rw [hbase] at hset
    refine ⟨_, by rw [splitLock, htail]; exact congrArg AdjNext.exit (if_pos rfl), ?_⟩
    refine h.finish_split hs hld halloc hfresh ?_ rfl rfl ?_ rfl ?_ ?_
    · simpa [tailPiece, h.ld_end] using hset
    · simp [Mem.alloc, hcut]
    · have hinsert : MemFrame a.mem a.list (a.mem.alloc k) out := MemFrame.insert k (fun f hf => (hins.mem_iff f).mp hf) h.frame.inUse
      exact (h.frame.trans hinsert).trans (MemFrame.setEnd flp _ hinsert.inUse)
    · intro _
      refine ⟨fun p hp => ?_, fun hnone => absurd hnone (by simp)⟩
      cases hp
      refine ⟨truncated flp (ld.lStart - 1), ?_, rfl, ?_⟩
      · exact (hset.mem_iff _).mpr (.inr (mem_filterMap.mpr ⟨flp, by simp, hcut⟩))
      · show flp.set.lStart ≤ a.ld.lStart
        omega
  · obtain ⟨mem', htail, hused⟩ := splitTail_fails flp halloc
    refine ⟨_, by rw [splitLock, htail]; rfl, ?_⟩
    exact h.finish_noTail hs hld halloc rfl hused rfl

end

def Passes (k : Kmem) (ld : Flock) (mem : Mem) (pre rest : List Filock) (flp : Filock) (next : AdjNext) :
    Prop :=
  (∃ a, next = .more a ∧ WalkInv ld mem (pre ++ [flp]) rest a) ∨
    ∃ r, next.exit = some r ∧ LoopOk k ld mem (pre ++ flp :: rest) r

section

variable (h : WalkInv ld mem pre (flp :: rest) a) (hld : ld.lStart ≤ ld.lEnd)
include h hld

/-- A lock of the owner before the request or after it. -/
theorem region_untouched (howner : flp.set.owner = ld.owner) (hcut : ¬ Touches ld flp.set) :
    Passes k ld mem pre rest flp (adjRegion k a flp) := by
  have hregion := (h.wf.valid flp (by simp)).region
  have hmoved := h.start_moved howner
  have hle := h.startLe
  have hend := h.ld_end
  have hnear : ¬ if flp.set.lType = ld.lType then
      flp.set.lStart ≤ ld.lEnd + 1 ∧ ld.lStart ≤ flp.set.lEnd + 1
      else flp.set.lStart ≤ ld.lEnd ∧ ld.lStart ≤ flp.set.lEnd := fun hin => hcut ⟨howner, hin⟩
  by_cases hleft : flp.set.lEnd < ld.lStart
  · have htype : a.ld.lType = flp.set.lType → flp.set.lEnd + 1 < a.ld.lStart := by
      intro heq
      rw [if_pos (heq.symm.trans h.ld_type)] at hnear
      omega
    rw [adjRegion_left k hregion (by omega) htype]
    refine .inl ⟨_, rfl, ?_⟩
    split
    · refine h.keep _ hcut hld (fun _ => by omega) fun _ => ⟨fun p hp => ?_, fun hnone => ?_⟩
      · cases hp
        refine ⟨flp, ?_, rfl, ?_⟩
        · rw [Adj.setInsrtp_list, h.list]
          simp
        · rw [Adj.setInsrtp_ld]
          omega
      · exact absurd hnone (by simp)
    · exact h.keep a.insrtp hcut hld (fun _ => by omega) h.place
  · have hright : ld.lEnd < flp.set.lStart := by
      by_contra hnot
      split at hnear <;> omega
    have htype : a.ld.lType = flp.set.lType → a.ld.lEnd + 1 < flp.set.lStart := by
      intro heq
      rw [if_pos (heq.symm.trans h.ld_type)] at hnear
      omega
    rw [adjRegion_right k (by omega) hregion (by omega) htype]
    refine .inr ⟨_, rfl, h.finish hld ?_⟩
    intro f hf
    rcases mem_cons.mp hf with rfl | hf
    · exact hcut
    · exact h.after_untouched howner (by omega) (.inr (by omega)) f hf

/-- A lock of the owner that the request touches and whose type it has. -/
theorem region_same (htouch : Touches ld flp.set) (htype : flp.set.lType = ld.lType) :
    Passes k ld mem pre rest flp (adjRegion k a flp) := by
  have hmoved : a.ld.lStart = ld.lStart ∨ a.ld.lStart < flp.set.lStart ∧ ld.lStart < flp.set.lStart :=
    (h.start_moved htouch.1).imp_right fun hm => ⟨hm.1, hm.2.2 htype⟩
  have hend := h.ld_end
  have hsame : a.ld.lType = flp.set.lType := h.ld_type.trans htype.symm
  have hnear := htouch.2
  rw [if_pos htype] at hnear
  have hcut : cut ld flp = none := by
    rw [cut, if_pos htouch, if_neg]
    exact fun hdiff => hdiff.1 htype
  by_cases hcovers : flp.set.lStart ≤ ld.lStart ∧ ld.lEnd ≤ flp.set.lEnd
  · have hstart : flp.set.lStart ≤ a.ld.lStart := by omega
    obtain ⟨p, hret⟩ := adjRegion_covered k hsame hstart (by omega) (by omega)
    rw [hret]
    exact .inr ⟨_, rfl, h.finish_covered ⟨htouch.1, htype, hcovers⟩ p⟩
  have hnot : ¬ Covers ld flp.set := fun hc => hcovers hc.2.2
  by_cases hleft : flp.set.lStart ≤ ld.lStart
  · rw [adjRegion_same_left k hsame (by omega) (by omega) (by omega)]
    refine .inl ⟨_, rfl, h.remove _ _ hcut htouch (by omega) hnot (by omega)
      (fun _ => Int.le_refl _) (.inr ⟨htype, rfl⟩) fun _ => h.place_prev⟩
  by_cases hright : ld.lEnd ≤ flp.set.lEnd
  · rw [adjRegion_same_right k hsame (by omega) (by omega) (by omega)]
    refine .inr ⟨_, rfl, h.finish_right htype htouch hcut hnot (by omega) hright ?_ hld⟩
    exact h.after_untouched htouch.1 hright (.inl htype)
  · rw [adjRegion_inside k (by omega) (by omega) (fun _ => by omega)]
    exact .inl ⟨_, rfl, h.remove a.ld.lStart a.insrtp hcut htouch (by omega) hnot
      (Int.le_refl _) (fun _ => by omega) (.inl rfl)
      fun hlock => h.place_rest (by omega) (h.place hlock)⟩

/-- A lock of the owner over part of the request with another type. -/
theorem region_other (htouch : Touches ld flp.set) (htype : flp.set.lType ≠ ld.lType) :
    Passes k ld mem pre rest flp (adjRegion k a flp) := by
  have hmoved := h.start_moved htouch.1
  have hend := h.ld_end
  have hdiff : a.ld.lType ≠ flp.set.lType := fun heq => htype (heq.symm.trans h.ld_type)
  have hnear := htouch.2
  rw [if_neg htype] at hnear
  have hnot : ¬ Covers ld flp.set := fun hc => htype hc.2.1
  by_cases hfront : flp.set.lStart < ld.lStart
  · have hstart : a.ld.lStart = ld.lStart := by omega
    have hcut : cut ld flp = some (truncated flp (ld.lStart - 1)) := by
      rw [cut, if_pos htouch, if_pos ⟨htype, hfront⟩]
    by_cases hsplit : ld.lEnd < flp.set.lEnd
    · rw [adjRegion_split_front k hdiff (by omega) (by omega) (by omega)]
      exact .inr (h.splitLock_front ⟨htouch.1, htype, hnear.1, hsplit⟩ hld hfront hstart hcut)
    · rw [adjRegion_front k hdiff (by omega) (by omega) (by omega)]
      exact .inl ⟨_, rfl, h.truncate hstart hcut (by omega) hnot hfront htype⟩
  have hcut : cut ld flp = none := by
    rw [cut, if_pos htouch, if_neg fun hin => hfront hin.2]
  by_cases hat : flp.set.lStart = a.ld.lStart
  · have hplace := h.place_prev
    rw [hat] at hplace
    by_cases hsplit : ld.lEnd < flp.set.lEnd
    · rw [adjRegion_split_at_start k hdiff hat (by omega) (by omega)]
      exact .inr (h.splitLock_del ⟨htouch.1, htype, hnear.1, hsplit⟩ hld _ (by simp) hcut
        fun _ => hplace)
    · rw [adjRegion_at_start k hdiff hat (by omega)]
      exact .inl ⟨_, rfl, h.remove a.ld.lStart _ hcut htouch (by omega) hnot (Int.le_refl _)
        (fun _ => by omega) (.inl rfl) fun _ => hplace⟩
  · by_cases hsplit : ld.lEnd < flp.set.lEnd
    · rw [adjRegion_split_inside k hdiff (by omega) (by omega) (by omega)]
      exact .inr (h.splitLock_del ⟨htouch.1, htype, hnear.1, hsplit⟩ hld a.insrtp (by simp)
        hcut fun hlock => h.place_rest (by omega) (h.place hlock))
    · rw [adjRegion_inside k (by omega) (by omega) (fun heq => absurd heq hdiff)]
      exact .inl ⟨_, rfl, h.remove a.ld.lStart a.insrtp hcut htouch (by omega) hnot
        (Int.le_refl _) (fun _ => by omega) (.inl rfl)
        fun hlock => h.place_rest (by omega) (h.place hlock)⟩

theorem region (howner : flp.set.owner = ld.owner) :
    Passes k ld mem pre rest flp (adjRegion k a flp) := by
  by_cases htouch : Touches ld flp.set
  · by_cases htype : flp.set.lType = ld.lType
    · exact h.region_same hld htouch htype
    · exact h.region_other hld htouch htype
  · exact h.region_untouched hld howner htouch

end

end WalkInv

/-- The loop of `flckadj`. -/
theorem adjLoop_ok {k : Kmem} {ld : Flock} {mem : Mem} {pre todo : List Filock} {a : Adj}
    (h : WalkInv ld mem pre todo a) (hld : ld.lStart ≤ ld.lEnd) :
    LoopOk k ld mem (pre ++ todo) (adjLoop k a todo) := by
  induction todo generalizing pre a with
  | nil => exact h.finish hld (by simp)
  | cons flp rest ih =>
    have hsplit : pre ++ flp :: rest = (pre ++ [flp]) ++ rest := by simp
    rw [adjLoop]
    split_ifs with howner
    · rw [sameOwner_iff, h.ld_owner] at howner
      rcases h.region hld howner with ⟨a', hnext, hinv⟩ | ⟨r, hexit, hok⟩
      · rw [hnext, hsplit]
        exact ih hinv
      cases hnext : adjRegion k a flp with
      | more a' =>
        rw [hnext] at hexit
        exact absurd hexit (by simp [AdjNext.exit])
      | last a' =>
        rw [hnext] at hexit
        cases hexit
        exact hok
      | ret a' code =>
        rw [hnext] at hexit
        cases hexit
        exact hok
    · rw [hsplit]
      rw [sameOwner_iff, h.ld_owner] at howner
      exact ih (h.keep a.insrtp (fun ht => howner ht.1) hld (fun heq => absurd heq howner) h.place)

end Svr42.Flck
