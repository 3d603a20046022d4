import Mathlib.Data.List.Induction
import Mathlib.Data.List.Nodup
import Svr42.AdjmsgModel
import Svr42.PullupCalls

/-! What `adjmsg` makes of a message. -/

namespace Svr42.Pull
open List Nat Option

variable {M D : Type} {s s' : Sys M D} {start : Option M} {cells front back rest : List M}
  {bp mp endbp : M} {type : UInt8} {len : Int} {n count : Nat}
  {cut : Msgb M D → Nat → Msgb M D}

/-- Each block is linked to the next one of the message. -/
abbrev Chained (s : Sys M D) (start : Option M) (cells : List M) : Prop :=
  Linked (fun bp => (s.msg bp).bCont) start cells

theorem Chained.mp_mem (h : Chained s (some mp) (front ++ bp :: back)) : mp ∈ front ++ [bp] := by
  have hhead := h.start_eq
  cases front with
  | nil => exact mem_singleton.mpr (some.inj hhead)
  | cons q front => exact some.inj hhead ▸ (.head _)

/-- The blocks are different ones, so the last one before the others is found. -/
theorem findEnd_returns [DecidableEq M] (h : Chained s start (front ++ bp :: back)) :
    Returns (fun fuel => findEnd s back.head? fuel start) (some bp) := by
  induction front generalizing start with
  | nil =>
    have hnext : (s.msg bp).bCont = back.head? := h.2.start_eq
    rw [h.1]
    exact (Returns.const _).succ fun fuel => if_pos hnext
  | cons x front ih =>
    rw [h.1]
    refine (ih h.2).succ fun fuel => if_neg fun heq => ?_
    -- the block after `x` would come twice
    have hnext : (s.msg x).bCont = (front ++ bp :: back).head? := h.2.start_eq
    have hnodup := h.2.nodup
    rw [heq] at hnext
    cases back with
    | nil =>
      cases front with
      | nil => cases hnext
      | cons y front => cases hnext
    | cons b back =>
      cases front with
      | nil =>
        have hb : b = bp := some.inj hnext
        exact absurd hnodup (by simp [hb])
      | cons y front =>
        have hb : b = y := some.inj hnext
        exact absurd hnodup (by simp [hb])

theorem findEnd_first [DecidableEq M] (h : Chained s start cells) (hmp : mp ∉ cells.tail) :
    Returns (fun fuel => findEnd s (some mp) fuel start) none := by
  induction cells generalizing start with
  | nil =>
    have hnone : start = none := h
    rw [hnone]
    exact (Returns.const none).succ fun fuel => rfl
  | cons x rest ih =>
    have hnext : (s.msg x).bCont = rest.head? := h.2.start_eq
    rw [h.1]
    refine (ih h.2 fun hmem => hmp (mem_of_mem_tail hmem)).succ fun fuel => if_neg ?_
    rw [hnext]
    exact fun heq => hmp (mem_of_mem_head? heq)

/-! ### The size of the run -/

/-- The blocks before `endbp` are counted from the last one on. -/
theorem xmsgsizeBack_returns [DecidableEq M] (front : List M) (endbp : M) (back : List M) (count : Nat)
    (h : Chained s (some mp) (front ++ endbp :: back)) :
    Returns (fun fuel => xmsgsizeBack s mp type fuel endbp count)
      (some (count + leading s type front.reverse)) := by
  induction front using reverseRecOn generalizing endbp back count with
  | nil =>
    have hmp : endbp = mp := (some.inj h.1).symm
    exact (Returns.const _).succ fun fuel => if_pos hmp
  | append_singleton front bp ih =>
    rw [append_assoc, singleton_append] at h
    have hne : endbp ≠ mp := by
      intro heq
      -- the first block comes before the last one that was counted
      obtain ⟨hlast, hapart⟩ := nodup_append.mp (show (front ++ [bp] ++ endbp :: back).Nodup by
        rw [append_assoc]; exact h.nodup) |>.2
      exact hapart mp h.mp_mem endbp (.head _) heq.symm
    have hfind : Returns (fun fuel => findEnd s (some endbp) fuel (some mp)) (some bp) :=
      @findEnd_returns M D s (some mp) front (endbp :: back) bp _ h
    rw [reverse_append, reverse_singleton, singleton_append, leading]
    split_ifs with htype
    · rw [← Nat.add_assoc]
      have hrest := ih bp (endbp :: back) (count + size (s.msg bp)) h
      refine (hfind.bind (g := fun fuel => follow fun bp =>
        if type ≠ dbType s bp then some (some count)
        else xmsgsizeBack s mp type fuel bp (count + size (s.msg bp))) ?_).succ
        fun fuel => if_neg hne
      exact hrest.of_eq fun fuel => if_neg (not_not.mpr htype)
    · refine (hfind.bind (g := fun fuel => follow fun bp =>
        if type ≠ dbType s bp then some (some count)
        else xmsgsizeBack s mp type fuel bp (count + size (s.msg bp))) ?_).succ
        fun fuel => if_neg hne
      exact (Returns.const _).of_eq fun fuel => if_pos htype

def run (s : Sys M D) : List M → Nat
  | [] => 0
  | bp :: rest => leading s (dbType s bp) (bp :: rest)

theorem xmsgsizeTail_returns [DecidableEq M] (h : Chained s (some mp) cells) :
    Returns (fun fuel => xmsgsizeTail fuel s mp) (some (run s cells.reverse)) := by
  rcases eq_nil_or_concat cells with hnil | ⟨front, bp, hcells⟩
  · rw [hnil] at h
    cases h
  rw [concat_eq_append] at hcells
  subst hcells
  have hrun : run s (front ++ [bp]).reverse =
      size (s.msg bp) + leading s (dbType s bp) front.reverse := by
    rw [reverse_append, reverse_singleton, singleton_append, run]
    exact if_pos rfl
  rw [hrun]
  exact (@findEnd_returns M D s (some mp) front [] bp _ h).bind (g := fun fuel => follow fun bp =>
    xmsgsizeBack s mp (dbType s bp) fuel bp (size (s.msg bp)))
    (xmsgsizeBack_returns front bp [] (size (s.msg bp)) h)

/-! ### The trimming -/

/-- A cut only moves a pointer. -/
structure Cuts (cut : Msgb M D → Nat → Msgb M D) : Prop where
  bCont : ∀ b n, (cut b n).bCont = b.bCont
  zero : ∀ b, cut b 0 = b

theorem cuts_head : Cuts (cutHead : Msgb M D → Nat → Msgb M D) := ⟨fun _ _ => rfl, fun _ => rfl⟩

theorem cuts_tail : Cuts (cutTail : Msgb M D → Nat → Msgb M D) := ⟨fun _ _ => rfl, fun _ => rfl⟩

def total (s : Sys M D) (cells : List M) : Nat := (tagged s cells).length

theorem total_cons (s : Sys M D) (bp : M) (rest : List M) :
    total s (bp :: rest) = size (s.msg bp) + total s rest := by
  rw [total, tagged_cons, length_append, length_map, length_bytes]
  rfl

theorem total_reverse (s : Sys M D) (cells : List M) : total s cells.reverse = total s cells := by
  unfold total tagged
  rw [length_flatMap, length_flatMap, map_reverse, sum_reverse]

theorem run_le (s : Sys M D) : ∀ cells : List M, run s cells ≤ total s cells
  | [] => Nat.le_refl 0
  | bp :: rest => leading_le (dbType s bp) (bp :: rest)

section

variable [DecidableEq M]

/-- `n` bytes cut off blocks, from the first one on. -/
def trimmed (cut : Msgb M D → Nat → Msgb M D) (s : Sys M D) : List M → Nat → Sys M D
  | [], _ => s
  | bp :: rest, n =>
      if n = 0 then s
      else
        let k := min (size (s.msg bp)) n
        trimmed cut (setCut cut s bp k) rest (n - k)

theorem setCut_bCont (hcut : Cuts cut) (bq : M) :
    ((setCut cut s bp n).msg bq).bCont = (s.msg bq).bCont := by
  by_cases hbq : bq = bp
  · rw [hbq, setCut, msg_setMsg, hcut.bCont]
  · rw [setCut, msg_setMsg_of_ne hbq]

theorem setCut_chained (hcut : Cuts cut) (h : Chained s start cells) :
    Chained (setCut cut s bp n) start cells :=
  h.congr fun bq _ => setCut_bCont hcut bq

theorem setCut_total (hbp : bp ∉ cells) : total (setCut cut s bp n) cells = total s cells := by
  refine congrArg length (tagged_congr (fun bq hbq => ?_) fun bq _ => SameData.refl _)
  exact msg_setMsg_of_ne (ne_of_mem_of_not_mem hbq hbp)

theorem trimHead_returns (h : Chained s start cells) (hn : n ≤ total s cells) :
    Returns (fun fuel => trimHead fuel s start n) (some (trimmed cutHead s cells n)) := by
  induction cells generalizing s start n with
  | nil =>
    have hzero : n = 0 := le_zero.mp hn
    exact (Returns.const _).succ fun fuel => if_pos hzero
  | cons bp rest ih =>
    rw [h.1, trimmed]
    by_cases hzero : n = 0
    · rw [if_pos hzero]
      exact (Returns.const _).succ fun fuel => if_pos hzero
    have hbp : bp ∉ rest := (nodup_cons.mp h.nodup).1
    rw [total_cons] at hn
    rw [if_neg hzero]
    refine (ih (setCut_chained cuts_head h.2) ?_).succ fun fuel => if_neg hzero
    rw [setCut_total hbp]
    omega

theorem trimTail_returns (front back : List M) (h : Chained s (some mp) (front ++ back))
    (hn : n ≤ total s front) : Returns (fun fuel => trimTail mp fuel s back.head? n)
      (some (trimmed cutTail s front.reverse n)) := by
  induction front using reverseRec generalizing s back n with
  | nil =>
    have hzero : n = 0 := le_zero.mp hn
    exact (Returns.const _).succ fun fuel => if_pos hzero
  | append_singleton front bp ih =>
    rw [← total_reverse, reverse_append, reverse_singleton, singleton_append,
      total_cons, total_reverse] at hn
    rw [append_assoc, singleton_append] at h
    rw [reverse_append, reverse_singleton, singleton_append, trimmed]
    by_cases hzero : n = 0
    · rw [if_pos hzero]
      exact (Returns.const _).succ fun fuel => if_pos hzero
    have hbp : bp ∉ front := fun hmem =>
      (nodup_append.mp h.nodup).2.2 bp hmem bp (.head _) rfl
    rw [if_neg hzero]
    refine ((findEnd_returns h).bind (g := fun fuel => follow fun bp =>
      trimTail mp fuel (setCut cutTail s bp (min (size (s.msg bp)) n)) (some bp)
        (n - min (size (s.msg bp)) n)) ?_).succ fun fuel => if_neg hzero
    refine ih (bp :: back) (setCut_chained cuts_tail h) ?_
    rw [setCut_total hbp]
    omega

/-- With more bytes to trim than there are, the block before the first one is looked for. -/
theorem trimTail_strays (front back : List M) (h : Chained s (some mp) (front ++ back))
    (hn : total s front < n) : Returns (fun fuel => trimTail mp fuel s back.head? n) none := by
  induction front using reverseRec generalizing s back n with
  | nil =>
    have hmp : back.head? = some mp := h.start_eq.symm
    have hnodup := h.nodup
    have htail : mp ∉ back.tail := by
      cases back with
      | nil => exact not_mem_nil
      | cons b back =>
        rw [← some.inj hmp]
        exact (nodup_cons.mp hnodup).1
    rw [hmp]
    exact ((findEnd_first h htail).bind (g := fun fuel => follow fun bp =>
      trimTail mp fuel (setCut cutTail s bp (min (size (s.msg bp)) n)) (some bp)
        (n - min (size (s.msg bp)) n)) (Returns.const none)).succ
      fun fuel => if_neg (Nat.ne_of_gt (Nat.zero_lt_of_lt hn))
  | append_singleton front bp ih =>
    rw [← total_reverse, reverse_append, reverse_singleton, singleton_append,
      total_cons, total_reverse] at hn
    rw [append_assoc, singleton_append] at h
    have hbp : bp ∉ front := fun hmem =>
      (nodup_append.mp h.nodup).2.2 bp hmem bp (.head _) rfl
    refine ((findEnd_returns h).bind (g := fun fuel => follow fun bp =>
      trimTail mp fuel (setCut cutTail s bp (min (size (s.msg bp)) n)) (some bp)
        (n - min (size (s.msg bp)) n)) ?_).succ
      fun fuel => if_neg (Nat.ne_of_gt (Nat.zero_lt_of_lt hn))
    refine ih (bp :: back) (setCut_chained cuts_tail h) ?_
    rw [setCut_total hbp]
    omega

/-! ### What is left of the message -/

theorem trimmed_data : ∀ (cells : List M) (s : Sys M D) (n : Nat),
    (trimmed cut s cells n).data = s.data
  | [], _, _ => rfl
  | bp :: rest, s, n => by
    rw [trimmed]
    split_ifs
    · rfl
    · exact trimmed_data rest (setCut cut s bp (min (size (s.msg bp)) n)) _

theorem trimmed_inUse : ∀ (cells : List M) (s : Sys M D) (n : Nat),
    (trimmed cut s cells n).inUse = s.inUse
  | [], _, _ => rfl
  | bp :: rest, s, n => by
    rw [trimmed]
    split_ifs
    · rfl
    · exact trimmed_inUse rest (setCut cut s bp (min (size (s.msg bp)) n)) _

theorem trimmed_other {bq : M} : ∀ (cells : List M) (s : Sys M D) (n : Nat), bq ∉ cells →
    (trimmed cut s cells n).msg bq = s.msg bq
  | [], _, _, _ => rfl
  | bp :: rest, s, n, hbq => by
    rw [trimmed]
    split_ifs
    · rfl
    · rw [trimmed_other rest _ _ fun hmem => hbq (mem_cons_of_mem bp hmem), setCut,
        msg_setMsg_of_ne (ne_of_not_mem_cons hbq)]

theorem trimmed_msg (hcut : Cuts cut) {bq : M} : ∀ (cells : List M) (s : Sys M D) (n : Nat),
    cells.Nodup → ∃ k, k ≤ size (s.msg bq) ∧ (trimmed cut s cells n).msg bq = cut (s.msg bq) k
  | [], s, _, _ => ⟨0, Nat.zero_le _, (hcut.zero (s.msg bq)).symm⟩
  | bp :: rest, s, n, hnodup => by
    obtain ⟨hbp, hrest⟩ := nodup_cons.mp hnodup
    rw [trimmed]
    split_ifs
    · exact ⟨0, Nat.zero_le _, (hcut.zero (s.msg bq)).symm⟩
    · by_cases hbq : bq = bp
      · refine ⟨min (size (s.msg bp)) n, hbq ▸ Nat.min_le_left _ _, ?_⟩
        rw [hbq, trimmed_other rest _ _ hbp, setCut, msg_setMsg]
      obtain ⟨k, hk, heq⟩ := trimmed_msg hcut rest
        (setCut cut s bp (min (size (s.msg bp)) n)) (n - min (size (s.msg bp)) n) hrest
      rw [setCut, msg_setMsg_of_ne hbq] at hk heq
      exact ⟨k, hk, heq⟩

omit [DecidableEq M] in
theorem bytes_cutHead (s : Sys M D) (bp : M) {k : Nat} (hk : k ≤ size (s.msg bp))
    (hmsg : s'.msg bp = cutHead (s.msg bp) k) (hdata : s'.data = s.data) :
    bytes s' bp = (bytes s bp).drop k := by
  have hsize : size (cutHead (s.msg bp) k) = size (s.msg bp) - k :=
    sub_add_eq (s.msg bp).bWptr (s.msg bp).bRptr k
  rw [bytes_drop hk, drop_left' (length_copyOut _ _ _), bytes, hmsg, hsize, hdata]
  rfl

omit [DecidableEq M] in
theorem bytes_cutTail (s : Sys M D) (bp : M) {k : Nat} (hmsg : s'.msg bp = cutTail (s.msg bp) k)
    (hdata : s'.data = s.data) : bytes s' bp = (bytes s bp).take (size (s.msg bp) - k) := by
  have hsize : size (cutTail (s.msg bp) k) = size (s.msg bp) - k :=
    Nat.sub_right_comm (s.msg bp).bWptr k (s.msg bp).bRptr
  have hsplit := @bytes_drop M D s bp _ (sub_le (size (s.msg bp)) k)
  rw [hsplit, take_left' (length_copyOut _ _ _), bytes, hmsg, hsize, hdata]
  rfl

theorem setCut_tagged (hbp : bp ∉ cells) : tagged (setCut cut s bp n) cells = tagged s cells :=
  tagged_congr (fun _ hbq => msg_setMsg_of_ne (ne_of_mem_of_not_mem hbq hbp)) fun _ _ => SameData.refl _

theorem tagged_trimHead : ∀ (cells : List M) (s : Sys M D) (n : Nat), cells.Nodup →
    tagged (trimmed cutHead s cells n) cells = (tagged s cells).drop n
  | [], s, n, _ => (drop_nil).symm
  | bp :: rest, s, n, hnodup => by
    obtain ⟨hbp, hrest⟩ := nodup_cons.mp hnodup
    by_cases hzero : n = 0
    · rw [trimmed, if_pos hzero, hzero, drop_zero]
    obtain ⟨k, hk⟩ : ∃ k, k = min (size (s.msg bp)) n := ⟨_, rfl⟩
    have hstep : trimmed cutHead s (bp :: rest) n =
        trimmed cutHead (setCut cutHead s bp k) rest (n - k) := by
      rw [hk]
      exact if_neg hzero
    have hmsg : (trimmed cutHead (setCut cutHead s bp k) rest (n - k)).msg bp =
        cutHead (s.msg bp) k := by
      rw [trimmed_other rest _ _ hbp, setCut, msg_setMsg]
    have hdata : (trimmed cutHead (setCut cutHead s bp k) rest (n - k)).data = s.data :=
      trimmed_data rest _ _
    have htype : dbType (trimmed cutHead (setCut cutHead s bp k) rest (n - k)) bp = dbType s bp := by
      unfold dbType
      rw [hmsg, hdata]
      rfl
    have hfirst := bytes_cutHead s bp (by omega) hmsg hdata
    have hthere : (tagged s rest).drop (n - k) = (tagged s rest).drop (n - size (s.msg bp)) := by
      by_cases hwhole : size (s.msg bp) ≤ n
      · rw [hk, Nat.min_eq_left hwhole]
      · rw [hk, Nat.min_eq_right (by omega), Nat.sub_self, Nat.sub_eq_zero_of_le (by omega)]
    have hhere : (bytes s bp).drop k = (bytes s bp).drop n := by
      by_cases hwhole : size (s.msg bp) ≤ n
      · rw [hk, Nat.min_eq_left hwhole, drop_eq_nil_of_le (Nat.le_of_eq (length_bytes s bp)),
          drop_eq_nil_of_le (by rw [length_bytes]; exact hwhole)]
      · rw [hk, Nat.min_eq_right (by omega)]
    rw [hstep, tagged_cons, tagged_trimHead rest _ _ hrest, setCut_tagged hbp, hfirst, htype,
      hthere, hhere, tagged_cons, drop_append, length_map, length_bytes, map_drop]

/-- The blocks are given last first. -/
theorem tagged_trimTail : ∀ (cells : List M) (s : Sys M D) (n : Nat), cells.Nodup →
    tagged (trimmed cutTail s cells n) cells.reverse = (tagged s cells.reverse).take (total s cells - n)
  | [], s, n, _ => (take_nil).symm
  | bp :: rest, s, n, hnodup => by
    obtain ⟨hbp, hrest⟩ := nodup_cons.mp hnodup
    by_cases hzero : n = 0
    · rw [trimmed, if_pos hzero, hzero, Nat.sub_zero, ← total_reverse, total, take_length]
    obtain ⟨k, hk⟩ : ∃ k, k = min (size (s.msg bp)) n := ⟨_, rfl⟩
    have hstep : trimmed cutTail s (bp :: rest) n =
        trimmed cutTail (setCut cutTail s bp k) rest (n - k) := by
      rw [hk]
      exact if_neg hzero
    have hmsg : (trimmed cutTail (setCut cutTail s bp k) rest (n - k)).msg bp =
        cutTail (s.msg bp) k := by
      rw [trimmed_other rest _ _ hbp, setCut, msg_setMsg]
    have hdata : (trimmed cutTail (setCut cutTail s bp k) rest (n - k)).data = s.data :=
      trimmed_data rest _ _
    have htype : dbType (trimmed cutTail (setCut cutTail s bp k) rest (n - k)) bp = dbType s bp := by
      unfold dbType
      rw [hmsg, hdata]
      rfl
    have hlast := bytes_cutTail s bp hmsg hdata
    have hbp' : bp ∉ rest.reverse := fun hmem => hbp (mem_reverse.mp hmem)
    have hrev : (tagged s rest.reverse).length = total s rest := total_reverse s rest
    have happend : ∀ t : Sys M D, tagged t (bp :: rest).reverse =
        tagged t rest.reverse ++ (bytes t bp).map fun c => (dbType t bp, c) := by
      intro t
      rw [reverse_cons, tagged, flatMap_append, flatMap_singleton]
      rfl
    have hthere : (tagged s rest.reverse).take (total s rest - (n - k)) =
        (tagged s rest.reverse).take (total s (bp :: rest) - n) := by
      rw [total_cons]
      by_cases hwhole : size (s.msg bp) ≤ n
      · rw [show total s rest - (n - k) = size (s.msg bp) + total s rest - n by omega]
      · rw [take_of_length_le (by omega), take_of_length_le (by omega)]
    have hhere : (bytes s bp).take (size (s.msg bp) - k) =
        (bytes s bp).take (total s (bp :: rest) - n - total s rest) := by
      rw [total_cons]
      by_cases hwhole : size (s.msg bp) ≤ n
      · rw [show size (s.msg bp) - k = 0 by omega,
          show size (s.msg bp) + total s rest - n - total s rest = 0 by omega]
      · rw [show size (s.msg bp) - k = size (s.msg bp) + total s rest - n - total s rest by omega]
    rw [hstep, happend, tagged_trimTail rest _ _ hrest, setCut_tagged hbp', setCut_total hbp, hlast,
      htype, hthere, hhere, happend, take_append, hrev, map_take]

end

/-! ### `adjmsg` -/

/-- The blocks of a message are different ones whose pointers are in order. -/
structure Trimmable (s : Sys M D) (mp : M) (cells : List M) : Prop where
  chained : Chained s (some mp) cells
  sizes : ∀ bp ∈ cells, (s.msg bp).bRptr ≤ (s.msg bp).bWptr
  short : total s cells ≤ 2147483647

def fromEnd (cells : List M) (len : Int) : List M := if len < 0 then cells.reverse else cells

def cutEnd (len : Int) : Msgb M D → Nat → Msgb M D := if len < 0 then cutTail else cutHead

/-- `len` bytes have gone from the end that it names, and nothing else has changed. -/
structure Trimmed (s s' : Sys M D) (cells : List M) (len : Int) : Prop where
  bytes : tagged s' cells =
    if len < 0 then (tagged s cells).take (total s cells - len.natAbs)
    else (tagged s cells).drop len.natAbs
  pointers : ∀ bp ∈ cells, ∃ k ≤ size (s.msg bp), s'.msg bp = cutEnd len (s.msg bp) k
  ordered : ∀ bp ∈ cells, (s'.msg bp).bRptr ≤ (s'.msg bp).bWptr
  other : ∀ bp, bp ∉ cells → s'.msg bp = s.msg bp
  data : s'.data = s.data
  inUse : s'.inUse = s.inUse

/-- What `adjmsg` is to do: 1 and `len` bytes trimmed where the run at that end has them, or 0 and
nothing changed. -/
structure Adjusted (s s' : Sys M D) (cells : List M) (len : Int) (r : Bool) : Prop where
  returns : r = true ↔ len.natAbs ≤ run s (fromEnd cells len)
  trimmed : r = true → Trimmed s s' cells len
  unchanged : r = false → s' = s

section

variable [DecidableEq M]

section

variable (h : Trimmable s mp cells)
include h

theorem trimmed_head (hlen : 0 ≤ len) : Trimmed s (trimmed cutHead s cells len.natAbs) cells len := by
  have hneg : ¬ len < 0 := by omega
  have hnodup := h.chained.nodup
  refine ⟨?_, fun bp hbp => ?_, fun bp hbp => ?_, fun bp hbp => trimmed_other cells s _ hbp,
    trimmed_data cells s _, trimmed_inUse cells s _⟩
  · rw [if_neg hneg]
    exact tagged_trimHead cells s _ hnodup
  · rw [show cutEnd len = cutHead from if_neg hneg]
    exact trimmed_msg cuts_head cells s _ hnodup
  · obtain ⟨k, hk, hmsg⟩ := @trimmed_msg M D _ _ cuts_head bp cells s len.natAbs hnodup
    have hsize := h.sizes bp hbp
    rw [hmsg]
    unfold size at hk
    show (s.msg bp).bRptr + k ≤ (s.msg bp).bWptr
    omega

theorem trimmed_tail (hlen : len < 0) :
    Trimmed s (trimmed cutTail s cells.reverse len.natAbs) cells len := by
  have hnodup : cells.reverse.Nodup := nodup_reverse.mpr h.chained.nodup
  refine ⟨?_, fun bp hbp => ?_, fun bp hbp => ?_, fun bp hbp => ?_,
    trimmed_data cells.reverse s _, trimmed_inUse cells.reverse s _⟩
  · have hbytes := tagged_trimTail cells.reverse s len.natAbs hnodup
    rw [reverse_reverse, total_reverse] at hbytes
    rw [if_pos hlen]
    exact hbytes
  · rw [show cutEnd len = cutTail from if_pos hlen]
    exact trimmed_msg cuts_tail cells.reverse s _ hnodup
  · obtain ⟨k, hk, hmsg⟩ := @trimmed_msg M D _ _ cuts_tail bp cells.reverse s len.natAbs hnodup
    have hsize := h.sizes bp hbp
    rw [hmsg]
    unfold size at hk
    show (s.msg bp).bRptr ≤ (s.msg bp).bWptr - k
    omega
  · exact trimmed_other cells.reverse s _ fun hmem => hbp (mem_reverse.mp hmem)

/-- From the head. -/
theorem adjmsg_head (hlen : 0 ≤ len) (hmax : len ≤ 2147483647) :
    ∃ s' r, Returns (fun fuel => adjmsg fuel s mp len) (some (s', r)) ∧ Adjusted s s' cells len r := by
  have hneg : ¬ len < 0 := by omega
  have hsize : Returns (fun fuel => xmsgsize fuel s mp) (run s cells) := by
    obtain ⟨bp, rest, rfl⟩ : ∃ bp rest, cells = bp :: rest := by
      cases cells with
      | nil => exact absurd h.chained (some_ne_none mp)
      | cons bp rest => exact ⟨bp, rest, rfl⟩
    have hbp : bp = mp := (some.inj h.chained.1).symm
    have hloop := xmsgsizeLoop_returns (dbType s mp) (bp :: rest) (some mp) 0 h.chained
    rw [Nat.zero_add] at hloop
    rw [run, hbp]
    rw [hbp] at hloop
    exact hloop
  have hbits : unsigned len = len.natAbs := by
    unfold unsigned
    omega
  by_cases hfits : len.natAbs ≤ run s cells
  · have htrim := trimHead_returns h.chained (Nat.le_trans hfits (run_le s cells))
    refine ⟨trimmed cutHead s cells len.natAbs, true, ?_, ?_⟩
    · refine (hsize.bind (g := fun fuel => adjust s len fun n => trimHead fuel s (some mp) n) ?_).of_eq
        fun fuel => if_neg hneg
      refine (htrim.map (Option.map fun s => (s, true))).of_eq fun fuel => ?_
      rw [adjust, if_neg (by omega), hbits]
    · refine ⟨iff_of_true rfl ?_, fun _ => trimmed_head h hlen, fun hr => absurd hr Bool.noConfusion⟩
      rw [fromEnd, if_neg hneg]
      exact hfits
  · refine ⟨s, false, ?_, ?_⟩
    · refine (hsize.bind (g := fun fuel => adjust s len fun n => trimHead fuel s (some mp) n) ?_).of_eq
        fun fuel => if_neg hneg
      exact (Returns.const _).of_eq fun fuel => if_pos (by omega)
    · refine ⟨iff_of_false Bool.noConfusion ?_, fun hr => absurd hr Bool.noConfusion, fun _ => rfl⟩
      rw [fromEnd, if_neg hneg]
      exact hfits

/-- From the tail, of a length that has a negative. -/
theorem adjmsg_tail (hlen : len < 0) (hmin : -2147483648 < len) :
    ∃ s' r, Returns (fun fuel => adjmsg fuel s mp len) (some (s', r)) ∧ Adjusted s s' cells len r := by
  have hsize := xmsgsizeTail_returns h.chained
  have hneg : int (-len) = len.natAbs := by
    rw [int, Int.bmod_def]
    split_ifs
    · omega
    · omega
  have hbits : unsigned (len.natAbs : Int) = len.natAbs := by
    unfold unsigned
    omega
  have hbind : ∀ r, Returns (fun fuel => adjust s (int (-len)) (fun n => trimTail mp fuel s none n)
      (run s cells.reverse)) r → Returns (fun fuel => adjmsg fuel s mp len) r := fun r hr =>
    (hsize.bind (g := fun fuel (n : Option Nat) => n.elim (some none)
      (adjust s (int (-len)) fun n => trimTail mp fuel s none n)) hr).of_eq fun fuel => if_pos hlen
  by_cases hfits : len.natAbs ≤ run s cells.reverse
  · have hle : len.natAbs ≤ total s cells := by
      rw [← total_reverse]
      exact Nat.le_trans hfits (run_le s cells.reverse)
    have htrim := trimTail_returns cells []
      (show Chained s (some mp) (cells ++ []) by rw [append_nil]; exact h.chained) hle
    refine ⟨trimmed cutTail s cells.reverse len.natAbs, true, hbind _ ?_, ?_⟩
    · refine (htrim.map (Option.map fun s => (s, true))).of_eq fun fuel => ?_
      rw [adjust, hneg, if_neg (by omega), hbits]
      rfl
    · refine ⟨iff_of_true rfl ?_, fun _ => trimmed_tail h hlen, fun hr => absurd hr Bool.noConfusion⟩
      rw [fromEnd, if_pos hlen]
      exact hfits
  · refine ⟨s, false, hbind _ ((Returns.const _).of_eq fun fuel => ?_), ?_⟩
    · rw [adjust, hneg, if_pos (by omega)]
    · refine ⟨iff_of_false Bool.noConfusion ?_, fun hr => absurd hr Bool.noConfusion, fun _ => rfl⟩
      rw [fromEnd, if_pos hlen]
      exact hfits

theorem adjmsg_least : Returns (fun fuel => adjmsg fuel s mp (-2147483648)) none := by
  have hsize := xmsgsizeTail_returns h.chained
  have hshort := h.short
  have htrim := trimTail_strays (n := 2147483648) cells []
    (show Chained s (some mp) (cells ++ []) by rw [append_nil]; exact h.chained) (by omega)
  have hneg : int (- -2147483648) = -2147483648 := by decide
  refine (hsize.bind (g := fun fuel (n : Option Nat) => n.elim (some none)
    (adjust s (int (- -2147483648)) fun n => trimTail mp fuel s none n)) ?_).of_eq
    fun fuel => if_pos (by decide)
  refine (htrim.map (Option.map fun s => (s, true))).of_eq fun fuel => ?_
  rw [hneg, elim_some, adjust, if_neg (by omega)]
  rfl

end

/-- `adjmsg` does what it is to do with every message, but for the length that has no negative in an
int. -/
theorem adjmsg_iff (h : Trimmable s mp cells) (hlow : -2147483648 ≤ len) (hhigh : len ≤ 2147483647) :
    (∃ s' r, Returns (fun fuel => adjmsg fuel s mp len) (some (s', r)) ∧
      Adjusted s s' cells len r) ↔ len ≠ -2147483648 := by
  constructor
  · rintro ⟨s', r, hreturns, -⟩ hleast
    subst hleast
    exact absurd (hreturns.unique (adjmsg_least h)) (some_ne_none (s', r))
  · intro hne
    by_cases hlen : len < 0
    · exact adjmsg_tail h hlen (by omega)
    · exact adjmsg_head h (by omega) hhigh

end

def oneByte : Sys Unit Unit where
  msg _ := ⟨none, 0, 1, ()⟩
  data _ := ⟨1, 0, 0, 64, fun _ => 65⟩
  inUse _ := true

theorem oneByte_trimmable : Trimmable oneByte () [()] := ⟨⟨rfl, rfl⟩, by decide, by decide⟩

theorem adjmsg_iff_oneByte : (∃ s' r, Returns (fun fuel => adjmsg fuel oneByte () (-1)) (some (s', r)) ∧
    Adjusted oneByte s' [()] (-1) r) ↔ (-1 : Int) ≠ -2147483648 :=
  adjmsg_iff oneByte_trimmable (by decide) (by decide)

/-- A null pointer is followed, where 0 is to be returned. -/
theorem adjmsg_strays : Returns (fun fuel => adjmsg fuel oneByte () (-2147483648)) none ∧
      ¬ ∃ s' r, Returns (fun fuel => adjmsg fuel oneByte () (-2147483648)) (some (s', r)) ∧
        Adjusted oneByte s' [()] (-2147483648) r := by
  have hleast := adjmsg_least oneByte_trimmable
  refine ⟨hleast, ?_⟩
  rintro ⟨s', r, hreturns, -⟩
  exact absurd (hreturns.unique hleast) (some_ne_none (s', r))

end Svr42.Pull
