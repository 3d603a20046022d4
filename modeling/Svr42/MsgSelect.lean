import Svr42.MsgQueues

/-! Which message of a queue `msgrcv` takes. -/

namespace Svr42.Msg
open List

variable {info : Msginfo} {s : State} {i fuel : Nat} {msgtyp : Int} {done rest cells : List Nat}
  {start : Option Nat}

def Wanted (msgtyp type : Int) : Prop :=
  msgtyp = 0 ∨ (0 < msgtyp ∧ type = msgtyp) ∨ (msgtyp < 0 ∧ type ≤ -msgtyp)

/-- Of messages with the types `front ++ type :: back`, in order, the one between is the first, the
first of its type, or the first of the lowest type. -/
structure Picks (msgtyp : Int) (front : List Int) (type : Int) (back : List Int) : Prop where
  wanted : Wanted msgtyp type
  first : msgtyp = 0 → front = []
  firstOf : 0 < msgtyp → msgtyp ∉ front
  lowest : msgtyp < 0 → (∀ t ∈ front, type < t) ∧ ∀ t ∈ back, type ≤ t

def Negatable (msgtyp : Int) : Prop := long (-msgtyp) = -msgtyp

def State.type (s : State) (h : Nat) : Int := (s.msgh h).msgType

/-- The result of a search through `cells`. -/
def Found (msgtyp : Int) (s : State) (cells : List Nat) : Option Nat → Option Nat → Prop
  | none, _ => ∀ h ∈ cells, ¬ Wanted msgtyp (s.type h)
  | some mp, pmp => ∃ front back, cells = front ++ mp :: back ∧ pmp = front.getLast? ∧
      Picks msgtyp (front.map s.type) (s.type mp) (back.map s.type)

theorem search_pos (done : List Nat) (hpos : 0 < msgtyp) (h : Linked s.next start rest) (hfuel : rest.length < fuel)
    (hdone : ∀ x ∈ done, s.type x ≠ msgtyp) :
    Found msgtyp s (done ++ rest) (search msgtyp s fuel done.getLast? start none none).1
      (search msgtyp s fuel done.getLast? start none none).2 := by
  induction rest generalizing done start fuel with
  | nil =>
    obtain ⟨fuel, rfl⟩ : ∃ n, fuel = n + 1 := ⟨fuel - 1, by omega⟩
    rw [show start = none from h, search, append_nil]
    rintro x hx (hzero | ⟨-, heq⟩ | ⟨hneg, -⟩)
    · omega
    · exact hdone x hx heq
    · omega
  | cons mp rest ih =>
    obtain ⟨fuel, rfl⟩ : ∃ n, fuel = n + 1 := ⟨fuel - 1, by omega⟩
    rw [h.1, search, if_pos hpos]
    by_cases htype : msgtyp = (s.msgh mp).msgType
    · rw [if_neg fun hne => hne htype]
      refine ⟨done, rest, rfl, rfl, .inr (.inl ⟨hpos, htype.symm⟩), fun hzero => by omega,
        fun _ hmem => ?_, fun hneg => by omega⟩
      obtain ⟨x, hx, heq⟩ := mem_map.mp hmem
      exact hdone x hx heq
    rw [if_pos htype]
    have hnext := ih (done ++ [mp]) h.2 (show rest.length < fuel by rw [length_cons] at hfuel; omega) ?_
    · rw [List.getLast?_concat, append_assoc] at hnext
      exact hnext
    · intro x hx
      rcases mem_append.mp hx with hx | hx
      · exact hdone x hx
      · rw [mem_singleton.mp hx]
        exact fun heq => htype heq.symm

theorem Found.keep {best mp : Nat} {pmp : Option Nat} (hneg : msgtyp < 0)
    (h : Found msgtyp s done (some best) pmp) (hle : s.type best ≤ s.type mp) :
    Found msgtyp s (done ++ [mp]) (some best) pmp := by
  obtain ⟨front, back, hdone, hpmp, hpicks⟩ := h
  refine ⟨front, back ++ [mp], by rw [hdone]; simp, hpmp, hpicks.wanted, fun hzero => by omega,
    fun hpos => by omega, fun _ => ⟨(hpicks.lowest hneg).1, fun t ht => ?_⟩⟩
  rw [map_append, mem_append] at ht
  rcases ht with ht | ht
  · exact (hpicks.lowest hneg).2 t ht
  · rw [map_singleton, mem_singleton] at ht
    rw [ht]
    exact hle

theorem Found.better {mp : Nat} (hneg : msgtyp < 0) (htype : s.type mp ≤ -msgtyp)
    (hall : ∀ x ∈ done, s.type mp < s.type x) :
    Found msgtyp s (done ++ [mp]) (some mp) done.getLast? := by
  refine ⟨done, [], rfl, rfl, .inr (.inr ⟨hneg, htype⟩), fun hzero => by omega,
    fun hpos => by omega, fun _ => ⟨fun t ht => ?_, fun t ht => by simp at ht⟩⟩
  obtain ⟨x, hx, heq⟩ := mem_map.mp ht
  rw [← heq]
  exact hall x hx

theorem search_neg (done : List Nat) (hneg : msgtyp < 0) (hlong : Negatable msgtyp) (h : Linked s.next start rest)
    (hfuel : rest.length < fuel) {smp spmp : Option Nat} (hbest : Found msgtyp s done smp spmp) :
    Found msgtyp s (done ++ rest) (search msgtyp s fuel done.getLast? start smp spmp).1
      (search msgtyp s fuel done.getLast? start smp spmp).2 := by
  induction rest generalizing done start fuel smp spmp with
  | nil =>
    obtain ⟨fuel, rfl⟩ : ∃ n, fuel = n + 1 := ⟨fuel - 1, by omega⟩
    rw [show start = none from h, search, append_nil]
    exact hbest
  | cons mp rest ih =>
    obtain ⟨fuel, rfl⟩ : ∃ n, fuel = n + 1 := ⟨fuel - 1, by omega⟩
    have hfuel' : rest.length < fuel := by
      rw [length_cons] at hfuel
      omega
    have hgo : ∀ smp spmp, Found msgtyp s (done ++ [mp]) smp spmp →
        Found msgtyp s (done ++ mp :: rest) (search msgtyp s fuel (some mp) (s.next mp) smp spmp).1
          (search msgtyp s fuel (some mp) (s.next mp) smp spmp).2 := by
      intro smp spmp hfound
      have hnext := ih _ h.2 hfuel' hfound
      rw [List.getLast?_concat, append_assoc] at hnext
      exact hnext
    have hlow : ¬ 0 < msgtyp := by omega
    rw [h.1]
    by_cases htype : s.type mp ≤ -msgtyp
    · have hcond : (s.msgh mp).msgType ≤ long (-msgtyp) := by
        rw [show long (-msgtyp) = -msgtyp from hlong]
        exact htype
      cases smp with
      | none =>
        rw [search, if_neg hlow, if_pos hcond]
        refine hgo _ _ (Found.better hneg htype fun x hx => ?_)
        have hnot := hbest x hx
        by_contra hle
        exact hnot (.inr (.inr ⟨hneg, by omega⟩))
      | some best =>
        rw [search, if_neg hlow, if_pos hcond]
        split_ifs with hle
        · exact hgo _ _ (hbest.keep hneg hle)
        · have hlt : s.type mp < s.type best := Int.not_le.mp hle
          refine hgo _ _ (Found.better hneg htype fun x hx => ?_)
          obtain ⟨front, back, hdone, -, hpicks⟩ := hbest
          obtain ⟨hfront, hback⟩ := hpicks.lowest hneg
          rw [hdone, mem_append, mem_cons] at hx
          rcases hx with hx | hx | hx
          · have := hfront (s.type x) (mem_map_of_mem hx)
            omega
          · rw [hx]
            omega
          · have := hback (s.type x) (mem_map_of_mem hx)
            omega
    · have hcond : ¬ (s.msgh mp).msgType ≤ long (-msgtyp) := by
        rw [show long (-msgtyp) = -msgtyp from hlong]
        exact htype
      cases smp with
      | none =>
        rw [search, if_neg hlow, if_neg hcond]
        refine hgo _ _ fun x hx => ?_
        rcases mem_append.mp hx with hx | hx
        · exact hbest x hx
        rw [mem_singleton.mp hx]
        rintro (hzero | ⟨hpos, -⟩ | ⟨-, hle⟩)
        · omega
        · omega
        · exact htype hle
      | some best =>
        rw [search, if_neg hlow, if_neg hcond]
        refine hgo _ _ (hbest.keep hneg ?_)
        obtain ⟨front, back, -, -, hpicks⟩ := hbest
        rcases hpicks.wanted with hzero | ⟨hpos, -⟩ | ⟨-, hle⟩
        · omega
        · omega
        · omega

theorem select_ok (hq : QueueRep s i cells) (hlong : Negatable msgtyp)
    (hlength : cells.length ≤ info.msgtql) :
    Found msgtyp s cells (select info i msgtyp s).1 (select info i msgtyp s).2 := by
  unfold select
  split_ifs with hzero
  · rw [hq.linked.start_eq]
    cases cells with
    | nil => exact fun x hx => by simp at hx
    | cons mp back =>
      exact ⟨[], back, rfl, rfl, .inl hzero, fun _ => rfl, fun hpos => by omega,
        fun hneg => by omega⟩
  · rcases Int.lt_or_lt_of_ne hzero with hneg | hpos
    · exact search_neg [] hneg hlong hq.linked (by omega) fun x hx => by simp at hx
    · exact search_pos [] hpos hq.linked (by omega) fun x hx => by simp at hx

end Svr42.Msg
