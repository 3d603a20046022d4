import Svr42.Hsearch
import Mathlib.Data.Int.GCD
import Mathlib.Data.List.GetD
import Mathlib.Data.Nat.Find
import Mathlib.Data.Nat.Prime.Basic

/-! The table of `hsearch` is a map from keys to the entries that came first, with room for one entry less than
it has slots: the probes for any key reach every slot. -/

namespace Svr42.Hsearch
open List Nat Option

variable {D : Type} {s : State D} {f : Map D} {item : Entry D} {key : Str} {action : Action} {i k : Nat} {d : D}

/-! ### Probes -/

def probeAt (s : State D) (key : Str) (k : Nat) : Nat := (hashm s.m key + k * hash2m s.m key) % s.length

theorem shift_lt {m : Nat} (hm : 1 ≤ m) (hm' : m ≤ 32) (x : UInt32) :
    (x >>> UInt32.ofNat (32 - m)).toNat < 2 ^ m := by
  have hshift : (UInt32.ofNat (32 - m)).toNat % 32 = 32 - m := by
    rw [UInt32.toNat_ofNat_of_lt' (by simp [UInt32.size]; omega)]
    omega
  rw [UInt32.toNat_shiftRight, hshift, Nat.shiftRight_eq_div_pow, Nat.div_lt_iff_lt_mul (Nat.two_pow_pos _),
    ← Nat.pow_add, show m + (32 - m) = 32 by omega]
  exact x.toNat_lt

theorem hashm_lt {m : Nat} (hm : 1 ≤ m) (hm' : m ≤ 32) (key : Str) : hashm m key < 2 ^ m :=
  shift_lt hm hm' _

theorem hash2m_odd (m : Nat) (key : Str) : hash2m m key % 2 = 1 := by
  rw [hash2m, UInt32.toNat_or]
  exact or_mod_two_eq_one.mpr (.inr rfl)

theorem coprime_hash2m (m : Nat) (key : Str) : (hash2m m key).Coprime (2 ^ m) := by
  apply Nat.Coprime.pow_right
  rw [coprime_two_right, odd_iff]
  exact hash2m_odd m key

theorem probeAt_covers (hm : 1 ≤ s.m) (hle : s.m ≤ 32) (hlen : s.length = 2 ^ s.m) (key : Str) (hi : i < s.length) :
    ∃ k < s.length, probeAt s key k = i := by
  have hco := coprime_hash2m s.m key
  have hfirst := hashm_lt hm hle key
  rw [← hlen] at hco hfirst
  obtain ⟨k, hk, heq⟩ := exists_mul_mod_eq_of_coprime (i + (s.length - hashm s.m key)) hco (by omega)
  refine ⟨k, hk, ?_⟩
  rw [probeAt, add_mod, mul_comm k, heq, ← add_mod,
    show hashm s.m key + (i + (s.length - hashm s.m key)) = i + s.length by omega, add_mod_right]
  exact mod_eq_of_lt hi

def Stops (s : State D) (key : Str) (k : Nat) : Prop :=
  (s.slot (probeAt s key k)).all (fun e => decide (e.key = key)) = true

instance (s : State D) (key : Str) (k : Nat) : Decidable (Stops s key k) :=
  inferInstanceAs (Decidable (_ = true))

theorem stops_iff : Stops s key k ↔ ∀ e, s.slot (probeAt s key k) = some e → e.key = key := by
  rw [Stops]
  cases s.slot (probeAt s key k) with
  | none => exact ⟨fun _ _ h => (by cases h), fun _ => rfl⟩
  | some e =>
    rw [all_some, decide_eq_true_eq]
    exact ⟨fun h e' he => some.inj he ▸ h, fun h => h e rfl⟩

theorem not_stops_iff : ¬Stops s key k ↔ ∃ e, s.slot (probeAt s key k) = some e ∧ e.key ≠ key := by
  rw [stops_iff, not_forall]
  exact exists_congr fun e => Classical.not_imp

theorem probeAt_succ (s : State D) (key : Str) (k : Nat) :
    (probeAt s key k + hash2m s.m key) % s.length = probeAt s key (k + 1) := by
  rw [probeAt, probeAt, mod_add_mod, add_mul, one_mul, add_assoc]

theorem probe_spec {j fuel : Nat} (hk : k < fuel) (hstop : Stops s key (j + k))
    (hfirst : ∀ k' < k, ¬Stops s key (j + k')) :
    probe s key (hash2m s.m key) fuel (probeAt s key j) = some (probeAt s key (j + k)) := by
  induction k generalizing j fuel with
  | zero =>
    cases fuel with
    | zero => omega
    | succ fuel => exact if_pos hstop
  | succ k ih =>
    cases fuel with
    | zero => omega
    | succ fuel =>
      have hgo : ¬Stops s key j := hfirst 0 (zero_lt_succ k)
      rw [probe]
      refine (if_neg hgo).trans ?_
      rw [probeAt_succ, ih (lt_of_succ_lt_succ hk) (by rwa [add_assoc, add_comm 1])
          (fun k' hk' => by
            rw [add_assoc, add_comm 1]
            exact hfirst (k' + 1) (succ_lt_succ hk')),
        add_assoc, add_comm 1]

/-! ### The table and the map -/

/-- The table has one empty slot at least, and holds the entries of the map, each where the search for its key
ends. -/
structure Inv (s : State D) (f : Map D) : Prop where
  pos : 1 ≤ s.m
  le : s.m ≤ 32
  length : s.length = 2 ^ s.m
  table : s.table.length = s.length
  count : s.table.countP Option.isSome = s.count
  room : s.count < s.length
  size : f.size = s.count
  sound : ∀ i e, s.slot i = some e → f.entry e.key = some e.data
  found : ∀ key d, f.entry key = some d →
    ∃ k, s.slot (probeAt s key k) = some ⟨key, d⟩ ∧ ∀ k' < k, ¬Stops s key k'

namespace Inv

section

variable (h : Inv s f)
include h

theorem exists_empty : ∃ i < s.length, s.slot i = none := by
  by_contra hno
  have hall : ∀ e ∈ s.table, isSome e = true := by
    intro e he
    obtain ⟨i, hi, rfl⟩ := getElem_of_mem he
    by_contra hnone
    refine hno ⟨i, h.table ▸ hi, ?_⟩
    rw [State.slot, getD_eq_getElem _ _ hi]
    exact not_isSome_iff_eq_none.mp hnone
  have hcount := h.count
  rw [countP_eq_length.mpr hall, h.table] at hcount
  exact absurd h.room (by omega)

theorem search (key : Str) : ∃ k, Stops s key k ∧ (∀ k' < k, ¬Stops s key k') ∧
    probe s key (hash2m s.m key) s.length (hashm s.m key) = some (probeAt s key k) := by
  obtain ⟨i, hi, hempty⟩ := h.exists_empty
  obtain ⟨k, hk, rfl⟩ := probeAt_covers h.pos h.le h.length key hi
  have hstop : ∃ k, Stops s key k := ⟨k, stops_iff.mpr fun e he => by rw [hempty] at he; cases he⟩
  have hleast : Nat.find hstop ≤ k := Nat.find_min' hstop (stops_iff.mpr fun e he => by rw [hempty] at he; cases he)
  refine ⟨Nat.find hstop, Nat.find_spec hstop, fun k' hk' => Nat.find_min hstop hk', ?_⟩
  have hspec := @probe_spec D s key (Nat.find hstop) 0 s.length (by omega)
    (by rw [zero_add]; exact Nat.find_spec hstop)
    (fun k' hk' => by rw [zero_add]; exact Nat.find_min hstop hk')
  have hfirst := hashm_lt h.pos h.le key
  rw [← h.length] at hfirst
  rw [zero_add, probeAt, zero_mul, add_zero, Nat.mod_eq_of_lt hfirst] at hspec
  exact hspec

/-- Where the search ends is the entry for the key, or an empty slot for a key that is not there. -/
theorem slot_of_stops (hstop : Stops s key k) (hfirst : ∀ k' < k, ¬Stops s key k') :
    s.slot (probeAt s key k) = (f.entry key).map fun d => ⟨key, d⟩ := by
  cases hkey : f.entry key with
  | some d =>
    obtain ⟨j, hj, hjfirst⟩ := h.found key d hkey
    rcases lt_trichotomy j k with hlt | rfl | hgt
    · exact absurd (stops_iff.mpr fun e he => by rw [hj] at he; exact (some.inj he) ▸ rfl) (hfirst j hlt)
    · exact hj
    · exact absurd hstop (hjfirst k hgt)
  | none =>
    cases hslot : s.slot (probeAt s key k) with
    | none => rfl
    | some e =>
      have hin := h.sound _ e hslot
      rw [stops_iff.mp hstop e hslot, hkey] at hin
      cases hin

/-- A new entry goes where the search for its key ends. -/
theorem enter (hnew : f.entry item.key = none) (hroom : s.count ≠ s.length - 1)
    (hstop : Stops s item.key k) (hfirst : ∀ k' < k, ¬Stops s item.key k') :
    Inv (enter s item (probeAt s item.key k))
      ⟨fun key => if key = item.key then some item.data else f.entry key, f.size + 1⟩ ∧
    (Hsearch.enter s item (probeAt s item.key k)).slot (probeAt s item.key k) = some item := by
  have hempty : s.slot (probeAt s item.key k) = none := by rw [h.slot_of_stops hstop hfirst, hnew]; rfl
  have hlt : probeAt s item.key k < s.table.length := by
    rw [h.table]
    exact mod_lt _ (by have := h.room; omega)
  generalize hi : probeAt s item.key k = i at hempty hlt ⊢
  have hslot : ∀ j, (Hsearch.enter s item i).slot j = if j = i then some item else s.slot j := by
    intro j
    rw [State.slot, Hsearch.enter, getD_eq_getElem?_getD]
    by_cases hj : j = i
    · rw [hj, getElem?_set_self hlt, if_pos rfl]
      rfl
    · rw [getElem?_set_ne (Ne.symm hj), if_neg hj, ← getD_eq_getElem?_getD]
      rfl
  have hpath : ∀ key j, ¬Stops s key j → ¬Stops (Hsearch.enter s item i) key j := by
    intro key j hno
    obtain ⟨e, he, hne⟩ := not_stops_iff.mp hno
    refine not_stops_iff.mpr ⟨e, (hslot _).trans ?_, hne⟩
    change (if probeAt s key j = i then some item else s.slot (probeAt s key j)) = some e
    rw [if_neg fun hj => by rw [hj, hempty] at he; cases he]
    exact he
  refine ⟨⟨h.pos, h.le, h.length, (length_set ..).trans h.table, ?_, ?_, congrArg (· + 1) h.size,
    fun j e he => ?_, fun key d hkey => ?_⟩, by rw [hslot, if_pos rfl]⟩
  · have hget : s.table[i] = none := by rwa [State.slot, getD_eq_getElem _ _ hlt] at hempty
    change (s.table.set i (some item)).countP isSome = s.count + 1
    rw [countP_set hlt, hget, h.count]
    rfl
  · have := h.room
    change s.count + 1 < s.length
    omega
  · rw [hslot] at he
    split_ifs at he with hj
    · obtain rfl := some.inj he
      exact if_pos rfl
    · have hin := h.sound j e he
      exact (if_neg fun hk => by rw [hk, hnew] at hin; cases hin).trans hin
  · by_cases hk : key = item.key
    · subst hk
      obtain rfl : item.data = d := some.inj ((if_pos rfl).symm.trans hkey)
      refine ⟨k, ?_, fun k' hk' => hpath _ _ (hfirst k' hk')⟩
      exact (hslot _).trans (if_pos hi)
    · obtain ⟨j, hj, hjfirst⟩ := h.found key d ((if_neg hk).symm.trans hkey)
      refine ⟨j, (hslot _).trans ((if_neg fun hji => ?_).trans hj), fun k' hk' => hpath _ _ (hjfirst k' hk')⟩
      change probeAt s key j = i at hji
      rw [hji, hempty] at hj
      cases hj

/-- A call does what it does on the map, and returns a pointer to the entry that the map has. -/
theorem hsearch (item : Entry D) (action : Action) :
    ∃ i s', hsearch item action s = some (i, s') ∧ Inv s' (f.call (s.length - 1) item action).2 ∧
      i.bind s'.slot = (f.call (s.length - 1) item action).1 ∧ s'.length = s.length := by
  obtain ⟨k, hstop, hfirst, hprobe⟩ := h.search item.key
  have hslot := h.slot_of_stops hstop hfirst
  rw [Hsearch.hsearch, hprobe, map_some, hslot]
  cases hkey : f.entry item.key with
  | some d =>
    rw [Map.call, hkey]
    refine ⟨some (probeAt s item.key k), s, rfl, h, ?_, rfl⟩
    rw [bind_some, hslot, hkey]
    rfl
  | none =>
    rw [Map.call, hkey]
    rw [elim_none, h.size]
    by_cases hno : action = .FIND ∨ s.count = s.length - 1
    · rw [if_pos hno]
      refine ⟨none, s, ?_, h, rfl, rfl⟩
      by_cases hfind : action = .FIND
      · exact congrArg some (if_pos hfind)
      · exact congrArg some ((if_neg hfind).trans (if_pos (hno.resolve_left hfind)))
    · obtain ⟨hfind, hroom⟩ := not_or.mp hno
      obtain ⟨hinv, hitem⟩ := h.enter hkey hroom hstop hfirst
      rw [if_neg hno]
      refine ⟨some _, _, congrArg some ((if_neg hfind).trans (if_neg hroom)), ?_, hitem, rfl⟩
      rw [← h.size]
      exact hinv

theorem calls (cs : List (Entry D × Action)) :
    ∃ s', calls cs s = some ((Map.calls (s.length - 1) cs f).1, s') ∧
      Inv s' (Map.calls (s.length - 1) cs f).2 := by
  induction cs generalizing s f with
  | nil => exact ⟨s, rfl, h⟩
  | cons c cs ih =>
    obtain ⟨i, s₁, hcall, hinv, hret, hlen⟩ := h.hsearch c.1 c.2
    obtain ⟨s', hcalls, hinv'⟩ := ih hinv
    rw [hlen] at hcalls hinv'
    refine ⟨s', ?_, hinv'⟩
    rw [Hsearch.calls, hcall, bind_some, hcalls, map_some, hret]
    rfl

end

end Inv

/-! ### Creation -/

theorem grow_spec (n a : Nat) : ∃ k, grow n (2 ^ a) a = (2 ^ (a + k), a + k) ∧ n < 2 ^ k ∧ (n ≠ 0 → 1 ≤ k) ∧
    ∀ j, n < 2 ^ j → k ≤ j := by
  induction n using Nat.strongRecOn generalizing a with
  | ind n ih =>
    rw [grow]
    by_cases hn : n = 0
    · subst hn
      exact ⟨0, if_pos rfl, zero_lt_one, fun h => absurd rfl h, fun j _ => zero_le j⟩
    rw [if_neg hn, ← pow_succ]
    obtain ⟨k, heq, hlt, -, hleast⟩ := ih (n / 2) (by omega) (a + 1)
    refine ⟨k + 1, ?_, ?_, fun _ => le_add_left 1 k, fun j hj => ?_⟩
    · rw [heq, add_right_comm, add_assoc]
    · rw [pow_succ]
      omega
    · cases j with
      | zero => exact absurd (lt_one_iff.mp hj) hn
      | succ j =>
        rw [pow_succ] at hj
        exact succ_le_succ (hleast j (by omega))

/-- A table that is created is empty and has more slots than the size asked for. -/
theorem hcreate_inv {malloc : Nat → Bool} {size : Int32} (h : hcreate malloc size = some s) :
    Inv s (Map.empty : Map D) ∧ size.toInt < s.length := by
  rw [hcreate] at h
  by_cases hsize : size.toInt ≤ 0
  · rw [if_pos hsize] at h
    cases h
  rw [if_neg hsize] at h
  obtain ⟨k, hgrow, hlt, hpos, hleast⟩ := grow_spec size.toInt.toNat 0
  rw [show 2 ^ 0 = 1 from rfl, zero_add] at hgrow
  rw [hgrow] at h
  by_cases hcalloc : calloc malloc (2 ^ k) sizeofTABELEM = true
  · rw [if_pos hcalloc] at h
    obtain rfl := some.inj h
    have hle : k ≤ 32 := hleast 32 (by have := size.toInt_lt; omega)
    have hpow : 0 < 2 ^ k := Nat.two_pow_pos k
    refine ⟨⟨hpos (by omega), hle, rfl, length_replicate, ?_, hpow, rfl, fun i e he => ?_,
      fun key d hkey => by cases hkey⟩, ?_⟩
    · rw [countP_replicate]
      rfl
    · rw [State.slot, getD_eq_getElem?_getD, getElem?_replicate] at he
      split at he <;> cases he
    · change size.toInt < ((2 ^ k : Nat) : Int)
      omega
  · rw [if_neg hcalloc] at h
    cases h

/-- A table of any size that is created answers any calls as a map with room for all slots but one does; every
search ends, as the probes for every key reach every slot; and no entry is lost. -/
theorem hsearch_refines_map {malloc : Nat → Bool} {size : Int32} (h : hcreate malloc size = some s)
    (cs : List (Entry D × Action)) : size.toInt ≤ s.length - 1 ∧
    (∀ key, ∀ i < s.length, ∃ k < s.length, probeAt s key k = i) ∧
    ∃ s', calls cs s = some ((Map.calls (s.length - 1) cs .empty).1, s') ∧
      ∀ key d, (Map.calls (s.length - 1) cs .empty).2.entry key = some d → ∃ i, s'.slot i = some ⟨key, d⟩ := by
  obtain ⟨hinv, hsize⟩ := hcreate_inv h
  obtain ⟨s', hcalls, hinv'⟩ := hinv.calls cs
  refine ⟨by omega, fun key i hi => probeAt_covers hinv.pos hinv.le hinv.length key hi, s', hcalls,
    fun key d hkey => ?_⟩
  obtain ⟨k, hk, -⟩ := hinv'.found key d hkey
  exact ⟨_, hk⟩

/-- A table of two slots. -/
theorem hsearch_refines_map_one : ∃ s : State Nat, hcreate (fun _ => true) 1 = some s ∧ s.length = 2 ∧
      (1 : Int32).toInt ≤ s.length - 1 ∧
      (∀ key, ∀ i < s.length, ∃ k < s.length, probeAt s key k = i) ∧
      ∃ s', calls [(⟨[97], 1⟩, .ENTER), (⟨[98], 2⟩, .ENTER)] s =
          some ((Map.calls (s.length - 1) [(⟨[97], 1⟩, .ENTER), (⟨[98], 2⟩, .ENTER)] .empty).1, s') ∧
        ∀ key d, (Map.calls (s.length - 1) [(⟨[97], 1⟩, .ENTER), (⟨[98], 2⟩, .ENTER)] .empty).2.entry key = some d →
          ∃ i, s'.slot i = some ⟨key, d⟩ := by
  have hgrow : grow 1 1 0 = (2, 1) := by
    rw [grow, if_neg (by decide), grow, if_pos (by decide)]
  have hcreated : hcreate (fun _ => true) 1 =
      some ({ table := [none, none], count := 0, length := 2, m := 1 } : State Nat) := by
    rw [hcreate, if_neg (by decide), show (1 : Int32).toInt.toNat = 1 by decide, hgrow]
    rfl
  exact ⟨_, hcreated, rfl, hsearch_refines_map hcreated _⟩

end Svr42.Hsearch
