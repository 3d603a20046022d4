import Mathlib.Data.List.Basic

/-! Lists linked by a next pointer that every cell has, whether it is on a list or not. -/

namespace Svr42
open Function List Option

variable {Ptr : Type*} {next next' : Ptr → Option Ptr} {start : Option Ptr} {p q : Ptr}
  {cells cells' front back : List Ptr}

/-- Following `next` from `start` visits exactly `cells` and ends in a null pointer. -/
def Linked (next : Ptr → Option Ptr) : Option Ptr → List Ptr → Prop
  | start, [] => start = none
  | start, p :: rest => start = some p ∧ Linked next (next p) rest

namespace Linked

theorem congr (h : Linked next start cells) (hagree : ∀ p ∈ cells, next' p = next p) :
    Linked next' start cells := by
  induction cells generalizing start with
  | nil => exact h
  | cons p rest ih =>
    refine ⟨h.1, ?_⟩
    rw [hagree p mem_cons_self]
    exact ih h.2 fun q hq => hagree q (.tail _ hq)

theorem unique (h : Linked next start cells) (h' : Linked next start cells') : cells = cells' := by
  induction cells generalizing start cells' with
  | nil =>
    cases cells' with
    | nil => rfl
    | cons p rest =>
      rw [h'.1] at h
      cases h
  | cons p rest ih =>
    cases cells' with
    | nil =>
      rw [h.1] at h'
      cases h'
    | cons q rest' =>
      have hpq : p = q := some.inj (h.1.symm.trans h'.1)
      rw [← hpq] at h' ⊢
      rw [ih h.2 h'.2]

theorem drop (h : Linked next start (front ++ p :: back)) : Linked next (next p) back := by
  induction front generalizing start with
  | nil => exact h.2
  | cons x front ih => exact ih h.2

theorem start_eq (h : Linked next start cells) : start = cells.head? := by
  cases cells with
  | nil => exact h
  | cons p rest => exact h.1

theorem nodup (h : Linked next start cells) : cells.Nodup := by
  induction cells generalizing start with
  | nil => exact nodup_nil
  | cons p rest ih =>
    refine nodup_cons.mpr ⟨fun hmem => ?_, ih h.2⟩
    obtain ⟨front, back, hrest⟩ := append_of_mem hmem
    have htail := h.2
    rw [hrest] at htail
    have hsame := htail.unique htail.drop
    have hlength := congrArg length hsame
    simp only [length_append, length_cons] at hlength
    omega

variable [DecidableEq Ptr]

theorem update_of_notMem (h : Linked next start cells) (hp : p ∉ cells) (link : Option Ptr) :
    Linked (update next p link) start cells :=
  h.congr fun _ hq => update_of_ne (ne_of_mem_of_not_mem hq hp) _ _

theorem push (h : Linked next start cells) (hp : p ∉ cells) :
    Linked (update next p start) (some p) (p :: cells) := by
  refine ⟨rfl, ?_⟩
  rw [update_self]
  exact h.update_of_notMem hp start

theorem unlink (h : Linked next start (front ++ q :: p :: back)) :
    Linked (update next q (next p)) start (front ++ q :: back) := by
  induction front generalizing start with
  | nil =>
    have hnodup := h.nodup
    have hq : q ∉ back := fun hmem =>
      (nodup_cons.mp hnodup).1 (.tail _ hmem)
    refine ⟨h.1, ?_⟩
    rw [update_self]
    exact h.2.2.update_of_notMem hq _
  | cons x front ih =>
    have hx : x ≠ q := by
      intro heq
      exact (nodup_cons.mp h.nodup).1 (by simp [heq])
    refine ⟨h.1, ?_⟩
    rw [update_of_ne hx]
    exact ih h.2

theorem snoc (h : Linked next start (front ++ [q])) (hp : p ∉ front ++ [q]) (hnil : next p = none) :
    Linked (update next q (some p)) start (front ++ [q, p]) := by
  induction front generalizing start with
  | nil =>
    have hpq : p ≠ q := fun heq => hp (by simp [heq])
    refine ⟨h.1, ?_⟩
    rw [update_self]
    refine ⟨rfl, ?_⟩
    rw [update_of_ne hpq]
    exact hnil
  | cons x front ih =>
    have hx : x ≠ q := by
      intro heq
      exact (nodup_cons.mp h.nodup).1 (by simp [heq])
    refine ⟨h.1, ?_⟩
    rw [update_of_ne hx]
    exact ih h.2 fun hmem => hp (.tail _ hmem)

end Linked

/-- The cells from `start` on; `fuel` bounds their number. -/
def chain (next : Ptr → Option Ptr) : Nat → Option Ptr → List Ptr
  | 0, _ => []
  | _ + 1, none => []
  | fuel + 1, some p => p :: chain next fuel (next p)

theorem Linked.chain_eq {fuel : Nat} (h : Linked next start cells) (hfuel : cells.length ≤ fuel) :
    chain next fuel start = cells := by
  induction cells generalizing start fuel with
  | nil =>
    rw [show start = none from h]
    cases fuel with
    | zero => rfl
    | succ fuel => rfl
  | cons p rest ih =>
    rw [length_cons] at hfuel
    obtain ⟨fuel, rfl⟩ : ∃ n, fuel = n + 1 := ⟨fuel - 1, by omega⟩
    rw [h.1, chain, ih h.2 (by omega)]

/-- The walk from `start` to the cell before `p`; `fuel` bounds its length. -/
def findPrev [DecidableEq Ptr] (next : Ptr → Option Ptr) (p : Ptr) : Nat → Option Ptr → Option Ptr
  | 0, _ => none
  | _ + 1, none => none
  | fuel + 1, some q => if next q = some p then some q else findPrev next p fuel (next q)

theorem findPrev_ok [DecidableEq Ptr] {fuel : Nat} (h : Linked next start (front ++ q :: p :: back))
    (hfuel : front.length < fuel) : findPrev next p fuel start = some q := by
  induction front generalizing start fuel with
  | nil =>
    obtain ⟨fuel, rfl⟩ : ∃ n, fuel = n + 1 := ⟨fuel - 1, by omega⟩
    rw [h.1, findPrev, if_pos h.2.1]
  | cons x front ih =>
    obtain ⟨fuel, rfl⟩ : ∃ n, fuel = n + 1 := ⟨fuel - 1, by omega⟩
    have hnodup := h.2.nodup
    have hx : next x ≠ some p := by
      intro heq
      -- the cell after `x` would be `p`, which comes later
      have hrest := h.2
      rw [heq] at hrest
      cases front with
      | nil =>
        have hqp : p = q := some.inj hrest.1
        rw [hqp] at hnodup
        exact absurd hnodup (by simp)
      | cons y front =>
        have hyp : p = y := some.inj hrest.1
        rw [hyp] at hnodup
        exact absurd hnodup (by simp)
    rw [h.1, findPrev, if_neg hx]
    exact ih h.2 (by simpa using hfuel)

/-- The walk from `start` to the first cell that meets `test`, with the cell before it; `fuel` bounds
its length. -/
def findFrom (next : Ptr → Option Ptr) (test : Ptr → Prop) [DecidablePred test] :
    Nat → Option Ptr → Option Ptr → Option (Option Ptr × Ptr)
  | 0, _, _ => none
  | _ + 1, _, none => none
  | fuel + 1, prev, some p =>
      if test p then some (prev, p) else findFrom next test fuel (some p) (next p)

section Find

variable {test : Ptr → Prop} [DecidablePred test] {fuel : Nat} {prev : Option Ptr}

theorem findFrom_some (h : Linked next start (front ++ p :: back)) (hfront : ∀ q ∈ front, ¬ test q)
    (hp : test p) (hfuel : front.length < fuel) :
    findFrom next test fuel prev start = some (front.getLast?.or prev, p) := by
  induction front generalizing start prev fuel with
  | nil =>
    obtain ⟨fuel, rfl⟩ : ∃ n, fuel = n + 1 := ⟨fuel - 1, by omega⟩
    rw [h.1, findFrom, if_pos hp]
    rfl
  | cons x front ih =>
    obtain ⟨fuel, rfl⟩ : ∃ n, fuel = n + 1 := ⟨fuel - 1, by omega⟩
    rw [length_cons] at hfuel
    rw [h.1, findFrom, if_neg (hfront x (.head _)),
      ih h.2 (fun q hq => hfront q (.tail _ hq)) (by omega), getLast?_cons]
    cases front.getLast? with
    | none => rfl
    | some q => rfl

theorem findFrom_none (h : Linked next start cells) (hcells : ∀ q ∈ cells, ¬ test q) :
    findFrom next test fuel prev start = none := by
  induction cells generalizing start prev fuel with
  | nil =>
    rw [show start = none from h]
    cases fuel with
    | zero => rfl
    | succ fuel => rfl
  | cons x rest ih =>
    cases fuel with
    | zero => rfl
    | succ fuel =>
      rw [h.1, findFrom, if_neg (hcells x (.head _))]
      exact ih h.2 fun q hq => hcells q (.tail _ hq)

end Find

/-! Functions that search with `fuel`: what they return once it is enough. -/

/-- `f` has the result `a`, whatever fuel there is from some amount on. -/
def Returns {α : Type*} (f : Nat → Option α) (a : α) : Prop := ∃ n, ∀ fuel, n ≤ fuel → f fuel = some a

namespace Returns

variable {α β : Type*} {f : Nat → Option α} {a a' : α} {b : β}

theorem const (a : α) : Returns (fun _ => some a) a := ⟨0, fun _ _ => rfl⟩

theorem unique (h : Returns f a) (h' : Returns f a') : a = a' := by
  obtain ⟨n, hn⟩ := h
  obtain ⟨n', hn'⟩ := h'
  have ha := hn (n + n') (by omega)
  rw [hn' (n + n') (by omega)] at ha
  exact (some.inj ha).symm

variable {g : Nat → α → Option β}

theorem bind (h : Returns f a) (hg : Returns (fun fuel => g fuel a) b) :
    Returns (fun fuel => (f fuel).bind (g fuel)) b := by
  obtain ⟨n, hn⟩ := h
  obtain ⟨n', hn'⟩ := hg
  refine ⟨n + n', fun fuel hfuel => ?_⟩
  calc (f fuel).bind (g fuel) = g fuel a := by rw [hn fuel (by omega), bind_some]
    _ = some b := hn' fuel (by omega)

theorem map (h : Returns f a) (g : α → β) : Returns (fun fuel => (f fuel).map g) (g a) := by
  obtain ⟨n, hn⟩ := h
  refine ⟨n, fun fuel hfuel => ?_⟩
  calc (f fuel).map g = (some a).map g := congrArg (Option.map g) (hn fuel hfuel)
    _ = some (g a) := rfl

theorem bindConst {o : Option α} (h : o = some a) (hg : Returns (fun fuel => g fuel a) b) :
    Returns (fun fuel => o.bind (g fuel)) b := by
  subst h
  exact hg

variable {f' : Nat → Option α}

theorem of_eq (h : Returns f a) (heq : ∀ fuel, f' fuel = f fuel) : Returns f' a := by
  obtain ⟨n, hn⟩ := h
  exact ⟨n, fun fuel hfuel => (heq fuel).trans (hn fuel hfuel)⟩

theorem succ (h : Returns f a) (heq : ∀ fuel, f' (fuel + 1) = f fuel) : Returns f' a := by
  obtain ⟨n, hn⟩ := h
  refine ⟨n + 1, fun fuel hfuel => ?_⟩
  obtain ⟨fuel, rfl⟩ : ∃ m, fuel = m + 1 := ⟨fuel - 1, by omega⟩
  exact (heq fuel).trans (hn fuel (Nat.le_of_succ_le_succ hfuel))

end Returns

/-- The walk from `start` to the first cell that meets `test`, or to the end of the list; `fuel`
bounds its length. -/
def seek (next : Ptr → Option Ptr) (test : Ptr → Prop) [DecidablePred test] :
    Nat → Option Ptr → Option (Option Ptr)
  | _, none => some none
  | 0, some _ => none
  | fuel + 1, some p => if test p then some (some p) else seek next test fuel (next p)

theorem Linked.seek_eq {test : Ptr → Prop} [DecidablePred test] (h : Linked next start cells) :
    Returns (fun fuel => seek next test fuel start) (cells.find? fun p => test p) := by
  refine ⟨cells.length, fun fuel hfuel => ?_⟩
  induction cells generalizing start fuel with
  | nil =>
    rw [show start = none from h]
    cases fuel with
    | zero => rfl
    | succ fuel => rfl
  | cons p rest ih =>
    rw [length_cons] at hfuel
    obtain ⟨fuel, rfl⟩ : ∃ n, fuel = n + 1 := ⟨fuel - 1, by omega⟩
    simp only [h.1, seek]
    split_ifs with hp
    · rw [find?_cons_of_pos (by simpa using hp)]
    · rw [find?_cons_of_neg (by simpa using hp)]
      exact ih h.2 fuel (by omega)

theorem seek_returns {test : Ptr → Prop} [DecidablePred test] {fuel : Nat} {found : Option Ptr}
    (h : seek next test fuel start = some found) :
    Returns (fun fuel => seek next test fuel start) found := by
  induction fuel generalizing start with
  | zero =>
    cases start with
    | none => exact ⟨0, fun fuel _ => by cases fuel <;> exact h⟩
    | some p => cases h
  | succ fuel ih =>
    cases start with
    | none => exact ⟨0, fun fuel _ => by cases fuel <;> exact h⟩
    | some p =>
      by_cases hp : test p
      · refine ⟨1, fun n hn => ?_⟩
        obtain ⟨n, rfl⟩ : ∃ m, n = m + 1 := ⟨n - 1, by omega⟩
        rw [seek, if_pos hp] at h
        exact (if_pos hp).trans h
      · rw [seek, if_neg hp] at h
        obtain ⟨n, hn⟩ := ih h
        refine ⟨n + 1, fun m hm => ?_⟩
        obtain ⟨m, rfl⟩ : ∃ l, m = l + 1 := ⟨m - 1, by omega⟩
        exact (if_neg hp).trans (hn m (by omega))

/-- The cells from `start` to the end of the list; `fuel` bounds their number. -/
def walk (next : Ptr → Option Ptr) : Nat → Option Ptr → Option (List Ptr)
  | _, none => some []
  | 0, some _ => none
  | fuel + 1, some p => (walk next fuel (next p)).map fun cells => p :: cells

/-- Where the list starts once `link` is stored behind `prev`, or as its start. -/
def relinkStart (prev start link : Option Ptr) : Option Ptr := prev.elim link fun _ => start

def relinkNext [DecidableEq Ptr] (prev : Option Ptr) (next : Ptr → Option Ptr) (link : Option Ptr) :
    Ptr → Option Ptr :=
  prev.elim next fun q => Function.update next q link

theorem relinkNext_of_ne [DecidableEq Ptr] {prev link : Option Ptr} (h : prev ≠ some p) :
    relinkNext prev next link p = next p := by
  cases prev with
  | none => rfl
  | some q => exact update_of_ne (fun heq => h (by rw [heq])) _ _

/-- The search for `p` on its list, and what is left of the list once `p` is linked past. -/
theorem Linked.detach [DecidableEq Ptr] (h : Linked next start cells) (hp : p ∈ cells) :
    ∃ prev, Returns (fun fuel => findFrom next (· = p) fuel none start) (prev, p) ∧
      (∀ q, prev = some q → q ∈ cells) ∧
      Linked (relinkNext prev next (next p)) (relinkStart prev start (next p)) (cells.erase p) := by
  obtain ⟨front, back, hp', rfl, herase⟩ := exists_erase_eq hp
  refine ⟨front.getLast?, ⟨front.length + 1, fun fuel hfuel => ?_⟩, fun q hq => ?_, ?_⟩
  · have hfind : findFrom next (· = p) fuel none start = some (front.getLast?.or none, p) :=
      findFrom_some h (fun q hq => ne_of_mem_of_not_mem hq hp') rfl hfuel
    rwa [or_none] at hfind
  · exact mem_append_left _ (mem_of_getLast? hq)
  · rw [herase]
    rcases eq_nil_or_concat front with rfl | ⟨front, q, rfl⟩
    · exact h.start_eq ▸ h.2
    rw [concat_eq_append, getLast?_append, getLast?_singleton]
    rw [concat_eq_append, append_assoc] at h
    rw [append_assoc]
    exact h.unlink

end Svr42
