import Svr42.ClistCalls

/-! Runs of calls on character lists. -/

namespace Svr42.Clst
open List Option Prod

variable {L Ptr : Type}

/-- The lists after `cinit`. -/
structure Initial (w : World L Ptr) : Prop where
  free : ∃ cells, Linked (fun bp => (w.sys.block bp).cNext) w.sys.cfreelist cells ∧
    ∀ bp, bp ∈ cells
  empty : ∀ p, w.sys.clist p = { cCc := 0, cCf := none, cCl := none }
  nobody : ∀ bp, w.held bp = false

def noBytes : Queues L Ptr where
  queue _ := []
  hand _ := none

variable {w : World L Ptr}

theorem Initial.holds (h : Initial w) : Holds w.sys w.held noBytes := by
  obtain ⟨cells, hlinked, hall⟩ := h.free
  refine ⟨fun _ => .free, cells, fun _ => [], ⟨hlinked, fun p => ?_, fun p => ?_, fun bp => ?_,
    fun bp p => ?_⟩, fun p bp hbp => ?_, fun p => rfl, fun bp => ?_, fun bp => ?_⟩
  · rw [h.empty p]
    rfl
  · rw [h.empty p]
    rfl
  · exact iff_of_true (hall bp) rfl
  · exact iff_of_false not_mem_nil nofun
  · cases hbp
  · rw [h.nobody bp]
    exact iff_of_false Bool.false_ne_true nofun
  · rw [h.nobody bp]
    rfl

theorem Initial.counted (h : Initial w) : Counted w.sys noBytes := by
  intro p
  rw [h.empty p]
  rfl

variable {held : Ptr → Bool} {a : Queues L Ptr}

theorem Holds.hand {s : Sys L Ptr} {bp : Ptr} (h : Holds s held a) (hheld : held bp = true) :
    a.hand bp = some (live (s.block bp)) := by
  obtain ⟨place, free, chain, h⟩ := h
  exact (h.hand bp).trans (if_pos hheld)

variable [DecidableEq L] [DecidableEq Ptr]

/-- Queues of bytes, first in, first out. A block is as good as the bytes in it. -/
inductive Fifo : Queues L Ptr → Event L Ptr → Queues L Ptr → Prop
  | getc {a : Queues L Ptr} {p : L} : Fifo a (.getc p (a.queue p).head?) (a.cut p 1)
  | putc {a : Queues L Ptr} {c : UInt8} {p : L} : Fifo a (.putc c p true) (a.append p [c])
  | putcNot {a : Queues L Ptr} {c : UInt8} {p : L} : Fifo a (.putc c p false) a
  | getcf {a : Queues L Ptr} {bp : Ptr} {bytes : List UInt8} :
      a.hand bp = none → bytes.length = CLSIZE →
      Fifo a (.getcf (some bp)) (a.give bp (some bytes))
  | getcfNot {a : Queues L Ptr} : Fifo a (.getcf none) a
  | putcf {a : Queues L Ptr} {bp : Ptr} {bytes : List UInt8} :
      a.hand bp = some bytes → Fifo a (.putcf bp) (a.give bp none)
  | getcb {a : Queues L Ptr} {p : L} {bp : Ptr} {bytes : List UInt8} :
      a.hand bp = none → bytes ≠ [] → bytes <+: a.queue p →
      Fifo a (.getcb p (some bp)) ((a.cut p bytes.length).give bp (some bytes))
  | getcbNot {a : Queues L Ptr} {p : L} : a.queue p = [] → Fifo a (.getcb p none) a
  | putcb {a : Queues L Ptr} {bp : Ptr} {p : L} {bytes : List UInt8} :
      a.hand bp = some bytes → bytes ≠ [] →
      Fifo a (.putcb bp p) ((a.append p bytes).give bp none)
  | getcbp {a : Queues L Ptr} {p : L} {n : Nat} :
      Fifo a (.getcbp p n ((a.queue p).take n)) (a.cut p n)
  | putcbp {a : Queues L Ptr} {p : L} {cp : List UInt8} {n : Nat} : n ≤ cp.length →
      Fifo a (.putcbp p cp n) (a.append p (cp.take n))
  | edit {a : Queues L Ptr} {bp : Ptr} {b : Cblock Ptr} {bytes : List UInt8} :
      a.hand bp = some bytes → Fifo a (.edit bp b) (a.give bp (some (live b)))

/-- What one call does, the queues do as well. -/
theorem step_fifo {w' : World L Ptr} {event : Event L Ptr} (h : Step w event w')
    (hh : Holds w.sys w.held a) (hc : Counted w.sys a) :
    ∃ a', Fifo a event a' ∧ Holds w'.sys w'.held a' ∧ Counted w'.sys a' := by
  cases h with
  | @getc p s r hget =>
    obtain ⟨s', hs', hholds, hcounted⟩ := getc_spec hh hc p
    obtain ⟨rfl, rfl⟩ := mk.inj (some.inj (hget.symm.trans hs'))
    exact ⟨_, .getc, hholds, hcounted⟩
  | @putc c p s ok hput =>
    obtain ⟨hnot, -⟩ | ⟨s', hs', hholds, hcounted⟩ := putc_spec hh hc c p
    · obtain ⟨rfl, rfl⟩ := mk.inj (hput.symm.trans hnot)
      exact ⟨a, .putcNot, hh, hc⟩
    · obtain ⟨rfl, rfl⟩ := mk.inj (hput.symm.trans hs')
      exact ⟨_, .putc, hholds, hcounted⟩
  | @getcf s r hget =>
    cases hfree : w.sys.cfreelist with
    | none =>
      rw [Clst.getcf, hfree] at hget
      obtain ⟨rfl, rfl⟩ := mk.inj hget
      exact ⟨a, .getcfNot, hh, hc⟩
    | some bp =>
      obtain ⟨s', bytes, hs', hhand, hlen, hholds, hcounted⟩ := getcf_spec hh hc hfree
      obtain ⟨rfl, rfl⟩ := mk.inj (hget.symm.trans hs')
      exact ⟨_, .getcf hhand hlen, hholds, hcounted⟩
  | @putcf bp hheld => exact ⟨_, .putcf (hh.hand hheld), hh.freeBlock hheld, hc⟩
  | @getcb p s r hget =>
    cases hfirst : (w.sys.clist p).cCf with
    | none =>
      have hnil : a.queue p = [] := by
        obtain ⟨place, free, chain, hinv⟩ := hh
        exact (hinv.first_iff p).mp hfirst
      rw [Clst.getcb, hfirst] at hget
      obtain ⟨rfl, rfl⟩ := mk.inj hget
      exact ⟨a, .getcbNot hnil, hh, hc⟩
    | some bp =>
      obtain ⟨s', bytes, hs', hhand, hne, hprefix, hholds, hcounted⟩ := getcb_spec hh hc hfirst
      obtain ⟨rfl, rfl⟩ := mk.inj (hget.symm.trans hs')
      exact ⟨_, .getcb hhand hne hprefix, hholds, hcounted⟩
  | @putcb bp p hheld hlt hle =>
    obtain ⟨hholds, hcounted⟩ := putcb_spec hh hc hheld ⟨hlt, hle⟩ p
    refine ⟨_, .putcb (hh.hand hheld) (ne_nil_of_length_pos ?_), hholds, hcounted⟩
    rw [length_live]
    exact Nat.sub_pos_of_lt hlt
  | @getcbp p n s cp hget =>
    obtain ⟨s', hs', hholds, hcounted⟩ := getcbp_spec hh hc p n
    obtain ⟨rfl, rfl⟩ := mk.inj (some.inj (hget.symm.trans hs'))
    exact ⟨_, .getcbp, hholds, hcounted⟩
  | @putcbp p cp s n hput =>
    obtain ⟨s', m, hs', hm, -, hholds, hcounted⟩ := putcbp_spec hh hc p cp
    obtain ⟨rfl, rfl⟩ := mk.inj (some.inj (hput.symm.trans hs'))
    exact ⟨_, .putcbp hm, hholds, hcounted⟩
  | @edit bp b hheld => exact ⟨_, .edit (hh.hand hheld), hh.edit hheld b, hc⟩

theorem run_fifo {w' : World L Ptr} {events : List (Event L Ptr)} (h : Exec Step w events w')
    (hh : Holds w.sys w.held a) (hc : Counted w.sys a) :
    ∃ a', Exec Fifo a events a' ∧ Holds w'.sys w'.held a' ∧ Counted w'.sys a' := by
  induction h with
  | nil => exact ⟨a, .nil a, hh, hc⟩
  | snoc _ hstep ih =>
    obtain ⟨a', hrun, hholds, hcounted⟩ := ih
    obtain ⟨a'', hlast, hholds', hcounted'⟩ := step_fifo hstep hholds hcounted
    exact ⟨a'', .snoc hrun hlast, hholds', hcounted'⟩

/-- The calls return; only one that finds no free block does not put everything. -/
structure Answers (s : Sys L Ptr) : Prop where
  getc : ∀ p, (getc s p).isSome = true
  putc : ∀ c p, (putc s c p).2 = false → s.cfreelist = none
  getcf : (getcf s).2 = none → s.cfreelist = none
  getcbp : ∀ p n, (getcbp s p n).isSome = true
  putcbp : ∀ p cp, ∃ s' n, putcbp s p cp = some (s', n) ∧ (n < cp.length → s'.cfreelist = none)

theorem answers {s : Sys L Ptr} (h : Holds s held a) (hc : Counted s a) : Answers s where
  getc p := by
    obtain ⟨s', hs', -⟩ := getc_spec h hc p
    rw [hs']
    rfl
  putc c p hfalse := by
    obtain ⟨-, hfree⟩ | ⟨s', hs', -⟩ := putc_spec h hc c p
    · exact hfree
    · rw [hs'] at hfalse
      cases hfalse
  getcf hnone := by
    cases hfree : s.cfreelist with
    | none => rfl
    | some bp =>
      rw [Clst.getcf, hfree] at hnone
      cases hnone
  getcbp p n := by
    obtain ⟨s', hs', -⟩ := getcbp_spec h hc p n
    rw [hs']
    rfl
  putcbp p cp := by
    obtain ⟨s', m, hs', -, hshort, -⟩ := putcbp_spec h hc p cp
    exact ⟨s', m, hs', hshort⟩

/-- The lists behave as queues of bytes that have done `events`, and every block is in one
place. -/
def AsQueues (w : World L Ptr) (events : List (Event L Ptr)) : Prop :=
  ∃ a place free chain, Exec Fifo noBytes events a ∧ Inv w.sys w.held a place free chain ∧
    (∀ p, (w.sys.clist p).cCc = (a.queue p).length ∧
      ((w.sys.clist p).cCf = none ↔ a.queue p = []) ∧
      ((w.sys.clist p).cCl = none ↔ a.queue p = [])) ∧
    Answers w.sys

/-- However the calls come, character lists are queues of bytes. -/
theorem clist_run {w₀ w : World L Ptr} {events : List (Event L Ptr)} (h₀ : Initial w₀)
    (h : Exec Step w₀ events w) : AsQueues w events := by
  obtain ⟨a, hrun, hholds, hcounted⟩ := run_fifo h h₀.holds h₀.counted
  have hanswers := answers hholds hcounted
  obtain ⟨place, free, chain, hinv⟩ := hholds
  exact ⟨a, place, free, chain, hrun, hinv,
    fun p => ⟨hcounted p, hinv.first_iff p, hinv.last_iff p⟩, hanswers⟩

/-- One list and two free blocks. -/
def boot : World Unit Bool where
  sys :=
    { block := fun bp =>
        { cNext := if bp then none else some true
          cFirst := 0
          cLast := 0
          cData := fun _ => 0 }
      clist := fun _ => { cCc := 0, cCf := none, cCl := none }
      cfreelist := some false }
  held _ := false

theorem boot_initial : Initial boot := by
  refine ⟨⟨[false, true], ⟨rfl, rfl, rfl⟩, fun bp => ?_⟩, fun _ => rfl, fun _ => rfl⟩
  cases bp
  · exact .head _
  · exact .tail _ (.head _)

/-- A byte is put, and goes with its block. -/
theorem clist_run_boot :
    AsQueues (World.hold { boot with sys := (Clst.getcb (Clst.putc boot.sys 65 ()).1 ()).1 }
        (some false) true)
      [.putc 65 () true, .getcb () (some false)] := by
  have hput : Step boot (.putc 65 () true) { boot with sys := (Clst.putc boot.sys 65 ()).1 } := .putc rfl
  have hget : Step { boot with sys := (Clst.putc boot.sys 65 ()).1 } (.getcb () (some false))
      (World.hold { boot with sys := (Clst.getcb (Clst.putc boot.sys 65 ()).1 ()).1 }
        (some false) true) := .getcb rfl
  exact clist_run boot_initial (.snoc (.snoc (.nil boot) hput) hget)

end Svr42.Clst
