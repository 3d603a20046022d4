import Svr42.PidModel

/-! The lists of the process table: the hash chains of the pid structures, the members of a process
group, the free slots of the directory, and the active processes. -/

namespace Svr42.Proc
open Function List

variable {s : State} {pids procs : Finset Nat} {pid_id : Nat → Int}
  {pid_link p_pgidp p_pglink p_next pid_pglink : Nat → Option Nat} {pidhash : Int → Option Nat}
  {slot slot' : Nat → Nat} {procdir : Nat → Procent} {procentfree practive : Option Nat}
  {a n p : Nat} {id : Int}

/-! Hash chains. -/

/-- Every pid structure that is allocated is on the chain of its id, and no two have the same id. -/
structure Hashed (pids : Finset Nat) (pid_id : Nat → Int) (pid_link : Nat → Option Nat)
    (pidhash : Int → Option Nat) : Prop where
  chains : ∀ i, ∃ cells, Linked pid_link (pidhash i) cells ∧
    ∀ a, a ∈ cells ↔ a ∈ pids ∧ hashpid (pid_id a) = i
  id_inj : ∀ a ∈ pids, ∀ b ∈ pids, pid_id a = pid_id b → a = b

namespace Hashed

theorem lookup (h : Hashed s.pids s.pid_id s.pid_link s.pidhash) (pid : Int) :
    ∃ found, Returns (fun fuel => pid_lookup fuel s pid) found ∧
      ∀ a, found = some a ↔ a ∈ s.pids ∧ s.pid_id a = pid := by
  obtain ⟨cells, hcells, hmem⟩ := h.chains (hashpid pid)
  refine ⟨_, hcells.seek_eq, fun a => ⟨fun hfound => ?_, fun ha => ?_⟩⟩
  · have hid : s.pid_id a = pid := by simpa using find?_some hfound
    exact ⟨((hmem a).mp (mem_of_find?_eq_some hfound)).1, hid⟩
  · have hsome : (cells.find? fun b => decide (s.pid_id b = pid)).isSome :=
      find?_isSome.mpr ⟨a, (hmem a).mpr ⟨ha.1, by rw [ha.2]⟩, by simpa using ha.2⟩
    obtain ⟨b, hb⟩ := Option.isSome_iff_exists.mp hsome
    have hid : s.pid_id b = pid := by simpa using find?_some hb
    have hbmem := ((hmem b).mp (mem_of_find?_eq_some hb)).1
    rw [hb, h.id_inj a ha.1 b hbmem (ha.2.trans hid.symm)]

/-- A pid structure linked in at the head of the chain of its id. -/
theorem insert (h : Hashed pids pid_id pid_link pidhash) (ha : a ∉ pids)
    (hid : ∀ b ∈ pids, pid_id b ≠ id) :
    Hashed (insert a pids) (update pid_id a id) (update pid_link a (pidhash (hashpid id)))
      (update pidhash (hashpid id) (some a)) := by
  have hne : ∀ b ∈ pids, b ≠ a := fun b hb => ne_of_mem_of_not_mem hb ha
  constructor
  · intro i
    obtain ⟨cells, hcells, hmem⟩ := h.chains i
    have hacells : a ∉ cells := fun hin => ha ((hmem a).mp hin).1
    have hiff : ∀ b, b ≠ a → (b ∈ cells ↔ b ∈ Insert.insert a pids ∧
        hashpid (update pid_id a id b) = i) := by
      intro b hb
      rw [hmem, Finset.mem_insert, update_of_ne hb]
      simp [hb]
    by_cases hi : i = hashpid id
    · subst hi
      refine ⟨a :: cells, ?_, fun b => ?_⟩
      · rw [update_self]
        exact hcells.push hacells
      · by_cases hb : b = a
        · subst hb
          simp
        · rw [← hiff b hb, mem_cons, or_iff_right hb]
    · refine ⟨cells, ?_, fun b => ?_⟩
      · rw [update_of_ne hi]
        exact hcells.update_of_notMem hacells _
      · by_cases hb : b = a
        · subst hb
          simp [hacells, Ne.symm hi]
        · exact hiff b hb
  · intro b hb c hc heq
    rcases Finset.mem_insert.mp hb with hba | hb'
    · rcases Finset.mem_insert.mp hc with hca | hc'
      · rw [hba, hca]
      · rw [hba, update_self, update_of_ne (hne c hc')] at heq
        exact absurd heq.symm (hid c hc')
    · rcases Finset.mem_insert.mp hc with hca | hc'
      · rw [hca, update_self, update_of_ne (hne b hb')] at heq
        exact absurd heq (hid b hb')
      · rw [update_of_ne (hne b hb'), update_of_ne (hne c hc')] at heq
        exact h.id_inj b hb' c hc' heq

/-- `pid_rele` finds the pid structure and takes it off its chain. -/
theorem rele (h : Hashed s.pids s.pid_id s.pid_link s.pidhash) (ha : a ∈ s.pids) (ha0 : a ≠ pid0) :
    ∃ pid_link pidhash, Hashed (s.pids.erase a) s.pid_id pid_link pidhash ∧
      Returns (fun fuel => pid_rele fuel s a)
        { s with pidhash := pidhash, pid_link := pid_link, pids := s.pids.erase a } := by
  obtain ⟨cells, hcells, hmem⟩ := h.chains (hashpid (s.pid_id a))
  obtain ⟨prev, hfind, hprev, hdetach⟩ := hcells.detach ((hmem a).mpr ⟨ha, rfl⟩)
  have hrele : ∀ fuel, pid_rele fuel s a = (findFrom s.pid_link (· = a) fuel none
      (s.pidhash (hashpid (s.pid_id a)))).map _ := fun fuel => if_neg ha0
  refine ⟨_, _, ⟨fun i => ?_, fun b hb c hc => ?_⟩, (hfind.map _).of_eq hrele⟩
  · by_cases hi : i = hashpid (s.pid_id a)
    · subst hi
      refine ⟨cells.erase a, ?_, fun b => ?_⟩
      · rw [update_self]
        exact hdetach
      · rw [hcells.nodup.mem_erase_iff, hmem, Finset.mem_erase, and_assoc]
    · obtain ⟨others, hothers, hmem'⟩ := h.chains i
      refine ⟨others, ?_, fun b => ?_⟩
      · rw [update_of_ne hi]
        refine hothers.congr fun b hb => relinkNext_of_ne fun hb' => hi ?_
        rw [← ((hmem' b).mp hb).2, ← ((hmem b).mp (hprev b hb')).2]
      · rw [hmem', Finset.mem_erase]
        refine ⟨fun hb => ⟨⟨?_, hb.1⟩, hb.2⟩, fun hb => ⟨hb.1.2, hb.2⟩⟩
        rintro rfl
        exact hi hb.2.symm
  · exact h.id_inj b (Finset.mem_of_mem_erase hb) c (Finset.mem_of_mem_erase hc)

end Hashed

/-! Process groups. -/

def Grouped (procs : Finset Nat) (p_pgidp p_pglink pid_pglink : Nat → Option Nat) : Prop :=
  ∀ a, ∃ members, Linked p_pglink (pid_pglink a) members ∧
    ∀ p, p ∈ members ↔ p ∈ procs ∧ p_pgidp p = some a

namespace Grouped

section

variable (h : Grouped procs p_pgidp p_pglink pid_pglink)
include h

theorem eq_none_iff : pid_pglink a = none ↔ ∀ p ∈ procs, p_pgidp p ≠ some a := by
  obtain ⟨members, hmembers, hmem⟩ := h a
  rw [hmembers.start_eq, head?_eq_none_iff, eq_nil_iff_forall_not_mem]
  exact forall_congr' fun p => by rw [hmem, not_and]

theorem first (hp : pid_pglink a = some p) : p ∈ procs ∧ p_pgidp p = some a := by
  obtain ⟨members, hmembers, hmem⟩ := h a
  rw [hmembers.start_eq] at hp
  exact (hmem p).mp (mem_of_mem_head? hp)

theorem join (hp : p ∈ procs) (hnone : p_pgidp p = none) (a : Nat) :
    Grouped procs (update p_pgidp p (some a)) (update p_pglink p (pid_pglink a))
      (update pid_pglink a (some p)) := by
  intro b
  obtain ⟨members, hmembers, hmem⟩ := h b
  have hpm : p ∉ members := by
    rw [hmem, hnone]
    simp
  by_cases hb : b = a
  · subst hb
    refine ⟨p :: members, ?_, fun q => ?_⟩
    · rw [update_self]
      exact hmembers.push hpm
    · by_cases hq : q = p
      · subst hq
        simp [hp]
      · rw [mem_cons, or_iff_right hq, hmem, update_of_ne hq]
  · refine ⟨members, ?_, fun q => ?_⟩
    · rw [update_of_ne hb]
      exact hmembers.update_of_notMem hpm _
    · by_cases hq : q = p
      · subst hq
        simp [hpm, Ne.symm hb]
      · rw [hmem, update_of_ne hq]

theorem leave (hp : p ∈ procs) (ha : p_pgidp p = some a) :
    ∃ prev, Returns (fun fuel => findFrom p_pglink (· = p) fuel none (pid_pglink a)) (prev, p) ∧
      Grouped procs (update p_pgidp p none) (update (relinkNext prev p_pglink (p_pglink p)) p none)
        (update pid_pglink a (relinkStart prev (pid_pglink a) (p_pglink p))) := by
  obtain ⟨members, hmembers, hmem⟩ := h a
  obtain ⟨prev, hfind, hprev, hdetach⟩ := hmembers.detach ((hmem p).mpr ⟨hp, ha⟩)
  refine ⟨prev, hfind, fun b => ?_⟩
  by_cases hb : b = a
  · subst hb
    refine ⟨members.erase p, ?_, fun q => ?_⟩
    · rw [update_self]
      refine hdetach.update_of_notMem ?_ none
      rw [hmembers.nodup.mem_erase_iff]
      simp
    · rw [hmembers.nodup.mem_erase_iff, hmem]
      by_cases hq : q = p
      · subst hq
        simp
      · rw [update_of_ne hq]
        simp [hq]
  · obtain ⟨others, hothers, hmem'⟩ := h b
    have hpo : p ∉ others := by
      rw [hmem', ha]
      simp [Ne.symm hb]
    refine ⟨others, ?_, fun q => ?_⟩
    · rw [update_of_ne hb]
      refine Linked.update_of_notMem (hothers.congr fun q hq => relinkNext_of_ne fun hq' => hb ?_)
        hpo none
      have hqb := ((hmem' q).mp hq).2
      rw [((hmem q).mp (hprev q hq')).2] at hqb
      exact (Option.some.inj hqb).symm
    · by_cases hq : q = p
      · subst hq
        simp [hpo]
      · rw [hmem', update_of_ne hq]

theorem enter (hp : p ∉ procs) (ha : ∀ q ∈ procs, p_pgidp q ≠ some a) :
    Grouped (insert p procs) (update p_pgidp p none) (update p_pglink p none)
      (update pid_pglink a none) := by
  intro b
  obtain ⟨members, hmembers, hmem⟩ := h b
  have hpm : p ∉ members := fun hin => hp ((hmem p).mp hin).1
  refine ⟨members, ?_, fun q => ?_⟩
  · have hstart : update pid_pglink a none b = pid_pglink b := by
      by_cases hb : b = a
      · subst hb
        rw [update_self, h.eq_none_iff.mpr ha]
      · exact update_of_ne hb _ _
    rw [hstart]
    exact hmembers.update_of_notMem hpm none
  · by_cases hq : q = p
    · subst hq
      simp [hpm]
    · rw [hmem, update_of_ne hq, Finset.mem_insert, or_iff_right hq]

theorem exit (hnone : p_pgidp p = none) : Grouped (procs.erase p) p_pgidp p_pglink pid_pglink := by
  intro b
  obtain ⟨members, hmembers, hmem⟩ := h b
  refine ⟨members, hmembers, fun q => ?_⟩
  rw [hmem, Finset.mem_erase]
  refine ⟨fun hq => ⟨⟨?_, hq.1⟩, hq.2⟩, fun hq => ⟨hq.1.2, hq.2⟩⟩
  rintro rfl
  rw [hnone] at hq
  cases hq.2

end

end Grouped

/-! The process directory. -/

def slotNext (procdir : Nat → Procent) (i : Nat) : Option Nat :=
  match procdir i with
  | .next pe_next => pe_next
  | .proc _ => none

/-- Of the `n` slots, the ones that no process has are on the free list, and the others hold their
process. -/
structure Slotted (n : Nat) (procs : Finset Nat) (slot : Nat → Nat) (procdir : Nat → Procent)
    (procentfree : Option Nat) : Prop where
  free : ∃ cells, Linked (slotNext procdir) procentfree cells ∧
    ∀ i, i ∈ cells ↔ i < n ∧ ∀ p ∈ procs, slot p ≠ i
  next : ∀ i < n, (∀ p ∈ procs, slot p ≠ i) → ∃ link, procdir i = .next link
  used : ∀ p ∈ procs, slot p < n ∧ procdir (slot p) = .proc p

namespace Slotted

section

variable (h : Slotted n procs slot procdir procentfree)
include h

theorem slot_inj {q : Nat} (hp : p ∈ procs) (hq : q ∈ procs) (heq : slot p = slot q) : p = q := by
  have hpq := (h.used p hp).2
  rw [heq, (h.used q hq).2] at hpq
  exact (Procent.proc.inj hpq).symm

theorem card_le : procs.card ≤ n := by
  rw [← Finset.card_range n]
  refine Finset.card_le_card_of_injOn slot (fun p hp => ?_) fun p hp q hq => h.slot_inj hp hq
  exact Finset.mem_coe.mpr (Finset.mem_range.mpr (h.used p hp).1)

/-- The first free slot is given to a process. -/
theorem take (hfull : procs.card < n) (hp : p ∉ procs) :
    ∃ i link, procentfree = some i ∧ procdir i = .next link ∧
      ∀ slot', slot' p = i → (∀ q ∈ procs, slot' q = slot q) →
        Slotted n (insert p procs) slot' (update procdir i (.proc p)) link := by
  obtain ⟨cells, hcells, hmem⟩ := h.free
  cases cells with
  | nil =>
    -- every slot would be some process's
    have hsub : Finset.range n ⊆ procs.image slot := by
      intro i hi
      by_contra hnot
      refine not_mem_nil ((hmem i).mpr ⟨Finset.mem_range.mp hi, fun q hq heq => hnot ?_⟩)
      exact heq ▸ Finset.mem_image_of_mem slot hq
    have hcard := (Finset.card_le_card hsub).trans Finset.card_image_le
    rw [Finset.card_range] at hcard
    omega
  | cons i rest =>
    have hi := (hmem i).mp (.head _)
    obtain ⟨link, hlink⟩ := h.next i hi.1 hi.2
    have hrest : i ∉ rest := (nodup_cons.mp hcells.nodup).1
    refine ⟨i, link, hcells.1, hlink, fun slot' hslot' hslot => ?_⟩
    constructor
    · refine ⟨rest, ?_, fun j => ?_⟩
      · have hstart : link = slotNext procdir i := by
          rw [slotNext, hlink]
        rw [hstart]
        refine hcells.2.congr fun j hj => ?_
        rw [slotNext, update_of_ne (ne_of_mem_of_not_mem hj hrest), slotNext]
      · have hj := hmem j
        rw [mem_cons] at hj
        simp only [Finset.forall_mem_insert, hslot']
        constructor
        · intro hjrest
          have hjfree := hj.mp (.inr hjrest)
          refine ⟨hjfree.1, (ne_of_mem_of_not_mem hjrest hrest).symm, fun q hq => ?_⟩
          rw [hslot q hq]
          exact hjfree.2 q hq
        · rintro ⟨hlt, hne, hfree⟩
          have hcase := hj.mpr ⟨hlt, fun q hq => by rw [← hslot q hq]; exact hfree q hq⟩
          exact hcase.resolve_left fun heq => hne heq.symm
    · intro j hj hfree
      rw [Finset.forall_mem_insert, hslot'] at hfree
      rw [update_of_ne hfree.1.symm]
      exact h.next j hj fun q hq => by rw [← hslot q hq]; exact hfree.2 q hq
    · intro q hq
      rcases Finset.mem_insert.mp hq with rfl | hq
      · rw [hslot', update_self]
        exact ⟨hi.1, rfl⟩
      · rw [hslot q hq, update_of_ne (hi.2 q hq)]
        exact h.used q hq

/-- The slot of a process goes to the front of the free list. -/
theorem give (hp : p ∈ procs) :
    Slotted n (procs.erase p) slot (update procdir (slot p) (.next procentfree)) (some (slot p)) := by
  have hne : ∀ q ∈ procs.erase p, slot q ≠ slot p := fun q hq heq =>
    (Finset.mem_erase.mp hq).1 (h.slot_inj (Finset.mem_of_mem_erase hq) hp heq)
  constructor
  · obtain ⟨cells, hcells, hmem⟩ := h.free
    have hnot : slot p ∉ cells := fun hin => ((hmem _).mp hin).2 p hp rfl
    refine ⟨slot p :: cells, ⟨rfl, ?_⟩, fun i => ?_⟩
    · have hstart : slotNext (update procdir (slot p) (.next procentfree)) (slot p) = procentfree := by
        rw [slotNext, update_self]
      rw [hstart]
      refine hcells.congr fun j hj => ?_
      rw [slotNext, update_of_ne (ne_of_mem_of_not_mem hj hnot), slotNext]
    · rw [mem_cons, hmem]
      constructor
      · rintro (rfl | ⟨hlt, hfree⟩)
        · exact ⟨(h.used p hp).1, hne⟩
        · exact ⟨hlt, fun q hq => hfree q (Finset.mem_of_mem_erase hq)⟩
      · rintro ⟨hlt, hfree⟩
        by_cases hi : i = slot p
        · exact .inl hi
        refine .inr ⟨hlt, fun q hq => ?_⟩
        by_cases hqp : q = p
        · exact hqp ▸ Ne.symm hi
        · exact hfree q (Finset.mem_erase.mpr ⟨hqp, hq⟩)
  · intro i hlt hfree
    by_cases hi : i = slot p
    · exact ⟨procentfree, hi ▸ update_self _ _ _⟩
    rw [update_of_ne hi]
    refine h.next i hlt fun q hq => ?_
    by_cases hqp : q = p
    · exact hqp ▸ Ne.symm hi
    · exact hfree q (Finset.mem_erase.mpr ⟨hqp, hq⟩)
  · intro q hq
    rw [update_of_ne (hne q hq)]
    exact h.used q (Finset.mem_of_mem_erase hq)

end

end Slotted

/-! The active processes. -/

def Active (procs : Finset Nat) (p_next : Nat → Option Nat) (practive : Option Nat) : Prop :=
  ∃ cells, Linked p_next practive cells ∧ ∀ p, p ∈ cells ↔ p ∈ procs

namespace Active

theorem enter (h : Active procs p_next practive) (hp : p ∉ procs) :
    Active (insert p procs) (update p_next p practive) (some p) := by
  obtain ⟨cells, hcells, hmem⟩ := h
  refine ⟨p :: cells, hcells.push fun hin => hp ((hmem p).mp hin), fun q => ?_⟩
  rw [mem_cons, Finset.mem_insert, hmem]

theorem exit (h : Active procs p_next practive) (hp : p ∈ procs) :
    ∃ prev, Returns (fun fuel => findFrom p_next (· = p) fuel none practive) (prev, p) ∧
      Active (procs.erase p) (relinkNext prev p_next (p_next p))
        (relinkStart prev practive (p_next p)) := by
  obtain ⟨cells, hcells, hmem⟩ := h
  obtain ⟨prev, hfind, -, hdetach⟩ := hcells.detach ((hmem p).mpr hp)
  refine ⟨prev, hfind, cells.erase p, hdetach, fun q => ?_⟩
  rw [hcells.nodup.mem_erase_iff, hmem, Finset.mem_erase]

end Active

end Svr42.Proc
