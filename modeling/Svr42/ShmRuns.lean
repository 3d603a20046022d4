import Svr42.RunExec
import Svr42.ShmProcs

/-! Every interleaving of the shared memory calls with `fork`, `vfork`, `exec`, `exit` and `munmap`. -/

namespace Svr42.Shm
open List Option

variable {P I S A : Type} [DecidableEq P] [DecidableEq I] [DecidableEq S] [DecidableEq A]
  [Fintype P] [Fintype I] [Fintype S] {info : ShmInfo} {s t : State P I S A} {p cp pp : P} {as : S}
  {sp : I} {addr size : Nat} {pc : Pc P I S A} {proc : Proc P I S A}

omit [DecidableEq I] in
theorem inv_boot (init : P) (as : S) : Inv (boot init as : State P I S A) := by
  have hpc : ∀ p, ((boot init as : State P I S A).proc p).pc = .user ∨
      ((boot init as : State P I S A).proc p).pc = .slot ∧
        ((boot init as : State P I S A).proc p).pAs = none := by
    intro p
    by_cases hp : p = init
    · exact .inl (if_pos hp)
    · exact .inr ⟨if_neg hp, if_neg hp⟩
  have hspaces : ∀ p x, x ∈ ((boot init as : State P I S A).proc p).spaces → p = init ∧ x = as := by
    intro p x hx
    unfold Proc.spaces boot at hx
    by_cases hp : p = init
    · simp only [if_pos hp] at hx
      exact ⟨hp, mem_singleton.mp hx⟩
    · simp only [if_neg hp] at hx
      cases hx
  refine ⟨fun a => ?_, fun i j a hi => absurd hi (some_ne_none a).symm, ⟨fun p => ?_,
    fun p q x hp hq => ?_, fun p x hx => ?_, fun _ _ => rfl⟩, ⟨fun p c hp => ?_, fun p q c hp => ?_⟩,
    fun p x _ seg hseg => absurd hseg not_mem_nil, fun p => List.Pairwise.nil, fun p _ _ => rfl,
    fun p => ?_⟩
  · have hzero : refs (boot init as : State P I S A) a = 0 := by
      have hnone : identifiers (boot init as : State P I S A) a = 0 :=
        identifiers_none fun i hi => absurd hi (some_ne_none a).symm
      have hrecords : records (boot init as : State P I S A) a = 0 := Finset.sum_eq_zero fun _ _ => rfl
      have hmappings : mappings (boot init as : State P I S A) a = 0 := Finset.sum_eq_zero fun _ _ => rfl
      rw [refs, hnone, hrecords, hmappings]
    rw [hzero]
    rfl
  · unfold Proc.spaces boot
    by_cases hp : p = init
    · simp only [if_pos hp]
      exact nodup_singleton as
    · simp only [if_neg hp]
      exact nodup_nil
  · rw [(hspaces p x hp).1, (hspaces q x hq).1]
  · rw [(hspaces p x hx).2]
    exact decide_eq_true rfl
  · rcases hpc p with huser | ⟨hslot, -⟩
    · rw [huser] at hp
      cases hp
    · rw [hslot] at hp
      cases hp
  · rcases hpc p with huser | ⟨hslot, -⟩
    · rw [huser] at hp
      cases hp
    · rw [hslot] at hp
      cases hp
  · unfold Settled
    rcases hpc p with huser | ⟨hslot, hnone⟩
    · rw [huser]
      trivial
    · rw [hslot]
      exact ⟨rfl, hnone⟩

/-- The steps that keep the books: no process comes to `shmexit` with attach records while it has
asynchronous requests outstanding, and none that has its parent's address space comes to `exec` with
attach records. -/
def Keeps (s : State P I S A) : Event P I S A → Prop
  | .shmexit p => s.pAiocount p = 0 ∨ (s.proc p).pSegacct = []
  | .exec p => (s.proc p).svfork = true → (s.proc p).pSegacct = []
  | _ => True

def Steps (info : ShmInfo) (s : State P I S A) (event : Event P I S A) (t : State P I S A) : Prop :=
  step info s event = some t

theorem inv_step {event : Event P I S A} (h : Inv s) (hkeeps : Keeps s event)
    (hstep : Steps info s event t) : Inv t := by
  cases event with
  | shmget sp a size => exact shmget_inv h hstep
  | shmRmid sp => exact shmRmid_inv h hstep
  | shmat p sp addr => exact shmat_inv h hstep
  | shmatEnd p => exact shmatEnd_inv h hstep
  | shmdt p addr => exact shmdt_inv h hstep
  | munmap p addr size => exact munmap_inv h hstep
  | asUnmap p => exact asUnmap_inv h hstep
  | unmapEnd p => exact unmapEnd_inv h hstep
  | fork p cp newas => exact fork_inv h hstep
  | asDup p => exact asDup_inv h hstep
  | asDupFail p => exact asDupFail_inv h hstep
  | asUndup p => exact asUndup_inv h hstep
  | vfork p cp => exact vfork_inv h hstep
  | shmfork p => exact shmfork_inv h hstep
  | exit p => exact exit_inv h hstep
  | exec p => exact exec_inv h hkeeps hstep
  | shmexit p => exact shmexit_inv h hkeeps hstep
  | relvm p => exact relvm_inv h hstep
  | relvmVfork p pp => exact relvmVfork_inv h hstep
  | freeproc p => exact freeproc_inv h hstep
  | execEnd p nas => exact execEnd_inv h hstep
  | aio p count =>
    obtain rfl := some.inj hstep
    exact h.setAio p count

instance (s : State P I S A) (event : Event P I S A) : Decidable (Keeps s event) :=
  match event with
  | .shmexit p => inferInstanceAs (Decidable (s.pAiocount p = 0 ∨ (s.proc p).pSegacct = []))
  | .exec p => inferInstanceAs (Decidable ((s.proc p).svfork = true → (s.proc p).pSegacct = []))
  | .shmget _ _ _ | .shmRmid _ | .shmat _ _ _ | .shmatEnd _ | .shmdt _ _ | .munmap _ _ _
  | .asUnmap _ | .unmapEnd _ | .fork _ _ _ | .asDup _ | .asDupFail _ | .asUndup _ | .vfork _ _
  | .shmfork _ | .exit _ | .relvm _ | .relvmVfork _ _ | .freeproc _ | .execEnd _ _ | .aio _ _ =>
      isTrue trivial

/-- What is promised about an `anon_map` that has been allocated. -/
structure Counted (s : State P I S A) (a : A) : Prop where
  refcnt : (s.amps a).refcnt =
    1 + (identifiers s a : Int) + (records s a : Int) + (mappings s a : Int)
  freed : (s.amps a).frees =
    if identifiers s a = 0 ∧ records s a = 0 ∧ mappings s a = 0 then 1 else 0

omit [DecidableEq P] [DecidableEq I] [DecidableEq S] in
theorem counted_of_tallied {a : A} (h : Tallied (s.amps a) (refs s a)) (hused : (s.amps a).used = true) :
    Counted s a := by
  rw [Tallied, if_pos hused] at h
  obtain ⟨hcount, hfrees⟩ := h
  unfold refs at hcount hfrees
  constructor
  · rw [hcount]
    push_cast
    omega
  · rw [hfrees]
    refine if_congr ?_ rfl rfl
    omega

/-- In every run whose steps all keep the books, every `anon_map` is counted and freed as it should
be. -/
theorem anon_map_counted {init : P} {events : List (Event P I S A)} {a : A}
    (hrun : Exec (Guarded (Steps info) Keeps) (boot init as) events s) (hused : (s.amps a).used = true) :
    Counted s a := by
  have hinv : Inv s := hrun.keeps Inv (fun s event t h hstep => inv_step h hstep.1 hstep.2)
    (inv_boot init as)
  exact counted_of_tallied (hinv.counts a) hused

omit [Fintype P] [Fintype I] [Fintype S] in
/-- A run that has been computed, with the steps checked. -/
theorem guarded_of_foldlM {events : List (Event P I S A)}
    (h : events.foldlM (fun s event => if Keeps s event then step info s event else none) s = some t) :
    Exec (Guarded (Steps info) Keeps) s events t := by
  refine (Exec.of_foldlM h).mono fun s event t hstep => ?_
  split_ifs at hstep with hkeeps
  exact ⟨hkeeps, hstep⟩

/-! ### Runs of one process and its child -/

def bootInfo : ShmInfo := { shmmin := 1, shmmax := 0x100000, shmseg := 6 }

/-- The last reference to go is a record. -/
def detachRun : List (Event Bool Unit Bool Unit) :=
  [.shmget () () 0x2000, .shmat false () 16, .shmatEnd false, .fork false true true,
    .asDup false, .asDup false, .shmfork false, .shmfork false, .munmap true 16 1, .asUnmap true,
    .unmapEnd true, .shmRmid (), .exit true, .shmexit true, .asUnmap true, .unmapEnd true,
    .shmexit true, .shmdt false 16, .asUnmap false, .unmapEnd false]

theorem anon_map_counted_detached : ∃ s : State Bool Unit Bool Unit,
    Exec (Guarded (Steps bootInfo) Keeps) (boot false false) detachRun s ∧ (s.amps ()).frees = 1 ∧
      Counted s () := by
  have hrun : Exec (Guarded (Steps bootInfo) Keeps) (boot false false) detachRun _ := guarded_of_foldlM rfl
  exact ⟨_, hrun, rfl, anon_map_counted hrun rfl⟩

/-- A process that has asynchronous requests outstanding exits: `shmexit` deletes its record, and
nothing is taken off the count for it. -/
def exitRun : List (Event Bool Unit Bool Unit) :=
  [.shmget () () 0x1000, .shmat false () 16, .shmatEnd false, .shmRmid (), .aio false 1,
    .exit false, .shmexit false, .shmexit false, .relvm false, .relvm false, .freeproc false]

/-- The child of a `vfork` calls `exec` and exits: its record is forgotten with its slot. -/
def execRun : List (Event Bool Unit Bool Unit) :=
  [.shmget () () 0x1000, .shmat false () 16, .shmatEnd false, .vfork false true, .shmfork false,
    .shmfork false, .exec true, .relvmVfork true false, .execEnd true true, .exit true,
    .relvm true, .freeproc true, .shmRmid (), .shmdt false 16, .asUnmap false, .unmapEnd false,
    .vfork false true]

/-- In the end nothing refers to the `anon_map`, and it has not been freed. -/
theorem anon_map_leaks :
    (∃ s : State Bool Unit Bool Unit, Exec (Steps bootInfo) (boot false false) exitRun s ∧
      (s.amps ()).used = true ∧ ¬ Counted s ()) ∧
    ∃ s : State Bool Unit Bool Unit, Exec (Steps bootInfo) (boot false false) execRun s ∧
      (s.amps ()).used = true ∧ ¬ Counted s () := by
  constructor
  · refine ⟨_, Exec.of_foldlM rfl, rfl, fun h => ?_⟩
    exact absurd h.freed (by decide)
  · refine ⟨_, Exec.of_foldlM rfl, rfl, fun h => ?_⟩
    exact absurd h.freed (by decide)

end Svr42.Shm
