import Svr42.SemAtomic

/-! `semop` verifies the operation array once, with the permissions, and copies it in again after
every sleep: which semaphores and operations it then comes to. -/

namespace Svr42.Sem
open Function List

variable {info : Seminfo} {s : State} {p base : Nat} {id : Int} {op : Sembuf}
  {ops done rest : List Sembuf}

/-! ### What the loop comes to -/

/-- The operations of `ops` that the loop of `semop` comes to; `done` are those before them, last
first. -/
def comesTo (info : Seminfo) (p : Nat) (id : Int) (base : Nat) :
    List Sembuf → List Sembuf → State → List Sembuf
  | _, [], _ => []
  | done, op :: rest, s =>
      let r := perform info p id base done [op] s
      op :: if r.2 = .ret none then comesTo info p id base (op :: done) rest r.1 else []

theorem perform_cons (done : List Sembuf) (op : Sembuf) (rest : List Sembuf) (s : State) :
    perform info p id base done (op :: rest) s =
      if (perform info p id base done [op] s).2 = .ret none then
        perform info p id base (op :: done) rest (perform info p id base done [op] s).1
      else perform info p id base done [op] s := by
  rcases hundo : undoOp info p op op.semOp id s with ⟨t, error⟩
  cases error with
  | none =>
    simp only [perform, hundo]
    split_ifs
    all_goals simp_all
  | some error =>
    simp only [perform, hundo]
    split_ifs
    all_goals simp_all

theorem perform_comesTo (ops done : List Sembuf) (s : State) :
    perform info p id base done (comesTo info p id base done ops s) s =
      perform info p id base done ops s := by
  induction ops generalizing done s with
  | nil => rfl
  | cons op rest ih =>
    rw [comesTo, perform_cons, perform_cons done op rest]
    split_ifs with hgoes
    · exact ih (op :: done) (perform info p id base done [op] s).1
    · rfl

/-- What `ipcaccess` answers to a call, for operations that alter a semaphore and for the others. -/
structure Access where
  mac : Bool → Bool
  dac : Bool → Bool

def alters (op : Sembuf) : Bool := decide (op.semOp ≠ 0)

inductive Answer where
  | denied
  | outcome (r : Outcome)

/-- The loop that verifies that the semaphores are in range and permissions are granted. -/
def verify (acc : Access) (semNsems : Nat) : List Sembuf → Option Answer
  | [] => none
  | op :: rest =>
      if acc.mac (alters op) = false ∨ acc.dac (alters op) = false then some .denied
      else if semNsems ≤ op.semNum then some (.outcome (.ret (some .efbig)))
      else verify acc semNsems rest

/-- An operation that a call comes to, of a set of `semNsems`. `granted`: operations of its kind have
been checked by the call. -/
structure Use where
  semNsems : Nat
  op : Sembuf
  granted : Bool

/-- `checked` are the kinds of operations that have been checked by the call of a process, `used` what
all calls have come to. -/
structure Trace where
  state : State
  checked : Nat → Bool → Bool
  used : List Use

/-- `attempt`, with what it comes to. -/
def record (info : Seminfo) (p i : Nat) (call : Call) (a : Trace) : Trace :=
  let sp := a.state.sema i
  let ops := comesTo info p call.semid sp.semBase [] call.sops a.state
  { state := (attempt info p i call a.state).1
    checked := a.checked
    used := a.used ++ ops.map fun op => ⟨sp.semNsems, op, a.checked p (alters op)⟩ }

def setChecked (p : Nat) (sops : List Sembuf) (a : Trace) : Trace :=
  { a with checked := update a.checked p fun kind => sops.any fun op => alters op = kind }

/-- `semop` with the permissions. -/
def semopAs (info : Seminfo) (acc : Access) (p : Nat) (call : Call) (a : Trace) : Trace × Answer :=
  match semconv info a.state call.semid with
  | none => (a, .outcome (.ret (some .einval)))
  | some i =>
      if info.semopm < call.sops.length then (a, .outcome (.ret (some .e2big)))
      else if call.sops.length = 0 then (a, .outcome (.ret (some .enomem)))
      else
        match verify acc (a.state.sema i).semNsems call.sops with
        | some answer => (a, answer)
        | none =>
            (record info p i call (setChecked p call.sops a),
              .outcome (attempt info p i call a.state).2)

/-- `resume`, with what it comes to. -/
def resumeAs (info : Seminfo) (p : Nat) (call : Call) (sops : Option (List Sembuf)) (a : Trace) : Trace :=
  match semconv info a.state call.semid, sops with
  | some i, some sops => record info p i { call with sops := sops } a
  | _, _ => { a with state := (resume info p call sops a.state).1 }

variable {acc : Access}

/-- With every permission granted these are the calls without the permissions. -/
theorem semopAs_granted (hmac : ∀ kind, acc.mac kind = true) (hdac : ∀ kind, acc.dac kind = true)
    (p : Nat) (call : Call) (a : Trace) :
    (semopAs info acc p call a).1.state = (semop info p call a.state).1 ∧
      (semopAs info acc p call a).2 = .outcome (semop info p call a.state).2 := by
  have hverify : ∀ (semNsems : Nat) (ops : List Sembuf), verify acc semNsems ops =
      if ∃ op ∈ ops, semNsems ≤ op.semNum then some (.outcome (.ret (some .efbig))) else none := by
    intro semNsems ops
    induction ops with
    | nil => simp [verify]
    | cons op rest ih =>
      rw [verify, hmac, hdac, if_neg (by simp), ih]
      by_cases hrange : semNsems ≤ op.semNum
      · simp [hrange]
      · simp [hrange]
  unfold semopAs semop
  cases semconv info a.state call.semid with
  | none => exact ⟨rfl, rfl⟩
  | some i =>
    dsimp only
    rw [hverify]
    split_ifs
    · exact ⟨rfl, rfl⟩
    · exact ⟨rfl, rfl⟩
    · exact ⟨rfl, rfl⟩
    · exact ⟨rfl, rfl⟩

theorem resumeAs_state (info : Seminfo) (p : Nat) (call : Call) (sops : Option (List Sembuf))
    (a : Trace) : (resumeAs info p call sops a).state = (resume info p call sops a.state).1 := by
  unfold resumeAs resume
  cases semconv info a.state call.semid with
  | none => rfl
  | some i =>
    cases sops with
    | none => rfl
    | some sops => rfl

/-! ### Runs -/

def unused (s : State) : Trace := ⟨s, fun _ _ => false, []⟩

variable {semmap : Resmap.RMap} {deeds : List Deed} {a : Trace}

end Svr42.Sem
