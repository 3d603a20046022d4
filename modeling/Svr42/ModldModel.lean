import Mathlib.Logic.Function.Basic
import Svr42.RunExec

/-! The loading of kernel modules: `modld`, with `mod_obj_load`, `mod_obj_dodep` and
`mod_obj_unload` as far as they touch other modules. A process runs from one place where it may sleep
to the next in one step. -/

namespace Svr42.Modld
open Function

inductive Errno where
  | einval
  | other (code : Nat)
  deriving DecidableEq, Repr

/-- What the links of the unload list lead to: its head `modunload`, or a module. -/
inductive Uld (Ptr : Type) where
  | head
  | mod (mp : Ptr)
  deriving DecidableEq, Repr

/-- `mdMcl` are the modules of `mod_mp->md_mcl`. -/
structure Modctl (Ptr Name Proc : Type) where
  modName : Name
  modPrf : Bool
  modLoading : Bool
  modUnloading : Bool
  modSymtabok : Bool
  modInprogress : Option Proc
  modDepcnt : Int
  modRefcnt : Int
  modId : Nat
  mdMcl : List Ptr

/-- How far a call of `modld` has come. -/
inductive Point (Ptr Name : Type) where
  /-- The list is about to be searched. -/
  | again
  /-- In `sleep(&mp->mod_sv, PZERO)`. -/
  | asleep (mp : Ptr)
  /-- On the list, in `mod_obj_load`, before the dependents are known. -/
  | load
  /-- In `mod_obj_dodep`, with these dependents still to load. -/
  | dodep (rest : List Name)
  /-- There is a dependent to note down. -/
  | record (mp : Ptr) (rest : List Name)
  /-- In what `modld` does with the dependents loaded. -/
  | finish
  /-- On the way to `errout4`. -/
  | bad (error : Errno)
  /-- In `modunld`, as the stubs could not be installed. -/
  | stubs (error : Errno)
  deriving DecidableEq

/-- A call of `modld`; a process is in the innermost one. -/
structure Frame (Ptr Name : Type) where
  modp : Ptr
  name : Name
  point : Point Ptr Name
  deriving DecidableEq

structure Mods (Ptr Name Proc : Type) where
  modhead : List Ptr
  modctl : Ptr → Modctl Ptr Name Proc
  used : Ptr → Bool
  nUld : Uld Ptr → Option (Uld Ptr)
  pUld : Uld Ptr → Option (Uld Ptr)
  lastModuleId : Nat
  stack : Proc → List (Frame Ptr Name)
  result : Proc → Option (Except Errno Ptr)

/-- The dependents listed in the object file of every module, and the modules built in. -/
structure Files (Name : Type) where
  dependents : Name → List Name
  modStatic : Name → Bool

variable {Ptr Name Proc : Type} [DecidableEq Ptr] [DecidableEq Name] [DecidableEq Proc]

/-- `none` is a null pointer followed. -/
def recover (s : Mods Ptr Name Proc) (mp : Ptr) : Option (Mods Ptr Name Proc) :=
  (s.pUld (.mod mp)).bind fun p => (s.nUld (.mod mp)).map fun n =>
    { s with
      nUld := update (update s.nUld p (some n)) (.mod mp) none
      pUld := update (update s.pUld n (some p)) (.mod mp) none }

/-- `UNLOAD` -/
def unload (s : Mods Ptr Name Proc) (mp : Ptr) : Option (Mods Ptr Name Proc) :=
  (s.pUld .head).map fun last =>
    { s with
      nUld := update (update s.nUld (.mod mp) (some .head)) last (some (.mod mp))
      pUld := update (update s.pUld (.mod mp) (some last)) .head (some (.mod mp)) }

def modbusy (c : Modctl Ptr Name Proc) : Prop :=
  c.modDepcnt ≠ 0 ∨ c.modRefcnt ≠ 0 ∨ c.modPrf = true

instance (c : Modctl Ptr Name Proc) : Decidable (modbusy c) := inferInstanceAs (Decidable (_ ∨ _ ∨ _))

/-! ### Modules and calls -/

def setModctl (s : Mods Ptr Name Proc) (mp : Ptr) (c : Modctl Ptr Name Proc) : Mods Ptr Name Proc :=
  { s with modctl := update s.modctl mp c }

def moveTop (point : Point Ptr Name) : List (Frame Ptr Name) → List (Frame Ptr Name)
  | [] => []
  | f :: fs => { f with point := point } :: fs

def goTo (s : Mods Ptr Name Proc) (p : Proc) (point : Point Ptr Name) : Mods Ptr Name Proc :=
  { s with stack := update s.stack p (moveTop point (s.stack p)) }

/-- `modld` up to its search: a new `modctl` for the name. -/
def begin (s : Mods Ptr Name Proc) (p : Proc) (name : Name) (modp : Ptr) : Mods Ptr Name Proc :=
  { s with
    modctl := update s.modctl modp
      { modName := name
        modPrf := false
        modLoading := true
        modUnloading := false
        modSymtabok := false
        modInprogress := some p
        modDepcnt := 0
        modRefcnt := 0
        modId := 0
        mdMcl := [] }
    used := update s.used modp true
    stack := update s.stack p (⟨modp, name, .again⟩ :: s.stack p) }

def freeModp (s : Mods Ptr Name Proc) (modp : Ptr) : Mods Ptr Name Proc :=
  { s with used := update s.used modp false }

/-- `wakeup(&mp->mod_sv)` -/
def wakeFrame (mp : Ptr) (f : Frame Ptr Name) : Frame Ptr Name :=
  match f.point with
  | .asleep sv => if sv = mp then { f with point := .again } else f
  | _ => f

def wakeup (s : Mods Ptr Name Proc) (mp : Ptr) : Mods Ptr Name Proc :=
  { s with stack := fun p => (s.stack p).map (wakeFrame mp) }

def Point.rest : Point Ptr Name → List Name
  | .dodep rest => rest
  | _ => []

/-- `modld` returns: `mod_obj_dodep` counts the dependent or gives up, or the call was from
elsewhere. -/
def ret (s : Mods Ptr Name Proc) (p : Proc) (r : Except Errno Ptr) : Mods Ptr Name Proc :=
  match (s.stack p).tail with
  | [] => { s with stack := update s.stack p [], result := update s.result p (some r) }
  | f :: fs =>
      match r with
      | .ok mp =>
          { s with
            modctl := update s.modctl mp
              { s.modctl mp with modDepcnt := (s.modctl mp).modDepcnt + 1 }
            stack := update s.stack p ({ f with point := .record mp f.point.rest } :: fs) }
      | .error _ =>
          { s with stack := update s.stack p ({ f with point := .bad .einval } :: fs) }

/-- `mod_obj_unload`: the modules it depends on are told. -/
def modObjUnload : List Ptr → Mods Ptr Name Proc → Option (Mods Ptr Name Proc)
  | [], s => some s
  | dep :: deps, s =>
      let s := setModctl s dep { s.modctl dep with modDepcnt := (s.modctl dep).modDepcnt - 1 }
      if modbusy (s.modctl dep) then modObjUnload deps s
      else (unload s dep).bind (modObjUnload deps)

/-- The end of a module: it is taken off the lists, those that wait for it are woken, and its
`modctl` is freed. -/
def unlink (s : Mods Ptr Name Proc) (modp : Ptr) : Option (Mods Ptr Name Proc) :=
  (modObjUnload (s.modctl modp).mdMcl s).bind fun s =>
    let s := { s with modhead := s.modhead.erase modp }
    (if s.nUld (.mod modp) = none then some s else recover s modp).map fun s =>
      freeModp (wakeup s modp) modp

/-! ### The steps of a process -/

/-- What may come of the object file, of `_load`, `mod_connect` and the stubs. -/
inductive Outcome where
  | good
  | fails (error : Errno)
  | stubsFail (error : Errno)
  deriving DecidableEq, Repr

inductive Event (Ptr Name Proc : Type) where
  /-- `modld` is called from elsewhere. -/
  | call (p : Proc) (name : Name) (modp : Ptr)
  /-- The process goes on, with memory for a `modctl` if it needs some, and what becomes of what it
  does. -/
  | run (p : Proc) (modp : Ptr) (outcome : Outcome)

/-- The search of the list, and what follows from it. -/
def search (s : Mods Ptr Name Proc) (p : Proc) (f : Frame Ptr Name) : Mods Ptr Name Proc :=
  match s.modhead.find? fun mp => (s.modctl mp).modName = f.name with
  | some mp =>
      if (s.modctl mp).modInprogress = some p then
        -- `MOD_CIRCDEP`
        ret (freeModp s f.modp) p (.error .einval)
      else if (s.modctl mp).modLoading = true ∨ (s.modctl mp).modUnloading = true then
        goTo s p (.asleep mp)
      else ret (freeModp s f.modp) p (.ok mp)
  | none =>
      goTo
        { setModctl s f.modp { s.modctl f.modp with modId := s.lastModuleId + 1 } with
          modhead := s.modhead ++ [f.modp]
          lastModuleId := s.lastModuleId + 1 } p .load

/-- What `modld` does once the dependents are loaded. -/
def finish (s : Mods Ptr Name Proc) (p : Proc) (f : Frame Ptr Name) (outcome : Outcome) :
    Mods Ptr Name Proc :=
  match outcome with
  | .good =>
      ret (wakeup (setModctl s f.modp
        { s.modctl f.modp with
          modInprogress := none
          modLoading := false
          modSymtabok := true }) f.modp) p (.ok f.modp)
  | .fails error => goTo s p (.bad error)
  | .stubsFail error =>
      goTo (setModctl s f.modp
        { s.modctl f.modp with
          modLoading := false
          modUnloading := true }) p (.stubs error)

/-- A process in `modld` goes on; one that sleeps on a module does not. -/
def proceed (files : Files Name) (s : Mods Ptr Name Proc) (p : Proc) (f : Frame Ptr Name) (modp : Ptr)
    (outcome : Outcome) : Option (Mods Ptr Name Proc) :=
  match f.point with
  | .again => some (search s p f)
  | .asleep _ => none
  | .load =>
      match outcome with
      | .good => some (goTo s p (.dodep (files.dependents f.name)))
      | .fails error => some (goTo s p (.bad error))
      | .stubsFail _ => none
  | .dodep [] => some (goTo s p .finish)
  | .dodep (name :: rest) =>
      if files.modStatic name = true then some (goTo s p (.dodep rest))
      else if s.used modp = true then none
      else some (begin (goTo s p (.dodep rest)) p name modp)
  | .record mp rest =>
      some (goTo (setModctl s f.modp
        { s.modctl f.modp with mdMcl := mp :: (s.modctl f.modp).mdMcl }) p (.dodep rest))
  | .finish => some (finish s p f outcome)
  | .bad error => (unlink s f.modp).map fun s => ret s p (.error error)
  | .stubs error => (unlink s f.modp).map fun s => ret s p (.error error)

def step (files : Files Name) (s : Mods Ptr Name Proc) :
    Event Ptr Name Proc → Option (Mods Ptr Name Proc)
  | .call p name modp =>
      if s.stack p ≠ [] ∨ s.used modp = true then none
      else if files.modStatic name = true then
        some { s with result := update s.result p (some (.error .einval)) }
      else some (begin s p name modp)
  | .run p modp outcome => (s.stack p).head?.bind fun f => proceed files s p f modp outcome

/-- No module is loaded. -/
def initial [Inhabited Name] : Mods Ptr Name Proc :=
  { modhead := []
    modctl := fun _ =>
      { modName := default
        modPrf := false
        modLoading := false
        modUnloading := false
        modSymtabok := false
        modInprogress := none
        modDepcnt := 0
        modRefcnt := 0
        modId := 0
        mdMcl := [] }
    used := fun _ => false
    nUld := update (fun _ => none) .head (some .head)
    pUld := update (fun _ => none) .head (some .head)
    lastModuleId := 0
    stack := fun _ => []
    result := fun _ => none }

end Svr42.Modld
