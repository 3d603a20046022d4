import Mathlib.Data.List.Basic

/-! The linkages of a kernel module: `modld` and `modunld`, with `mod_connect` and `mod_disconn`, as one
process finds them that nobody disturbs. -/

namespace Svr42.ModLinks
open Function

def EBUSY : Nat := 16

def EINVAL : Nat := 22

def ENOSYS : Nat := 89

def EBADVER : Nat := 156

/-- A `modctl`, with `md_mcl` of its `mod_mp`. `modInprogress` says that the caller is the
`mod_inprogress_thread`. -/
structure Modctl (Name : Type) where
  modPrf : Bool
  modLoading : Bool
  modUnloading : Bool
  modDemand : Bool
  modSymtabok : Bool
  modInprogress : Bool
  modDepcnt : Int
  modRefcnt : Int
  mdMcl : List Name
  deriving DecidableEq

/-- `linked` says which linkages of a module are in the switch tables. -/
structure Kernel (Name : Type) where
  modInitialized : Bool
  modhead : List Name
  modctl : Name → Modctl Name
  linked : Name → Nat → Bool

/-- What a module has in its object file, and what its routines answer, 0 if all is well. There may be no
`_load` or `_unload`; `links` is the number of linkages. -/
structure Module (Name : Type) where
  dependents : List Name
  readError : Nat
  relocError : Nat
  mwRevOk : Bool
  mwLoad : Option Nat
  mwUnload : Option Nat
  links : Nat
  install : Nat → Nat
  remove : Nat → Nat
  stubs : Nat

variable {Name : Type} [DecidableEq Name]

/-! ### Linkages -/

/-- The clean up in `mod_connect`: `MODL_REMOVE` for `todo` linkages from `linkp1` on. -/
def cleanUp (m : Module Name) : Nat → Nat → (Nat → Bool) → Nat → Bool
  | 0, _, linked => linked
  | todo + 1, linkp1, linked =>
      cleanUp m todo (linkp1 + 1)
        (if m.remove linkp1 = 0 then update linked linkp1 false else linked)

/-- The loop of `mod_connect`, with `todo` linkages from `linkp` on. -/
def connectLoop (m : Module Name) : Nat → Nat → (Nat → Bool) → Nat × (Nat → Bool)
  | 0, _, linked => (0, linked)
  | todo + 1, linkp, linked =>
      if m.install linkp ≠ 0 then (m.install linkp, cleanUp m linkp 0 linked)
      else connectLoop m todo (linkp + 1) (update linked linkp true)

def modConnect (m : Module Name) (linked : Nat → Bool) : Nat × (Nat → Bool) :=
  connectLoop m m.links 0 linked

def modbusy (c : Modctl Name) : Prop := c.modDepcnt ≠ 0 ∨ c.modRefcnt ≠ 0 ∨ c.modPrf = true

instance (c : Modctl Name) : Decidable (modbusy c) := inferInstanceAs (Decidable (_ ∨ _ ∨ _))

/-- The loop of `mod_disconn`. -/
def disconnLoop (m : Module Name) : Nat → Nat → (Nat → Bool) → Nat × (Nat → Bool)
  | 0, _, linked => (0, linked)
  | todo + 1, linkp, linked =>
      if m.remove linkp ≠ 0 then (m.remove linkp, linked)
      else disconnLoop m todo (linkp + 1) (update linked linkp false)

def modDisconn (m : Module Name) (c : Modctl Name) (linked : Nat → Bool) : Nat × (Nat → Bool) :=
  if modbusy c then (EBUSY, linked) else disconnLoop m m.links 0 linked

/-! ### Modules -/

def setModctl (s : Kernel Name) (name : Name) (c : Modctl Name) : Kernel Name :=
  { s with modctl := update s.modctl name c }

def setLinked (s : Kernel Name) (name : Name) (linked : Nat → Bool) : Kernel Name :=
  { s with linked := update s.linked name linked }

/-- `mod_obj_unload`, as far as other modules notice. -/
def modObjUnload : List Name → Kernel Name → Kernel Name
  | [], s => s
  | dep :: deps, s =>
      modObjUnload deps
        (setModctl s dep { s.modctl dep with modDepcnt := (s.modctl dep).modDepcnt - 1 })

/-- The memory of a module and its `modctl` are freed, and it is taken off the list. -/
def discard (s : Kernel Name) (name : Name) : Kernel Name :=
  let s := modObjUnload (s.modctl name).mdMcl s
  { s with modhead := s.modhead.erase name }

def stayLoaded (s : Kernel Name) (name : Name) : Kernel Name :=
  setModctl s name { s.modctl name with modUnloading := false }

/-- `modunld`; there is no answer if it ends in a panic. -/
def modunld (m : Module Name) (name : Name) (s : Kernel Name) : Option (Nat × Kernel Name) :=
  if (s.modctl name).modDemand = true then some (EBUSY, stayLoaded s name)
  else
    let r := modDisconn m (s.modctl name) (s.linked name)
    let s := setLinked s name r.2
    if r.1 ≠ 0 then some (r.1, stayLoaded s name)
    else
      let retval := m.mwUnload.getD 0
      if retval ≠ 0 then
        let r := modConnect m (s.linked name)
        if r.1 ≠ 0 then none else some (retval, stayLoaded (setLinked s name r.2) name)
      else some (0, discard s name)

/-- A new `modctl` at the end of the list. -/
def enter (s : Kernel Name) (name : Name) : Kernel Name :=
  { setModctl s name
      { modPrf := false
        modLoading := true
        modUnloading := false
        modDemand := false
        modSymtabok := false
        modInprogress := true
        modDepcnt := 0
        modRefcnt := 0
        mdMcl := [] } with
    modhead := s.modhead ++ [name] }

def record (s : Kernel Name) (name dep : Name) : Kernel Name :=
  let s := setModctl s dep { s.modctl dep with modDepcnt := (s.modctl dep).modDepcnt + 1 }
  setModctl s name { s.modctl name with mdMcl := dep :: (s.modctl name).mdMcl }

/-- `mod_obj_dodep` for the module `name`, given what `modld` does; the error is -1. -/
def modObjDodep (modStatic : Name → Bool) (modld : Name → Kernel Name → Option (Nat × Kernel Name))
    (name : Name) : List Name → Kernel Name → Option (Bool × Kernel Name)
  | [], s => some (true, s)
  | dependent :: rest, s =>
      if modStatic dependent = true then modObjDodep modStatic modld name rest s
      else
        match modld dependent s with
        | none => none
        | some (retval, s) =>
            if retval ≠ 0 then some (false, s)
            else modObjDodep modStatic modld name rest (record s name dependent)

/-- `mod_obj_load` before its clean up: what it answers, and what there is to clean up. -/
def modObjLoad (modStatic : Name → Bool) (modld : Name → Kernel Name → Option (Nat × Kernel Name))
    (m : Module Name) (name : Name) (s : Kernel Name) : Option (Nat × Kernel Name) :=
  if m.readError ≠ 0 then some (m.readError, s)
  else
    match modObjDodep modStatic modld name m.dependents s with
    | none => none
    | some (false, s) => some (EINVAL, s)
    | some (true, s) => some (m.relocError, s)

/-- `modld` from where the module has been loaded into memory. -/
def attach (m : Module Name) (name : Name) (s : Kernel Name) : Option (Nat × Kernel Name) :=
  if m.mwRevOk = false then some (EBADVER, discard s name)
  else if m.mwLoad.getD 0 ≠ 0 then some (m.mwLoad.getD 0, discard s name)
  else
    let r := modConnect m (s.linked name)
    let s := setLinked s name r.2
    -- what `_unload` answers is ignored
    if r.1 ≠ 0 then some (r.1, discard s name)
    else if m.stubs ≠ 0 then
      match modunld m name (setModctl s name
        { s.modctl name with
          modLoading := false
          modUnloading := true
          modSymtabok := true }) with
      | none => none
      | some (retval, s) => if retval ≠ 0 then none else some (m.stubs, s)
    else
      some (0, setModctl s name
        { s.modctl name with
          modLoading := false
          modInprogress := false
          modSymtabok := true })

/-- `modld`, for calls no more than this deep in each other. There is no answer if it ends in a panic,
or sleeps. -/
def modld (files : Name → Module Name) (modStatic : Name → Bool) :
    Nat → Name → Kernel Name → Option (Nat × Kernel Name)
  | 0, _, _ => none
  | fuel + 1, name, s =>
      if s.modInitialized = false then some (ENOSYS, s)
      else if modStatic name = true then some (EINVAL, s)
      else if name ∈ s.modhead then
        -- `MOD_CIRCDEP`
        if (s.modctl name).modInprogress = true then some (EINVAL, s)
        else if (s.modctl name).modLoading = true ∨ (s.modctl name).modUnloading = true then none
        else some (0, s)
      else
        match modObjLoad modStatic (modld files modStatic fuel) (files name) name (enter s name) with
        | none => none
        | some (retval, s) =>
            if retval ≠ 0 then some (retval, discard s name)
            else attach (files name) name s

end Svr42.ModLinks
