import Svr42.RefTrace

/-! The calls that change directories by name: `vn_link`, `vn_rename`, `vn_remove` and `vn_create`, over
whatever the lookups, the checks and the file systems answer. An answer of 0 is success. -/

namespace Svr42.Vn

def ENOENT : Nat := 2
def EACCES : Nat := 13
def EAGAIN : Nat := 11
def EBUSY : Nat := 16
def EEXIST : Nat := 17
def EXDEV : Nat := 18
def ENOTDIR : Nat := 20
def EINVAL : Nat := 22
def EROFS : Nat := 30

inductive Vtype where
  | vreg
  | vdir
  | vblk
  | vchr
  | other
  deriving DecidableEq, Repr

/-- The vnode operations that change a directory -/
inductive Vop where
  | link
  | rename
  | remove
  | rmdir
  | create
  | mkdir
  | makemld
  deriving DecidableEq, Repr

/-- What is read of the vnodes; `rdonly` is that of the file system a vnode is in. -/
structure Vnodes (V : Type) where
  vType : V → Vtype
  vVfsp : V → Nat
  rdonly : V → Bool
  vroot : V → Bool

variable {V : Type}

def rele : Option V → List (Call V Vop)
  | none => []
  | some vp => [.rele vp]

/-! ### `vn_link` -/

/-- What `vn_link` is answered; `macFrom` and `macTo` are the checks of the file and of the directory. -/
structure LinkAnswers (V : Type) where
  pnGet : Nat
  lookupname : Nat
  fvp : V
  lookuppn : Nat
  tdvp : V
  getattrTo : Nat
  getattrFrom : Nat
  tfsid : Nat
  ffsid : Nat
  macFrom : Nat
  macTo : Nat
  pmFile : Nat
  nprv : Nat
  access : Nat
  vopLink : Nat

def vnLink (v : Vnodes V) (a : LinkAnswers V) : Return V Vop :=
  if a.pnGet ≠ 0 then ⟨a.pnGet, []⟩
  else if a.lookupname ≠ 0 then ⟨a.lookupname, []⟩
  else if a.lookuppn ≠ 0 then ⟨a.lookuppn, .hold a.fvp :: rele (some a.fvp)⟩
  else
    let out := fun error calls =>
      ⟨error, .hold a.fvp :: .hold a.tdvp :: (calls ++ rele (some a.fvp) ++ rele (some a.tdvp))⟩
    if a.getattrTo ≠ 0 then out a.getattrTo []
    else if a.getattrFrom ≠ 0 then out a.getattrFrom []
    else if a.tfsid ≠ a.ffsid then out EXDEV []
    else if v.rdonly a.tdvp = true then out EROFS []
    else
      -- the directory is only checked if the file has passed, and only its error leads out
      let checks := .check a.macFrom :: if a.macFrom = 0 then [.check a.macTo] else []
      if a.macFrom = 0 ∧ a.macTo ≠ 0 then out a.macTo checks
      else if a.pmFile ≠ 0 then out a.pmFile checks
      else if 0 < a.nprv ∧ a.access ≠ 0 then out a.access checks
      else out a.vopLink (checks ++ [.act .link])

/-! ### `vn_rename` -/

structure RenameAnswers (V : Type) where
  pnGetFrom : Nat
  pnGetTo : Nat
  lookupFrom : Nat
  fdvp : V
  fvp : Option V
  lookupTo : Nat
  tdvp : V
  macFrom : Nat
  macTo : Nat
  macFile : Nat
  vopRename : Nat

/-- The three checks of `vn_rename`: the first error, and the checks that are made. -/
def renameChecks (v : Vnodes V) (a : RenameAnswers V) (fvp : V) : Nat × List (Call V Vop) :=
  if a.macFrom ≠ 0 then (a.macFrom, [.check a.macFrom])
  else if a.macTo ≠ 0 then (a.macTo, [.check a.macFrom, .check a.macTo])
  else if v.vType fvp = .vdir then
    (a.macFile, [.check a.macFrom, .check a.macTo, .check a.macFile])
  else (0, [.check a.macFrom, .check a.macTo])

def vnRename (v : Vnodes V) (a : RenameAnswers V) : Return V Vop :=
  if a.pnGetFrom ≠ 0 then ⟨a.pnGetFrom, []⟩
  else if a.pnGetTo ≠ 0 then ⟨a.pnGetTo, []⟩
  else if a.lookupFrom ≠ 0 then ⟨a.lookupFrom, []⟩
  else
    match a.fvp with
    | none => ⟨ENOENT, .hold a.fdvp :: rele (some a.fdvp)⟩
    | some fvp =>
        if a.lookupTo ≠ 0 then
          ⟨a.lookupTo, .hold a.fdvp :: .hold fvp :: (rele (some fvp) ++ rele (some a.fdvp))⟩
        else
          let out := fun error calls =>
            ⟨error, .hold a.fdvp :: .hold fvp :: .hold a.tdvp ::
              (calls ++ rele (some fvp) ++ rele (some a.fdvp) ++ rele (some a.tdvp))⟩
          if v.vVfsp fvp ≠ v.vVfsp a.tdvp ∨ v.vVfsp a.fdvp ≠ v.vVfsp a.tdvp then out EXDEV []
          else if v.rdonly a.tdvp = true then out EROFS []
          else
            let checks := renameChecks v a fvp
            if checks.1 ≠ 0 then out checks.1 checks.2
            else out a.vopRename (checks.2 ++ [.act .rename])

/-! ### `vn_remove` -/

/-- `macDom` is the check of the level of the file, which either privilege overrides. -/
structure RemoveAnswers (V : Type) where
  pnGet : Nat
  lookuppn : Nat
  dvp : V
  vp : Option V
  macDir : Nat
  macDom : Nat
  compat : Bool
  macwrite : Bool
  vopRmdir : Nat
  vopRemove : Nat

/-- The two checks of `vn_remove`: the error that is left, and the checks that are made. -/
def removeChecks (a : RemoveAnswers V) : Nat × List (Call V Vop) :=
  if a.macDir ≠ 0 then (a.macDir, [.check a.macDir])
  else
    let dom := if a.macDom ≠ 0 ∧ (a.compat = true ∨ a.macwrite = true) then 0 else a.macDom
    (dom, [.check a.macDir, .check dom])

def vnRemove (v : Vnodes V) (a : RemoveAnswers V) (rmdirectory : Bool) : Return V Vop :=
  if a.pnGet ≠ 0 then ⟨a.pnGet, []⟩
  else if a.lookuppn ≠ 0 then ⟨a.lookuppn, []⟩
  else
    match a.vp with
    | none => ⟨ENOENT, .hold a.dvp :: rele (some a.dvp)⟩
    | some vp =>
        let out := fun error =>
          ⟨error, .hold a.dvp :: .hold vp :: (rele (some vp) ++ rele (some a.dvp))⟩
        if v.vroot vp = true then out EBUSY
        else if v.rdonly vp = true then out EROFS
        else
          -- the vnode is released before the entry is removed
          let out := fun error calls =>
            ⟨error, .hold a.dvp :: .hold vp :: (rele (some vp) ++ calls ++ rele (some a.dvp))⟩
          if rmdirectory = true ∧ v.vType vp ≠ .vdir then out ENOTDIR []
          else
            let checks := removeChecks a
            if checks.1 ≠ 0 then out checks.1 checks.2
            else if rmdirectory = true then out a.vopRmdir (checks.2 ++ [.act .rmdir])
            else out a.vopRemove (checks.2 ++ [.act .remove])

/-! ### `vn_create` -/

inductive Why where
  | crmknod
  | crmkdir
  | crmkmld
  | crcreat
  deriving DecidableEq, Repr

/-- `macFloor` and `macCeiling` are the tests for the levels at the ends of the range of the file
system, `domCeiling` and `domFloor` those for the levels between. -/
structure CreateAnswers (V : Type) where
  pnGet : Nat
  lookuppn : Nat
  dvp : V
  vp : Option V
  macFile : Nat
  macDir : Nat
  macFloor : Nat
  macCeiling : Nat
  domCeiling : Nat
  domFloor : Nat
  fsysrange : Bool
  filocks : Bool
  getattr : Nat
  mandlock : Bool
  vopCreateSelf : Nat
  vopMkdir : Nat
  vopMakemld : Nat
  vopCreate : Nat

def CreateAnswers.found (a : CreateAnswers V) (excl : Bool) : Option V :=
  if excl = true then none else a.vp

/-- The level of the process is out of the range of the file system, and it has no privilege. -/
def CreateAnswers.outOfRange (a : CreateAnswers V) : Prop :=
  a.macFloor ≠ 0 ∧ a.macCeiling ≠ 0 ∧ (a.domCeiling ≠ 0 ∨ a.domFloor ≠ 0) ∧ a.fsysrange = false

instance (a : CreateAnswers V) : Decidable a.outOfRange := inferInstanceAs (Decidable (_ ∧ _ ∧ _ ∧ _))

/-- The checks of `vn_create`: the first error, and the checks that are made. -/
def createChecks (v : Vnodes V) (a : CreateAnswers V) : Option V → Nat × List (Call V Vop)
  | some vp =>
      if v.vType vp ≠ .vchr ∧ v.vType vp ≠ .vblk then (a.macFile, [.check a.macFile]) else (0, [])
  | none =>
      if a.macDir ≠ 0 then (a.macDir, [.check a.macDir])
      else
        let range := if a.outOfRange then EACCES else 0
        (range, [.check a.macDir, .check range])

def createOp (a : CreateAnswers V) : Why → Nat × Vop
  | .crmkdir => (a.vopMkdir, .mkdir)
  | .crmkmld => (a.vopMakemld, .makemld)
  | _ => (a.vopCreate, .create)

/-- The reference to the new vnode is the caller's, and not counted here. -/
def vnCreate (v : Vnodes V) (a : CreateAnswers V) (excl : Bool) (why : Why) : Return V Vop :=
  if a.pnGet ≠ 0 then ⟨a.pnGet, []⟩
  else if a.lookuppn ≠ 0 then
    ⟨if why = .crmkdir ∧ a.lookuppn = EINVAL then EEXIST else a.lookuppn, []⟩
  else
    let found := a.found excl
    let checks := createChecks v a found
    let out := fun error calls =>
      ⟨error, .hold a.dvp :: ((found.toList.map .hold) ++ checks.2 ++ calls ++ rele (some a.dvp))⟩
    if checks.1 ≠ 0 then out checks.1 (rele found)
    else
      match found with
      | none =>
          if v.rdonly a.dvp = true then out EROFS []
          else out (createOp a why).1 [.act (createOp a why).2]
      | some vp =>
          if a.filocks = true ∧ a.getattr ≠ 0 then out a.getattr (rele (some vp))
          else if a.filocks = true ∧ a.mandlock = true then out EAGAIN (rele (some vp))
          else if v.vroot vp = true then out a.vopCreateSelf (.act .create :: rele (some vp))
          else out (createOp a why).1 (rele (some vp) ++ [.act (createOp a why).2])

end Svr42.Vn
