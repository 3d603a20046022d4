import Svr42.SelectSort

/-! `aclsort`: the entries of an access control list are sorted and checked. -/

namespace Svr42.AclSort

structure Acl where
  aType : Int32
  aId : Int32
  aPerm : UInt16
  deriving DecidableEq, Inhabited

def USER_OBJ : Int32 := 0x01

def USER : Int32 := 0x02

def GROUP_OBJ : Int32 := 0x04

def GROUP : Int32 := 0x08

def CLASS_OBJ : Int32 := 0x10

def OTHER_OBJ : Int32 := 0x20

def ACL_DEFAULT : Int32 := 0x10000

def DEF_USER_OBJ : Int32 := ACL_DEFAULT ||| USER_OBJ

def DEF_USER : Int32 := ACL_DEFAULT ||| USER

def DEF_GROUP_OBJ : Int32 := ACL_DEFAULT ||| GROUP_OBJ

def DEF_GROUP : Int32 := ACL_DEFAULT ||| GROUP

def DEF_CLASS_OBJ : Int32 := ACL_DEFAULT ||| CLASS_OBJ

def DEF_OTHER_OBJ : Int32 := ACL_DEFAULT ||| OTHER_OBJ

def NACLBASE : Nat := 4

def aclcmpfcn (e1 e2 : Acl) : Int32 :=
  if e1.aType = e2.aType then e1.aId - e2.aId else e1.aType - e2.aType

def isort (acls : List Acl) : List Acl :=
  SelectSort.selectSort (fun e1 e2 => decide (aclcmpfcn e1 e2 < 0)) acls

/-! ### The checks -/

def objTypes : List Int32 :=
  [USER_OBJ, GROUP_OBJ, CLASS_OBJ, OTHER_OBJ, DEF_USER_OBJ, DEF_GROUP_OBJ, DEF_CLASS_OBJ, DEF_OTHER_OBJ]

def idTypes : List Int32 := [USER, GROUP, DEF_USER, DEF_GROUP]

/-- The variables of `aclsort`, `count` for those that count the entries of a type. -/
structure Counts where
  count : Int32 → Nat
  lastId : Int32
  classPerms : UInt16
  groupPerms : UInt16
  defClassPerms : UInt16
  defGroupPerms : UInt16

/-- What `last_id` and the permissions other than `class_perms` are before they are set does not matter. -/
def counts : Counts := ⟨fun _ => 0, 0, 0, 0, 0, 0⟩

/-- An entry is counted and its permissions noted. -/
def note (calclass : Bool) (c : Counts) (e : Acl) : Counts where
  count := Function.update c.count e.aType (c.count e.aType + 1)
  lastId := if e.aType ∈ idTypes then e.aId else c.lastId
  classPerms :=
    if calclass = true then
      if e.aType = USER ∨ e.aType = GROUP_OBJ ∨ e.aType = GROUP then c.classPerms ||| e.aPerm
      else c.classPerms
    else if e.aType = CLASS_OBJ then e.aPerm else c.classPerms
  groupPerms := if e.aType = GROUP_OBJ then e.aPerm else c.groupPerms
  defClassPerms := if e.aType = DEF_CLASS_OBJ then e.aPerm else c.defClassPerms
  defGroupPerms := if e.aType = DEF_GROUP_OBJ then e.aPerm else c.defGroupPerms

def recalculate (calclass : Bool) (c : Counts) (e : Acl) : Acl :=
  if calclass = true ∧ e.aType = CLASS_OBJ then { e with aPerm := c.classPerms } else e

inductive Step
  | goes (c : Counts) (e : Acl)
  | duplicate
  | noSuchType

/-- The cases of the `switch`. -/
def entry (calclass : Bool) (c : Counts) (e : Acl) : Step :=
  if e.aType ∈ objTypes then
    if c.count e.aType ≠ 0 then .duplicate else .goes (note calclass c e) (recalculate calclass c e)
  else if e.aType ∈ idTypes then
    if e.aId = (if c.count e.aType = 0 then -1 else c.lastId) then .duplicate
    else .goes (note calclass c e) (recalculate calclass c e)
  else .noSuchType

/-- The loop from an entry on, `pos` being `nentries - i`: what it returns, or the variables at its end,
and the entries. -/
def check (calclass : Bool) : Nat → Counts → List Acl → Except Int Counts × List Acl
  | _, c, [] => (.ok c, [])
  | pos, c, e :: rest =>
      match entry calclass c e with
      | .duplicate => (.error pos, e :: rest)
      | .noSuchType => (.error (-1), e :: rest)
      | .goes c e => ((check calclass (pos + 1) c rest).1, e :: (check calclass (pos + 1) c rest).2)

/-- The checks after the loop. -/
def conclude (c : Counts) : Int :=
  if c.count USER_OBJ + c.count GROUP_OBJ + c.count CLASS_OBJ + c.count OTHER_OBJ ≠ NACLBASE then -1
  else if c.count USER + c.count GROUP = 0 ∧ c.groupPerms ≠ c.classPerms then -1
  else if c.count DEF_GROUP_OBJ ≠ 0 ∧ c.count DEF_USER + c.count DEF_GROUP = 0 then
    if c.count DEF_CLASS_OBJ = 0 then -1
    else if c.defGroupPerms ≠ c.defClassPerms then -1
    else 0
  else 0

/-- `aclsort`: the value it returns, and the entries as it leaves them. -/
def aclsort (calclass : Bool) (acls : List Acl) : Int × List Acl :=
  let r := check calclass 0 counts (isort acls)
  match r.1 with
  | .error value => (value, r.2)
  | .ok c => (conclude c, r.2)

end Svr42.AclSort
