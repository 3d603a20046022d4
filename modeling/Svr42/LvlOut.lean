import Mathlib.Data.List.Basic

/-! Security levels as text: the level files, and `lvlout`. -/

namespace Svr42.Lvl

/-- A string, without its null byte. -/
abbrev Str := List UInt8

def EACCES : Nat := 13

def EINVAL : Nat := 22

def ENOSPC : Nat := 28

def LVL_MAXNAMELEN : Nat := 30

def CAT_SIZE : Nat := 32

def CAT_SHIFT : Nat := 5

def NB_LONG : Nat := 32

def INITBUFSIZ : Nat := 512

def colon : UInt8 := 58

def comma : UInt8 := 44

def LVL_ALLCATS : Str := [65, 76, 76]

inductive Valid
  | invalid
  | active
  | inactive
  deriving DecidableEq

structure MacLevel where
  lvlCat : Nat → BitVec 32
  lvlClass : Nat
  lvlValid : Valid
  lvlCatsig : Nat → Nat

/-- The level files, as records from the reserved one on; `none` if one cannot be opened. A name
record that is not in use has the empty name. -/
structure Ltdb where
  ltfLid : Option (List MacLevel)
  ltfClass : Option (List Str)
  ltfCat : Option (List Str)
  ltfAlias : Option (List Str)

/-- The static variables of `cnv_lvl_to_name`. -/
structure Statics where
  lvlname : Option Str
  lvllength : Nat

def statics : Statics := ⟨none, INITBUFSIZ⟩

def lvlLidToStruct (db : Ltdb) (lid : Nat) : Except Nat MacLevel :=
  if lid = 0 then .error EINVAL
  else
    match db.ltfLid with
    | none => .error EACCES
    | some file =>
        match file[lid]? with
        | none => .error EINVAL
        | some lvl => if lvl.lvlValid = .invalid then .error EINVAL else .ok lvl

def indexToName (file : List Str) (index : Nat) : Option Str :=
  match file[index]? with
  | none => none
  | some name => if name = [] then none else some name

def decimal (n : Nat) : Str := (Nat.toDigits 10 n).map fun c => c.toNat.toUInt8

def cnvLidToString (lid : Nat) : Str :=
  if lid < 2147483648 then decimal lid else 45 :: decimal (4294967296 - lid)

def catmask (i : Nat) : BitVec 32 := ((1 : BitVec 32) <<< (31 : Nat)) >>> i

def wordCats (cat : BitVec 32) (catsig : Nat) : List Nat :=
  ((List.range NB_LONG).filter fun i => cat &&& catmask i ≠ 0).map fun i =>
    1 + ((catsig - 1) <<< CAT_SHIFT) + i

/-- The words from the `j`-th on, until one without `lvl_catsig`. -/
def categoriesFrom (lvl : MacLevel) : Nat → Nat → List Nat
  | 0, _ => []
  | todo + 1, j =>
      if lvl.lvlCatsig j = 0 then []
      else wordCats (lvl.lvlCat j) (lvl.lvlCatsig j) ++ categoriesFrom lvl todo (j + 1)

def categories (lvl : MacLevel) : List Nat := categoriesFrom lvl CAT_SIZE 0

def allcats (lvl : MacLevel) : Bool := (List.range CAT_SIZE).all fun i => lvl.lvlCat i = 0xffffffff

/-! ### The name of a level -/

/-- `do { tmp_l *= 2; } while (need_l > tmp_l);`, with a bound on its turns. -/
def enlarge (need : Nat) : Nat → Nat → Nat
  | 0, tmp => tmp
  | turns + 1, tmp => if need > tmp * 2 then enlarge need turns (tmp * 2) else tmp * 2

/-- The loop over the categories, each with its name; `none` if `strcat` writes behind the allocated
memory, else the error, the string and its allocated length. -/
def addCats (file : List Str) (malloc : Nat → Bool) :
    List Nat → Bool → Str → Nat → Option (Nat × Str × Nat)
  | [], _, lvlname, lvllength => some (0, lvlname, lvllength)
  | cat :: cats, firstcat, lvlname, lvllength =>
      match indexToName file cat with
      | none => some (EINVAL, lvlname, lvllength)
      | some name =>
          let need := lvlname.length + name.length + 1
          let tmp := if need > lvllength then enlarge need need lvllength else lvllength
          if need > lvllength ∧ malloc tmp = false then some (EINVAL, lvlname, lvllength)
          else
            let text := lvlname ++ (if firstcat = true then colon else comma) :: name
            if tmp < text.length + 1 then none else addCats file malloc cats false text tmp

/-- `cnv_lvl_to_name`, with the string it leaves in `lvlname`. -/
def cnvLvlToName (db : Ltdb) (malloc : Nat → Bool) (st : Statics) (lvl : MacLevel) :
    Option (Nat × Statics) :=
  match db.ltfClass with
  | none => some (EACCES, st)
  | some file =>
      match indexToName file lvl.lvlClass with
      | none => some (EINVAL, st)
      | some name =>
          if st.lvlname = none ∧ malloc st.lvllength = false then some (EINVAL, st)
          else if st.lvllength < name.length + 1 then none
          else if allcats lvl = true then
            if st.lvllength < (name ++ colon :: LVL_ALLCATS).length + 1 then none
            else some (0, { st with lvlname := some (name ++ colon :: LVL_ALLCATS) })
          else
            match db.ltfCat with
            | none => some (EACCES, { st with lvlname := some name })
            | some file =>
                (addCats file malloc (categories lvl) true name st.lvllength).map fun r =>
                  (r.1, ⟨some r.2.1, r.2.2⟩)

/-! ### `lvlout` -/

inductive Format
  | lvlAlias
  | lvlFull
  | other

/-- What a conversion gives: a name, the LID in decimal, or an error. -/
inductive Text
  | name (s : Str)
  | lid (s : Str)
  | error (err : Nat)

def lidToAlias (db : Ltdb) (lid : Nat) : Text :=
  match db.ltfAlias with
  | none => .error EACCES
  | some file =>
      match indexToName file lid with
      | none => .lid (cnvLidToString lid)
      | some name => .name name

/-- The text of a level in a format. -/
def convert (db : Ltdb) (malloc : Nat → Bool) (st : Statics) (lid : Nat) (lvl : MacLevel) :
    Format → Option (Text × Statics)
  | .lvlAlias =>
      some (if lvl.lvlValid = .active then lidToAlias db lid else .lid (cnvLidToString lid), st)
  | .lvlFull =>
      if lvl.lvlValid = .active then
        (cnvLvlToName db malloc st lvl).map fun r =>
          (if r.1 = 0 then .name (r.2.lvlname.getD []) else .error r.1, r.2)
      else some (.lid (cnvLidToString lid), st)
  | .other => some (.error EINVAL, st)

/-- What `lvlout` returns, `errno`, and what it copies to the buffer of the caller. -/
structure Answer where
  retval : Int
  errno : Nat
  written : Option Str
  deriving DecidableEq

/-- The end of `lvlout`, with a string. -/
def deliver (name : Str) (retval bufsize : Int) : Answer :=
  let strsize : Int := name.length + 1
  if bufsize = 0 then ⟨strsize, 0, none⟩
  else if bufsize < strsize then ⟨-1, ENOSPC, none⟩
  else ⟨retval, 0, some name⟩

/-- `lvlout`; `none` if it writes behind memory it has allocated. -/
def lvlout (db : Ltdb) (malloc : Nat → Bool) (st : Statics) (lid : Nat) (bufsize : Int) (format : Format) :
    Option (Answer × Statics) :=
  match lvlLidToStruct db lid with
  | .error err => some (⟨-1, err, none⟩, st)
  | .ok lvl =>
      (convert db malloc st lid lvl format).map fun r =>
        match r.1 with
        | .name name => (deliver name 0 bufsize, r.2)
        | .lid name => (deliver name (if lvl.lvlValid = .active then 0 else 1) bufsize, r.2)
        | .error err => (⟨-1, err, none⟩, r.2)

structure Call where
  lid : Nat
  bufsize : Int
  format : Format

/-- Calls of `lvlout` in a program; `malloc` has an answer for each. -/
def calls (db : Ltdb) : Statics → List (Call × (Nat → Bool)) → Option (List Answer × Statics)
  | st, [] => some ([], st)
  | st, (c, malloc) :: rest =>
      (lvlout db malloc st c.lid c.bufsize c.format).bind fun r =>
        (calls db r.2 rest).map fun rs => (r.1 :: rs.1, rs.2)

end Svr42.Lvl
