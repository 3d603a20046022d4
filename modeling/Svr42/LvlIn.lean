import Svr42.LvlOut

/-! `lvlin`: a level from its text. -/

namespace Svr42.Lvl

def MAXCATS : Nat := 1024

def MAXCLASSES : Nat := 256

def LONG_SHIFT : Nat := 5

def DELIMITERS : Str := [9, 10, 32, 58, 59, 44, 43, 45]

def ushort (n : Nat) : Nat := n % 65536

def isaName (name : Str) : Bool :=
  match name with
  | [] => false
  | c :: _ =>
      if 48 ≤ c ∧ c ≤ 57 then false
      else if name.length > LVL_MAXNAMELEN then false
      else !(name.any fun c => DELIMITERS.contains c)

/-- `name_to_index`: the number of the first record with the name, from 1 on, or 0. -/
def nameToIndex (file : List Str) (name : Str) : Nat :=
  match (file.drop 1).findIdx? (· == name) with
  | none => 0
  | some i => i + 1

/-! ### The level structure -/

/-- `turnon_cat`; `none` if the category is already in use. -/
def turnonCat (catnum : Nat) (lvl : MacLevel) : Option MacLevel :=
  let catnum := catnum - 1
  let catindex := catnum >>> LONG_SHIFT
  let mask := catmask (catnum &&& (NB_LONG - 1))
  if lvl.lvlCat catindex &&& mask ≠ 0 then none
  else some { lvl with
    lvlCat := fun i => if i = catindex then lvl.lvlCat i ||| mask else lvl.lvlCat i
    lvlCatsig := fun i => if i = catindex then 1 else lvl.lvlCatsig i }

/-- The compaction from the word `i` on, with `j` words kept so far; also the number of words that are kept. -/
def compact : Nat → Nat → Nat → MacLevel → MacLevel × Nat
  | 0, _, j, lvl => (lvl, j)
  | todo + 1, i, j, lvl =>
      if lvl.lvlCatsig i ≠ 0 then
        compact todo (i + 1) (j + 1) { lvl with
          -- starts at 1
          lvlCatsig := fun k => if k = j then i + 1 else lvl.lvlCatsig k
          lvlCat := fun k => if k = j then lvl.lvlCat i else lvl.lvlCat k }
      else compact todo (i + 1) j lvl

/-- `while (j < CAT_SIZE)`: the rest is zeroed out. -/
def zeroRest : Nat → Nat → MacLevel → MacLevel
  | 0, _, lvl => lvl
  | todo + 1, j, lvl =>
      zeroRest todo (j + 1) { lvl with
        lvlCatsig := fun k => if k = j then 0 else lvl.lvlCatsig k
        lvlCat := fun k => if k = j then 0 else lvl.lvlCat k }

def adjustLvl (lvl : MacLevel) : MacLevel :=
  let r := compact CAT_SIZE 0 0 lvl
  zeroRest (CAT_SIZE - r.2) r.2 r.1

/-- The comparison of the categories of two levels, from the word `i` on. -/
def sameCats (lvl buf : MacLevel) : Nat → Nat → Bool
  | 0, _ => false
  | todo + 1, i =>
      if lvl.lvlCatsig i ≠ buf.lvlCatsig i then false
      else if buf.lvlCatsig i = 0 then true
      else if lvl.lvlCat i ≠ buf.lvlCat i then false
      else sameCats lvl buf todo (i + 1)

def lvlStructToLid (db : Ltdb) (lvl : MacLevel) : Except Nat Nat :=
  match db.ltfLid with
  | none => .error EACCES
  | some file =>
      -- 0 is reserved
      match (file.drop 1).findIdx? fun buf =>
        buf.lvlValid = .active && lvl.lvlClass == buf.lvlClass && sameCats lvl buf (CAT_SIZE + 1) 0 with
      | none => .error EINVAL
      | some i => .ok (i + 1)

/-! ### Text -/

/-- The loop over the categories of the text, each after its separator; `none` for the error EINVAL. -/
def parseCats (file : List Str) : Nat → Str → MacLevel → Option MacLevel
  | 0, _, _ => none
  | fuel + 1, bufp, lvl =>
      match bufp with
      | [] => some lvl
      | _ :: bufp =>
          let name := bufp.takeWhile (· != comma)
          if name.length > LVL_MAXNAMELEN then none
          else
            let catnum := ushort (nameToIndex file name)
            if isaName name = false ∨ catnum = 0 then none
            else
              (turnonCat catnum lvl).bind fun lvl =>
                parseCats file fuel (bufp.dropWhile (· != comma)) lvl

/-- `for (catnum = 1; catnum <= MAXCATS; catnum++) (void)turnon_cat(catnum, lvlp);` -/
def turnonAll : Nat → Nat → MacLevel → MacLevel
  | 0, _, lvl => lvl
  | todo + 1, catnum, lvl => turnonAll todo (catnum + 1) ((turnonCat catnum lvl).getD lvl)

/-- A level of a class, with `memset` to zero before. -/
def noCats (classnum : Nat) : MacLevel where
  lvlCat := fun _ => 0
  lvlClass := classnum
  lvlValid := .invalid
  lvlCatsig := fun _ => 0

def levelToLid (db : Ltdb) (bufp : Str) : Except Nat Nat :=
  let name := bufp.takeWhile (· != colon)
  if name.length > LVL_MAXNAMELEN then .error EINVAL
  else if isaName name = false then .error EINVAL
  else
    match db.ltfClass with
    | none => .error EACCES
    | some file =>
        let classnum := ushort (nameToIndex file name)
        if classnum = 0 then .error EINVAL
        else
          let bufp := bufp.dropWhile (· != colon)
          let lvl := noCats classnum
          if bufp = [] then lvlStructToLid db lvl
          else if bufp.drop 1 = LVL_ALLCATS then
            lvlStructToLid db (adjustLvl (turnonAll MAXCATS 1 lvl))
          else
            match db.ltfCat with
            | none => .error EACCES
            | some file =>
                match parseCats file (bufp.length + 1) bufp lvl with
                | none => .error EINVAL
                | some lvl => lvlStructToLid db (adjustLvl lvl)

def aliasToLid (db : Ltdb) (name : Str) : Except Nat Nat :=
  if isaName name = false then .error EINVAL
  else
    match db.ltfAlias with
    | none => .error EACCES
    | some file =>
        let lid := nameToIndex file name
        if lid = 0 then .error EINVAL
        else
          -- consistency check to make sure LID is valid active
          match lvlLidToStruct db lid with
          | .error err => .error err
          | .ok lvl => if lvl.lvlValid ≠ .active then .error EINVAL else .ok lid

/-- `lvlin`: the identifier, or `errno`. -/
def lvlin (db : Ltdb) (bufp : Str) : Except Nat Nat :=
  let tried : Except Nat Nat :=
    if bufp.length ≤ LVL_MAXNAMELEN ∧ bufp.contains colon = false then aliasToLid db bufp
    else .error EINVAL
  match tried with
  | .ok lid => .ok lid
  -- it must be a fully qualified level name
  | .error err => if err = EINVAL then levelToLid db bufp else .error err

end Svr42.Lvl
