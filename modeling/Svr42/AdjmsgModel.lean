import Svr42.PullupCopy

/-! `adjmsg` and `xmsgsize`: bytes trimmed from one end of a message. -/

namespace Svr42.Pull

variable {M D : Type} [DecidableEq M]

def int (v : Int) : Int := v.bmod 0x100000000

def unsigned (v : Int) : Nat := (v % 0x100000000).toNat

/-- `for (bp = mp; bp->b_cont != endbp; bp = bp->b_cont)`; `fuel` bounds the number of blocks. `none` in
the result is a null pointer followed. -/
def findEnd (s : Sys M D) (endbp : Option M) : Nat → Option M → Option (Option M)
  | 0, _ => none
  | _ + 1, none => some none
  | fuel + 1, some bp =>
      if (s.msg bp).bCont = endbp then some (some bp) else findEnd s endbp fuel (s.msg bp).bCont

def follow {α : Type} (use : M → Option (Option α)) (bp : Option M) : Option (Option α) :=
  bp.elim (some none) use

/-- The loop of `xmsgsize` from the tail: `endbp` is the last block that was counted. -/
def xmsgsizeBack (s : Sys M D) (mp : M) (type : UInt8) : Nat → M → Nat → Option (Option Nat)
  | 0, _, _ => none
  | fuel + 1, endbp, count =>
      if endbp = mp then some (some count)
      else
        (findEnd s (some endbp) fuel (some mp)).bind (follow fun bp =>
          if type ≠ dbType s bp then some (some count)
          else xmsgsizeBack s mp type fuel bp (count + size (s.msg bp)))

def xmsgsizeTail (fuel : Nat) (s : Sys M D) (mp : M) : Option (Option Nat) :=
  (findEnd s none fuel (some mp)).bind (follow fun bp =>
    xmsgsizeBack s mp (dbType s bp) fuel bp (size (s.msg bp)))

def cutHead (b : Msgb M D) (n : Nat) : Msgb M D := { b with bRptr := b.bRptr + n }

def cutTail (b : Msgb M D) (n : Nat) : Msgb M D := { b with bWptr := b.bWptr - n }

def setCut (cut : Msgb M D → Nat → Msgb M D) (s : Sys M D) (bp : M) (n : Nat) : Sys M D :=
  setMsg s bp (cut (s.msg bp) n)

def trimHead : Nat → Sys M D → Option M → Nat → Option (Option (Sys M D))
  | 0, _, _, _ => none
  | fuel + 1, s, bp, len =>
      if len = 0 then some (some s)
      else
        follow (fun bp =>
          let n := min (size (s.msg bp)) len
          trimHead fuel (setCut cutHead s bp n) (s.msg bp).bCont (len - n)) bp

def trimTail (mp : M) : Nat → Sys M D → Option M → Nat → Option (Option (Sys M D))
  | 0, _, _, _ => none
  | fuel + 1, s, endbp, len =>
      if len = 0 then some (some s)
      else
        (findEnd s endbp fuel (some mp)).bind (follow fun bp =>
          let n := min (size (s.msg bp)) len
          trimTail mp fuel (setCut cutTail s bp n) (some bp) (len - n))

/-- What is returned once `xmsgsize` has given `n`: 0, or 1 when `trim` is done. -/
def adjust (s : Sys M D) (len : Int) (trim : Nat → Option (Option (Sys M D))) (n : Nat) :
    Option (Option (Sys M D × Bool)) :=
  if (n : Int) < len then some (some (s, false))
  else (trim (unsigned len)).map (Option.map fun s => (s, true))

/-- `none` is a search that does not end, and `none` in the result a null pointer followed. -/
def adjmsg (fuel : Nat) (s : Sys M D) (mp : M) (len : Int) : Option (Option (Sys M D × Bool)) :=
  if len < 0 then
    (xmsgsizeTail fuel s mp).bind fun n =>
      n.elim (some none) (adjust s (int (-len)) fun n => trimTail mp fuel s none n)
  else (xmsgsize fuel s mp).bind (adjust s len fun n => trimHead fuel s (some mp) n)

end Svr42.Pull
