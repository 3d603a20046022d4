import Mathlib.Data.List.Basic

/-! Argument vectors as one string: `argvtostr`, and `strtoargv`, which takes it apart again. -/

namespace Svr42.ArgvStr

/-- A string, without its null byte. -/
abbrev Str := List UInt8

def BUNCH : Nat := 25

def blank : UInt8 := 32

def dquote : UInt8 := 34

def squote : UInt8 := 39

def backslash : UInt8 := 92

def delim : List UInt8 := [blank, 9, squote, dquote]

def argLength (a : Str) : Nat :=
  let length := a.length + 1
  if ∃ c ∈ a, c ∈ delim then length + 2 + a.count dquote else length

def argvLength : List Str → Nat
  | [] => 0
  | a :: argv => argLength a + argvLength argv

/-- `'"'` if the string must be quoted, else no character of the string. -/
def escapeOf (a : Str) : UInt8 := if ∃ c ∈ a, c ∈ delim then dquote else 0

def copy (escape : UInt8) : Str → Str
  | [] => []
  | c :: strp => if c = escape then backslash :: c :: copy escape strp else c :: copy escape strp

def argText (a : Str) : Str :=
  if escapeOf a ≠ 0 then escapeOf a :: (copy (escapeOf a) a ++ [escapeOf a])
  else copy (escapeOf a) a

def argvText : List Str → Str
  | [] => []
  | a :: argv => argText a ++ blank :: argvText argv

/-- `malloc` says which sizes can be had. The last blank becomes the null byte. -/
def argvtostr (malloc : Nat → Bool) (argv : List Str) : Option Str :=
  if argv = [] ∨ malloc (argvLength argv) = false then none else some (argvText argv).dropLast

/-! ### From a string -/

def strpbrk (s : Str) : Str × Str := s.span (· ∉ delim)

/-- The loop for a quoted argument, with the characters before `cp`, the last one first. -/
def quoted (delch : UInt8) : Str → Str → Option (Str × Str)
  | _, [] => none
  | cp, c :: cmdp =>
      if c = delch then
        if cp.head? = some backslash then quoted delch (c :: cp.tail) cmdp else some (cp.reverse, cmdp)
      else quoted delch (c :: cp) cmdp

/-- The main loop of `strtoargv`, with a bound on its steps: the arguments from the `i`-th on. -/
def words (isspace : UInt8 → Bool) (malloc : Nat → Bool) : Nat → Nat → Nat → Str → Option (List Str)
  | 0, _, _, _ => none
  | _ + 1, _, _, [] => some []
  | fuel + 1, i, nargs, first :: s =>
      let more := if i ≥ nargs then nargs + BUNCH else nargs
      if i ≥ nargs ∧ malloc (4 * (more + 1)) = false then none
      else
        match strpbrk (first :: s) with
        | (token, []) => some [token]
        | (token, c :: rest) =>
            if c = dquote ∨ c = squote then
              -- quote in the middle means new token
              if token ≠ [] then
                (words isspace malloc fuel (i + 1) more ((c :: rest).dropWhile isspace)).map (token :: ·)
              else
                match quoted c [] rest with
                | none => none
                | some (arg, cmdp) =>
                    (words isspace malloc fuel (i + 1) more (cmdp.dropWhile isspace)).map (arg :: ·)
            else (words isspace malloc fuel (i + 1) more (rest.dropWhile isspace)).map (token :: ·)

def strtoargv (isspace : UInt8 → Bool) (malloc : Nat → Bool) (cmdp : Str) : Option (List Str) :=
  if malloc (4 * (BUNCH + 1)) = false then none
  else words isspace malloc ((cmdp.dropWhile isspace).length + 1) 0 BUNCH (cmdp.dropWhile isspace)

end Svr42.ArgvStr
