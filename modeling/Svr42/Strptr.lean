import Mathlib.Data.List.Basic

/-! `elf_strptr`, and the placement of a section's buffers by `upd_lib`. Sizes are of 32 bits; the data of the
section are of type `ELF_T_BYTE`, for which a byte is one byte in the file too. -/

namespace Svr42.Strptr
open List Nat Option

def word : Nat := 4294967296

/-- Where `d_buf` points does not matter, only whether it is null. -/
structure ElfData where
  dBuf : Bool
  dSize : Nat
  dOff : Nat
  dAlign : Nat

def SHT_STRTAB : Nat := 3

/-- `shType` is none where `s_shdr` is null. -/
structure Scn where
  shType : Option Nat
  data : List ElfData

structure Elf where
  layout : Bool
  getscn : Nat → Option Scn

inductive Error where
  | EREQ_STRSCN
  | EREQ_STROFF
deriving DecidableEq

/-- The padding before a buffer of alignment `j` after `sz` bytes. -/
def padding (sz j : Nat) : Nat := if 1 < j ∧ sz % j ≠ 0 then j - sz % j else 0

/-- The loop over the buffers of a section: each gets its `d_off`, and the section its `sh_size`. -/
def updLib : List ElfData → Nat → List ElfData × Nat
  | [], sz => ([], sz)
  | d :: ds, sz =>
      let sz := (sz + padding sz d.dAlign) % word
      let rest := updLib ds ((sz + d.dSize) % word)
      ({ d with dOff := sz } :: rest.1, rest.2)

/-! ### `elf_strptr` -/

/-- The byte found is given by the buffer's place in the list and the byte's place in the buffer. -/
def later (r : Option (Nat × Nat)) : Option (Nat × Nat) := r.map fun b => (b.1 + 1, b.2)

/-- With `ELF_F_LAYOUT` the program has set `d_off`. -/
def userLoop (off : Nat) : List ElfData → Option (Nat × Nat)
  | [] => none
  | d :: ds =>
      if d.dBuf = true ∧ d.dOff ≤ off ∧ off < (d.dOff + d.dSize) % word then some (0, off - d.dOff)
      else later (userLoop off ds)

/-- A buffer of size zero leaves `off` as it is; the loop ends in a padding or a null buffer. -/
def dataLoop : List ElfData → Nat → Nat → Option (Nat × Nat)
  | [], _, _ => none
  | d :: ds, sz, off =>
      let j := padding sz d.dAlign
      if off < j then none
      else if d.dBuf = true ∧ off - j < d.dSize then some (0, off - j)
      else if off - j < d.dSize then none
      else later (dataLoop ds (((sz + j) % word + d.dSize) % word) (off - j - d.dSize))

def strptr (layout : Bool) (ds : List ElfData) (off : Nat) : Option (Nat × Nat) :=
  if layout = true then userLoop off ds else dataLoop ds 0 off

def elfStrptr (elf : Elf) (ndx off : Nat) : Except Error (Nat × Nat) :=
  match elf.getscn ndx with
  | none => .error .EREQ_STRSCN
  | some s =>
      if s.shType ≠ some SHT_STRTAB then .error .EREQ_STRSCN
      else
        match strptr elf.layout s.data off with
        | some b => .ok b
        | none => .error .EREQ_STROFF

/-! ### Placement -/

/-- Byte `k` of buffer `i` is in memory and placed at `off`. -/
def ByteAt (ds : List ElfData) (off i k : Nat) : Prop :=
  ∃ d, ds[i]? = some d ∧ d.dBuf = true ∧ k < d.dSize ∧ off = d.dOff + k

/-- The placement with sizes that do not wrap. -/
def place : List ElfData → Nat → List ElfData
  | [], _ => []
  | d :: ds, p =>
      let p := p + padding p d.dAlign
      { d with dOff := p } :: place ds (p + d.dSize)

/-- Buffers with bytes in memory begin within the sizes that can be counted. -/
def Countable (ds : List ElfData) : Prop :=
  ∀ d ∈ place ds 0, d.dBuf = true → 0 < d.dSize → d.dOff < word

/-- What `elf_strptr` returns for the section's offsets, against where `upd_lib` places the bytes. -/
structure Agrees (elf : Elf) (ndx : Nat) (ds : List ElfData) : Prop where
  byte : ∀ off i k, off < word →
    (elfStrptr elf ndx off = .ok (i, k) ↔ ByteAt (updLib ds 0).1 off i k)
  error : ∀ off, off < word →
    (elfStrptr elf ndx off = .error .EREQ_STROFF ↔ ∀ i k, ¬ ByteAt (updLib ds 0).1 off i k)

variable {elf : Elf} {d : ElfData} {ds : List ElfData} {ndx off sz p i k : Nat}

theorem byteAt_zero : ByteAt (d :: ds) off 0 k ↔ d.dBuf = true ∧ k < d.dSize ∧ off = d.dOff + k := by
  constructor
  · rintro ⟨d', hd, h⟩
    rw [getElem?_cons_zero, some.injEq] at hd
    exact hd ▸ h
  · exact fun h => ⟨d, getElem?_cons_zero, h⟩

theorem byteAt_succ : ByteAt (d :: ds) off (i + 1) k ↔ ByteAt ds off i k := by
  unfold ByteAt
  rw [getElem?_cons_succ]

theorem later_eq_some {r : Option (Nat × Nat)} :
    later r = some (i, k) ↔ ∃ i', i = i' + 1 ∧ r = some (i', k) := by
  unfold later
  rw [map_eq_some_iff]
  constructor
  · rintro ⟨⟨i', k'⟩, hr, heq⟩
    obtain ⟨rfl, rfl⟩ := Prod.mk.inj heq
    exact ⟨i', rfl, hr⟩
  · rintro ⟨i', rfl, hr⟩
    exact ⟨(i', k), hr, rfl⟩

theorem le_dOff (h : d ∈ place ds p) : p ≤ d.dOff := by
  induction ds generalizing p with
  | nil => cases h
  | cons e ds ih =>
    rcases mem_cons.mp h with rfl | h
    · exact le_add_right _ _
    · have hle := ih h
      omega

theorem ByteAt.le (h : ByteAt (place ds p) off i k) : p ≤ off := by
  obtain ⟨d, hd, -, -, rfl⟩ := h
  exact le_add_right_of_le (le_dOff (mem_of_getElem? hd))

/-- The routine looks the byte up where sizes do not wrap: it comes no further than `off`. -/
theorem dataLoop_eq_some (hp : p ≤ off) (hoff : off < word) :
    dataLoop ds p (off - p) = some (i, k) ↔ ByteAt (place ds p) off i k := by
  induction ds generalizing p i with
  | nil => exact ⟨fun h => (nomatch h), fun ⟨_, hd, _⟩ => (nomatch hd)⟩
  | cons d ds ih =>
    rw [dataLoop, place]
    split_ifs with hpad hbuf hnull
    · refine ⟨fun h => (nomatch h), fun h => ?_⟩
      cases i with
      | zero =>
        have hat := (byteAt_zero.mp h).2.2
        dsimp only at hat
        omega
      | succ i =>
        have hle := (byteAt_succ.mp h).le
        omega
    · cases i with
      | zero =>
        rw [byteAt_zero, some.injEq, Prod.mk.injEq]
        dsimp only
        constructor
        · rintro ⟨-, rfl⟩
          exact ⟨hbuf.1, hbuf.2, by omega⟩
        · rintro ⟨-, -, hat⟩
          exact ⟨rfl, by omega⟩
      | succ i =>
        refine ⟨fun h => by simp at h, fun h => ?_⟩
        have hle := (byteAt_succ.mp h).le
        omega
    · refine ⟨fun h => (nomatch h), fun h => ?_⟩
      cases i with
      | zero =>
        have hin := byteAt_zero.mp h
        exact absurd ⟨hin.1, hnull⟩ hbuf
      | succ i =>
        have hle := (byteAt_succ.mp h).le
        omega
    · have hsz : ((p + padding p d.dAlign) % word + d.dSize) % word = p + padding p d.dAlign + d.dSize := by
        rw [mod_eq_of_lt (show p + padding p d.dAlign < word by omega), mod_eq_of_lt (by omega)]
      have hrest : off - p - padding p d.dAlign - d.dSize = off - (p + padding p d.dAlign + d.dSize) := by
        omega
      rw [hsz, hrest, later_eq_some]
      cases i with
      | zero =>
        rw [byteAt_zero]
        dsimp only
        refine ⟨fun ⟨_, h, _⟩ => (nomatch h), fun ⟨_, _, hat⟩ => ?_⟩
        omega
      | succ i =>
        rw [byteAt_succ, ← ih (by omega)]
        constructor
        · rintro ⟨i', heq, h⟩
          exact succ.inj heq ▸ h
        · exact fun h => ⟨i, rfl, h⟩

/-- Both placements have the same buffers, at the same offset where that can be counted. -/
theorem updLib_getElem? (hsz : p < word → sz = p) (hd : (place ds p)[i]? = some d) :
    ∃ o, (updLib ds sz).1[i]? = some { d with dOff := o } ∧ o < word ∧ (d.dOff < word → o = d.dOff) := by
  induction ds generalizing p sz i with
  | nil => exact nomatch hd
  | cons e ds ih =>
    have hhead : p + padding p e.dAlign < word →
        (sz + padding sz e.dAlign) % word = p + padding p e.dAlign := by
      intro hlt
      rw [hsz (by omega), mod_eq_of_lt hlt]
    cases i with
    | zero =>
      obtain rfl := some.inj hd
      exact ⟨_, rfl, mod_lt _ (by decide), hhead⟩
    | succ i =>
      refine ih (fun hlt => ?_) hd
      rw [hhead (by omega), mod_eq_of_lt hlt]

theorem length_updLib : (updLib ds sz).1.length = (place ds p).length := by
  induction ds generalizing sz p with
  | nil => rfl
  | cons d ds ih => exact congrArg succ ih

theorem ByteAt.updLib (hcount : Countable ds) (hoff : off < word) :
    ByteAt (place ds 0) off i k ↔ ByteAt (Strptr.updLib ds 0).1 off i k := by
  constructor
  · rintro ⟨d, hd, hbuf, hk, rfl⟩
    obtain ⟨o, ho, -, heq⟩ := updLib_getElem? (fun _ => rfl) hd
    rw [heq (by omega)] at ho
    exact ⟨d, ho, hbuf, hk, rfl⟩
  · rintro ⟨d', hd', hbuf, hk, rfl⟩
    have hi : i < (place ds 0).length := by
      have hlt := (List.getElem?_eq_some_iff.mp hd').1
      rwa [length_updLib] at hlt
    have hd := getElem?_eq_getElem hi
    obtain ⟨o, ho, -, heq⟩ := updLib_getElem? (fun _ => rfl) hd
    obtain rfl := some.inj (hd'.symm.trans ho)
    have hlt := hcount _ (getElem_mem hi) hbuf (zero_lt_of_lt hk)
    exact ⟨_, hd, hbuf, hk, by rw [← heq hlt]⟩

/-- A string-table section of byte buffers in a file that the library lays out. -/
def StringTable (elf : Elf) (ndx : Nat) (ds : List ElfData) : Prop :=
  elf.layout = false ∧ elf.getscn ndx = some ⟨some SHT_STRTAB, ds⟩

section

variable (h : StringTable elf ndx ds)
include h

theorem StringTable.elfStrptr_eq : elfStrptr elf ndx off =
    (dataLoop ds 0 off).elim (.error .EREQ_STROFF) .ok := by
  unfold elfStrptr strptr
  rw [h.2, h.1]
  dsimp only
  rw [if_neg (fun hne => hne rfl), if_neg Bool.false_ne_true]
  cases dataLoop ds 0 off <;> rfl

theorem StringTable.eq_ok_iff (hoff : off < word) :
    elfStrptr elf ndx off = .ok (i, k) ↔ ByteAt (place ds 0) off i k := by
  rw [h.elfStrptr_eq, ← dataLoop_eq_some (Nat.zero_le _) hoff, Nat.sub_zero]
  cases dataLoop ds 0 off <;> simp

theorem StringTable.eq_error_iff (hoff : off < word) :
    elfStrptr elf ndx off = .error .EREQ_STROFF ↔ ∀ i k, ¬ ByteAt (place ds 0) off i k := by
  constructor
  · intro herr i k hat
    rw [(h.eq_ok_iff hoff).mpr hat] at herr
    cases herr
  · intro hnone
    rw [h.elfStrptr_eq]
    cases hloop : dataLoop ds 0 off with
    | none => rfl
    | some b =>
      refine absurd ((h.eq_ok_iff hoff).mp ?_) (hnone b.1 b.2)
      rw [h.elfStrptr_eq, hloop]
      rfl

end

/-- The routine finds the bytes where the layout places them exactly if no buffer in memory begins past the
offsets that can be counted. -/
theorem strptr_agrees_iff (elf : Elf) (ndx : Nat) (ds : List ElfData) (h : StringTable elf ndx ds) :
    Agrees elf ndx ds ↔ Countable ds := by
  constructor
  · intro hagrees d hmem hbuf hsize
    obtain ⟨i, hi⟩ := getElem?_of_mem hmem
    obtain ⟨o, ho, hlt, -⟩ := updLib_getElem? (fun _ => rfl) hi
    have hbyte : ByteAt (updLib ds 0).1 o i 0 := ⟨_, ho, hbuf, hsize, rfl⟩
    obtain ⟨d', hd', -, -, heq⟩ := (h.eq_ok_iff hlt).mp ((hagrees.byte o i 0 hlt).mpr hbyte)
    obtain rfl := some.inj (hi.symm.trans hd')
    omega
  · intro hcount
    refine ⟨fun off i k hoff => ?_, fun off hoff => ?_⟩
    · rw [h.eq_ok_iff hoff, ByteAt.updLib hcount hoff]
    · rw [h.eq_error_iff hoff]
      exact forall_congr' fun i => forall_congr' fun k => not_congr (ByteAt.updLib hcount hoff)

/-- Two empty names of four bytes, the second aligned. -/
def twoNames : List ElfData := [⟨true, 3, 0, 1⟩, ⟨true, 4, 0, 4⟩]

theorem strptr_agrees_two :
    Agrees ⟨false, fun _ => some ⟨some SHT_STRTAB, twoNames⟩⟩ 1 twoNames ↔ Countable twoNames :=
  strptr_agrees_iff _ 1 twoNames ⟨rfl, rfl⟩

/-- The sizes of the first two buffers, which have no memory, add up to 2^32: the third is placed at offset
zero, where `elf_strptr` finds none. -/
def wrapped : List ElfData := [⟨false, 4294967295, 0, 1⟩, ⟨false, 1, 0, 1⟩, ⟨true, 1, 0, 1⟩]

theorem strptr_wrapped : ¬ Agrees ⟨false, fun _ => some ⟨some SHT_STRTAB, wrapped⟩⟩ 1 wrapped := by
  intro h
  have herr := (h.error 0 (by decide)).mp rfl
  exact herr 2 0 ⟨⟨true, 1, 0, 1⟩, rfl, rfl, Nat.one_pos, rfl⟩

end Svr42.Strptr
