import Svr42.BitmapWords

/-! `_elf_vm`: the pages of a file are read into its image as they are asked for. Offsets are below the size of
the image, which is an `off_t`, so that sums of them do not wrap in a `size_t`. -/

namespace Svr42.InputVm
open Bool Function List Nat Option Prod Svr42.Bitmap

def PGSZ : Nat := 2048
def NBITS : Nat := 32
def REGSZ : Nat := NBITS * PGSZ
def PGNUM (off : Nat) : Nat := off % REGSZ / PGSZ
def REGNUM (off : Nat) : Nat := off / REGSZ

/-- What becomes of one `lseek` and `read`: `fails` at the first, or the second returns that many bytes. -/
inductive Io where
  | fails
  | read (n : Nat)

structure Try where
  off : Nat
  sz : Nat
  io : Io

/-- The number of bytes put into the image. -/
def Try.got (t : Try) : Nat :=
  match t.io with
  | .fails => 0
  | .read n => min n t.sz

/-- The descriptor; `edVm` is none where the file is mapped. `tries` is what was asked of the file so far. -/
structure Elf where
  edFd : Int
  edBaseoff : Nat
  edFsz : Nat
  edImagesz : Nat
  edVm : Option Words
  tries : List Try

inductive Okay where
  | OK_YES
  | EFMT_VM
  | EREQ_NOFD
  | EIO_VM
  | EIO_FSZ
  | EMEM_VM
deriving DecidableEq

/-! ### The routine -/

/-- `hdreg` and `hdbit`, or `tlreg` and `tlbit`. -/
structure Bit where
  reg : Nat
  bit : BitVec 32
deriving DecidableEq

def Bit.at_ (off : Nat) : Bit := ⟨REGNUM off, 1#32 <<< PGNUM off⟩

def Bit.next (h : Bit) : Bit :=
  if h.bit = 1#32 <<< (NBITS - 1) then ⟨h.reg + 1, 1⟩ else ⟨h.reg, h.bit <<< 1⟩

/-- The outcome of the `n`-th try is `io n`. -/
def fetch (io : Nat → Io) (off sz : Nat) (s : Elf) : Nat × Bool × Elf :=
  let sz := if s.edImagesz - off < sz then s.edImagesz - off else sz
  let t : Try := ⟨off, sz, io s.tries.length⟩
  (sz, decide (t.got = sz), { s with tries := s.tries ++ [t] })

/-- The loop over the bits from `hd` to `tl`, and the read after it; none if the bits do not end. -/
def vmLoop (io : Nat → Io) (tl : Bit) : Nat → Bit → Nat → Nat → Words → Elf → Option (Okay × Elf)
  | fuel, hd, off, sz, vm, s =>
      if hd = tl then
        if sz ≠ 0 then
          if s.edFd < 0 then some (.EREQ_NOFD, { s with edVm := some vm })
          else
            let r := fetch io off sz s
            some (if r.2.1 = true then .OK_YES else .EIO_VM, { r.2.2 with edVm := some vm })
        else some (.OK_YES, { s with edVm := some vm })
      else
        match fuel with
        | 0 => none
        | fuel + 1 =>
            if vm hd.reg &&& hd.bit ≠ 0 then
              if sz ≠ 0 then
                let r := fetch io off sz s
                if r.2.1 = true then vmLoop io tl fuel hd.next (off + r.1 + PGSZ) 0 vm r.2.2
                else some (.EIO_VM, { r.2.2 with edVm := some vm })
              else vmLoop io tl fuel hd.next (off + PGSZ) 0 vm s
            else if s.edFd < 0 then some (.EREQ_NOFD, { s with edVm := some vm })
            else
              vmLoop io tl fuel hd.next off (sz + PGSZ)
                (update vm hd.reg (vm hd.reg ||| hd.bit)) s

/-- `closed` is whether there is a parent whose file descriptor is -1. -/
def elfVm (io : Nat → Io) (closed : Bool) (base sz : Nat) (s : Elf) : Option (Okay × Elf) :=
  if s.edFsz ≤ base ∨ s.edFsz - base < sz then some (.EFMT_VM, s)
  else
    match s.edVm with
    | none => some (.OK_YES, s)
    | some vm =>
        if sz = 0 then some (.OK_YES, s)
        else
          let s := if closed = true then { s with edFd := -1 } else s
          let base := base + s.edBaseoff
          let tail := base + sz + PGSZ - 1
          vmLoop io (.at_ tail) (tail / PGSZ) (.at_ base) (base - base % PGSZ) 0 vm s

/-- `_elf_inmap` on a new descriptor: `fsize` is what `lseek` returns, none for -1. -/
def elfInmap (io : Nat → Io) (mmap malloc : Bool) (fsize : Option Nat) (fd : Int) : Option (Okay × Elf) :=
  let s : Elf := ⟨fd, 0, 0, 0, none, []⟩
  match fsize with
  | none => some (.EIO_FSZ, s)
  | some 0 => some (.OK_YES, s)
  | some (sz + 1) =>
      if mmap = true then some (.OK_YES, { s with edFsz := sz + 1, edImagesz := sz + 1 })
      else if malloc = false then some (.EMEM_VM, s)
      else elfVm io false 0 1 { s with edFsz := sz + 1, edImagesz := sz + 1, edVm := some fun _ => 0 }

/-! ### Bits and pages -/

def cursor (n : Nat) : Bit := ⟨n / 32, 1#32 <<< (n % 32)⟩

variable {io : Nat → Io} {s s' : Elf} {vm vm' : Words} {r : Okay} {a b n m p off sz fuel : Nat}

theorem at_eq (off : Nat) : Bit.at_ off = cursor (off / 2048) := by
  have hreg : off / 65536 = off / 2048 / 32 := by omega
  have hbit : off % 65536 / 2048 = off / 2048 % 32 := by omega
  change Bit.mk (off / 65536) (1#32 <<< (off % 65536 / 2048)) = _
  rw [hreg, hbit, cursor]

theorem shift_inj {i j : Nat} (hi : i < 32) (h : 1#32 <<< i = 1#32 <<< j) : i = j := by
  have hbit := getLsbD_one (i := j) hi
  rw [← h, getLsbD_one hi] at hbit
  simpa using hbit

theorem cursor_inj : cursor n = cursor m ↔ n = m := by
  refine ⟨fun h => ?_, fun h => h ▸ rfl⟩
  obtain ⟨hreg, hbit⟩ := Bit.mk.inj h
  have hmod := shift_inj (mod_lt n (by decide)) hbit
  omega

theorem next_cursor (n : Nat) : (cursor n).next = cursor (n + 1) := by
  unfold Bit.next cursor
  split_ifs with htop
  · have hmod : n % 32 = 31 := shift_inj (mod_lt n (by decide)) htop
    rw [show (n + 1) / 32 = n / 32 + 1 by omega, show (n + 1) % 32 = 0 by omega]
    rfl
  · have hmod : n % 32 ≠ 31 := fun h => htop (by rw [h]; rfl)
    rw [← BitVec.shiftLeft_add, show (n + 1) / 32 = n / 32 by omega,
      show (n + 1) % 32 = n % 32 + 1 by omega]

theorem marked_iff : vm (cursor n).reg &&& (cursor n).bit ≠ 0 ↔ btTest vm n = true := by
  have hlt : n % 32 < 32 := mod_lt n (by decide)
  unfold btTest cursor
  rw [index_eq, bit_eq]
  constructor
  · intro hne
    by_contra hoff
    refine hne (BitVec.eq_of_getLsbD_eq fun j hj => ?_)
    rw [BitVec.getLsbD_and, getLsbD_one hj, zero_off]
    by_cases hjn : j = n % 32
    · rw [hjn, eq_false_iff.mpr hoff, Bool.false_and]
    · rw [decide_eq_false hjn, Bool.and_false]
  · intro hon hzero
    have hbit : (vm (n / 32) &&& 1#32 <<< (n % 32)).getLsbD (n % 32) = true := by
      rw [BitVec.getLsbD_and, hon, getLsbD_one hlt]
      simp
    rw [hzero, zero_off] at hbit
    exact false_ne_true hbit

theorem mark_eq : update vm (cursor n).reg (vm (cursor n).reg ||| (cursor n).bit) = btSet vm n := by
  unfold btSet cursor
  rw [index_eq, bit_eq]

/-! ### What was read -/

def Try.Covers (t : Try) (p : Nat) : Prop := t.off ≤ p * 2048 ∧ p * 2048 < t.off + t.sz

/-- The bits are those of the pages from `a` to `n`, which are still to be read, and of the pages tried so far.
No page is tried twice. -/
structure Sound (s : Elf) (vm : Words) (a n : Nat) : Prop where
  marks : ∀ p, btTest vm p = true ↔ (a ≤ p ∧ p < n) ∨ ∃ t ∈ s.tries, t.Covers p
  apart : ∀ t ∈ s.tries, ∀ p, t.Covers p → ¬ (a ≤ p ∧ p < n)
  once : s.tries.Pairwise fun t u => ∀ p, t.Covers p → ¬ u.Covers p
  whole : ∀ t ∈ s.tries, t.off % 2048 = 0 ∧ (t.sz % 2048 = 0 ∨ t.off + t.sz = s.edImagesz)

theorem Sound.move (h : Sound s vm a a) (b : Nat) : Sound s vm b b :=
  { h with
    marks := fun p => (h.marks p).trans (or_congr_left ⟨by omega, by omega⟩)
    apart := fun t _ p _ => by omega }

theorem Sound.mark (h : Sound s vm a n) (han : a ≤ n) (hoff : ¬ btTest vm n = true) :
    Sound s (btSet vm n) a (n + 1) where
  marks p := by
    rw [btTest_btSet, or_eq_true, decide_eq_true_eq, h.marks p]
    constructor
    · rintro ((hp | ht) | rfl)
      · exact .inl ⟨hp.1, by omega⟩
      · exact .inr ht
      · exact .inl ⟨han, by omega⟩
    · rintro (hp | ht)
      · rcases Nat.lt_succ_iff_lt_or_eq.mp hp.2 with hlt | heq
        · exact .inl (.inl ⟨hp.1, hlt⟩)
        · exact .inr heq
      · exact .inl (.inr ht)
  apart t ht p hp hin := by
    rcases Nat.lt_succ_iff_lt_or_eq.mp hin.2 with hlt | rfl
    · exact h.apart t ht p hp ⟨hin.1, hlt⟩
    · exact hoff ((h.marks p).mpr (.inr ⟨t, ht, hp⟩))
  once := h.once
  whole := h.whole

/-- A try for the pages from `a` to `n`, all of which begin in the image. -/
theorem Sound.fetch (h : Sound s vm a n) (han : a < n) (hin : (n - 1) * 2048 < s.edImagesz) :
    Sound (fetch io (a * 2048) ((n - a) * 2048) s).2.2 vm b b := by
  obtain ⟨t, ht⟩ : ∃ t, t = (Try.mk (a * 2048) (if s.edImagesz - a * 2048 < (n - a) * 2048 then
    s.edImagesz - a * 2048 else (n - a) * 2048) (io s.tries.length)) := ⟨_, rfl⟩
  have hcovers : ∀ p, t.Covers p ↔ a ≤ p ∧ p < n := by
    intro p
    unfold Try.Covers
    rw [ht]
    dsimp only
    split_ifs <;> omega
  have htries : (InputVm.fetch io (a * 2048) ((n - a) * 2048) s).2.2 = { s with tries := s.tries ++ [t] } := by
    rw [ht]
    rfl
  rw [htries]
  constructor
  · intro p
    rw [h.marks p, ← hcovers p]
    simp only [mem_append, mem_singleton]
    constructor
    · rintro (hp | ⟨u, hu, hp⟩)
      · exact .inr ⟨t, .inr rfl, hp⟩
      · exact .inr ⟨u, .inl hu, hp⟩
    · rintro (hp | ⟨u, hu | rfl, hp⟩)
      · omega
      · exact .inr ⟨u, hu, hp⟩
      · exact .inl hp
  · exact fun u _ p _ => by omega
  · refine pairwise_append.mpr ⟨h.once, pairwise_singleton _ _, fun u hu v hv p hup hvp => ?_⟩
    rw [mem_singleton.mp hv, hcovers] at hvp
    exact h.apart u hu p hup hvp
  · intro u hu
    rcases mem_append.mp hu with hu | hu
    · exact h.whole u hu
    · rw [mem_singleton.mp hu, ht]
      dsimp only
      split_ifs <;> omega

/-- What a request leaves: every page from `n` to `m` has its bit, and was read whole if it was not marked before. -/
structure Done (s : Elf) (vm : Words) (n m : Nat) (r : Okay) (s' : Elf) (vm' : Words) : Prop where
  bits : s'.edVm = some vm'
  sound : Sound s' vm' 0 0
  kept : ∀ p, btTest vm p = true → btTest vm' p = true
  marked : r = .OK_YES → ∀ p, n ≤ p → p < m → btTest vm' p = true
  tries : ∃ new, s'.tries = s.tries ++ new ∧ (r = .OK_YES → ∀ t ∈ new, t.got = t.sz)
  same : s'.edBaseoff = s.edBaseoff ∧ s'.edFsz = s.edFsz ∧ s'.edImagesz = s.edImagesz

theorem Done.stop (h : Sound s vm 0 0) (hno : r = .OK_YES → n = m) :
    Done s vm n m r { s with edVm := some vm } vm where
  bits := rfl
  sound := { marks := h.marks, apart := h.apart, once := h.once, whole := h.whole }
  kept _ hp := hp
  marked hr p _ _ := by
    have heq := hno hr
    omega
  tries := ⟨[], (append_nil _).symm, fun _ t ht => absurd ht not_mem_nil⟩
  same := ⟨rfl, rfl, rfl⟩

theorem fetch_tries (io : Nat → Io) (off sz : Nat) (s : Elf) : ∃ t : Try, (fetch io off sz s).2.2.tries = s.tries ++ [t] ∧
    ((fetch io off sz s).2.1 = true → t.got = t.sz) :=
  ⟨_, rfl, of_decide_eq_true⟩

/-- The answer to a read of the pages up to `n`, where the request ends or the read fails. -/
theorem Done.fetch (h : Sound s vm a n) (han : a < n) (hin : (n - 1) * 2048 < s.edImagesz)
    (hyes : r = .OK_YES → n = m ∧ (InputVm.fetch io (a * 2048) ((n - a) * 2048) s).2.1 = true) :
    Done s vm n m r
      { (InputVm.fetch io (a * 2048) ((n - a) * 2048) s).2.2 with edVm := some vm } vm := by
  obtain ⟨t, ht, hgot⟩ := fetch_tries io (a * 2048) ((n - a) * 2048) s
  have hdone : Done (InputVm.fetch io (a * 2048) ((n - a) * 2048) s).2.2 vm n m r _ vm :=
    .stop (h.fetch han hin) fun hr => (hyes hr).1
  refine { hdone with tries := ⟨[t], ht, fun hr u hu => ?_⟩, same := ⟨rfl, rfl, rfl⟩ }
  rw [mem_singleton.mp hu]
  exact hgot (hyes hr).2

theorem Done.step {s₁ : Elf} {vm₁ : Words} (h : Done s₁ vm₁ (n + 1) m r s' vm')
    (hmarks : ∀ p, btTest vm p = true ∨ p = n → btTest vm₁ p = true)
    (htries : ∃ new, s₁.tries = s.tries ++ new ∧ ∀ t ∈ new, t.got = t.sz)
    (hsame : s₁.edBaseoff = s.edBaseoff ∧ s₁.edFsz = s.edFsz ∧ s₁.edImagesz = s.edImagesz) :
    Done s vm n m r s' vm' where
  bits := h.bits
  sound := h.sound
  kept p hp := h.kept p (hmarks p (.inl hp))
  marked hr p hn hm := by
    rcases eq_or_lt_of_le hn with rfl | hlt
    · exact h.kept n (hmarks n (.inr rfl))
    · exact h.marked hr p hlt hm
  tries := by
    obtain ⟨new, hnew, hall⟩ := htries
    obtain ⟨more, hmore, hmall⟩ := h.tries
    refine ⟨new ++ more, by rw [hmore, hnew, append_assoc], fun hr t ht => ?_⟩
    exact (mem_append.mp ht).elim (hall t) (hmall hr t)
  same := by
    rw [h.same.1, h.same.2.1, h.same.2.2]
    exact hsame

section

variable (h : Sound s vm a n) (han : a ≤ n) (hfd : a < n → 0 ≤ s.edFd)
include h han hfd

theorem vmLoop_end (hin : (n - 1) * 2048 < s.edImagesz) :
    ∃ r s' vm', vmLoop io (cursor n) fuel (cursor n) (a * 2048) ((n - a) * 2048) vm s = some (r, s') ∧
      Done s vm n n r s' vm' := by
  rw [vmLoop.eq_def]
  dsimp only
  rw [if_pos rfl]
  rcases eq_or_lt_of_le han with rfl | hlt
  · rw [if_neg (by omega)]
    exact ⟨_, _, vm, rfl, Done.stop (h.move 0) fun _ => rfl⟩
  · rw [if_pos (by omega), if_neg (Int.not_lt.mpr (hfd hlt))]
    refine ⟨_, _, vm, rfl, Done.fetch h hlt hin fun hr => ⟨rfl, ?_⟩⟩
    by_contra hfail
    rw [if_neg hfail] at hr
    cases hr

variable (io) in
/-- The pages from `a` to `n` are those that the next read is for. -/
theorem vmLoop_done (hnm : n ≤ m) (hfuel : m - n ≤ fuel) (hin : (m - 1) * 2048 < s.edImagesz) :
    ∃ r s' vm', vmLoop io (cursor m) fuel (cursor n) (a * 2048) ((n - a) * 2048) vm s = some (r, s') ∧
      Done s vm n m r s' vm' := by
  induction fuel generalizing s vm a n with
  | zero =>
    obtain rfl : n = m := by omega
    exact vmLoop_end h han hfd hin
  | succ fuel ih =>
    by_cases heq : n = m
    · subst heq
      exact vmLoop_end h han hfd hin
    rw [vmLoop, if_neg (fun h => heq (cursor_inj.mp h))]
    rw [next_cursor]
    by_cases hon : btTest vm n = true
    · rw [if_pos (marked_iff.mpr hon)]
      have hmarks : ∀ p, btTest vm p = true ∨ p = n → btTest vm p = true := by
        rintro p (hp | rfl)
        · exact hp
        · exact hon
      rcases Nat.eq_or_lt_of_le han with rfl | hlt
      · rw [if_neg (by omega)]
        obtain ⟨r, s', vm', hrun, hdone⟩ := ih (h.move (a + 1)) le_rfl (by omega) (by omega) (by omega) hin
        refine ⟨r, s', vm', ?_, hdone.step hmarks ⟨[], (append_nil _).symm, nofun⟩ ⟨rfl, rfl, rfl⟩⟩
        rw [← hrun, Nat.sub_self, zero_mul, Nat.succ_mul]
        rfl
      · have hpage : (n - 1) * 2048 < s.edImagesz :=
          lt_of_le_of_lt (Nat.mul_le_mul_right 2048 (Nat.sub_le_sub_right hnm 1)) hin
        rw [if_pos (by omega)]
        by_cases hok : (fetch io (a * 2048) ((n - a) * 2048) s).2.1 = true
        · rw [if_pos hok]
          obtain ⟨r, s', vm', hrun, hdone⟩ := ih (s := (fetch io (a * 2048) ((n - a) * 2048) s).2.2)
            (h.fetch (b := n + 1) hlt hpage) le_rfl (by omega) (by omega) (by omega) hin
          obtain ⟨t, ht, hgot⟩ := fetch_tries io (a * 2048) ((n - a) * 2048) s
          refine ⟨r, s', vm', ?_, hdone.step hmarks ⟨[t], ht, fun u hu => ?_⟩ ⟨rfl, rfl, rfl⟩⟩
          · have hsz : (fetch io (a * 2048) ((n - a) * 2048) s).1 = (n - a) * 2048 :=
              if_neg (show ¬ s.edImagesz - a * 2048 < (n - a) * 2048 by omega)
            have hoff : a * 2048 + (n - a) * 2048 + PGSZ = (n + 1) * 2048 := by
              change a * 2048 + (n - a) * 2048 + 2048 = _
              omega
            rw [← hrun, Nat.sub_self, zero_mul, hsz, hoff]
          · rw [mem_singleton.mp hu]
            exact hgot hok
        · rw [if_neg hok]
          exact ⟨_, _, vm, rfl, Done.fetch h hlt hpage fun hr => nomatch hr⟩
    · rw [if_neg (fun hm => hon (marked_iff.mp hm))]
      by_cases hneg : s.edFd < 0
      · rw [if_pos hneg]
        obtain rfl : a = n := by
          by_contra hne
          omega
        exact ⟨_, _, vm, rfl, Done.stop (h.move 0) fun hr => nomatch hr⟩
      · rw [if_neg hneg, mark_eq]
        obtain ⟨r, s', vm', hrun, hdone⟩ := ih (h.mark han hon) (by omega) (fun _ => by omega) (by omega)
          (by omega) hin
        have hsz : (n - a) * 2048 + PGSZ = (n + 1 - a) * 2048 := by
          change (n - a) * 2048 + 2048 = _
          omega
        refine ⟨r, s', vm', by rw [hsz, hrun], hdone.step ?_ ⟨[], (append_nil _).symm, fun t ht =>
          absurd ht not_mem_nil⟩ ⟨rfl, rfl, rfl⟩⟩
        intro p hp
        rw [btTest_btSet, or_eq_true, decide_eq_true_eq]
        exact hp

end

/-! ### Requests -/

/-- Byte `x` of the file has been put into the image. -/
def InImage (s : Elf) (x : Nat) : Prop :=
  s.edVm = none ∨ ∃ t ∈ s.tries, t.off ≤ x ∧ x < t.off + t.got

/-- The request is for a page for which an earlier `lseek` or `read` failed. -/
def AsksAgain (s : Elf) (base sz : Nat) : Prop :=
  ∃ t ∈ s.tries, t.got ≠ t.sz ∧ ∃ x, base + s.edBaseoff ≤ x ∧ x < base + s.edBaseoff + sz ∧ t.Covers (x / 2048)

structure Good (s : Elf) : Prop where
  pages : ∀ vm, s.edVm = some vm → Sound s vm 0 0
  once : s.tries.Pairwise fun t u => ∀ p, t.Covers p → ¬ u.Covers p
  fits : s.edBaseoff + s.edFsz ≤ s.edImagesz

/-- What a request does to a descriptor. -/
structure Served (s : Elf) (base sz : Nat) (r : Okay) (s' : Elf) : Prop where
  good : Good s'
  image : r = .OK_YES → ¬ AsksAgain s base sz →
    ∀ x, base + s.edBaseoff ≤ x → x < base + s.edBaseoff + sz → InImage s' x

theorem Done.inImage (h : Done s vm n m r s' vm') (hr : r = .OK_YES) (hn : n ≤ off / 2048) (hm : off / 2048 < m)
    (hold : ∀ t ∈ s.tries, t.Covers (off / 2048) → t.got = t.sz) (hin : off < s.edImagesz) :
    InImage s' off := by
  obtain ⟨new, hnew, hall⟩ := h.tries
  rcases (h.sound.marks _).mp (h.marked hr _ hn hm) with hp | ⟨t, ht, hp⟩
  · omega
  have hgot : t.got = t.sz := by
    rw [hnew] at ht
    exact (mem_append.mp ht).elim (hold t · hp) (hall hr t)
  have hwhole := h.sound.whole t ht
  rw [h.same.2.2] at hwhole
  obtain ⟨hlo, hhi⟩ := hp
  exact .inr ⟨t, ht, by omega, by omega⟩

theorem elfVm_served (io : Nat → Io) (closed : Bool) (base sz : Nat) (h : Good s) :
    ∃ r s', elfVm io closed base sz s = some (r, s') ∧ Served s base sz r s' := by
  unfold elfVm
  by_cases hrange : s.edFsz ≤ base ∨ s.edFsz - base < sz
  · rw [if_pos hrange]
    exact ⟨_, _, rfl, h, fun hr => nomatch hr⟩
  rw [if_neg hrange]
  cases hvm : s.edVm with
  | none => exact ⟨_, _, rfl, h, fun _ _ x _ _ => .inl hvm⟩
  | some vm =>
    dsimp only
    by_cases hsz : sz = 0
    · rw [if_pos hsz]
      exact ⟨_, _, rfl, h, fun _ _ x hlo hhi => by omega⟩
    rw [if_neg hsz, at_eq, at_eq]
    have hfits := h.fits
    obtain ⟨s₁, hs₁, hbase, hfsz, himage, htries⟩ : ∃ s₁, s₁ = (if closed = true then { s with edFd := -1, edVm := some vm } else s) ∧
        s₁.edBaseoff = s.edBaseoff ∧ s₁.edFsz = s.edFsz ∧ s₁.edImagesz = s.edImagesz ∧ s₁.tries = s.tries := by
      refine ⟨_, rfl, ?_⟩
      split_ifs <;> exact ⟨rfl, rfl, rfl, rfl⟩
    rw [← hs₁, hbase]
    have hsound := h.pages vm hvm
    have hstart : Sound s₁ vm ((base + s.edBaseoff) / 2048) ((base + s.edBaseoff) / 2048) := by
      refine Sound.move (a := 0) ?_ _
      constructor
      · rw [htries]
        exact hsound.marks
      · rw [htries]
        exact hsound.apart
      · rw [htries]
        exact hsound.once
      · rw [htries, himage]
        exact hsound.whole
    have htail : base + s.edBaseoff + sz + PGSZ - 1 = base + s.edBaseoff + sz + 2047 := rfl
    rw [htail]
    have hend : (base + s.edBaseoff) / 2048 ≤ (base + s.edBaseoff + sz + 2047) / 2048 := by omega
    obtain ⟨r, s', vm', hrun, hdone⟩ := vmLoop_done io hstart le_rfl (by omega) hend
      (Nat.sub_le _ _) (by omega)
    refine ⟨r, s', ?_, ⟨?_, hdone.sound.once, ?_⟩, ?_⟩
    · rw [← hrun, Nat.sub_self, zero_mul]
      congr 2
      change base + s.edBaseoff - (base + s.edBaseoff) % 2048 = _
      omega
    · intro vm₂ hvm₂
      obtain rfl := some.inj (hdone.bits.symm.trans hvm₂)
      exact hdone.sound
    · rw [hdone.same.1, hdone.same.2.1, hdone.same.2.2, hbase, hfsz, himage]
      exact hfits
    · intro hr hnew x hlo hhi
      refine hdone.inImage hr (by omega) (by omega) (fun t ht hp => ?_) (by omega)
      by_contra hgot
      exact hnew ⟨t, htries ▸ ht, hgot, x, hlo, hhi, hp⟩

/-- The states of the descriptors of one image: `elf_cntl` gives up the file, and a member of an archive begins
at an offset of its own. -/
inductive Reach (io : Nat → Io) : Elf → Prop
  | inmap {mmap malloc : Bool} {fsize : Option Nat} {fd : Int} {r : Okay} {s : Elf}
      (h : elfInmap io mmap malloc fsize fd = some (r, s)) : Reach io s
  | vm {closed : Bool} {base sz : Nat} {s : Elf} {r : Okay} {s' : Elf} (hs : Reach io s)
      (h : elfVm io closed base sz s = some (r, s')) : Reach io s'
  | cntl {s : Elf} (hs : Reach io s) : Reach io { s with edFd := -1 }
  | member {s : Elf} (hs : Reach io s) (base fsz : Nat) (hfits : base + fsz ≤ s.edImagesz) :
      Reach io { s with edBaseoff := base, edFsz := fsz }

theorem Reach.good (h : Reach io s) : Good s := by
  induction h with
  | @inmap mmap malloc fsize fd r s h =>
    unfold elfInmap at h
    have hnew : ∀ n, Good ⟨fd, 0, n, n, none, []⟩ := fun n =>
      ⟨fun _ h => (nomatch h), Pairwise.nil, by simp⟩
    split at h
    · obtain ⟨-, rfl⟩ := mk.inj (some.inj h)
      exact hnew 0
    · obtain ⟨-, rfl⟩ := mk.inj (some.inj h)
      exact hnew 0
    · rename_i n
      split_ifs at h
      · obtain ⟨-, rfl⟩ := mk.inj (some.inj h)
        exact hnew (n + 1)
      · obtain ⟨-, rfl⟩ := mk.inj (some.inj h)
        exact hnew 0
      · have hzero : Good ⟨fd, 0, n + 1, n + 1, some fun _ => 0, []⟩ := by
          refine ⟨fun vm hvm => ?_, Pairwise.nil, by simp⟩
          obtain rfl := some.inj hvm
          refine ⟨fun p => ?_, ?_, Pairwise.nil, ?_⟩
          · simp [btTest]
          · exact nofun
          · exact nofun
        obtain ⟨r', s', hrun, hserved⟩ := elfVm_served io false 0 1 hzero
        obtain ⟨-, rfl⟩ := mk.inj (some.inj (hrun.symm.trans h))
        exact hserved.good
  | @vm closed base sz s r s' _ h ih =>
    obtain ⟨r', s'', hrun, hserved⟩ := elfVm_served io closed base sz ih
    obtain ⟨-, rfl⟩ := mk.inj (some.inj (hrun.symm.trans h))
    exact hserved.good
  | cntl _ ih =>
    refine ⟨fun vm hvm => ?_, ih.once, ih.fits⟩
    have hsound := ih.pages vm hvm
    exact ⟨hsound.marks, hsound.apart, hsound.once, hsound.whole⟩
  | member _ base fsz hfits ih =>
    refine ⟨fun vm hvm => ?_, ih.once, hfits⟩
    have hsound := ih.pages vm hvm
    exact ⟨hsound.marks, hsound.apart, hsound.once, hsound.whole⟩

/-- Whatever fails, no page is read twice, and a request that does not ask again for a page that could not be read
is only granted when all its bytes were read. -/
theorem elfVm_image (io : Nat → Io) (s : Elf) (h : Reach io s) :
    (s.tries.Pairwise fun t u => ∀ p, t.Covers p → ¬ u.Covers p) ∧
      ∀ closed base sz, ∃ r s', elfVm io closed base sz s = some (r, s') ∧
        (r = .OK_YES → ¬ AsksAgain s base sz →
          ∀ x, base + s.edBaseoff ≤ x → x < base + s.edBaseoff + sz → InImage s' x) := by
  refine ⟨h.good.once, fun closed base sz => ?_⟩
  obtain ⟨r, s', hrun, hserved⟩ := elfVm_served io closed base sz h.good
  exact ⟨r, s', hrun, hserved.image⟩

/-- A file of two pages, of which the second cannot be read at first. -/
def failsOnce (n : Nat) : Io := if n = 1 then .fails else .read 2048

def firstPage : Elf := ⟨3, 0, 4096, 4096, some (update (fun _ => 0) 0 1), [⟨0, 2048, .read 2048⟩]⟩

theorem firstPage_reach : Reach failsOnce firstPage :=
  @Reach.inmap _ false true (some 4096) 3 .OK_YES _ rfl

theorem elfVm_image_two : (firstPage.tries.Pairwise fun t u => ∀ p, t.Covers p → ¬ u.Covers p) ∧
    ∀ closed base sz, ∃ r s', elfVm failsOnce closed base sz firstPage = some (r, s') ∧
      (r = .OK_YES → ¬ AsksAgain firstPage base sz →
        ∀ x, base + firstPage.edBaseoff ≤ x → x < base + firstPage.edBaseoff + sz → InImage s' x) :=
  elfVm_image failsOnce firstPage firstPage_reach

/-- After the request for the second page that fails. -/
def marked : Elf :=
  { firstPage with
    edVm := some (update (update (fun _ => 0) 0 1) 0 3)
    tries := [⟨0, 2048, .read 2048⟩, ⟨2048, 2048, .fails⟩] }

/-- The second request for it is granted without a read. -/
theorem elfVm_unread : Reach failsOnce marked ∧ elfVm failsOnce false 2048 1 marked = some (.OK_YES, marked) ∧
    ¬ InImage marked 2048 := by
  refine ⟨@Reach.vm _ false 2048 1 _ .EIO_VM _ firstPage_reach rfl, rfl, ?_⟩
  rintro (hvm | ⟨t, ht, hlo, hhi⟩)
  · cases hvm
  · rcases mem_cons.mp ht with rfl | ht
    · exact absurd hhi (by decide)
    · rw [mem_singleton.mp ht] at hhi
      exact absurd hhi (by decide)

end Svr42.InputVm
