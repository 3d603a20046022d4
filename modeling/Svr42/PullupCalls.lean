import Svr42.PullupCopy

/-! What `pullupmsg` makes of a message. -/

namespace Svr42.Pull
open Function List

variable {M D : Type} {s s' u : Sys M D} {start : Option M}
  {cells rest left : List M} {mp : M} {d e : D} {len : Int} {n : Nat} {avail : Avail D}

/-! ### The special cases -/

theorem xmsgsizeLoop_returns (type : UInt8) : ∀ (cells : List M) (start : Option M) (count : Nat),
    Linked (fun bp => (s.msg bp).bCont) start cells →
      Returns (fun fuel => xmsgsizeLoop fuel s type start count) (count + leading s type cells)
  | [], start, count, h => by
    have hnone : start = none := h
    subst hnone
    exact (Returns.const count).succ fun _ => rfl
  | bp :: rest, start, count, h => by
    have hstart : start = some bp := h.1
    subst hstart
    by_cases htype : type = dbType s bp
    · have hrest := xmsgsizeLoop_returns type rest (s.msg bp).bCont (count + size (s.msg bp)) h.2
      rw [leading, if_pos htype, ← Nat.add_assoc]
      exact hrest.succ fun fuel => if_neg (not_not.mpr htype)
    · rw [leading, if_neg htype]
      exact (Returns.const count).succ fun fuel => if_pos htype

/-- The bytes that the first block is to have: `len`, or all up to the first block of another
type. -/
def needed (s : Sys M D) (mp : M) (cells : List M) (len : Int) : Int :=
  if len = -1 then leading s (dbType s mp) cells else len

/-- The first block is empty and does not stay, and there is nothing that is to be copied. -/
def NothingToPull (s : Sys M D) (mp : M) (cells : List M) (len : Int) : Prop :=
  size (s.msg mp) = 0 ∧
    if len = -1 ∧ (s.msg mp).bCont ≠ none then leading s (dbType s mp) cells = 0
    else len ≤ 0 ∧ ¬ strAligned (s.msg mp).bRptr

/-- The special cases: what is returned at once, and how much is pulled up otherwise. -/
structure Sorted (s : Sys M D) (mp : M) (cells : List M) (len : Int) (todo : Special) : Prop where
  ret : todo = .ret true → strAligned (s.msg mp).bRptr ∧ needed s mp cells len ≤ size (s.msg mp)
  pull : ∀ n, todo = .pull n → size (s.msg mp) ≤ n ∧ n ≤ leading s (dbType s mp) cells ∧
    needed s mp cells len ≤ n
  zero : todo = .pull 0 ↔ NothingToPull s mp cells len

theorem leading_cons (s : Sys M D) (mp : M) (rest : List M) :
    leading s (dbType s mp) (mp :: rest) = size (s.msg mp) + leading s (dbType s mp) rest := if_pos rfl

theorem sorted_first (hlen : len ≤ size (s.msg mp) ∨ len = -1)
    (hone : len = -1 → (s.msg mp).bCont = none ∧ leading s (dbType s mp) cells = size (s.msg mp))
    (hle : size (s.msg mp) ≤ leading s (dbType s mp) cells) : Sorted s mp cells len
      (if strAligned (s.msg mp).bRptr then .ret true else .pull (size (s.msg mp))) := by
  have hneeded : needed s mp cells len ≤ size (s.msg mp) := by
    unfold needed
    split_ifs with hall
    · exact Int.le_of_eq (congrArg Int.ofNat (hone hall).2)
    · exact hlen.resolve_right hall
  have hnot : ¬ (len = -1 ∧ (s.msg mp).bCont ≠ none) := fun hand => hand.2 (hone hand.1).1
  split_ifs with haligned
  · refine ⟨fun _ => ⟨haligned, hneeded⟩, nofun, iff_of_false nofun fun hzero => ?_⟩
    have hleft := hzero.2
    rw [if_neg hnot] at hleft
    exact hleft.2 haligned
  · refine ⟨nofun, fun n hn => ?_, ?_⟩
    · rw [← Special.pull.inj hn]
      exact ⟨Nat.le_refl _, hle, hneeded⟩
    · rw [NothingToPull, if_neg hnot, Special.pull.injEq]
      refine ⟨fun hzero => ⟨hzero, ?_, haligned⟩, fun hzero => hzero.1⟩
      rcases hlen with hlen | hlen
      · rw [hzero] at hlen
        exact hlen
      · omega

theorem special_returns (h : Linked (fun bp => (s.msg bp).bCont) (some mp) (mp :: rest)) (len : Int) :
    ∃ todo, Returns (fun fuel => special fuel s mp len) todo ∧ Sorted s mp (mp :: rest) len todo := by
  have hsize := xmsgsizeLoop_returns (dbType s mp) (mp :: rest) (some mp) 0 h
  rw [Nat.zero_add] at hsize
  have hlead := leading_cons s mp rest
  have hle : size (s.msg mp) ≤ leading s (dbType s mp) (mp :: rest) := by omega
  by_cases hall : len = -1
  · by_cases hcont : (s.msg mp).bCont = none
    · have hnil : rest = [] := List.head?_eq_none_iff.mp (h.2.start_eq.symm.trans hcont)
      subst hnil
      refine ⟨_, (Returns.const _).of_eq fun fuel => ?_, sorted_first (Or.inr hall)
        (fun _ => ⟨hcont, hlead⟩) hle⟩
      unfold special
      rw [if_pos hall, if_pos hcont]
      split_ifs
      · rfl
      · rfl
    · refine ⟨.pull (leading s (dbType s mp) (mp :: rest)), (hsize.map Special.pull).of_eq fun fuel => ?_,
        nofun, fun n hn => ?_, ?_⟩
      · unfold special
        rw [if_pos hall, if_neg hcont]
        rfl
      · rw [← Special.pull.inj hn, needed, if_pos hall]
        exact ⟨hle, Nat.le_refl _, Int.le_refl _⟩
      · rw [NothingToPull, if_pos ⟨hall, hcont⟩, Special.pull.injEq]
        refine ⟨fun hzero => ⟨?_, hzero⟩, fun hzero => hzero.2⟩
        omega
  · by_cases hfits : len ≤ size (s.msg mp)
    · refine ⟨_, (Returns.const _).of_eq fun fuel => ?_, sorted_first (Or.inl hfits)
        (fun heq => absurd heq hall) hle⟩
      unfold special
      rw [if_neg hall, if_pos hfits]
      split_ifs
      · rfl
      · rfl
    have hnothing : ¬ NothingToPull s mp (mp :: rest) len := fun hzero => by
      have hleft := hzero.2
      rw [if_neg fun hand => hall hand.1] at hleft
      omega
    refine ⟨_, (hsize.map fun (n : Nat) =>
      if (n : Int) < len then .ret false else .pull len.toNat).of_eq fun fuel => ?_, ?_⟩
    · unfold special
      rw [if_neg hall, if_neg hfits]
      rfl
    · split_ifs with hshort
      · exact ⟨nofun, nofun, iff_of_false nofun hnothing⟩
      · refine ⟨nofun, fun n hn => ?_, iff_of_false (fun hzero => ?_) hnothing⟩
        · rw [← Special.pull.inj hn, needed, if_neg hall]
          omega
        · have hnone := Special.pull.inj hzero
          omega

/-- The allocators have aligned buffers, and data blocks that the message does not have. -/
structure Fresh (avail : Avail D) (s : Sys M D) (cells : List M) : Prop where
  mdbblock : ∀ d a, avail.mdbblock = some (d, a) →
    strAligned a ∧ ∀ bp ∈ cells, (s.msg bp).bDatap ≠ d
  kmem : ∀ n a, avail.kmem n = some a → strAligned a

variable {db : Datab}

variable [DecidableEq M] [DecidableEq D]

/-- The data of the block is in a buffer that no other block refers to. -/
structure Own (s : Sys M D) (mp : M) : Prop where
  ref : (s.data (s.msg mp).bDatap).dbRef = 1
  base : (s.data (s.msg mp).bDatap).dbBase ≤ (s.msg mp).bRptr
  lim : (s.msg mp).bWptr ≤ (s.data (s.msg mp).bDatap).dbLim

/-- The message is the same, and the first block has the bytes that are needed. -/
structure Pulled (s s' : Sys M D) (mp : M) (cells cells' : List M) (need : Int) : Prop where
  message : Message s' (some mp) cells'
  tagged : tagged s' cells' = Pull.tagged s cells
  type : dbType s' mp = dbType s mp
  enough : need ≤ size (s'.msg mp)
  aligned : strAligned (s'.msg mp).bRptr

/-- What is true of the message when `n` bytes have been pulled up. -/
def Done (s s' : Sys M D) (mp : M) (cells : List M) (need : Int) (r : Bool) : Prop :=
  (r = false → s' = s) ∧
    (r = true → ∃ cells', Pulled s s' mp cells cells' need ∧ Own s' mp)

/-- The call returns, and the message is the same; if it says so the first block has the bytes that
are needed, and is as `fit` has it. -/
def Outcome (avail : Avail D) (s : Sys M D) (mp : M) (cells : List M) (len : Int)
    (fit : Sys M D → Prop) : Prop :=
  ∃ s' r, Returns (fun fuel => pullupmsg avail fuel s mp len) (s', r) ∧
    (r = false → s' = s) ∧
    (r = true → ∃ cells', Pulled s s' mp cells cells' (needed s mp cells len) ∧ fit s')

def shared : Sys Unit Unit where
  msg _ := { bCont := none, bRptr := 4, bWptr := 8, bDatap := () }
  data _ := { dbRef := 2, dbType := 0, dbBase := 0, dbLim := 8, dbData := fun _ => 65 }
  inUse _ := true

/-- With nothing to be pulled up a shared first block is made its own continuation. -/
theorem pullupmsg_cycle (h : Message s (some mp) cells) (hshared : 1 < (s.data (s.msg mp).bDatap).dbRef)
    (hnothing : NothingToPull s mp cells len) {mdb : D × Nat} (hmdb : avail.mdbblock = some mdb) :
    ∃ s', Returns (fun fuel => pullupmsg avail fuel s mp len) (s', true) ∧
      (s'.msg mp).bCont = some mp := by
  obtain ⟨rest, rfl⟩ : ∃ rest, cells = mp :: rest := by
    cases cells with
    | nil => cases h.linked
    | cons bp rest => exact ⟨rest, by rw [Option.some.inj h.linked.1]⟩
  obtain ⟨todo, htodo, hsorted⟩ := special_returns h.linked len
  have hzero : todo = .pull 0 := hsorted.zero.mpr hnothing
  subst hzero
  obtain ⟨db, hdb⟩ : ∃ db, allocb avail 0 = some (mdb.1, db) := by
    unfold allocb
    rw [hmdb]
    exact ⟨_, rfl⟩
  have hloop : Returns (fun fuel => pullLoop fuel (unshare s (s.msg mp).bDatap mdb.1 db) mp 0
      (some mp) []) (unshare s (s.msg mp).bDatap mdb.1 db, some mp, []) :=
    (Returns.const _).succ fun _ => rfl
  have hpull : Returns (fun fuel => pullup avail fuel s mp 0)
      (newData (unshare s (s.msg mp).bDatap mdb.1 db) mp mdb.1 (some mp, []), true) := by
    refine (hloop.map fun r => (newData r.1 mp mdb.1 r.2, true)).of_eq fun fuel => ?_
    unfold pullup
    rw [if_pos hshared, hdb]
  exact ⟨_, htodo.bind hpull, congrArg Msgb.bCont (msg_setMsg _ _ _)⟩

/-- A block with no bytes, of a data block that another one refers to as well. -/
def hollow : Sys Unit Bool where
  msg _ := { bCont := none, bRptr := 5, bWptr := 5, bDatap := false }
  data _ := { dbRef := 2, dbType := 0, dbBase := 4, dbLim := 8, dbData := fun _ => 65 }
  inUse _ := true

theorem pullupmsg_cycle_hollow : ∃ s', Returns (fun fuel => pullupmsg
      { mdbblock := some (true, 16), kmem := fun _ => none, bytes := fun _ => 0 } fuel hollow () 0)
      (s', true) ∧ (s'.msg ()).bCont = some () := by
  have hmessage : Message hollow (some ()) [()] :=
    ⟨⟨rfl, rfl⟩, by decide, fun d => by cases d <;> simp [hollow]⟩
  exact pullupmsg_cycle hmessage (by decide) ⟨rfl, by decide⟩ rfl

end Svr42.Pull
