import Svr42.PullupModel

/-! What the loop of `pullupmsg` copies, and what it leaves. -/

namespace Svr42.Pull
open Function List

variable {M D : Type} {s s' t : Sys M D} {start : Option M} {cells rest rest' : List M} {bp mp : M}
  {b : Msgb M D} {d : D} {len : Nat} {out : List UInt8}

def bytes (s : Sys M D) (bp : M) : List UInt8 :=
  copyOut (s.data (s.msg bp).bDatap).dbData (s.msg bp).bRptr (size (s.msg bp))

def tagged (s : Sys M D) (cells : List M) : List (UInt8 × UInt8) :=
  cells.flatMap fun bp => (bytes s bp).map fun c => (dbType s bp, c)

def leading (s : Sys M D) (type : UInt8) : List M → Nat
  | [] => 0
  | bp :: rest => if type = dbType s bp then size (s.msg bp) + leading s type rest else 0

def SameData (db db' : Datab) : Prop :=
  db'.dbType = db.dbType ∧ db'.dbBase = db.dbBase ∧ db'.dbLim = db.dbLim ∧ db'.dbData = db.dbData

theorem SameData.refl (db : Datab) : SameData db db := ⟨rfl, rfl, rfl, rfl⟩

theorem SameData.trans {db db' db'' : Datab} (h : SameData db db') (h' : SameData db' db'') :
    SameData db db'' :=
  ⟨h'.1.trans h.1, h'.2.1.trans h.2.1, h'.2.2.1.trans h.2.2.1, h'.2.2.2.trans h.2.2.2⟩

theorem length_bytes (s : Sys M D) (bp : M) : (bytes s bp).length = size (s.msg bp) :=
  length_copyOut _ _ _

theorem tagged_cons (s : Sys M D) (bp : M) (rest : List M) :
    tagged s (bp :: rest) = ((bytes s bp).map fun c => (dbType s bp, c)) ++ tagged s rest :=
  flatMap_cons

theorem tagged_congr (hmsg : ∀ bp ∈ cells, s'.msg bp = s.msg bp)
    (hdata : ∀ bp ∈ cells, SameData (s.data (s.msg bp).bDatap) (s'.data (s.msg bp).bDatap)) :
    tagged s' cells = tagged s cells := by
  refine flatMap_congr fun bp hbp => ?_
  obtain ⟨htype, -, -, hbytes⟩ := hdata bp hbp
  unfold bytes dbType
  rw [hmsg bp hbp, htype, hbytes]

theorem bytes_drop {n : Nat} (hn : n ≤ size (s.msg bp)) :
    bytes s bp = copyOut (s.data (s.msg bp).bDatap).dbData (s.msg bp).bRptr n ++
      copyOut (s.data (s.msg bp).bDatap).dbData ((s.msg bp).bRptr + n) (size (s.msg bp) - n) := by
  rw [← copyOut_split, Nat.add_sub_cancel' hn]
  rfl

section

variable [DecidableEq M]

theorem msg_setMsg (s : Sys M D) (bp : M) (b : Msgb M D) : (setMsg s bp b).msg bp = b :=
  update_self _ _ _

theorem msg_setMsg_of_ne {bq : M} (hne : bq ≠ bp) : (setMsg s bp b).msg bq = s.msg bq :=
  update_of_ne hne _ _

end

theorem leading_le (type : UInt8) : ∀ cells : List M, leading s type cells ≤ (tagged s cells).length
  | [] => Nat.le_refl 0
  | bp :: rest => by
    have hrest := leading_le type rest
    rw [leading, tagged_cons, length_append, length_map, length_bytes]
    split_ifs
    · omega
    · omega

variable [DecidableEq D]

/-- The blocks from `start` on, and that their data blocks count them. -/
structure Message (s : Sys M D) (start : Option M) (cells : List M) : Prop where
  linked : Linked (fun bp => (s.msg bp).bCont) start cells
  sizes : ∀ bp ∈ cells, (s.msg bp).bRptr ≤ (s.msg bp).bWptr
  refs : ∀ d, cells.countP (fun bp => (s.msg bp).bDatap = d) ≤ (s.data d).dbRef

theorem Message.tail (h : Message s start (bp :: rest)) : Message s (s.msg bp).bCont rest where
  linked := h.linked.2
  sizes bq hbq := h.sizes bq (.tail _ hbq)
  refs d := Nat.le_trans (sublist_cons_self bp rest).countP_le (h.refs d)

theorem Message.congr (h : Message s start cells) (hmsg : ∀ bp ∈ cells, s'.msg bp = s.msg bp)
    (hrefs : ∀ d, cells.countP (fun bp => (s.msg bp).bDatap = d) ≤ (s'.data d).dbRef) :
    Message s' start cells where
  linked := h.linked.congr fun bp hbp => congrArg Msgb.bCont (hmsg bp hbp)
  sizes bp hbp := by
    rw [hmsg bp hbp]
    exact h.sizes bp hbp
  refs d := by
    refine Nat.le_trans (Nat.le_of_eq ?_) (hrefs d)
    exact countP_congr fun bp hbp => by rw [hmsg bp hbp]

variable [DecidableEq M]

theorem sameData_freeb (s : Sys M D) (bp : M) (d : D) : SameData (s.data d) ((freeb s bp).data d) := by
  by_cases hd : d = (s.msg bp).bDatap
  · have hself : (freeb s bp).data d = { s.data d with dbRef := (s.data d).dbRef - 1 } := by
      rw [hd]
      exact update_self _ _ _
    rw [hself]
    exact ⟨rfl, rfl, rfl, rfl⟩
  · have hother : (freeb s bp).data d = s.data d := update_of_ne hd _ _
    rw [hother]
    exact SameData.refl _

def eaten (s : Sys M D) (bp : M) : Sys M D :=
  freeb (setMsg s bp { s.msg bp with bRptr := (s.msg bp).bRptr + size (s.msg bp) }) bp

theorem eaten_other {bq : M} (hne : bq ≠ bp) : (eaten s bp).msg bq = s.msg bq :=
  msg_setMsg_of_ne hne

theorem eaten_same (s : Sys M D) (bp : M) (d : D) : SameData (s.data d) ((eaten s bp).data d) :=
  sameData_freeb (setMsg s bp { s.msg bp with bRptr := (s.msg bp).bRptr + size (s.msg bp) }) bp d

theorem eaten_data (s : Sys M D) (bp : M) (d : D) : (eaten s bp).data d =
    if d = (s.msg bp).bDatap then { s.data d with dbRef := (s.data d).dbRef - 1 } else s.data d := by
  have hself : ((setMsg s bp { s.msg bp with
      bRptr := (s.msg bp).bRptr + size (s.msg bp) }).msg bp).bDatap = (s.msg bp).bDatap := by
    rw [msg_setMsg]
  unfold eaten freeb setData
  dsimp only
  rw [hself]
  by_cases hd : d = (s.msg bp).bDatap
  · subst hd
    rw [if_pos rfl, update_self]
    rfl
  · rw [if_neg hd, update_of_ne hd]
    rfl

theorem Message.eaten (h : Message s start (bp :: rest)) :
    Message (eaten s bp) (s.msg bp).bCont rest ∧ tagged (Pull.eaten s bp) rest = tagged s rest := by
  have hout : bp ∉ rest := (nodup_cons.mp h.linked.nodup).1
  have hmsg : ∀ bq ∈ rest, (Pull.eaten s bp).msg bq = s.msg bq := fun bq hbq =>
    eaten_other (ne_of_mem_of_not_mem hbq hout)
  refine ⟨h.tail.congr hmsg fun d => ?_, tagged_congr hmsg fun bq _ => eaten_same s bp _⟩
  have hrefs := h.refs d
  rw [countP_cons] at hrefs
  rw [eaten_data]
  by_cases hd : d = (s.msg bp).bDatap
  · subst hd
    rw [if_pos (decide_eq_true rfl)] at hrefs
    rw [if_pos rfl]
    exact Nat.le_sub_of_add_le hrefs
  · rw [if_neg hd]
    exact Nat.le_trans (Nat.le_add_right _ _) hrefs

end Svr42.Pull
