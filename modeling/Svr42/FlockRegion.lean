import Mathlib.Data.List.Nodup
import Svr42.FlockModel

/-! What a well-formed list of locks is, and the two ways it changes: entries shrink or go, and a
piece is inserted at its place. The bytes an owner holds are read off the list. -/

namespace Svr42.Flck
open List

theorem sameOwner_iff (a b : Flock) : sameOwner a b = true ↔ a.owner = b.owner := by
  simp only [sameOwner, Flock.owner, Bool.and_eq_true, decide_eq_true_eq, Prod.mk.injEq]
  exact and_comm

theorem sameOwner_false_iff (a b : Flock) : sameOwner a b = false ↔ a.owner ≠ b.owner := by
  rw [← Bool.not_eq_true, sameOwner_iff]

/-- A lock that can be on a list. -/
structure Valid (f : Flock) : Prop where
  nonneg : 0 ≤ f.lStart
  region : f.lStart ≤ f.lEnd
  bounded : f.lEnd ≤ maxEnd
  type : f.lType = .rdlck ∨ f.lType = .wrlck

/-- Two locks that can be on a list together. -/
structure Apart (a b : Flock) : Prop where
  disjoint : a.owner = b.owner → a.lEnd < b.lStart ∨ b.lEnd < a.lStart
  untouching : a.owner = b.owner → a.lType = b.lType →
    a.lEnd + 1 < b.lStart ∨ b.lEnd + 1 < a.lStart
  shared : a.owner ≠ b.owner → a.lStart ≤ b.lEnd → b.lStart ≤ a.lEnd →
    a.lType = .rdlck ∧ b.lType = .rdlck

theorem Apart.symm {a b : Flock} (h : Apart a b) : Apart b a := by
  refine ⟨fun ho => (h.disjoint ho.symm).symm, fun ho ht => (h.untouching ho.symm ht.symm).symm, ?_⟩
  intro ho hab hba
  exact (h.shared ho.symm hba hab).symm

theorem Apart.shrink {a a' b b' : Flock} (h : Apart a b) (ha : a'.owner = a.owner)
    (hta : a'.lType = a.lType) (hsa : a.lStart ≤ a'.lStart) (hea : a'.lEnd ≤ a.lEnd)
    (hb : b'.owner = b.owner) (htb : b'.lType = b.lType) (hsb : b.lStart ≤ b'.lStart)
    (heb : b'.lEnd ≤ b.lEnd) : Apart a' b' := by
  refine ⟨fun ho => ?_, fun ho ht => ?_, fun ho hab hba => ?_⟩
  · have hd := h.disjoint (by rw [← ha, ← hb, ho])
    omega
  · have hd := h.untouching (by rw [← ha, ← hb, ho]) (by rw [← hta, ← htb, ht])
    omega
  · rw [hta, htb]
    exact h.shared (by rwa [← ha, ← hb]) (by omega) (by omega)

/-- A list of locks: by starting point, each valid, any two apart. -/
structure Wf (lckList : List Filock) : Prop where
  addrs : (lckList.map Filock.addr).Nodup
  sorted : lckList.Pairwise fun a b => a.set.lStart ≤ b.set.lStart
  valid : ∀ f ∈ lckList, Valid f.set
  apart : ∀ f ∈ lckList, ∀ g ∈ lckList, f ≠ g → Apart f.set g.set

theorem Wf.nil : Wf [] := ⟨by simp, by simp, by simp, by simp⟩

variable {lckList : List Filock}

theorem Wf.ne_of_addr (h : Wf lckList) {f g : Filock} (hf : f ∈ lckList) (hg : g ∈ lckList)
    (haddr : f.addr = g.addr) : f = g :=
  inj_on_of_nodup_map h.addrs hf hg haddr

def Holds (lckList : List Filock) (o : Int × Int) (b : Int) (t : LType) : Prop :=
  ∃ f ∈ lckList, f.set.owner = o ∧ f.set.lStart ≤ b ∧ b ≤ f.set.lEnd ∧ f.set.lType = t

/-! ### Shrinking -/

/-- What is left of `f` is `f` from the same start on, shorter, with its type and owner. -/
structure Shrunk (f g : Filock) : Prop where
  addr : g.addr = f.addr
  owner : g.set.owner = f.set.owner
  type : g.set.lType = f.set.lType
  start : g.set.lStart = f.set.lStart
  «end» : g.set.lEnd ≤ f.set.lEnd
  region : g.set.lStart ≤ g.set.lEnd

theorem Wf.filterMap (h : Wf lckList) {shrink : Filock → Option Filock}
    (hshrink : ∀ f ∈ lckList, ∀ g, shrink f = some g → Shrunk f g) : Wf (lckList.filterMap shrink) := by
  have hfrom : ∀ g ∈ lckList.filterMap shrink, ∃ f ∈ lckList, Shrunk f g := by
    intro g hg
    obtain ⟨f, hf, hfg⟩ := mem_filterMap.mp hg
    exact ⟨f, hf, hshrink f hf g hfg⟩
  refine ⟨?_, ?_, fun g hg => ?_, fun g hg g' hg' hne => ?_⟩
  · have haddr : ((lckList.filterMap shrink).map Filock.addr).Sublist (lckList.map Filock.addr) := by
      clear h hfrom
      induction lckList with
      | nil => simp
      | cons f rest ih =>
        have hrest := ih fun f' hf' => hshrink f' (.tail _ hf')
        cases hcase : shrink f with
        | none =>
          rw [filterMap_cons_none hcase, map_cons]
          exact hrest.cons _
        | some g =>
          rw [filterMap_cons_some hcase, map_cons, map_cons, (hshrink f (.head _) g hcase).addr]
          exact hrest.cons_cons _
    exact haddr.nodup h.addrs
  · rw [pairwise_filterMap]
    refine h.sorted.imp_of_mem fun {f f'} hf hf' hle g hg g' hg' => ?_
    rw [(hshrink f hf g hg).start, (hshrink f' hf' g' hg').start]
    exact hle
  · obtain ⟨f, hf, hfg⟩ := hfrom g hg
    have hv := h.valid f hf
    exact ⟨hfg.start ▸ hv.nonneg, hfg.region, Int.le_trans hfg.end hv.bounded, hfg.type ▸ hv.type⟩
  · obtain ⟨f, hf, hfg⟩ := mem_filterMap.mp hg
    obtain ⟨f', hf', hfg'⟩ := mem_filterMap.mp hg'
    have hff' : f ≠ f' := by
      rintro rfl
      rw [hfg] at hfg'
      exact hne (Option.some.inj hfg')
    have hs := hshrink f hf g hfg
    have hs' := hshrink f' hf' g' hfg'
    exact (h.apart f hf f' hf' hff').shrink hs.owner hs.type (Int.le_of_eq hs.start.symm) hs.end hs'.owner hs'.type
      (Int.le_of_eq hs'.start.symm) hs'.end

/-! ### Inserting -/

def Inserted (base : List Filock) (new : Filock) (out : List Filock) : Prop :=
  ∃ front back, base = front ++ back ∧ out = front ++ new :: back ∧
    (∀ f ∈ front, f.set.lStart ≤ new.set.lStart) ∧ ∀ f ∈ back, new.set.lStart ≤ f.set.lStart

variable {base out : List Filock} {new : Filock}

theorem Inserted.mem_iff (h : Inserted base new out) (f : Filock) : f ∈ out ↔ f = new ∨ f ∈ base := by
  obtain ⟨front, back, rfl, rfl, -, -⟩ := h
  simp only [mem_append, mem_cons]
  tauto

theorem Inserted.addrs_nodup (h : Inserted base new out) (hnodup : (base.map Filock.addr).Nodup)
    (hfresh : new.addr ∉ base.map Filock.addr) : (out.map Filock.addr).Nodup := by
  obtain ⟨front, back, rfl, rfl, -, -⟩ := h
  have hperm : ((front ++ new :: back).map Filock.addr).Perm
      ((new :: (front ++ back)).map Filock.addr) := perm_middle.map _
  rw [hperm.nodup_iff, map_cons, nodup_cons]
  exact ⟨hfresh, hnodup⟩

theorem Wf.insert (h : Wf base) (hins : Inserted base new out) (hvalid : Valid new.set)
    (hfresh : new.addr ∉ base.map Filock.addr) (hapart : ∀ f ∈ base, Apart new.set f.set) : Wf out := by
  refine ⟨hins.addrs_nodup h.addrs hfresh, ?_, fun f hf => ?_, fun f hf g hg hne => ?_⟩
  · obtain ⟨front, back, rfl, rfl, hfront, hback⟩ := hins
    have hsorted := pairwise_append.mp h.sorted
    rw [pairwise_append, pairwise_cons]
    refine ⟨hsorted.1, ⟨hback, hsorted.2.1⟩, fun f hf g hg => ?_⟩
    rcases mem_cons.mp hg with rfl | hg
    · exact hfront f hf
    · exact hsorted.2.2 f hf g hg
  · rcases (hins.mem_iff f).mp hf with rfl | hf
    · exact hvalid
    · exact h.valid f hf
  · rcases (hins.mem_iff f).mp hf with rfl | hf <;> rcases (hins.mem_iff g).mp hg with rfl | hg
    · exact absurd rfl hne
    · exact hapart g hg
    · exact (hapart f hf).symm
    · exact h.apart f hf g hg hne

end Svr42.Flck
