import Mathlib.Data.Fintype.Card
import Svr42.DnlcModel

/-! The hash chains and the LRU list of the name cache, as the routines that link and unlink an entry
change them. -/

namespace Svr42.Dnlc
open Function List

variable {n size : Nat} {Vnode Cred Vfs : Type} {s t : Dnlc n Vnode Cred Vfs}
  {chains : Fin size → List (Fin n)} {lru front back : List (Fin n)} {i j : Fin n}
  {loose : Option (Fin n)} {h : Fin size}

theorem entry_injective : Function.Injective (Ncp.entry (n := n)) := by
  intro i j hij
  cases hij
  rfl

def headOf (n size : Nat) (h : Fin size) : Ncp n := .hash h

def nodes (chains : Fin size → List (Fin n)) (h : Fin size) : List (Ncp n) :=
  (chains h).map .entry

/-- The hash links: the chains, with every other entry but the one that is `loose` on a chain of its
own. -/
structure Hashed (s : Dnlc n Vnode Cred Vfs) (loose : Option (Fin n))
    (chains : Fin size → List (Fin n)) : Prop where
  rings : Rings s.hashNext s.hashPrev (headOf n size) (nodes chains)
  alone : ∀ i, some i ≠ loose → (∀ h, i ∉ chains h) →
    s.hashNext (.entry i) = .entry i ∧ s.hashPrev (.entry i) = .entry i

/-- The LRU links: the list has every entry but the one that is `loose`. -/
structure Aged (s : Dnlc n Vnode Cred Vfs) (loose : Option (Fin n)) (lru : List (Fin n)) : Prop where
  ring : Ring s.lruNext s.lruPrev .lru (lru.map .entry)
  all : ∀ i, some i ≠ loose → i ∈ lru

/-! ### Hash chains -/

theorem mem_nodes : Ncp.entry i ∈ headOf n size h :: nodes chains h ↔ i ∈ chains h := by
  unfold nodes headOf
  rw [mem_cons, mem_map_of_injective entry_injective]
  exact ⟨fun hmem => hmem.resolve_left (by intro heq; cases heq), .inr⟩

theorem off_iff : Rings.Off (headOf n size) (nodes chains) (.entry i) ↔ ∀ h, i ∉ chains h :=
  forall_congr' fun _ => not_congr mem_nodes

variable {cells : List (Fin n)}

namespace Hashed

section

variable (hs : Hashed s loose chains)
include hs

theorem congr (hnext : t.hashNext = s.hashNext) (hprev : t.hashPrev = s.hashPrev) :
    Hashed t loose chains := by
  refine ⟨?_, fun i hi hoff => ?_⟩
  · rw [hnext, hprev]
    exact hs.rings
  · rw [hnext, hprev]
    exact hs.alone i hi hoff

theorem ring (h : Fin size) :
    Ring s.hashNext s.hashPrev (.hash h) ((chains h).map .entry) := hs.rings.ring h

theorem nodup (h : Fin size) : (chains h).Nodup :=
  (nodup_cons.mp (hs.ring h).nodup).2.of_map _

theorem length_le (h : Fin size) : (chains h).length ≤ n := by
  have hlength := (hs.nodup h).length_le_card
  rwa [Fintype.card_fin] at hlength

theorem apart {h h' : Fin size} (hi : i ∈ chains h) (hi' : i ∈ chains h') : h = h' :=
  hs.rings.apart h h' (.entry i) (mem_nodes.mpr hi) (mem_nodes.mpr hi')

end

theorem unhash (hs : Hashed s none chains) (i : Fin n) :
    Hashed (ncRmhash s (.entry i)) (some i) (fun h => (chains h).erase i) ∧
      ∀ h, i ∉ (chains h).erase i := by
  have hnodes : nodes (fun h => (chains h).erase i) = fun h => (nodes chains h).erase (.entry i) := by
    funext h
    exact map_erase entry_injective (chains h)
  have hwhere : (∃ h, Ncp.entry i ∈ nodes chains h) ∨
      (s.hashNext (.entry i) = .entry i ∧ s.hashPrev (.entry i) = .entry i) ∧
        Rings.Off (headOf n size) (nodes chains) (.entry i) := by
    by_cases hon : ∃ h, i ∈ chains h
    · obtain ⟨h, hi⟩ := hon
      exact .inl ⟨h, (mem_map_of_injective entry_injective).mpr hi⟩
    · have hoff : ∀ h, i ∉ chains h := fun h hi => hon ⟨h, hi⟩
      exact .inr ⟨hs.alone i (Option.some_ne_none i) hoff, off_iff.mpr hoff⟩
  obtain ⟨hrings, hoff, hframe⟩ := hs.rings.erase hwhere
  rw [← hnodes] at hrings hoff
  refine ⟨⟨hrings, fun j hj hjoff => ?_⟩, off_iff.mp hoff⟩
  have hji : j ≠ i := fun heq => hj (congrArg some heq)
  have hjoff' : ∀ h, j ∉ chains h := fun h hmem =>
    hjoff h ((mem_erase_of_ne hji).mpr hmem)
  obtain ⟨hnext, hprev⟩ := hframe (.entry j) (fun heq => hji (entry_injective heq)) (off_iff.mpr hjoff')
  obtain ⟨hself, hself'⟩ := hs.alone j (Option.some_ne_none j) hjoff'
  exact ⟨hnext.trans hself, hprev.trans hself'⟩

section

variable (hs : Hashed s (some i) chains)
include hs

theorem null (hi : ∀ h, i ∉ chains h) : Hashed (nullHash s (.entry i)) none chains := by
  have hne : ∀ h, ∀ x ∈ headOf n size h :: nodes chains h, x ≠ .entry i := by
    rintro h x hx rfl
    exact hi h (mem_nodes.mp hx)
  refine ⟨⟨fun h => ?_, hs.rings.apart⟩, fun j _ hjoff => ?_⟩
  · exact (hs.rings.ring h).congr (fun x hx => update_of_ne (hne h x hx) _ _)
      fun x hx => update_of_ne (hne h x hx) _ _
  · by_cases hji : j = i
    · rw [hji]
      exact ⟨update_self _ _ _, update_self _ _ _⟩
    have hnode : Ncp.entry j ≠ .entry i := fun heq => hji (entry_injective heq)
    obtain ⟨hnext, hprev⟩ := hs.alone j (fun heq => hji (Option.some_injective _ heq)) hjoff
    exact ⟨(update_of_ne hnode _ _).trans hnext, (update_of_ne hnode _ _).trans hprev⟩

/-- What is linked in again is on no chain of its own any more. -/
theorem relink {next' prev' : Ncp n → Ncp n}
    (hrings : Rings next' prev' (headOf n size) (update (nodes chains) h (cells.map .entry)))
    (hframe : ∀ x, x ≠ .entry i → Rings.Off (headOf n size) (nodes chains) x →
      next' x = s.hashNext x ∧ prev' x = s.hashPrev x) (hi : i ∈ cells)
    (hcells : ∀ j ∈ chains h, j ∈ cells) :
    Hashed { s with hashNext := next', hashPrev := prev' } none (update chains h cells) := by
  have hnodes : nodes (update chains h cells) = update (nodes chains) h (cells.map .entry) := by
    funext g
    unfold nodes
    by_cases hg : g = h
    · rw [hg, update_self, update_self]
    · rw [update_of_ne hg, update_of_ne hg]
  refine ⟨hnodes ▸ hrings, fun j _ hjoff => ?_⟩
  have hjcells : j ∉ cells := by
    have hat := hjoff h
    rwa [update_self] at hat
  have hji : j ≠ i := fun heq => hjcells (heq ▸ hi)
  have hjoff' : ∀ g, j ∉ chains g := by
    intro g hmem
    by_cases hg : g = h
    · exact hjcells (hcells j (hg ▸ hmem))
    · have hat := hjoff g
      rw [update_of_ne hg] at hat
      exact hat hmem
  obtain ⟨hnext, hprev⟩ := hframe (.entry j) (fun heq => hji (entry_injective heq)) (off_iff.mpr hjoff')
  obtain ⟨hself, hself'⟩ := hs.alone j (fun heq => hji (Option.some_injective _ heq)) hjoff'
  exact ⟨hnext.trans hself, hprev.trans hself'⟩

theorem push (hi : ∀ h, i ∉ chains h) (h : Fin size) :
    Hashed (ncInshash s (.entry i) (.hash h)) none (update chains h (i :: chains h)) := by
  obtain ⟨hrings, hframe⟩ := hs.rings.push (off_iff.mpr hi) h
  exact hs.relink hrings hframe (.head _) fun j hj => .tail i hj

theorem before (hi : ∀ h, i ∉ chains h) (hsplit : chains h = front ++ j :: back) :
    Hashed (ncInshash s (.entry i) (s.hashPrev (.entry j))) none
      (update chains h (front ++ i :: j :: back)) := by
  have hnodes : nodes chains h = front.map .entry ++ .entry j :: back.map .entry := by
    unfold nodes
    rw [hsplit, map_append, map_cons]
  have hj : j ∈ chains h := by
    rw [hsplit]
    simp
  have hnext : s.hashNext (s.hashPrev (.entry j)) = .entry j :=
    (hs.rings.ring h).next_prev (mem_nodes.mpr hj)
  obtain ⟨hrings, hframe⟩ := hs.rings.insert (off_iff.mpr hi) hnodes
  have hcells : front.map Ncp.entry ++ .entry i :: .entry j :: back.map .entry =
      (front ++ i :: j :: back).map .entry := by
    rw [map_append, map_cons, map_cons]
  rw [hcells] at hrings
  unfold ncInshash
  rw [hnext]
  refine hs.relink hrings hframe (by simp) fun x hx => ?_
  rw [hsplit] at hx
  rcases mem_append.mp hx with hf | hb
  · exact mem_append_left _ hf
  · exact mem_append_right _ (.tail i hb)

end

/-- An entry that is not the first of its chain changes places with the one before it. -/
theorem forward (hs : Hashed s none chains) (hi : i ∈ chains h)
    (hprev : s.hashPrev (.entry i) ≠ .hash h) : ∃ chains' : Fin size → List (Fin n),
      Hashed (ncInshash (ncRmhash s (.entry i)) (.entry i) ((ncRmhash s (.entry i)).hashPrev
        ((ncRmhash s (.entry i)).hashPrev (.entry i)))) none chains' ∧
      ∀ g x, x ∈ chains' g ↔ x ∈ chains g := by
  have hring := hs.rings.ring h
  have hnode : Ncp.entry i ∈ nodes chains h := (mem_map_of_injective entry_injective).mpr hi
  obtain ⟨hunhash, hoff⟩ := hs.unhash i
  -- taking the entry out leaves its own link back
  have hsame : (ncRmhash s (.entry i)).hashPrev (.entry i) = s.hashPrev (.entry i) := by
    unfold ncRmhash
    by_cases hnext : Ncp.entry i = s.hashNext (.entry i)
    · rw [← hnext]
      exact update_self _ _ _
    · exact update_of_ne hnext _ _
  obtain ⟨j, hj, hji⟩ : ∃ j, s.hashPrev (.entry i) = .entry j ∧ j ∈ chains h := by
    rcases mem_cons.mp (hring.prev_mem (.tail _ hnode)) with hhead | hmem
    · exact absurd hhead hprev
    · obtain ⟨j, hj, heq⟩ := mem_map.mp hmem
      exact ⟨j, heq.symm, hj⟩
  have hne : j ≠ i := by
    intro heq
    exact hring.prev_ne hnode (hj.trans (congrArg Ncp.entry heq))
  obtain ⟨front, back, hsplit⟩ := append_of_mem ((mem_erase_of_ne hne).mpr hji)
  rw [hsame, hj]
  refine ⟨_, hunhash.before hoff hsplit, fun g x => ?_⟩
  by_cases hg : g = h
  · rw [hg, update_self]
    have hperm : (front ++ i :: j :: back).Perm (chains h) := by
      calc (front ++ i :: j :: back).Perm (i :: (front ++ j :: back)) := perm_middle
        _ = i :: (chains h).erase i := by rw [← hsplit]
        (i :: (chains h).erase i).Perm (chains h) := (perm_cons_erase hi).symm
    exact hperm.mem_iff
  · rw [update_of_ne hg]
    have hnot : i ∉ chains g := fun hmem => hg (hs.apart hmem hi)
    rw [erase_of_not_mem hnot]

end Hashed

/-! ### The LRU list -/

namespace Aged

theorem congr (hs : Aged s loose lru) (hnext : t.lruNext = s.lruNext) (hprev : t.lruPrev = s.lruPrev) :
    Aged t loose lru := by
  refine ⟨?_, hs.all⟩
  rw [hnext, hprev]
  exact hs.ring

theorem nodup (hs : Aged s loose lru) : lru.Nodup :=
  (nodup_cons.mp hs.ring.nodup).2.of_map _

theorem length_le (hs : Aged s loose lru) : lru.length ≤ n := by
  have hlength := hs.nodup.length_le_card
  rwa [Fintype.card_fin] at hlength

theorem mem_nodes (hi : i ∉ lru) : Ncp.entry i ∉ Ncp.lru :: lru.map .entry := by
  rw [mem_cons, mem_map_of_injective entry_injective]
  rintro (heq | hmem)
  · cases heq
  · exact hi hmem

theorem remove (hs : Aged s none lru) (i : Fin n) :
    Aged (ncRmlru s (.entry i)) (some i) (lru.erase i) ∧ i ∉ lru.erase i := by
  have hi : i ∈ lru := hs.all i (Option.some_ne_none i)
  have hnodup := hs.nodup
  obtain ⟨front, back, hsplit⟩ := append_of_mem hi
  have herase : lru.erase i = front ++ back := by
    rw [hsplit] at hnodup ⊢
    exact erase_split hnodup
  refine ⟨⟨?_, fun j hj => ?_⟩, hnodup.not_mem_erase⟩
  · have hring := hs.ring
    rw [hsplit, map_append, map_cons] at hring
    rw [herase, map_append]
    exact hring.remove
  · have hji : j ≠ i := fun heq => hj (congrArg some heq)
    exact (mem_erase_of_ne hji).mpr (hs.all j (Option.some_ne_none j))

theorem all_of (hs : Aged s (some i) lru) (hi : i ∈ cells) (hcells : ∀ j ∈ lru, j ∈ cells) (j : Fin n) :
    j ∈ cells := by
  by_cases hji : j = i
  · rw [hji]
    exact hi
  · exact hcells j (hs.all j fun heq => hji (Option.some_injective _ heq))

theorem push_ring (hring : Ring s.lruNext s.lruPrev .lru (lru.map .entry)) (hi : i ∉ lru) :
    Ring (ncInslru s (.entry i) .lru).lruNext (ncInslru s (.entry i) .lru).lruPrev .lru
      ((i :: lru).map .entry) := by
  have hpush := hring.push (mem_nodes hi)
  have hne : Ncp.entry i ≠ .lru := by
    intro heq
    cases heq
  have hnext : Ncp.entry i ≠ s.lruNext .lru := by
    intro heq
    exact mem_nodes hi (heq ▸ hring.next_mem (.head _))
  unfold ncInslru
  rw [update_comm hne.symm, update_comm hnext.symm]
  exact hpush

theorem push (hs : Aged s (some i) lru) (hi : i ∉ lru) :
    Aged (ncInslru s (.entry i) .lru) none (i :: lru) :=
  ⟨push_ring hs.ring hi, fun j _ => hs.all_of (.head _) (fun _ hj => .tail i hj) j⟩

theorem snoc (hs : Aged s (some i) lru) (hi : i ∉ lru) :
    Aged (ncInslru s (.entry i) (s.lruPrev .lru)) none (lru ++ [i]) := by
  have hsnoc := hs.ring.snoc (mem_nodes hi)
  have hlast : s.lruNext (s.lruPrev .lru) = .lru := hs.ring.next_prev (.head _)
  have hne : Ncp.entry i ≠ .lru := by
    intro heq
    cases heq
  have hprev : Ncp.entry i ≠ s.lruPrev .lru := by
    intro heq
    exact mem_nodes hi (heq ▸ hs.ring.prev_mem (.head _))
  refine ⟨?_, fun j _ => hs.all_of (mem_append_right _ (.head _)) (fun j hj => mem_append_left _ hj) j⟩
  unfold ncInslru
  rw [hlast, update_comm hprev.symm, update_comm hne.symm, map_append]
  exact hsnoc

end Aged

end Svr42.Dnlc
