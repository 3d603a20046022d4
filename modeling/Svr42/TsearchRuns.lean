import Svr42.TsearchTree
import Mathlib.Data.List.Perm.Subperm

/-! Calls of `tsearch` and `tdelete` keep a binary search tree with exactly the keys inserted and not deleted
since. -/

namespace Svr42.Tsearch
open Int List Option Prod

variable {K : Type} {compar : K → K → Int} {key k x : K} {s s' : State K} {t u v l r : Tree K} {keys : Set K}
  {lk' : Link} {A₁ A₂ : List (Nat × K)} {a p q : Nat}

namespace Place

variable (h : Place compar key s .root t lk' u A₁ A₂)

include h

theorem addrs_eq : t.addrs = A₁.map fst ++ u.addrs ++ A₂.map fst := by
  rw [Tree.addrs, h.entries, map_append, map_append]
  rfl

theorem keys_eq : t.keys = A₁.map snd ++ u.keys ++ A₂.map snd := by
  rw [Tree.keys, h.entries, map_append, map_append]
  rfl

theorem before_ne (hx : x ∈ A₁.map snd ∨ x ∈ A₂.map snd) : compar key x ≠ 0 := by
  obtain hx | hx := hx
  · obtain ⟨e, he, rfl⟩ := mem_map.mp hx
    exact Ne.symm (ne_of_lt (h.smaller e he))
  · obtain ⟨e, he, rfl⟩ := mem_map.mp hx
    exact ne_of_lt (h.larger e he)

end Place

namespace Holds

variable (h : Holds compar s t keys)

include h

theorem bound : t.addrs.length < s.bound :=
  Nat.lt_succ_of_le (h.nodup.subperm h.live).length_le

theorem place (hord : TotalOrder compar) (key : K) : ∃ lk' u A₁ A₂,
    locate compar key s s.bound .root = some lk' ∧ Place compar key s .root t lk' u A₁ A₂ :=
  locate_spec hord h.rep h.nodup h.sorted nofun h.bound

theorem place_empty (hplace : Place compar key s .root t lk' u A₁ A₂) :
    s.link lk' = 0 ↔ ∀ x ∈ keys, compar key x ≠ 0 := by
  rw [hplace.rep.eq_zero_iff]
  constructor
  · rintro rfl x hx
    rw [← h.keys, hplace.keys_eq, mem_append, mem_append] at hx
    obtain (hx | hx) | hx := hx
    · exact hplace.before_ne (.inl hx)
    · cases hx
    · exact hplace.before_ne (.inr hx)
  · intro hnone
    obtain hnil | ⟨l, a, k, r, rfl, hk⟩ := hplace.found
    · exact hnil
    have hin : k ∈ t.keys := by
      rw [hplace.keys_eq, Tree.keys_node]
      simp
    exact absurd hk (hnone k ((h.keys k).mp hin))

section

variable (hord : TotalOrder compar)
include hord

theorem tsearch_found (hx : x ∈ keys) (hxkey : compar key x = 0) (q : Nat) :
    ∃ p, tsearch compar key q s = some (p, s) := by
  obtain ⟨lk', u, A₁, A₂, heq, hplace⟩ := h.place hord key
  have hne : s.link lk' ≠ 0 := fun h0 => (h.place_empty hplace).mp h0 x hx hxkey
  exact ⟨s.link lk', by rw [tsearch, heq, map_some, if_pos hne]⟩

theorem tsearch_noSpace (hnew : ∀ x ∈ keys, compar key x ≠ 0) : tsearch compar key 0 s = some (0, s) := by
  obtain ⟨lk', u, A₁, A₂, heq, hplace⟩ := h.place hord key
  have h0 := (h.place_empty hplace).mpr hnew
  rw [tsearch, heq, map_some, if_neg (not_not_intro h0), if_neg (not_not_intro rfl)]

theorem tsearch_new (hnew : ∀ x ∈ keys, compar key x ≠ 0) (hq : q ≠ 0) (hfresh : q ∉ s.live) :
    ∃ s' t', tsearch compar key q s = some (q, s') ∧ Holds compar s' t' (insert key keys) := by
  obtain ⟨lk', u, A₁, A₂, heq, hplace⟩ := h.place hord key
  have h0 := (h.place_empty hplace).mpr hnew
  obtain rfl := hplace.rep.eq_zero_iff.mp h0
  have haddrs := hplace.addrs_eq
  have hkeys := hplace.keys_eq
  simp only [Tree.addrs, Tree.keys, Tree.entries, map_nil, append_nil] at haddrs hkeys
  have hqt : q ∉ t.addrs := fun hin => hfresh (h.live q hin)
  rw [Tree.addrs, haddrs, ← map_append] at hqt
  have hlkq : ∀ y : Link, y.owner = some q → lk' ≠ y := by
    rintro y hy rfl
    obtain hroot | ⟨a, ha, hin⟩ := hplace.owner
    · rw [hroot] at hy
      cases hy
    · exact hqt (some.inj (ha.symm.trans hy) ▸ hin)
  have hother : ∀ y : Link, y ≠ lk' → y.owner ≠ some q → (s.addNode lk' q key).link y = s.link y := by
    intro y hy hyq
    rw [State.addNode_link, State.store_of_ne fun he => hyq (congrArg Link.owner he),
      State.store_of_ne fun he => hyq (congrArg Link.owner he), State.store_of_ne hy]
  obtain ⟨t', hrep, hentries⟩ := hplace.plug (s.addNode lk' q key) (.node .nil q key .nil)
    (fun b hb => if_neg (show b ≠ q from fun hbq => hqt (hbq ▸ hb)))
    (fun y hy hin => hother y hy fun hyq => by
      obtain rfl | ⟨b, hb, hyb⟩ := hin
      · cases hyq
      · exact hqt (some.inj (hyb.symm.trans hyq) ▸ hb))
    (by
      refine ⟨?_, hq, if_pos rfl, ?_, ?_⟩
      · rw [State.addNode_link, State.store_of_ne (hlkq _ rfl), State.store_of_ne (hlkq _ rfl), State.store_self]
      · rw [State.addNode_link, State.store_self]
        rfl
      · rw [State.addNode_link, State.store_of_ne (by simp), State.store_self]
        rfl)
  have hnodup := h.nodup
  rw [Tree.addrs, haddrs] at hnodup
  have hsorted := h.sorted
  rw [Tree.keys, hkeys] at hsorted
  have haddrs' : t'.addrs = A₁.map fst ++ q :: A₂.map fst := by
    rw [Tree.addrs, hentries]
    simp [Tree.entries]
  have hkeys' : t'.keys = A₁.map snd ++ key :: A₂.map snd := by
    rw [Tree.keys, hentries]
    simp [Tree.entries]
  refine ⟨s.addNode lk' q key, t', ?_, hrep, ?_, fun b hb => ?_, ?_, fun y => ?_⟩
  · rw [tsearch, heq, map_some, if_neg (not_not_intro h0), if_pos hq]
  · rw [haddrs', nodup_middle, nodup_cons, ← map_append]
    exact ⟨hqt, by rwa [map_append]⟩
  · rw [haddrs', mem_append, mem_cons] at hb
    by_cases hbq : b = q
    · exact hbq ▸ (.head _)
    · refine .tail _ (h.live b ?_)
      rw [Tree.addrs, haddrs, mem_append]
      tauto
  · obtain ⟨h1, h2, h3⟩ := pairwise_append.mp hsorted
    rw [hkeys']
    refine pairwise_append.mpr ⟨h1, pairwise_cons.mpr ⟨fun y hy => ?_, h2⟩, fun y hy z hz => ?_⟩
    · obtain ⟨e, he, rfl⟩ := mem_map.mp hy
      exact hplace.larger e he
    · rcases mem_cons.mp hz with rfl | hz
      · obtain ⟨e, he, rfl⟩ := mem_map.mp hy
        exact (hord.anti _ _).mpr (hplace.smaller e he)
      · exact h3 y hy z hz
  · rw [hkeys', Set.mem_insert_iff, ← h.keys y, Tree.keys, hkeys]
    simp only [mem_append, mem_cons]
    tauto

/-- A key that is present is deleted, its parent is returned, and the other keys stay. -/
theorem tdelete_found (hx : x ∈ keys) (hxkey : compar key x = 0) :
    ∃ p s' t', tdelete compar key s = some (p, s') ∧ p ≠ 0 ∧
      Holds compar s' t' {x | x ∈ keys ∧ compar key x ≠ 0} ∧
      ∃ a ∈ t.addrs, compar key (s.key a) = 0 ∧
        (s.link .root = a ∨ p ∈ t.addrs ∧ (s.link (.llink p) = a ∨ s.link (.rlink p) = a)) := by
  obtain ⟨lk', u, A₁, A₂, heq, hplace⟩ := h.place hord key
  have hne : s.link lk' ≠ 0 := fun h0 => (h.place_empty hplace).mp h0 x hx hxkey
  have hroot : s.link .root ≠ 0 := fun h0 => by
    have ht := h.rep.eq_zero_iff.mp h0
    have hin := (h.keys x).mpr hx
    rw [ht] at hin
    cases hin
  obtain ⟨p, hdescend, -, hparent⟩ := descend_spec (p := s.link .root) hroot heq
  replace hparent := hparent hne
  have hp : p ≠ 0 := by
    obtain ⟨-, rfl⟩ | ⟨-, hp⟩ := hparent
    · exact hroot
    · exact hp
  obtain hnil | ⟨l, a, k, r, rfl, hk⟩ := hplace.found
  · exact absurd (hplace.rep.eq_zero_iff.mpr hnil) hne
  have haddrs := hplace.addrs_eq
  have hkeys := hplace.keys_eq
  have hnodup := h.nodup
  have hsorted := h.sorted
  rw [haddrs] at hnodup
  obtain ⟨hnd, -, hdisj⟩ := nodup_append.mp hnodup
  obtain ⟨-, hndu, hdisj'⟩ := nodup_append.mp hnd
  -- the link to the node is no part of what lies below it
  have hown : ∀ b, lk'.owner = some b → b ∉ (Tree.node l a k r).addrs := by
    intro b hb hin
    obtain hr | ⟨c, hc, hin'⟩ := hplace.owner
    · rw [hr] at hb
      cases hb
    obtain rfl : c = b := some.inj (hc.symm.trans hb)
    rw [map_append, mem_append] at hin'
    obtain h1 | h1 := hin'
    · exact hdisj' c h1 c hin rfl
    · exact hdisj c (mem_append_right _ hin) c h1 rfl
  have hlen : (Tree.node l a k r).addrs.length < s.bound := by
    have := h.bound
    rw [haddrs, length_append, length_append] at this
    omega
  obtain ⟨q, s₁, v, hreplace, hv, hventries, hkey₁, hlive₁, hframe⟩ := replace_spec hplace.rep hndu hown hlen
  have ha : s.link lk' = a := hplace.rep.1
  have ha₁ : s₁.link lk' = a := (hframe lk' fun b hb hb' => hown b hb' hb).trans ha
  have hvin : ∀ e ∈ v.addrs, e ∈ (Tree.node l a k r).addrs := by
    intro e he
    rw [Tree.addrs, hventries, map_append, mem_append] at he
    rw [Tree.addrs_node, mem_append, mem_cons]
    exact he.imp id .inr
  obtain ⟨t', hrep, hentries⟩ := hplace.plug ((s₁.free a).store lk' q) v (fun b _ => congrFun hkey₁ b)
    (fun y hy hin => by
      rw [State.store_of_ne hy]
      refine hframe y fun b hb hyb => ?_
      obtain rfl | ⟨c, hc, hyc⟩ := hin
      · cases hyb
      obtain rfl : c = b := some.inj (hyc.symm.trans hyb)
      rw [map_append, mem_append] at hc
      obtain hc | hc := hc
      · exact hdisj' c hc c hb rfl
      · exact hdisj c (mem_append_right _ hb) c hc rfl)
    (by
      rw [State.store_self]
      refine hv.congr fun e he => ⟨rfl, State.store_of_ne ?_, State.store_of_ne ?_⟩
      · exact fun h' => hown e (h' ▸ rfl) (hvin e he)
      · exact fun h' => hown e (h' ▸ rfl) (hvin e he))
  have hsub : t'.entries.Sublist t.entries := by
    rw [hentries, hventries, hplace.entries, Tree.entries]
    exact (((sublist_cons_self _ _).append_left _).append_left _).append_right _
  have hat : a ∈ t.addrs := by
    rw [haddrs, Tree.addrs_node]
    simp
  refine ⟨p, (s₁.free a).store lk' q, t', ?_, hp, ⟨hrep, (hsub.map fst).nodup h.nodup, fun b hb => ?_,
    hsorted.sublist (hsub.map snd), fun y => ?_⟩, a, hat, ?_, ?_⟩
  · rw [tdelete, if_neg hroot, hdescend, bind_some]
    rw [if_neg hp, hreplace, map_some, ha₁]
  · have hba : b ≠ a := by
      rintro rfl
      have hnodup' : (A₁.map fst ++ l.addrs ++ b :: (r.addrs ++ A₂.map fst)).Nodup := by
        simpa only [Tree.addrs_node, append_assoc, cons_append] using hnodup
      apply (nodup_cons.mp (nodup_middle.mp hnodup')).1
      rw [Tree.addrs, hentries, hventries] at hb
      simpa only [Tree.addrs, map_append, append_assoc] using hb
    have hin : b ∈ s₁.live.erase a := by
      rw [hlive₁]
      exact (mem_erase_of_ne hba).mpr (h.live b ((hsub.map fst).subset hb))
    exact hin
  · have hkeys' : t'.keys = A₁.map snd ++ (l.keys ++ r.keys) ++ A₂.map snd := by
      rw [Tree.keys, hentries, hventries, map_append, map_append, map_append]
      rfl
    rw [hkeys, Tree.keys_node] at hsorted
    obtain ⟨-, hsu, -⟩ := pairwise_append.mp (pairwise_append.mp hsorted).1
    obtain ⟨-, hsr, hlt⟩ := pairwise_append.mp hsu
    have hgt := (pairwise_cons.mp hsr).1
    change _ ↔ y ∈ keys ∧ compar key y ≠ 0
    rw [← h.keys y, hkeys, hkeys', Tree.keys_node]
    simp only [mem_append, mem_cons]
    constructor
    · rintro ((hy | hy | hy) | hy)
      · exact ⟨.inl (.inl hy), hplace.before_ne (.inl hy)⟩
      · exact ⟨.inl (.inr (.inl hy)), Ne.symm (ne_of_lt (hord.gt_of (.inl hk) (hlt y hy k (.head _))))⟩
      · exact ⟨.inl (.inr (.inr (.inr hy))), ne_of_lt (hord.lt_of (.inl hk) (hgt y hy))⟩
      · exact ⟨.inr hy, hplace.before_ne (.inr hy)⟩
    · rintro ⟨(hy | hy | rfl | hy) | hy, hne'⟩
      · exact .inl (.inl hy)
      · exact .inl (.inr (.inl hy))
      · exact absurd hk hne'
      · exact .inl (.inr (.inr hy))
      · exact .inr hy
  · rw [hplace.rep.2.2.1]
    exact hk
  · obtain ⟨rfl, -⟩ | ⟨howner, -⟩ := hparent
    · exact .inl ha
    refine .inr ⟨?_, ?_⟩
    · obtain hr | ⟨b, hb, hin⟩ := hplace.owner
      · rw [hr] at howner
        cases howner
      obtain rfl : b = p := some.inj (hb.symm.trans howner)
      rw [haddrs]
      rw [map_append, mem_append] at hin
      exact hin.elim (fun h1 => mem_append_left _ (mem_append_left _ h1)) (mem_append_right _)
    · cases lk' with
      | root => cases howner
      | llink b =>
        obtain rfl : b = p := some.inj howner
        exact .inl ha
      | rlink b =>
        obtain rfl : b = p := some.inj howner
        exact .inr ha

theorem tdelete_absent (hnone : ∀ x ∈ keys, compar key x ≠ 0) : tdelete compar key s = some (0, s) := by
  obtain ⟨lk', u, A₁, A₂, heq, hplace⟩ := h.place hord key
  by_cases hroot : s.link .root = 0
  · rw [tdelete, if_pos hroot]
  · obtain ⟨p, hdescend, hzero, -⟩ := descend_spec (p := s.link .root) hroot heq
    rw [tdelete, if_neg hroot, hdescend, bind_some, if_pos (hzero ((h.place_empty hplace).mpr hnone))]

end

end Holds

theorem absent_or_present (compar : K → K → Int) (key : K) (keys : Set K) :
    (∀ x ∈ keys, compar key x ≠ 0) ∨ ∃ x ∈ keys, compar key x = 0 :=
  or_iff_not_imp_right.mpr fun hno x hx h0 => hno ⟨x, hx, h0⟩

theorem others_of_absent (h : ∀ x ∈ keys, compar key x ≠ 0) : {x | x ∈ keys ∧ compar key x ≠ 0} = keys :=
  Set.ext fun x => ⟨And.left, fun hx => ⟨hx, h x hx⟩⟩

/-- In every state that calls lead to, the tree holds the keys inserted and not deleted since. -/
theorem Reach.holds (hord : TotalOrder compar) (h : Reach compar s keys) : ∃ t, Holds compar s t keys := by
  induction h with
  | @init s hroot hlive =>
    exact ⟨.nil, hroot, nodup_nil, nofun, List.Pairwise.nil,
      fun k => ⟨fun hk => absurd hk not_mem_nil, fun hk => hk.elim⟩⟩
  | @found s s' keys key q p x _ _ hx hxkey hcall ih =>
    obtain ⟨t, ht⟩ := ih
    obtain ⟨p', heq⟩ := ht.tsearch_found hord hx hxkey q
    obtain ⟨rfl, rfl⟩ := mk.inj (some.inj (heq.symm.trans hcall))
    exact ⟨t, ht⟩
  | @inserted s s' keys key q p _ hq hfresh hnew hcall ih =>
    obtain ⟨t, ht⟩ := ih
    obtain ⟨s'', t', heq, ht'⟩ := ht.tsearch_new hord hnew hq hfresh
    obtain ⟨rfl, rfl⟩ := mk.inj (some.inj (heq.symm.trans hcall))
    exact ⟨t', ht'⟩
  | @noSpace s s' keys key p _ hnew hcall ih =>
    obtain ⟨t, ht⟩ := ih
    obtain ⟨rfl, rfl⟩ := mk.inj (some.inj ((ht.tsearch_noSpace hord hnew).symm.trans hcall))
    exact ⟨t, ht⟩
  | @deleted s s' keys key p _ hcall ih =>
    obtain ⟨t, ht⟩ := ih
    obtain hnone | ⟨x, hx, hxkey⟩ := absent_or_present compar key keys
    · obtain ⟨rfl, rfl⟩ := mk.inj (some.inj ((ht.tdelete_absent hord hnone).symm.trans hcall))
      rw [others_of_absent hnone]
      exact ⟨t, ht⟩
    · obtain ⟨p', s'', t', heq, -, ht', -⟩ := ht.tdelete_found hord hx hxkey
      obtain ⟨rfl, rfl⟩ := mk.inj (some.inj (heq.symm.trans hcall))
      exact ⟨t', ht'⟩

/-- After any calls the tree is a binary search tree that holds each key inserted and not deleted since once,
and every further call returns. `tdelete` returns `NULL` exactly for an absent key; otherwise it returns the
parent of the deleted node, or the root when that is deleted, and no other key goes. -/
theorem tree_holds_keys (hord : TotalOrder compar) (h : Reach compar s keys) :
    ∃ t, Holds compar s t keys ∧
      (∀ key q, q = 0 ∨ q ∉ s.live → ∃ p s', tsearch compar key q s = some (p, s')) ∧
      ∀ key, ∃ p s' t', tdelete compar key s = some (p, s') ∧
        Holds compar s' t' {x | x ∈ keys ∧ compar key x ≠ 0} ∧
        (p = 0 ↔ ∀ x ∈ keys, compar key x ≠ 0) ∧
        (p ≠ 0 → ∃ a ∈ t.addrs, compar key (s.key a) = 0 ∧
          (s.link .root = a ∨ p ∈ t.addrs ∧ (s.link (.llink p) = a ∨ s.link (.rlink p) = a))) := by
  obtain ⟨t, ht⟩ := h.holds hord
  refine ⟨t, ht, fun key q hq => ?_, fun key => ?_⟩
  · obtain hnone | ⟨x, hx, hxkey⟩ := absent_or_present compar key keys
    · by_cases hq0 : q = 0
      · exact ⟨0, s, hq0 ▸ ht.tsearch_noSpace hord hnone⟩
      · obtain ⟨s', _, heq, _⟩ := ht.tsearch_new hord hnone hq0 (hq.resolve_left hq0)
        exact ⟨q, s', heq⟩
    · obtain ⟨p, heq⟩ := ht.tsearch_found hord hx hxkey q
      exact ⟨p, s, heq⟩
  · obtain hnone | ⟨x, hx, hxkey⟩ := absent_or_present compar key keys
    · refine ⟨0, s, t, ht.tdelete_absent hord hnone, ?_, iff_of_true rfl hnone, fun h0 => absurd rfl h0⟩
      rw [others_of_absent hnone]
      exact ht
    · obtain ⟨p, s', t', heq, hp, ht', hparent⟩ := ht.tdelete_found hord hx hxkey
      exact ⟨p, s', t', heq, ht', iff_of_false hp fun hnone => hnone x hx hxkey, fun _ => hparent⟩

theorem totalOrder_sub : TotalOrder fun x y : Int => x - y where
  refl := fun x => Int.sub_self x
  anti := fun x y => by omega
  trans := fun x y z hxy hyz => by omega

/-- The tree after one insertion. -/
theorem tree_holds_keys_one : ∃ s : State Int, s.link .root = 8 ∧ s.live = [8] ∧
    ∃ t, Holds (fun x y : Int => x - y) s t (insert 5 ∅) ∧
      (∀ key q, q = 0 ∨ q ∉ s.live → ∃ p s', tsearch (fun x y : Int => x - y) key q s = some (p, s')) ∧
      ∀ key, ∃ p s' t', tdelete (fun x y : Int => x - y) key s = some (p, s') ∧
        Holds (fun x y : Int => x - y) s' t' {x | x ∈ insert 5 (∅ : Set Int) ∧ key - x ≠ 0} ∧
        (p = 0 ↔ ∀ x ∈ insert 5 (∅ : Set Int), key - x ≠ 0) ∧
        (p ≠ 0 → ∃ a ∈ t.addrs, key - s.key a = 0 ∧
          (s.link .root = a ∨ p ∈ t.addrs ∧ (s.link (.llink p) = a ∨ s.link (.rlink p) = a))) :=
  ⟨State.addNode ⟨fun _ => 0, fun _ => 0, []⟩ .root 8 5, rfl, rfl, tree_holds_keys totalOrder_sub
      (.inserted (s := ⟨fun _ => 0, fun _ => 0, []⟩) (q := 8) (p := 8) (.init rfl rfl) (by decide)
        not_mem_nil (fun _ hx => hx.elim) rfl)⟩

/-! ### `twalk` -/

/-- The nodes that are visited in one way, or as leaves. -/
def visited (v : Visit) (calls : List (Nat × Visit × Nat)) : List Nat :=
  (calls.filter fun c => c.2.1 = v ∨ c.2.1 = .leaf).map fst

theorem walk_spec {p fuel : Nat} (hrep : t.Rep s p) (hfuel : t.addrs.length < fuel) (level : Nat) :
    ∃ calls, (if p ≠ 0 then walk s fuel p level else some []) = some calls ∧
      visited .postorder calls = t.addrs ∧ ∀ v, v ≠ .leaf → (visited v calls).Perm t.addrs := by
  induction t generalizing p fuel level with
  | nil => exact ⟨[], if_neg (not_not.mpr hrep), rfl, fun _ _ => .nil⟩
  | node l a k r ihl ihr =>
    obtain ⟨rfl, hne, -, hl, hr⟩ := hrep
    rw [Tree.addrs_node, length_append, length_cons] at hfuel
    obtain ⟨fuel, rfl⟩ : ∃ n, fuel = n + 1 := ⟨fuel - 1, by omega⟩
    obtain ⟨left, hleft, hbefore, honce⟩ := ihl hl (show l.addrs.length < fuel by omega) (level + 1)
    obtain ⟨right, hright, hafter, honce'⟩ := ihr hr (show r.addrs.length < fuel by omega) (level + 1)
    rw [if_pos hne, walk, hleft, hright]
    by_cases hleaf : s.link (.llink p) = 0 ∧ s.link (.rlink p) = 0
    · obtain rfl := hl.eq_zero_iff.mp hleaf.1
      obtain rfl := hr.eq_zero_iff.mp hleaf.2
      refine ⟨_, if_pos hleaf, rfl, fun v _ => ?_⟩
      simp [visited, Tree.addrs, Tree.entries]
    · refine ⟨_, if_neg hleaf, ?_, fun v hv => perm_iff_count.mpr fun b => ?_⟩
      · rw [Tree.addrs_node, ← hbefore, ← hafter]
        simp [visited]
      · rw [Tree.addrs_node, count_append, count_cons, ← (honce v hv).count_eq, ← (honce' v hv).count_eq]
        cases v <;> simp [visited, count_cons] at hv ⊢
        all_goals omega

theorem keys_eq_map (hrep : t.Rep s p) : t.keys = t.addrs.map s.key := by
  induction t generalizing p with
  | nil => rfl
  | node l a k r ihl ihr =>
    obtain ⟨-, -, rfl, hl, hr⟩ := hrep
    rw [Tree.keys_node, Tree.addrs_node, map_append, map_cons, ihl hl, ihr hr]

/-- In every tree that is reached `twalk` returns. The visits that count as the second one of a node
come in the order of the keys, each key once, and so does, in some order, every other kind of visit. -/
theorem twalk_in_order (hord : TotalOrder compar) (h : Reach compar s keys) :
    ∃ calls, twalk s = some calls ∧ (visited .postorder calls).Nodup ∧
      ((visited .postorder calls).map s.key).Pairwise (compar · · < 0) ∧
      (∀ k, k ∈ (visited .postorder calls).map s.key ↔ k ∈ keys) ∧
      ∀ v, v ≠ .leaf → (visited v calls).Perm (visited .postorder calls) := by
  obtain ⟨t, ht⟩ := h.holds hord
  obtain ⟨calls, hwalk, hall, honce⟩ := walk_spec ht.rep ht.bound 0
  rw [← hall] at honce
  refine ⟨calls, hwalk, hall ▸ ht.nodup, ?_, fun k => ?_, honce⟩
  · rw [hall, ← keys_eq_map ht.rep]
    exact ht.sorted
  · rw [hall, ← keys_eq_map ht.rep]
    exact ht.keys k

theorem twalk_in_order_one : ∃ calls,
    twalk (State.addNode ⟨fun _ => 0, fun _ => (0 : Int), []⟩ .root 8 5) = some calls ∧
      visited .preorder calls = [8] := by
  obtain ⟨calls, hwalk, -⟩ := twalk_in_order totalOrder_sub
    (.inserted (s := ⟨fun _ => 0, fun _ => 0, []⟩) (q := 8) (p := 8) (.init rfl rfl)
      (by decide) not_mem_nil (fun _ hx => hx.elim) rfl)
  exact ⟨calls, hwalk, (some.inj hwalk) ▸ rfl⟩

end Svr42.Tsearch
