import Svr42.Tsearch

/-! Walks down a binary search tree in the memory, and the trees left by a change below a link. -/

namespace Svr42.Tsearch
open List Option Prod

variable {K : Type} {compar : K → K → Int} {key k : K} {s s' : State K} {t u v l r : Tree K}
  {lk lk' : Link} {A₁ A₂ : List (Nat × K)} {a p q fuel : Nat}

namespace TotalOrder

theorem gt_of (h : TotalOrder compar) {x y z : K} (hxy : compar x y = 0 ∨ 0 < compar x y)
    (hzy : compar z y < 0) : 0 < compar x z := by
  rw [← h.anti]
  by_contra hle
  have hxz : compar x z ≤ 0 := by
    by_contra hgt
    exact hle ((h.anti z x).mpr (by omega))
  have hyx : compar y x ≤ 0 := by
    by_contra hgt
    have := (h.anti x y).mpr (by omega)
    omega
  have hyz := h.trans y x z hyx hxz
  have := (h.anti z y).mp hzy
  omega

theorem lt_of (h : TotalOrder compar) {x y z : K} (hxy : compar x y = 0 ∨ compar x y < 0)
    (hyz : compar y z < 0) : compar x z < 0 := by
  by_contra hge
  have hzx : compar z x ≤ 0 := by
    by_contra hgt
    have := (h.anti x z).mpr (by omega)
    omega
  have hzy := h.trans z x y hzx (by omega)
  have := (h.anti y z).mp hyz
  omega

end TotalOrder

namespace State

@[simp] theorem store_key (s : State K) (x : Link) (q : Nat) : (s.store x q).key = s.key := rfl
@[simp] theorem store_live (s : State K) (x : Link) (q : Nat) : (s.store x q).live = s.live := rfl

theorem store_self (s : State K) (x : Link) (q : Nat) : (s.store x q).link x = q := if_pos rfl

theorem store_of_ne {x y : Link} (h : y ≠ x) : (s.store x q).link y = s.link y := if_neg h

theorem addNode_link (s : State K) (rootp : Link) (q : Nat) (key : K) :
    (s.addNode rootp q key).link = (((s.store rootp q).store (.rlink q) 0).store (.llink q) 0).link := rfl

end State

/-! ### Trees -/

namespace Tree

theorem addrs_node : (node l a k r).addrs = l.addrs ++ a :: r.addrs := by
  rw [addrs, entries, map_append]
  rfl

theorem keys_node : (node l a k r).keys = l.keys ++ k :: r.keys := by
  rw [keys, entries, map_append]
  rfl

theorem Rep.congr (h : t.Rep s p)
    (hsame : ∀ a ∈ t.addrs, s'.key a = s.key a ∧ s'.link (.llink a) = s.link (.llink a) ∧
      s'.link (.rlink a) = s.link (.rlink a)) : t.Rep s' p := by
  induction t generalizing p with
  | nil => exact h
  | node l a k r ihl ihr =>
    obtain ⟨hp, hne, hkey, hl, hr⟩ := h
    rw [addrs_node] at hsame
    obtain ⟨hkey', hl', hr'⟩ := hsame a (mem_append_right _ (.head _))
    refine ⟨hp, hne, hkey'.trans hkey, ?_, ?_⟩
    · rw [hl']
      exact ihl hl fun a ha => hsame a (mem_append_left _ ha)
    · rw [hr']
      exact ihr hr fun a ha => hsame a (mem_append_right _ (.tail _ ha))

theorem Rep.eq_zero_iff (h : t.Rep s p) : p = 0 ↔ t = nil := by
  cases t with
  | nil => exact ⟨fun _ => rfl, fun _ => h⟩
  | node l a k r => exact ⟨fun hp => absurd (h.1.symm.trans hp) h.2.1, nofun⟩

end Tree

/-! ### A place in a tree -/

/-- `lk'` leads to the part `u` of the tree at `lk`, between the nodes `A₁` and `A₂`; a change there that
leaves the other links alone puts another part in its place. -/
structure Focus (s : State K) (lk : Link) (t : Tree K) (lk' : Link) (u : Tree K) (A₁ A₂ : List (Nat × K)) :
    Prop where
  entries : t.entries = A₁ ++ u.entries ++ A₂
  rep : u.Rep s (s.link lk')
  owner : lk' = lk ∨ ∃ a, lk'.owner = some a ∧ a ∈ (A₁ ++ A₂).map Prod.fst
  plug : ∀ (s' : State K) (v : Tree K), (∀ a ∈ (A₁ ++ A₂).map Prod.fst, s'.key a = s.key a) →
    (∀ x : Link, x ≠ lk' → (x = lk ∨ ∃ a ∈ (A₁ ++ A₂).map Prod.fst, x.owner = some a) →
      s'.link x = s.link x) →
    v.Rep s' (s'.link lk') → ∃ t' : Tree K, t'.Rep s' (s'.link lk) ∧ t'.entries = A₁ ++ v.entries ++ A₂

theorem Focus.here (h : t.Rep s (s.link lk)) : Focus s lk t lk t [] [] where
  entries := by rw [nil_append, append_nil]
  rep := h
  owner := .inl rfl
  plug := fun s' v _ _ hv => ⟨v, hv, by rw [nil_append, append_nil]⟩

/-- A place below one child of a node: the node, its link and the other child stay. -/
theorem Focus.below {c d : Link} (B : List Nat) (lk : Link) (h : Focus s c l lk' u A₁ A₂) (hc : c.owner = some a)
    (hd : d.owner = some a) (hcd : d ≠ c) (hr : r.Rep s (s.link d)) (hnodup : (a :: (l.addrs ++ r.addrs)).Nodup)
    (hown : ∀ b, lk.owner = some b → b ∉ a :: (l.addrs ++ r.addrs))
    (hB : ∀ b, b = a ∨ b ∈ (A₁ ++ A₂).map fst ∨ b ∈ r.addrs → b ∈ B) :
    (∃ b, lk'.owner = some b ∧ b ∈ B) ∧
    ∀ (s' : State K) (v : Tree K), (∀ b ∈ B, s'.key b = s.key b) →
      (∀ x : Link, x ≠ lk' → (x = lk ∨ ∃ b ∈ B, x.owner = some b) → s'.link x = s.link x) →
      v.Rep s' (s'.link lk') → s'.link lk = s.link lk ∧ r.Rep s' (s'.link d) ∧
        ∃ l' : Tree K, l'.Rep s' (s'.link c) ∧ l'.entries = A₁ ++ v.entries ++ A₂ := by
  obtain ⟨hnotin, hnodup⟩ := nodup_cons.mp hnodup
  have hdisj := (nodup_append.mp hnodup).2.2
  have hinl : ∀ b ∈ (A₁ ++ A₂).map fst, b ∈ l.addrs := by
    intro b hb
    rw [Tree.addrs, h.entries]
    simp only [map_append, mem_append] at hb ⊢
    tauto
  -- the place is the link to the child, or a link of a node below it
  obtain ⟨b, hb, hbl, hbB⟩ : ∃ b, lk'.owner = some b ∧ (lk' = c ∧ b = a ∨ b ∈ l.addrs) ∧ b ∈ B := by
    obtain hlk' | ⟨b, hb, hbl⟩ := h.owner
    · exact ⟨a, hlk' ▸ hc, .inl ⟨hlk', rfl⟩, hB a (.inl rfl)⟩
    · exact ⟨b, hb, .inr (hinl b hbl), hB b (.inr (.inl hbl))⟩
  have hout : ∀ x : Link, ∀ e, x.owner = some e → e ∈ r.addrs → x ≠ lk' := by
    rintro x e hx he rfl
    obtain rfl : e = b := some.inj (hx.symm.trans hb)
    obtain ⟨-, rfl⟩ | hbl := hbl
    · exact hnotin (mem_append_right _ he)
    · exact hdisj e hbl e he rfl
  have hdlk' : d ≠ lk' := by
    rintro rfl
    obtain rfl : a = b := some.inj (hd.symm.trans hb)
    obtain ⟨h', -⟩ | hbl := hbl
    · exact hcd h'
    · exact hnotin (mem_append_left _ hbl)
  have hlk : lk ≠ lk' := by
    rintro rfl
    apply hown b hb
    obtain ⟨-, rfl⟩ | hbl := hbl
    · exact .head _
    · exact .tail _ (mem_append_left _ hbl)
  refine ⟨⟨b, hb, hbB⟩, fun s' v hkeys hlinks hv => ⟨hlinks lk hlk (.inl rfl), ?_, ?_⟩⟩
  · rw [hlinks d hdlk' (.inr ⟨a, hB a (.inl rfl), hd⟩)]
    refine hr.congr fun e he => ?_
    have heB := hB e (.inr (.inr he))
    exact ⟨hkeys e heB, hlinks _ (hout _ e rfl he) (.inr ⟨e, heB, rfl⟩),
      hlinks _ (hout _ e rfl he) (.inr ⟨e, heB, rfl⟩)⟩
  · refine h.plug s' v (fun e he => hkeys e (hB e (.inr (.inl he)))) (fun x hx hx' => ?_) hv
    obtain rfl | ⟨e, he, hxe⟩ := hx'
    · exact hlinks x hx (.inr ⟨a, hB a (.inl rfl), hc⟩)
    · exact hlinks x hx (.inr ⟨e, hB e (.inr (.inl he)), hxe⟩)

section Down
variable (hrep : (Tree.node l a k r).Rep s (s.link lk)) (hnodup : (Tree.node l a k r).addrs.Nodup)
  (hown : ∀ b, lk.owner = some b → b ∉ (Tree.node l a k r).addrs)

include hrep hnodup hown

theorem Focus.left (h : Focus s (.llink a) l lk' u A₁ A₂) :
    Focus s lk (.node l a k r) lk' u A₁ (A₂ ++ (a, k) :: r.entries) := by
  obtain ⟨hp, hne, hkey, hl, hr⟩ := hrep
  have ha : a ∈ (A₁ ++ (A₂ ++ (a, k) :: r.entries)).map fst := by simp
  obtain ⟨howner, hplug⟩ := h.below ((A₁ ++ (A₂ ++ (a, k) :: r.entries)).map fst) lk rfl rfl
    (by simp) hr (by rwa [Tree.addrs_node, nodup_middle] at hnodup)
    (fun b hb hin => hown b hb (by rw [Tree.addrs_node]; simp only [mem_cons, mem_append] at hin ⊢; tauto))
    (fun b hb => by
      simp only [Tree.addrs, map_append, map_cons, mem_append, mem_cons] at hb ⊢
      tauto)
  refine ⟨?_, h.rep, .inr howner, fun s' v hkeys hlinks hv => ?_⟩
  · rw [Tree.entries, h.entries, append_assoc _ A₂]
  · obtain ⟨hlk, hr', l', hl', hentries⟩ := hplug s' v hkeys hlinks hv
    refine ⟨.node l' a k r, ⟨hlk.trans hp, hne, (hkeys a ha).trans hkey, hl', hr'⟩, ?_⟩
    rw [Tree.entries, hentries, append_assoc _ A₂]

theorem Focus.right (h : Focus s (.rlink a) r lk' u A₁ A₂) :
    Focus s lk (.node l a k r) lk' u (l.entries ++ (a, k) :: A₁) A₂ := by
  obtain ⟨hp, hne, hkey, hl, hr⟩ := hrep
  have ha : a ∈ (l.entries ++ (a, k) :: A₁ ++ A₂).map fst := by simp
  obtain ⟨howner, hplug⟩ := h.below ((l.entries ++ (a, k) :: A₁ ++ A₂).map fst) lk rfl rfl
    (by simp) hl (by
      rw [Tree.addrs_node, nodup_middle, nodup_cons] at hnodup
      rw [nodup_cons, nodup_append_comm, mem_append, or_comm, ← mem_append]
      exact hnodup)
    (fun b hb hin => hown b hb (by rw [Tree.addrs_node]; simp only [mem_cons, mem_append] at hin ⊢; tauto))
    (fun b hb => by
      simp only [Tree.addrs, map_append, map_cons, mem_append, mem_cons] at hb ⊢
      tauto)
  refine ⟨?_, h.rep, .inr howner, fun s' v hkeys hlinks hv => ?_⟩
  · rw [Tree.entries, h.entries]
    simp only [append_assoc, cons_append]
  · obtain ⟨hlk, hl', r', hr', hentries⟩ := hplug s' v hkeys hlinks hv
    refine ⟨.node l a k r', ⟨hlk.trans hp, hne, (hkeys a ha).trans hkey, hl', hr'⟩, ?_⟩
    rw [Tree.entries, hentries]
    simp only [append_assoc, cons_append]

end Down

/-! ### Finding a key -/

/-- The place of a key: the nodes before it have smaller keys, those after it larger ones, and it is
empty or starts with a node of that key. -/
structure Place (compar : K → K → Int) (key : K) (s : State K) (lk : Link) (t : Tree K) (lk' : Link) (u : Tree K)
    (A₁ A₂ : List (Nat × K)) : Prop extends Focus s lk t lk' u A₁ A₂ where
  smaller : ∀ e ∈ A₁, 0 < compar key e.2
  larger : ∀ e ∈ A₂, compar key e.2 < 0
  found : u = .nil ∨ ∃ l a k r, u = .node l a k r ∧ compar key k = 0

theorem locate_spec (hord : TotalOrder compar) (hrep : t.Rep s (s.link lk)) (hnodup : t.addrs.Nodup)
    (hsorted : t.keys.Pairwise (compar · · < 0)) (hown : ∀ b, lk.owner = some b → b ∉ t.addrs)
    (hfuel : t.addrs.length < fuel) :
    ∃ lk' u A₁ A₂, locate compar key s fuel lk = some lk' ∧ Place compar key s lk t lk' u A₁ A₂ := by
  induction t generalizing lk fuel with
  | nil =>
    obtain ⟨fuel, rfl⟩ := Nat.exists_eq_succ_of_ne_zero hfuel.ne'
    exact ⟨lk, .nil, [], [], if_pos hrep, .here hrep, by simp, by simp, .inl rfl⟩
  | node l a k r ihl ihr =>
    obtain ⟨fuel, rfl⟩ := Nat.exists_eq_succ_of_ne_zero (ne_of_gt (Nat.zero_lt_of_lt hfuel))
    have hrep' := hrep
    obtain ⟨hp, hne, hkey, hl, hr⟩ := hrep'
    have hnodup' := hnodup
    have hsorted' := hsorted
    rw [Tree.addrs_node] at hnodup' hfuel
    rw [Tree.keys_node] at hsorted'
    rw [length_append, length_cons] at hfuel
    obtain ⟨hndl, hndr, hdisj⟩ := nodup_append.mp hnodup'
    obtain ⟨hsl, hsr, hlt⟩ := pairwise_append.mp hsorted'
    obtain ⟨hgt, hsr⟩ := pairwise_cons.mp hsr
    obtain ⟨har, hndr⟩ := nodup_cons.mp hndr
    have hfl : l.addrs.length < fuel := by omega
    have hfr : r.addrs.length < fuel := by omega
    rw [locate, if_neg (by rw [hp]; exact hne), hp, hkey]
    by_cases hzero : compar key k = 0
    · rw [if_pos hzero]
      exact ⟨lk, _, [], [], rfl, .here hrep, by simp, by simp, .inr ⟨l, a, k, r, rfl, hzero⟩⟩
    rw [if_neg hzero]
    split_ifs with hneg
    · obtain ⟨lk', u, A₁, A₂, heq, hplace⟩ := ihl hl hndl hsl
        (fun b hb hin => hdisj b hin a (.head _) (some.inj hb).symm) hfl
      refine ⟨lk', u, A₁, A₂ ++ (a, k) :: r.entries, heq, hplace.toFocus.left hrep hnodup hown, hplace.smaller,
        fun e he => ?_, hplace.found⟩
      rcases mem_append.mp he with he | he
      · exact hplace.larger e he
      · rcases mem_cons.mp he with rfl | he
        · exact hneg
        · exact hord.lt_of (.inr hneg) (hgt e.2 (mem_map_of_mem he))
    · obtain ⟨lk', u, A₁, A₂, heq, hplace⟩ := ihr hr hndr hsr
        (fun b hb hin => har (some.inj hb ▸ hin)) hfr
      refine ⟨lk', u, l.entries ++ (a, k) :: A₁, A₂, heq, hplace.toFocus.right hrep hnodup hown, fun e he => ?_,
        hplace.larger, hplace.found⟩
      rcases mem_append.mp he with he | he
      · exact hord.gt_of (.inr (by omega)) (hlt e.2 (mem_map_of_mem he) k (.head _))
      · rcases mem_cons.mp he with rfl | he
        · exact show 0 < compar key k by omega
        · exact hplace.smaller e he

/-- `tdelete` goes down to the same place, and keeps the node above it. -/
theorem descend_spec (hne : s.link lk ≠ 0) (h : locate compar key s fuel lk = some lk') :
    ∃ p', descend compar key s fuel p lk = some (p', lk') ∧ (s.link lk' = 0 → p' = 0) ∧
      (s.link lk' ≠ 0 → lk' = lk ∧ p' = p ∨ lk'.owner = some p' ∧ p' ≠ 0) := by
  induction fuel generalizing lk p with
  | zero => cases h
  | succ fuel ih =>
    rw [locate, if_neg hne] at h
    rw [descend]
    dsimp only at h ⊢
    by_cases hzero : compar key (s.key (s.link lk)) = 0
    · rw [if_pos hzero] at h
      rw [if_neg (not_not_intro hzero)]
      obtain rfl := some.inj h
      exact ⟨p, rfl, fun h0 => absurd h0 hne, fun _ => .inl ⟨rfl, rfl⟩⟩
    rw [if_neg hzero] at h
    rw [if_pos hzero]
    generalize hnext : (if compar key (s.key (s.link lk)) < 0 then Link.llink (s.link lk)
      else .rlink (s.link lk)) = next at h ⊢
    have howner : next.owner = some (s.link lk) := by
      rw [← hnext]
      split <;> rfl
    split_ifs with hempty
    · cases fuel with
      | zero => cases h
      | succ fuel =>
        rw [locate, if_pos hempty] at h
        obtain rfl := some.inj h
        exact ⟨0, rfl, fun _ => rfl, fun h0 => absurd hempty h0⟩
    · obtain ⟨p', heq, hz, hparent⟩ := ih hempty h
      refine ⟨p', heq, hz, fun h0 => .inr ?_⟩
      obtain ⟨rfl, rfl⟩ | hp := hparent h0
      · exact ⟨howner, hne⟩
      · exact hp

/-! ### The replacement for a node -/

theorem findNull_spec (hrep : (Tree.node l a k r).Rep s (s.link lk)) (hnodup : (Tree.node l a k r).addrs.Nodup)
    (hown : ∀ b, lk.owner = some b → b ∉ (Tree.node l a k r).addrs) (hl : l ≠ .nil)
    (hfuel : l.addrs.length ≤ fuel) : ∃ b q kq rq A₂, findNull s fuel a = some b ∧
      Focus s lk (.node l a k r) (.llink b) (.node .nil q kq rq) [] A₂ := by
  induction l generalizing lk a k r fuel with
  | nil => exact absurd rfl hl
  | node ll c kc lr ihl _ =>
    have hrep' := hrep
    obtain ⟨hp, hne, hkey, hleft, hr⟩ := hrep'
    have hnodup' := hnodup
    rw [Tree.addrs_node] at hnodup'
    obtain ⟨hndl, -, hdisj⟩ := nodup_append.mp hnodup'
    have hdown : Focus s lk (.node (.node ll c kc lr) a k r) (.llink a) (.node ll c kc lr) []
        ([] ++ (a, k) :: r.entries) := (Focus.here hleft).left hrep hnodup hown
    rw [Tree.addrs_node, length_append, length_cons] at hfuel
    cases fuel with
    | zero => omega
    | succ fuel =>
      rw [findNull, hleft.1]
      by_cases hll : ll = .nil
      · subst hll
        rw [if_neg (not_not_intro (show s.link (.llink c) = 0 from hleft.2.2.2.1))]
        exact ⟨a, c, kc, lr, _, rfl, hdown⟩
      · have hfl : ll.addrs.length ≤ fuel := by omega
        rw [if_pos fun h0 => hll (hleft.2.2.2.1.eq_zero_iff.mp h0)]
        obtain ⟨b, q, kq, rq, A₂, heq, hfocus⟩ := ihl hleft hndl
          (fun b hb hin => hdisj b hin a (.head _) (some.inj hb).symm) hll hfl
        exact ⟨b, q, kq, rq, _, heq, hfocus.left hrep hnodup hown⟩

/-- The leftmost node on the right takes the place of the deleted one. -/
theorem splice_spec {c : Nat} {kq : K} {rq : Tree K} (hp : s.link lk = a) (hl : l.Rep s (s.link (.llink a)))
    (hnodup : (l.addrs ++ a :: r.addrs).Nodup) (hown : ∀ b, lk.owner = some b → b ∉ l.addrs ++ a :: r.addrs)
    (hfocus : Focus s (.rlink a) r (.llink c) (.node .nil q kq rq) [] A₂) :
    ∃ (s' : State K) (v : Tree K), splice s lk c = (q, s') ∧ v.Rep s' q ∧ v.entries = l.entries ++ r.entries ∧
      s'.key = s.key ∧ s'.live = s.live ∧
      ∀ x : Link, (∀ b ∈ l.addrs ++ a :: r.addrs, x.owner ≠ some b) → s'.link x = s.link x := by
  obtain ⟨hcq, hqne, hqkey, -, hrq⟩ := hfocus.rep
  have hc : c ∈ A₂.map fst := by
    obtain h0 | ⟨e, he, hin⟩ := hfocus.owner
    · exact absurd h0 (by simp)
    · exact some.inj he ▸ hin
  have hentries : r.entries = (q, kq) :: (rq.entries ++ A₂) := hfocus.entries
  have haddrs : r.addrs = q :: (rq.addrs ++ A₂.map fst) := by
    rw [Tree.addrs, hentries, map_cons, map_append]
    rfl
  rw [haddrs] at hnodup hown ⊢
  obtain ⟨-, hndr, hdisj⟩ := nodup_append.mp hnodup
  obtain ⟨har, hndr⟩ := nodup_cons.mp hndr
  obtain ⟨hqin, hndr⟩ := nodup_cons.mp hndr
  have hdisj' := (nodup_append.mp hndr).2.2
  have hcr : c ∈ q :: (rq.addrs ++ A₂.map fst) := .tail _ (mem_append_right _ hc)
  have hca : a ≠ c := fun h => har (h ▸ hcr)
  have hlkq : ∀ x : Link, x.owner = some q ∨ x.owner = some c → lk ≠ x := by
    rintro x hx rfl
    obtain hx | hx := hx
    · exact hown q hx (mem_append_right _ (.tail _ (.head _)))
    · exact hown c hx (mem_append_right _ (.tail _ hcr))
  -- the node loses its place on the right
  obtain ⟨r', hr', hr'entries⟩ := hfocus.plug (s.store (.llink c) (s.link (.rlink q))) rq (fun _ _ => rfl)
    (fun x hx _ => State.store_of_ne hx) (by
      rw [State.store_self]
      refine hrq.congr fun e he => ⟨rfl, State.store_of_ne ?_, State.store_of_ne (by simp)⟩
      exact fun h => hdisj' e he c hc (Link.llink.inj h))
  rw [splice, show s.link (.llink c) = q from hcq]
  generalize hs₁ : s.store (.llink c) (s.link (.rlink q)) = s₁ at hr' ⊢
  have hlink₁ : ∀ x, x ≠ .llink c → s₁.link x = s.link x := by
    intro x hx
    rw [← hs₁, State.store_of_ne hx]
  have hlinka : s₁.link (.llink a) = s.link (.llink a) := hlink₁ _ fun h => hca (Link.llink.inj h)
  rw [hlink₁ lk (hlkq _ (.inr rfl)), hp, hlinka, State.store_of_ne (hlkq _ (.inl rfl)),
    hlink₁ lk (hlkq _ (.inr rfl)), hp, State.store_of_ne (show Link.rlink a ≠ .llink q by simp)]
  have hmem : ∀ e ∈ r'.addrs, e ≠ q := by
    rintro e he rfl
    rw [Tree.addrs, hr'entries, nil_append, map_append] at he
    exact hqin he
  refine ⟨_, .node l q kq r', rfl, ⟨rfl, hqne, ?_, ?_, ?_⟩, ?_, ?_, ?_, fun x hx => ?_⟩
  · rw [State.store_key, State.store_key, ← hs₁, State.store_key, hqkey]
  · rw [State.store_of_ne (by simp), State.store_self]
    refine hl.congr fun e he => ?_
    have heq : e ≠ q := hdisj e he q (.tail _ (.head _))
    refine ⟨?_, ?_, ?_⟩
    · rw [State.store_key, State.store_key, ← hs₁, State.store_key]
    · rw [State.store_of_ne (by simp), State.store_of_ne fun h => heq (Link.llink.inj h)]
      exact hlink₁ _ fun h => hdisj e he c (.tail _ hcr) (Link.llink.inj h)
    · rw [State.store_of_ne fun h => heq (Link.rlink.inj h), State.store_of_ne (by simp)]
      exact hlink₁ _ (by simp)
  · rw [State.store_self]
    refine hr'.congr fun e he => ⟨rfl, ?_, ?_⟩
    · rw [State.store_of_ne (by simp), State.store_of_ne fun h => hmem e he (Link.llink.inj h)]
    · rw [State.store_of_ne fun h => hmem e he (Link.rlink.inj h), State.store_of_ne (by simp)]
  · rw [Tree.entries, hr'entries, hentries]
    rfl
  · rw [State.store_key, State.store_key, ← hs₁, State.store_key]
  · rw [State.store_live, State.store_live, ← hs₁, State.store_live]
  · have hout : ∀ y : Link, ∀ e, y.owner = some e → e ∈ q :: (rq.addrs ++ A₂.map fst) → x ≠ y := by
      rintro y e hy he rfl
      exact hx e (mem_append_right _ (.tail _ he)) hy
    rw [State.store_of_ne (hout _ q rfl (.head _)), State.store_of_ne (hout _ q rfl (.head _))]
    exact hlink₁ x (hout _ c rfl hcr)

theorem replace_spec (hrep : (Tree.node l a k r).Rep s (s.link lk)) (hnodup : (Tree.node l a k r).addrs.Nodup)
    (hown : ∀ b, lk.owner = some b → b ∉ (Tree.node l a k r).addrs)
    (hbound : (Tree.node l a k r).addrs.length < s.bound) :
    ∃ (q : Nat) (s' : State K) (v : Tree K), replace s lk = some (q, s') ∧ v.Rep s' q ∧
      v.entries = l.entries ++ r.entries ∧ s'.key = s.key ∧ s'.live = s.live ∧
        ∀ x : Link, (∀ b ∈ (Tree.node l a k r).addrs, x.owner ≠ some b) → s'.link x = s.link x := by
  obtain ⟨hp, hne, hkey, hl, hr⟩ := hrep
  rw [Tree.addrs_node] at hnodup hown hbound ⊢
  rw [length_append, length_cons] at hbound
  obtain ⟨hndl, hndr, hdisj⟩ := nodup_append.mp hnodup
  obtain ⟨har, hndr⟩ := nodup_cons.mp hndr
  rw [replace, hp]
  by_cases hq : s.link (.llink a) = 0
  · rw [if_pos hq]
    obtain rfl := hl.eq_zero_iff.mp hq
    exact ⟨_, s, r, rfl, hr, rfl, rfl, rfl, fun x _ => rfl⟩
  rw [if_neg hq]
  by_cases hr0 : s.link (.rlink a) = 0
  · rw [if_neg (not_not_intro hr0)]
    obtain rfl := hr.eq_zero_iff.mp hr0
    exact ⟨_, s, l, rfl, hl, (append_nil _).symm, rfl, rfl, fun x _ => rfl⟩
  rw [if_pos hr0]
  cases r with
  | nil => exact absurd hr hr0
  | node rl b kb rr =>
    have hb : s.link (.rlink a) = b := hr.1
    have hblr : b ∈ (Tree.node rl b kb rr).addrs := by
      rw [Tree.addrs_node]
      exact mem_append_right _ (.head _)
    rw [hb]
    by_cases hrl : s.link (.llink b) = 0
    · -- D2: the right son takes the left part
      rw [if_pos hrl]
      obtain ⟨-, hbne, hbkey, hrl', hrr⟩ := hr
      obtain rfl := hrl'.eq_zero_iff.mp hrl
      rw [Tree.addrs_node] at hndr hdisj
      obtain ⟨hbrr, -⟩ := nodup_cons.mp hndr
      refine ⟨b, _, .node l b kb rr, rfl, ⟨rfl, hbne, hbkey, ?_, ?_⟩, rfl, rfl, rfl, fun x hx => ?_⟩
      · rw [State.store_self]
        refine hl.congr fun c hc => ⟨rfl, State.store_of_ne ?_, State.store_of_ne (by simp)⟩
        exact fun h => hdisj c hc b (by simp) (Link.llink.inj h)
      · rw [State.store_of_ne (by simp)]
        refine hrr.congr fun c hc => ⟨rfl, State.store_of_ne ?_, State.store_of_ne (by simp)⟩
        exact fun h => hbrr (Link.llink.inj h ▸ hc)
      · apply State.store_of_ne
        rintro rfl
        exact hx b (mem_append_right _ (.tail _ hblr)) rfl
    · -- D3: the leftmost node on the right takes the place
      rw [if_neg hrl]
      have hrlne : rl ≠ .nil := fun h0 => hrl (hr.2.2.2.1.eq_zero_iff.mpr h0)
      have hfuel : rl.addrs.length ≤ s.bound := by
        rw [Tree.addrs_node, length_append] at hbound
        omega
      obtain ⟨c, q, kq, rq, A₂, heq, hfocus⟩ := findNull_spec hr hndr
        (fun b hb hin => har (some.inj hb ▸ hin)) hrlne hfuel
      obtain ⟨s', v, hsplice, hv, hentries, hkey', hlive, hframe⟩ := splice_spec hp hl hnodup hown hfocus
      rw [heq, map_some, hsplice]
      exact ⟨q, s', v, rfl, hv, hentries, hkey', hlive, hframe⟩

end Svr42.Tsearch
