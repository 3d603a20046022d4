import Svr42.ModldModel
import Svr42.WaitGraph

/-! Processes that load modules with dependents: when they may end up waiting for each other. -/

namespace Svr42.Modld
open Function List

variable {Ptr Name Proc : Type} {files : Files Name} {s t : Mods Ptr Name Proc} {p q : Proc}
  {mp modp : Ptr} {name : Name}
  {f g : Frame Ptr Name} {fs : List (Frame Ptr Name)} {point : Point Ptr Name}

def DependsOn (files : Files Name) (a b : Name) : Prop := b ∈ files.dependents a

/-- What of a module the calls of `modld` go by. -/
structure Core (Name Proc : Type) where
  name : Name
  loading : Bool
  inprogress : Option Proc

def Mods.core (s : Mods Ptr Name Proc) (mp : Ptr) : Core Name Proc :=
  ⟨(s.modctl mp).modName, (s.modctl mp).modLoading, (s.modctl mp).modInprogress⟩

def Listed : Point Ptr Name → Prop
  | .again => False
  | .asleep _ => False
  | _ => True

def pending : Point Ptr Name → List Name
  | .dodep rest => rest
  | .record _ rest => rest
  | _ => []

/-- Every call but the innermost is one in `mod_obj_dodep`, for a dependent that the next loads. -/
def Nested (files : Files Name) : List (Frame Ptr Name) → Prop
  | [] => True
  | [f] => ∀ name ∈ pending f.point, DependsOn files f.name name
  | f :: g :: fs => (∀ name ∈ pending f.point, DependsOn files f.name name) ∧
      (∃ rest, g.point = .dodep rest) ∧ DependsOn files g.name f.name ∧ Nested files (g :: fs)

/-- How the calls in progress fit the list of modules. -/
structure Fits (files : Files Name) (modhead : List Ptr) (core : Ptr → Core Name Proc)
    (used : Ptr → Bool) (stack : Proc → List (Frame Ptr Name)) : Prop where
  nested : ∀ p, Nested files (stack p)
  own : ∀ p, ∀ f ∈ stack p, used f.modp = true ∧ (core f.modp).name = f.name ∧
    (core f.modp).inprogress = some p
  once : ∀ p, ((stack p).map Frame.modp).Nodup
  listed : ∀ p, ∀ f ∈ stack p, Listed f.point ↔ f.modp ∈ modhead
  loading : ∀ p, ∀ f ∈ stack p, (∀ error, f.point ≠ .stubs error) → (core f.modp).loading = true
  nodup : modhead.Nodup
  distinct : ∀ mp ∈ modhead, ∀ mp' ∈ modhead, (core mp).name = (core mp').name → mp = mp'
  live : ∀ mp ∈ modhead, used mp = true
  loader : ∀ mp ∈ modhead, ∀ p, (core mp).inprogress = some p → ∃ f ∈ stack p, f.modp = mp
  waiting : ∀ p, ∀ f ∈ stack p, ∀ mp, f.point = .asleep mp →
    mp ∈ modhead ∧ (core mp).name = f.name ∧ (core mp).inprogress ≠ some p
  straight : ∀ p f fs mp, stack p = f :: fs → f.point = .asleep mp → (core mp).loading = true →
    (core mp).inprogress ≠ none →
    ∀ g ∈ fs, ¬ Relation.ReflTransGen (DependsOn files) f.name g.name

/-! ### Stacks of calls -/

namespace Nested

section

variable (h : Nested files (f :: fs))
include h

theorem top : ∀ name ∈ pending f.point, DependsOn files f.name name := by
  cases fs with
  | nil => exact h
  | cons g fs => exact h.1

theorem tail : Nested files fs := by
  cases fs with
  | nil => trivial
  | cons g fs => exact h.2.2.2

theorem callers : ∀ g ∈ fs, ∃ rest, g.point = .dodep rest := by
  induction fs generalizing f with
  | nil => exact nofun
  | cons x fs ih =>
    intro g hg
    rcases mem_cons.mp hg with rfl | hg
    · exact h.2.1
    · exact ih h.tail g hg

theorem leads : ∀ g ∈ fs, Relation.ReflTransGen (DependsOn files) g.name f.name := by
  induction fs generalizing f with
  | nil => exact nofun
  | cons x fs ih =>
    intro g hg
    have hone : Relation.ReflTransGen (DependsOn files) x.name f.name :=
      Relation.ReflTransGen.single h.2.2.1
    rcases mem_cons.mp hg with rfl | hg
    · exact hone
    · exact (ih h.tail g hg).trans hone

theorem moveTop (hpending : ∀ name ∈ pending point, DependsOn files f.name name) :
    Nested files ({ f with point := point } :: fs) := by
  cases fs with
  | nil => exact hpending
  | cons g fs => exact ⟨hpending, h.2⟩

end

theorem push (h : Nested files fs)
    (hcall : ∀ g gs, fs = g :: gs → (∃ rest, g.point = .dodep rest) ∧ DependsOn files g.name name) :
    Nested files (⟨modp, name, .again⟩ :: fs) := by
  cases fs with
  | nil => exact nofun
  | cons g gs =>
    obtain ⟨hdodep, hname⟩ := hcall g gs rfl
    exact ⟨nofun, hdodep, hname, h⟩

end Nested

theorem Fits.unique {modhead : List Ptr} {core : Ptr → Core Name Proc} {used : Ptr → Bool}
    {stack : Proc → List (Frame Ptr Name)} (h : Fits files modhead core used stack) (hf : f ∈ stack p)
    (hg : g ∈ stack q) (hmodp : f.modp = g.modp) : p = q ∧ f = g := by
  have hp := (h.own p f hf).2.2
  have hq := (h.own q g hg).2.2
  rw [hmodp, hq] at hp
  have hpq : q = p := Option.some_injective _ hp
  refine ⟨hpq.symm, ?_⟩
  rw [hpq] at hg
  exact inj_on_of_nodup_map (h.once p) hf hg hmodp

variable [DecidableEq Ptr]

section

variable {modhead modhead' : List Ptr} {core core' : Ptr → Core Name Proc} {used used' : Ptr → Bool}
  {stack : Proc → List (Frame Ptr Name)}

/-! ### Waking -/

theorem wakeFrame_cases (mp : Ptr) (f : Frame Ptr Name) : wakeFrame mp f = f ∧ f.point ≠ .asleep mp ∨
      wakeFrame mp f = { f with point := .again } ∧ f.point = .asleep mp := by
  unfold wakeFrame
  cases hpoint : f.point with
  | asleep sv =>
    by_cases hsv : sv = mp
    · exact .inr ⟨if_pos hsv, congrArg Point.asleep hsv⟩
    · exact .inl ⟨if_neg hsv, fun heq => hsv (Point.asleep.inj heq)⟩
  | _ =>
    refine .inl ⟨rfl, ?_⟩
    intro heq
    cases heq

theorem wakeFrame_modp (mp : Ptr) (f : Frame Ptr Name) : (wakeFrame mp f).modp = f.modp := by
  rcases wakeFrame_cases mp f with ⟨heq, -⟩ | ⟨heq, -⟩
  · rw [heq]
  · rw [heq]

theorem wakeFrame_name (mp : Ptr) (f : Frame Ptr Name) : (wakeFrame mp f).name = f.name := by
  rcases wakeFrame_cases mp f with ⟨heq, -⟩ | ⟨heq, -⟩
  · rw [heq]
  · rw [heq]

/-- A call in `mod_obj_dodep` is not waiting for a wakeup. -/
theorem wakeFrame_dodep {rest : List Name} (h : f.point = .dodep rest) : wakeFrame mp f = f := by
  rcases wakeFrame_cases mp f with ⟨heq, -⟩ | ⟨-, hpoint⟩
  · exact heq
  · rw [h] at hpoint
    cases hpoint

theorem Nested.wake (h : Nested files fs) (mp : Ptr) : Nested files (fs.map (wakeFrame mp)) := by
  have htop : ∀ f : Frame Ptr Name, (∀ name ∈ pending f.point, DependsOn files f.name name) →
      ∀ name ∈ pending (wakeFrame mp f).point, DependsOn files (wakeFrame mp f).name name := by
    intro f hf
    rcases wakeFrame_cases mp f with ⟨heq, -⟩ | ⟨heq, -⟩
    · rw [heq]
      exact hf
    · rw [heq]
      exact nofun
  cases fs with
  | nil => trivial
  | cons f fs =>
    induction fs generalizing f with
    | nil => exact htop f h
    | cons g fs ih =>
      obtain ⟨hpending, ⟨rest, hrest⟩, hname, htail⟩ := h
      refine ⟨htop f hpending, ⟨rest, ?_⟩, ?_, ih g htail⟩
      · rw [wakeFrame_dodep hrest]
        exact hrest
      · rw [wakeFrame_name, wakeFrame_name]
        exact hname

theorem Fits.wake (h : Fits files modhead core used stack) (mp : Ptr) :
    Fits files modhead core used (fun p => (stack p).map (wakeFrame mp)) ∧
      ∀ p, ∀ f ∈ (stack p).map (wakeFrame mp), f.point ≠ .asleep mp := by
  refine ⟨⟨fun p => (h.nested p).wake mp, fun p f hf => ?_, fun p => ?_, fun p f hf => ?_,
    fun p f hf hstubs => ?_, h.nodup, h.distinct, h.live, fun m hm p hp => ?_, fun p f hf m hpoint => ?_,
    fun p f fs m hstack hpoint hloading hin g hg => ?_⟩, fun p f hf => ?_⟩
  · obtain ⟨x, hx, rfl⟩ := mem_map.mp hf
    rw [wakeFrame_modp, wakeFrame_name]
    exact h.own p x hx
  · rw [map_map, show Frame.modp ∘ (wakeFrame mp : Frame Ptr Name → Frame Ptr Name) = Frame.modp from
      funext fun f => wakeFrame_modp mp f]
    exact h.once p
  · obtain ⟨x, hx, rfl⟩ := mem_map.mp hf
    rw [wakeFrame_modp, ← h.listed p x hx]
    rcases wakeFrame_cases mp x with ⟨heq, -⟩ | ⟨heq, hpoint⟩
    · rw [heq]
    · rw [heq, hpoint]
      exact .rfl
  · obtain ⟨x, hx, rfl⟩ := mem_map.mp hf
    rw [wakeFrame_modp]
    refine h.loading p x hx fun error hpoint => ?_
    rcases wakeFrame_cases mp x with ⟨heq, -⟩ | ⟨-, hasleep⟩
    · rw [heq] at hstubs
      exact hstubs error hpoint
    · rw [hpoint] at hasleep
      cases hasleep
  · obtain ⟨f, hf, hmodp⟩ := h.loader m hm p hp
    exact ⟨wakeFrame mp f, mem_map_of_mem hf, (wakeFrame_modp mp f).trans hmodp⟩
  · obtain ⟨x, hx, rfl⟩ := mem_map.mp hf
    rcases wakeFrame_cases mp x with ⟨heq, -⟩ | ⟨heq, -⟩
    · rw [heq] at hpoint ⊢
      exact h.waiting p x hx m hpoint
    · rw [heq] at hpoint
      cases hpoint
  · cases hold : stack p with
    | nil =>
      rw [hold] at hstack
      cases hstack
    | cons x xs =>
      rw [hold, map_cons] at hstack
      obtain ⟨hx, hxs⟩ := cons.inj hstack
      rw [← hxs] at hg
      obtain ⟨y, hy, rfl⟩ := mem_map.mp hg
      rw [← hx, wakeFrame_name, wakeFrame_name]
      rcases wakeFrame_cases mp x with ⟨heq, -⟩ | ⟨heq, -⟩
      · rw [← hx, heq] at hpoint
        exact h.straight p x xs m hold hpoint hloading hin y hy
      · rw [← hx, heq] at hpoint
        cases hpoint
  · obtain ⟨x, hx, rfl⟩ := mem_map.mp hf
    rcases wakeFrame_cases mp x with ⟨heq, hne⟩ | ⟨heq, -⟩
    · rw [heq]
      exact hne
    · rw [heq]
      intro hpoint
      cases hpoint

variable [DecidableEq Proc]

omit [DecidableEq Ptr] in
theorem mem_update {l : List (Frame Ptr Name)} :
    g ∈ update stack p l q ↔ q = p ∧ g ∈ l ∨ q ≠ p ∧ g ∈ stack q := by
  by_cases hq : q = p
  · rw [hq, update_self]
    simp
  · rw [update_of_ne hq]
    simp [hq]

omit [DecidableEq Ptr] in
/-- The calls once the innermost of a process is another: that one, and those for other modules. -/
theorem Fits.replaced {f' : Frame Ptr Name} (h : Fits files modhead core used stack)
    (hp : stack p = f :: fs) (hg : g ∈ update stack p (f' :: fs) q) :
    q = p ∧ g = f' ∨ g ∈ stack q ∧ g.modp ≠ f.modp := by
  have hf : f ∈ stack p := hp ▸ (.head _)
  have honce := h.once p
  rw [hp] at honce
  rcases mem_update.mp hg with ⟨rfl, hmem⟩ | ⟨hq, hmem⟩
  · rcases mem_cons.mp hmem with heq | hmem
    · exact .inl ⟨rfl, heq⟩
    · refine .inr ⟨hp ▸ .tail f hmem, fun heq => ?_⟩
      exact (nodup_cons.mp honce).1 (heq ▸ mem_map_of_mem hmem)
  · exact .inr ⟨hmem, fun heq => hq (h.unique hmem hf heq).1⟩

omit [DecidableEq Ptr] in
theorem remains (f' : Frame Ptr Name) (hp : stack p = f :: fs) (hg : g ∈ stack q)
    (hmodp : f'.modp = f.modp) : ∃ g' ∈ update stack p (f' :: fs) q, g'.modp = g.modp := by
  by_cases hq : q = p
  · rw [hq, hp] at hg
    rw [hq, update_self]
    rcases mem_cons.mp hg with rfl | hg
    · exact ⟨f', .head _, hmodp⟩
    · exact ⟨g, .tail f' hg, rfl⟩
  · exact ⟨g, mem_update.mpr (.inr ⟨hq, hg⟩), rfl⟩

/-! ### One call goes on -/

section

variable (h : Fits files modhead core used stack)
include h

omit [DecidableEq Ptr] in
/-- The innermost call goes on at a point, and of the modules only its own changes. -/
theorem Fits.moved (hp : stack p = f :: fs)
    (hpending : ∀ name ∈ pending point, DependsOn files f.name name)
    (hmods : ∀ mp, mp ≠ f.modp → (mp ∈ modhead' ↔ mp ∈ modhead) ∧ core' mp = core mp)
    (hsame : (core' f.modp).name = (core f.modp).name ∧
      (core' f.modp).inprogress = (core f.modp).inprogress ∧
        ((core' f.modp).loading = true → (core f.modp).loading = true))
    (hloading : (∀ error, point ≠ .stubs error) → (core' f.modp).loading = true)
    (hlisted : Listed point ↔ f.modp ∈ modhead') (hkept : ∀ mp ∈ modhead, mp ∈ modhead')
    (hnodup : modhead'.Nodup)
    (hdistinct : ∀ mp ∈ modhead', ∀ mp' ∈ modhead', (core mp).name = (core mp').name → mp = mp')
    (hasleep : ∀ mp, point = .asleep mp → (mp ∈ modhead ∧ (core mp).name = f.name ∧
      (core mp).inprogress ≠ some p) ∧ ((core mp).loading = true → (core mp).inprogress ≠ none →
        ∀ g ∈ fs, ¬ Relation.ReflTransGen (DependsOn files) f.name g.name)) :
    Fits files modhead' core' used (update stack p ({ f with point := point } :: fs)) := by
  have hf : f ∈ stack p := hp ▸ (.head _)
  have hnested := h.nested p
  have honce := h.once p
  rw [hp] at hnested honce
  have hcore : ∀ m, (core' m).name = (core m).name ∧ (core' m).inprogress = (core m).inprogress ∧
      ((core' m).loading = true → (core m).loading = true) := by
    intro m
    by_cases hm : m = f.modp
    · exact hm ▸ hsame
    · rw [(hmods m hm).2]
      exact ⟨rfl, rfl, id⟩
  refine ⟨fun q => ?_, fun q g hg => ?_, fun q => ?_, fun q g hg => ?_, fun q g hg hnot => ?_, hnodup,
    fun m hm m' hm' heq => ?_, fun m hm => ?_, fun m hm q hq => ?_, fun q g hg m hpoint => ?_,
    fun q g gs m hstack hpoint hload hin => ?_⟩
  · by_cases hq : q = p
    · rw [hq, update_self]
      exact hnested.moveTop hpending
    · rw [update_of_ne hq]
      exact h.nested q
  · rw [(hcore g.modp).1, (hcore g.modp).2.1]
    rcases h.replaced hp hg with ⟨rfl, rfl⟩ | ⟨hg, -⟩
    · exact h.own q f hf
    · exact h.own q g hg
  · by_cases hq : q = p
    · rw [hq, update_self]
      exact honce
    · rw [update_of_ne hq]
      exact h.once q
  · rcases h.replaced hp hg with ⟨rfl, rfl⟩ | ⟨hold, hne⟩
    · exact hlisted
    · exact (h.listed q g hold).trans (hmods g.modp hne).1.symm
  · rcases h.replaced hp hg with ⟨rfl, rfl⟩ | ⟨hold, hne⟩
    · exact hloading hnot
    · rw [(hmods g.modp hne).2]
      exact h.loading q g hold hnot
  · rw [(hcore m).1, (hcore m').1] at heq
    exact hdistinct m hm m' hm' heq
  · by_cases hmf : m = f.modp
    · rw [hmf]
      exact (h.own p f hf).1
    · exact h.live m ((hmods m hmf).1.mp hm)
  · rw [(hcore m).2.1] at hq
    have hcall : ∃ g ∈ stack q, g.modp = m := by
      by_cases hmf : m = f.modp
      · rw [hmf, (h.own p f hf).2.2] at hq
        exact ⟨f, Option.some_injective _ hq ▸ hf, hmf.symm⟩
      · exact h.loader m ((hmods m hmf).1.mp hm) q hq
    obtain ⟨g, hg, hmodp⟩ := hcall
    obtain ⟨g', hg', hmodp'⟩ := remains { f with point := point } hp hg rfl
    exact ⟨g', hg', hmodp'.trans hmodp⟩
  · rw [(hcore m).1, (hcore m).2.1]
    rcases h.replaced hp hg with ⟨rfl, rfl⟩ | ⟨hg, -⟩
    · obtain ⟨hm, hwait⟩ := (hasleep m hpoint).1
      exact ⟨hkept m hm, hwait⟩
    · obtain ⟨hm, hwait⟩ := h.waiting q g hg m hpoint
      exact ⟨hkept m hm, hwait⟩
  · rw [(hcore m).2.1] at hin
    have hload := (hcore m).2.2 hload
    by_cases hq : q = p
    · rw [hq, update_self] at hstack
      obtain ⟨rfl, rfl⟩ := cons.inj hstack
      exact (hasleep m hpoint).2 hload hin
    · rw [update_of_ne hq] at hstack
      exact h.straight q g gs m hstack hpoint hload hin

omit [DecidableEq Ptr] in
/-- The innermost call goes on at a point. -/
theorem Fits.goTo (hp : stack p = f :: fs)
    (hpending : ∀ name ∈ pending point, DependsOn files f.name name)
    (hstubs : ∀ error, f.point ≠ .stubs error) (hlisted : Listed point ↔ Listed f.point)
    (hasleep : ∀ mp, point = .asleep mp → (mp ∈ modhead ∧ (core mp).name = f.name ∧
      (core mp).inprogress ≠ some p) ∧ ((core mp).loading = true → (core mp).inprogress ≠ none →
        ∀ g ∈ fs, ¬ Relation.ReflTransGen (DependsOn files) f.name g.name)) :
    Fits files modhead core used (update stack p ({ f with point := point } :: fs)) := by
  have hf : f ∈ stack p := hp ▸ (.head _)
  exact h.moved hp hpending (fun _ _ => ⟨.rfl, rfl⟩) ⟨rfl, rfl, id⟩ (fun _ => h.loading p f hf hstubs)
    (hlisted.trans (h.listed p f hf)) (fun _ => id) h.nodup h.distinct hasleep

/-- The stubs could not be installed, and the module is on its way out. -/
theorem Fits.stub (hp : stack p = f :: fs) (hlisted : Listed f.point) (error : Errno) :
    Fits files modhead (update core f.modp { core f.modp with loading := false }) used
      (update stack p ({ f with point := .stubs error } :: fs)) := by
  have hmem := (h.listed p f (hp ▸ (.head _))).mp hlisted
  refine h.moved hp nofun (fun mp hmp => ⟨.rfl, update_of_ne hmp _ _⟩) ?_
    (fun hnot => absurd rfl (hnot error)) ⟨fun _ => hmem, fun _ => trivial⟩ (fun _ => id) h.nodup
    h.distinct nofun
  rw [update_self]
  exact ⟨rfl, rfl, nofun⟩

omit [DecidableEq Ptr] in
/-- A module comes onto the list, as none has its name. -/
theorem Fits.list (hp : stack p = f :: fs) (hpoint : f.point = .again)
    (hnew : ∀ mp ∈ modhead, (core mp).name ≠ f.name) :
    Fits files (modhead ++ [f.modp]) core used (update stack p ({ f with point := .load } :: fs)) := by
  have hf : f ∈ stack p := hp ▸ (.head _)
  have hname := (h.own p f hf).2.1
  have hoff : f.modp ∉ modhead := by
    intro hmem
    have hlisted := (h.listed p f hf).mpr hmem
    rw [hpoint] at hlisted
    exact hlisted
  refine h.moved hp nofun (fun mp hmp => ⟨?_, rfl⟩) ⟨rfl, rfl, id⟩ (fun _ => ?_)
    ⟨fun _ => mem_append_right _ (.head _), fun _ => trivial⟩ (fun _ => mem_append_left _) ?_
    (fun m hm m' hm' heq => ?_) nofun
  · rw [mem_append, mem_singleton]
    exact or_iff_left hmp
  · refine h.loading p f hf fun error heq => ?_
    rw [hpoint] at heq
    cases heq
  · rw [nodup_append_comm]
    exact nodup_cons.mpr ⟨hoff, h.nodup⟩
  · rcases mem_append.mp hm with hm | hm
    · rcases mem_append.mp hm' with hm' | hm'
      · exact h.distinct m hm m' hm' heq
      · rw [mem_singleton.mp hm', hname] at heq
        exact absurd heq (hnew m hm)
    · rcases mem_append.mp hm' with hm' | hm'
      · rw [mem_singleton.mp hm, hname] at heq
        exact absurd heq.symm (hnew m' hm')
      · rw [mem_singleton.mp hm, mem_singleton.mp hm']

/-- A call is made, with a new `modctl`. -/
theorem Fits.call (name : Name) (p : Proc) (hnew : used modp = false)
    (hcall : ∀ g gs, stack p = g :: gs → (∃ rest, g.point = .dodep rest) ∧ DependsOn files g.name name) :
    Fits files modhead (update core modp ⟨name, true, some p⟩) (update used modp true)
      (update stack p (⟨modp, name, .again⟩ :: stack p)) := by
  have hfresh : ∀ m, used m = true → m ≠ modp := by
    rintro m hm rfl
    rw [hnew] at hm
    cases hm
  have hcore : ∀ m, used m = true →
      update core modp ⟨name, true, some p⟩ m = core m ∧ update used modp true m = true := by
    intro m hm
    rw [update_of_ne (hfresh m hm), update_of_ne (hfresh m hm)]
    exact ⟨rfl, hm⟩
  have hcases : ∀ q, ∀ g ∈ update stack p (⟨modp, name, .again⟩ :: stack p) q,
      q = p ∧ g = ⟨modp, name, .again⟩ ∨ g ∈ stack q := by
    intro q g hg
    rcases mem_update.mp hg with ⟨hq, hmem⟩ | ⟨-, hmem⟩
    · rw [hq]
      exact (mem_cons.mp hmem).imp (fun heq => ⟨rfl, heq⟩) id
    · exact .inr hmem
  refine ⟨fun q => ?_, fun q g hg => ?_, fun q => ?_, fun q g hg => ?_, fun q g hg hnot => ?_, h.nodup,
    fun m hm m' hm' heq => ?_, fun m hm => ?_, fun m hm q hq => ?_, fun q g hg m hpoint => ?_,
    fun q g gs m hstack hpoint hloading hin => ?_⟩
  · by_cases hq : q = p
    · rw [hq, update_self]
      exact (h.nested p).push hcall
    · rw [update_of_ne hq]
      exact h.nested q
  · rcases hcases q g hg with ⟨rfl, rfl⟩ | hg
    · rw [update_self, update_self]
      exact ⟨rfl, rfl, rfl⟩
    · obtain ⟨hused, hown⟩ := h.own q g hg
      rw [(hcore g.modp hused).1, (hcore g.modp hused).2]
      exact ⟨rfl, hown⟩
  · by_cases hq : q = p
    · rw [hq, update_self]
      refine nodup_cons.mpr ⟨fun hmem => ?_, h.once p⟩
      obtain ⟨g, hg, hmodp⟩ := mem_map.mp hmem
      exact hfresh g.modp (h.own p g hg).1 hmodp
    · rw [update_of_ne hq]
      exact h.once q
  · rcases hcases q g hg with ⟨rfl, rfl⟩ | hg
    · exact ⟨fun hfalse => absurd hfalse id, fun hmem => absurd rfl (hfresh modp (h.live modp hmem))⟩
    · exact h.listed q g hg
  · rcases hcases q g hg with ⟨rfl, rfl⟩ | hg
    · rw [update_self]
    · rw [(hcore g.modp (h.own q g hg).1).1]
      exact h.loading q g hg hnot
  · rw [(hcore m (h.live m hm)).1, (hcore m' (h.live m' hm')).1] at heq
    exact h.distinct m hm m' hm' heq
  · exact (hcore m (h.live m hm)).2
  · rw [(hcore m (h.live m hm)).1] at hq
    obtain ⟨g, hg, hmodp⟩ := h.loader m hm q hq
    refine ⟨g, ?_, hmodp⟩
    by_cases hqp : q = p
    · rw [hqp] at hg ⊢
      exact mem_update.mpr (.inl ⟨rfl, .tail _ hg⟩)
    · exact mem_update.mpr (.inr ⟨hqp, hg⟩)
  · rcases hcases q g hg with ⟨rfl, rfl⟩ | hg
    · cases hpoint
    · obtain ⟨hm, hwait⟩ := h.waiting q g hg m hpoint
      rw [(hcore m (h.live m hm)).1]
      exact ⟨hm, hwait⟩
  · by_cases hq : q = p
    · rw [hq, update_self] at hstack
      obtain ⟨rfl, rfl⟩ := cons.inj hstack
      cases hpoint
    · rw [update_of_ne hq] at hstack
      have hm := (h.waiting q g (hstack ▸ (.head _)) m hpoint).1
      rw [(hcore m (h.live m hm)).1] at hloading hin
      exact h.straight q g gs m hstack hpoint hloading hin

/-- A call is over, with nobody asleep on its module, which is freed or loaded for good. -/
theorem Fits.leave (hp : stack p = f :: fs) (hno : ∀ q, ∀ g ∈ stack q, g.point ≠ .asleep f.modp)
    (hmods : ∀ mp, mp ≠ f.modp → (mp ∈ modhead' ↔ mp ∈ modhead) ∧ core' mp = core mp ∧
      used' mp = used mp) (hnodup : modhead'.Nodup)
    (hout : f.modp ∈ modhead' → f.modp ∈ modhead ∧ (core' f.modp).inprogress = none ∧
      (core' f.modp).name = f.name ∧ used' f.modp = true) :
    Fits files modhead' core' used' (update stack p fs) := by
  have hf : f ∈ stack p := hp ▸ (.head _)
  have hnested := h.nested p
  have honce := h.once p
  rw [hp] at hnested honce
  have hcases : ∀ q, ∀ g ∈ update stack p fs q, g ∈ stack q ∧ g.modp ≠ f.modp := by
    intro q g hg
    rcases mem_update.mp hg with ⟨hq, hmem⟩ | ⟨hq, hmem⟩
    · rw [hq]
      refine ⟨hp ▸ .tail f hmem, fun heq => ?_⟩
      exact (nodup_cons.mp honce).1 (heq ▸ mem_map_of_mem hmem)
    · exact ⟨hmem, fun heq => hq (h.unique hmem hf heq).1⟩
  have hlisted : ∀ m ∈ modhead', m ∈ modhead ∧ (core' m).name = (core m).name := by
    intro m hm
    by_cases hmf : m = f.modp
    · rw [hmf] at hm ⊢
      obtain ⟨hmem, -, hname, -⟩ := hout hm
      exact ⟨hmem, hname.trans (h.own p f hf).2.1.symm⟩
    · obtain ⟨hmem, hcore, -⟩ := hmods m hmf
      rw [hcore]
      exact ⟨hmem.mp hm, rfl⟩
  have hwaits : ∀ q, ∀ g ∈ stack q, ∀ m, g.point = .asleep m → m ≠ f.modp := by
    rintro q g hg m hpoint rfl
    exact hno q g hg hpoint
  refine ⟨fun q => ?_, fun q g hg => ?_, fun q => ?_, fun q g hg => ?_, fun q g hg hnot => ?_, hnodup,
    fun m hm m' hm' heq => ?_, fun m hm => ?_, fun m hm q hq => ?_, fun q g hg m hpoint => ?_,
    fun q g gs m hstack hpoint hloading hin => ?_⟩
  · by_cases hq : q = p
    · rw [hq, update_self]
      exact hnested.tail
    · rw [update_of_ne hq]
      exact h.nested q
  · obtain ⟨hold, hne⟩ := hcases q g hg
    rw [(hmods g.modp hne).2.1, (hmods g.modp hne).2.2]
    exact h.own q g hold
  · by_cases hq : q = p
    · rw [hq, update_self]
      exact (nodup_cons.mp honce).2
    · rw [update_of_ne hq]
      exact h.once q
  · obtain ⟨hold, hne⟩ := hcases q g hg
    rw [h.listed q g hold]
    exact (hmods g.modp hne).1.symm
  · obtain ⟨hold, hne⟩ := hcases q g hg
    rw [(hmods g.modp hne).2.1]
    exact h.loading q g hold hnot
  · rw [(hlisted m hm).2, (hlisted m' hm').2] at heq
    exact h.distinct m (hlisted m hm).1 m' (hlisted m' hm').1 heq
  · by_cases hmf : m = f.modp
    · rw [hmf] at hm ⊢
      exact (hout hm).2.2.2
    · rw [(hmods m hmf).2.2]
      exact h.live m (hlisted m hm).1
  · have hmf : m ≠ f.modp := by
      rintro rfl
      rw [(hout hm).2.1] at hq
      cases hq
    rw [(hmods m hmf).2.1] at hq
    obtain ⟨g, hg, hmodp⟩ := h.loader m (hlisted m hm).1 q hq
    refine ⟨g, ?_, hmodp⟩
    by_cases hqp : q = p
    · rw [hqp] at hg ⊢
      rw [hp] at hg
      refine mem_update.mpr (.inl ⟨rfl, (mem_cons.mp hg).resolve_left ?_⟩)
      rintro rfl
      exact hmf hmodp.symm
    · exact mem_update.mpr (.inr ⟨hqp, hg⟩)
  · obtain ⟨hold, -⟩ := hcases q g hg
    have hmf := hwaits q g hold m hpoint
    obtain ⟨hm, hwait⟩ := h.waiting q g hold m hpoint
    rw [(hmods m hmf).2.1]
    exact ⟨(hmods m hmf).1.mpr hm, hwait⟩
  · by_cases hq : q = p
    · rw [hq, update_self] at hstack
      obtain ⟨rest, hrest⟩ := hnested.callers g (hstack ▸ (.head _))
      rw [hrest] at hpoint
      cases hpoint
    · rw [update_of_ne hq] at hstack
      have hmf := hwaits q g (hstack ▸ (.head _)) m hpoint
      rw [(hmods m hmf).2.1] at hloading hin
      exact h.straight q g gs m hstack hpoint hloading hin

end

end

/-! ### Steps -/

def Ok (files : Files Name) (s : Mods Ptr Name Proc) : Prop :=
  Fits files s.modhead s.core s.used s.stack

variable {c : Modctl Ptr Name Proc}

theorem core_setModctl (mp : Ptr) :
    (setModctl s mp c).core = update s.core mp ⟨c.modName, c.modLoading, c.modInprogress⟩ := by
  funext m
  unfold Mods.core setModctl
  by_cases hm : m = mp
  · rw [hm]
    simp only [update_self]
  · simp only [update_of_ne hm]

theorem core_setModctl_same (hname : c.modName = (s.modctl mp).modName)
    (hloading : c.modLoading = (s.modctl mp).modLoading)
    (hin : c.modInprogress = (s.modctl mp).modInprogress) : (setModctl s mp c).core = s.core := by
  rw [core_setModctl, hname, hloading, hin]
  exact update_eq_self mp s.core

/-- Nothing that matters to the calls in progress has changed. -/
structure SameCalls (s t : Mods Ptr Name Proc) : Prop where
  modhead : t.modhead = s.modhead
  core : t.core = s.core
  used : t.used = s.used
  stack : t.stack = s.stack

omit [DecidableEq Ptr] in
theorem SameCalls.trans {u : Mods Ptr Name Proc} (h : SameCalls s t) (h' : SameCalls t u) :
    SameCalls s u :=
  ⟨h'.modhead.trans h.modhead, h'.core.trans h.core, h'.used.trans h.used, h'.stack.trans h.stack⟩

theorem unload_same (h : unload s mp = some t) : SameCalls s t := by
  obtain ⟨last, -, rfl⟩ := Option.map_eq_some_iff.mp h
  exact ⟨rfl, rfl, rfl, rfl⟩

theorem recover_same (h : recover s mp = some t) : SameCalls s t := by
  obtain ⟨p, -, hmap⟩ := Option.bind_eq_some_iff.mp h
  obtain ⟨n, -, rfl⟩ := Option.map_eq_some_iff.mp hmap
  exact ⟨rfl, rfl, rfl, rfl⟩

/-- Only counts and the unload list change with the dependencies. -/
theorem modObjUnload_same {deps : List Ptr} (h : modObjUnload deps s = some t) : SameCalls s t := by
  induction deps generalizing s with
  | nil =>
    obtain rfl := Option.some_injective _ h
    exact ⟨rfl, rfl, rfl, rfl⟩
  | cons dep deps ih =>
    have hcount : SameCalls s (setModctl s dep
        { s.modctl dep with modDepcnt := (s.modctl dep).modDepcnt - 1 }) :=
      ⟨rfl, core_setModctl_same rfl rfl rfl, rfl, rfl⟩
    rw [modObjUnload] at h
    split_ifs at h with hbusy
    · exact hcount.trans (ih h)
    · obtain ⟨u, hu, hrest⟩ := Option.bind_eq_some_iff.mp h
      exact hcount.trans ((unload_same hu).trans (ih hrest))

/-- What is left of a module that is taken off the lists. -/
theorem unlink_spec (h : unlink s modp = some t) : t.modhead = s.modhead.erase modp ∧
    t.core = s.core ∧ t.used = update s.used modp false ∧
    t.stack = fun p => (s.stack p).map (wakeFrame modp) := by
  obtain ⟨u, hu, hrest⟩ := Option.bind_eq_some_iff.mp h
  have hsame := modObjUnload_same hu
  obtain ⟨w, hw, rfl⟩ := Option.map_eq_some_iff.mp hrest
  have herase : SameCalls { u with modhead := u.modhead.erase modp } w := by
    split_ifs at hw with hnone
    · obtain rfl := Option.some_injective _ hw
      exact ⟨rfl, rfl, rfl, rfl⟩
    · exact recover_same hw
  refine ⟨?_, ?_, ?_, ?_⟩
  · rw [← hsame.modhead]
    exact herase.modhead
  · rw [← hsame.core]
    exact herase.core
  · rw [← hsame.used]
    exact congrArg (fun used => update used modp false) herase.used
  · rw [← hsame.stack]
    funext p
    exact congrArg (map (wakeFrame modp)) (congrFun herase.stack p)

omit [DecidableEq Ptr] in
theorem Ok.of_fits {modhead : List Ptr} {core : Ptr → Core Name Proc} {used : Ptr → Bool}
    {stack : Proc → List (Frame Ptr Name)} (h : Fits files modhead core used stack)
    (hmodhead : s.modhead = modhead) (hcore : s.core = core) (hused : s.used = used)
    (hstack : s.stack = stack) : Ok files s := by
  unfold Ok
  rw [hmodhead, hcore, hused, hstack]
  exact h

variable [DecidableEq Proc]

omit [DecidableEq Ptr] in
theorem goTo_stack (hp : s.stack p = f :: fs) :
    (goTo s p point).stack = update s.stack p ({ f with point := point } :: fs) := by
  unfold goTo
  rw [hp]
  rfl

omit [DecidableEq Ptr] in
theorem Ok.goTo (h : Ok files s) (hp : s.stack p = f :: fs)
    (hpending : ∀ name ∈ pending point, DependsOn files f.name name)
    (hstubs : ∀ error, f.point ≠ .stubs error) (hlisted : Listed f.point) (hnew : Listed point) :
    Ok files (goTo s p point) := by
  have hmoved := Fits.goTo h hp hpending hstubs ⟨fun _ => hlisted, fun _ => hnew⟩ (by
    rintro mp rfl
    exact absurd hnew id)
  exact Ok.of_fits hmoved rfl rfl rfl (goTo_stack hp)

omit [DecidableEq Ptr] in
theorem Ok.advance {old : Point Ptr Name} (h : Ok files s) (hp : s.stack p = f :: fs)
    (hpoint : f.point = old) (hlisted : Listed old) (hstubs : ∀ error, old ≠ .stubs error)
    (hnew : Listed point) (hpending : ∀ name ∈ pending point, DependsOn files f.name name) :
    Ok files (Modld.goTo s p point) := by
  rw [← hpoint] at hlisted hstubs
  exact h.goTo hp hpending hstubs hlisted hnew

/-- `modld` returns to the call that made it, if there is one. -/
theorem ok_ret {r : Except Errno Ptr} (hp : s.stack p = f :: fs) (hnested : Nested files (f :: fs))
    (h : Fits files s.modhead s.core s.used (update s.stack p fs)) : Ok files (ret s p r) := by
  unfold Ok ret
  simp only [hp, tail_cons]
  cases fs with
  | nil => exact h
  | cons g gs =>
    obtain ⟨rest, hrest⟩ := hnested.callers g (.head _)
    have hg : update s.stack p (g :: gs) p = g :: gs := update_self _ _ _
    have hpending : ∀ name ∈ rest, DependsOn files g.name name := by
      have htop := hnested.tail.top
      rw [hrest] at htop
      exact htop
    have hstubs : ∀ error, g.point ≠ .stubs error := by
      intro error heq
      rw [hrest] at heq
      cases heq
    have hlisted : Listed g.point := by
      rw [hrest]
      trivial
    have hmove : ∀ point : Point Ptr Name, Listed point →
        (∀ name ∈ pending point, DependsOn files g.name name) →
        Fits files s.modhead s.core s.used (update s.stack p ({ g with point := point } :: gs)) := by
      intro point hpoint hpending
      have hmoved := h.goTo hg hpending hstubs ⟨fun _ => hlisted, fun _ => hpoint⟩ (by
        rintro mp rfl
        exact absurd hpoint id)
      rwa [update_idem] at hmoved
    cases r with
    | error error => exact hmove (.bad .einval) trivial nofun
    | ok mp =>
      have hcount := hmove (.record mp g.point.rest) trivial (by
        rw [hrest]
        exact hpending)
      have hcore : (setModctl s mp
          { s.modctl mp with modDepcnt := (s.modctl mp).modDepcnt + 1 }).core = s.core :=
        core_setModctl_same rfl rfl rfl
      rw [← hcore] at hcount
      exact hcount

section

variable (h : Ok files s) (hp : s.stack p = f :: fs)
include h hp

theorem Ok.release {r : Except Errno Ptr}
    (hpoint : f.point = .again) : Ok files (ret (freeModp s f.modp) p r) := by
  have hf : f ∈ s.stack p := hp ▸ (.head _)
  have hoff : f.modp ∉ s.modhead := by
    intro hmem
    have hlisted := (h.listed p f hf).mpr hmem
    rw [hpoint] at hlisted
    exact hlisted
  have hnested := h.nested p
  rw [hp] at hnested
  refine ok_ret (s := freeModp s f.modp) hp hnested ?_
  refine h.leave hp (fun q g hg hasleep => hoff (h.waiting q g hg _ hasleep).1)
    (fun mp hmp => ⟨.rfl, rfl, update_of_ne hmp _ _⟩) h.nodup fun hmem => absurd hmem hoff

theorem Ok.fail {r : Except Errno Ptr} (ht : unlink s f.modp = some t) : Ok files (ret t p r) := by
  obtain ⟨hmodhead, hcore, hused, hstack⟩ := unlink_spec ht
  obtain ⟨hwake, hno⟩ := Fits.wake h f.modp
  have htp : t.stack p = wakeFrame f.modp f :: fs.map (wakeFrame f.modp) := by
    simp only [hstack, hp, map_cons]
  have hnested := hwake.nested p
  rw [hp, map_cons] at hnested
  refine ok_ret htp hnested ?_
  rw [hmodhead, hcore, hused, hstack]
  refine hwake.leave (show (s.stack p).map (wakeFrame f.modp) = _ by rw [hp, map_cons]) ?_
    (fun mp hmp => ?_) (h.nodup.erase _) fun hmem => ?_
  · intro q g hg
    rw [wakeFrame_modp]
    exact hno q g hg
  · rw [wakeFrame_modp] at hmp
    exact ⟨mem_erase_of_ne hmp, rfl, update_of_ne hmp _ _⟩
  · rw [wakeFrame_modp] at hmem
    exact absurd hmem h.nodup.not_mem_erase

/-- A call has loaded its module. -/
theorem Ok.good (hlisted : Listed f.point) : Ok files (finish s p f .good) := by
  have hf : f ∈ s.stack p := hp ▸ (.head _)
  obtain ⟨hwake, hno⟩ := Fits.wake h f.modp
  have hnested := hwake.nested p
  rw [hp, map_cons] at hnested
  refine ok_ret (show (s.stack p).map (wakeFrame f.modp) =
    wakeFrame f.modp f :: fs.map (wakeFrame f.modp) by rw [hp, map_cons]) hnested ?_
  have hcore : (wakeup (setModctl s f.modp { s.modctl f.modp with
        modInprogress := none
        modLoading := false
        modSymtabok := true }) f.modp).core =
      update s.core f.modp ⟨(s.modctl f.modp).modName, false, none⟩ :=
    core_setModctl f.modp
  rw [hcore]
  refine hwake.leave (show (s.stack p).map (wakeFrame f.modp) = _ by rw [hp, map_cons]) ?_
    (fun mp hmp => ?_) h.nodup fun _ => ?_
  · intro q g hg
    rw [wakeFrame_modp]
    exact hno q g hg
  · rw [wakeFrame_modp] at hmp
    exact ⟨.rfl, update_of_ne hmp _ _, rfl⟩
  · obtain ⟨hused, hname, -⟩ := h.own p f hf
    rw [wakeFrame_modp, wakeFrame_name, update_self]
    exact ⟨(h.listed p f hf).mp hlisted, rfl, hname, hused⟩

end

/-! ### Runs -/

/-- The process waits in `modld` for a module that the other is loading. -/
def Waits (s : Mods Ptr Name Proc) (p q : Proc) : Prop :=
  ∃ f fs mp, s.stack p = f :: fs ∧ f.point = .asleep mp ∧ (s.modctl mp).modInprogress = some q

/-- In the course of its loading, a process does not come to a module that another is loading and
that needs, itself or through others, one that the process is loading. -/
def Straight (files : Files Name) (s : Mods Ptr Name Proc) : Event Ptr Name Proc → Prop
  | .call _ _ _ => True
  | .run p _ _ => ∀ f fs mp q, s.stack p = f :: fs → f.point = .again → mp ∈ s.modhead →
      (s.modctl mp).modName = f.name → (s.modctl mp).modInprogress = some q → q ≠ p →
      (s.modctl mp).modLoading = true →
      ∀ g ∈ fs, ¬ Relation.ReflTransGen (DependsOn files) f.name g.name

variable [DecidableEq Name]

omit [DecidableEq Ptr] [DecidableEq Proc] in
theorem find_listed (hfind : (s.modhead.find? fun mp => (s.modctl mp).modName = f.name) = some mp) :
    mp ∈ s.modhead ∧ (s.modctl mp).modName = f.name := by
  have hname := find?_some hfind
  rw [decide_eq_true_iff] at hname
  exact ⟨mem_of_find?_eq_some hfind, hname⟩

theorem Ok.search (h : Ok files s) (hp : s.stack p = f :: fs) (hpoint : f.point = .again)
    (hstraight : ∀ mp q, mp ∈ s.modhead → (s.modctl mp).modName = f.name →
      (s.modctl mp).modInprogress = some q → q ≠ p → (s.modctl mp).modLoading = true →
      ∀ g ∈ fs, ¬ Relation.ReflTransGen (DependsOn files) f.name g.name) : Ok files (search s p f) := by
  unfold Modld.search
  rcases Option.eq_none_or_eq_some (s.modhead.find? fun mp => (s.modctl mp).modName = f.name) with
    hnone | ⟨mp, hsome⟩
  · simp only [hnone]
    have hnew : ∀ mp ∈ s.modhead, (s.core mp).name ≠ f.name := by
      intro mp hmp
      have hnot := find?_eq_none.mp hnone mp hmp
      rw [decide_eq_true_iff] at hnot
      exact hnot
    have hlist := Fits.list h hp hpoint hnew
    have hcore : (setModctl s f.modp
        { s.modctl f.modp with modId := s.lastModuleId + 1 }).core = s.core :=
      core_setModctl_same rfl rfl rfl
    exact Ok.of_fits hlist rfl hcore rfl (goTo_stack hp)
  · obtain ⟨hmem, hname⟩ := find_listed hsome
    simp only [hsome]
    by_cases hself : (s.modctl mp).modInprogress = some p
    · rw [if_pos hself]
      exact h.release hp hpoint
    rw [if_neg hself]
    by_cases htrans : (s.modctl mp).modLoading = true ∨ (s.modctl mp).modUnloading = true
    · rw [if_pos htrans]
      refine Ok.of_fits (Fits.goTo h hp (fun name hname => absurd hname not_mem_nil)
        (fun error heq => ?_) ?_ fun m hm => ?_) rfl rfl rfl (goTo_stack hp)
      · rw [hpoint] at heq
        cases heq
      · rw [hpoint]
        exact .rfl
      · obtain rfl := Point.asleep.inj hm
        refine ⟨⟨hmem, hname, hself⟩, fun hloading hin => ?_⟩
        obtain ⟨q, hq⟩ := Option.ne_none_iff_exists'.mp hin
        refine hstraight mp q hmem hname hq ?_ hloading
        rintro rfl
        exact hself hq
    · rw [if_neg htrans]
      exact h.release hp hpoint

theorem Ok.step {event : Event Ptr Name Proc} (h : Ok files s) (hstraight : Straight files s event)
    (hstep : step files s event = some t) : Ok files t := by
  cases event with
  | call p name modp =>
    rw [Modld.step] at hstep
    by_cases hbusy : s.stack p ≠ [] ∨ s.used modp = true
    · rw [if_pos hbusy] at hstep
      cases hstep
    rw [if_neg hbusy] at hstep
    rw [not_or, not_not] at hbusy
    by_cases hstatic : files.modStatic name = true
    · rw [if_pos hstatic] at hstep
      obtain rfl := Option.some_injective _ hstep
      exact h
    rw [if_neg hstatic] at hstep
    obtain rfl := Option.some_injective _ hstep
    have hpush := Fits.call h name p (Bool.not_eq_true _ ▸ hbusy.2) fun g gs hg => by
      rw [hbusy.1] at hg
      cases hg
    exact Ok.of_fits hpush rfl (core_setModctl modp) rfl rfl
  | run p modp outcome =>
    obtain ⟨f, hf, hproceed⟩ := Option.bind_eq_some_iff.mp hstep
    obtain ⟨fs, hp⟩ := head?_eq_some_iff.mp hf
    have hnested := h.nested p
    rw [hp] at hnested
    have hnil : ∀ name ∈ ([] : List Name), DependsOn files f.name name := nofun
    unfold proceed at hproceed
    cases hpoint : f.point with
    | again =>
      simp only [hpoint] at hproceed
      obtain rfl := Option.some_injective _ hproceed
      exact h.search hp hpoint fun mp q => hstraight f fs mp q hp hpoint
    | asleep mp =>
      simp only [hpoint] at hproceed
      cases hproceed
    | load =>
      simp only [hpoint] at hproceed
      cases outcome with
      | good =>
        obtain rfl := Option.some_injective _ hproceed
        exact h.advance hp hpoint trivial nofun trivial fun name hname => hname
      | fails error =>
        obtain rfl := Option.some_injective _ hproceed
        exact h.advance hp hpoint trivial nofun trivial hnil
      | stubsFail error => cases hproceed
    | dodep rest =>
      have hpending := hnested.top
      rw [hpoint] at hpending
      cases rest with
      | nil =>
        simp only [hpoint] at hproceed
        obtain rfl := Option.some_injective _ hproceed
        exact h.advance hp hpoint trivial nofun trivial hnil
      | cons name rest =>
        simp only [hpoint] at hproceed
        have hrest : ∀ name ∈ rest, DependsOn files f.name name := fun x hx => hpending x (.tail name hx)
        have hmoved : Ok files (Modld.goTo s p (.dodep rest)) :=
          h.advance hp hpoint trivial nofun trivial hrest
        by_cases hstatic : files.modStatic name = true
        · rw [if_pos hstatic] at hproceed
          obtain rfl := Option.some_injective _ hproceed
          exact hmoved
        rw [if_neg hstatic] at hproceed
        by_cases hused : s.used modp = true
        · rw [if_pos hused] at hproceed
          cases hproceed
        rw [if_neg hused] at hproceed
        obtain rfl := Option.some_injective _ hproceed
        have htop : (Modld.goTo s p (.dodep rest)).stack p = { f with point := .dodep rest } :: fs := by
          rw [goTo_stack hp, update_self]
        have hpush := Fits.call hmoved name p (Bool.not_eq_true _ ▸ hused) fun g gs hg => by
            obtain ⟨rfl, -⟩ := cons.inj (htop.symm.trans hg)
            exact ⟨⟨rest, rfl⟩, hpending name (.head _)⟩
        exact Ok.of_fits hpush rfl (core_setModctl modp) rfl rfl
    | record mp rest =>
      simp only [hpoint] at hproceed
      obtain rfl := Option.some_injective _ hproceed
      have hpending := hnested.top
      rw [hpoint] at hpending
      have hok : Ok files (setModctl s f.modp
          { s.modctl f.modp with mdMcl := mp :: (s.modctl f.modp).mdMcl }) := by
        exact Ok.of_fits h rfl (core_setModctl_same rfl rfl rfl) rfl rfl
      exact hok.advance hp hpoint trivial nofun trivial hpending
    | finish =>
      simp only [hpoint] at hproceed
      obtain rfl := Option.some_injective _ hproceed
      have hlisted : Listed f.point := by
        rw [hpoint]
        trivial
      have hstubs : ∀ error, f.point ≠ .stubs error := by
        intro error heq
        rw [hpoint] at heq
        cases heq
      cases outcome with
      | good => exact h.good hp hlisted
      | fails error => exact h.goTo hp hnil hstubs hlisted trivial
      | stubsFail error =>
        have hstub := Fits.stub h hp hlisted error
        exact Ok.of_fits hstub rfl (core_setModctl f.modp) rfl (goTo_stack hp)
    | bad error =>
      simp only [hpoint] at hproceed
      obtain ⟨u, hu, rfl⟩ := Option.map_eq_some_iff.mp hproceed
      exact h.fail hp hu
    | stubs error =>
      simp only [hpoint] at hproceed
      obtain ⟨u, hu, rfl⟩ := Option.map_eq_some_iff.mp hproceed
      exact h.fail hp hu

omit [DecidableEq Name] [DecidableEq Proc] in
theorem initial_ok [Inhabited Name] : Ok files (initial : Mods Ptr Name Proc) := by
  have hnil : ∀ {x : Ptr}, x ∉ (initial : Mods Ptr Name Proc).modhead := fun hx => not_mem_nil hx
  have hnone : ∀ {p : Proc} {f : Frame Ptr Name}, f ∉ (initial : Mods Ptr Name Proc).stack p :=
    fun hf => not_mem_nil hf
  refine ⟨fun _ => trivial, fun p f hf => absurd hf hnone, fun _ => nodup_nil,
    fun p f hf => absurd hf hnone, fun p f hf => absurd hf hnone, nodup_nil,
    fun mp hmp => absurd hmp hnil, fun mp hmp => absurd hmp hnil, fun mp hmp => absurd hmp hnil,
    fun p f hf => absurd hf hnone, fun p f fs mp hstack => ?_⟩
  cases hstack

omit [DecidableEq Ptr] [DecidableEq Name] [DecidableEq Proc] in
/-- What a process that waits, and one it waits for that waits too, are loading. -/
theorem Ok.waits {r : Proc} (h : Ok files s) (hpq : Waits s p q) (hqr : Waits s q r) :
    ∃ f fs g gs, s.stack p = f :: fs ∧ s.stack q = g :: gs ∧
      (∃ x ∈ gs, x.name = f.name) ∧ (∀ x ∈ gs, Relation.ReflTransGen (DependsOn files) x.name g.name) ∧
      ∀ x ∈ fs, ¬ Relation.ReflTransGen (DependsOn files) f.name x.name := by
  obtain ⟨f, fs, mp, hp, hasleep, hin⟩ := hpq
  obtain ⟨g, gs, mp', hq, hasleep', -⟩ := hqr
  have hf : f ∈ s.stack p := hp ▸ (.head _)
  obtain ⟨hmem, hname, -⟩ := h.waiting p f hf mp hasleep
  obtain ⟨x, hx, hmodp⟩ := h.loader mp hmem q hin
  have hnested := h.nested q
  rw [hq] at hx hnested
  have hgs : x ∈ gs := by
    refine (mem_cons.mp hx).resolve_left ?_
    rintro rfl
    have hlisted := (h.listed q x (hq ▸ hx)).mpr (hmodp ▸ hmem)
    rw [hasleep'] at hlisted
    exact hlisted
  obtain ⟨rest, hrest⟩ := hnested.callers x hgs
  have hloading : (s.core mp).loading = true := by
    rw [← hmodp]
    refine h.loading q x (hq ▸ hx) fun error heq => ?_
    rw [hrest] at heq
    cases heq
  have hxname : x.name = f.name := by
    rw [← (h.own q x (hq ▸ hx)).2.1, hmodp, hname]
  refine ⟨f, fs, g, gs, hp, hq, ⟨x, hgs, hxname⟩, hnested.leads,
    h.straight p f fs mp hp hasleep hloading ?_⟩
  rw [show (s.core mp).inprogress = some q from hin]
  exact Option.some_ne_none q

omit [DecidableEq Ptr] [DecidableEq Name] [DecidableEq Proc] in
theorem Ok.not_deadlocked [Inhabited Name] (h : Ok files s) (S : Finset Proc) :
    ¬ Deadlocked (Waits s) S := by
  have hasks : ∀ {p : Proc} {f : Frame Ptr Name} {fs}, s.stack p = f :: fs →
      ((s.stack p).head?.map Frame.name).getD default = f.name := by
    intro p f fs hp
    rw [hp]
    rfl
  refine @Svr42.not_deadlocked _ _ (Waits s) (fun p => ((s.stack p).head?.map Frame.name).getD default)
    (fun p a => ∃ f ∈ (s.stack p).tail, f.name = a) (DependsOn files) S
    (fun p q r hpq hqr => ?_) (fun q r hqr a ha => ?_) fun p q r hpq hqr a ha => ?_
  · obtain ⟨f, fs, g, gs, hp, hq, hheld, -, -⟩ := h.waits hpq hqr
    simp only [hasks hp]
    rw [hq]
    exact hheld
  · obtain ⟨f, hf, rfl⟩ := ha
    obtain ⟨g, gs, mp, hq, -, -⟩ := hqr
    have hnested := h.nested q
    rw [hq] at hnested hf
    simp only [hasks hq]
    exact hnested.leads f hf
  · obtain ⟨x, hx, rfl⟩ := ha
    obtain ⟨f, fs, g, gs, hp, -, -, -, hback⟩ := h.waits hpq hqr
    rw [hp] at hx
    simp only [hasks hp]
    exact hback x hx

/-- A process that asks for a module it is itself loading is told of the circular dependency. -/
theorem Ok.circular (h : Ok files s) (hp : s.stack p = f :: fs) (hg : g ∈ fs) (hname : g.name = f.name) :
    Modld.search s p f = ret (freeModp s f.modp) p (.error .einval) := by
  have hgp : g ∈ s.stack p := hp ▸ .tail f hg
  have hnested := h.nested p
  rw [hp] at hnested
  obtain ⟨rest, hrest⟩ := hnested.callers g hg
  have hlisted : g.modp ∈ s.modhead := by
    rw [← h.listed p g hgp, hrest]
    trivial
  obtain ⟨-, hcore, hin⟩ := h.own p g hgp
  unfold Modld.search
  rcases Option.eq_none_or_eq_some (s.modhead.find? fun mp => (s.modctl mp).modName = f.name) with
    hnone | ⟨mp, hsome⟩
  · have hnot := find?_eq_none.mp hnone g.modp hlisted
    rw [decide_eq_true_iff] at hnot
    exact absurd (hcore.trans hname) hnot
  · obtain ⟨hmem, hsame⟩ := find_listed hsome
    have heq : mp = g.modp := by
      refine h.distinct mp hmem g.modp hlisted ?_
      rw [hcore, hname]
      exact hsame
    have hself : (s.modctl mp).modInprogress = some p := heq ▸ hin
    simp only [hsome, if_pos hself]

/-- As long as no process comes, on its way, to a module that another is loading and that needs one
the process is loading, no processes ever wait for each other; one that comes round to a module it
is itself loading gets EINVAL. -/
theorem loads_never_deadlock [Inhabited Name] {events : List (Event Ptr Name Proc)}
    (h : Exec (Guarded (fun s event t => step files s event = some t) (Straight files)) initial
      events t) : (∀ S, ¬ Deadlocked (Waits t) S) ∧
      ∀ p f fs g modp outcome, t.stack p = f :: fs → f.point = .again → g ∈ fs → g.name = f.name →
        step files t (.run p modp outcome) = some (ret (freeModp t f.modp) p (.error .einval)) := by
  have hok : Ok files t := by
    refine h.keeps (Ok files) (fun s event u hs hstep => ?_) initial_ok
    exact hs.step hstep.1 hstep.2
  refine ⟨hok.not_deadlocked, fun p f fs g modp outcome hp hpoint hg hname => ?_⟩
  have hproceed : step files t (.run p modp outcome) = some (search t p f) := by
    change ((t.stack p).head?.bind fun f => proceed files t p f modp outcome) = _
    rw [hp, head?_cons, Option.bind_some]
    unfold proceed
    simp only [hpoint]
  rw [hproceed, hok.circular hp hg hname]

def cyclic : Files Bool := ⟨fun name => [!name], fun _ => false⟩

def joining : List (Event (Fin 4) Bool Bool) :=
  [.call false false 0, .run false 0 .good, .call true false 1, .run true 0 .good]

theorem one_load_never_deadlocks : ∃ t : Mods (Fin 4) Bool Bool, Waits t true false ∧
    ∀ S, ¬ Deadlocked (Waits t) S := by
  let alone : Mods (Fin 4) Bool Bool → Event (Fin 4) Bool Bool → Option (Mods (Fin 4) Bool Bool) :=
    fun s event => if ∀ p, (s.stack p).tail = [] then step cyclic s event else none
  have hrun : (joining.foldlM alone initial).map (fun t => (t.stack true,
      (t.modctl 0).modInprogress)) = some ([⟨1, false, .asleep 0⟩], some false) := by
    decide
  obtain ⟨t, ht, hstate⟩ := Option.map_eq_some_iff.mp hrun
  obtain ⟨hstack, hloader⟩ := Prod.mk.inj hstate
  have hguarded : Exec (Guarded (fun s event t => step cyclic s event = some t) (Straight cyclic))
      initial joining t := by
    refine (Exec.of_foldlM ht).mono fun s event u hu => ?_
    by_cases halone : ∀ p, (s.stack p).tail = []
    · refine ⟨?_, (if_pos halone).symm.trans hu⟩
      cases event with
      | call => trivial
      | run p modp outcome =>
        -- nobody is loading anything for another module
        intro f fs mp q hp _ _ _ _ _ _ g hg
        have hnil := halone p
        rw [hp, tail_cons] at hnil
        rw [hnil] at hg
        cases hg
    · rw [show alone s event = none from if_neg halone] at hu
      cases hu
  exact ⟨t, ⟨_, _, 0, hstack, rfl, hloader⟩, (loads_never_deadlock hguarded).1⟩

def crossing : List (Event (Fin 4) Bool Bool) :=
  [.call false false 0, .run false 0 .good, .run false 0 .good,
    .call true true 1, .run true 0 .good, .run true 0 .good,
    .run false 2 .good, .run false 0 .good, .run true 3 .good, .run true 0 .good]

/-- Both end up asleep, each in wait for the module that the other is loading. -/
theorem cyclic_loads_deadlock : ∃ t : Mods (Fin 4) Bool Bool,
    Exec (fun s event t => step cyclic s event = some t) initial crossing t ∧
      Deadlocked (Waits t) {false, true} ∧
      ∀ p modp outcome, step cyclic t (.run p modp outcome) = none := by
  have hrun : (crossing.foldlM (step cyclic) initial).map (fun t => (t.stack false, t.stack true,
      (t.modctl 0).modInprogress, (t.modctl 1).modInprogress)) =
      some ([⟨2, true, .asleep 1⟩, ⟨0, false, .dodep []⟩], [⟨3, false, .asleep 0⟩, ⟨1, true, .dodep []⟩],
        some false, some true) := by
    decide
  obtain ⟨t, ht, hstate⟩ := Option.map_eq_some_iff.mp hrun
  obtain ⟨hfalse, hstate⟩ := Prod.mk.inj hstate
  obtain ⟨htrue, hstate⟩ := Prod.mk.inj hstate
  obtain ⟨hzero, hone⟩ := Prod.mk.inj hstate
  refine ⟨t, Exec.of_foldlM ht, ⟨⟨false, Finset.mem_insert_self _ _⟩, fun p _ => ?_⟩,
    fun p modp outcome => ?_⟩
  · cases p with
    | false => exact ⟨true, by decide, _, _, 1, hfalse, rfl, hone⟩
    | true => exact ⟨false, by decide, _, _, 0, htrue, rfl, hzero⟩
  · cases p with
    | false =>
      change ((t.stack false).head?.bind fun f => proceed cyclic t false f modp outcome) = none
      rw [hfalse]
      rfl
    | true =>
      change ((t.stack true).head?.bind fun f => proceed cyclic t true f modp outcome) = none
      rw [htrue]
      rfl

end Svr42.Modld
