import Mathlib.Data.Fintype.Basic
import Loeux.Mm.PageList
/-!
# Harts at the page allocator

Both functions clear the page outside of `memory_lock`: `alloc_page` after it has taken
the page off the chain, `free_page` after it has put it back. What a hart does under the
lock and the clearing are steps of their own.
-/

namespace Pages

open Lib Mm Function List

/-- Where a hart is in the allocator: outside, before the clearing of a page that it has
taken, or before the clearing of a page that it has put back. -/
inductive Phase
  | idle
  | zeroing (i : Nat)
  | wiping (i : Nat)
deriving DecidableEq

structure Harts (H : Type) where
  pool : Pool
  phase : H → Phase
  owner : Nat → Option H

inductive Action (H : Type)
  | take (h : H)
  | zero (h : H)
  | put (h : H) (i : Nat)
  | wipe (h : H)
  | write (h : H) (i o : Nat) (b : UInt8)

namespace Harts

variable {H : Type} [DecidableEq H]

def setPhase (s : Harts H) (h : H) (p : Phase) : Harts H := { s with phase := Function.update s.phase h p }

def setOwner (s : Harts H) (i : Nat) (o : Option H) : Harts H := { s with owner := Function.update s.owner i o }

/-- The next state, if the hart can take the step. A hart frees and writes only pages that
it owns. -/
def next (s : Harts H) : Action H → Option (Harts H)
  | .take h =>
    if s.phase h = .idle then
      match s.pool.takeHead with
      | (none, _) => some s
      | (some i, p) => some ({ s with pool := p }.setPhase h (.zeroing i))
    else none
  | .zero h =>
    match s.phase h with
    | .zeroing i => some (({ s with pool := s.pool.clear i }.setPhase h .idle).setOwner i (some h))
    | _ => none
  | .put h i =>
    if s.phase h = .idle ∧ s.owner i = some h then
      match s.pool.putBack i with
      | .ok (true, p) => some (({ s with pool := p }.setPhase h (.wiping i)).setOwner i none)
      | .ok (false, p) => some { s with pool := p }
      | .error _ => none
    else none
  | .wipe h =>
    match s.phase h with
    | .wiping i => some ({ s with pool := s.pool.clear i }.setPhase h .idle)
    | _ => none
  | .write h i o b =>
    if s.phase h = .idle ∧ s.owner i = some h then
      some { s with pool := { s.pool with
        mem := Function.update s.pool.mem i (Function.update (s.pool.mem i) o b) } }
    else none

def Step (s : Harts H) (a : Action H) (s' : Harts H) : Prop := s.next a = some s'

/-- No hart is still to clear the page at the head of the chain when it is taken. -/
def Calm (s : Harts H) : Action H → Prop
  | .take _ => ∀ i, s.pool.free_head = some i → ∀ h, s.phase h ≠ .wiping i
  | _ => True

instance decidableCalm [Fintype H] (s : Harts H) : (a : Action H) → Decidable (Calm s a)
  | .take _ => decidable_of_iff (∀ i ∈ s.pool.free_head, ∀ h, s.phase h ≠ .wiping i) (Iff.refl _)
  | .zero _ | .put _ _ | .wipe _ | .write _ _ _ _ => isTrue trivial

/-- All harts are outside the allocator, and the pages that they own are in use. -/
structure Start (s : Harts H) : Prop where
  chain : ∃ l, s.pool.Chain l
  idle : ∀ h, s.phase h = .idle
  owned : ∀ i h, s.owner i = some h → s.pool.Allocated i

/-- Pages that are to be cleared by `alloc_page` are in use, by one hart, which does not own
them yet; those to be cleared by `free_page` are free. -/
structure Inv (s : Harts H) : Prop where
  chain : ∃ l, s.pool.Chain l
  owned : ∀ i h, s.owner i = some h → s.pool.Allocated i
  zeroing : ∀ h i, s.phase h = .zeroing i → s.pool.Allocated i ∧ s.owner i = none
  alone : ∀ h h' i, s.phase h = .zeroing i → s.phase h' = .zeroing i → h = h'
  wiping : ∀ h i, s.phase h = .wiping i → s.pool.Free i

variable {s s' : Harts H} {a : Action H}

theorem Start.inv (h : Start s) : Inv s where
  chain := h.chain
  owned := h.owned
  zeroing := fun g i hg => by
    rw [h.idle g] at hg
    cases hg
  alone := fun g g' i hg => by
    rw [h.idle g] at hg
    cases hg
  wiping := fun g i hg => by
    rw [h.idle g] at hg
    cases hg

theorem Inv.take {h : H} {i : Nat} {l : List Nat} {p : Pool} (hs : Inv s) (hc : s.pool.Chain (i :: l))
    (hp : p.Chain l) (hi : p.Allocated i) (hother : ∀ j, j ≠ i → p.page j = s.pool.page j)
    (hr : p.first = s.pool.first ∧ p.last = s.pool.last) (hcalm : ∀ h, s.phase h ≠ .wiping i) :
    Inv ({ s with pool := p }.setPhase h (.zeroing i)) := by
  have hfree := (hc.exact i).1 mem_cons_self
  have hne : ∀ j, s.pool.Allocated j → j ≠ i := fun j hj e => Pool.not_free_of_allocated hj (e ▸ hfree)
  have hkeep : ∀ j, s.pool.Allocated j → p.Allocated j := fun j hj =>
    hj.congr (congrArg Page.flags (hother j (hne j hj))) hr
  have hnone : s.owner i = none := by
    cases ho : s.owner i with
    | none => rfl
    | some g => exact (hne i (hs.owned i g ho) rfl).elim
  refine ⟨⟨l, hp⟩, fun j g hg => hkeep j (hs.owned j g hg), fun g j hg => ?_, fun g g' j hg hg' => ?_, fun g j hg => ?_⟩
  · simp only [setPhase, update_apply] at hg
    split at hg
    · cases hg
      exact ⟨hi, hnone⟩
    · exact ⟨hkeep j (hs.zeroing g j hg).1, (hs.zeroing g j hg).2⟩
  · simp only [setPhase, update_apply] at hg hg'
    split at hg
    · next e =>
      cases hg
      split at hg'
      · next e' => rw [e, e']
      · exact (hne i (hs.zeroing g' i hg').1 rfl).elim
    · split at hg'
      · cases hg'
        exact (hne i (hs.zeroing g i hg).1 rfl).elim
      · exact hs.alone g g' j hg hg'
  · simp only [setPhase, update_apply] at hg
    split at hg
    · cases hg
    · have hji : j ≠ i := fun e => hcalm g (e ▸ hg)
      have hm := (hc.exact j).2 (hs.wiping g j hg)
      exact (hp.exact j).1 ((mem_cons.1 hm).resolve_left hji)

theorem Inv.leave {h : H} {p : Pool} (hs : Inv s) (hc : ∀ l, s.pool.Chain l → p.Chain l)
    (ha : ∀ i, s.pool.Allocated i → p.Allocated i) (hf : ∀ i, s.pool.Free i → p.Free i) :
    Inv ({ s with pool := p }.setPhase h .idle) := by
  have hphase : ∀ g q, (update s.phase h .idle) g = q → q ≠ .idle → s.phase g = q := fun g q hg hq => by
    rw [update_apply] at hg
    split at hg
    · exact (hq hg.symm).elim
    · exact hg
  obtain ⟨l, hl⟩ := hs.chain
  refine ⟨⟨l, hc l hl⟩, fun i g hg => ha i (hs.owned i g hg), fun g i hg => ?_, fun g g' i hg hg' => ?_, fun g i hg => ?_⟩
  · have := hs.zeroing g i (hphase g _ hg (by simp))
    exact ⟨ha i this.1, this.2⟩
  · exact hs.alone g g' i (hphase g _ hg (by simp)) (hphase g' _ hg' (by simp))
  · exact hf i (hs.wiping g i (hphase g _ hg (by simp)))

theorem Inv.put {h : H} {i : Nat} {l : List Nat} {p : Pool} (hs : Inv s) (ho : s.owner i = some h)
    (hp : p.Chain (l ++ [i])) (hc : s.pool.Chain l) (hflags : ∀ j, j ≠ i → (p.page j).flags = (s.pool.page j).flags)
    (hr : p.first = s.pool.first ∧ p.last = s.pool.last) :
    Inv (({ s with pool := p }.setPhase h (.wiping i)).setOwner i none) := by
  have hkeep : ∀ j, j ≠ i → s.pool.Allocated j → p.Allocated j := fun j hj ha => ha.congr (hflags j hj) hr
  have hzero : ∀ g j, s.phase g = .zeroing j → j ≠ i := fun g j hg e => by
    have := (hs.zeroing g j hg).2
    rw [e, ho] at this
    cases this
  refine ⟨⟨_, hp⟩, fun j g hg => ?_, fun g j hg => ?_, fun g g' j hg hg' => ?_, fun g j hg => ?_⟩
  · simp only [setOwner, update_apply] at hg
    split at hg
    · cases hg
    · next e => exact hkeep j e (hs.owned j g hg)
  · simp only [setOwner, setPhase, update_apply] at hg ⊢
    split at hg
    · cases hg
    · rw [if_neg (hzero g j hg)]
      exact ⟨hkeep j (hzero g j hg) (hs.zeroing g j hg).1, (hs.zeroing g j hg).2⟩
  · simp only [setOwner, setPhase, update_apply] at hg hg'
    split at hg
    · cases hg
    · split at hg'
      · cases hg'
      · exact hs.alone g g' j hg hg'
  · simp only [setOwner, setPhase, update_apply] at hg
    refine (hp.exact j).1 ?_
    split at hg
    · cases hg
      simp
    · exact mem_append_left _ ((hc.exact j).2 (hs.wiping g j hg))

theorem Inv.own {h : H} {i : Nat} (hs : Inv s) (ha : s.pool.Allocated i) (hz : ∀ g, s.phase g ≠ .zeroing i) :
    Inv (s.setOwner i (some h)) := by
  refine ⟨hs.chain, fun j g hg => ?_, fun g j hg => ⟨(hs.zeroing g j hg).1, ?_⟩, hs.alone, hs.wiping⟩
  · simp only [setOwner, update_apply] at hg
    split at hg
    · next e => exact e ▸ ha
    · exact hs.owned j g hg
  · have hji : j ≠ i := fun e => hz g (e ▸ hg)
    simp only [setOwner, update_of_ne hji]
    exact (hs.zeroing g j hg).2

theorem Inv.step (hs : Inv s) (hP : s.Calm a) (h : Step s a s') : Inv s' := by
  unfold Step at h
  obtain ⟨l, hl⟩ := hs.chain
  cases a with
  | take g =>
    simp only [next] at h
    split at h
    · cases l with
      | nil =>
        rw [hl.takeHead_nil] at h
        cases h
        exact hs
      | cons i l =>
        obtain ⟨p, ht, hp, -, hi, hother, -, hr⟩ := hl.takeHead_cons
        rw [ht] at h
        cases h
        exact hs.take hl hp hi hother hr (hP i hl.seg.1)
    · cases h
  | zero g =>
    simp only [next] at h
    split at h
    · next i hg =>
      cases h
      have hz := hs.zeroing g i hg
      refine (hs.leave (fun _ hc => hc.clear) (fun _ ha => ha) (fun _ hf => hf)).own hz.1 fun g' hg' => ?_
      -- the page is cleared by one hart only
      simp only [setPhase, update_apply] at hg'
      split at hg'
      · cases hg'
      · next e => exact e (hs.alone g' g i hg' hg)
    · cases h
  | put g i =>
    simp only [next] at h
    split at h
    · next hg =>
      obtain ⟨b, p, hb, hp, -, hkept, hflags, hr⟩ := hl.putBack (hs.owned i g hg.2)
      rw [hb] at h
      cases b with
      | true =>
        cases h
        exact hs.put hg.2 hp hl hflags hr
      | false =>
        cases h
        have ha : ∀ j, s.pool.Allocated j → p.Allocated j := fun j hj => by
          by_cases e : j = i
          · exact e ▸ hkept rfl
          · exact hj.congr (hflags j e) hr
        refine ⟨⟨l, hp⟩, fun j g hg => ha j (hs.owned j g hg), fun g j hg => ?_, hs.alone, fun g j hg => ?_⟩
        · exact ⟨ha j (hs.zeroing g j hg).1, (hs.zeroing g j hg).2⟩
        · exact (hp.exact j).1 ((hl.exact j).2 (hs.wiping g j hg))
    · cases h
  | wipe g =>
    simp only [next] at h
    split at h
    · cases h
      exact hs.leave (fun _ hc => hc.clear) (fun _ ha => ha) (fun _ hf => hf)
    · cases h
  | write g i o b =>
    simp only [next] at h
    split at h
    · cases h
      exact ⟨⟨l, hl.congr (fun _ => ⟨rfl, rfl⟩) ⟨rfl, rfl⟩ ⟨rfl, rfl⟩⟩, hs.owned, hs.zeroing, hs.alone, hs.wiping⟩
    · cases h

theorem Inv.untouched {i : Nat} {g : H} (hs : Inv s) (h : Step s a s') (ha : ∀ h i o b, a ≠ .write h i o b)
    (ho : s.owner i = some g) : s'.pool.mem i = s.pool.mem i := by
  unfold Step at h
  obtain ⟨l, hl⟩ := hs.chain
  cases a with
  | take g' =>
    simp only [next] at h
    split at h
    · cases l with
      | nil =>
        rw [hl.takeHead_nil] at h
        cases h
        rfl
      | cons j l =>
        obtain ⟨p, ht, -, hm, -⟩ := hl.takeHead_cons
        rw [ht] at h
        cases h
        exact congrFun hm i
    · cases h
  | zero g' =>
    simp only [next] at h
    split at h
    · next j hg =>
      cases h
      have hji : i ≠ j := fun e => by
        have := (hs.zeroing g' j hg).2
        rw [← e, ho] at this
        cases this
      exact update_of_ne hji ..
    · cases h
  | put g' j =>
    simp only [next] at h
    split at h
    · next hg =>
      obtain ⟨b, p, hb, -, hm, -⟩ := hl.putBack (hs.owned j g' hg.2)
      rw [hb] at h
      cases b <;> cases h <;> exact congrFun hm i
    · cases h
  | wipe g' =>
    simp only [next] at h
    split at h
    · next j hg =>
      cases h
      have hji : i ≠ j := fun e =>
        Pool.not_free_of_allocated (hs.owned i g ho) (e ▸ hs.wiping g' j hg)
      exact update_of_ne hji ..
    · cases h
  | write g' j o b => exact (ha g' j o b rfl).elim

/-- If a page is only taken off the chain when no hart is still to clear it, no step of
the allocator changes a byte of a page that a hart owns. -/
theorem allocated_pages_kept {s₀ : Harts H} (h₀ : Start s₀) {as : List (Action H)}
    (hr : Run (Guarded Calm Step) s₀ as s) :
    ∀ a s', Step s a s' → (∀ h i o b, a ≠ .write h i o b) →
      ∀ i h, s.owner i = some h → s'.pool.mem i = s.pool.mem i := by
  have hs : Inv s := hr.inv Inv (fun _ _ _ hs hP h => hs.step hP h) h₀.inv
  intro a s' h ha i g ho
  exact hs.untouched h ha ho

/-! ## Two harts and one page -/

namespace Sample

def one : Harts Bool where
  pool :=
    { page := fun _ => ⟨0, PG_FLAG_FREE, 0, none, none⟩
      free_head := some 1
      free_tail := some 1
      first := 1
      last := 1
      mem := fun _ _ => 7 }
  phase := fun _ => .idle
  owner := fun _ => none

theorem one_start : Start one where
  chain := by
    refine ⟨[1], ⟨rfl, rfl⟩, rfl, by decide, fun i => ?_⟩
    rw [mem_singleton]
    constructor
    · rintro rfl
      exact ⟨⟨by decide, by decide⟩, rfl, rfl⟩
    · rintro ⟨⟨h1, h2⟩, -⟩
      exact Nat.le_antisymm h2 h1
  idle := fun _ => rfl
  owned := fun i h hi => by cases hi

/-- A hart frees the page; before it clears it, the other one gets it and writes a byte. -/
def crossed : List (Action Bool) :=
  [.take true, .zero true, .put true 1, .take false, .zero false, .write false 1 0 1]

theorem free_page_clears_owned : Start one ∧ ∃ s s', Run Step one crossed s ∧ Step s (.wipe true) s' ∧
    s.owner 1 = some false ∧ s'.owner 1 = some false ∧ s.pool.mem 1 0 = 1 ∧ s'.pool.mem 1 0 = 0 :=
  ⟨one_start, _, _, run_of_exec (fun _ _ _ h => h) rfl, rfl, rfl, rfl, rfl, rfl⟩

def two : Harts Bool :=
  { one with pool := { one.pool with
      page := fun i => ⟨0, PG_FLAG_FREE, 0, if i = 2 then some 1 else none, if i = 1 then some 2 else none⟩
      free_tail := some 2
      last := 2 } }

theorem two_start : Start two where
  chain := by
    refine ⟨[1, 2], ⟨rfl, rfl, rfl⟩, rfl, by decide, fun i => ?_⟩
    rw [mem_cons, mem_singleton]
    constructor
    · rintro (rfl | rfl) <;> exact ⟨⟨by decide, by decide⟩, rfl, rfl⟩
    · rintro ⟨⟨h1, h2⟩, -⟩
      replace h1 : 1 ≤ i := h1
      replace h2 : i ≤ 2 := h2
      omega
  idle := fun _ => rfl
  owned := fun i h hi => by cases hi

/-- A hart frees its page, and the other one gets another page before it is cleared. -/
def wiped : List (Action Bool) := [.take true, .zero true, .put true 1, .take false, .zero false, .wipe true]

theorem wiped_kept : ∃ s, Run (Guarded Calm Step) two wiped s ∧ s.owner 1 = none ∧ s.owner 2 = some false ∧
    ∀ a s', Step s a s' → (∀ h i o b, a ≠ .write h i o b) → ∀ i h, s.owner i = some h → s'.pool.mem i = s.pool.mem i := by
  have h : (exec (fun s a => if Calm s a then s.next a else none) two wiped).map (fun s => (s.owner 1, s.owner 2)) =
      some (none, some false) := by decide
  obtain ⟨s, hs, ho⟩ := Option.map_eq_some_iff.1 h
  have hr : Run (Guarded Calm Step) two wiped s := guarded_of_exec (fun _ _ _ h => h) hs
  exact ⟨s, hr, congrArg Prod.fst ho, congrArg Prod.snd ho, allocated_pages_kept two_start hr⟩

end Sample

end Harts

end Pages
