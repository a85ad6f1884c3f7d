import Loeux.Lib.Bytes
import Loeux.Lib.Stop
/-!
# Physical pages

The page allocator of `mm/memory.c`. Pages are named by their physical address.
The chain of free pages is a list, from `free_head` to `free_tail`: pages are
taken from its head and returned at its tail.
-/

namespace Mm

open Lib Function List

/-- The ways in which the kernel stops: a panic, an access through a pointer to
nothing or beyond an array, and a loop that does not end. -/
inductive Halt
  | panic (reason : String)
  | stray
  | endless
deriving DecidableEq, Repr

def PG_4K_SIZE : Nat := 4096

/-- What the kernel knows of the machine. `rounds` is the number of rounds after
which a loop counts as endless. -/
structure Gmd where
  free_start_at : Nat
  free_end_at : Nat
  reserved : Nat → Bool
  trampoline : Nat
  rounds : Nat
  bound : free_end_at < 2 ^ 64

/-- The contents and the state of the physical pages. `stale` counts the accesses
to page tables on pages that are not in use. -/
structure Mem where
  page : Nat → Bytes
  free : List Nat
  used : Nat → Bool
  refcount : Nat → Nat
  stale : Nat

abbrev M := Stop Halt Mem

def panic {α : Type} (reason : String) : M α := throw (.panic reason)

namespace Mem

def take (m : Mem) (f : Nat) (rest : List Nat) : Mem :=
  { m with
    page := Function.update m.page f Bytes.zero
    free := rest
    used := Function.update m.used f true
    refcount := Function.update m.refcount f (m.refcount f + 1) }

def give (m : Mem) (f : Nat) : Mem :=
  { m with
    page := Function.update m.page f Bytes.zero
    free := m.free ++ [f]
    used := Function.update m.used f false
    refcount := Function.update m.refcount f 0 }

def drop (m : Mem) (f : Nat) : Mem := { m with refcount := Function.update m.refcount f (m.refcount f - 1) }

def setPage (m : Mem) (f : Nat) (b : Bytes) : Mem := { m with page := Function.update m.page f b }

section

variable (m : Mem) (f g : Nat) (rest : List Nat) (b : Bytes)

@[simp] theorem take_page : (m.take f rest).page g = if g = f then Bytes.zero else m.page g :=
  update_apply ..

@[simp] theorem take_used : (m.take f rest).used g = if g = f then true else m.used g := update_apply ..

@[simp] theorem take_refcount :
    (m.take f rest).refcount g = if g = f then m.refcount f + 1 else m.refcount g := update_apply ..

@[simp] theorem give_page : (m.give f).page g = if g = f then Bytes.zero else m.page g := update_apply ..

@[simp] theorem give_free : (m.give f).free = m.free ++ [f] := rfl

@[simp] theorem give_used : (m.give f).used g = if g = f then false else m.used g := update_apply ..

@[simp] theorem give_refcount : (m.give f).refcount g = if g = f then 0 else m.refcount g := update_apply ..

@[simp] theorem setPage_page : (m.setPage f b).page g = if g = f then b else m.page g := update_apply ..

end

end Mem

def allocPage : M Nat := fun m =>
  match m.free with
  | [] => .ok (0, m)
  | f :: rest => .ok (f, m.take f rest)

def freePage (G : Gmd) (pa : Nat) : M Unit :=
  if pa = 0 then panic "free_page: NULL pointer!\n"
  else if pa % PG_4K_SIZE ≠ 0 ∨ pa < G.free_start_at ∨ G.free_end_at < pa then panic "free_page: bad address %p!\n"
  else if G.reserved pa then panic "free_page: freeing reserved page %p!\n"
  else do
    let m ← get
    if m.used pa = false then panic "free_page: double free %p!\n"
    else if m.refcount pa - 1 > 0 then modify fun m => m.drop pa
    else modify fun m => m.give pa

/-- A page that the allocator manages. -/
structure Gmd.Page (G : Gmd) (f : Nat) : Prop where
  pos : f ≠ 0
  aligned : f % PG_4K_SIZE = 0
  lower : G.free_start_at ≤ f
  upper : f ≤ G.free_end_at
  usable : G.reserved f = false

/-- The chain holds free pages, each once, and the pages that are not in it have
one reference if they are in use. -/
structure Mem.Sound (G : Gmd) (m : Mem) : Prop where
  nodup : m.free.Nodup
  page : ∀ f ∈ m.free, G.Page f
  unused : ∀ f ∈ m.free, m.used f = false
  zero : ∀ f ∈ m.free, m.refcount f = 0
  one : ∀ f, m.used f = true → m.refcount f = 1
  used : ∀ f, m.used f = true → G.Page f

section

variable {G : Gmd} {m : Mem} {E : Halt → Prop} {f : Nat}

theorem Gmd.Page.lt (h : G.Page f) : f < 2 ^ 64 := lt_of_le_of_lt h.upper G.bound

theorem Mem.Sound.not_mem (h : m.Sound G) (hf : m.used f = true) : f ∉ m.free := fun hmem => by
  rw [h.unused f hmem] at hf
  cases hf

/-- The page is there and cannot be handed out: it is in use, or not the allocator's at all. -/
def Mem.Held (m : Mem) (f : Nat) : Prop := f ≠ 0 ∧ f ∉ m.free

theorem Mem.Sound.held (h : m.Sound G) (hf : m.used f = true) : m.Held f := ⟨(h.used f hf).pos, h.not_mem hf⟩

theorem Mem.Held.not_taken {m' : Mem} {l : List Nat} (h : m.Held f) (hl : m.free.Perm (l ++ m'.free)) : f ∉ l ∧ m'.Held f :=
  ⟨fun hm => h.2 (hl.mem_iff.2 (mem_append_left _ hm)), h.1, fun hm => h.2 (hl.mem_iff.2 (mem_append_right _ hm))⟩

theorem Mem.Sound.take {rest : List Nat} (h : m.Sound G) (hf : m.free = f :: rest) : (m.take f rest).Sound G := by
  have hn := h.nodup
  rw [hf, nodup_cons] at hn
  have hmem : ∀ g ∈ rest, g ∈ m.free ∧ g ≠ f := fun g hg => by
    refine ⟨?_, fun e => hn.1 (e ▸ hg)⟩
    rw [hf]
    exact mem_cons_of_mem _ hg
  have hfm : f ∈ m.free := by
    rw [hf]
    exact mem_cons_self
  refine ⟨hn.2, fun g hg => h.page g (hmem g hg).1, fun g hg => ?_, fun g hg => ?_, fun g hg => ?_, fun g hg => ?_⟩
  · simp [(hmem g hg).2, h.unused g (hmem g hg).1]
  · simp [(hmem g hg).2, h.zero g (hmem g hg).1]
  · by_cases e : g = f
    · simp [e, h.zero f hfm]
    · simp only [take_used, e, if_false] at hg
      simp [e, h.one g hg]
  · by_cases e : g = f
    · exact e ▸ h.page f hfm
    · simp only [take_used, e, if_false] at hg
      exact h.used g hg

theorem Mem.Sound.give (h : m.Sound G) (hf : m.used f = true) : (m.give f).Sound G := by
  have hne : ∀ g ∈ m.free, g ≠ f := fun g hg e => h.not_mem hf (e ▸ hg)
  have hcase : ∀ g ∈ (m.give f).free, g ∈ m.free ∧ g ≠ f ∨ g = f := fun g hg => by
    rcases mem_append.1 hg with hg | hg
    · exact .inl ⟨hg, hne g hg⟩
    · exact .inr (mem_singleton.1 hg)
  have hused : ∀ g, (m.give f).used g = true → g ≠ f ∧ m.used g = true := fun g hg => by
    by_cases e : g = f
    · simp [e] at hg
    · simpa [e] using hg
  refine ⟨?_, fun g hg => ?_, fun g hg => ?_, fun g hg => ?_, fun g hg => ?_, fun g hg => ?_⟩
  · rw [give_free, nodup_append]
    refine ⟨h.nodup, by simp, fun g hg g' hg' => ?_⟩
    rw [mem_singleton.1 hg']
    exact hne g hg
  · rcases hcase g hg with ⟨hg, -⟩ | rfl
    · exact h.page g hg
    · exact h.used g hf
  · rcases hcase g hg with ⟨hg, e⟩ | rfl
    · simp [e, h.unused g hg]
    · simp
  · rcases hcase g hg with ⟨hg, e⟩ | rfl
    · simp [e, h.zero g hg]
    · simp
  · simp [(hused g hg).1, h.one g (hused g hg).2]
  · exact h.used g (hused g hg).2

theorem Mem.Sound.setPage (h : m.Sound G) (b : Bytes) : (m.setPage f b).Sound G :=
  ⟨h.nodup, h.page, h.unused, h.zero, h.one, h.used⟩

theorem wp_allocPage {Q : Nat → Mem → Prop} (hnone : m.free = [] → Q 0 m)
    (hsome : ∀ f rest, m.free = f :: rest → Q f (m.take f rest)) : Stop.wp E allocPage Q m := by
  unfold Stop.wp allocPage
  cases h : m.free with
  | nil => exact hnone h
  | cons f rest => exact hsome f rest h

theorem wp_freePage {Q : Unit → Mem → Prop} (hm : m.Sound G) (hf : m.used f = true) (hQ : Q ⟨⟩ (m.give f)) :
    Stop.wp E (freePage G f) Q m := by
  have hp := hm.used f hf
  unfold freePage
  rw [if_neg hp.pos, if_neg (by have := hp.aligned; have := hp.lower; have := hp.upper; omega),
    if_neg (by rw [hp.usable]; exact Bool.false_ne_true), Stop.wp_bind, Stop.wp_get,
    if_neg (by rw [hf]; decide), if_neg (by rw [hm.one f hf]; decide)]
  exact hQ

end

end Mm
