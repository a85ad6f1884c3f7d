import Loeux.Ext2.Basic
/-!
# The world a driver function runs in

`world F` is the demonic machine: with `F` it may refuse any transfer and any
allocation, except while a `hold` mark is open, and a full volume is not met
there either. `world False` is `serve`.
-/
open Lib Prog

namespace Ext2

/-- The world that refuses operations when `F` holds and no `hold` is open. -/
def world (F : Prop) : Prog.Demon Ans St := fun e Q s =>
  ((e = .mark .full → F → s.crit = 0) → Q (serve e s).1 (serve e s).2) ∧
    ∀ a, refusal e = some a → F → s.crit = 0 → Q a s

theorem world_mono (F : Prop) : Prog.Demon.Mono (world F) := by
  rintro e Q Q' s hQ ⟨hs, hr⟩
  exact ⟨fun hf => hQ _ _ (hs hf), fun a ha hF hc => hQ _ _ (hr a ha hF hc)⟩

theorem wp_weaken {F : Prop} {α : Type} {p : M α} {Q Q' : α → St → Prop} {s : St}
    (h : wp (world F) p Q s) (hQ : ∀ a s', Q a s' → Q' a s') : wp (world F) p Q' s :=
  wp_mono (world_mono F) hQ h

theorem wp_then {F : Prop} {α β : Type} {p : M α} {k : α → M β} {Q : α → St → Prop} {R : β → St → Prop} {s : St}
    (h : wp (world F) p Q s) (hk : ∀ a s', Q a s' → wp (world F) (k a) R s') : wp (world F) (p >>= k) R s :=
  (wp_bind ..).2 (wp_weaken h hk)

@[simp] theorem wp_true {F : Prop} {α : Type} (p : M α) (s : St) : wp (world F) p (fun _ _ => True) s := by
  induction p generalizing s with
  | ret a => trivial
  | op e k ih => exact ⟨fun _ => ih _ _, fun a _ _ _ => ih a s⟩

theorem wp_world_false {α : Type} (p : M α) (Q : α → St → Prop) (s : St) :
    wp (world False) p Q s ↔ Q (p.run serve s).1 (p.run serve s).2 := by
  induction p generalizing s with
  | ret a => rfl
  | op e k ih =>
    show world False e (fun r s' => wp (world False) (k r) Q s') s ↔ _
    simp only [world, false_imp_iff, implies_true, true_imp_iff, and_true]
    exact ih _ _

theorem run_of_wp {α : Type} {p : M α} {Q : α → St → Prop} {s s' : St} {a : α}
    (h : wp (world False) p Q s) (he : p.run serve s = (a, s')) : Q a s' := by
  have := (wp_world_false p Q s).1 h
  rwa [he] at this

/-! ## What each operation asks for -/

section Rules

variable {F : Prop} (s : St)

attribute [local simp] world serve refusal St.mark

@[simp] theorem wp_readBlock (blk : Nat) (Q : Option Bytes → St → Prop) :
    wp (world F) (readBlock blk) Q s ↔ Q (some (s.disk blk)) s ∧ (F → s.crit = 0 → Q none s) := by
  simp [readBlock]

@[simp] theorem wp_writeBlock (blk : Nat) (data : Bytes) (Q : Bool → St → Prop) :
    wp (world F) (writeBlock blk data) Q s ↔ Q true (s.write blk data) ∧ (F → s.crit = 0 → Q false s) := by
  simp [writeBlock]

@[simp] theorem wp_cacheFlush (Q : Bool → St → Prop) :
    wp (world F) cacheFlush Q s ↔ Q true s ∧ (F → s.crit = 0 → Q false s) := by
  simp [cacheFlush]

@[simp] theorem wp_slabAlloc (Q : Bool → St → Prop) :
    wp (world F) slabAlloc Q s ↔ Q true s ∧ (F → s.crit = 0 → Q false s) := by
  simp [slabAlloc]

@[simp] theorem wp_inodeAt (r : Nat) (Q : Inode → St → Prop) : wp (world F) (inodeAt r) Q s ↔ Q (s.inodes r) s := by
  simp [inodeAt]

@[simp] theorem wp_update (r : Nat) (f : Inode → Inode) (Q : Unit → St → Prop) :
    wp (world F) (update r f) Q s ↔ Q () (s.modify r f) := by
  simp [update]

@[simp] theorem wp_newInode (i : Inode) (Q : Nat → St → Prop) :
    wp (world F) (newInode i) Q s ↔ Q s.next (s.create i) := by
  simp [newInode]

@[simp] theorem wp_fileAt (f : Nat) (Q : File → St → Prop) : wp (world F) (fileAt f) Q s ↔ Q (s.files f) s := by
  simp [fileAt]

@[simp] theorem wp_advance (f n : Nat) (Q : Unit → St → Prop) :
    wp (world F) (advance f n) Q s ↔ Q () (s.advance f n) := by
  simp [advance]

@[simp] theorem wp_setFreeBlocks (f : Nat → Nat) (Q : Unit → St → Prop) :
    wp (world F) (setFreeBlocks f) Q s ↔ Q () { s with free_blocks := f s.free_blocks } := by
  simp [setFreeBlocks]

@[simp] theorem wp_setFreeInodes (f : Nat → Nat) (Q : Unit → St → Prop) :
    wp (world F) (setFreeInodes f) Q s ↔ Q () { s with free_inodes := f s.free_inodes } := by
  simp [setFreeInodes]

@[simp] theorem wp_now (Q : Nat → St → Prop) : wp (world F) now Q s ↔ Q (clock s.ticks) s := by
  simp [now]

theorem wp_now_of {Q : Nat → St → Prop} (h : ∀ t, Q t s) : wp (world F) now Q s := (wp_now s Q).2 (h _)

/-- The states differ in ghost data only. -/
structure Ghost (s s' : St) : Prop where
  disk : s'.disk = s.disk
  inodes : s'.inodes = s.inodes
  next : s'.next = s.next
  files : s'.files = s.files
  free_blocks : s'.free_blocks = s.free_blocks
  free_inodes : s'.free_inodes = s.free_inodes
  ticks : s'.ticks = s.ticks

theorem wp_mark_of (m : Mark) {Q : Unit → St → Prop} (h : ∀ s', Ghost s s' → Q () s') : wp (world F) (mark m) Q s := by
  refine ⟨fun _ => h _ ?_, fun a ha => by simp [refusal] at ha⟩
  cases m <;> exact ⟨rfl, rfl, rfl, rfl, rfl, rfl, rfl⟩

section

variable (Q : Unit → St → Prop)

include Q

@[simp] theorem wp_mark_full : wp (world F) (mark .full) Q s ↔ ((F → s.crit = 0) → Q () s) := by
  simp [mark]

@[simp] theorem wp_mark_hold : wp (world F) (mark .hold) Q s ↔ Q () { s with crit := s.crit + 1 } := by
  simp [mark]

@[simp] theorem wp_mark_unhold : wp (world F) (mark .unhold) Q s ↔ Q () { s with crit := s.crit - 1 } := by
  simp [mark]

@[simp] theorem wp_mark_calm : wp (world F) (mark .calm) Q s ↔ Q () { s with crit := 0 } := by
  simp [mark]

@[simp] theorem wp_mark_enter : wp (world F) (mark .enter) Q s ↔ Q () s := by
  simp [mark]

@[simp] theorem wp_mark_leave : wp (world F) (mark .leave) Q s ↔ Q () s := by
  simp [mark]

end

@[simp] theorem wp_mark_alloc (b : Nat) (Q : Unit → St → Prop) : wp (world F) (mark (.alloc b)) Q s ↔ Q () s := by
  simp [mark]

@[simp] theorem wp_mark_free (b : Nat) (Q : Unit → St → Prop) : wp (world F) (mark (.free b)) Q s ↔ Q () s := by
  simp [mark]

end Rules

end Ext2
