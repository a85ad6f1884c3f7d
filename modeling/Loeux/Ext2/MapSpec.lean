import Loeux.Ext2.Own
import Loeux.Ext2.Count
/-!
# What the block map does to the volume

`Grown` is what linking fresh blocks into inode `n` does: pointers that were
set stay, other inodes and all file contents are as before. `getBlock` without
`allocate` reads a pointer, with it it also fills the holes on the way.
-/
open Lib Function Prog Nat

namespace Ext2

open Layout

/-- Blocks of inode `n` were linked or written; nothing else happened to the files. -/
structure Touched (L : Layout) (live : Nat → Prop) (n : Nat) (ib : Nat → Nat → Nat) (v : Vol)
    (ib' : Nat → Nat → Nat) (v' : Vol) : Prop where
  owns : Owns L live ib' v'
  others : ∀ m, m ≠ n → ib' m = ib m
  keeps : ∀ x, L.IsSlot live x → ptr ib v.data x ≠ 0 → ptr ib' v'.data x = ptr ib v.data x
  apart : ∀ x, L.IsSlot live x → x.1.1 ≠ n → ptr ib' v'.data x = ptr ib v.data x
  block_apart : ∀ x, L.IsSlot live x → Leaf x → x.1.1 ≠ n → block ib' v'.data x = block ib v.data x
  used : ∀ b, v.used b = true → v'.used b = true
  free : ∀ b, v'.used b = false → v'.data b = v.data b
  ibit : v'.ibit = v.ibit
  inode : v'.inode = v.inode
  counted : L.Counted v → L.Counted v'

/-- Blocks were linked into slots `X` of inode `n`; no contents changed. -/
structure Grown (L : Layout) (live : Nat → Prop) (n : Nat) (X : Slot → Prop) (ib : Nat → Nat → Nat) (v : Vol)
    (ib' : Nat → Nat → Nat) (v' : Vol) : Prop extends Touched L live n ib v ib' v' where
  leaf : ∀ x, L.IsSlot live x → Leaf x → block ib' v'.data x = block ib v.data x
  fills : ∀ x, L.IsSlot live x → ¬X x → ptr ib' v'.data x = ptr ib v.data x

section Grown

variable {L : Layout} {live : Nat → Prop} {n : Nat} {ib ib' ib'' : Nat → Nat → Nat} {v v' v'' : Vol} {b : Nat}
  {X Y : Slot → Prop}

variable (h : Owns L live ib v)

include h

theorem Touched.refl : Touched L live n ib v ib v :=
  ⟨h, fun _ _ => rfl, fun _ _ _ => rfl, fun _ _ _ => rfl, fun _ _ _ _ => rfl, fun _ hb => hb, fun _ _ => rfl,
    rfl, rfl, id⟩

theorem Grown.refl : Grown L live n X ib v ib v :=
  ⟨.refl h, fun _ _ _ => rfl, fun _ _ _ => rfl⟩

omit h in
theorem Grown.mono (h : Grown L live n X ib v ib' v') (hX : ∀ x, L.IsSlot live x → X x → Y x) :
    Grown L live n Y ib v ib' v' :=
  ⟨h.toTouched, h.leaf, fun x hx hy => h.fills x hx fun hxx => hy (hX x hx hxx)⟩

omit h in
theorem Touched.trans (h : Touched L live n ib v ib' v') (h' : Touched L live n ib' v' ib'' v'') :
    Touched L live n ib v ib'' v'' where
  owns := h'.owns
  others m hm := (h'.others m hm).trans (h.others m hm)
  keeps x hx h0 := by
    have e := h.keeps x hx h0
    rw [h'.keeps x hx (by rw [e]; exact h0), e]
  apart x hx hn := (h'.apart x hx hn).trans (h.apart x hx hn)
  block_apart x hx hl hn := (h'.block_apart x hx hl hn).trans (h.block_apart x hx hl hn)
  used b hb := h'.used b (h.used b hb)
  free b hb := by
    have hb' : v'.used b = false := by
      cases e : v'.used b with
      | false => rfl
      | true => rw [h'.used b e] at hb; exact hb
    rw [h'.free b hb, h.free b hb']
  ibit := h'.ibit.trans h.ibit
  inode := h'.inode.trans h.inode
  counted hc := h'.counted (h.counted hc)

omit h in
theorem Grown.trans (h : Grown L live n X ib v ib' v') (h' : Grown L live n X ib' v' ib'' v'') :
    Grown L live n X ib v ib'' v'' :=
  ⟨h.toTouched.trans h'.toTouched, fun x hx hl => (h'.leaf x hx hl).trans (h.leaf x hx hl),
    fun x hx hX => (h'.fills x hx hX).trans (h.fills x hx hX)⟩

theorem Owns.grown {x₀ : Slot} {d : Nat → Bytes} (hx₀ : L.IsSlot live x₀)
    (hn : x₀.1.1 = n) (h0 : ptr ib v.data x₀ = 0) (hb : L.IsData b) (hf : v.used b = false)
    (hib : ∀ m, m ≠ n → ib' m = ib m)
    (hp : ∀ x, L.IsSlot live x → ptr ib' d x = if x = x₀ then b else ptr ib v.data x)
    (hdb : d b = Bytes.zero)
    (hd : ∀ c, c ≠ b → (v.used c = false ∨ ∃ y, L.IsSlot live y ∧ Leaf y ∧ ptr ib v.data y = c) → d c = v.data c) :
    Grown L live n (· = x₀) ib v ib' { L.allocBlock v b with data := d } := by
  have hleaf : ∀ x, L.IsSlot live x → Leaf x → block ib' d x = block ib v.data x := by
    intro x hx hl
    unfold block
    rw [hp x hx]
    by_cases hxx : x = x₀
    · subst hxx
      simp [h0, hb.ne_zero, hdb]
    · rw [if_neg hxx]
      by_cases hz : ptr ib v.data x = 0
      · rw [if_pos hz, if_pos hz]
      · rw [if_neg hz, if_neg hz, hd _ (h.fresh hb hf x hx) (.inr ⟨x, hx, hl, rfl⟩)]
  refine ⟨⟨h.link hx₀ h0 hb hf rfl hp, hib, ?_, ?_, fun x hx hl _ => hleaf x hx hl, ?_, ?_, rfl, rfl,
    fun hc => (hc.allocBlock hb.1 hf).congr rfl rfl rfl rfl rfl rfl⟩, hleaf,
    fun x hx hne => by show ptr ib' d x = _; rw [hp x hx, if_neg hne]⟩
  · intro x hx hne
    show ptr ib' d x = _
    rw [hp x hx, if_neg]
    rintro rfl
    exact hne h0
  · intro x hx hne
    show ptr ib' d x = _
    rw [hp x hx, if_neg]
    rintro rfl
    exact hne hn
  · intro c hc
    show Function.update v.used b true c = true
    by_cases e : c = b
    · subst e; exact update_self ..
    · rw [update_of_ne e]; exact hc
  · intro c hc
    have hc' : Function.update v.used b true c = false := hc
    by_cases e : c = b
    · subst e; rw [update_self] at hc'; exact absurd hc' (by simp)
    · rw [update_of_ne e] at hc'
      exact hd c e (.inl hc')

theorem Owns.grown_root {k : Nat} (hn : live n) (hk : k ≤ EXT2_DIND_BLOCK)
    (h0 : ib n k = 0) (hb : L.IsData b) (hf : v.used b = false) :
    Grown L live n (· = ((n, k), [])) ib v (Function.update ib n (Function.update (ib n) k b)) (L.zeroed v b) := by
  have hx0 : L.IsSlot live ((n, k), []) := ⟨hn, hk, Nat.zero_le _, by simp⟩
  refine h.grown hx0 rfl h0 hb hf (fun m hm => update_of_ne hm _ _)
    (fun x hx => ptr_zeroed_root h h0 hb hf hx) (update_self ..) ?_
  intro c hc _
  exact update_of_ne hc _ _

theorem Owns.grown_entry {k i : Nat} {p : List Nat}
    (hx₀ : L.IsSlot live ((n, k), i :: p)) (hP : ptr ib v.data ((n, k), p) ≠ 0)
    (h0 : ptr ib v.data ((n, k), i :: p) = 0) (hb : L.IsData b) (hf : v.used b = false) :
    Grown L live n (· = ((n, k), i :: p)) ib v ib ((L.zeroed v b).linked (ptr ib v.data ((n, k), p)) i b) := by
  have hne : ptr ib v.data ((n, k), p) ≠ b := h.fresh hb hf _ hx₀.tail
  refine h.grown hx₀ rfl h0 hb hf (fun _ _ => rfl) (fun x hx => ptr_zeroed_entry h hx₀ hP h0 hb hf hx) ?_ ?_
  · show Function.update (Function.update v.data b Bytes.zero) _ _ b = Bytes.zero
    rw [update_of_ne hne.symm, update_self]
  · intro c hc hcase
    have hcP : c ≠ ptr ib v.data ((n, k), p) := by
      rintro rfl
      rcases hcase with hu | ⟨y, hy, hl, e⟩
      · have := (h.used _ (h.data _ hx₀.tail hP)).2 ⟨_, hx₀.tail, rfl⟩
        rw [hu] at this
        exact Bool.false_ne_true this
      · have := h.inj y _ hy hx₀.tail (by rw [e]; exact hP) e
        rw [this] at hl
        exact not_leaf_tail hx₀ hl
    show Function.update (Function.update v.data b Bytes.zero) _ _ c = v.data c
    rw [update_of_ne hcP, update_of_ne hc]

theorem Owns.ptr_write {x : Slot} (hx : L.IsSlot live x) (hl : Leaf x)
    (h0 : ptr ib v.data x ≠ 0) (d : Bytes) {y : Slot} (hy : L.IsSlot live y) :
    ptr ib (Function.update v.data (ptr ib v.data x) d) y = ptr ib v.data y := by
  refine @ptr_congr _ live _ _ _ _ (fun _ _ _ _ => rfl) (fun z hz hzl _ => ?_) _ hy
  refine update_of_ne (fun e => ?_) _ _
  have := h.inj x z hx hz h0 e.symm
  subst this
  exact hzl hl

theorem Owns.write {x : Slot} (hx : L.IsSlot live x) (hl : Leaf x) (hn : x.1.1 = n)
    (h0 : ptr ib v.data x ≠ 0) (d : Bytes) :
    Touched L live n ib v ib { v with data := Function.update v.data (ptr ib v.data x) d } := by
  have hp : ∀ y, L.IsSlot live y → ptr ib (Function.update v.data (ptr ib v.data x) d) y = ptr ib v.data y :=
    fun y hy => h.ptr_write hx hl h0 d hy
  refine ⟨⟨h.metadata, ?_, ?_, ?_⟩, fun _ _ => rfl, fun y hy _ => hp y hy, fun y hy _ => hp y hy, ?_,
    fun _ hb => hb, ?_, rfl, rfl, fun hc => hc.congr rfl rfl rfl rfl rfl rfl⟩
  · intro y hy
    simp only [hp y hy]
    exact h.data y hy
  · intro y z hy hz
    simp only [hp y hy, hp z hz]
    exact h.inj y z hy hz
  · intro b hb
    rw [h.used b hb]
    constructor <;> rintro ⟨y, hy, e⟩ <;> refine ⟨y, hy, ?_⟩
    · rw [hp y hy, e]
    · rw [← hp y hy, e]
  · intro y hy _ hyn
    have hne : ptr ib v.data y ≠ ptr ib v.data x := by
      intro e
      by_cases hy0 : ptr ib v.data y = 0
      · exact h0 (e ▸ hy0)
      · exact hyn (by rw [h.inj y x hy hx hy0 e, hn])
    unfold block
    simp only [hp y hy]
    rw [update_of_ne hne]
  · intro b hb
    refine update_of_ne ?_ _ _
    rintro rfl
    exact h.fresh (h.data x hx h0) hb x hx rfl

end Grown

/-! ## Zeroed blocks -/

structure SameFiles (v v' : Vol) : Prop where
  used : v'.used = v.used
  ibit : v'.ibit = v.ibit
  inode : v'.inode = v.inode
  data : v'.data = v.data

theorem SameFiles.refl (v : Vol) : SameFiles v v := ⟨rfl, rfl, rfl, rfl⟩

/-- At most counters have changed. -/
def Layout.Clean (L : Layout) (s s' : St) : Prop := ∃ v, L.Upd s v s' ∧ SameFiles (L.vol s) v

section Zero

variable {L : Layout} {F : Prop} {s : St}

theorem Layout.Clean.refl (hv : L.Valid s) : L.Clean s s := ⟨_, .refl hv, .refl _⟩

theorem allocZeroBlock_spec (hv : L.Valid s) (hm : ∀ b, L.IsBlock b → L.role b ≠ .data → (L.vol s).used b = true) :
    wp (world F) (allocZeroBlock L.fs) (fun r s' =>
        (r = none ∧ (F → s.crit = 0 ∧ L.Clean s s')) ∨
        ∃ b, r = some b ∧ L.IsData b ∧ (L.vol s).used b = false ∧ 0 < s'.crit ∧
          L.Upd s (L.zeroed (L.vol s) b) s') s := by
  simp only [allocZeroBlock, wp_bind, wp_slabAlloc]
  refine ⟨?_, fun hF hc => by simpa using fun _ => ⟨hc, Layout.Clean.refl hv⟩⟩
  simp only [if_not_true, wp_bind]
  refine wp_weaken (allocBlock_spec hv) ?_
  rintro r s1 (⟨rfl, hc, rfl⟩ | ⟨b, rfl, hblk, hfree, hupd⟩)
  · simpa using fun hF => ⟨hc hF, Layout.Clean.refl hv⟩
  have hb : L.IsData b := by
    refine ⟨hblk, ?_⟩
    by_contra hr
    rw [hm b hblk hr] at hfree
    exact absurd hfree (by simp)
  simp only [wp_bind, wp_writeBlock]
  refine ⟨?_, fun hF hc1 => ?_⟩
  · simp only [if_not_true, wp_bind, wp_mark_hold, wp_pure]
    exact .inr ⟨b, rfl, hb, hfree, succ_pos _, (hupd.write_data hb.2 Bytes.zero).crit_succ⟩
  -- the block could not be zeroed and goes back
  simp only [Bool.not_false, if_true, wp_bind]
  have hc : s.crit = 0 := by have := hupd.crit; omega
  refine wp_weaken (freeBlock_spec hupd.valid hblk) ?_
  rintro r s2 h
  have hback : ∃ v, L.Upd s v s2 ∧ SameFiles (L.vol s) v := by
    have hu : Function.update (Function.update (L.vol s).used b true) b false = (L.vol s).used := by
      rw [update_idem, ← hfree, update_eq_self]
    rcases h with ⟨-, h2⟩ | ⟨-, -, -, h2⟩ <;> rw [hupd.vol] at h2
    · exact ⟨_, hupd.trans h2, hu, rfl, rfl, rfl⟩
    · exact ⟨_, hupd.trans h2, hu, rfl, rfl, rfl⟩
  rw [wp_pure]
  exact .inl ⟨rfl, fun _ => ⟨hc, hback⟩⟩

end Zero

/-! ## Filling one slot -/

/-- `s'` is `s` with blocks linked into slots `X` of inode `n`, whose object is `r`. As long
as no failure may strike any more unless nothing has happened. -/
structure Layout.Extends (L : Layout) (live : Nat → Prop) (n r : Nat) (X : Slot → Prop) (ib : Nat → Nat → Nat)
    (s : St) (ib' : Nat → Nat → Nat) (s' : St) : Prop where
  valid : L.Valid s'
  grown : Grown L live n X ib (L.vol s) ib' (L.vol s')
  inodes : s'.inodes = Function.update s.inodes r ((s.inodes r).setBlocks (ib' n))
  next : s'.next = s.next
  files : s'.files = s.files
  ticks : s'.ticks = s.ticks
  crit : s.crit ≤ s'.crit
  calm : s'.crit = 0 → s' = s

section Fill

variable {L : Layout} {F : Prop} {live : Nat → Prop} {n r : Nat} {ib ib' ib'' : Nat → Nat → Nat}
  {s s' s'' : St} {X Y : Slot → Prop}

theorem Layout.Extends.mono (h : L.Extends live n r X ib s ib' s') (hX : ∀ x, L.IsSlot live x → X x → Y x) :
    L.Extends live n r Y ib s ib' s' := { h with grown := h.grown.mono hX }

theorem Layout.Extends.refl (hv : L.Valid s) (h : Owns L live ib (L.vol s))
    (hr : (s.inodes r).priv.i_block = ib n) : L.Extends live n r X ib s ib s := by
  refine ⟨hv, .refl h, ?_, rfl, rfl, rfl, le_rfl, fun _ => rfl⟩
  rw [← hr]
  exact (update_eq_self r s.inodes).symm

theorem Layout.Extends.trans (h : L.Extends live n r X ib s ib' s') (h' : L.Extends live n r X ib' s' ib'' s'') :
    L.Extends live n r X ib s ib'' s'' where
  valid := h'.valid
  grown := h.grown.trans h'.grown
  inodes := by
    rw [h'.inodes, h.inodes, update_idem, update_self]
    rfl
  next := h'.next.trans h.next
  files := h'.files.trans h.files
  ticks := h'.ticks.trans h.ticks
  crit := h.crit.trans h'.crit
  calm hc := by
    have hc' : s'.crit = 0 := by have := h'.crit; omega
    rw [h'.calm hc, h.calm hc']

theorem Layout.Extends.i_block (h : L.Extends live n r X ib s ib' s') : (s'.inodes r).priv.i_block = ib' n := by
  rw [h.inodes, update_self]
  rfl

theorem vol_data {b : Nat} (hb : L.IsData b) : (L.vol s).data b = s.disk b := by
  simp [Layout.vol, hb.2]

theorem wp_indGet {P : Nat} (hP : L.IsData P) (i : Nat) (Q : Option Nat → St → Prop) : wp (world F) (indGet P i) Q s ↔
      Q (some (entry (L.vol s).data P i)) s ∧ (F → s.crit = 0 → Q none s) := by
  simp [indGet, entry, vol_data hP]

theorem wp_indSet (P i b : Nat) (Q : Bool → St → Prop) : wp (world F) (indSet P i b) Q s ↔
      Q true (s.write P ((s.disk P).put 4 (i * 4) b)) ∧ (F → s.crit = 0 → Q false s) := by
  simp [indSet]

theorem rootAlloc_spec (hv : L.Valid s) (h : Owns L live ib (L.vol s)) (hn : live n) {k : Nat}
    (hk : k ≤ EXT2_DIND_BLOCK) (hr : (s.inodes r).priv.i_block = ib n) :
    wp (world F) (rootAlloc L.fs r k) (fun a s' =>
        (a = none ∧ (F → s.crit = 0 ∧ L.Clean s s')) ∨
        ∃ b ib', a = some b ∧ b ≠ 0 ∧ L.Extends live n r (· = ((n, k), [])) ib s ib' s' ∧
          ptr ib' (L.vol s').data ((n, k), []) = b) s := by
  have hcur : (s.inodes r).priv.i_block k = ib n k := by rw [hr]
  simp only [rootAlloc, iBlock, wp_bind, wp_inodeAt, wp_pure, hcur]
  by_cases h0 : ib n k = 0
  · simp only [h0, ne_eq, not_true_eq_false, if_false, wp_bind]
    refine wp_weaken (allocZeroBlock_spec hv h.metadata) ?_
    rintro a s1 (⟨rfl, hc⟩ | ⟨b, rfl, hb, hfree, hcrit, hupd⟩)
    · simpa using hc
    have hgrown := h.grown_root hn hk h0 hb hfree
    simp only [wp_bind, setIBlock, wp_update, wp_pure]
    refine .inr ⟨b, Function.update ib n (Function.update (ib n) k b), rfl, hb.ne_zero,
      ⟨hupd.valid.congr rfl, ?_, ?_, hupd.same.next, hupd.same.files,
        hupd.same.ticks, hupd.crit, fun hc => absurd hc (Nat.pos_iff_ne_zero.1 hcrit)⟩, ?_⟩
    · show Grown L live n _ ib (L.vol s) _ (L.vol s1)
      rw [hupd.vol]
      exact hgrown
    · show Function.update s1.inodes r _ = _
      rw [hupd.same.inodes, update_self, ← hr]
    · show ptr _ (L.vol s1).data _ = b
      rw [hupd.vol, ptr_zeroed_root h h0 hb hfree ⟨hn, hk, Nat.zero_le _, by simp⟩, if_pos rfl]
  · simp only [ne_eq, h0, not_false_eq_true, if_true, wp_pure]
    exact .inr ⟨_, ib, rfl, h0, .refl hv h hr, rfl⟩

theorem indAlloc_spec (hv : L.Valid s) (h : Owns L live ib (L.vol s)) {k i P : Nat} {p : List Nat}
    (hx : L.IsSlot live ((n, k), i :: p)) (hr : (s.inodes r).priv.i_block = ib n)
    (hP : ptr ib (L.vol s).data ((n, k), p) = P) (hP0 : P ≠ 0) :
    wp (world F) (indAlloc L.fs P i) (fun a s' =>
        (a = none ∧ (F → s.crit = 0 ∧ L.Clean s s')) ∨
        ∃ b, a = some b ∧ b ≠ 0 ∧ L.Extends live n r (· = ((n, k), i :: p)) ib s ib s' ∧
          ptr ib (L.vol s').data ((n, k), i :: p) = b) s := by
  have hPd : L.IsData P := by
    rw [← hP]
    exact h.data _ hx.tail (by rw [hP]; exact hP0)
  have hcur : entry (L.vol s).data P i = ptr ib (L.vol s).data ((n, k), i :: p) := by
    rw [ptr_cons, hP, if_neg hP0]
  simp only [indAlloc, wp_bind, wp_indGet hPd]
  refine ⟨?_, fun hF hc => by simpa using fun _ => ⟨hc, Layout.Clean.refl hv⟩⟩
  rw [hcur]
  by_cases h0 : ptr ib (L.vol s).data ((n, k), i :: p) = 0
  · simp only [h0, ne_eq, not_true_eq_false, if_false, wp_bind]
    refine wp_weaken (allocZeroBlock_spec hv h.metadata) ?_
    rintro a s1 (⟨rfl, hc⟩ | ⟨b, rfl, hb, hfree, hcrit, hupd⟩)
    · simpa using hc
    have hgrown := h.grown_entry hx (by rw [hP]; exact hP0) h0 hb hfree
    have hptr := ptr_zeroed_entry h hx (by rw [hP]; exact hP0) h0 hb hfree hx
    rw [if_pos rfl] at hptr
    rw [hP] at hgrown hptr
    simp only [wp_bind, wp_indSet]
    -- the new block is held, so linking it cannot fail
    refine ⟨?_, fun _ hc => absurd hc (Nat.pos_iff_ne_zero.1 hcrit)⟩
    have hw := hupd.write_data hPd.2 ((s1.disk P).put 4 (i * 4) b)
    have hlinked : L.vol (s1.write P ((s1.disk P).put 4 (i * 4) b)) = (L.zeroed (L.vol s) b).linked P i b := by
      rw [hw.vol, Vol.linked, ← hupd.vol, vol_data hPd]
    simp only [if_not_true, wp_pure]
    refine .inr ⟨b, rfl, hb.ne_zero, ⟨hw.valid, ?_, ?_, hw.same.next, hw.same.files, hw.same.ticks, hw.crit,
      fun hc => absurd hc (Nat.pos_iff_ne_zero.1 hcrit)⟩, ?_⟩
    · rw [hlinked]
      exact hgrown
    · rw [hw.same.inodes, ← hr]
      exact (update_eq_self r s.inodes).symm
    · rw [hlinked]
      exact hptr
  · simp only [ne_eq, h0, not_false_eq_true, if_true, wp_pure]
    exact .inr ⟨_, rfl, h0, .refl hv h hr, rfl⟩

end Fill

/-! ## Logical blocks -/

namespace Layout

def maxBlocks (L : Layout) : Nat := 12 + L.fs.ptrs_per_block + L.fs.ptrs_per_block * L.fs.ptrs_per_block

def slotOf (L : Layout) (n lblk : Nat) : Slot :=
  if lblk < 12 then ((n, lblk), [])
  else if lblk < 12 + L.fs.ptrs_per_block then ((n, EXT2_IND_BLOCK), [lblk - 12])
  else ((n, EXT2_DIND_BLOCK),
    [(lblk - (12 + L.fs.ptrs_per_block)) % L.fs.ptrs_per_block,
      (lblk - (12 + L.fs.ptrs_per_block)) / L.fs.ptrs_per_block])

variable {L : Layout} {live : Nat → Prop} {n lblk : Nat}

theorem slotOf_ino (n lblk : Nat) : (L.slotOf n lblk).1.1 = n := by
  unfold slotOf
  split_ifs <;> rfl

theorem isSlot_slotOf (hn : live n) (hl : lblk < L.maxBlocks) : L.IsSlot live (L.slotOf n lblk) := by
  have hp := L.ptrs_pos
  unfold slotOf
  unfold maxBlocks at hl
  split_ifs with h1 h2
  · exact ⟨hn, by simp [EXT2_DIND_BLOCK]; omega, Nat.zero_le _, by simp⟩
  · exact ⟨hn, by simp [EXT2_DIND_BLOCK, EXT2_IND_BLOCK], by simp [depth, EXT2_IND_BLOCK], by simp; omega⟩
  · refine ⟨hn, le_rfl, by simp [depth, EXT2_DIND_BLOCK], ?_⟩
    simp only [List.mem_cons, List.not_mem_nil, or_false, forall_eq_or_imp, forall_eq]
    exact ⟨mod_lt _ hp, (Nat.div_lt_iff_lt_mul hp).2 (by omega)⟩

theorem isSlot_self (n : Nat) (hl : lblk < L.maxBlocks) : L.IsSlot (· = n) (L.slotOf n lblk) := isSlot_slotOf rfl hl

theorem leaf_slotOf (n lblk : Nat) : Leaf (L.slotOf n lblk) := by
  unfold slotOf
  split_ifs with h1 h2
  · simp [Leaf, depth, h1]
  · simp [Leaf, depth, EXT2_IND_BLOCK]
  · simp [Leaf, depth, EXT2_DIND_BLOCK]

theorem maxBlocks_eq (L : Layout) : L.maxBlocks = 12 + L.fs.ptrs_per_block + L.fs.ptrs_per_block * L.fs.ptrs_per_block := rfl

theorem slotOf_direct (h : lblk < 12) : L.slotOf n lblk = ((n, lblk), []) := by rw [slotOf, if_pos h]

theorem slotOf_ind (h1 : ¬lblk < 12) (h2 : lblk < 12 + L.fs.ptrs_per_block) :
    L.slotOf n lblk = ((n, EXT2_IND_BLOCK), [lblk - 12]) := by rw [slotOf, if_neg h1, if_pos h2]

theorem slotOf_dind (h1 : ¬lblk < 12) (h2 : ¬lblk < 12 + L.fs.ptrs_per_block) :
    L.slotOf n lblk = ((n, EXT2_DIND_BLOCK), [(lblk - (12 + L.fs.ptrs_per_block)) % L.fs.ptrs_per_block,
      (lblk - (12 + L.fs.ptrs_per_block)) / L.fs.ptrs_per_block]) := by rw [slotOf, if_neg h1, if_neg h2]

theorem slotOf_nil (h : (L.slotOf n lblk).2 = []) : lblk < 12 := by
  by_contra hl
  rw [slotOf, if_neg hl] at h
  split_ifs at h

theorem slotOf_inj {m j : Nat} (h : L.slotOf n lblk = L.slotOf m j) : n = m ∧ lblk = j := by
  have hp := L.ptrs_pos
  unfold slotOf at h
  split_ifs at h with h1 h2 h3 h4 h5 h6 h7 h8 <;>
    simp only [Prod.mk.injEq, List.cons.injEq, EXT2_IND_BLOCK, EXT2_DIND_BLOCK] at h <;> try omega
  have h9 := div_add_mod (lblk - (12 + L.fs.ptrs_per_block)) L.fs.ptrs_per_block
  have h10 := div_add_mod (j - (12 + L.fs.ptrs_per_block)) L.fs.ptrs_per_block
  rw [h.2.1, h.2.2.1] at h9
  exact ⟨h.1.1, by omega⟩

end Layout

section GetBlock

variable {L : Layout} {F : Prop} {live : Nat → Prop} {n r : Nat} {ib : Nat → Nat → Nat} {s : St}

def DataPtrs (L : Layout) (n : Nat) (ib : Nat → Nat → Nat) (data : Nat → Bytes) : Prop :=
  ∀ x, L.IsSlot (· = n) x → ptr ib data x ≠ 0 → L.IsData (ptr ib data x)

theorem Owns.dataPtrs {v : Vol} (h : Owns L live ib v) (hn : live n) : DataPtrs L n ib v.data := by
  rintro x ⟨rfl, hk, hl, hi⟩ h0
  exact h.data x ⟨hn, hk, hl, hi⟩ h0

theorem getBlock_false_spec (h : DataPtrs L n ib (L.vol s).data) (hr : (s.inodes r).priv.i_block = ib n) (lblk : Nat) :
    wp (world F) (getBlock L.fs r lblk false) (fun a s' => s' = s ∧
        ((lblk < L.maxBlocks ∧ a = some (ptr ib (L.vol s).data (L.slotOf n lblk))) ∨
          (L.maxBlocks ≤ lblk ∧ a = none) ∨ (F ∧ s.crit = 0 ∧ (a = none ∨ a = some 0)))) s := by
  have hmax := L.maxBlocks_eq
  unfold getBlock
  by_cases h1 : lblk < 12
  · have hslot : L.slotOf n lblk = _ := slotOf_direct h1
    have hlt : lblk < L.maxBlocks := by omega
    simp only [h1, if_true, Bool.false_eq_true, if_false, hslot, iBlock, wp_bind, wp_inodeAt, wp_pure, hr]
    exact ⟨trivial, .inl ⟨hlt, rfl⟩⟩
  by_cases h2 : lblk < 12 + L.fs.ptrs_per_block
  · have hslot : L.slotOf n lblk = _ := slotOf_ind h1 h2
    have hlt : lblk < L.maxBlocks := by omega
    have hx := L.isSlot_self n hlt
    rw [hslot] at hx ⊢
    simp only [h1, h2, if_true, Bool.false_eq_true, if_false, iBlock, wp_bind, wp_inodeAt, wp_pure, hr]
    rw [ptr_cons]
    have hroot : ptr ib (L.vol s).data ((n, EXT2_IND_BLOCK), []) = ib n EXT2_IND_BLOCK := rfl
    rw [hroot]
    by_cases h0 : ib n EXT2_IND_BLOCK = 0
    · simp [h0, hlt]
    · have hP : L.IsData (ib n EXT2_IND_BLOCK) := h _ hx.tail h0
      simp [h0, hlt, wp_indGet hP]
      tauto
  by_cases h3 : lblk < L.maxBlocks
  · have hslot : L.slotOf n lblk = _ := slotOf_dind h1 h2
    have hx := L.isSlot_self n h3
    rw [hslot] at hx ⊢
    rw [hmax] at h3
    simp only [h1, h2, h3, if_true, Bool.false_eq_true, if_false, iBlock, wp_bind, wp_inodeAt, wp_pure, hr]
    rw [← hmax] at h3
    set i1 := (lblk - (12 + L.fs.ptrs_per_block)) / L.fs.ptrs_per_block
    set i2 := (lblk - (12 + L.fs.ptrs_per_block)) % L.fs.ptrs_per_block
    have e1 := @ptr_cons ib (L.vol s).data (n, EXT2_DIND_BLOCK) i1 []
    have e2 := @ptr_cons ib (L.vol s).data (n, EXT2_DIND_BLOCK) i2 [i1]
    have hroot : ptr ib (L.vol s).data ((n, EXT2_DIND_BLOCK), []) = ib n EXT2_DIND_BLOCK := rfl
    rw [hroot] at e1
    by_cases h0 : ib n EXT2_DIND_BLOCK = 0
    · rw [if_pos h0] at e1
      rw [if_pos e1] at e2
      simp [h0, h3, e2]
    rw [if_neg h0] at e1
    have hP : L.IsData (ib n EXT2_DIND_BLOCK) := h _ hx.tail.tail h0
    simp only [h0, if_false, wp_bind, wp_indGet hP, ← e1]
    refine ⟨?_, fun hF hc => by simp [hF, hc]⟩
    by_cases h4 : ptr ib (L.vol s).data ((n, EXT2_DIND_BLOCK), [i1]) = 0
    · rw [if_pos h4] at e2
      simp [h4, h3, e2]
    · rw [if_neg h4] at e2
      simp [h4, h3, wp_indGet (h _ hx.tail h4), e2]
      tauto
  · rw [hmax] at h3
    simp only [h1, h2, h3, if_false, wp_pure]
    rw [← hmax] at h3
    exact ⟨trivial, .inr (.inl ⟨by omega, trivial⟩)⟩

theorem getBlock_true_spec (hv : L.Valid s) (h : Owns L live ib (L.vol s)) (hn : live n)
    (hr : (s.inodes r).priv.i_block = ib n) (lblk : Nat) :
    wp (world F) (getBlock L.fs r lblk true) (fun a s' =>
        (a = none ∧ (F → (lblk < L.maxBlocks → s.crit = 0) ∧ L.Clean s s')) ∨
        ∃ b ib', a = some b ∧ lblk < L.maxBlocks ∧ b ≠ 0 ∧
          L.Extends live n r (fun x => Leaf x → x = L.slotOf n lblk) ib s ib' s' ∧
          ptr ib' (L.vol s').data (L.slotOf n lblk) = b) s := by
  have hmax := L.maxBlocks_eq
  unfold getBlock
  by_cases h1 : lblk < 12
  · have hslot : L.slotOf n lblk = _ := slotOf_direct h1
    have hlt : lblk < L.maxBlocks := by omega
    simp only [h1, if_true, hslot]
    refine wp_weaken (rootAlloc_spec hv h hn (by simp [EXT2_DIND_BLOCK]; omega) hr) ?_
    rintro a s1 (⟨rfl, hc⟩ | ⟨b, ib1, rfl, hb, hext, hp⟩)
    · exact .inl ⟨rfl, fun hF => ⟨fun _ => (hc hF).1, (hc hF).2⟩⟩
    · exact .inr ⟨b, ib1, rfl, hlt, hb, hext.mono fun _ _ hx _ => hx, hp⟩
  by_cases h2 : lblk < 12 + L.fs.ptrs_per_block
  · have hslot : L.slotOf n lblk = _ := slotOf_ind h1 h2
    have hlt : lblk < L.maxBlocks := by omega
    have hx := L.isSlot_slotOf hn hlt
    rw [hslot] at hx ⊢
    simp only [h1, h2, if_false, if_true, wp_bind]
    refine wp_weaken (rootAlloc_spec hv h hn hx.root hr) ?_
    rintro a s1 (⟨rfl, hc⟩ | ⟨P, ib1, rfl, hP, hext, hp⟩)
    · exact .inl ⟨rfl, fun hF => ⟨fun _ => (hc hF).1, (hc hF).2⟩⟩
    have hext : L.Extends live n r (fun x => Leaf x → x = ((n, EXT2_IND_BLOCK), [lblk - 12])) ib s ib1 s1 :=
      hext.mono fun x _ e hl => absurd (e ▸ hl) (not_leaf_tail hx)
    refine wp_weaken (indAlloc_spec hext.valid hext.grown.owns hx hext.i_block hp hP) ?_
    rintro a s2 (⟨rfl, hc⟩ | ⟨b, rfl, hb, hext2, hp2⟩)
    · refine .inl ⟨rfl, fun hF => ?_⟩
      obtain rfl := hext.calm (hc hF).1
      exact ⟨fun _ => (hc hF).1, (hc hF).2⟩
    · exact .inr ⟨b, ib1, rfl, hlt, hb, hext.trans (hext2.mono fun _ _ hx _ => hx), hp2⟩
  by_cases h3 : lblk < L.maxBlocks
  · have hslot : L.slotOf n lblk = _ := slotOf_dind h1 h2
    have hx := L.isSlot_slotOf hn h3
    rw [hslot] at hx
    rw [hmax] at h3
    simp only [h1, h2, h3, if_false, if_true, wp_bind]
    rw [← hmax] at h3
    refine wp_weaken (rootAlloc_spec hv h hn hx.root hr) ?_
    rintro a s1 (⟨rfl, hc⟩ | ⟨P, ib1, rfl, hP, hext, hp⟩)
    · exact .inl ⟨rfl, fun hF => ⟨fun _ => (hc hF).1, (hc hF).2⟩⟩
    have hext : L.Extends live n r (fun x => Leaf x → x = L.slotOf n lblk) ib s ib1 s1 :=
      hext.mono fun x _ e hl => absurd (e ▸ hl) (not_leaf_tail hx.tail)
    simp only [wp_bind]
    refine wp_weaken (indAlloc_spec hext.valid hext.grown.owns hx.tail hext.i_block hp hP) ?_
    rintro a s2 (⟨rfl, hc⟩ | ⟨P2, rfl, hP2, hext2, hp2⟩)
    · refine .inl ⟨rfl, fun hF => ?_⟩
      obtain rfl := hext.calm (hc hF).1
      exact ⟨fun _ => (hc hF).1, (hc hF).2⟩
    have hext12 := hext.trans (hext2.mono fun x _ e hl => absurd (e ▸ hl) (not_leaf_tail hx))
    refine wp_weaken (indAlloc_spec hext2.valid hext2.grown.owns hx hext2.i_block hp2 hP2) ?_
    rintro a s3 (⟨rfl, hc⟩ | ⟨b, rfl, hb, hext3, hp3⟩)
    · refine .inl ⟨rfl, fun hF => ?_⟩
      obtain rfl := hext12.calm (hc hF).1
      exact ⟨fun _ => (hc hF).1, (hc hF).2⟩
    · exact .inr ⟨b, ib1, rfl, h3, hb, hext12.trans (hext3.mono fun _ _ e _ => e.trans hslot.symm), by rw [hslot, hp3]⟩
  · rw [hmax] at h3
    simp only [h1, h2, h3, if_false, wp_pure]
    rw [← hmax] at h3
    exact .inl ⟨trivial, fun _ => ⟨fun hlt => absurd hlt h3, .refl hv⟩⟩

end GetBlock

end Ext2
