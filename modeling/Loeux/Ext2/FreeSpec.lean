import Loeux.Ext2.MapSpec
/-!
# Giving blocks back

What `freeAllBlocks` and the loop of `truncate` do on a machine without
failures: the blocks they visit are released one after the other, a block that
is visited twice is released twice.
-/
open Lib Function List Prog Nat

namespace Ext2

open Layout

namespace Layout

def release (L : Layout) (v : Vol) (l : List Nat) : Vol :=
  l.foldl (fun v b => if b = 0 then v else L.freeBlock v b) v

variable {L : Layout} {v : Vol}

@[simp] theorem release_nil : L.release v [] = v := rfl

theorem release_cons (b : Nat) (l : List Nat) :
    L.release v (b :: l) = L.release (if b = 0 then v else L.freeBlock v b) l := rfl

theorem release_append (l l' : List Nat) : L.release v (l ++ l') = L.release (L.release v l) l' :=
  foldl_append

theorem release_zeros {l : List Nat} (h : ∀ b ∈ l, b = 0) : L.release v l = v := by
  induction l with
  | nil => rfl
  | cons b l ih =>
    rw [release_cons, if_pos (h b mem_cons_self)]
    exact ih fun c hc => h c (mem_cons_of_mem _ hc)

theorem release_same (l : List Nat) :
    (L.release v l).data = v.data ∧ (L.release v l).ibit = v.ibit ∧ (L.release v l).inode = v.inode := by
  induction l generalizing v with
  | nil => exact ⟨rfl, rfl, rfl⟩
  | cons b l ih =>
    rw [release_cons]
    split_ifs
    · exact ih
    · exact ih

theorem release_data (l : List Nat) : (L.release v l).data = v.data := (release_same l).1

theorem release_used (l : List Nat) (b : Nat) : (L.release v l).used b = (v.used b && !decide (b ∈ l ∧ b ≠ 0)) := by
  induction l generalizing v with
  | nil => simp
  | cons c l ih =>
    rw [release_cons, ih]
    by_cases hc : c = 0
    · subst hc
      by_cases hb : b = 0 <;> simp [hb]
    · rw [if_neg hc]
      by_cases e : b = c
      · subst e
        simp [freeBlock, hc]
      · simp [freeBlock, e]

theorem Counted.release {l : List Nat} (h : L.Counted v) (hl : ∀ b ∈ l, b ≠ 0 → L.IsBlock b ∧ v.used b = true)
    (hnd : (l.filter (· ≠ 0)).Nodup) : L.Counted (L.release v l) := by
  induction l generalizing v with
  | nil => exact h
  | cons b l ih =>
    rw [release_cons]
    by_cases hb : b = 0
    · rw [if_pos hb]
      refine ih h (fun c hc => hl c (mem_cons_of_mem _ hc)) ?_
      simpa [hb] using hnd
    · rw [if_neg hb]
      have hnd' : b ∉ l.filter (· ≠ 0) ∧ (l.filter (· ≠ 0)).Nodup := by simpa [hb] using hnd
      have hb' := hl b mem_cons_self hb
      refine ih (h.freeBlock hb'.1 hb'.2) (fun c hc hc0 => ?_) hnd'.2
      have hcb : c ≠ b := by
        rintro rfl
        exact hnd'.1 (mem_filter.2 ⟨hc, by simpa using hb⟩)
      have := hl c (mem_cons_of_mem _ hc) hc0
      exact ⟨this.1, by simpa [Layout.freeBlock, hcb] using this.2⟩

/-! ## The slots of an inode -/

/-- The slots at `(r, p)` and up to `d` levels below it, a slot after those below it. -/
def below (L : Layout) (r : Nat × Nat) : (d : Nat) → (p : List Nat) → List Slot
  | 0, p => [(r, p)]
  | d + 1, p => (List.range L.fs.ptrs_per_block).flatMap (fun i => below L r d (i :: p)) ++ [(r, p)]

def slots (L : Layout) (n : Nat) : List Slot :=
  (List.range 14).flatMap fun k => L.below (n, k) (depth k) []

theorem mem_below {r : Nat × Nat} {d : Nat} {p : List Nat} {x : Slot} : x ∈ L.below r d p ↔
      ∃ q, x = (r, q ++ p) ∧ q.length ≤ d ∧ ∀ i ∈ q, i < L.fs.ptrs_per_block := by
  induction d generalizing p with
  | zero =>
    simp only [below, mem_singleton]
    constructor
    · rintro rfl
      exact ⟨[], rfl, le_rfl, by simp⟩
    · rintro ⟨q, rfl, hq, -⟩
      rw [length_eq_zero_iff.1 (le_zero.1 hq), nil_append]
  | succ d ih =>
    simp only [below, mem_append, mem_flatMap, mem_range, mem_singleton, ih]
    constructor
    · rintro (⟨i, hi, q, rfl, hq, hlt⟩ | rfl)
      · refine ⟨q ++ [i], by simp, by simpa using hq, ?_⟩
        intro j hj
        rcases mem_append.1 hj with hj | hj
        · exact hlt j hj
        · rw [mem_singleton.1 hj]; exact hi
      · exact ⟨[], rfl, Nat.zero_le _, by simp⟩
    · rintro ⟨q, rfl, hq, hlt⟩
      rcases eq_nil_or_concat q with rfl | ⟨q, i, rfl⟩
      · exact .inr rfl
      · refine .inl ⟨i, hlt i (by simp), q, by simp, ?_, fun j hj => hlt j (by simp [hj])⟩
        simpa using hq

theorem nodup_below (r : Nat × Nat) (d : Nat) (p : List Nat) : (L.below r d p).Nodup := by
  induction d generalizing p with
  | zero => simp [below]
  | succ d ih =>
    rw [below, nodup_append]
    refine ⟨?_, by simp, ?_⟩
    · rw [nodup_flatMap]
      refine ⟨fun i _ => ih _, nodup_range.imp ?_⟩
      intro i j hij x hx hx'
      obtain ⟨q, rfl, -⟩ := mem_below.1 hx
      obtain ⟨q', e, -⟩ := mem_below.1 hx'
      have := append_inj_right' (congrArg Prod.snd e) (by simp)
      exact hij (List.cons.inj this).1
    · intro x hx y hy e
      obtain ⟨i, -, hx⟩ := mem_flatMap.1 hx
      obtain ⟨q, rfl, -⟩ := mem_below.1 hx
      have := congrArg (fun z : Slot => z.2.length) (e.trans (mem_singleton.1 hy))
      simp at this
      omega

theorem mem_slots {n : Nat} {x : Slot} : x ∈ L.slots n ↔ L.IsSlot (· = n) x := by
  simp only [slots, mem_flatMap, mem_range, mem_below, append_nil]
  constructor
  · rintro ⟨k, hk, q, rfl, hq, hlt⟩
    exact ⟨rfl, le_of_lt_succ hk, hq, hlt⟩
  · rintro ⟨hn, hk, hl, hi⟩
    exact ⟨x.1.2, lt_succ_of_le hk, x.2, by rw [← hn], hl, hi⟩

theorem nodup_slots (n : Nat) : (L.slots n).Nodup := by
  rw [slots, nodup_flatMap]
  refine ⟨fun k _ => nodup_below _ _ _, nodup_range.imp ?_⟩
  intro j k hjk x hx hx'
  obtain ⟨q, rfl, -⟩ := mem_below.1 hx
  obtain ⟨q', e, -⟩ := mem_below.1 hx'
  exact hjk (Prod.mk.inj (Prod.mk.inj e).1).2

end Layout

/-! ## The loops -/

/-- `s'` is `s` with the volume moved on to `v` and the pointers of object `r` to `f`. -/
structure Layout.Edits (L : Layout) (r : Nat) (s : St) (f : Nat → Nat) (v : Vol) (s' : St) : Prop where
  valid : L.Valid s'
  vol : L.vol s' = v
  inodes : s'.inodes = Function.update s.inodes r ((s.inodes r).setBlocks f)
  next : s'.next = s.next
  files : s'.files = s.files
  ticks : s'.ticks = s.ticks

def cleared (l m : Nat) (f : Nat → Nat) : Nat → Nat := fun k => if l ≤ k ∧ k < m then 0 else f k

section Loops

variable {L : Layout} {s s' s'' : St} {r n : Nat} {f f' : Nat → Nat} {v v' : Vol} {ib : Nat → Nat → Nat}

theorem Layout.Edits.of_upd (h : L.Upd s v s') (hr : (s.inodes r).priv.i_block = f) : L.Edits r s f v s' := by
  refine ⟨h.valid, h.vol, ?_, h.same.next, h.same.files, h.same.ticks⟩
  rw [h.same.inodes, ← hr]
  exact (update_eq_self r s.inodes).symm

theorem Layout.Edits.trans (h : L.Edits r s f v s') (h' : L.Edits r s' f' v' s'') : L.Edits r s f' v' s'' where
  valid := h'.valid
  vol := h'.vol
  inodes := by
    rw [h'.inodes, h.inodes, update_idem, update_self]
    rfl
  next := h'.next.trans h.next
  files := h'.files.trans h.files
  ticks := h'.ticks.trans h.ticks

theorem Layout.Edits.i_block (h : L.Edits r s f v s') : (s'.inodes r).priv.i_block = f := by
  rw [h.inodes, update_self]
  rfl

theorem Layout.Edits.setIBlock (h : L.Edits r s f v s') (k b : Nat) :
    L.Edits r s (Function.update f k b) v (s'.modify r fun i => i.setBlocks (Function.update i.priv.i_block k b)) where
  valid := h.valid.congr rfl
  vol := h.vol
  inodes := by
    show Function.update s'.inodes r ((s'.inodes r).setBlocks (Function.update (s'.inodes r).priv.i_block k b)) = _
    rw [h.i_block, h.inodes, update_idem, update_self]
    rfl
  next := h.next
  files := h.files
  ticks := h.ticks

theorem freeBlock_run (hv : L.Valid s) {b : Nat} (hb : L.IsBlock b) :
    wp (world False) (freeBlock L.fs b) (fun _ s' => L.Upd s (L.freeBlock (L.vol s) b) s') s := by
  refine wp_weaken (freeBlock_spec hv hb) ?_
  rintro a s' (⟨-, h⟩ | ⟨-, hF, -⟩)
  · exact h
  · exact hF.elim

theorem freeEntries_run (hv : L.Valid s) (buf : Bytes) (m i : Nat)
    (hb : ∀ j, i ≤ j → j < i + m → buf.get 4 (j * 4) ≠ 0 → L.IsBlock (buf.get 4 (j * 4))) :
    wp (world False) (freeEntries L.fs buf m i)
      (fun _ s' => L.Upd s (L.release (L.vol s) ((List.range' i m).map fun j => buf.get 4 (j * 4))) s') s := by
  induction m generalizing s i with
  | zero => exact .refl hv
  | succ m ih =>
    have hrest : ∀ j, i + 1 ≤ j → j < i + 1 + m → buf.get 4 (j * 4) ≠ 0 → L.IsBlock (buf.get 4 (j * 4)) :=
      fun j h1 h2 => hb j (by omega) (by omega)
    unfold freeEntries
    rw [range'_succ, map_cons, release_cons]
    by_cases h0 : buf.get 4 (i * 4) = 0
    · simp only [h0, ne_eq, not_true_eq_false, if_false, if_true]
      exact ih hv (i + 1) hrest
    · simp only [h0, ne_eq, not_false_eq_true, if_true, if_false, wp_bind]
      refine wp_weaken (freeBlock_run hv (hb i le_rfl (by omega) h0)) fun _ s1 h₁ => ?_
      refine wp_weaken (ih h₁.valid (i + 1) hrest) fun _ s2 h₂ => ?_
      rw [h₁.vol] at h₂
      exact h₁.trans h₂

theorem cleared_cons {l m : Nat} (h : l < m) : cleared l m f = cleared (l + 1) m (Function.update f l 0) := by
  funext k
  unfold cleared
  by_cases hk : k = l
  · subst hk
    rw [if_pos ⟨le_rfl, h⟩, if_neg (by omega), update_self]
  · rw [update_of_ne hk]
    by_cases h' : l ≤ k ∧ k < m
    · rw [if_pos h', if_pos (by omega)]
    · rw [if_neg h', if_neg (by omega)]

theorem freeDirect_run (hv : L.Valid s) (hr : (s.inodes r).priv.i_block = f) (m i : Nat)
    (hb : ∀ k, i ≤ k → k < i + m → f k ≠ 0 → L.IsBlock (f k)) :
    wp (world False) (freeDirect L.fs r m i) (fun _ s' =>
        L.Edits r s (cleared i (i + m) f) (L.release (L.vol s) ((List.range' i m).map f)) s') s := by
  induction m generalizing s i f with
  | zero =>
    refine .of_upd (.refl hv) ?_
    rw [hr]
    funext k
    rw [cleared, if_neg (by omega)]
  | succ m ih =>
    unfold freeDirect
    rw [range'_succ, map_cons, release_cons, cleared_cons (by omega), Nat.add_comm m 1, ← Nat.add_assoc]
    have hrest : ∀ k, i + 1 ≤ k → k < i + 1 + m → Function.update f i 0 k ≠ 0 →
        L.IsBlock (Function.update f i 0 k) := by
      intro k h1 h2
      rw [update_of_ne (by omega)]
      exact hb k (by omega) (by omega)
    have hmap : (List.range' (i + 1) m).map f = (List.range' (i + 1) m).map (Function.update f i 0) := by
      refine map_congr_left fun k hk => ?_
      rw [update_of_ne]
      have := (mem_range'_1.1 hk).1
      omega
    have hcur : (s.inodes r).priv.i_block i = f i := by rw [hr]
    simp only [iBlock, wp_bind, wp_inodeAt, wp_pure, hcur]
    rw [hmap]
    by_cases h0 : f i = 0
    · have hf : Function.update f i 0 = f := by rw [← h0, update_eq_self]
      rw [hf] at hrest ⊢
      simp only [h0, ne_eq, not_true_eq_false, if_false, if_true]
      exact ih hv hr (i + 1) hrest
    · simp only [h0, ne_eq, not_false_eq_true, if_true, if_false, wp_bind]
      refine wp_weaken (freeBlock_run hv (hb i le_rfl (by omega) h0)) fun _ s1 h₁ => ?_
      have h₂ := (Layout.Edits.of_upd h₁ hr).setIBlock i 0
      simp only [setIBlock, wp_update]
      refine wp_weaken (ih h₂.valid h₂.i_block (i + 1) hrest) fun _ s3 h3 => ?_
      rw [h₂.vol] at h3
      exact h₂.trans h3

theorem map_below_one (g : Slot → Nat) (k : Nat × Nat) (p : List Nat) :
    (L.below k 1 p).map g = (List.range L.fs.ptrs_per_block).map (fun j => g (k, j :: p)) ++ [g (k, p)] := by
  simp [Layout.below, ← map_eq_flatMap]

variable {data : Nat → Bytes}

theorem release_below_zero {k : Nat × Nat} {p : List Nat} (h0 : ptr ib data (k, p) = 0) :
    L.release v ((L.below k 1 p).map (ptr ib data)) = v := by
  rw [map_below_one]
  refine release_zeros fun b hb => ?_
  simp only [mem_append, mem_map, mem_singleton] at hb
  rcases hb with ⟨j, -, rfl⟩ | rfl
  · rw [ptr_cons, if_pos h0]
  · exact h0

theorem freePointerBlock_run (hv : L.Valid s) (hd : DataPtrs L n ib data)
    {k : Nat} {p : List Nat} (hx : ∀ j, j < L.fs.ptrs_per_block → L.IsSlot (· = n) ((n, k), j :: p))
    (h0 : ptr ib data ((n, k), p) ≠ 0) :
    wp (world False) (do
        freeEntries L.fs (data (ptr ib data ((n, k), p))) L.fs.ptrs_per_block 0
        freeBlock L.fs (ptr ib data ((n, k), p)))
      (fun _ s' => L.Upd s (L.release (L.vol s) ((L.below (n, k) 1 p).map (ptr ib data))) s') s := by
  have hent : ∀ j, (data (ptr ib data ((n, k), p))).get 4 (j * 4) = ptr ib data ((n, k), j :: p) := by
    intro j
    rw [ptr_cons, if_neg h0]
    rfl
  have hblk : ∀ j, j < L.fs.ptrs_per_block → ptr ib data ((n, k), j :: p) ≠ 0 →
      L.IsBlock (ptr ib data ((n, k), j :: p)) := fun j hj hne => (hd _ (hx j hj) hne).1
  have hP : L.IsBlock (ptr ib data ((n, k), p)) := (hd _ (hx 0 L.ptrs_pos).tail h0).1
  rw [map_below_one, release_append]
  refine wp_then (freeEntries_run hv _ _ 0 fun j _ hj hne => ?_) fun _ s1 h1 => ?_
  · rw [hent] at hne ⊢
    exact hblk j (by omega) hne
  refine wp_weaken (freeBlock_run h1.valid hP) fun _ s2 h2 => ?_
  simp only [hent, ← range_eq_range'] at h1
  rw [h1.vol] at h2
  rw [release_cons, if_neg h0, Layout.release_nil]
  exact h1.trans h2

theorem freeIndirect_run (hv : L.Valid s) (hdata : (L.vol s).data = data) (hd : DataPtrs L n ib data)
    (h0 : ib n EXT2_DIND_BLOCK ≠ 0) (m i : Nat) (hi : i + m = L.fs.ptrs_per_block) :
    wp (world False) (freeIndirect L.fs (data (ib n EXT2_DIND_BLOCK)) m i)
      (fun _ s' => L.Upd s (L.release (L.vol s) (((List.range' i m).flatMap fun j =>
        L.below (n, EXT2_DIND_BLOCK) 1 [j]).map (ptr ib data))) s') s := by
  induction m generalizing s i with
  | zero => exact .refl hv
  | succ m ih =>
    have hx : ∀ j, j < L.fs.ptrs_per_block → L.IsSlot (· = n) ((n, EXT2_DIND_BLOCK), [j, i]) := by
      intro j hj
      refine ⟨rfl, le_rfl, by simp [depth, EXT2_DIND_BLOCK], ?_⟩
      simp only [mem_cons, not_mem_nil, or_false, forall_eq_or_imp, forall_eq]
      omega
    have hroot : ptr ib data ((n, EXT2_DIND_BLOCK), []) = ib n EXT2_DIND_BLOCK := rfl
    have hent : (data (ib n EXT2_DIND_BLOCK)).get 4 (i * 4) = ptr ib data ((n, EXT2_DIND_BLOCK), [i]) := by
      rw [ptr_cons, hroot, if_neg h0]
      rfl
    unfold freeIndirect
    rw [range'_succ, flatMap_cons, map_append, release_append, hent]
    by_cases hi0 : ptr ib data ((n, EXT2_DIND_BLOCK), [i]) = 0
    · simp only [hi0, ne_eq, not_true_eq_false, if_false]
      rw [release_below_zero hi0]
      exact ih hv hdata (i + 1) (by omega)
    · have hP := hd _ (hx 0 L.ptrs_pos).tail hi0
      have hread : s.disk (ptr ib data ((n, EXT2_DIND_BLOCK), [i])) =
          data (ptr ib data ((n, EXT2_DIND_BLOCK), [i])) := by
        rw [← hdata, vol_data (by rw [hdata]; exact hP)]
      have key := freePointerBlock_run hv hd hx hi0
      simp only [hi0, ne_eq, not_false_eq_true, if_true, wp_bind, wp_slabAlloc, wp_readBlock,
        false_imp_iff, and_true, hread] at key ⊢
      refine wp_weaken key fun _ s1 h1 => ?_
      refine wp_weaken h1 fun _ s2 h2 => ?_
      have hdata2 : (L.vol s2).data = data := by rw [h2.vol, release_data, hdata]
      refine wp_weaken (ih h2.valid hdata2 (i + 1) (by omega)) fun _ s3 h3 => ?_
      rw [h2.vol] at h3
      exact h2.trans h3

theorem slots_eq (n : Nat) :
    L.slots n = (List.range 12).map (fun k => ((n, k), [])) ++ L.below (n, EXT2_IND_BLOCK) 1 [] ++
      (((List.range L.fs.ptrs_per_block).flatMap fun i => L.below (n, EXT2_DIND_BLOCK) 1 [i]) ++
        [((n, EXT2_DIND_BLOCK), [])]) := by
  have h12 : List.range 14 = List.range 12 ++ [EXT2_IND_BLOCK, EXT2_DIND_BLOCK] := rfl
  have hdir : ((List.range 12).flatMap fun k => L.below (n, k) (depth k) []) =
      (List.range 12).map (fun k => ((n, k), [])) := by
    rw [map_eq_flatMap]
    refine flatMap_congr fun k hk => ?_
    have : depth k = 0 := by rw [depth, if_pos (mem_range.1 hk)]
    rw [this]
    rfl
  rw [Layout.slots, h12, flatMap_append, hdir, append_assoc]
  simp [depth, EXT2_IND_BLOCK, EXT2_DIND_BLOCK]
  rfl

theorem freeSingle_run (hv : L.Valid s) (hd : DataPtrs L n ib (L.vol s).data)
    (hr : (s.inodes r).priv.i_block = f) (hf : f EXT2_IND_BLOCK = ib n EXT2_IND_BLOCK) :
    wp (world False) (freeSingle L.fs r) (fun a s' => a = true ∧ L.Edits r s (Function.update f EXT2_IND_BLOCK 0)
        (L.release (L.vol s) ((L.below (n, EXT2_IND_BLOCK) 1 []).map (ptr ib (L.vol s).data))) s') s := by
  have hroot : ptr ib (L.vol s).data ((n, EXT2_IND_BLOCK), []) = ib n EXT2_IND_BLOCK := rfl
  have hx : ∀ j, j < L.fs.ptrs_per_block → L.IsSlot (· = n) ((n, EXT2_IND_BLOCK), [j]) := by
    intro j hj
    exact ⟨rfl, by simp [EXT2_IND_BLOCK, EXT2_DIND_BLOCK], by simp [depth, EXT2_IND_BLOCK], by simpa using hj⟩
  simp only [freeSingle, iBlock, wp_bind, wp_inodeAt, wp_pure, hr, hf]
  by_cases h0 : ib n EXT2_IND_BLOCK = 0
  · simp only [h0, if_true, wp_pure]
    rw [release_below_zero (by rw [hroot, h0])]
    refine ⟨trivial, .of_upd (.refl hv) ?_⟩
    rw [hr, ← h0, ← hf, update_eq_self]
  · have hP := hd _ (hx 0 L.ptrs_pos).tail h0
    have key := freePointerBlock_run hv hd hx h0
    rw [hroot] at hP key
    simp only [h0, if_false, wp_bind, wp_slabAlloc, wp_readBlock, false_imp_iff, and_true,
      Bool.not_true, Bool.false_eq_true, ← vol_data hP] at key ⊢
    refine wp_weaken key fun _ s1 h1 => ?_
    refine wp_weaken h1 fun _ s2 h2 => ?_
    simp only [setIBlock, wp_update, wp_pure]
    exact ⟨trivial, (Layout.Edits.of_upd h2 hr).setIBlock _ 0⟩

theorem freeDouble_run (hv : L.Valid s) (hd : DataPtrs L n ib (L.vol s).data)
    (hr : (s.inodes r).priv.i_block = f) (hf : f EXT2_DIND_BLOCK = ib n EXT2_DIND_BLOCK) :
    wp (world False) (freeDouble L.fs r) (fun a s' => a = true ∧ L.Edits r s (Function.update f EXT2_DIND_BLOCK 0)
        (L.release (L.vol s) ((((List.range L.fs.ptrs_per_block).flatMap fun i =>
          L.below (n, EXT2_DIND_BLOCK) 1 [i]) ++ [((n, EXT2_DIND_BLOCK), [])]).map (ptr ib (L.vol s).data))) s') s := by
  have hroot : ptr ib (L.vol s).data ((n, EXT2_DIND_BLOCK), []) = ib n EXT2_DIND_BLOCK := rfl
  simp only [freeDouble, iBlock, wp_bind, wp_inodeAt, wp_pure, hr, hf]
  rw [map_append, release_append]
  by_cases h0 : ib n EXT2_DIND_BLOCK = 0
  · simp only [h0, if_true, wp_pure]
    rw [release_zeros, release_zeros]
    · refine ⟨trivial, .of_upd (.refl hv) ?_⟩
      rw [hr, ← h0, ← hf, update_eq_self]
    · intro b hb
      simp only [map_flatMap, mem_flatMap] at hb
      obtain ⟨i, -, hb⟩ := hb
      have h1 : ptr ib (L.vol s).data ((n, EXT2_DIND_BLOCK), [i]) = 0 := by
        rw [ptr_cons, hroot, if_pos h0]
      rw [map_below_one, mem_append, mem_map, mem_singleton] at hb
      rcases hb with ⟨j, -, rfl⟩ | rfl
      · rw [ptr_cons, if_pos h1]
      · exact h1
    · simpa [hroot] using h0
  · have hP : L.IsData (ib n EXT2_DIND_BLOCK) :=
      hd ((n, EXT2_DIND_BLOCK), []) ⟨rfl, le_rfl, Nat.zero_le _, by simp⟩ h0
    simp only [h0, if_false, wp_bind, wp_slabAlloc, wp_readBlock, false_imp_iff, and_true,
      Bool.not_true, Bool.false_eq_true, ← vol_data hP]
    refine wp_weaken (freeIndirect_run hv rfl hd h0 _ 0 (by omega)) fun _ s1 h₁ => ?_
    refine wp_weaken (freeBlock_run h₁.valid hP.1) fun _ s2 h2 => ?_
    simp only [setIBlock, wp_update, wp_pure]
    rw [h₁.vol, ← range_eq_range'] at h2
    rw [map_singleton, release_cons, hroot, if_neg h0, Layout.release_nil]
    exact ⟨trivial, (Layout.Edits.of_upd (h₁.trans h2) hr).setIBlock _ 0⟩

theorem freeAllBlocks_run (hv : L.Valid s) (hd : DataPtrs L n ib (L.vol s).data)
    (hr : (s.inodes r).priv.i_block = ib n) :
    wp (world False) (freeAllBlocks L.fs r) (fun a s' => a = true ∧ L.Edits r s (cleared 0 14 (ib n))
        (L.release (L.vol s) ((L.slots n).map (ptr ib (L.vol s).data))) s') s := by
  have hslot : ∀ k, k ≤ EXT2_DIND_BLOCK → L.IsSlot (· = n) ((n, k), []) :=
    fun k hk => ⟨rfl, hk, Nat.zero_le _, by simp⟩
  rw [slots_eq, map_append, map_append, release_append, release_append]
  simp only [freeAllBlocks, wp_bind]
  refine wp_weaken (freeDirect_run hv hr 12 0 fun k _ hk hne => (hd _ (hslot k ?_) hne).1) fun _ s1 h1 => ?_
  · simp only [EXT2_DIND_BLOCK]; omega
  have hdata1 : (L.vol s1).data = (L.vol s).data := by rw [h1.vol, release_data]
  refine wp_weaken (@freeSingle_run L s1 r n _ ib h1.valid (by rw [hdata1]; exact hd) h1.i_block rfl) ?_
  rintro a s2 ⟨rfl, h2⟩
  have hdata2 : (L.vol s2).data = (L.vol s).data := by rw [h2.vol, release_data, hdata1]
  simp only [if_not_true]
  refine wp_weaken (@freeDouble_run L s2 r n _ ib h2.valid (by rw [hdata2]; exact hd) h2.i_block rfl) ?_
  rintro a s3 ⟨rfl, h3⟩
  rw [hdata2, h2.vol, hdata1, h1.vol] at h3
  have hf : Function.update (Function.update (cleared 0 (0 + 12) (ib n)) EXT2_IND_BLOCK 0) EXT2_DIND_BLOCK 0 =
      cleared 0 14 (ib n) := by
    funext k
    simp only [update_apply, cleared, EXT2_IND_BLOCK, EXT2_DIND_BLOCK]
    split_ifs <;> first | rfl | omega
  rw [hf] at h3
  refine ⟨rfl, ?_⟩
  rw [map_map, range_eq_range']
  exact (h1.trans h2).trans h3

end Loops

end Ext2
