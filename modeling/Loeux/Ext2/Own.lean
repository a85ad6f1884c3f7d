import Loeux.Lib.Forest
import Loeux.Ext2.AllocSpec
import Loeux.Ext2.Map
/-!
# Which block belongs to which pointer slot

The pointer slots of a volume are the direct, indirect and double-indirect
pointers of its live inodes and the entries of the pointer blocks below them.
`Owns` is the consistency of a volume: the slots of live inodes name data
blocks, no two the same one, and the data blocks marked used are those named.
`Grown` is what linking fresh blocks into one inode does to a volume.
-/
open Lib Bytes Function List

namespace Ext2

/-- An inode number and a pointer of it, and the path below that, last index first. -/
abbrev Slot := (Nat × Nat) × List Nat

/-- How many levels of pointer blocks are below pointer `k` of an inode. -/
def depth (k : Nat) : Nat := if k < 12 then 0 else k - 11

def entry (data : Nat → Bytes) (b i : Nat) : Nat := (data b).get 4 (i * 4)

def ptr (ib : Nat → Nat → Nat) (data : Nat → Bytes) (x : Slot) : Nat :=
  Forest.ptr (fun r : Nat × Nat => ib r.1 r.2) (entry data) x

/-- The block a slot names; a hole reads as zeros. -/
def block (ib : Nat → Nat → Nat) (data : Nat → Bytes) (x : Slot) : Bytes :=
  if ptr ib data x = 0 then Bytes.zero else data (ptr ib data x)

def Leaf (x : Slot) : Prop := x.2.length = depth x.1.2

namespace Layout

variable (L : Layout)

/-- The blocks that can belong to files. -/
def IsData (b : Nat) : Prop := L.IsBlock b ∧ L.role b = .data

instance (b : Nat) : Decidable (L.IsData b) := inferInstanceAs (Decidable (_ ∧ _))

structure IsSlot (live : Nat → Prop) (x : Slot) : Prop where
  live : live x.1.1
  root : x.1.2 ≤ EXT2_DIND_BLOCK
  length : x.2.length ≤ depth x.1.2
  index : ∀ i ∈ x.2, i < L.fs.ptrs_per_block

end Layout

structure Owns (L : Layout) (live : Nat → Prop) (ib : Nat → Nat → Nat) (v : Vol) : Prop where
  metadata : ∀ b, L.IsBlock b → L.role b ≠ .data → v.used b = true
  data : ∀ x, L.IsSlot live x → ptr ib v.data x ≠ 0 → L.IsData (ptr ib v.data x)
  inj : Forest.Inj (L.IsSlot live) (ptr ib v.data)
  used : ∀ b, L.IsData b → (v.used b = true ↔ ∃ x, L.IsSlot live x ∧ ptr ib v.data x = b)

section Slots

variable {L : Layout} {live : Nat → Prop} {ib ib' : Nat → Nat → Nat} {data data' : Nat → Bytes}

theorem Layout.IsData.ne_zero {b : Nat} (h : L.IsData b) : b ≠ 0 := by
  rintro rfl
  exact L.role_zero h.2

theorem Layout.IsData.lt {b : Nat} (h : L.IsData b) : b < 256 ^ 4 := by
  have h1 := h.1.2; have h2 := L.blocks_le; have h3 := L.blocks_lt
  omega

theorem Layout.IsSlot.tail {r : Nat × Nat} {i : Nat} {p : List Nat} (h : L.IsSlot live (r, i :: p)) :
    L.IsSlot live (r, p) where
  live := h.live
  root := h.root
  length := by have := h.length; simp only [length_cons] at this ⊢; omega
  index j hj := h.index j (mem_cons_of_mem _ hj)

theorem not_leaf_tail {r : Nat × Nat} {i : Nat} {p : List Nat} (h : L.IsSlot live (r, i :: p)) : ¬Leaf (r, p) := by
  have := h.length
  simp only [length_cons] at this
  simp only [Leaf]
  omega

theorem ptr_cons (r : Nat × Nat) (i : Nat) (p : List Nat) :
    ptr ib data (r, i :: p) = if ptr ib data (r, p) = 0 then 0 else entry data (ptr ib data (r, p)) i := rfl

theorem ptr_congr (hib : ∀ n k, live n → k ≤ EXT2_DIND_BLOCK → ib' n k = ib n k)
    (hd : ∀ x, L.IsSlot live x → ¬Leaf x → ptr ib data x ≠ 0 → data' (ptr ib data x) = data (ptr ib data x))
    {x : Slot} (hx : L.IsSlot live x) : ptr ib' data' x = ptr ib data x := by
  refine Forest.ptr_congr (fun _ _ _ h => h.tail) (fun r h => hib _ _ h.live h.root) ?_ x hx
  intro r i p h h0
  show entry data' (ptr ib data (r, p)) i = entry data (ptr ib data (r, p)) i
  rw [entry, hd (r, p) h.tail (not_leaf_tail h) h0]
  rfl

theorem entry_zero (data : Nat → Bytes) (b i : Nat) : entry (Function.update data b Bytes.zero) b i = 0 := by
  rw [entry, update_self, get_zero]

theorem entry_update_of_ne {b c : Nat} (d : Bytes) (i : Nat) (h : c ≠ b) :
    entry (Function.update data b d) c i = entry data c i := by
  rw [entry, update_of_ne h]
  rfl

theorem entry_put {b : Nat} (hb : b < 256 ^ 4) (P i c j : Nat) :
    entry (Function.update data P ((data P).put 4 (i * 4) b)) c j = if c = P ∧ j = i then b else entry data c j := by
  by_cases hc : c = P
  · subst hc
    rw [entry, update_self]
    by_cases hj : j = i
    · subst hj
      rw [get_put, Nat.mod_eq_of_lt hb, if_pos ⟨rfl, rfl⟩]
    · rw [get_put_of_disjoint _ _ (by omega), if_neg (fun e => hj e.2)]
      rfl
  · rw [entry_update_of_ne _ _ hc, if_neg (fun e => hc e.1)]

end Slots

/-! ## Linking a fresh block -/

namespace Layout

def zeroed (L : Layout) (v : Vol) (b : Nat) : Vol :=
  { L.allocBlock v b with data := Function.update v.data b Bytes.zero }

end Layout

def Vol.linked (v : Vol) (P i b : Nat) : Vol :=
  { v with data := Function.update v.data P ((v.data P).put 4 (i * 4) b) }

section Link

variable {L : Layout} {live : Nat → Prop} {ib ib' : Nat → Nat → Nat} {v v' : Vol} {b : Nat}

variable (h : Owns L live ib v)

include h

theorem Owns.fresh (hb : L.IsData b) (hf : v.used b = false) : ∀ x, L.IsSlot live x → ptr ib v.data x ≠ b := by
  intro x hx e
  have := (h.used b hb).2 ⟨x, hx, e⟩
  rw [hf] at this
  exact Bool.false_ne_true this

theorem Owns.ptr_update_free (hb : L.IsData b) (hf : v.used b = false) (d : Bytes)
    {x : Slot} (hx : L.IsSlot live x) : ptr ib (Function.update v.data b d) x = ptr ib v.data x := by
  refine @ptr_congr _ live _ _ _ _ (fun _ _ _ _ => rfl) (fun y hy _ _ => ?_) _ hx
  exact update_of_ne (h.fresh hb hf y hy) _ _

theorem Owns.link {x₀ : Slot} (hx₀ : L.IsSlot live x₀) (h0 : ptr ib v.data x₀ = 0)
    (hb : L.IsData b) (hf : v.used b = false) (hu : v'.used = Function.update v.used b true)
    (hp : ∀ x, L.IsSlot live x → ptr ib' v'.data x = if x = x₀ then b else ptr ib v.data x) :
    Owns L live ib' v' := by
  have hfresh := h.fresh hb hf
  refine ⟨?_, ?_, h.inj.update hp hfresh, ?_⟩
  · intro c hc hr
    rw [hu, update_of_ne]
    · exact h.metadata c hc hr
    · rintro rfl
      exact hr hb.2
  · intro x hx hne
    rw [hp x hx] at hne ⊢
    split_ifs at hne ⊢ with hxx
    · exact hb
    · exact h.data x hx hne
  · intro c hc
    rw [hu]
    by_cases hcb : c = b
    · subst hcb
      rw [update_self]
      exact ⟨fun _ => ⟨x₀, hx₀, by rw [hp x₀ hx₀, if_pos rfl]⟩, fun _ => rfl⟩
    rw [update_of_ne hcb, h.used c hc]
    constructor
    · rintro ⟨x, hx, rfl⟩
      refine ⟨x, hx, ?_⟩
      rw [hp x hx, if_neg]
      rintro rfl
      exact hc.ne_zero h0
    · rintro ⟨x, hx, he⟩
      rw [hp x hx] at he
      split_ifs at he with hxx
      · exact absurd he.symm hcb
      · exact ⟨x, hx, he⟩

theorem ptr_zeroed_root {n k : Nat} (hk : ib n k = 0) (hb : L.IsData b)
    (hf : v.used b = false) {x : Slot} (hx : L.IsSlot live x) :
    ptr (Function.update ib n (Function.update (ib n) k b)) (L.zeroed v b).data x =
      if x = ((n, k), []) then b else ptr ib v.data x := by
  have hroot : (fun r : Nat × Nat => Function.update ib n (Function.update (ib n) k b) r.1 r.2) =
      Function.update (fun r : Nat × Nat => ib r.1 r.2) (n, k) b := by
    funext ⟨m, j⟩
    by_cases hm : m = n
    · subst hm
      by_cases hj : j = k
      · subst hj; simp
      · simp [hj]
    · simp [hm]
  have key := Forest.ptr_update_root (fun r : Nat × Nat => ib r.1 r.2) (r := (n, k)) hk (entry_zero v.data b) x
  rw [← hroot] at key
  refine key.trans ?_
  rw [← h.ptr_update_free hb hf Bytes.zero hx]
  rfl

theorem ptr_zeroed_entry {r : Nat × Nat} {p : List Nat} {i : Nat}
    (hx₀ : L.IsSlot live (r, i :: p)) (hP : ptr ib v.data (r, p) ≠ 0) (h0 : ptr ib v.data (r, i :: p) = 0)
    (hb : L.IsData b) (hf : v.used b = false) {x : Slot} (hx : L.IsSlot live x) :
    ptr ib ((L.zeroed v b).linked (ptr ib v.data (r, p)) i b).data x =
      if x = (r, i :: p) then b else ptr ib v.data x := by
  have hz : ∀ {y}, L.IsSlot live y → ptr ib (Function.update v.data b Bytes.zero) y = ptr ib v.data y :=
    fun hy => h.ptr_update_free hb hf _ hy
  have hne : ptr ib v.data (r, p) ≠ b := h.fresh hb hf _ hx₀.tail
  have hinj : Forest.Inj (L.IsSlot live) (ptr ib (Function.update v.data b Bytes.zero)) := by
    intro y z hy hz' h1 h2
    rw [hz hy] at h1 h2
    rw [hz hz'] at h2
    exact h.inj y z hy hz' h1 h2
  rw [ptr_cons, if_neg hP] at h0
  have key := Forest.ptr_update_entry (fun _ _ _ h => h.tail) hinj hx₀.tail (hz hx₀.tail) hP
    (by rw [entry_update_of_ne _ _ hne, h0]) (entry_zero v.data b) hne.symm
    (fun c j => entry_put hb.lt _ i c j) x hx
  refine key.trans ?_
  rw [← hz hx]
  rfl

end Link

/-! ## Dropping slots, and inodes that come and go -/

section Drop

variable {L : Layout} {live live' : Nat → Prop} {ib ib' : Nat → Nat → Nat} {v v' : Vol}

variable (h : Owns L live ib v)

include h

theorem Owns.shrink (S : Slot → Prop) [DecidablePred S]
    (hp : ∀ x, L.IsSlot live x → ptr ib' v'.data x = if S x then 0 else ptr ib v.data x)
    (hu : ∀ b, v'.used b = true ↔ v.used b = true ∧ ¬∃ x, L.IsSlot live x ∧ S x ∧ ptr ib v.data x = b ∧ b ≠ 0) :
    Owns L live ib' v' := by
  have hne : ∀ x, L.IsSlot live x → ptr ib' v'.data x ≠ 0 → ¬S x ∧ ptr ib' v'.data x = ptr ib v.data x := by
    intro x hx h0
    rw [hp x hx] at h0 ⊢
    split_ifs at h0 ⊢ with hS
    · exact absurd rfl h0
    · exact ⟨hS, rfl⟩
  refine ⟨?_, ?_, ?_, ?_⟩
  · intro b hb hr
    refine (hu b).2 ⟨h.metadata b hb hr, ?_⟩
    rintro ⟨x, hx, -, rfl, h0⟩
    exact hr (h.data x hx h0).2
  · intro x hx h0
    have e := (hne x hx h0).2
    rw [e] at h0 ⊢
    exact h.data x hx h0
  · intro x y hx hy h0 e
    have hx' := (hne x hx h0).2
    have hy' := (hne y hy (e ▸ h0)).2
    rw [hx'] at h0 e
    rw [hy'] at e
    exact h.inj x y hx hy h0 e
  · intro b hb
    rw [hu b, h.used b hb]
    constructor
    · rintro ⟨⟨x, hx, rfl⟩, hn⟩
      refine ⟨x, hx, ?_⟩
      rw [hp x hx, if_neg]
      exact fun hS => hn ⟨x, hx, hS, rfl, hb.ne_zero⟩
    · rintro ⟨x, hx, rfl⟩
      obtain ⟨hS, e⟩ := hne x hx hb.ne_zero
      refine ⟨⟨x, hx, e.symm⟩, ?_⟩
      rintro ⟨y, hy, hSy, ey, h0⟩
      rw [e] at ey
      have := h.inj y x hy hx (by rw [ey, ← e]; exact h0) ey
      exact hS (this ▸ hSy)

theorem Owns.reslot (hx : ∀ x, L.IsSlot live' x ∧ ptr ib' v'.data x ≠ 0 ↔ L.IsSlot live x ∧ ptr ib v.data x ≠ 0)
    (he : ∀ x, L.IsSlot live x → ptr ib v.data x ≠ 0 → ptr ib' v'.data x = ptr ib v.data x)
    (hu : v'.used = v.used) : Owns L live' ib' v' := by
  have hto : ∀ x, L.IsSlot live' x → ptr ib' v'.data x ≠ 0 →
      L.IsSlot live x ∧ ptr ib v.data x ≠ 0 ∧ ptr ib' v'.data x = ptr ib v.data x := by
    intro x h1 h2
    obtain ⟨h3, h4⟩ := (hx x).1 ⟨h1, h2⟩
    exact ⟨h3, h4, he x h3 h4⟩
  refine ⟨?_, ?_, ?_, ?_⟩
  · rw [hu]; exact h.metadata
  · intro x h1 h2
    obtain ⟨h3, h4, e⟩ := hto x h1 h2
    rw [e]
    exact h.data x h3 h4
  · intro x y h1 h1' h2 e
    obtain ⟨h3, h4, e'⟩ := hto x h1 h2
    obtain ⟨h5, h6, e''⟩ := hto y h1' (e ▸ h2)
    exact h.inj x y h3 h5 h4 (by rw [← e', ← e'', e])
  · intro b hb
    rw [hu, h.used b hb]
    constructor
    · rintro ⟨x, h1, rfl⟩
      exact ⟨x, ((hx x).2 ⟨h1, hb.ne_zero⟩).1, he x h1 hb.ne_zero⟩
    · rintro ⟨x, h1, rfl⟩
      obtain ⟨h3, -, e⟩ := hto x h1 hb.ne_zero
      exact ⟨x, h3, e.symm⟩

theorem Owns.congr (hib : ∀ n k, live n → k ≤ EXT2_DIND_BLOCK → ib' n k = ib n k)
    (hu : v'.used = v.used) (hd : v'.data = v.data) : Owns L live ib' v' := by
  have hp : ∀ x, L.IsSlot live x → ptr ib' v'.data x = ptr ib v.data x := by
    intro x hx
    rw [hd]
    exact ptr_congr hib (fun _ _ _ _ => rfl) hx
  refine h.reslot (fun x => ?_) (fun x hx _ => hp x hx) hu
  constructor <;> rintro ⟨hx, h0⟩ <;> refine ⟨hx, ?_⟩
  · rwa [hp x hx] at h0
  · rwa [hp x hx]

omit h in
theorem ptr_eq_zero {n : Nat} {data : Nat → Bytes} (h : ∀ k, k ≤ EXT2_DIND_BLOCK → ib n k = 0) {x : Slot}
    (hx : L.IsSlot live x) (hn : x.1.1 = n) : ptr ib data x = 0 := by
  obtain ⟨⟨m, k⟩, p⟩ := x
  obtain rfl : m = n := hn
  induction p with
  | nil => exact h k hx.root
  | cons i p ih => rw [ptr_cons, if_pos (ih hx.tail)]

theorem Owns.relive {n : Nat} (hl : ∀ m, m ≠ n → (live' m ↔ live m))
    (hib : ∀ m k, m ≠ n → live m → k ≤ EXT2_DIND_BLOCK → ib' m k = ib m k)
    (h0 : live n → ∀ k, k ≤ EXT2_DIND_BLOCK → ib n k = 0) (h0' : live' n → ∀ k, k ≤ EXT2_DIND_BLOCK → ib' n k = 0)
    (hu : v'.used = v.used) (hd : v'.data = v.data) : Owns L live' ib' v' := by
  have hp : ∀ x, L.IsSlot live x → x.1.1 ≠ n → ptr ib' v'.data x = ptr ib v.data x := by
    intro x hx hn
    rw [hd]
    refine @ptr_congr _ (fun m => live m ∧ m ≠ n) _ _ _ _ (fun m k hm hk => hib m k hm.2 hm.1 hk)
      (fun _ _ _ _ => rfl) _ ⟨⟨hx.live, hn⟩, hx.root, hx.length, hx.index⟩
  have hne : ∀ x, L.IsSlot live x → ptr ib v.data x ≠ 0 → x.1.1 ≠ n := by
    intro x hx hx0 e
    exact hx0 (ptr_eq_zero (h0 (e ▸ hx.live)) hx e)
  have hne' : ∀ x, L.IsSlot live' x → ptr ib' v'.data x ≠ 0 → x.1.1 ≠ n := by
    intro x hx hx0 e
    exact hx0 (ptr_eq_zero (h0' (e ▸ hx.live)) hx e)
  refine h.reslot (fun x => ?_) (fun x hx hx0 => hp x hx (hne x hx hx0)) hu
  constructor
  · rintro ⟨hx, hx0⟩
    have hn := hne' x hx hx0
    have hx' : L.IsSlot live x := ⟨(hl _ hn).1 hx.live, hx.root, hx.length, hx.index⟩
    exact ⟨hx', by rwa [hp x hx' hn] at hx0⟩
  · rintro ⟨hx, hx0⟩
    have hn := hne x hx hx0
    exact ⟨⟨(hl _ hn).2 hx.live, hx.root, hx.length, hx.index⟩, by rwa [hp x hx hn]⟩

end Drop

/-! ## Consistency from a table of owners -/

theorem ptr_of_root_zero {ib : Nat → Nat → Nat} {n k : Nat} (data : Nat → Bytes) (h : ib n k = 0) :
    ∀ p, ptr ib data ((n, k), p) = 0
  | [] => h
  | i :: p => by rw [ptr_cons, if_pos (ptr_of_root_zero data h p)]

theorem Owns.of_owner {L : Layout} {live : Nat → Prop} {ib : Nat → Nat → Nat} {v : Vol} (owner : Nat → Option Slot)
    (hmeta : ∀ b, L.IsBlock b → L.role b ≠ .data → v.used b = true)
    (hroot : ∀ n k, live n → k ≤ EXT2_IND_BLOCK → ib n k ≠ 0 → L.IsData (ib n k) ∧ owner (ib n k) = some ((n, k), []))
    (hdind : ∀ n, live n → ib n EXT2_DIND_BLOCK = 0)
    (hent : ∀ n i, live n → ib n EXT2_IND_BLOCK ≠ 0 → i < L.fs.ptrs_per_block →
      entry v.data (ib n EXT2_IND_BLOCK) i ≠ 0 → L.IsData (entry v.data (ib n EXT2_IND_BLOCK) i) ∧
        owner (entry v.data (ib n EXT2_IND_BLOCK) i) = some ((n, EXT2_IND_BLOCK), [i]))
    (hused : ∀ b, L.IsData b → (v.used b = true ↔ (owner b).isSome))
    (hown : ∀ b x, owner b = some x → L.IsSlot live x ∧ ptr ib v.data x = b) : Owns L live ib v := by
  have key : ∀ x, L.IsSlot live x → ptr ib v.data x ≠ 0 →
      L.IsData (ptr ib v.data x) ∧ owner (ptr ib v.data x) = some x := by
    rintro ⟨⟨n, k⟩, p⟩ hx h0
    have hk : k ≤ EXT2_DIND_BLOCK := hx.root
    have hlen : p.length ≤ depth k := hx.length
    have hk' : k ≠ EXT2_DIND_BLOCK := by
      rintro rfl
      exact h0 (ptr_of_root_zero _ (hdind n hx.live) p)
    match p with
    | [] => exact hroot n k hx.live (by simp only [EXT2_DIND_BLOCK, EXT2_IND_BLOCK] at *; omega) h0
    | [i] =>
      obtain rfl : k = EXT2_IND_BLOCK := by
        simp only [depth, EXT2_DIND_BLOCK, EXT2_IND_BLOCK, length_cons, length_nil] at *
        split_ifs at hlen <;> omega
      rw [ptr_cons] at h0 ⊢
      by_cases h : ptr ib v.data ((n, EXT2_IND_BLOCK), []) = 0
      · exact absurd (if_pos h) h0
      · rw [if_neg h] at h0 ⊢
        exact hent n i hx.live h (hx.index i (by simp)) h0
    | j :: i :: p =>
      simp only [depth, EXT2_DIND_BLOCK, length_cons] at *
      split_ifs at hlen <;> omega
  refine ⟨hmeta, fun x hx h0 => (key x hx h0).1, fun x y hx hy h0 e => ?_, fun b hb => ?_⟩
  · have h1 := (key x hx h0).2
    rw [e] at h0 h1
    exact Option.some.inj (h1.symm.trans (key y hy h0).2)
  · rw [hused b hb, Option.isSome_iff_exists]
    constructor
    · rintro ⟨x, hx⟩
      exact ⟨x, hown b x hx⟩
    · rintro ⟨x, hx, rfl⟩
      exact ⟨x, (key x hx hb.ne_zero).2⟩

end Ext2
