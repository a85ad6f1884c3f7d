import Loeux.Ext2.MapSpec
/-!
# Inode objects and their records

What `ext2_priv_to_disk` stores is what `ext2_disk_to_priv` reads back, and the
functions that count blocks or only look at the map change nothing on disk.
-/
open Lib Bytes Prog

namespace Ext2

/-! ## Records -/

theorem get_putIBlock (f : Nat → Nat) (b : Bytes) {m k : Nat} (hk : k < m) :
    (putIBlock f m b).get 4 (40 + 4 * k) = f k % 256 ^ 4 := by
  induction m with
  | zero => omega
  | succ m ih =>
    rw [putIBlock]
    by_cases h : k = m
    · subst h
      exact get_put ..
    · rw [get_put_of_disjoint _ _ (by omega)]
      exact ih (by omega)

theorem get_putIBlock_of_lt (f : Nat → Nat) (b : Bytes) (m : Nat) {n o : Nat} (h : o + n ≤ 40) :
    (putIBlock f m b).get n o = b.get n o := by
  induction m with
  | zero => rfl
  | succ m ih => rw [putIBlock, get_put_of_disjoint _ _ (by omega), ih]

theorem i_block_privToDisk (p : Priv) {k : Nat} (hk : k < EXT2_N_BLOCKS) :
    Di.i_block ((privToDisk p).slice 128 0) k = p.i_block k % 256 ^ 4 := by
  have : k < 15 := hk
  rw [Di.i_block, get_slice _ (by omega), Nat.zero_add, privToDisk, get_putIBlock _ _ hk]

theorem i_size_privToDisk (p : Priv) : Di.i_size ((privToDisk p).slice 128 0) = p.i_size % 256 ^ 4 := by
  rw [Di.i_size, get_slice _ (by omega), privToDisk, get_putIBlock_of_lt _ _ _ (by omega)]
  iterate 6 rw [get_put_of_disjoint _ _ (by omega)]
  exact get_put ..

/-! ## Functions that change no block -/

section Read

variable {F : Prop} {s : St} (fs : Fs) (r : Nat)

theorem indGet_same (P i : Nat) : wp (world F) (indGet P i) (fun _ s' => s' = s) s := by
  simp [indGet]

theorem getBlock_false_same (lblk : Nat) : wp (world F) (getBlock fs r lblk false) (fun _ s' => s' = s) s := by
  unfold getBlock
  simp only [Bool.false_eq_true, if_false, iBlock]
  split_ifs
  · simp
  · simp only [wp_bind, wp_inodeAt, wp_pure]
    split_ifs
    · simp
    · rw [wp_bind]
      exact wp_weaken (indGet_same _ _) fun _ _ h => h
  · simp only [wp_bind, wp_inodeAt, wp_pure]
    split_ifs
    · simp
    · refine wp_then (indGet_same _ _) ?_
      rintro (_ | ind) s' rfl
      · simp
      · dsimp only
        split_ifs
        · simp
        · rw [wp_bind]
          exact wp_weaken (indGet_same _ _) fun _ _ h => h
  · simp

theorem countBlocks_same (n l used : Nat) : wp (world F) (countBlocks fs r n l used) (fun _ s' => s' = s) s := by
  induction n generalizing l used with
  | zero => simp [countBlocks]
  | succ n ih =>
    rw [countBlocks]
    refine wp_then (getBlock_false_same fs r l) ?_
    rintro (_ | phys) s' rfl
    · simp
    · exact ih _ _

/-- The object with another block count. -/
def Inode.setCount (i : Inode) (u : Nat) : Inode := { i with priv := { i.priv with i_blocks := u } }

theorem refreshIBlocks_spec : wp (world F) (refreshIBlocks fs r)
      (fun _ s' => ∃ u, s' = s.modify r fun i => i.setCount u) s := by
  simp only [refreshIBlocks, wp_bind, wp_inodeAt]
  refine wp_weaken (countBlocks_same fs r _ 0 0) ?_
  rintro used s' rfl
  rw [wp_update]
  exact ⟨_, rfl⟩

end Read

/-! ## Saving -/

section Save

variable {L : Layout} {F : Prop} {s : St}

theorem wp_privSave (hv : L.Valid s) {r : Nat} (hn : L.IsIno (s.inodes r).priv.ino) (Q : Bool → St → Prop) :
    wp (world F) (privSave L.fs r) Q s ↔ Q true (L.stored s (s.inodes r).priv.ino (privToDisk (s.inodes r).priv)) ∧
        (F → s.crit = 0 → Q false s) := by
  simp only [privSave, wp_bind, wp_inodeAt]
  exact wp_inodeWrite hv hn _ Q

theorem wp_inodeCreate (ino : Nat) (di : Bytes) (Q : Option Nat → St → Prop) : wp (world F) (inodeCreate ino di) Q s ↔
      Q (some s.next) (s.create (inodeOf ino di)) ∧ (F → s.crit = 0 → Q none s) := by
  simp [inodeCreate]
  tauto

end Save

end Ext2
