import Loeux.Utils.Hashmap
import Loeux.Lib.Runs
import Mathlib.Data.Set.Card
/-!
# A hash table is a finite map

The abstract state is a function from classes of equal keys to values. What a table
holds is its nodes, whatever buckets they are in; growing and shrinking only moves
them.
-/

namespace Utils

open Lib Mm Buckets List Nat

/-! ## Maps -/

namespace Keys

variable (K : Keys)

/-- A key, up to equality. -/
def Class : Type := Quotient K.setoid

def cls (k : Key) : K.Class := Quotient.mk K.setoid k

/-- The values of the keys that are present. -/
def Map : Type := K.Class → Option Nat

def Map.empty : K.Map := fun _ => none

open Classical in
/-- Store a value under a key, or remove it. -/
noncomputable def Map.put {K : Keys} (M : K.Map) (q : K.Class) (o : Option Nat) : K.Map := Function.update M q o

variable {K} {M : K.Map} {q q' : K.Class} {o : Option Nat}

theorem Map.put_self : M.put q o q = o := by
  classical exact Function.update_self ..

theorem Map.put_of_ne (h : q' ≠ q) : M.put q o q' = M q' := by
  classical exact Function.update_of_ne h ..

theorem cls_eq {k k' : Key} : K.cls k = K.cls k' ↔ k.len = k'.len ∧ K.key_equal k.ptr k'.ptr k'.len = true :=
  @Quotient.eq _ K.setoid k k'

theorem hash_eq {k k' : Key} (h : K.cls k = K.cls k') : K.hash k = K.hash k' :=
  K.agree k k' (cls_eq.1 h).1 (cls_eq.1 h).2

end Keys

/-! ## Entries -/

section

variable {K : Keys} {M : K.Map} {l l' : List Node} {k : Key} {n : Node} {v : Nat}

structure Content (K : Keys) (l : List Node) (M : K.Map) : Prop where
  hashed : ∀ n ∈ l, n.hash = K.hash n.key
  distinct : (l.map fun n => K.cls n.key).Nodup
  stored : ∀ q v, M q = some v ↔ ∃ n ∈ l, K.cls n.key = q ∧ n.value = v

theorem holds_iff (h : n.hash = K.hash n.key) : Node.holds K (K.hash k) k n = true ↔ K.cls n.key = K.cls k := by
  constructor
  · intro hh
    simp only [Node.holds, Bool.and_eq_true, beq_iff_eq] at hh
    exact Keys.cls_eq.2 ⟨hh.1.2, hh.2⟩
  · intro he
    have := Keys.cls_eq.1 he
    simp [Node.holds, h, Keys.hash_eq he, this.1, this.2]

namespace Content

theorem empty : Content K [] (Keys.Map.empty K) :=
  ⟨fun _ h => (not_mem_nil h).elim, .nil, fun q v => by simp [Keys.Map.empty]⟩

variable (h : Content K l M)

include h

theorem perm (hp : l.Perm l') : Content K l' M :=
  ⟨fun n hn => h.hashed n (hp.mem_iff.2 hn), (hp.map _).nodup_iff.1 h.distinct,
    fun q v => by simp only [h.stored q v, hp.mem_iff]⟩

theorem absent {q : K.Class} (hq : M q = none) (hn : n ∈ l) : K.cls n.key ≠ q := by
  intro he
  have := (h.stored q n.value).2 ⟨n, hn, he, rfl⟩
  rw [hq] at this
  cases this

theorem mem (hn : n ∈ l) : M (K.cls n.key) = some n.value := (h.stored _ _).2 ⟨n, hn, rfl, rfl⟩

theorem cons (hk : M (K.cls k) = none) : Content K (⟨k, v, K.hash k⟩ :: l) (M.put (K.cls k) (some v)) := by
  refine ⟨fun n hn => ?_, ?_, fun q w => ?_⟩
  · rcases mem_cons.1 hn with rfl | hn
    · rfl
    · exact h.hashed n hn
  · rw [map_cons, nodup_cons]
    refine ⟨fun hm => ?_, h.distinct⟩
    obtain ⟨n, hn, he⟩ := mem_map.1 hm
    exact h.absent hk hn he
  · by_cases e : q = K.cls k
    · subst e
      rw [Keys.Map.put_self]
      constructor
      · intro hw
        exact ⟨_, mem_cons_self, rfl, Option.some.inj hw⟩
      · rintro ⟨n, hn, he, hv⟩
        rcases mem_cons.1 hn with rfl | hn
        · exact congrArg some hv
        · exact (h.absent hk hn he).elim
    · rw [Keys.Map.put_of_ne e, h.stored q w]
      constructor
      · rintro ⟨n, hn, hr⟩
        exact ⟨n, mem_cons_of_mem _ hn, hr⟩
      · rintro ⟨n, hn, he, hv⟩
        rcases mem_cons.1 hn with rfl | hn
        · exact (e he.symm).elim
        · exact ⟨n, hn, he, hv⟩

omit h in
theorem tail (h : Content K (n :: l) M) : Content K l (M.put (K.cls n.key) none) := by
  have hd := h.distinct
  rw [map_cons, nodup_cons] at hd
  have hne : ∀ m ∈ l, K.cls m.key ≠ K.cls n.key := fun m hm he => hd.1 (mem_map.2 ⟨m, hm, he⟩)
  refine ⟨fun m hm => h.hashed m (mem_cons_of_mem _ hm), hd.2, fun q w => ?_⟩
  by_cases e : q = K.cls n.key
  · subst e
    rw [Keys.Map.put_self]
    constructor
    · intro hw
      cases hw
    · rintro ⟨m, hm, he, -⟩
      exact (hne m hm he).elim
  · rw [Keys.Map.put_of_ne e, h.stored q w]
    constructor
    · rintro ⟨m, hm, he, hv⟩
      rcases mem_cons.1 hm with rfl | hm
      · exact (e he.symm).elim
      · exact ⟨m, hm, he, hv⟩
    · rintro ⟨m, hm, hr⟩
      exact ⟨m, mem_cons_of_mem _ hm, hr⟩

omit h in
theorem put_put {q : K.Class} {o o' : Option Nat} : (M.put q o).put q o' = M.put q o' := by
  funext q'
  by_cases e : q' = q
  · rw [e, Keys.Map.put_self, Keys.Map.put_self]
  · rw [Keys.Map.put_of_ne e, Keys.Map.put_of_ne e, Keys.Map.put_of_ne e]

omit h in
theorem store (h : Content K (n :: l) M) : Content K ({ n with value := v } :: l) (M.put (K.cls n.key) (some v)) := by
  have hc := @Content.cons K _ l n.key v h.tail Keys.Map.put_self
  rwa [put_put, ← h.hashed n mem_cons_self] at hc

theorem find?_none (hf : l.find? (Node.holds K (K.hash k) k) = none) : M (K.cls k) = none := by
  cases hm : M (K.cls k) with
  | none => rfl
  | some v =>
    obtain ⟨n, hn, he, -⟩ := (h.stored _ _).1 hm
    exact (find?_eq_none.1 hf n hn ((holds_iff (h.hashed n hn)).2 he)).elim

theorem find?_some (hf : l.find? (Node.holds K (K.hash k) k) = some n) :
    n ∈ l ∧ K.cls n.key = K.cls k ∧ M (K.cls k) = some n.value := by
  have hn := mem_of_find?_eq_some hf
  have he := (holds_iff (h.hashed n hn)).1 (List.find?_some hf)
  exact ⟨hn, he, he ▸ h.mem hn⟩

theorem card : {q : K.Class | M q ≠ none}.ncard = l.length := by
  classical
  have hs : {q : K.Class | M q ≠ none} = ((l.map fun n => K.cls n.key).toFinset : Set K.Class) := by
    ext q
    simp only [Set.mem_ofPred_eq, coe_toFinset, mem_map, Option.ne_none_iff_exists']
    constructor
    · rintro ⟨v, hv⟩
      obtain ⟨n, hn, he, -⟩ := (h.stored q v).1 hv
      exact ⟨n, hn, he⟩
    · rintro ⟨n, hn, he⟩
      exact ⟨n.value, (h.stored q _).2 ⟨n, hn, he, rfl⟩⟩
  rw [hs, Set.ncard_coe_finset, toFinset_card_of_nodup h.distinct, length_map]

end Content

theorem overwritten_perm {p : Node → Bool} (hf : l.find? p = some n) :
    ∃ rest, l.Perm (n :: rest) ∧ (overwritten p v l).Perm ({ n with value := v } :: rest) := by
  induction l with
  | nil => cases hf
  | cons m l ih =>
    rw [find?_cons] at hf
    cases hp : p m with
    | true =>
      rw [hp] at hf
      cases hf
      refine ⟨l, .refl _, ?_⟩
      rw [overwritten, if_pos hp]
    | false =>
      rw [hp] at hf
      obtain ⟨rest, h1, h2⟩ := ih hf
      refine ⟨m :: rest, (h1.cons m).trans (.swap ..), ?_⟩
      rw [overwritten, if_neg (by rw [hp]; decide)]
      exact (h2.cons m).trans (.swap ..)

theorem eraseP_perm {p : Node → Bool} (hf : l.find? p = some n) : l.Perm (n :: l.eraseP p) := by
  induction l with
  | nil => cases hf
  | cons m l ih =>
    rw [find?_cons] at hf
    cases hp : p m with
    | true =>
      rw [hp] at hf
      cases hf
      rw [eraseP_cons_of_pos hp]
    | false =>
      rw [hp] at hf
      rw [eraseP_cons_of_neg (by rw [hp]; decide)]
      exact ((ih hf).cons m).trans (.swap ..)

end

/-! ## Sizes -/

theorem toNat_double {p : UInt32} {j : Nat} (hp : p.toNat = 2 ^ j) : (p <<< 1).toNat = 2 ^ (j + 1) % 2 ^ 32 := by
  rw [UInt32.toNat_shiftLeft, hp, shiftLeft_eq, pow_succ]
  rfl

theorem doubled_pow {n p q : UInt32} {k : Nat} (h : doubled n k p = .ok q)
    (hp : (∃ j, j < 32 ∧ p.toNat = 2 ^ j) ∨ p = 0 ∧ 0 < n) : ∃ j, j < 32 ∧ q.toNat = 2 ^ j := by
  induction k generalizing p with
  | zero =>
    unfold doubled at h
    split at h
    · cases h
    · next hn =>
      cases h
      rcases hp with hp | ⟨rfl, h0⟩
      · exact hp
      · exact (hn h0).elim
  | succ k ih =>
    unfold doubled at h
    split at h
    · next hlt =>
      have h0 : 0 < n := by
        rw [UInt32.lt_iff_toNat_lt] at hlt ⊢
        exact Nat.lt_of_le_of_lt (Nat.zero_le _) hlt
      refine ih h ?_
      rcases hp with ⟨j, hj, hp⟩ | ⟨rfl, -⟩
      · have hd := toNat_double hp
        by_cases e : j = 31
        · subst e
          exact .inr ⟨UInt32.toNat_inj.1 hd, h0⟩
        · refine .inl ⟨j + 1, by omega, hd.trans (mod_eq_of_lt ?_)⟩
          exact Nat.pow_lt_pow_right (by omega) (by omega)
      · exact .inr ⟨rfl, h0⟩
    · next hn =>
      cases h
      rcases hp with hp | ⟨rfl, h0⟩
      · exact hp
      · exact (hn h0).elim

theorem doubled_ends {n p : UInt32} {j k : Nat} (hn : n.toNat ≤ 2 ^ 31) (hp : p.toNat = 2 ^ j) (hj : j < 32)
    (hk : 31 ≤ j + k) : ∃ q, doubled n k p = .ok q := by
  induction k generalizing p j with
  | zero =>
    obtain rfl : j = 31 := by omega
    refine ⟨p, ?_⟩
    rw [doubled, if_neg]
    rw [UInt32.lt_iff_toNat_lt, hp]
    omega
  | succ k ih =>
    unfold doubled
    split
    · next hlt =>
      rw [UInt32.lt_iff_toNat_lt, hp] at hlt
      have hj' : j < 31 := by
        by_contra hc
        obtain rfl : j = 31 := by omega
        omega
      have hd := toNat_double hp
      rw [mod_eq_of_lt (Nat.pow_lt_pow_right (by omega) (by omega))] at hd
      exact ih hd (by omega) (by omega)
    · exact ⟨p, rfl⟩

theorem slabRoundUp_ne {n : Nat} (h : slabRoundUp n ≠ 0) : 0 < n ∧ n ≤ 4096 := by
  by_contra hc
  refine h (if_pos ?_)
  unfold SLAB_SIZE_4096
  omega

theorem granted_le {ok : Bool} {j : Nat} (hj : j < 32) (h : granted ok (8 * 2 ^ j) = true) : 2 ^ j ≤ 512 := by
  simp only [granted, Bool.and_eq_true, bne_iff_ne] at h
  have hb := slabRoundUp_ne h.2
  have hj : j < 10 ∨ 10 ≤ j ∧ j < 29 ∨ 29 ≤ j := by omega
  rcases hj with hj | ⟨h1, h2⟩ | hj
  · exact Nat.le_trans (Nat.pow_le_pow_right (by omega) (by omega : j ≤ 9)) (by decide)
  · have hlt : (2 : Nat) ^ j ≤ 2 ^ 28 := Nat.pow_le_pow_right (by omega) (by omega)
    have hge : (2 : Nat) ^ 10 ≤ 2 ^ j := Nat.pow_le_pow_right (by omega) h1
    rw [mod_eq_of_lt (by omega)] at hb
    omega
  · obtain ⟨i, rfl⟩ := Nat.exists_eq_add_of_le hj
    rw [pow_add, show 8 * ((2 : Nat) ^ 29 * 2 ^ i) = 2 ^ i * 2 ^ 32 by ring, mul_mod_left] at hb
    exact (Nat.lt_irrefl 0 hb.1).elim

theorem roundUpPow2_granted {n p : UInt32} {ok : Bool} (h : roundUpPow2 n = .ok p)
    (hg : granted ok (8 * p.toNat) = true) : 0 < p.toNat ∧ p.toNat ≤ 512 := by
  obtain ⟨j, hj, hp⟩ := doubled_pow h (.inl ⟨3, by omega, rfl⟩)
  rw [hp] at hg ⊢
  exact ⟨Nat.two_pow_pos j, granted_le hj hg⟩

theorem roundUpPow2_ends {n : UInt32} (hn : n.toNat ≤ 2 ^ 31) : ∃ p, roundUpPow2 n = .ok p :=
  doubled_ends hn (j := 3) rfl (by omega) (by omega)

/-! ## Tables -/

def Table.nodes (t : Table) : List Node := t.buckets.flatten

/-- The table holds the map. -/
structure Holds (K : Keys) (t : Table) (M : K.Map) : Prop where
  length : t.buckets.length = t.size.toNat
  pos : 0 < t.size.toNat
  le : t.size.toNat ≤ 512
  placed : Placed (·.hash.toNat) t.buckets
  content : Content K t.nodes M
  count : t.count = UInt32.ofNat t.nodes.length

section

variable {K : Keys} {M M' : K.Map} {t : Table} {R : Room} {k : Key} {v : Nat} {c c' : List Node}

theorem hashTableCreate_holds {ht : Bool} {n : UInt32} (h : hashTableCreate ht R n = .ok (some t)) :
    Holds K t (Keys.Map.empty K) := by
  unfold hashTableCreate at h
  simp only [bind, Except.bind, pure, Except.pure] at h
  split at h
  · cases h
  · next p hp =>
    split at h
    · cases h
    · split at h
      · cases h
      · next hg =>
        cases h
        obtain ⟨h0, h1⟩ := roundUpPow2_granted hp (Bool.not_eq_false _ ▸ hg)
        have hn : (Table.mk (List.replicate p.toNat []) p 0).nodes = [] := by simp [Table.nodes]
        refine ⟨length_replicate, h0, h1, placed_replicate, ?_, ?_⟩
        · rw [hn]
          exact .empty
        · rw [hn]
          rfl

theorem hashTableResize_holds {n : UInt32} (h : Holds K t M) (hn : n.toNat ≤ 2 ^ 31) :
    ∃ ok t', hashTableResize R t n = .ok (ok, t') ∧ Holds K t' M := by
  obtain ⟨p, hp⟩ := roundUpPow2_ends hn
  unfold hashTableResize
  simp only [hp, bind, Except.bind, pure, Except.pure]
  split
  · exact ⟨_, _, rfl, h⟩
  · split
    · exact ⟨_, _, rfl, h⟩
    · next hg =>
      obtain ⟨h0, h1⟩ := roundUpPow2_granted hp (Bool.not_eq_false _ ▸ hg)
      have hperm := spread_perm (h := fun n : Node => n.hash.toNat) (b := t.buckets) h0
      refine ⟨_, _, rfl, length_spread h0, h0, h1, placed_spread h0, h.content.perm hperm.symm, ?_⟩
      exact h.count.trans (congrArg UInt32.ofNat hperm.symm.length_eq)

theorem Holds.bucket (h : Holds K t M) (k : Key) : ∃ c, t.buckets[(t.index K k).toNat]? = some c ∧
    t.bucket (t.index K k) = .ok c ∧
    t.nodes.find? (Node.holds K (K.hash k) k) = c.find? (Node.holds K (K.hash k) k) := by
  have hi : (t.index K k).toNat = (K.hash k).toNat % t.buckets.length := by
    rw [h.length]
    exact UInt32.toNat_mod ..
  have hlt : (t.index K k).toNat < t.buckets.length := by
    rw [hi, h.length]
    exact mod_lt _ h.pos
  have hc := getElem?_eq_getElem hlt
  refine ⟨_, hc, ?_, find?_flatten h.placed hc fun n hn => ?_⟩
  · unfold Table.bucket
    rw [hc]
  · simp only [Node.holds, Bool.and_eq_true, beq_iff_eq] at hn
    rw [hi, hn.1.1]

theorem Holds.replace {n : Nat} (h : Holds K t M) (hc : t.buckets[(t.index K k).toNat]? = some c)
    (hc' : ∀ n ∈ c', n.hash.toNat % t.size.toNat = (K.hash k).toNat % t.size.toNat)
    (hM : ∀ rest, t.nodes.Perm (c ++ rest) → Content K (c' ++ rest) M' ∧ (c' ++ rest).length = n) :
    Holds K { t.setBucket (t.index K k) c' with count := UInt32.ofNat n } M' := by
  obtain ⟨rest, h1, h2⟩ : ∃ rest, t.buckets.flatten.Perm (c ++ rest) ∧
      (t.buckets.set (t.index K k).toNat c').flatten.Perm (c' ++ rest) := flatten_set_perm hc
  obtain ⟨h3, h4⟩ := hM rest h1
  have hlen : (t.buckets.set (t.index K k).toNat c').length = t.buckets.length := length_set ..
  refine ⟨hlen.trans h.length, h.pos, h.le, ?_, h3.perm h2.symm, ?_⟩
  · refine h.placed.set fun n hn => ?_
    rw [h.length, hc' n hn]
    exact (UInt32.toNat_mod ..).symm
  · rw [← h4]
    exact congrArg UInt32.ofNat h2.symm.length_eq

theorem Holds.in_bucket (h : Holds K t M) (hc : t.buckets[(t.index K k).toNat]? = some c) {n : Node} (hn : n ∈ c) :
    n.hash.toNat % t.size.toNat = (K.hash k).toNat % t.size.toNat := by
  have := h.placed _ c hc n hn
  rw [h.length] at this
  exact this.trans (UInt32.toNat_mod ..)

/-! ## Operations -/

theorem granted_node (ok : Bool) : granted ok 32 = ok := by
  cases ok <;> rfl

theorem linkLocked_holds (h : Holds K t M) (hk : M (K.cls k) = none) :
    ∃ t', linkLocked K R t (t.index K k) k v = .ok (R.node, t') ∧
      Holds K t' (if R.node then M.put (K.cls k) (some v) else M) := by
  obtain ⟨c, hc, hb, -⟩ := h.bucket k
  unfold linkLocked
  rw [granted_node]
  cases R.node with
  | false => exact ⟨t, rfl, h⟩
  | true =>
    rw [hb]
    refine ⟨_, rfl, ?_⟩
    have hcount : t.count + 1 = UInt32.ofNat (t.nodes.length + 1) := by
      rw [h.count, UInt32.ofNat_add]
      rfl
    rw [hcount]
    refine h.replace hc (fun n hn => ?_) fun rest hp => ⟨?_, ?_⟩
    · rcases mem_cons.1 hn with rfl | hn
      · rfl
      · exact h.in_bucket hc hn
    · exact (h.content.perm hp).cons hk
    · rw [hp.length_eq]
      rfl

theorem addLocked_holds (h : Holds K t M) (hk : M (K.cls k) = none) :
    ∃ t', addLocked K R t (t.index K k) k v = .ok (R.node, t') ∧
      Holds K t' (if R.node then M.put (K.cls k) (some v) else M) := by
  unfold addLocked
  split
  · have hn : (t.size * 2).toNat ≤ 2 ^ 31 := by
      have := h.le
      rw [UInt32.toNat_mul]
      exact Nat.le_trans (mod_le _ _) (by show t.size.toNat * 2 ≤ _; omega)
    obtain ⟨ok, t', he, h'⟩ := @hashTableResize_holds K M t R _ h hn
    rw [he]
    exact linkLocked_holds h' hk
  · exact linkLocked_holds h hk

/-- What an insertion answers and leaves. `room` is whether there is memory for a node. -/
def Inserts (M : K.Map) (room : Bool) (k : Key) (v : Nat) (overwrite r : Bool) (M' : K.Map) : Prop :=
  (r = if (M (K.cls k)).isSome then overwrite else room) ∧ M' = if r then M.put (K.cls k) (some v) else M

theorem any_of_find? {p : Node → Bool} {n : Node} (h : c.find? p = some n) : c.any p = true :=
  any_eq_true.2 ⟨n, mem_of_find?_eq_some h, List.find?_some h⟩

theorem any_of_find?_none {p : Node → Bool} (h : c.find? p = none) : c.any p = false := by
  rw [any_eq_false]
  exact find?_eq_none.1 h

theorem hashTableInsertLocked_holds {overwrite : Bool} (h : Holds K t M) :
    ∃ r t' M', hashTableInsertLocked K R t (t.index K k) k v overwrite = .ok (r, t') ∧
      Inserts M R.node k v overwrite r M' ∧ Holds K t' M' := by
  obtain ⟨c, hc, hb, hf⟩ := h.bucket k
  unfold hashTableInsertLocked
  rw [hb]
  simp only [bind, Except.bind, pure, Except.pure]
  cases hn : c.find? (Node.holds K (K.hash k) k) with
  | none =>
    rw [hn] at hf
    have hk := h.content.find?_none hf
    obtain ⟨t', he, h'⟩ := @addLocked_holds K M t R k v h hk
    rw [if_neg (by rw [any_of_find?_none hn]; decide)]
    exact ⟨_, _, _, he, ⟨by rw [hk]; rfl, rfl⟩, h'⟩
  | some n =>
    rw [hn] at hf
    obtain ⟨-, hcls, hM⟩ := h.content.find?_some hf
    rw [if_pos (any_of_find? hn)]
    cases overwrite with
    | false => exact ⟨_, _, M, rfl, ⟨by rw [hM]; rfl, rfl⟩, h⟩
    | true =>
      refine ⟨_, _, _, rfl, ⟨by rw [hM]; rfl, rfl⟩, ?_⟩
      obtain ⟨rest, h1, h2⟩ := @overwritten_perm c n v _ hn
      have hcount := h.count
      have := @Holds.replace K M (M.put (K.cls k) (some v)) t k c (overwritten (Node.holds K (K.hash k) k) v c)
        t.nodes.length h hc ?_ ?_
      · rwa [← hcount] at this
      · intro m hm
        rcases mem_cons.1 (h2.mem_iff.1 hm) with rfl | hm
        · exact @Holds.in_bucket K M t k c h hc n (h1.mem_iff.2 mem_cons_self)
        · exact h.in_bucket hc (h1.mem_iff.2 (mem_cons_of_mem _ hm))
      · intro rest' hp
        refine ⟨?_, ?_⟩
        · have hp' := hp.trans (h1.append_right rest')
          have := (h.content.perm hp').store (v := v)
          rw [hcls] at this
          exact this.perm (h2.append_right rest').symm
        · rw [hp.length_eq, length_append, length_append, h2.length_eq, h1.length_eq]
          rfl

theorem hashTableInsertIfAbsentLocked_holds (h : Holds K t M) :
    ∃ r t' M', hashTableInsertIfAbsentLocked K R t (t.index K k) k v = .ok (r, t') ∧
      Inserts M R.node k v false r M' ∧ Holds K t' M' := by
  obtain ⟨r, t', M', he, hr⟩ := @hashTableInsertLocked_holds K M t R k v false h
  refine ⟨r, t', M', ?_, hr⟩
  rw [← he]
  unfold hashTableInsertIfAbsentLocked hashTableInsertLocked
  rfl

theorem hashTableLookupLocked_holds (h : Holds K t M) :
    hashTableLookupLocked K t (t.index K k) k = .ok ((M (K.cls k)).getD 0) := by
  obtain ⟨c, hc, hb, hf⟩ := h.bucket k
  unfold hashTableLookupLocked
  rw [hb]
  simp only [bind, Except.bind, pure, Except.pure]
  cases hn : c.find? (Node.holds K (K.hash k) k) with
  | none =>
    rw [hn] at hf
    rw [h.content.find?_none hf]
    rfl
  | some n =>
    rw [hn] at hf
    rw [(h.content.find?_some hf).2.2]
    rfl

theorem hashTableDeleteLocked_holds (h : Holds K t M) :
    ∃ t', hashTableDeleteLocked K R t (t.index K k) k = .ok ((M (K.cls k)).isSome, t') ∧
      Holds K t' (M.put (K.cls k) none) := by
  obtain ⟨c, hc, hb, hf⟩ := h.bucket k
  unfold hashTableDeleteLocked
  rw [hb]
  simp only [bind, Except.bind, pure, Except.pure]
  cases hn : c.find? (Node.holds K (K.hash k) k) with
  | none =>
    rw [hn] at hf
    have hk := h.content.find?_none hf
    have hput : M.put (K.cls k) none = M := by
      funext q
      by_cases e : q = K.cls k
      · rw [e, Keys.Map.put_self, hk]
      · exact Keys.Map.put_of_ne e
    rw [if_neg (by rw [any_of_find?_none hn]; decide), hk, hput]
    exact ⟨t, rfl, h⟩
  | some n =>
    rw [hn] at hf
    obtain ⟨hmem, hcls, hM⟩ := h.content.find?_some hf
    rw [if_pos (any_of_find? hn), hM]
    have h1 := eraseP_perm hn
    have hlen : 0 < t.nodes.length := length_pos_of_mem hmem
    have hcount : t.count - 1 = UInt32.ofNat (t.nodes.length - 1) := by
      rw [h.count]
      obtain ⟨m, hm⟩ := Nat.exists_eq_add_of_lt hlen
      rw [hm, Nat.zero_add, Nat.add_sub_cancel, UInt32.ofNat_add]
      exact UInt32.add_sub_cancel ..
    have h' := @Holds.replace K M (M.put (K.cls k) none) t k c (c.eraseP (Node.holds K (K.hash k) k))
      (t.nodes.length - 1) h hc
      (fun m hm => h.in_bucket hc (h1.mem_iff.2 (mem_cons_of_mem _ hm)))
      (fun rest hp => by
        refine ⟨?_, ?_⟩
        · have := (h.content.perm (hp.trans (h1.append_right rest))).tail
          rwa [hcls] at this
        · rw [hp.length_eq, length_append, length_append, h1.length_eq, length_cons]
          omega)
    rw [← hcount] at h'
    split
    · have hsz : (t.size / 2).toNat ≤ 2 ^ 31 := by
        have := h.le
        rw [UInt32.toNat_div]
        exact Nat.le_trans (Nat.div_le_self _ _) (by omega)
      obtain ⟨ok, t', he, h''⟩ := @hashTableResize_holds K _ _ R _ h' hsz
      have he : hashTableResize R
          { t.setBucket (t.index K k) (c.eraseP (Node.holds K (K.hash k) k)) with count := t.count - 1 }
          ((t.setBucket (t.index K k) (c.eraseP (Node.holds K (K.hash k) k))).size / 2) = .ok (ok, t') := he
      refine ⟨t', ?_, h''⟩
      rw [he]
      rfl
    · exact ⟨_, rfl, h'⟩

theorem hashTableForeach_eq : hashTableForeach t = t.nodes.map fun n => (n.key, n.value) := by
  rw [hashTableForeach, Table.nodes, map_flatten, flatMap_def]

end

/-! ## Sequences of operations -/

inductive Op
  | insert (key : Nat) (key_len : UInt32) (value : Nat) (overwrite : Bool)
  | insertIfAbsent (key : Nat) (key_len : UInt32) (value : Nat)
  | lookup (key : Nat) (key_len : UInt32)
  | delete (key : Nat) (key_len : UInt32)
  | count
  | foreach

inductive Result
  | bool (b : Bool)
  | pointer (v : Nat)
  | number (n : UInt32)
  | visits (l : List (Key × Nat))

/-- A call, with what `slab_alloc` says in it and its result. -/
structure Call where
  room : Room
  op : Op
  result : Result

section

variable (K : Keys)

def Op.run (R : Room) (t : Table) : Op → Except Halt (Result × Table)
  | .insert key key_len value overwrite => do
    let (b, t) ← hashTableInsert K R t key key_len value overwrite
    pure (.bool b, t)
  | .insertIfAbsent key key_len value => do
    let (b, t) ← hashTableInsertIfAbsent K R t key key_len value
    pure (.bool b, t)
  | .lookup key key_len => do
    let v ← hashTableLookup K t key key_len
    pure (.pointer v, t)
  | .delete key key_len => do
    let (b, t) ← hashTableDelete K R t key key_len
    pure (.bool b, t)
  | .count => pure (.number (hashTableCount t), t)
  | .foreach => pure (.visits (hashTableForeach t), t)

def Call.Step (t : Table) (e : Call) (t' : Table) : Prop := e.op.run K e.room t = .ok (e.result, t')

end

section

variable {K : Keys}

def Visits (M : K.Map) (l : List (Key × Nat)) : Prop :=
  (l.map fun e => K.cls e.1).Nodup ∧ ∀ q v, M q = some v ↔ ∃ e ∈ l, K.cls e.1 = q ∧ e.2 = v

/-- What the operations answer and leave. An operation on a key that it does not accept
does nothing. -/
def Op.Spec (M : K.Map) (room : Bool) : Op → Result → K.Map → Prop
  | .insert key key_len v overwrite, r, M' =>
    match Key.mk? key key_len with
    | none => r = .bool false ∧ M' = M
    | some k => ∃ b, r = .bool b ∧ Inserts M room k v overwrite b M'
  | .insertIfAbsent key key_len v, r, M' =>
    match Key.mk? key key_len with
    | none => r = .bool false ∧ M' = M
    | some k => ∃ b, r = .bool b ∧ Inserts M room k v false b M'
  | .lookup key key_len, r, M' =>
    match Key.mk? key key_len with
    | none => r = .pointer 0 ∧ M' = M
    | some k => r = .pointer ((M (K.cls k)).getD 0) ∧ M' = M
  | .delete key key_len, r, M' =>
    match Key.mk? key key_len with
    | none => r = .bool false ∧ M' = M
    | some k => r = .bool (M (K.cls k)).isSome ∧ M' = M.put (K.cls k) none
  | .count, r, M' => r = .number (UInt32.ofNat {q : K.Class | M q ≠ none}.ncard) ∧ M' = M
  | .foreach, r, M' => (∃ l, r = .visits l ∧ Visits M l) ∧ M' = M

/-- A call on the abstract map. Of what `slab_alloc` says only the answer for a node
counts. -/
def Call.Abstract (M : K.Map) (e : Call) (M' : K.Map) : Prop := e.op.Spec M e.room.node e.result M'

variable {M : K.Map} {t : Table}

theorem Op.run_holds (h : Holds K t M) (R : Room) (op : Op) :
    ∃ r t' M', op.run K R t = .ok (r, t') ∧ op.Spec M R.node r M' ∧ Holds K t' M' := by
  cases op with
  | insert key key_len v overwrite =>
    simp only [Op.run, Op.Spec, hashTableInsert]
    cases Key.mk? key key_len with
    | none => exact ⟨_, _, _, rfl, ⟨rfl, rfl⟩, h⟩
    | some k =>
      obtain ⟨r, t', M', he, hr, h'⟩ := @hashTableInsertLocked_holds K M t R k v overwrite h
      simp only [he]
      exact ⟨_, _, _, rfl, ⟨r, rfl, hr⟩, h'⟩
  | insertIfAbsent key key_len v =>
    simp only [Op.run, Op.Spec, hashTableInsertIfAbsent]
    cases Key.mk? key key_len with
    | none => exact ⟨_, _, _, rfl, ⟨rfl, rfl⟩, h⟩
    | some k =>
      obtain ⟨r, t', M', he, hr, h'⟩ := @hashTableInsertIfAbsentLocked_holds K M t R k v h
      simp only [he]
      exact ⟨_, _, _, rfl, ⟨r, rfl, hr⟩, h'⟩
  | lookup key key_len =>
    simp only [Op.run, Op.Spec, hashTableLookup]
    cases Key.mk? key key_len with
    | none => exact ⟨_, _, _, rfl, ⟨rfl, rfl⟩, h⟩
    | some k =>
      simp only [hashTableLookupLocked_holds h]
      exact ⟨_, _, _, rfl, ⟨rfl, rfl⟩, h⟩
  | delete key key_len =>
    simp only [Op.run, Op.Spec, hashTableDelete]
    cases Key.mk? key key_len with
    | none => exact ⟨_, _, _, rfl, ⟨rfl, rfl⟩, h⟩
    | some k =>
      obtain ⟨t', he, h'⟩ := @hashTableDeleteLocked_holds K M t R k h
      simp only [he]
      exact ⟨_, _, _, rfl, ⟨rfl, rfl⟩, h'⟩
  | count =>
    refine ⟨_, _, M, rfl, ⟨?_, rfl⟩, h⟩
    rw [h.content.card, hashTableCount, h.count]
  | foreach =>
    refine ⟨_, _, M, rfl, ⟨⟨_, rfl, ?_⟩, rfl⟩, h⟩
    rw [hashTableForeach_eq]
    refine ⟨?_, fun q v => ?_⟩
    · rw [map_map]
      exact h.content.distinct
    · rw [h.content.stored q v]
      constructor
      · rintro ⟨n, hn, hr⟩
        exact ⟨_, mem_map_of_mem hn, hr⟩
      · rintro ⟨e, he, hr⟩
        obtain ⟨n, hn, rfl⟩ := mem_map.1 he
        exact ⟨n, hn, hr⟩

theorem Call.step_holds (t : Table) (M : K.Map) (e : Call) (t' : Table) (h : Holds K t M) (hs : Call.Step K t e t') :
    ∃ M', Call.Abstract M e M' ∧ Holds K t' M' := by
  obtain ⟨r, t'', M', he, hr, h'⟩ := e.op.run_holds h e.room
  unfold Call.Step at hs
  rw [he] at hs
  cases hs
  exact ⟨M', hr, h'⟩

/-- Every sequence of calls on a new table is a sequence of calls on a map that is empty
at first, whichever allocations fail; and there is always a next result. -/
theorem hash_table_is_map {ht : Bool} {R : Room} {n : UInt32} {t₀ : Table}
    (hc : hashTableCreate ht R n = .ok (some t₀)) {es : List Call} (h : Run (Call.Step K) t₀ es t) :
    (∃ M : K.Map, Run Call.Abstract (Keys.Map.empty K) es M) ∧
      ∀ (R : Room) (op : Op), ∃ r t', op.run K R t = .ok (r, t') := by
  obtain ⟨M, hM, hh⟩ := h.refine (Holds K) Call.step_holds (hashTableCreate_holds hc)
  refine ⟨⟨M, hM⟩, fun R op => ?_⟩
  obtain ⟨r, t', -, he, -⟩ := op.run_holds hh R
  exact ⟨r, t', he⟩

end

/-! ## Pointers as keys -/

namespace Sample

theorem ptr_equal : Equivalence fun k k' : Key => k.len = k'.len ∧ (k.ptr == k'.ptr) = true := by
  simp only [beq_iff_eq]
  exact ⟨fun _ => ⟨rfl, rfl⟩, fun h => ⟨h.1.symm, h.2.symm⟩, fun h h' => ⟨h.1.trans h'.1, h.2.trans h'.2⟩⟩

/-- Keys are equal if they are the same pointer, and all hashes are 0. -/
def pointers : Keys where
  hash_func := fun _ _ => 0
  key_equal := fun a b _ => a == b
  equal := ptr_equal
  agree := fun _ _ _ _ => rfl

def fresh : Table := ⟨List.replicate 8 [], 8, 0⟩

theorem fresh_created : hashTableCreate true ⟨true, true⟩ 5 = .ok (some fresh) := by decide

def keys : Table := ⟨[⟨⟨2, 1, by decide, by decide⟩, 8, 0⟩] :: List.replicate 7 [], 8, 1⟩

/-- Two keys with one hash; the first is removed. -/
def stores : List Call :=
  [⟨⟨true, true⟩, .insert 1 1 7 false, .bool true⟩, ⟨⟨true, true⟩, .insert 2 1 8 false, .bool true⟩,
    ⟨⟨true, true⟩, .lookup 1 1, .pointer 7⟩, ⟨⟨true, true⟩, .delete 1 1, .bool true⟩,
    ⟨⟨true, true⟩, .lookup 1 1, .pointer 0⟩, ⟨⟨true, true⟩, .lookup 2 1, .pointer 8⟩]

theorem stores_are_map : (∃ M : pointers.Map, Run Call.Abstract (Keys.Map.empty pointers) stores M) ∧
    ∀ (R : Room) (op : Op), ∃ r t', op.run pointers R keys = .ok (r, t') :=
  hash_table_is_map fresh_created
    (.cons rfl (.cons rfl (.cons rfl (.cons rfl (.cons rfl (.one rfl))))))

def key (p : Nat) : Key := ⟨p + 1, 1, by omega, by decide⟩

theorem key_cls {p q : Nat} : pointers.cls (key p) = pointers.cls (key q) ↔ p = q := by
  rw [Keys.cls_eq]
  simp [pointers, key]

theorem key_mk (n : Nat) : Key.mk? (n + 1) 1 = some (key n) := dif_pos ⟨by omega, by decide⟩

noncomputable def upTo : Nat → pointers.Map
  | 0 => Keys.Map.empty pointers
  | n + 1 => (upTo n).put (pointers.cls (key n)) (some (n + 1))

theorem upTo_of_lt {n p : Nat} (h : p < n) : upTo n (pointers.cls (key p)) = some (p + 1) := by
  induction n with
  | zero => omega
  | succ n ih =>
    by_cases e : p = n
    · rw [e]
      exact Keys.Map.put_self
    · rw [← ih (by omega)]
      exact Keys.Map.put_of_ne fun hc => e (key_cls.1 hc)

theorem upTo_of_ge {n p : Nat} (h : n ≤ p) : upTo n (pointers.cls (key p)) = none := by
  induction n with
  | zero => rfl
  | succ n ih =>
    rw [← ih (by omega)]
    exact Keys.Map.put_of_ne fun hc => absurd (key_cls.1 hc) (by omega)

theorem upTo_card (n : Nat) : {q : pointers.Class | upTo n q ≠ none}.ncard = n := by
  have himage : {q : pointers.Class | upTo n q ≠ none} =
      Set.image (fun p => pointers.cls (key p)) (Finset.range n) := by
    induction n with
    | zero =>
      ext q
      simp [upTo, Keys.Map.empty]
    | succ n ih =>
      ext q
      have ih := Set.ext_iff.1 ih q
      simp only [Set.mem_ofPred_eq, Set.mem_image, Finset.mem_coe, Finset.mem_range] at ih ⊢
      by_cases e : q = pointers.cls (key n)
      · subst e
        rw [upTo, Keys.Map.put_self]
        exact ⟨fun _ => ⟨n, by omega, rfl⟩, fun _ => by simp⟩
      · rw [upTo, Keys.Map.put_of_ne e, ih]
        constructor
        · rintro ⟨p, hp, rfl⟩
          exact ⟨p, by omega, rfl⟩
        · rintro ⟨p, hp, rfl⟩
          exact ⟨p, lt_of_le_of_ne (Nat.lt_succ_iff.1 hp) fun hc => e (hc ▸ rfl), rfl⟩
  rw [himage, Set.ncard_image_of_injective _ fun p q h => key_cls.1 h, Set.ncard_coe_finset, Finset.card_range]

theorem filled (n : Nat) : ∃ es t, Run (Call.Step pointers) fresh es t ∧ Holds pointers t (upTo n) := by
  induction n with
  | zero => exact ⟨[], fresh, .nil _, hashTableCreate_holds fresh_created⟩
  | succ n ih =>
    obtain ⟨es, t, hr, hh⟩ := ih
    obtain ⟨r, t', M', hrun, hspec, h'⟩ := Op.run_holds hh ⟨false, true⟩ (.insert (n + 1) 1 (n + 1) false)
    simp only [Op.Spec, key_mk] at hspec
    obtain ⟨b, hb, hins, hM⟩ := hspec
    rw [upTo_of_ge (Nat.le_refl n)] at hins
    rw [show b = true from hins] at hM
    have hstep : Call.Step pointers t ⟨⟨false, true⟩, .insert (n + 1) 1 (n + 1) false, r⟩ t' := hrun
    refine ⟨_, t', hr.snoc hstep, ?_⟩
    have hM : M' = upTo (n + 1) := hM
    rwa [hM] at h'

/-- With 2 ^ 32 keys in the table, its count is 0. -/
theorem count_wraps : ∃ es t, Run (Call.Step pointers) fresh es t ∧
    (∀ p, 1 ≤ p → p ≤ 2 ^ 32 → hashTableLookup pointers t p 1 = .ok p) ∧ hashTableCount t = 0 := by
  obtain ⟨es, t, hr, hh⟩ := filled (2 ^ 32)
  refine ⟨es, t, hr, fun p h1 h2 => ?_, ?_⟩
  · obtain ⟨p, rfl⟩ := Nat.exists_eq_add_of_le' h1
    rw [hashTableLookup, key_mk]
    have := @hashTableLookupLocked_holds pointers _ t (key p) hh
    rwa [upTo_of_lt (by omega)] at this
  · rw [hashTableCount, hh.count, ← hh.content.card, upTo_card]
    rfl

end Sample

end Utils
