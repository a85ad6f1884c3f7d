import Loeux.Lcc.Install
/-!
# Running generated code

What a hart does on its way through installed lines: straight lines of words, jumps and
branches to labels, and the push and pop of the generator's stack.
-/

namespace Lcc

open Lib Rv64 List

section
variable (ws : List Nat) (l : Int) (kind r : Nat)

@[simp] theorem words_size : (Line.words ws).size = 4 * ws.length := rfl

@[simp] theorem push_size : (Line.push r).size = 8 := rfl

@[simp] theorem pop_size : (Line.pop r).size = 8 := rfl

@[simp] theorem jump_size : (Line.jump l).size = 4 := rfl

@[simp] theorem branch_size : (Line.branch l kind).size = 4 := rfl

@[simp] theorem label_size : (Line.label l).size = 0 := rfl

end

namespace Image

variable {I : Image} {p q r : Nat} {m m' m'' : Hart} {qs qs' : List Nat}

/-- From offset `p` the hart comes to offset `q`, by way of offsets that lie between. -/
structure Runs (I : Image) (p : Nat) (m : Hart) (qs : List Nat) (q : Nat) (m' : Hart) : Prop where
  start : m.pc = I.loc p
  trace : Exec I.code m (qs.map I.loc) m'
  stop : m'.pc = I.loc q
  le : p ≤ q
  within : ∀ x ∈ qs, p ≤ x ∧ x < q
  first : p < q → p ∈ qs

theorem loc_add (I : Image) (p k : Nat) : I.loc (p + k) = I.loc p + BitVec.ofNat 64 k := by
  unfold loc
  rw [BitVec.add_assoc, BitVec.ofNat_add]

theorem loc_inj (hp : p < 2 ^ 64) (hq : q < 2 ^ 64) (h : I.loc p = I.loc q) : p = q := by
  have := congrArg BitVec.toNat ((BitVec.add_right_inj I.base).1 h)
  rwa [BitVec.toNat_ofNat, BitVec.toNat_ofNat, Nat.mod_eq_of_lt hp, Nat.mod_eq_of_lt hq] at this

theorem loc_sub (I : Image) (p q : Nat) : I.loc p + BitVec.ofInt 64 (q - p) = I.loc q := by
  unfold loc
  rw [BitVec.add_assoc, ← BitVec.ofInt_natCast, ← BitVec.ofInt_add, add_sub_cancel, BitVec.ofInt_natCast]

namespace Runs

theorem nil (h : m.pc = I.loc p) : I.Runs p m [] p m := ⟨h, .nil m, h, le_refl p, fun _ h => absurd h not_mem_nil,
  fun h => absurd h (lt_irrefl p)⟩

theorem trans (h : I.Runs p m qs q m') (h' : I.Runs q m' qs' r m'') : I.Runs p m (qs ++ qs') r m'' := by
  refine ⟨h.start, ?_, h'.stop, h.le.trans h'.le, fun x hx => ?_, fun hlt => ?_⟩
  · rw [map_append]
    exact h.trace.trans h'.trace
  · rcases mem_append.1 hx with hx | hx
    · exact ⟨(h.within x hx).1, (h.within x hx).2.trans_le h'.le⟩
    · exact ⟨h.le.trans (h'.within x hx).1, (h'.within x hx).2⟩
  · rcases h.le.lt_or_eq with hpq | rfl
    · exact mem_append_left _ (h.first hpq)
    · exact mem_append_right _ (h'.first hlt)

theorem one {i : Instr} (hm : m.pc = I.loc p) (hf : I.fetch p = some i) (he : exec i m = some m') (hq : m'.pc = I.loc q)
    (hlt : p < q) : I.Runs p m [p] q m' := by
  refine ⟨hm, ?_, hq, hlt.le, fun x hx => ?_, fun _ => mem_singleton.2 rfl⟩
  · have hs : step I.code m = some m' := by
      rw [step, hm]
      unfold fetch at hf
      rw [hf]
      exact he
    have := Exec.one hs
    rwa [hm] at this
  · obtain rfl := mem_singleton.1 hx
    exact ⟨le_refl _, hlt⟩

theorem words {ws : List Nat} {is : List Instr} (hat : I.LineAt p (.words ws)) (hdec : ws.map decode = is.map some)
    (hplain : ∀ i ∈ is, i.isPlain) (hm : m.pc = I.loc p) (he : execAll is m = some m') :
    ∃ qs, I.Runs p m qs (p + 4 * ws.length) m' := by
  induction is generalizing p ws m with
  | nil =>
    obtain rfl := map_eq_nil_iff.1 hdec
    cases he
    exact ⟨[], .nil hm⟩
  | cons i is ih =>
    obtain ⟨w, ws, rfl, hw, hws⟩ := map_eq_cons_iff.1 hdec
    obtain ⟨m1, he1, he2⟩ := Option.bind_eq_some_iff.1 he
    have hpc : m1.pc = I.loc (p + 4) := by
      rw [exec_pc (hplain i mem_cons_self) he1, hm, loc_add]
      rfl
    have hfetch : I.fetch p = some i := by
      have : I.code (I.loc p) = some w := hat 0 w rfl
      rw [fetch, this]
      exact hw
    have hrest : I.LineAt (p + 4) (.words ws) := by
      intro j w' hj
      have := hat (j + 1) w' hj
      rwa [show p + 4 * (j + 1) = p + 4 + 4 * j by omega] at this
    obtain ⟨qs, hqs⟩ := ih hrest hws (fun i hi => hplain i (mem_cons_of_mem _ hi)) hpc he2
    refine ⟨p :: qs, ?_⟩
    rw [length_cons, show p + 4 * (ws.length + 1) = p + 4 + 4 * ws.length by omega]
    exact (one hm hfetch he1 hpc (by omega)).trans hqs

theorem unique (h : I.Runs p m qs q m') (h' : I.Runs p m qs' q m'') (hq : q < 2 ^ 64) : qs = qs' ∧ m' = m'' := by
  have hne : ∀ (xs : List Nat), (∀ x ∈ xs, p ≤ x ∧ x < q) → I.loc q ∉ xs.map I.loc := by
    intro xs hxs hmem
    obtain ⟨x, hx, heq⟩ := mem_map.1 hmem
    have hlt := (hxs x hx).2
    have := loc_inj (by omega) hq heq
    omega
  obtain ⟨hqs, hm⟩ := h.trace.unique h'.trace h.stop h'.stop (hne qs h.within) (hne qs' h'.within)
  refine ⟨?_, hm⟩
  have hlt : ∀ x ∈ qs, x < 2 ^ 64 := fun x hx => (h.within x hx).2.trans hq
  have hlt' : ∀ x ∈ qs', x < 2 ^ 64 := fun x hx => (h'.within x hx).2.trans hq
  clear h h' hne hm
  induction qs generalizing qs' with
  | nil => exact (map_eq_nil_iff.1 hqs.symm).symm
  | cons x qs ih =>
    obtain ⟨y, ys, rfl, hxy, hrest⟩ := map_eq_cons_iff.1 hqs.symm
    rw [loc_inj (hlt x mem_cons_self) (hlt' y mem_cons_self) hxy.symm,
      ih hrest.symm (fun z hz => hlt z (mem_cons_of_mem _ hz)) fun z hz => hlt' z (mem_cons_of_mem _ hz)]

theorem jump {l : Int} (hat : I.LineAt p (.jump l)) (hl : I.off l = some q) (hlt : p < q) (hm : m.pc = I.loc p) :
    ∃ m', I.Runs p m [p] q m' ∧ (∀ r, m'.reg r = m.reg r) ∧ m'.mem = m.mem := by
  obtain ⟨q', hq', hf⟩ := hat
  rw [hl] at hq'
  cases hq'
  refine ⟨_, one hm hf rfl ?_ hlt, fun r => ?_, rfl⟩
  · rw [Hart.pc_jump, hm, loc_sub]
  · rw [Hart.reg_jump, Hart.reg_setReg]
    by_cases h : r = 0
    · rw [if_pos h, h, Hart.reg_zero]
    · rw [if_neg h, if_neg h]

theorem branch {l : Int} {kind : Nat} (hat : I.LineAt p (.branch l kind)) (hl : I.off l = some q) (hlt : p < q)
    (hm : m.pc = I.loc p) : ∃ m', I.Runs p m [p] (if (kind = 2 ↔ m.reg 10 = 0) then q else p + 4) m' ∧
      (∀ r, m'.reg r = m.reg r) ∧ m'.mem = m.mem := by
  obtain ⟨q', hq', hf⟩ := hat
  rw [hl] at hq'
  cases hq'
  have hnext : m.next.pc = I.loc (p + 4) := by
    rw [Hart.pc_next, hm, loc_add]
    rfl
  have hjump : (m.jump (m.pc + BitVec.ofInt 64 (q - p))).pc = I.loc q := by rw [Hart.pc_jump, hm, loc_sub]
  by_cases hk : kind = 2
  · rw [if_pos hk] at hf
    by_cases h0 : m.reg 10 = 0
    · rw [if_pos (iff_of_true hk h0)]
      exact ⟨_, one hm hf (by rw [Rv64.exec, h0, Hart.reg_zero, if_pos rfl]) hjump hlt, fun _ => rfl, rfl⟩
    · rw [if_neg fun h => h0 (h.1 hk)]
      exact ⟨_, one hm hf (by rw [Rv64.exec, Hart.reg_zero, if_neg h0]) hnext (by omega), fun _ => rfl, rfl⟩
  · rw [if_neg hk] at hf
    by_cases h0 : m.reg 10 = 0
    · rw [if_neg fun h => hk (h.2 h0)]
      exact ⟨_, one hm hf (by rw [Rv64.exec, h0, Hart.reg_zero, if_neg (not_not_intro rfl)]) hnext (by omega), fun _ => rfl, rfl⟩
    · rw [if_pos (iff_of_false hk h0)]
      exact ⟨_, one hm hf (by rw [Rv64.exec, Hart.reg_zero, if_pos h0]) hjump hlt, fun _ => rfl, rfl⟩

end Runs

end Image

/-! ## The stack -/

section
variable {m : Hart} {r : Nat}

theorem sp_sub (hsp : 8 ≤ (m.reg 2).toNat) : (m.reg 2 - 8).toNat = (m.reg 2).toNat - 8 := by
  rw [BitVec.toNat_sub_of_le]
  · rfl
  · exact hsp

theorem push_exec (hr2 : r ≠ 2) (hsp : 8 ≤ (m.reg 2).toNat) : ∃ m',
    execAll [.opImm .add 2 2 (-8), .store .double r 2 0] m = some m' ∧ m'.reg 2 = m.reg 2 - 8 ∧
      (∀ k, k ≠ 2 → m'.reg k = m.reg k) ∧ m'.mem = Width.double.write ((m.reg 2).toNat - 8) (m.reg r) m.mem := by
  obtain ⟨m1, he, hs⟩ := exec_opImm m .add (show 2 ≠ 0 by decide) 2 (-8)
  have hsp1 : m1.reg 2 = m.reg 2 - 8 := by
    rw [hs.own, BitVec.sub_eq_add_neg, show -(8 : Word) = BitVec.ofInt 64 (-8) by decide]
    rfl
  have haddr : (m1.addr 2 0).toNat = (m.reg 2).toNat - 8 := by rw [Hart.addr_zero, hsp1, sp_sub hsp]
  obtain ⟨m2, he2, hreg, hmem⟩ := exec_store .double r haddr (by
    have := (m.reg 2).isLt
    simp only [Width.bytes]
    omega)
  refine ⟨m2, ?_, (hreg 2).trans hsp1, fun k hk => (hreg k).trans (hs.other k hk), ?_⟩
  · rw [execAll_cons he, execAll_cons he2, execAll]
  · rw [hmem, hs.other r hr2, hs.mem]

theorem pop_exec (hr : r ≠ 0) (hr2 : r ≠ 2) (hsp : (m.reg 2).toNat + 8 ≤ 2 ^ 64) : ∃ m',
    execAll [.load .double r 2 0, .opImm .add 2 2 8] m = some m' ∧ m'.reg 2 = m.reg 2 + 8 ∧
      m'.reg r = Width.double.read (m.reg 2).toNat m.mem ∧ (∀ k, k ≠ 2 → k ≠ r → m'.reg k = m.reg k) ∧ m'.mem = m.mem := by
  obtain ⟨m1, he, hs⟩ := exec_load .double hr (congrArg BitVec.toNat (m.addr_zero 2)) hsp
  obtain ⟨m2, he2, hs2⟩ := exec_opImm m1 .add (show 2 ≠ 0 by decide) 2 8
  refine ⟨m2, ?_, ?_, (hs2.other r hr2).trans hs.own, fun k hk hkr => (hs2.other k hk).trans (hs.other k hkr),
    hs2.mem.trans hs.mem⟩
  · rw [execAll_cons he, execAll_cons he2, execAll]
  · rw [hs2.own, hs.other 2 hr2.symm]
    rfl

variable {I : Image} {p : Nat}

theorem runs_push (hr : r < 32) (hr2 : r ≠ 2) (hat : I.LineAt p (.push r)) (hm : m.pc = I.loc p) (hsp : 8 ≤ (m.reg 2).toNat) :
    ∃ qs m', I.Runs p m qs (p + 8) m' ∧ m'.reg 2 = m.reg 2 - 8 ∧ (∀ k, k ≠ 2 → m'.reg k = m.reg k) ∧
      m'.mem = Width.double.write ((m.reg 2).toNat - 8) (m.reg r) m.mem := by
  obtain ⟨m', he, hm'⟩ := push_exec hr2 hsp
  have hdec : [rvAddi 2 2 (-8), rvSd r 2 0].map decode = [Instr.opImm .add 2 2 (-8), .store .double r 2 0].map some := by
    rw [map_cons, map_singleton, (decode_rvI (by decide) (by decide) (by decide) (by decide)).1,
      (decode_rvS hr (by decide) (by decide) (by decide)).1]
    rfl
  obtain ⟨qs, hqs⟩ := Image.Runs.words hat hdec (by simp [Instr.isPlain]) hm he
  exact ⟨qs, m', hqs, hm'⟩

theorem runs_pop (hr : r < 32) (hr0 : r ≠ 0) (hr2 : r ≠ 2) (hat : I.LineAt p (.pop r)) (hm : m.pc = I.loc p)
    (hsp : (m.reg 2).toNat + 8 ≤ 2 ^ 64) : ∃ qs m', I.Runs p m qs (p + 8) m' ∧ m'.reg 2 = m.reg 2 + 8 ∧
      m'.reg r = Width.double.read (m.reg 2).toNat m.mem ∧ (∀ k, k ≠ 2 → k ≠ r → m'.reg k = m.reg k) ∧ m'.mem = m.mem := by
  obtain ⟨m', he, hm'⟩ := pop_exec hr0 hr2 hsp
  have hdec : [rvLd r 2 0, rvAddi 2 2 8].map decode = [Instr.load .double r 2 0, .opImm .add 2 2 8].map some := by
    rw [map_cons, map_singleton, (decode_rvI (by decide) hr (by decide) (by decide)).2.1,
      (decode_rvI (by decide) (by decide) (by decide) (by decide)).1]
    rfl
  obtain ⟨qs, hqs⟩ := Image.Runs.words hat hdec (by simp [Instr.isPlain]) hm he
  exact ⟨qs, m', hqs, hm'⟩

theorem runs_addr {s : Symbol} {rd : Nat} (hrd : rd ≠ 0) (hat : I.LineAt p (.addr s rd)) (hm : m.pc = I.loc p) :
    ∃ qs m', I.Runs p m qs (p + 8) m' ∧ m.Sets rd (BitVec.ofInt 64 (I.address s.name)) m' := by
  obtain ⟨h, l, hhi, hlo, hsum⟩ := hat
  obtain ⟨m1, he1, hs1⟩ := exec_lui m hrd h
  obtain ⟨m2, he2, hs2⟩ := exec_opImm m1 .add hrd rd l
  have hpc1 : m1.pc = I.loc (p + 4) := by
    rw [exec_pc rfl he1, hm, Image.loc_add]
    rfl
  have hpc2 : m2.pc = I.loc (p + 8) := by
    rw [exec_pc rfl he2, hpc1, show p + 8 = p + 4 + 4 from rfl, I.loc_add (p + 4)]
    rfl
  refine ⟨_, m2, (Image.Runs.one hm hhi he1 hpc1 (by omega)).trans (.one hpc1 hlo he2 hpc2 (by omega)), ?_⟩
  rw [hs1.own] at hs2
  rw [← hsum]
  exact hs1.trans hs2

end

end Lcc
