import Loeux.Lcc.Reloc
/-!
# What linked code computes

An address is used at one place, or by a pair of instructions of which one has the upper
and the other the low part. Each use is followed through the relocations it needs, with
any other relocations between the two of a pair.
-/

namespace Lcc

open Lib Rv64 List Stop

/-! ## The low part -/

def lowPatch (store : Bool) : Nat → Int → Nat := if store then patchS else patchI

def lowImm (store : Bool) : Nat → Int := if store then immS else immI

/-- The bits of an instruction with a low part that are not of it. -/
def lowMask (store : Bool) : Nat := if store then 0x01fff07f else 0x000fffff

theorem lowImm_lowPatch (store : Bool) (x : Nat) (d : Int) :
    lowImm store (lowPatch store x d) = sext 12 (unsigned d % 2 ^ 12) := by
  cases store
  · exact immI_patchI x d
  · exact Format.s.imm_patch x d

theorem lowPatch_rest (store : Bool) (x : Nat) (d : Int) :
    lowPatch store x d &&& lowMask store = x &&& lowMask store := by
  cases store
  · exact patchI_rest x d
  · exact Format.s.patch_rest x d

theorem lowPatch_lt (store : Bool) (x : Nat) (d : Int) : lowPatch store x d < 256 ^ 4 := by
  cases store
  · exact Format.i.patch_lt x d
  · exact Format.s.patch_lt x d

/-! ## The relocation that a low part belongs to -/

def pairedHi (o : LinkObj) (sec addr : Nat) : Option Rela :=
  (List.range o.e_shnum).findSome? fun i =>
    if (o.shdr i).sh_type = SHT_RELA ∧ (o.shdr i).sh_info = sec ∧
        startsWith o.file.bytes (o.name_off.getD 0 + (o.shdr i).sh_name) (ascii ".rela") then
      (o.relas i).find? fun r => rType r.r_info = R_RISCV_PCREL_HI20 ∧ (o.sec_addr sec + r.r_offset) % 2 ^ 64 = addr
    else none

namespace Target

variable {t : Target} {l : Link} {r : Rela} {n addr : Nat}

structure Symbols (t : Target) (n : Nat) : Prop where
  symtab : linkSymbols t.o = pure (some (n, t.syms))
  strings : linkStrtab t.o = pure t.strtab
  named : t.o.e_shnum ≤ t.o.named

theorem search_eq (ht : t.Symbols n) (hr : rSym r.r_info < n % 2 ^ 32) (is : List Nat) (his : ∀ i ∈ is, i < t.o.e_shnum)
    (hp : (is.findSome? fun i =>
      if (t.o.shdr i).sh_type = SHT_RELA ∧ (t.o.shdr i).sh_info = t.sec ∧
          startsWith t.o.file.bytes (t.o.name_off.getD 0 + (t.o.shdr i).sh_name) (ascii ".rela") then
        (t.o.relas i).find? fun r => rType r.r_info = R_RISCV_PCREL_HI20 ∧ (t.o.sec_addr t.sec + r.r_offset) % 2 ^ 64 = addr
      else none) = some r) :
    findPcrelHi.search t.o t.sec addr n t.syms t.strtab is = some <$> resolveSymbol t.o (t.sym r) (t.name r) := by
  induction is with
  | nil => cases hp
  | cons i is ih =>
    have ih := ih fun j hj => his j (mem_cons_of_mem _ hj)
    have hi : ¬t.o.named ≤ i := by
      have := his i mem_cons_self
      have := ht.named
      omega
    rw [findSome?_cons] at hp
    unfold findPcrelHi.search
    dsimp only
    by_cases h1 : (t.o.shdr i).sh_type ≠ SHT_RELA ∨ (t.o.shdr i).sh_info ≠ t.sec
    · rw [if_pos h1]
      rw [if_neg (by tauto)] at hp
      exact ih hp
    · rw [if_neg h1, if_neg hi]
      by_cases h2 : startsWith t.o.file.bytes (t.o.name_off.getD 0 + (t.o.shdr i).sh_name) (ascii ".rela") = false
      · rw [if_pos h2]
        rw [if_neg (by simp [h2])] at hp
        exact ih hp
      · rw [if_neg h2]
        rw [if_pos (by simp_all)] at hp
        split
        · rename_i hf
          rw [hf] at hp
          exact ih hp
        · rename_i r' hf
          rw [hf] at hp
          cases hp
          rw [if_neg (Nat.not_le.2 hr)]
          rfl

theorem findPcrelHi_eq (ht : t.Symbols n) (hp : pairedHi t.o t.sec addr = some r) (hr : rSym r.r_info < n % 2 ^ 32) :
    findPcrelHi t.o t.sec addr l = (some <$> resolveSymbol t.o (t.sym r) (t.name r)) l := by
  unfold findPcrelHi
  rw [ht.symtab, bind_ok (a := some (n, t.syms)) (t := l) rfl]
  dsimp only
  rw [ht.strings, bind_ok (a := t.strtab) (t := l) rfl, search_eq ht hr _ (fun i hi => mem_range.1 hi) hp]

theorem resolve_cases (t : Target) (l : Link) (r : Rela) :
    ∃ S l', resolveSymbol t.o (t.sym r) (t.name r) l = .ok (S, l') ∧ l'.gdefs = l.gdefs ∧ l'.data_base = l.data_base ∧
      l'.buf = l.buf ∧ (t.address l r = some S ∧ l' = l ∨ t.address l r = none ∧ l.diags.length < l'.diags.length) := by
  cases h : t.address l r with
  | some S => exact ⟨S, l, resolve_some h, rfl, rfl, rfl, .inl ⟨rfl, rfl⟩⟩
  | none =>
    refine ⟨_, _, resolve_none h, rfl, rfl, ?_, .inr ⟨rfl, ?_⟩⟩
    · funext b
      cases b <;> rfl
    · simp [unresolved]

end Target

/-! ## The instructions of a pair -/

section
variable {o : LinkObj} {sec P off S : Nat} {s : Sym} {A : Int} {l : Link} {buf : Buffer}

def hiType (pcrel : Bool) : Nat := if pcrel then R_RISCV_PCREL_HI20 else R_RISCV_HI20

def loType (pcrel store : Bool) : Nat :=
  match pcrel, store with
  | false, false => R_RISCV_LO12_I
  | false, true => R_RISCV_LO12_S
  | true, false => R_RISCV_PCREL_LO12_I
  | true, true => R_RISCV_PCREL_LO12_S

/-- What the upper part is counted from. -/
def origin (pcrel : Bool) (P : Nat) : Nat := if pcrel then P else 0

theorem applyKind_hi (pcrel : Bool) (hsize : off + 4 ≤ (l.buf buf).size) :
    applyKind o sec (hiType pcrel) s A S P buf off l = .ok (⟨⟩,
      l.store buf 4 off (patchU (Bytes.get 4 off (l.buf buf).bytes) (hi20 (S + A - origin pcrel P)))) := by
  cases pcrel with
  | false =>
    have happly : applyKind o sec (hiType false) s A S P buf off = patchAt buf 4 off (patchU · (hi20 (S + A))) := rfl
    rw [happly, patchAt_ok hsize, origin, if_neg Bool.false_ne_true, Nat.cast_zero, sub_zero]
  | true =>
    have happly : applyKind o sec (hiType true) s A S P buf off = patchAt buf 4 off (patchU · (hi20 (S + A - P))) := rfl
    rw [happly, patchAt_ok hsize, origin, if_pos rfl]

theorem applyKind_lo (store : Bool) (hsize : off + 4 ≤ (l.buf buf).size) :
    applyKind o sec (loType false store) s A S P buf off l = .ok (⟨⟩,
      l.store buf 4 off (lowPatch store (Bytes.get 4 off (l.buf buf).bytes) (S + A))) := by
  have happly : applyKind o sec (loType false store) s A S P buf off = patchAt buf 4 off (lowPatch store · (S + A)) := by
    cases store <;> rfl
  rw [happly, patchAt_ok hsize]

theorem applyKind_pcrelLo (store : Bool) {T : Nat} {l' : Link}
    (hf : findPcrelHi o sec (symbolAddress o s) l = .ok (some T, l')) (hsize : off + 4 ≤ (l'.buf buf).size) :
    applyKind o sec (loType true store) s A S P buf off l = .ok (⟨⟩,
      l'.store buf 4 off (lowPatch store (Bytes.get 4 off (l'.buf buf).bytes) (T + A - symbolAddress o s))) := by
  refine Eq.trans ?_ (patchAt_ok (f := (lowPatch store · (T + A - symbolAddress o s))) hsize)
  cases store <;> exact bind_ok hf

end

/-- An instruction with the upper part of an address and one with the low part. -/
structure Pair where
  pcrel : Bool
  store : Bool
  hi : Rela
  lo : Rela

structure Meanwhile (buf : Buffer) (off : Nat) (l l' : Link) : Prop where
  gdefs : l'.gdefs = l.gdefs
  data_base : l'.data_base = l.data_base
  size : (l'.buf buf).size = (l.buf buf).size
  kept : Bytes.get 4 off (l'.buf buf).bytes = Bytes.get 4 off (l.buf buf).bytes

namespace Pair

structure Ok (t : Target) (l : Link) (p : Pair) : Prop where
  hiType : rType p.hi.r_info = hiType p.pcrel
  loType : rType p.lo.r_info = loType p.pcrel p.store
  hi : t.Holds l p.hi 4
  lo : t.Holds l p.lo 4
  apart : t.off l p.hi + 4 ≤ t.off l p.lo ∨ t.off l p.lo + 4 ≤ t.off l p.hi
  same : p.pcrel = false → rSym p.lo.r_info = rSym p.hi.r_info ∧ p.lo.r_addend = p.hi.r_addend
  paired : p.pcrel = true → ∃ n, t.Symbols n ∧ rSym p.hi.r_info < n % 2 ^ 32 ∧
    pairedHi t.o t.sec (symbolAddress t.o (t.sym p.lo)) = some p.hi

def result (t : Target) (l : Link) (p : Pair) (b : Bytes) : Word :=
  plus (origin p.pcrel (t.place p.hi))
    (immU (Bytes.get 4 (t.off l p.hi) b) + lowImm p.store (Bytes.get 4 (t.off l p.lo) b))

/-- The number `v = S + A` fits the pair, and the low part is told the same addend. -/
def Fits (t : Target) (p : Pair) (v : Int) : Prop :=
  -2 ^ 31 - 2 ^ 11 ≤ wrap64 (v - origin p.pcrel (t.place p.hi)) ∧
    wrap64 (v - origin p.pcrel (t.place p.hi)) < 2 ^ 31 - 2 ^ 11 ∧ (p.lo.r_addend - p.hi.r_addend) % 4096 = 0

variable {t : Target} {l : Link} {p : Pair}

theorem type_ok (pcrel store : Bool) :
    ¬(hiType pcrel = R_RISCV_NONE ∨ hiType pcrel = R_RISCV_RELAX ∨ hiType pcrel = R_RISCV_ALIGN) ∧
    ¬(loType pcrel store = R_RISCV_NONE ∨ loType pcrel store = R_RISCV_RELAX ∨ loType pcrel store = R_RISCV_ALIGN) := by
  revert pcrel store
  decide

theorem apply_hi (ht : t.Ok) (hp : p.Ok t l) : ∃ (S : Nat) (l1 : Link), t.apply p.hi l = .ok (⟨⟩, l1) ∧ l1.gdefs = l.gdefs ∧
    l1.data_base = l.data_base ∧ (l1.buf t.buffer).size = (l.buf t.buffer).size ∧
    Bytes.get 4 (t.off l p.hi) (l1.buf t.buffer).bytes = patchU (Bytes.get 4 (t.off l p.hi) (l.buf t.buffer).bytes)
        (hi20 (S + p.hi.r_addend - origin p.pcrel (t.place p.hi))) ∧
    (t.address l p.hi = some S ∧ l1.diags = l.diags ∨ t.address l p.hi = none ∧ l.diags.length < l1.diags.length) := by
  obtain ⟨S, l', hr, hg, hb, hbuf, hcase⟩ := t.resolve_cases l p.hi
  refine ⟨S, l'.store t.buffer 4 (t.off l p.hi) (patchU (Bytes.get 4 (t.off l p.hi) (l.buf t.buffer).bytes)
      (hi20 (S + p.hi.r_addend - origin p.pcrel (t.place p.hi)))), ?_, ?_, ?_, ?_, ?_, ?_⟩
  · rw [t.apply_eq ht hp.hi.sym (hp.hiType ▸ (type_ok p.pcrel p.store).1) hr hb, hp.hiType, ← hbuf]
    exact applyKind_hi p.pcrel (hbuf ▸ hp.hi.size)
  · rw [store_gdefs, hg]
  · rw [store_data_base, hb]
  · rw [store_buf, hbuf]
  · exact get_store (Format.u.patch_lt _ _)
  · rw [store_diags]
    rcases hcase with ⟨ha, rfl⟩ | h
    · exact .inl ⟨ha, rfl⟩
    · exact .inr h

theorem paired_place {addr : Nat} {r : Rela} (h : pairedHi t.o t.sec addr = some r) : addr = t.place r := by
  obtain ⟨i, -, hi⟩ := exists_of_findSome?_eq_some h
  split at hi
  · have := find?_some hi
    simp only [decide_eq_true_eq] at this
    exact this.2.symm
  · cases hi

theorem address_congr {l' : Link} (h : l'.gdefs = l.gdefs) (r : Rela) : t.address l' r = t.address l r := by
  unfold Target.address gdefFind
  rw [h]

theorem address_same {r r' : Rela} (h : rSym r.r_info = rSym r'.r_info) : t.address l r = t.address l r' := by
  unfold Target.address Target.name Target.sym
  rw [h]

theorem apply_lo (ht : t.Ok) (hp : p.Ok t l) : ∃ (e : Int) (l3 : Link), t.apply p.lo l = .ok (⟨⟩, l3) ∧
    (l3.buf t.buffer).bytes = Bytes.put 4 (t.off l p.lo)
      (lowPatch p.store (Bytes.get 4 (t.off l p.lo) (l.buf t.buffer).bytes) e) (l.buf t.buffer).bytes ∧
    (∀ S S' : Nat, t.address l p.hi = some S → t.address l p.lo = some S' → l3.diags = l.diags ∧
      (e - (S + p.hi.r_addend - origin p.pcrel (t.place p.hi))) % 4096 = (p.lo.r_addend - p.hi.r_addend) % 4096) ∧
    (t.address l p.lo = none → l.diags.length < l3.diags.length) := by
  obtain ⟨S, l', hr, hg, hb, hbuf, hcase⟩ := t.resolve_cases l p.lo
  have happly := t.apply_eq ht hp.lo.sym (hp.loType ▸ (type_ok p.pcrel p.store).2) hr hb
  rw [hp.loType] at happly
  cases hpc : p.pcrel with
  | false =>
    rw [hpc] at happly
    obtain ⟨hsym, hadd⟩ := hp.same hpc
    refine ⟨S + p.lo.r_addend, _, happly.trans (applyKind_lo p.store (hbuf ▸ hp.lo.size)), ?_, ?_, ?_⟩
    · rw [store_buf, hbuf]
    · intro S1 S2 h1 h2
      rcases hcase with ⟨ha, rfl⟩ | ⟨ha, -⟩
      · rw [address_same hsym, h1] at ha
        cases ha
        refine ⟨store_diags, ?_⟩
        rw [hadd, origin, if_neg Bool.false_ne_true]
        omega
      · rw [ha] at h2
        cases h2
    · intro hnone
      rcases hcase with ⟨ha, -⟩ | ⟨-, h⟩
      · rw [ha] at hnone
        cases hnone
      · rw [store_diags]
        exact h
  | true =>
    rw [hpc] at happly
    obtain ⟨n, hsyms, hn, hpair⟩ := hp.paired hpc
    obtain ⟨T, l'', hT, -, -, hbuf', hcase'⟩ := t.resolve_cases l' p.hi
    have hf : findPcrelHi t.o t.sec (symbolAddress t.o (t.sym p.lo)) l' = .ok (some T, l'') := by
      rw [Target.findPcrelHi_eq hsyms hpair hn, map_eq_pure_bind, bind_ok hT]
      rfl
    refine ⟨T + p.lo.r_addend - symbolAddress t.o (t.sym p.lo), _,
      happly.trans (applyKind_pcrelLo p.store hf (hbuf' ▸ hbuf ▸ hp.lo.size)), ?_, ?_, ?_⟩
    · rw [store_buf, hbuf', hbuf]
    · intro S1 S2 h1 h2
      rcases hcase with ⟨-, rfl⟩ | ⟨ha, -⟩
      · rcases hcase' with ⟨hT', rfl⟩ | ⟨ha, -⟩
        · rw [h1] at hT'
          cases hT'
          refine ⟨store_diags, ?_⟩
          rw [paired_place hpair, origin, if_pos rfl]
          omega
        · rw [ha] at h1
          cases h1
      · rw [ha] at h2
        cases h2
    · intro hnone
      rw [store_diags]
      rcases hcase with ⟨ha, -⟩ | ⟨-, h⟩
      · rw [ha] at hnone
        cases hnone
      · rcases hcase' with ⟨-, rfl⟩ | ⟨-, h'⟩
        · exact h
        · exact h.trans h'

theorem Ok.congr {l' : Link} (hp : p.Ok t l) (hb : l'.data_base = l.data_base)
    (hsize : (l'.buf t.buffer).size = (l.buf t.buffer).size) : p.Ok t l' := by
  have hoff : ∀ r, t.off l' r = t.off l r := fun r => by rw [Target.off, Target.off, hb]
  refine ⟨hp.hiType, hp.loType, ⟨hp.hi.sym, ?_⟩, ⟨hp.lo.sym, ?_⟩, ?_, hp.same, hp.paired⟩
  · rw [hoff, hsize]
    exact hp.hi.size
  · rw [hoff, hsize]
    exact hp.lo.size
  · rw [hoff, hoff]
    exact hp.apart

theorem result_iff {b : Bytes} {x y : Nat} {d e v : Int} (hhi : Bytes.get 4 (t.off l p.hi) b = patchU x (hi20 d))
    (hlo : Bytes.get 4 (t.off l p.lo) b = lowPatch p.store y e) (hd : d = v - origin p.pcrel (t.place p.hi)) :
    p.result t l b = BitVec.ofInt 64 v ↔
      -2 ^ 31 - 2 ^ 11 ≤ wrap64 d ∧ wrap64 d < 2 ^ 31 - 2 ^ 11 ∧ (e - d) % 4096 = 0 := by
  rw [result, hhi, hlo, immU_patchU, lowImm_lowPatch, plus_eq_iff, ← hd, exact_pair]

end Pair

/-! ## Uses -/

/-- A use of an address. -/
inductive Use
  | single (k : Kind) (r : Rela)
  | pair (p : Pair)

namespace Use

/-- The relocations lie in the section and belong together. -/
def Ok (t : Target) (l : Link) : Use → Prop
  | single k r => rType r.r_info ∈ k.types ∧ t.Holds l r k.bytes
  | pair p => p.Ok t l

/-- The linker has printed something on the way. -/
def Reported (l l' : Link) : Prop := l.diags ≠ l'.diags

/-- After relocation the code computes the symbol plus the addend and is otherwise as it
was, or something was reported. -/
def Linked (t : Target) (l : Link) : Use → Prop
  | single k r => ∃ l', t.apply r l = .ok (⟨⟩, l') ∧ (Reported l l' ∨
      ∃ S, t.address l r = some S ∧
        k.result (t.place r) (t.off l r) (l'.buf t.buffer).bytes = BitVec.ofInt 64 (S + r.r_addend) ∧
        k.rest (t.off l r) (l'.buf t.buffer).bytes = k.rest (t.off l r) (l.buf t.buffer).bytes)
  | pair p => ∃ l₁, t.apply p.hi l = .ok (⟨⟩, l₁) ∧ ∀ l₂, Meanwhile t.buffer (t.off l p.hi) l₁ l₂ →
      ∃ l₃, t.apply p.lo l₂ = .ok (⟨⟩, l₃) ∧ (Reported l l₁ ∨ Reported l₂ l₃ ∨
        ∃ S, t.address l p.hi = some S ∧
          p.result t l (l₃.buf t.buffer).bytes = BitVec.ofInt 64 (S + p.hi.r_addend) ∧
          Bytes.get 4 (t.off l p.hi) (l₃.buf t.buffer).bytes &&& 0x00000fff =
            Bytes.get 4 (t.off l p.hi) (l.buf t.buffer).bytes &&& 0x00000fff ∧
          Bytes.get 4 (t.off l p.lo) (l₃.buf t.buffer).bytes &&& lowMask p.store =
            Bytes.get 4 (t.off l p.lo) (l₂.buf t.buffer).bytes &&& lowMask p.store)

/-- If all symbols are known, the number fits and both parts are told the same addend. -/
def Fits (t : Target) (l : Link) : Use → Prop
  | single k r => ∀ S, t.address l r = some S → k.Fits (S + r.r_addend) (t.place r)
  | pair p => ∀ S S', t.address l p.hi = some S → t.address l p.lo = some S' → p.Fits t (S + p.hi.r_addend)

variable {t : Target} {l : Link}

theorem single_iff (ht : t.Ok) {k : Kind} {r : Rela} (hu : (single k r).Ok t l) :
    (single k r).Linked t l ↔ (single k r).Fits t l := by
  obtain ⟨hk, hr⟩ := hu
  have hty : ∀ k : Kind, ∀ type ∈ k.types, ¬(type = R_RISCV_NONE ∨ type = R_RISCV_RELAX ∨ type = R_RISCV_ALIGN) := by
    intro k
    cases k <;> decide
  obtain ⟨S, l', hres, -, hb, hbuf, hcase⟩ := t.resolve_cases l r
  obtain ⟨l'', happly, hd, hrest, hiff⟩ := @applyKind_single t.o t.sec (t.place r) _ S (t.sym r)
    r.r_addend _ _ _ _ hk (hbuf ▸ hr.size : t.off l r + k.bytes ≤ (l'.buf t.buffer).size)
  have hrun : t.apply r l = .ok (⟨⟩, l'') := by
    rw [t.apply_eq ht hr.sym (hty k _ hk) hres hb, happly]
  rcases hcase with ⟨ha, rfl⟩ | ⟨ha, hmore⟩
  · constructor
    · rintro ⟨l1, h1, h⟩ S' hS'
      rw [hrun] at h1
      cases h1
      rw [ha] at hS'
      cases hS'
      rcases h with h | ⟨S', hS', hres, -⟩
      · exact absurd hd.symm h
      · rw [ha] at hS'
        cases hS'
        exact hiff.1 hres
    · intro h
      exact ⟨l'', hrun, .inr ⟨S, ha, hiff.2 (h S ha), hrest⟩⟩
  · constructor
    · intro _ S' hS'
      rw [ha] at hS'
      cases hS'
    · intro _
      refine ⟨l'', hrun, .inl fun h => ?_⟩
      rw [h, hd] at hmore
      exact absurd hmore (lt_irrefl _)

theorem pair_iff (ht : t.Ok) {p : Pair} (hp : (pair p).Ok t l) : (pair p).Linked t l ↔ (pair p).Fits t l := by
  have hp : p.Ok t l := hp
  obtain ⟨S, l1, hrun, hg, hb, hsize, hhi, hcase⟩ := p.apply_hi ht hp
  -- the low part, whatever was relocated in between
  have hlo : ∀ l2, Meanwhile t.buffer (t.off l p.hi) l1 l2 → ∃ (e : Int) (l3 : Link), t.apply p.lo l2 = .ok (⟨⟩, l3) ∧
      Bytes.get 4 (t.off l p.hi) (l3.buf t.buffer).bytes = patchU (Bytes.get 4 (t.off l p.hi) (l.buf t.buffer).bytes)
        (hi20 (S + p.hi.r_addend - origin p.pcrel (t.place p.hi))) ∧
      Bytes.get 4 (t.off l p.lo) (l3.buf t.buffer).bytes =
        lowPatch p.store (Bytes.get 4 (t.off l p.lo) (l2.buf t.buffer).bytes) e ∧
      (∀ S S' : Nat, t.address l p.hi = some S → t.address l p.lo = some S' → l3.diags = l2.diags ∧
        (e - (S + p.hi.r_addend - origin p.pcrel (t.place p.hi))) % 4096 = (p.lo.r_addend - p.hi.r_addend) % 4096) ∧
      (t.address l p.lo = none → Reported l2 l3) := by
    intro l2 h
    have hoff : ∀ r, t.off l2 r = t.off l r := fun r => by rw [Target.off, Target.off, h.data_base, hb]
    have haddr : ∀ r, t.address l2 r = t.address l r := Pair.address_congr (h.gdefs.trans hg)
    obtain ⟨e, l3, hrun3, hbytes, hboth, hnone⟩ := p.apply_lo ht ((hp.congr hb hsize).congr h.data_base h.size)
    simp only [hoff, haddr] at hbytes hboth hnone
    refine ⟨e, l3, hrun3, ?_, ?_, hboth, fun ha heq => ?_⟩
    · rw [hbytes, Bytes.get_put_of_disjoint _ _ hp.apart, h.kept, hhi]
    · rw [hbytes, Bytes.get_put, Nat.mod_eq_of_lt (lowPatch_lt _ _ _)]
    · have := hnone ha
      rw [heq] at this
      exact absurd this (lt_irrefl _)
  rcases hcase with ⟨ha, hd⟩ | ⟨ha, hmore⟩
  · constructor
    · rintro ⟨l1', h1, h⟩ S' S2 hS' hS2
      rw [hrun] at h1
      cases h1
      rw [ha] at hS'
      cases hS'
      obtain ⟨e, l3, hrun3, hhi3, hlo3, hboth, -⟩ := hlo l1 ⟨rfl, rfl, rfl, rfl⟩
      obtain ⟨hd3, he⟩ := hboth S S2 ha hS2
      obtain ⟨l3', h3, h⟩ := h l1 ⟨rfl, rfl, rfl, rfl⟩
      rw [hrun3] at h3
      cases h3
      rcases h with h | h | ⟨S', hS', hres, -⟩
      · exact absurd hd.symm h
      · exact absurd hd3.symm h
      · rw [ha] at hS'
        cases hS'
        have hfit := (Pair.result_iff hhi3 hlo3 rfl).1 hres
        rw [he] at hfit
        exact hfit
    · intro hfit
      refine ⟨l1, hrun, fun l2 h2 => ?_⟩
      obtain ⟨e, l3, hrun3, hhi3, hlo3, hboth, hnone⟩ := hlo l2 h2
      refine ⟨l3, hrun3, .inr ?_⟩
      cases ha' : t.address l p.lo with
      | none => exact .inl (hnone ha')
      | some S2 =>
        refine .inr ⟨S, ha, (Pair.result_iff hhi3 hlo3 rfl).2 ?_, ?_, ?_⟩
        · rw [(hboth S S2 ha ha').2]
          exact hfit S S2 ha ha'
        · rw [hhi3, patchU_rest]
        · rw [hlo3, lowPatch_rest]
  · constructor
    · intro _ S' _ hS'
      rw [ha] at hS'
      cases hS'
    · intro _
      refine ⟨l1, hrun, fun l2 h2 => ?_⟩
      obtain ⟨e, l3, hrun3, -⟩ := hlo l2 h2
      refine ⟨l3, hrun3, .inl fun h => ?_⟩
      rw [h] at hmore
      exact absurd hmore (lt_irrefl _)

/-- Linked code computes the symbol plus the addend, or something is reported, exactly for
the uses whose number fits and whose two parts have addends that agree in the low bits. -/
theorem linked_iff (ht : t.Ok) (u : Use) (hu : u.Ok t l) : u.Linked t l ↔ u.Fits t l := by
  cases u with
  | single k r => exact single_iff ht hu
  | pair p => exact pair_iff ht hu

end Use

namespace Sample

/-- Two instructions that load the address of `f`, which lies at offset 256 of their section, plus `a`. -/
def file (a : UInt8) : File :=
  object 2 3 [(400, [23, 0, 0, 0, 2]), (408, [a]), (416, [4]), (424, [24, 0, 0, 0, 1]), (470, [1]),
    (488, [1, 0, 0, 0, 0x10, 0, 1, 0, 0, 1])]

/-- The object as the linker reads and places it. -/
def obj (a : UInt8) : LinkObj := (layout [(linkobjParse (file a)).2]).1.headD (linkobjParse (file a)).2

def target (a : UInt8) : Target := ⟨obj a, 1, 440, 512⟩

def link : Link := { junk := 0, final_text := ⟨Bytes.zero, 8⟩ }

def load (a : UInt8) : Pair := ⟨true, false, readRela (file a).bytes 392, readRela (file a).bytes 416⟩

theorem target_ok : (target 0).Ok ∧ (target 8).Ok := by
  constructor <;> exact ⟨by decide +kernel, by decide +kernel, .inl (by decide +kernel)⟩

theorem load_ok : (load 0).Ok (target 0) link ∧ (load 8).Ok (target 8) link := by
  constructor <;>
  · refine ⟨by decide +kernel, by decide +kernel, ⟨by decide +kernel, by decide +kernel⟩,
      ⟨by decide +kernel, by decide +kernel⟩, by decide +kernel, by decide,
      fun _ => ⟨3, ⟨rfl, rfl, by decide +kernel⟩, by decide +kernel, by decide +kernel⟩⟩

theorem load_linked : (linkobjParse (file 0)).1 = true ∧ (target 0).address link (load 0).hi = some (TEXT_BASE + 256) ∧
    (Use.pair (load 0)).Linked (target 0) link := by
  have haddr : (target 0).address link (load 0).hi = some (TEXT_BASE + 256) := by decide +kernel
  refine ⟨by decide +kernel, haddr, (Use.linked_iff target_ok.1 (.pair (load 0)) load_ok.1).2 fun S S' hS hS' => ?_⟩
  obtain rfl : TEXT_BASE + 256 = S := Option.some.inj (haddr.symm.trans hS)
  exact ⟨by decide +kernel, by decide +kernel, by decide +kernel⟩

/-- The addend of the upper part is left out of the low part. -/
theorem load_addend_lost : (linkobjParse (file 8)).1 = true ∧ (target 8).Ok ∧ (Use.pair (load 8)).Ok (target 8) link ∧
    ¬(Use.pair (load 8)).Linked (target 8) link := by
  refine ⟨by decide +kernel, target_ok.2, load_ok.2, fun h => ?_⟩
  have hfit := (Use.pair_iff target_ok.2 load_ok.2).1 h (TEXT_BASE + 256) TEXT_BASE (by decide +kernel) (by decide +kernel)
  exact absurd hfit.2.2 (by decide +kernel)

end Sample

end Lcc
