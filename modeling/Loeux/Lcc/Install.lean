import Loeux.Lcc.Lines
import Loeux.Lcc.Reloc
/-!
# Where lines come to lie

The words, labels and fixups that a list of lines adds, and what is fetched at each line
once the jumps are patched and the code is loaded.
-/

namespace Lcc

open Lib Rv64 List

/-! ## Words, labels and fixups -/

def Line.code : Line → List Nat
  | .words ws => ws
  | .jump _ => [rvJ 0 0]
  | .branch _ kind => [rvB 0 0 10 (if kind = 2 then 0 else 1)]
  | .addr _ rd | .str _ rd => [rvU 0 rd 0x37, rvAddi rd rd 0]
  | .call _ => [rvU 0 1 0x17, rvI 0 1 0 1 0x67]
  | .label _ | .diag _ | .halt _ => []

def Line.size (l : Line) : Nat := 4 * l.code.length

def Line.labels (p : Nat) : Line → List LabelDef
  | .label id => [⟨id, p⟩]
  | _ => []

def Line.fixes (p : Nat) : Line → List JumpFix
  | .jump l => [⟨p, l, 1⟩]
  | .branch l kind => [⟨p, l, kind⟩]
  | _ => []

def codeOf (ls : List Line) : List Nat := ls.flatMap Line.code

def sizeOfLines (ls : List Line) : Nat := 4 * (codeOf ls).length

def labelsAt : Nat → List Line → List LabelDef
  | _, [] => []
  | p, l :: ls => l.labels p ++ labelsAt (p + l.size) ls

def fixesAt : Nat → List Line → List JumpFix
  | _, [] => []
  | p, l :: ls => l.fixes p ++ fixesAt (p + l.size) ls

@[simp] theorem codeOf_cons (l : Line) (ls : List Line) : codeOf (l :: ls) = l.code ++ codeOf ls := rfl

@[simp] theorem codeOf_append (ls ls' : List Line) : codeOf (ls ++ ls') = codeOf ls ++ codeOf ls' := flatMap_append

@[simp] theorem sizeOfLines_nil : sizeOfLines [] = 0 := rfl

@[simp] theorem sizeOfLines_cons (l : Line) (ls : List Line) : sizeOfLines (l :: ls) = l.size + sizeOfLines ls := by
  simp only [sizeOfLines, codeOf_cons, length_append, Line.size]
  ring

@[simp] theorem sizeOfLines_append (ls ls' : List Line) : sizeOfLines (ls ++ ls') = sizeOfLines ls + sizeOfLines ls' := by
  simp only [sizeOfLines, codeOf_append, length_append]
  ring

theorem labelsAt_append (p : Nat) (ls ls' : List Line) :
    labelsAt p (ls ++ ls') = labelsAt p ls ++ labelsAt (p + sizeOfLines ls) ls' := by
  induction ls generalizing p with
  | nil => rfl
  | cons l ls ih => rw [cons_append, labelsAt, ih, labelsAt, sizeOfLines_cons, append_assoc, Nat.add_assoc]

theorem fixesAt_append (p : Nat) (ls ls' : List Line) :
    fixesAt p (ls ++ ls') = fixesAt p ls ++ fixesAt (p + sizeOfLines ls) ls' := by
  induction ls generalizing p with
  | nil => rfl
  | cons l ls ih => rw [cons_append, fixesAt, ih, fixesAt, sizeOfLines_cons, append_assoc, Nat.add_assoc]

theorem ensureSym_text (o : Object) (s : ObjSym) : (o.ensureSym s).2.text = o.text := by
  unfold Object.ensureSym
  split <;> rfl

theorem addSym_text (o : Object) (s : ObjSym) : (o.addSym s).2.text = o.text := by
  unfold Object.addSym
  split <;> rfl

theorem run_text (l : Line) (g : Gen) : (l.run g).obj.text = g.obj.text ++ l.code := by
  cases l with
  | words | jump | branch => rfl
  | label | diag | halt => exact (append_nil _).symm
  | addr s rd => simp only [Line.run, Object.loadAddr, ensureSym_text, Line.code]
  | str text rd => simp only [Line.run, Object.loadAddr, addSym_text, Line.code]
  | call s => simp only [Line.run, Object.callPair, ensureSym_text, Line.code]

theorem runLines_text (ls : List Line) (g : Gen) : (runLines ls g).obj.text = g.obj.text ++ codeOf ls := by
  induction ls generalizing g with
  | nil => exact (append_nil _).symm
  | cons l ls ih => rw [runLines_cons, ih, run_text, codeOf_cons, append_assoc]

theorem run_pc (l : Line) (g : Gen) : (l.run g).pc = g.pc + l.size := by
  rw [Gen.pc, run_text, length_append, Nat.mul_add]
  rfl

theorem runLines_pc (ls : List Line) (g : Gen) : (runLines ls g).pc = g.pc + sizeOfLines ls := by
  rw [Gen.pc, runLines_text, length_append, Nat.mul_add]
  rfl

theorem run_labels (l : Line) (g : Gen) : (l.run g).labels = g.labels ++ l.labels g.pc := by
  cases l with
  | label => rfl
  | _ => exact (append_nil _).symm

theorem runLines_labels (ls : List Line) (g : Gen) : (runLines ls g).labels = g.labels ++ labelsAt g.pc ls := by
  induction ls generalizing g with
  | nil => exact (append_nil _).symm
  | cons l ls ih => rw [runLines_cons, ih, run_labels, run_pc, labelsAt, append_assoc]

theorem run_fixes (l : Line) (g : Gen) : (l.run g).fixes = g.fixes ++ l.fixes g.pc := by
  cases l with
  | jump | branch => rfl
  | _ => exact (append_nil _).symm

theorem runLines_fixes (ls : List Line) (g : Gen) : (runLines ls g).fixes = g.fixes ++ fixesAt g.pc ls := by
  induction ls generalizing g with
  | nil => exact (append_nil _).symm
  | cons l ls ih => rw [runLines_cons, ih, run_fixes, run_pc, fixesAt, append_assoc]

/-! ## Patching -/

def fixTarget (labels : List LabelDef) (l : Int) : Int :=
  match labelOff labels l with
  | some q => q
  | none => -1

def applyFix (labels : List LabelDef) (text : List Nat) (f : JumpFix) : List Nat :=
  text.modify (f.off / 4) (fixWord f.kind (fixTarget labels f.label - f.off))

def patched (g : Gen) : List Nat := g.fixes.foldl (applyFix g.labels) g.obj.text

section
variable {labels : List LabelDef} {fs : List JumpFix} {text : List Nat} {i : Nat}

theorem patch_other (h : ∀ f ∈ fs, f.off / 4 ≠ i) : (fs.foldl (applyFix labels) text)[i]? = text[i]? := by
  induction fs generalizing text with
  | nil => rfl
  | cons f fs ih =>
    rw [foldl_cons, ih fun f' hf' => h f' (mem_cons_of_mem _ hf'), applyFix, getElem?_modify_ne _ _ (h f mem_cons_self)]

theorem patch_fix {f : JumpFix} (hf : f ∈ fs) (hd : fs.Pairwise fun f f' => f.off / 4 ≠ f'.off / 4) {w : Nat}
    (hw : text[f.off / 4]? = some w) :
    (fs.foldl (applyFix labels) text)[f.off / 4]? = some (fixWord f.kind (fixTarget labels f.label - f.off) w) := by
  induction fs generalizing text with
  | nil => cases hf
  | cons f' fs ih =>
    rw [pairwise_cons] at hd
    rw [foldl_cons]
    rcases mem_cons.1 hf with rfl | hf
    · rw [patch_other fun f' hf' => (hd.1 f' hf').symm, applyFix, getElem?_modify_eq, hw]
      rfl
    · refine ih hf hd.2 ?_
      rw [applyFix, getElem?_modify_ne _ _ (hd.1 f hf), hw]

end

/-! ## Symbols and relocations -/

/-- Symbols stay in their places under their names, and keep their address once they have one. -/
def Object.Keeps (o o' : Object) : Prop := ∀ (si : Nat) (s : ObjSym), o.syms[si]? = some s →
  ∃ s' : ObjSym, o'.syms[si]? = some s' ∧ s'.name = s.name ∧ (s.sec ≠ 0 → s'.sec = s.sec ∧ s'.value = s.value)

namespace Object.Keeps

variable {o o' o'' : Object}

theorem refl (o : Object) : o.Keeps o := fun _ s h => ⟨s, h, rfl, fun _ => ⟨rfl, rfl⟩⟩

theorem of_syms (h : o'.syms = o.syms) : o.Keeps o' := fun _ s hs => ⟨s, h ▸ hs, rfl, fun _ => ⟨rfl, rfl⟩⟩

theorem trans (h : o.Keeps o') (h' : o'.Keeps o'') : o.Keeps o'' := by
  intro si s hs
  obtain ⟨s', hs', hn, hv⟩ := h si s hs
  obtain ⟨s'', hs'', hn', hv'⟩ := h' si s' hs'
  refine ⟨s'', hs'', hn'.trans hn, fun hsec => ?_⟩
  obtain ⟨h1, h2⟩ := hv hsec
  obtain ⟨h3, h4⟩ := hv' (h1 ▸ hsec)
  exact ⟨h3.trans h1, h4.trans h2⟩

theorem append (o : Object) (s : ObjSym) : o.Keeps { o with syms := o.syms ++ [s] } := fun _ t ht =>
  ⟨t, getElem?_append_left (List.getElem?_eq_some_iff.1 ht).1 ▸ ht, rfl, fun _ => ⟨rfl, rfl⟩⟩

theorem modify (o : Object) (si : Nat) (f : ObjSym → ObjSym)
    (hf : ∀ s, (f s).name = s.name ∧ (s.sec ≠ 0 → (f s).sec = s.sec ∧ (f s).value = s.value)) :
    o.Keeps { o with syms := o.syms.modify si f } := by
  intro i s hs
  by_cases hi : si = i
  · subst hi
    exact ⟨f s, by rw [getElem?_modify_eq, hs]; rfl, (hf s).1, (hf s).2⟩
  · exact ⟨s, by rw [getElem?_modify_ne _ _ hi, hs], rfl, fun _ => ⟨rfl, rfl⟩⟩

end Object.Keeps

theorem again_keeps (p : ObjSym) (bind type sec value size : Nat) : (p.again bind type sec value size).name = p.name ∧
      (p.sec ≠ 0 → (p.again bind type sec value size).sec = p.sec ∧ (p.again bind type sec value size).value = p.value) := by
  unfold ObjSym.again
  split
  · rename_i h
    exact ⟨rfl, fun hp => absurd h.2 hp⟩
  · split <;> exact ⟨rfl, fun _ => ⟨rfl, rfl⟩⟩

theorem ensureSym_keeps (o : Object) (s : ObjSym) : o.Keeps (o.ensureSym s).2 := by
  unfold Object.ensureSym
  split
  · exact .refl o
  · exact .append o s

theorem addSym_keeps (o : Object) (s : ObjSym) : o.Keeps (o.addSym s).2 := by
  unfold Object.addSym
  split
  · exact .modify o _ _ fun p => again_keeps p ..
  · exact .append o s

theorem symFind_name {o : Object} {name : Text} {si : Nat} (h : o.symFind name = some si) :
    ∃ s, o.syms[si]? = some s ∧ s.name = name := by
  unfold Object.symFind at h
  obtain ⟨hlt, hname, -⟩ := findIdx?_eq_some_iff_getElem.1 h
  exact ⟨_, getElem?_eq_getElem hlt, by simpa using hname⟩

theorem ensureSym_name (o : Object) (s : ObjSym) :
    ∃ t, (o.ensureSym s).2.syms[(o.ensureSym s).1]? = some t ∧ t.name = s.name := by
  unfold Object.ensureSym
  split
  · rename_i h
    exact symFind_name h
  · exact ⟨s, by simp, rfl⟩

theorem run_keeps (l : Line) (g : Gen) : g.obj.Keeps (l.run g).obj := by
  cases l with
  | words | jump | branch | label | diag | halt => exact .of_syms rfl
  | addr s rd => exact (ensureSym_keeps g.obj (addrSym s)).trans (.of_syms rfl)
  | str text rd =>
    exact (Object.Keeps.of_syms rfl).trans ((addSym_keeps
      { g.obj with data := g.obj.data ++ (text ++ [0]) } (strSym g text)).trans (.of_syms rfl))
  | call s => exact (ensureSym_keeps g.obj (callSym s)).trans (.of_syms rfl)

theorem runLines_keeps (ls : List Line) (g : Gen) : g.obj.Keeps (runLines ls g).obj := by
  induction ls generalizing g with
  | nil => exact .refl _
  | cons l ls ih => exact (run_keeps l g).trans (ih _)

def Reloc.stop (r : Reloc) : Nat := r.offset + if r.type = R_RISCV_CALL then 8 else 4

def Line.relocs (p si : Nat) : Line → List Reloc
  | .addr _ _ | .str _ _ => [⟨p, R_RISCV_HI20, si, 0⟩, ⟨p + 4, R_RISCV_LO12_I, si, 0⟩]
  | .call _ => [⟨p, R_RISCV_CALL, si, 0⟩]
  | _ => []

def Line.ref : Line → Option Text
  | .addr s _ | .call s => some s.name
  | _ => none

theorem run_relocs (l : Line) (g : Gen) : ∃ si, (l.run g).obj.text_relocs = g.obj.text_relocs ++ l.relocs g.pc si ∧
    ∀ name, l.ref = some name → ∃ s, (l.run g).obj.syms[si]? = some s ∧ s.name = name := by
  have hens : ∀ (o : Object) (s : ObjSym), (o.ensureSym s).2.text_relocs = o.text_relocs := fun o s => by
    unfold Object.ensureSym
    split <;> rfl
  have hadd : ∀ (o : Object) (s : ObjSym), (o.addSym s).2.text_relocs = o.text_relocs := fun o s => by
    unfold Object.addSym
    split <;> rfl
  cases l with
  | words | jump | branch | label | diag | halt => exact ⟨0, (append_nil _).symm, fun _ h => by cases h⟩
  | addr s rd =>
    refine ⟨(g.obj.ensureSym (addrSym s)).1, ?_, fun name h => ?_⟩
    · simp only [Line.run, Object.loadAddr, ensureSym_text, hens]
      rfl
    · cases h
      exact ensureSym_name g.obj (addrSym s)
  | str text rd =>
    refine ⟨(Object.addSym { g.obj with data := g.obj.data ++ (text ++ [0]) } (strSym g text)).1, ?_, fun _ h => by cases h⟩
    · simp only [Line.run, Object.loadAddr, addSym_text, hadd]
      rfl
  | call s =>
    refine ⟨(g.obj.ensureSym (callSym s)).1, ?_, fun name h => ?_⟩
    · simp only [Line.run, Object.callPair, ensureSym_text, hens]
      rfl
    · cases h
      exact ensureSym_name g.obj (callSym s)

theorem runLines_relocs (ls : List Line) (g : Gen) : ∃ rs, (runLines ls g).obj.text_relocs = g.obj.text_relocs ++ rs ∧
    ∀ r ∈ rs, g.pc ≤ r.offset ∧ r.stop ≤ g.pc + sizeOfLines ls := by
  induction ls generalizing g with
  | nil => exact ⟨[], (append_nil _).symm, fun _ h => by cases h⟩
  | cons l ls ih =>
    obtain ⟨si, hl, -⟩ := run_relocs l g
    obtain ⟨rs, hrs, hr⟩ := ih (l.run g)
    refine ⟨l.relocs g.pc si ++ rs, by rw [runLines_cons, hrs, hl, append_assoc], fun r hmem => ?_⟩
    rw [sizeOfLines_cons]
    rcases mem_append.1 hmem with h | h
    · have : g.pc ≤ r.offset ∧ r.stop ≤ g.pc + l.size := by
        cases l with
        | words | jump | branch | label | diag | halt => cases h
        | addr s rd | str s rd =>
          simp only [Line.relocs, mem_cons, not_mem_nil, or_false] at h
          rcases h with rfl | rfl
          · exact ⟨le_refl _, show g.pc + 4 ≤ g.pc + 8 by omega⟩
          · exact ⟨Nat.le_add_right _ _, show g.pc + 4 + 4 ≤ g.pc + 8 by omega⟩
        | call s =>
          obtain rfl := mem_singleton.1 h
          exact ⟨le_refl _, le_refl _⟩
      omega
    · have := hr r h
      rw [run_pc] at this
      omega

/-! ## Code in memory -/

/-- Code in memory: its words, where it begins, where its labels are, and the addresses of
the symbols. -/
structure Image where
  code : Code
  base : Word
  off : Int → Option Nat
  address : Text → Int

namespace Image

variable (I : Image)

def loc (p : Nat) : Word := I.base + BitVec.ofNat 64 p

def fetch (p : Nat) : Option Instr := (I.code (I.loc p)).bind decode

/-- What stands at offset `p` for a line. -/
def LineAt (p : Nat) : Line → Prop
  | .words ws => ∀ (i w : Nat), ws[i]? = some w → I.code (I.loc (p + 4 * i)) = some w
  | .jump l => ∃ q : Nat, I.off l = some q ∧ I.fetch p = some (.jal 0 (q - p))
  | .branch l kind => ∃ q : Nat, I.off l = some q ∧
      I.fetch p = some (if kind = 2 then .beq 10 0 (q - p) else .bne 10 0 (q - p))
  | .label id => I.off id = some p
  | .addr s rd => ∃ h l : Int, I.fetch p = some (.lui rd h) ∧ I.fetch (p + 4) = some (.opImm .add rd rd l) ∧
      BitVec.ofInt 64 h + BitVec.ofInt 64 l = BitVec.ofInt 64 (I.address s.name)
  | _ => True

def Installed : Nat → List Line → Prop
  | _, [] => True
  | p, l :: ls => I.LineAt p l ∧ Installed (p + l.size) ls

theorem installed_append (p : Nat) (ls ls' : List Line) :
    I.Installed p (ls ++ ls') ↔ I.Installed p ls ∧ I.Installed (p + sizeOfLines ls) ls' := by
  induction ls generalizing p with
  | nil => exact (true_and _ ▸ Iff.rfl)
  | cons l ls ih => rw [cons_append, Installed, ih, Installed, sizeOfLines_cons, Nat.add_assoc, and_assoc]

theorem installed_cons (p : Nat) (l : Line) (ls : List Line) :
    I.Installed p (l :: ls) ↔ I.LineAt p l ∧ I.Installed (p + l.size) ls := Iff.rfl

end Image

/-- The text of an object with `text` for its words, as the linker leaves it in memory. -/
structure Loaded (I : Image) (text : List Nat) (o : Object) : Prop where
  plain : ∀ (i w : Nat), text[i]? = some w → (∀ r ∈ o.text_relocs, r.stop ≤ 4 * i ∨ 4 * i + 4 ≤ r.offset) →
    I.code (I.loc (4 * i)) = some w
  hi : ∀ r ∈ o.text_relocs, r.type = R_RISCV_HI20 → ∀ (s : ObjSym) (w : Nat), o.syms[r.sym]? = some s →
    text[r.offset / 4]? = some w → I.code (I.loc r.offset) = some (patchU w (hi20 (I.address s.name + r.addend)))
  lo : ∀ r ∈ o.text_relocs, r.type = R_RISCV_LO12_I → ∀ (s : ObjSym) (w : Nat), o.syms[r.sym]? = some s →
    text[r.offset / 4]? = some w → I.code (I.loc r.offset) = some (patchI w (I.address s.name + r.addend))

theorem fixes_bound {p : Nat} {ls : List Line} {f : JumpFix} (hf : f ∈ fixesAt p ls) :
    p ≤ f.off ∧ f.off + 4 ≤ p + sizeOfLines ls ∧ f.off % 4 = p % 4 := by
  induction ls generalizing p with
  | nil => cases hf
  | cons l ls ih =>
    rw [sizeOfLines_cons]
    rcases mem_append.1 hf with h | h
    · have : f.off = p ∧ l.size = 4 := by
        cases l with
        | jump | branch =>
          obtain rfl := mem_singleton.1 h
          exact ⟨rfl, rfl⟩
        | _ => cases h
      omega
    · have := ih h
      have : l.size % 4 = 0 := Nat.mul_mod_right 4 _
      omega

theorem fixes_distinct (p : Nat) (ls : List Line) (hp : p % 4 = 0) :
    (fixesAt p ls).Pairwise fun f f' => f.off / 4 ≠ f'.off / 4 := by
  induction ls generalizing p with
  | nil => exact .nil
  | cons l ls ih =>
    have hl : l.size % 4 = 0 := Nat.mul_mod_right 4 _
    refine pairwise_append.2 ⟨?_, ih (p + l.size) (by omega), fun f hf f' hf' => ?_⟩
    · cases l <;> first | exact .nil | exact pairwise_singleton _ _
    · have h1 := @fixes_bound p [l] f (by simpa [fixesAt] using hf)
      have h2 := fixes_bound hf'
      rw [sizeOfLines_cons, sizeOfLines_nil] at h1
      omega

/-- A line that the generator makes. -/
def Line.Ok : Line → Prop
  | .branch _ kind => kind = 2 ∨ kind = 3
  | .addr _ rd => rd < 32
  | _ => True

def JumpFix.Fits (labels : List LabelDef) (f : JumpFix) : Prop :=
  ∃ q : Nat, labelOff labels f.label = some q ∧ q % 4 = f.off % 4 ∧
    if f.kind = 1 then -2 ^ 20 ≤ (q : Int) - f.off ∧ (q : Int) - f.off < 2 ^ 20
    else -2 ^ 12 ≤ (q : Int) - f.off ∧ (q : Int) - f.off < 2 ^ 12

section
variable {I : Image} {g₀ : Gen} {pre post : List Line} {l : Line}

theorem text_line {i w : Nat} (hw : l.code[i]? = some w) :
    (runLines (pre ++ l :: post) g₀).obj.text[(g₀.pc + sizeOfLines pre) / 4 + i]? = some w := by
  rw [runLines_text, codeOf_append, codeOf_cons, Gen.pc, sizeOfLines, ← Nat.mul_add, Nat.mul_div_cancel_left _ (by decide),
    getElem?_append_right (by omega), getElem?_append_right (by omega), getElem?_append_left]
  · rwa [show g₀.obj.text.length + (codeOf pre).length + i - g₀.obj.text.length - (codeOf pre).length = i by omega]
  · have := (List.getElem?_eq_some_iff.1 hw).1
    omega

theorem fixes_line (hf : g₀.fixes = []) : (runLines (pre ++ l :: post) g₀).fixes = fixesAt g₀.pc pre ++
    (l.fixes (g₀.pc + sizeOfLines pre) ++ fixesAt (g₀.pc + sizeOfLines pre + l.size) post) := by
  rw [runLines_fixes, hf, nil_append, fixesAt_append, fixesAt]

theorem pc_mod (g : Gen) : g.pc % 4 = 0 := Nat.mul_mod_right 4 _

theorem line_mod (g : Gen) (ls : List Line) : (g.pc + sizeOfLines ls) % 4 = 0 := by
  have h1 := pc_mod g
  have h2 : sizeOfLines ls % 4 = 0 := Nat.mul_mod_right 4 _
  omega

theorem patched_plain (hf : g₀.fixes = []) (hl : ∀ p, l.fixes p = []) {i w : Nat} (hw : l.code[i]? = some w) :
    (patched (runLines (pre ++ l :: post) g₀))[(g₀.pc + sizeOfLines pre) / 4 + i]? = some w := by
  have hi := (List.getElem?_eq_some_iff.1 hw).1
  have hq := line_mod g₀ pre
  rw [patched, fixes_line hf, hl, nil_append, patch_other, text_line hw]
  intro f hmem
  rcases mem_append.1 hmem with h | h
  · have := fixes_bound h
    omega
  · have := fixes_bound h
    have : l.size = 4 * l.code.length := rfl
    omega

theorem patched_fix (hf : g₀.fixes = []) {f : JumpFix} {w : Nat} (hl : l.fixes (g₀.pc + sizeOfLines pre) = [f])
    (hoff : f.off = g₀.pc + sizeOfLines pre) (hw : l.code[0]? = some w) :
    (patched (runLines (pre ++ l :: post) g₀))[(g₀.pc + sizeOfLines pre) / 4]? =
      some (fixWord f.kind (fixTarget (runLines (pre ++ l :: post) g₀).labels f.label - f.off) w) := by
  have hd : (runLines (pre ++ l :: post) g₀).fixes.Pairwise fun f f' => f.off / 4 ≠ f'.off / 4 := by
    rw [runLines_fixes, hf]
    exact fixes_distinct _ _ (pc_mod g₀)
  have hmem : f ∈ (runLines (pre ++ l :: post) g₀).fixes := by
    rw [fixes_line hf, hl]
    simp
  rw [← hoff]
  refine patch_fix hmem hd ?_
  rw [hoff]
  exact text_line hw

theorem relocs_line (hrel : ∀ r ∈ g₀.obj.text_relocs, r.stop ≤ g₀.pc) : ∃ si,
    (∀ r ∈ (runLines (pre ++ l :: post) g₀).obj.text_relocs, r ∈ l.relocs (g₀.pc + sizeOfLines pre) si ∨
      r.stop ≤ g₀.pc + sizeOfLines pre ∨ g₀.pc + sizeOfLines pre + l.size ≤ r.offset) ∧
    (∀ r ∈ l.relocs (g₀.pc + sizeOfLines pre) si, r ∈ (runLines (pre ++ l :: post) g₀).obj.text_relocs) ∧
    ∀ name, l.ref = some name → ∃ s, (runLines (pre ++ l :: post) g₀).obj.syms[si]? = some s ∧ s.name = name := by
  obtain ⟨rs, hrs, hr⟩ := runLines_relocs pre g₀
  obtain ⟨si, hl, hname⟩ := run_relocs l (runLines pre g₀)
  obtain ⟨rs', hrs', hr'⟩ := runLines_relocs post (l.run (runLines pre g₀))
  have hall : (runLines (pre ++ l :: post) g₀).obj.text_relocs =
      g₀.obj.text_relocs ++ rs ++ l.relocs (g₀.pc + sizeOfLines pre) si ++ rs' := by
    rw [runLines_append, runLines_cons, hrs', hl, hrs, runLines_pc]
  refine ⟨si, fun r hmem => ?_, fun r hmem => ?_, fun name h => ?_⟩
  · rw [hall] at hmem
    simp only [mem_append] at hmem
    rcases hmem with ((h | h) | h) | h
    · have := hrel r h
      exact .inr (.inl (by omega))
    · exact .inr (.inl (hr r h).2)
    · exact .inl h
    · have := (hr' r h).1
      rw [run_pc, runLines_pc] at this
      exact .inr (.inr this)
  · rw [hall]
    simp [hmem]
  · obtain ⟨s, hs, hsn⟩ := hname name h
    obtain ⟨s', hs', hn, -⟩ := runLines_keeps post (l.run (runLines pre g₀)) si s hs
    rw [runLines_append, runLines_cons]
    exact ⟨s', hs', hn.trans hsn⟩

theorem labelOff_mem {labels : List LabelDef} (hd : labels.Pairwise fun a b => a.id ≠ b.id) {d : LabelDef}
    (hmem : d ∈ labels) : labelOff labels d.id = some d.off := by
  induction labels with
  | nil => cases hmem
  | cons a labels ih =>
    rw [pairwise_cons] at hd
    rcases mem_cons.1 hmem with rfl | h
    · simp [labelOff]
    · have := ih hd.2 h
      rw [labelOff, find?_cons_of_neg (by simpa using hd.1 d h)]
      exact this

end

/-! ## The words of a reference -/

theorem decode_lui {rd : Nat} (hd : rd < 32) (v : Int) :
    decode (patchU (rvU 0 rd 0x37) v) = some (.lui rd (sext 32 (unsigned v / 2 ^ 12 * 2 ^ 12))) := by
  have hw : patchU (rvU 0 rd 0x37) v = unsigned v / 2 ^ 12 * 2 ^ 12 + (rd * 2 ^ 7 + 0x37) := by
    rw [patchU_eq, rvU_eq hd (by decide), show unsigned 0 = 0 from rfl]
    omega
  have hop : bits (patchU (rvU 0 rd 0x37) v) 0 7 = 0x37 ∧ bits (patchU (rvU 0 rd 0x37) v) 7 5 = rd := by
    rw [hw]
    unfold bits
    omega
  simp only [decode, hop, immU_patchU]

theorem decode_addi {rd : Nat} (hd : rd < 32) (v : Int) :
    decode (patchI (rvAddi rd rd 0) v) = some (.opImm .add rd rd (sext 12 (unsigned v % 2 ^ 12))) := by
  have hw : patchI (rvAddi rd rd 0) v = rvI v rd 0 rd 0x13 := by
    rw [patchI_eq, rvAddi, rvI_eq hd (by decide) hd (by decide), rvI_eq hd (by decide) hd (by decide),
      show unsigned 0 = 0 from rfl]
    omega
  have hop := @rvI_fields rd 0 rd 0x13 v hd (by decide) hd (by decide)
  rw [← hw] at hop
  simp only [decode, hop, immI_patchI]

theorem parts_sum {v : Int} (hv : -2 ^ 31 - 2 ^ 11 ≤ v ∧ v < 2 ^ 31 - 2 ^ 11) :
    BitVec.ofInt 64 (sext 32 (unsigned (hi20 v) / 2 ^ 12 * 2 ^ 12)) + BitVec.ofInt 64 (sext 12 (unsigned v % 2 ^ 12)) =
      BitVec.ofInt 64 v := by
  rw [← BitVec.ofInt_add, ofInt_eq_iff, exact_pair]
  unfold wrap64
  omega

/-! ## Code that is installed -/

theorem decode_fixJump (d : Int) (w : Nat) : decode (fixWord 1 d w) = some (.jal 0 (cutOff 21 d)) := decode_rvJ (by decide)

theorem decode_fixBranch {kind : Nat} (hk : kind ≠ 1) (d : Int) :
    decode (fixWord kind d (rvB 0 0 10 0)) = some (.beq 10 0 (cutOff 13 d)) ∧
      decode (fixWord kind d (rvB 0 0 10 1)) = some (.bne 10 0 (cutOff 13 d)) := by
  unfold fixWord
  rw [if_neg hk, if_neg hk]
  exact decode_rvB (by decide) (by decide)

section
variable {I : Image} {g₀ : Gen} {pre post : List Line} {l : Line}

theorem lineAt (hf : g₀.fixes = []) (hrel : ∀ r ∈ g₀.obj.text_relocs, r.stop ≤ g₀.pc)
    (hload : Loaded I (patched (runLines (pre ++ l :: post) g₀)) (runLines (pre ++ l :: post) g₀).obj)
    (hoff : I.off = labelOff (runLines (pre ++ l :: post) g₀).labels)
    (hd : (runLines (pre ++ l :: post) g₀).labels.Pairwise fun a b => a.id ≠ b.id)
    (hfit : ∀ f ∈ l.fixes (g₀.pc + sizeOfLines pre), f.Fits (runLines (pre ++ l :: post) g₀).labels)
    (haddr : ∀ name, l.ref = some name → -2 ^ 31 - 2 ^ 11 ≤ I.address name ∧ I.address name < 2 ^ 31 - 2 ^ 11)
    (hok : l.Ok) : I.LineAt (g₀.pc + sizeOfLines pre) l := by
  obtain ⟨si, hothers, hown, hname⟩ := @relocs_line _ pre post l hrel
  have hq := line_mod g₀ pre
  -- a word that no relocation touches is fetched as it was patched
  have hplain : l.relocs (g₀.pc + sizeOfLines pre) si = [] → ∀ i w, i < l.code.length →
      (patched (runLines (pre ++ l :: post) g₀))[(g₀.pc + sizeOfLines pre) / 4 + i]? = some w →
      I.code (I.loc (g₀.pc + sizeOfLines pre + 4 * i)) = some w := by
    intro hnil i w hi hw
    have hsize : l.size = 4 * l.code.length := rfl
    rw [show g₀.pc + sizeOfLines pre + 4 * i = 4 * ((g₀.pc + sizeOfLines pre) / 4 + i) by omega]
    refine hload.plain _ w hw fun r hr => ?_
    rcases hothers r hr with h | h | h
    · rw [hnil] at h
      cases h
    · exact .inl (by omega)
    · exact .inr (by omega)
  cases l with
  | words ws =>
    intro i w hw
    exact hplain rfl i w (List.getElem?_eq_some_iff.1 hw).1 (patched_plain hf (fun _ => rfl) hw)
  | jump lab =>
    obtain ⟨q, hlab, hmod, hrange⟩ := hfit _ (mem_singleton.2 rfl)
    refine ⟨q, hoff ▸ hlab, ?_⟩
    have hcode := hplain rfl 0 _ Nat.one_pos (patched_fix hf rfl rfl rfl)
    rw [Nat.mul_zero, Nat.add_zero] at hcode
    dsimp only at hlab hmod hrange
    rw [if_pos rfl] at hrange
    have hcut := (cutOff_eq_iff (.inr rfl) _).2 ⟨hrange.1, hrange.2, by omega⟩
    rw [Image.fetch, hcode, fixTarget, hlab]
    exact (decode_fixJump _ _).trans (congrArg (some <| Instr.jal 0 ·) hcut)
  | branch lab kind =>
    obtain ⟨q, hlab, hmod, hrange⟩ := hfit _ (mem_singleton.2 rfl)
    refine ⟨q, hoff ▸ hlab, ?_⟩
    have hcode := hplain rfl 0 _ Nat.one_pos (patched_fix hf rfl rfl rfl)
    rw [Nat.mul_zero, Nat.add_zero] at hcode
    dsimp only at hlab hmod hrange
    have hk : kind ≠ 1 := by rcases hok with rfl | rfl <;> decide
    rw [if_neg hk] at hrange
    have hcut := (cutOff_eq_iff (.inl rfl) _).2 ⟨hrange.1, hrange.2, by omega⟩
    rw [Image.fetch, hcode, fixTarget, hlab]
    rcases hok with rfl | rfl
    · exact (decode_fixBranch hk _).1.trans (congrArg (some <| Instr.beq 10 0 ·) hcut)
    · exact (decode_fixBranch hk _).2.trans (congrArg (some <| Instr.bne 10 0 ·) hcut)
  | label id =>
    show I.off id = some _
    rw [hoff]
    refine labelOff_mem hd (d := ⟨id, g₀.pc + sizeOfLines pre⟩) ?_
    rw [runLines_labels, labelsAt_append, labelsAt]
    simp [Line.labels]
  | addr s rd =>
    obtain ⟨t, ht, htn⟩ := hname s.name rfl
    have hv := haddr s.name rfl
    have hhi := hload.hi _ (hown ⟨g₀.pc + sizeOfLines pre, R_RISCV_HI20, si, 0⟩ (by simp [Line.relocs])) rfl t (rvU 0 rd 0x37) ht
      (patched_plain (i := 0) hf (fun _ => rfl) rfl)
    have hlo := hload.lo _ (hown ⟨g₀.pc + sizeOfLines pre + 4, R_RISCV_LO12_I, si, 0⟩ (by simp [Line.relocs])) rfl t (rvAddi rd rd 0) ht (by
      dsimp only
      rw [show (g₀.pc + sizeOfLines pre + 4) / 4 = (g₀.pc + sizeOfLines pre) / 4 + 1 by omega]
      exact patched_plain hf (fun _ => rfl) rfl)
    rw [htn, add_zero] at hhi hlo
    refine ⟨_, _, ?_, ?_, parts_sum hv⟩
    · rw [Image.fetch, hhi]
      exact decode_lui hok _
    · rw [Image.fetch, hlo]
      exact decode_addi hok _
  | str | call | diag | halt => trivial

end

/-- The lines of a function are in memory, from the state `g₀` on, with their jumps patched. -/
structure Complete (I : Image) (g₀ : Gen) (ls : List Line) : Prop where
  fixes : g₀.fixes = []
  relocs : ∀ r ∈ g₀.obj.text_relocs, r.stop ≤ g₀.pc
  loaded : Loaded I (patched (runLines ls g₀)) (runLines ls g₀).obj
  off : I.off = labelOff (runLines ls g₀).labels
  distinct : (runLines ls g₀).labels.Pairwise fun a b => a.id ≠ b.id

/-- The lines `mid` at offset `p` go to labels in reach and name symbols in reach. -/
structure InReach (I : Image) (labels : List LabelDef) (p : Nat) (mid : List Line) : Prop where
  jumps : ∀ f ∈ fixesAt p mid, f.Fits labels
  names : ∀ l ∈ mid, ∀ name, l.ref = some name → -2 ^ 31 - 2 ^ 11 ≤ I.address name ∧ I.address name < 2 ^ 31 - 2 ^ 11

theorem Complete.installed {I : Image} {g₀ : Gen} {pre mid post : List Line} (h : Complete I g₀ (pre ++ mid ++ post))
    (hr : InReach I (runLines (pre ++ mid ++ post) g₀).labels (g₀.pc + sizeOfLines pre) mid) (hok : ∀ l ∈ mid, l.Ok) :
    I.Installed (g₀.pc + sizeOfLines pre) mid := by
  induction mid generalizing pre with
  | nil => trivial
  | cons l mid ih =>
    have hsplit : pre ++ l :: mid ++ post = pre ++ l :: (mid ++ post) := by simp
    have hsplit' : pre ++ l :: mid ++ post = pre ++ [l] ++ mid ++ post := by simp
    refine ⟨?_, ?_⟩
    · rw [hsplit] at h hr
      exact lineAt h.fixes h.relocs h.loaded h.off h.distinct (fun f hf => hr.jumps f (mem_append_left _ hf))
        (fun name hn => hr.names l mem_cons_self name hn) (hok l mem_cons_self)
    · rw [hsplit'] at h hr
      have hsize : g₀.pc + sizeOfLines pre + l.size = g₀.pc + sizeOfLines (pre ++ [l]) := by
        rw [sizeOfLines_append, sizeOfLines_cons, sizeOfLines_nil, Nat.add_zero, Nat.add_assoc]
      rw [hsize]
      refine ih h ⟨fun f hf => hr.jumps f (mem_append_right _ ?_), fun l' hl' => hr.names l' (mem_cons_of_mem _ hl')⟩
        fun l' hl' => hok l' (mem_cons_of_mem _ hl')
      rw [hsize]
      exact hf

end Lcc
