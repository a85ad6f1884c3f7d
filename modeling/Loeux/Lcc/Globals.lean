import Loeux.Lcc.Reloc
/-!
# Global names

Which definition of a name the linker collects, and which one a reference gets: a
reference in an object that defines the name itself never looks at the others.
-/

namespace Lcc

open Lib Stop List

/-- The definition of `n` among those of a list: a strong one, if there is any. -/
def choose (ds : List GDef) (n : Text) : Option GDef :=
  (ds.find? fun d => d.name = n ∧ d.bind = STB_GLOBAL).or (ds.find? fun d => d.name = n)

section

variable (o : LinkObj)

def LinkObj.syms : Nat := (o.shdr (o.sym_sec.getD 0)).sh_offset

def LinkObj.strs : Nat := (o.shdr (o.str_sec.getD 0)).sh_offset

/-- The definition that symbol `j` makes, if it makes one for others. -/
def LinkObj.global? (j : Nat) : Option GDef :=
  let s := readSym o.file.bytes (o.syms + 24 * j)
  if (s.st_info / 16 ≠ STB_GLOBAL ∧ s.st_info / 16 ≠ STB_WEAK) ∨ s.st_shndx = SHN_UNDEF then none
  else some ⟨stringAt o.file.bytes (o.strs + s.st_name) STRING_ROUNDS, symbolAddress o s, s.st_info / 16⟩

def LinkObj.globals : List GDef :=
  (range ((o.shdr (o.sym_sec.getD 0)).sh_size / 24)).tail.filterMap o.global?

end

/-- The program changes no definition that was collected. -/
def SameDefs {α : Type} (p : L α) : Prop := ∀ l, wp (fun _ => True) p (fun _ l' => l'.gdefs = l.gdefs) l

section

variable {α β : Type} {p q : L α}

theorem SameDefs.bind {f : α → L β} (hp : SameDefs p) (hf : ∀ a, SameDefs (f a)) : SameDefs (p >>= f) := by
  intro l
  rw [wp_bind]
  exact wp_mono (hp l) fun a l1 h1 => wp_mono (hf a l1) fun _ _ h2 => h2.trans h1

theorem SameDefs.ite {c : Prop} [Decidable c] (hp : SameDefs p) (hq : SameDefs q) : SameDefs (if c then p else q) := by
  split
  · exact hp
  · exact hq

end

/-- The objects as `link_final` places them. -/
def placed (files : List File) : List LinkObj := (layout (files.map fun f => (linkobjParse f).2)).1

/-- The address that a name has for all objects. -/
def chosen (objs : List LinkObj) (n : Text) : Option Nat := (choose (objs.flatMap LinkObj.globals) n).map GDef.addr

/-- The first word of the text gets the address of `f`, which the object itself defines at the second one. With three
symbols it also defines `_start`. -/
def defines (info nsyms : UInt8) : File :=
  Sample.object 1 nsyms [(400, [1, 0, 0, 0, 1]), (464, [1, 0, 0, 0, info, 0, 1, 0, 4]), (488, [36, 0, 0, 0, 0x10, 0, 1])]

/-- `f` is weak in the first object and strong in the second. -/
def pair : List File := [defines 0x20 3, defines 0x10 2]

end Lcc
