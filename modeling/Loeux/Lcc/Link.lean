import Loeux.Lcc.Gen
/-!
# The linker

Object files as the linker reads them, the layout of their sections, the resolution of
symbols and the relocation of the final text and data: `linkobj_parse`, `link_final` and
what they call. A file is a buffer with a size; what lies behind its end is arbitrary.
Diagnostics are printed and linking goes on. A variable that is read before it is set
holds the number `junk`.
-/

namespace Lcc

open Lib

def TEXT_BASE : Nat := 0x1000
def PAGE_SIZE : Nat := 4096

def SHT_RELA : Nat := 4
def SHT_NOBITS : Nat := 8
def SHF_ALLOC : Nat := 2
def SHF_EXECINSTR : Nat := 4
def SHN_UNDEF : Nat := 0
def SHN_ABS : Nat := 0xfff1
def STB_WEAK : Nat := 2

def R_RISCV_NONE : Nat := 0
def R_RISCV_32 : Nat := 1
def R_RISCV_BRANCH : Nat := 16
def R_RISCV_JAL : Nat := 17
def R_RISCV_CALL_PLT : Nat := 19
def R_RISCV_PCREL_HI20 : Nat := 23
def R_RISCV_PCREL_LO12_I : Nat := 24
def R_RISCV_PCREL_LO12_S : Nat := 25
def R_RISCV_LO12_S : Nat := 28
def R_RISCV_ALIGN : Nat := 43
def R_RISCV_RVC_BRANCH : Nat := 44
def R_RISCV_RVC_JUMP : Nat := 45
def R_RISCV_RELAX : Nat := 51

structure File where
  bytes : Bytes
  size : Nat

structure Shdr where
  sh_name : Nat
  sh_type : Nat
  sh_flags : Nat
  sh_offset : Nat
  sh_size : Nat
  sh_info : Nat
  sh_addralign : Nat

structure Sym where
  st_name : Nat
  st_info : Nat
  st_shndx : Nat
  st_value : Nat

structure Rela where
  r_offset : Nat
  r_info : Nat
  r_addend : Int
  deriving DecidableEq

def readShdr (b : Bytes) (o : Nat) : Shdr where
  sh_name := Bytes.get 4 o b
  sh_type := Bytes.get 4 (o + 4) b
  sh_flags := Bytes.get 8 (o + 8) b
  sh_offset := Bytes.get 8 (o + 24) b
  sh_size := Bytes.get 8 (o + 32) b
  sh_info := Bytes.get 4 (o + 44) b
  sh_addralign := Bytes.get 8 (o + 48) b

def readSym (b : Bytes) (o : Nat) : Sym where
  st_name := Bytes.get 4 o b
  st_info := Bytes.get 1 (o + 4) b
  st_shndx := Bytes.get 2 (o + 6) b
  st_value := Bytes.get 8 (o + 8) b

def readRela (b : Bytes) (o : Nat) : Rela where
  r_offset := Bytes.get 8 o b
  r_info := Bytes.get 8 (o + 8) b
  r_addend := long64 (Bytes.get 8 (o + 16) b)

def rSym (info : Nat) : Nat := info / 2 ^ 32 % 2 ^ 32

def rType (info : Nat) : Nat := info % 2 ^ 32

def stringAt (b : Bytes) (o : Nat) : Nat → Text
  | 0 => []
  | fuel + 1 => if b o = 0 then [] else b o :: stringAt b (o + 1) fuel

/-- Rounds for a string; no buffer is longer. -/
def STRING_ROUNDS : Nat := 2 ^ 64

/-- Whether the string at `o` begins with `pre`. -/
def startsWith (b : Bytes) (o : Nat) (pre : Text) : Bool := pre.zipIdx.all fun (c, i) => b (o + i) = c

def isString (b : Bytes) (o : Nat) (s : Text) : Bool := startsWith b o (s ++ [0])

structure LinkObj where
  file : File
  e_shnum : Nat := 0
  /-- Where the section headers lie in the file, once known. -/
  sh_off : Option Nat := none
  /-- Where the names of the sections lie in the file; the arrays exist once this is known. -/
  name_off : Option Nat := none
  /-- How many sections have got their name. -/
  named : Nat := 0
  sec_addr : Nat → Nat := fun _ => 0
  /-- 0 ignored, 1 text, 2 data, 3 bss. -/
  sec_kind : Nat → Nat := fun _ => 0
  sym_sec : Option Nat := none
  str_sec : Option Nat := none

def LinkObj.shdr (o : LinkObj) (i : Nat) : Shdr := readShdr o.file.bytes (o.sh_off.getD 0 + 64 * i)

/-! ## Reading objects -/

def headerOk (f : File) : Bool :=
  let b := f.bytes
  64 ≤ f.size ∧ b 0 = 0x7f ∧ b 1 = 69 ∧ b 2 = 76 ∧ b 3 = 70 ∧ b 4 = 2 ∧ b 5 = 1 ∧
    Bytes.get 2 18 b = 243 ∧ Bytes.get 2 16 b = 1

/-- Sections that take no part in loading. -/
def ignoredName (b : Bytes) (o : Nat) : Bool :=
  [".eh_frame", ".debug", ".comment", ".riscv", ".note", ".zdebug"].any fun p => startsWith b o (ascii p)

/-- The kind of a section, `none` if it lies outside the file. -/
def sectionKind (f : File) (s : Shdr) (name : Nat) : Option Nat :=
  if ignoredName f.bytes name then some 0
  else if s.sh_type = SHT_NOBITS then some (if s.sh_flags &&& SHF_ALLOC ≠ 0 then 3 else 0)
  else if f.size < s.sh_offset ∨ f.size - s.sh_offset < s.sh_size then none
  else if s.sh_flags &&& SHF_ALLOC = 0 then some 0
  else if s.sh_flags &&& SHF_EXECINSTR ≠ 0 ∨ startsWith f.bytes name (ascii ".text") then some 1
  else some 2

/-- Sections from `i` on; `k` are left. -/
def parseSections (shstr_off shstr_size : Nat) : (k i : Nat) → LinkObj → Bool × LinkObj
  | 0, _, o => (true, o)
  | k + 1, i, o =>
    let s := o.shdr i
    if shstr_size ≤ s.sh_name then (false, o)
    else
      let name := shstr_off + s.sh_name
      let o := { o with
        named := i + 1
        sym_sec := if isString o.file.bytes name (ascii ".symtab") then some i else o.sym_sec
        str_sec := if isString o.file.bytes name (ascii ".strtab") then some i else o.str_sec }
      match sectionKind o.file s name with
      | none => (false, o)
      | some kind => parseSections shstr_off shstr_size k (i + 1)
          { o with sec_kind := Function.update o.sec_kind i kind }

/-- `linkobj_parse`: whether the object is well formed, and what was read of it. -/
def linkobjParse (f : File) : Bool × LinkObj :=
  if f.size < 64 then (false, ⟨f, 0, none, none, 0, fun _ => 0, fun _ => 0, none, none⟩)
  else
    let b := f.bytes
    let e_shoff := Bytes.get 8 40 b
    let e_shnum := Bytes.get 2 60 b
    let e_shstrndx := Bytes.get 2 62 b
    let o : LinkObj := ⟨f, e_shnum, none, none, 0, fun _ => 0, fun _ => 0, none, none⟩
    if ¬headerOk f ∨ e_shnum ≤ e_shstrndx ∨ f.size < e_shoff ∨ (f.size - e_shoff) / 64 < e_shnum then (false, o)
    else
      let o := { o with sh_off := some e_shoff }
      let shstr := o.shdr e_shstrndx
      if f.size < shstr.sh_offset ∨ f.size - shstr.sh_offset < shstr.sh_size then (false, o)
      else
        match parseSections shstr.sh_offset shstr.sh_size e_shnum 0 { o with name_off := some shstr.sh_offset } with
        | (false, o) => (false, o)
        | (true, o) => (o.sym_sec.isSome && o.str_sec.isSome, o)

/-! ## Patching -/

def patchI (x : Nat) (imm : Int) : Nat := (x &&& 0x000fffff) ||| (unsigned imm &&& 0xfff) <<< 20

def patchS (x : Nat) (imm : Int) : Nat :=
  let u := unsigned imm
  (x &&& 0x01fff07f) ||| (u >>> 5 &&& 0x7f) <<< 25 ||| (u &&& 0x1f) <<< 7

def patchU (x : Nat) (imm : Int) : Nat := (x &&& 0x00000fff) ||| (unsigned imm &&& 0xfffff000)

def patchB (x : Nat) (imm : Int) : Nat :=
  let u := unsigned imm
  (x &&& 0x01fff07f) ||| (u >>> 12 &&& 1) <<< 31 ||| (u >>> 5 &&& 0x3f) <<< 25 ||| (u >>> 1 &&& 0xf) <<< 8 |||
    (u >>> 11 &&& 1) <<< 7

def patchJ (x : Nat) (imm : Int) : Nat :=
  let u := unsigned imm
  (x &&& 0x00000fff) ||| (u >>> 20 &&& 1) <<< 31 ||| (u >>> 1 &&& 0x3ff) <<< 21 ||| (u >>> 11 &&& 1) <<< 20 |||
    (u >>> 12 &&& 0xff) <<< 12

def patchRvcBranch (x : Nat) (imm : Int) : Nat :=
  let u := unsigned imm
  (x &&& 0xe383) ||| (u >>> 8 &&& 1) <<< 12 ||| (u >>> 4 &&& 1) <<< 11 ||| (u >>> 3 &&& 1) <<< 10 |||
    (u >>> 7 &&& 1) <<< 6 ||| (u >>> 6 &&& 1) <<< 5 ||| (u >>> 2 &&& 1) <<< 4 ||| (u >>> 1 &&& 1) <<< 3 |||
    (u >>> 5 &&& 1) <<< 2

def patchRvcJump (x : Nat) (imm : Int) : Nat :=
  let u := unsigned imm
  (x &&& 0xe003) ||| (u >>> 11 &&& 1) <<< 12 ||| (u >>> 4 &&& 1) <<< 11 ||| (u >>> 9 &&& 1) <<< 10 |||
    (u >>> 8 &&& 1) <<< 9 ||| (u >>> 10 &&& 1) <<< 8 ||| (u >>> 6 &&& 1) <<< 7 ||| (u >>> 7 &&& 1) <<< 6 |||
    (u >>> 3 &&& 1) <<< 5 ||| (u >>> 2 &&& 1) <<< 4 ||| (u >>> 1 &&& 1) <<< 3 ||| (u >>> 5 &&& 1) <<< 2

/-! ## Symbols -/

structure GDef where
  name : Text
  addr : Nat
  bind : Nat

structure Link where
  gdefs : List GDef := []
  final_text : File := ⟨Bytes.zero, 0⟩
  final_data : File := ⟨Bytes.zero, 0⟩
  data_base : Nat := 0
  junk : Nat
  diags : List Text := []

abbrev L := Stop Halt Link

def report (msg : Text) : L Unit := modify fun l => { l with diags := l.diags ++ [msg] }

/-- The symbol table: how many symbols, and where they lie. `none` if its size is not a
multiple of a symbol's. An object without section headers ends the process. -/
def linkSymbols (o : LinkObj) : L (Option (Nat × Nat)) :=
  match o.sh_off, o.sym_sec with
  | none, _ => throw .crash
  | some _, none => throw .undefined
  | some _, some i =>
    let ss := o.shdr i
    pure (if ss.sh_size % 24 ≠ 0 then none else some (ss.sh_size / 24, ss.sh_offset))

def linkStrtab (o : LinkObj) : L Nat :=
  match o.sh_off, o.str_sec with
  | none, _ => throw .crash
  | some _, none => throw .undefined
  | some _, some i => pure (o.shdr i).sh_offset

def gdefFind (l : Link) (name : Text) : Option Nat := (l.gdefs.find? fun d => d.name = name).map GDef.addr

def symbolAddress (o : LinkObj) (s : Sym) : Nat :=
  if s.st_shndx = SHN_UNDEF then 0
  else if s.st_shndx = SHN_ABS then s.st_value
  else if o.e_shnum ≤ s.st_shndx then 0
  else (o.sec_addr s.st_shndx + s.st_value) % 2 ^ 64

def resolveSymbol (o : LinkObj) (s : Sym) (name : Text) : L Nat := do
  if s.st_shndx ≠ SHN_UNDEF then pure (symbolAddress o s)
  else
    let l ← get
    match gdefFind l name with
    | some addr => pure addr
    | none => do
      report (ascii "lcc: undefined symbol: " ++ name)
      report (ascii "lcc: link aborted")
      pure l.junk

/-! ## Relocation -/

def relasFrom (b : Bytes) (off : Nat) : (cnt k : Nat) → List Rela
  | 0, _ => []
  | cnt + 1, k => readRela b (off + 24 * k) :: relasFrom b off cnt (k + 1)

def LinkObj.relas (o : LinkObj) (j : Nat) : List Rela :=
  relasFrom o.file.bytes (o.shdr j).sh_offset ((o.shdr j).sh_size / 24) 0

/-- The symbol that the first `R_RISCV_PCREL_HI20` at `hi_addr` in section `target_sec` refers to. -/
def findPcrelHi (o : LinkObj) (target_sec hi_addr : Nat) : L (Option Nat) := do
  match ← linkSymbols o with
  | none => pure none
  | some (n, syms) => do
    let str ← linkStrtab o
    let rec search : List Nat → L (Option Nat)
      | [] => pure none
      | i :: is =>
        let rs := o.shdr i
        if rs.sh_type ≠ SHT_RELA ∨ rs.sh_info ≠ target_sec then search is
        else if o.named ≤ i then throw .crash
        else if startsWith o.file.bytes (o.name_off.getD 0 + rs.sh_name) (ascii ".rela") = false then search is
        else
          match (o.relas i).find? fun r => rType r.r_info = R_RISCV_PCREL_HI20 ∧
              (o.sec_addr target_sec + r.r_offset) % 2 ^ 64 = hi_addr with
          | none => search is
          | some r =>
            let si := rSym r.r_info
            if n % 2 ^ 32 ≤ si then pure none
            else do
              let s := readSym o.file.bytes (syms + 24 * si)
              some <$> resolveSymbol o s (stringAt o.file.bytes (str + s.st_name) STRING_ROUNDS)
    search (List.range o.e_shnum)

/-- Where a relocation writes. -/
inductive Buffer
  | text | data

/-- Change the `n` bytes at `off` of the buffer; leaving it is undefined. -/
def patchAt (buf : Buffer) (n off : Nat) (f : Nat → Nat) : L Unit := do
  let l ← get
  match buf with
  | .text =>
    if l.final_text.size < off + n then throw .undefined
    else set { l with final_text.bytes := Bytes.put n off (f (Bytes.get n off l.final_text.bytes)) l.final_text.bytes }
  | .data =>
    if l.final_data.size < off + n then throw .undefined
    else set { l with final_data.bytes := Bytes.put n off (f (Bytes.get n off l.final_data.bytes)) l.final_data.bytes }

def hi20 (d : Int) : Int := (d + 0x800) / 4096 * 4096

/-- `apply_relocation` once `S`, the buffer and the offset are known. -/
def applyKind (o : LinkObj) (target_sec type : Nat) (s : Sym) (A : Int) (S P : Nat) (buf : Buffer) (off : Nat) : L Unit :=
  let v : Int := S + A
  let d : Int := S + A - P
  if type = R_RISCV_32 then patchAt buf 4 off fun _ => unsigned v
  else if type = R_RISCV_64 then patchAt buf 8 off fun _ => (v % 2 ^ 64).toNat
  else if type = R_RISCV_JAL then patchAt buf 4 off fun x => patchJ x d
  else if type = R_RISCV_BRANCH then patchAt buf 4 off fun x => patchB x d
  else if type = R_RISCV_RVC_BRANCH then patchAt buf 2 off fun x => patchRvcBranch x d
  else if type = R_RISCV_RVC_JUMP then patchAt buf 2 off fun x => patchRvcJump x d
  else if type = R_RISCV_CALL ∨ type = R_RISCV_CALL_PLT then do
    patchAt buf 4 off fun x => patchU x (hi20 d)
    patchAt buf 4 (off + 4) fun x => patchI x (d - hi20 d)
  else if type = R_RISCV_HI20 then patchAt buf 4 off fun x => patchU x (hi20 v)
  else if type = R_RISCV_LO12_I then patchAt buf 4 off fun x => patchI x v
  else if type = R_RISCV_LO12_S then patchAt buf 4 off fun x => patchS x v
  else if type = R_RISCV_PCREL_HI20 then patchAt buf 4 off fun x => patchU x (hi20 d)
  else if type = R_RISCV_PCREL_LO12_I ∨ type = R_RISCV_PCREL_LO12_S then do
    let hi_addr := symbolAddress o s
    let target ← match ← findPcrelHi o target_sec hi_addr with
      | some target => pure target
      | none => do
        report (ascii "lcc: unmatched PCREL_LO12 relocation")
        pure (← get).junk
    let d : Int := target + A - hi_addr
    patchAt buf 4 off fun x => if type = R_RISCV_PCREL_LO12_I then patchI x d else patchS x d
  else report (ascii "lcc: unsupported RISC-V relocation")

/-- `apply_relocation` for a relocation of section `target_sec`, with the symbols at `syms`
and their names at `strtab`. -/
def applyRelocation (o : LinkObj) (target_sec : Nat) (r : Rela) (syms strtab : Nat) : L Unit := do
  let si := rSym r.r_info
  let type := rType r.r_info
  if type = R_RISCV_NONE ∨ type = R_RISCV_RELAX ∨ type = R_RISCV_ALIGN then pure ⟨⟩
  else do
    if 2 ^ 31 ≤ target_sec ∨ o.e_shnum ≤ target_sec then do
      report (ascii "lcc: bad relocation target section")
      throw .undefined
    else pure ⟨⟩
    if o.sec_kind target_sec = 0 then report (ascii "lcc: relocation targets a non-loadable section") else pure ⟨⟩
    if 0x7fffffff ≤ si then report (ascii "lcc: bad relocation symbol index") else pure ⟨⟩
    let s := readSym o.file.bytes (syms + 24 * si)
    let S ← resolveSymbol o s (stringAt o.file.bytes (strtab + s.st_name) STRING_ROUNDS)
    let P := (o.sec_addr target_sec + r.r_offset) % 2 ^ 64
    if o.sec_kind target_sec = 1 then
      applyKind o target_sec type s r.r_addend S P .text ((P + (2 ^ 64 - TEXT_BASE)) % 2 ^ 64)
    else
      applyKind o target_sec type s r.r_addend S P .data ((P + (2 ^ 64 - (← get).data_base)) % 2 ^ 64)

/-! ## Layout and output -/

/-- Place the sections of one kind one after the other from `cur` on. -/
def layoutObj (kind dflt : Nat) (o : LinkObj) : (js : List Nat) → (cur : Nat) → LinkObj × Nat
  | [], cur => (o, cur)
  | j :: js, cur =>
    if o.sec_kind j ≠ kind then layoutObj kind dflt o js cur
    else
      let s := o.shdr j
      let cur := alignUp cur (if s.sh_addralign = 0 then dflt else s.sh_addralign) % 2 ^ 64
      layoutObj kind dflt { o with sec_addr := Function.update o.sec_addr j cur } js ((cur + s.sh_size) % 2 ^ 64)

def layoutAll (kind dflt : Nat) : List LinkObj → Nat → List LinkObj × Nat
  | [], cur => ([], cur)
  | o :: os, cur =>
    let (o, cur) := layoutObj kind dflt o (List.range o.e_shnum) cur
    let (os, cur) := layoutAll kind dflt os cur
    (o :: os, cur)

/-- The sections of all objects placed: text, data and bss in that order. The numbers are
the end of the text, the start and the end of the data and the end of the bss. -/
def layout (objs : List LinkObj) : List LinkObj × Nat × Nat × Nat × Nat :=
  let (objs, text_end) := layoutAll 1 4 objs TEXT_BASE
  let data_base := alignUp text_end PAGE_SIZE
  let (objs, data_end) := layoutAll 2 1 objs data_base
  let (objs, bss_cur) := layoutAll 3 1 objs data_end
  (objs, text_end, data_base, data_end, bss_cur)

end Lcc
