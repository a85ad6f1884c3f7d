import Loeux.Mm.Memory
/-!
# Page tables

`mm/vm.c`. A page table is a page of 512 entries of 8 bytes; an entry of the two
upper levels points to a table, one of the last level to the page that is mapped.
Addresses are 64-bit numbers, and their arithmetic wraps.
-/

namespace Mm

open Lib

/-! ## Layout of the address space -/

def MAX_VA : Nat := 2 ^ 38

/-! ## Arithmetic of addresses and entries -/

def add (a b : Nat) : Nat := (a + b) % 2 ^ 64

def sub (a b : Nat) : Nat := (a + (2 ^ 64 - b % 2 ^ 64)) % 2 ^ 64

def mul (a b : Nat) : Nat := a * b % 2 ^ 64

def PTE_V : Nat := 1
def PTE_R : Nat := 2
def PTE_W : Nat := 4
def PTE_X : Nat := 8
def PTE_U : Nat := 16

def PX (level va : Nat) : Nat := va / 2 ^ (12 + 9 * level) % 512

def PTE2PA (pte : Nat) : Nat := pte / 1024 * 4096 % 2 ^ 64

def PA2PTE (pa : Nat) : Nat := pa / 4096 * 1024

def PTE_FLAGS (pte : Nat) : Nat := pte % 1024

def PGROUNDDOWN (a : Nat) : Nat := a / 4096 * 4096

/-- The flags of an entry. -/
def isV (pte : Nat) : Bool := pte.testBit 0
def isR (pte : Nat) : Bool := pte.testBit 1
def isW (pte : Nat) : Bool := pte.testBit 2
def isU (pte : Nat) : Bool := pte.testBit 4

/-! ## Entries in memory -/

def Mem.pte (m : Mem) (pt i : Nat) : Nat := (m.page pt).get 8 (8 * i)

def Mem.setPte (m : Mem) (pt i v : Nat) : Mem := m.setPage pt ((m.page pt).put 8 (8 * i) v)

def Mem.touch (m : Mem) (pt : Nat) : Mem := if m.used pt then m else { m with stale := m.stale + 1 }

def readPte (pt i : Nat) : M Nat := do
  modify fun m => m.touch pt
  let m ← get
  pure (m.pte pt i)

def writePte (pt i v : Nat) : M Unit := modify fun m => (m.touch pt).setPte pt i v

/-! ## Walking, mapping and unmapping -/

/-- The table below the levels that are left. -/
def walkFrom (va : Nat) (create : Bool) : Nat → Nat → M (Option Nat)
  | 0, pt => pure (some pt)
  | level + 1, pt => do
    let p ← readPte pt (PX (level + 1) va)
    if isV p then walkFrom va create level (PTE2PA p)
    else if create = false then pure none
    else do
      let new ← allocPage
      if new = 0 then pure none
      else do
        writePte pt (PX (level + 1) va) (PA2PTE new ||| PTE_V)
        walkFrom va create level new

def pteWalk (pt va : Nat) (create : Bool) : M (Option (Nat × Nat)) :=
  if MAX_VA < va then pure none
  else do
    match ← walkFrom va create 2 pt with
    | none => pure none
    | some pt => pure (some (pt, PX 0 va))

/-- One round of `mappages`: the answer is whether the mapping succeeded. -/
def mapRound (pagetable last perm : Nat) (x : Nat × Nat) : M ((Nat × Nat) ⊕ Bool) := do
  match ← pteWalk pagetable x.1 true with
  | none => pure (.inr false)
  | some (pt, i) => do
    let v ← readPte pt i
    if isV v then panic "mappages: remap\n"
    else do
      writePte pt i (PA2PTE x.2 ||| perm ||| PTE_V)
      if x.1 = last then pure (.inr true)
      else pure (.inl (add x.1 PG_4K_SIZE, add x.2 PG_4K_SIZE))

def mappages (G : Gmd) (pagetable va size pa perm : Nat) : M Bool :=
  if va % PG_4K_SIZE ≠ 0 then panic "mappages: va not aligned\n"
  else if size % PG_4K_SIZE ≠ 0 then panic "mappages: size not aligned\n"
  else if size = 0 then panic "mappages: size\n"
  else Stop.loop .endless (mapRound pagetable (sub (add va size) PG_4K_SIZE) perm) G.rounds (va, pa)

/-- `for (a = start; a < limit; a += PG_4K_SIZE)`, left early with an answer. -/
def forPages {β : Type} (G : Gmd) (start limit : Nat) (body : Nat → M (Option β)) : M (Option β) :=
  Stop.loop .endless
    (fun a => if a < limit then do
        match ← body a with
        | none => pure (.inl (add a PG_4K_SIZE))
        | some b => pure (.inr (some b))
      else pure (.inr none))
    G.rounds start

def pgCreate : M Nat := allocPage

def unmapPage (G : Gmd) (pagetable : Nat) (do_free : Bool) (a : Nat) : M (Option Unit) := do
  match ← pteWalk pagetable a false with
  | none => pure none
  | some (pt, i) => do
    let v ← readPte pt i
    if isV v = false then pure none
    else do
      if do_free then freePage G (PTE2PA v) else pure ()
      writePte pt i 0
      pure none

def pgUnmap (G : Gmd) (pagetable va npages : Nat) (do_free : Bool) : M Unit :=
  if va % PG_4K_SIZE ≠ 0 then panic "pg_unmap: not aligned"
  else do
    let _ ← forPages G va (add va (mul npages PG_4K_SIZE)) (unmapPage G pagetable do_free)
    pure ()

/-! ## Translation -/

/-- The physical address, or `(uint64_t)-1`. -/
def va2pa (pt va : Nat) : M Nat := do
  let p2 ← readPte pt (PX 2 va)
  if isV p2 = false then pure (2 ^ 64 - 1)
  else do
    let p1 ← readPte (PTE2PA p2) (PX 1 va)
    if isV p1 = false then pure (2 ^ 64 - 1)
    else do
      let p0 ← readPte (PTE2PA p1) (PX 0 va)
      if isV p0 = false then pure (2 ^ 64 - 1)
      else pure (PTE2PA p0 ||| va % 4096)

def walkaddr (pagetable va : Nat) : M Nat :=
  if va ≥ MAX_VA then pure 0
  else do
    match ← pteWalk pagetable va false with
    | none => pure 0
    | some (pt, i) => do
      let v ← readPte pt i
      if isV v = false then pure 0
      else if isU v = false then pure 0
      else pure (PTE2PA v)

/-! ## Page faults -/

inductive PageFaultType
  | load
  | store
  | instruction
deriving DecidableEq, Repr

structure Heap where
  pg : Nat
  heap_start : Nat
  heap_brk : Nat

/-- The new page of the heap of `ts`, if there is one. The page that `kalloc` returns is
cleared. -/
def doPageFaultWithNewPa (G : Gmd) (ts : Heap) (fault_addr : Nat) (type : PageFaultType) : M (Option Nat) :=
  if type = .instruction then pure none
  else if fault_addr < ts.heap_start ∨ fault_addr ≥ ts.heap_brk then pure none
  else do
    let pa ← allocPage
    if pa = 0 then pure none
    else do
      let ok ← mappages G ts.pg (PGROUNDDOWN fault_addr) PG_4K_SIZE pa (PTE_V ||| PTE_W ||| PTE_R ||| PTE_U)
      if ok = false then do
        freePage G pa
        pure none
      else pure (some pa)

/-! ## Copies between the kernel and user memory -/

def EFAULT : Int := -114514

/-- The page of a user address, made on demand. -/
def userPage (G : Gmd) (ts : Heap) (pagetable va0 : Nat) (type : PageFaultType) : M (Option Nat) := do
  let pa0 ← walkaddr pagetable va0
  if pa0 = 0 then doPageFaultWithNewPa G ts va0 type else pure (some pa0)

/-- `n` bytes of `src` from offset `from` on go to offset `o` of page `pa`. -/
def memmove (pa o : Nat) (src : Bytes) (off n : Nat) : M Unit :=
  modify fun m => m.setPage pa ((m.page pa).copy n o fun i => src (off + i))

/-- The loop variables are the user address, the offset in `src` and the number of bytes that are left. -/
def copyToUser (G : Gmd) (ts : Heap) (pagetable dstva : Nat) (src : Bytes) (len : Nat) : M Int :=
  Stop.loop .endless
    (fun x : Nat × Nat × Nat =>
      if x.2.2 = 0 then pure (.inr 0)
      else if PGROUNDDOWN x.1 > MAX_VA then pure (.inr (-1))
      else do
        match ← userPage G ts pagetable (PGROUNDDOWN x.1) .store with
        | none => pure (.inr EFAULT)
        | some pa0 => do
          match ← pteWalk pagetable (PGROUNDDOWN x.1) false with
          | none => throw .stray
          | some (pt, i) => do
            let v ← readPte pt i
            if isW v = false then pure (.inr (-1))
            else do
              let n := min (PG_4K_SIZE - (x.1 - PGROUNDDOWN x.1)) x.2.2
              memmove pa0 (x.1 - PGROUNDDOWN x.1) src x.2.1 n
              pure (.inl (add (PGROUNDDOWN x.1) PG_4K_SIZE, x.2.1 + n, x.2.2 - n)))
    G.rounds (dstva, 0, len)

/-- The answer comes with the buffer. -/
def copyFromUser (G : Gmd) (ts : Heap) (pagetable : Nat) (dst : Bytes) (srcva len : Nat) : M (Int × Bytes) :=
  Stop.loop .endless
    (fun x : Nat × Nat × Nat × Bytes =>
      if x.2.2.1 = 0 then pure (.inr (0, x.2.2.2))
      else if PGROUNDDOWN x.1 > MAX_VA then pure (.inr (-1, x.2.2.2))
      else do
        match ← userPage G ts pagetable (PGROUNDDOWN x.1) .load with
        | none => pure (.inr (EFAULT, x.2.2.2))
        | some pa0 => do
          let m ← get
          let n := min (PG_4K_SIZE - (x.1 - PGROUNDDOWN x.1)) x.2.2.1
          pure (.inl (add (PGROUNDDOWN x.1) PG_4K_SIZE, x.2.1 + n, x.2.2.1 - n,
            x.2.2.2.copy n x.2.1 fun i => m.page pa0 (x.1 - PGROUNDDOWN x.1 + i))))
    G.rounds (srcva, 0, len, dst)

/-- Copy bytes up to a NUL: `n` bytes of `p` from offset `o` on go to offset `d` of `dst`. The
answer is whether there was one. -/
def scanStr (p : Bytes) : Nat → Nat → Nat → Bytes → Bool × Bytes
  | 0, _, _, dst => (false, dst)
  | n + 1, o, d, dst =>
    if p o = 0 then (true, Function.update dst d 0)
    else scanStr p n (o + 1) (d + 1) (Function.update dst d (p o))

def copyStrFromUser (G : Gmd) (ts : Heap) (pagetable : Nat) (dst : Bytes) (srcva max : Nat) : M (Int × Bytes) :=
  Stop.loop .endless
    (fun x : Nat × Nat × Nat × Bytes =>
      if x.2.2.1 = 0 then pure (.inr (-1, x.2.2.2))
      else if PGROUNDDOWN x.1 > MAX_VA then pure (.inr (-1, x.2.2.2))
      else do
        match ← userPage G ts pagetable (PGROUNDDOWN x.1) .load with
        | none => pure (.inr (EFAULT, x.2.2.2))
        | some pa0 => do
          let m ← get
          let n := min (PG_4K_SIZE - (x.1 - PGROUNDDOWN x.1)) x.2.2.1
          let r := scanStr (m.page pa0) n (x.1 - PGROUNDDOWN x.1) x.2.1 x.2.2.2
          if r.1 then pure (.inr (0, r.2))
          else pure (.inl (add (PGROUNDDOWN x.1) PG_4K_SIZE, x.2.1 + n, x.2.2.1 - n, r.2)))
    G.rounds (srcva, 0, max, dst)

end Mm
