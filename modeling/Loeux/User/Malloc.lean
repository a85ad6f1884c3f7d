import Loeux.Lib.Bytes
/-!
# The user heap

`malloc`, `free`, `calloc` and `realloc` over the bytes of a process. Block headers lie
in that memory, 48 bytes before the payload, and are linked in both directions; 0 is the
null pointer. Addresses and sizes are 64-bit numbers. The functions take the system call
`sbrk` that they grow the heap with; `malloc grant` and its siblings are the ones whose
kernel moves the break as asked or refuses, which is decided from outside. The heap's own lock is left out: one task uses the heap.
-/

namespace User

open Lib

def ALIGN : Nat := 16

/-- `sizeof(struct block)`. -/
def BLK_HDR : Nat := 48

def ALIGN_UP (x : Nat) : Nat := (x + (ALIGN - 1)) % 2 ^ 64 / ALIGN * ALIGN

/-- A block header, as its fields read. -/
structure Block where
  size : Nat
  free : Bool
  next : Nat
  prev : Nat

structure Heap where
  mem : Bytes
  heap_head : Nat
  heap_tail : Nat
  /-- The program break. -/
  brk : Nat

namespace Heap

/-- The header at `b`: `size`, `free` (an int), `next` and `prev`; the padding is never used. -/
def block (h : Heap) (b : Nat) : Block where
  size := Bytes.get 8 b h.mem
  free := Bytes.get 4 (b + 8) h.mem != 0
  next := Bytes.get 8 (b + 16) h.mem
  prev := Bytes.get 8 (b + 24) h.mem

def setSize (h : Heap) (b v : Nat) : Heap := { h with mem := Bytes.put 8 b v h.mem }

def setFree (h : Heap) (b v : Nat) : Heap := { h with mem := Bytes.put 4 (b + 8) v h.mem }

def setNext (h : Heap) (b v : Nat) : Heap := { h with mem := Bytes.put 8 (b + 16) v h.mem }

def setPrev (h : Heap) (b v : Nat) : Heap := { h with mem := Bytes.put 8 (b + 24) v h.mem }

end Heap

/-- The value of an `int64_t`. -/
def int64 (x : Nat) : Int := if x < 2 ^ 63 then x else x - 2 ^ 64

/-- `(void*)-1`. -/
def FAILED : Nat := 2 ^ 64 - 1

/-- The kernel moves the break by `inc` bytes and answers where it was, or refuses. -/
def sbrk (grant : Bool) (inc : Nat) (h : Heap) : Nat × Heap :=
  let brk : Int := h.brk + int64 inc
  if grant ∧ 0 ≤ brk ∧ brk < 2 ^ 64 then (h.brk, { h with brk := brk.toNat }) else (FAILED, h)

def linkBlock (p size : Nat) (h : Heap) : Heap :=
  let h := h.setSize p size
  let h := h.setFree p 1
  let h := h.setNext p 0
  let h := h.setPrev p h.heap_tail
  let h := if h.heap_tail ≠ 0 then h.setNext h.heap_tail p else { h with heap_head := p }
  { h with heap_tail := p }

def growHeapWith (sbrk : Nat → Heap → Nat × Heap) (need : Nat) (h : Heap) : Nat × Heap :=
  let total := ALIGN_UP ((need + BLK_HDR) % 2 ^ 64)
  match sbrk total h with
  | (p, h) => if p = FAILED then (0, h) else (p, linkBlock p (total + (2 ^ 64 - BLK_HDR)) h)

def growHeap (grant : Bool) : Nat → Heap → Nat × Heap := growHeapWith (sbrk grant)

/-- Rounds of a list loop; the address space holds fewer headers. -/
def rounds : Nat := 2 ^ 64

/-- The first free block from `b` on with at least `n` bytes, 0 if there is none. -/
def firstFit (n : Nat) (h : Heap) : Nat → Nat → Option Nat
  | 0, _ => none
  | k + 1, b =>
    if b = 0 then some 0
    else if (h.block b).free ∧ n ≤ (h.block b).size then some b
    else firstFit n h k (h.block b).next

/-- Mark the block used and hand out its payload. -/
def claim (b : Nat) (h : Heap) : Nat × Heap := ((b + BLK_HDR) % 2 ^ 64, h.setFree b 0)

def mallocWith (sbrk : Nat → Heap → Nat × Heap) (n : Nat) (h : Heap) : Option (Nat × Heap) :=
  if n = 0 then some (0, h) else
    (firstFit (ALIGN_UP n) h rounds h.heap_head).map fun b =>
      if b ≠ 0 then claim b h
      else
        let (b, h) := growHeapWith sbrk (ALIGN_UP n) h
        if b = 0 then (0, h) else claim b h

def malloc (grant : Bool) : Nat → Heap → Option (Nat × Heap) := mallocWith (sbrk grant)

/-- The block at `a` takes over the one at `b`, which follows it in the list. -/
def absorb (a b : Nat) (h : Heap) : Heap :=
  let h := h.setSize a ((h.block a).size + (BLK_HDR + (h.block b).size))
  let h := h.setNext a (h.block b).next
  let n := (h.block a).next
  if n ≠ 0 then h.setPrev n a else h

/-- Forward coalescing: as long as the next block in the list is free. -/
def mergeNext (b : Nat) : Nat → Heap → Option Heap
  | 0, _ => none
  | k + 1, h =>
    let n := (h.block b).next
    if n ≠ 0 ∧ (h.block n).free then mergeNext b k (absorb b n h) else some h

def mergePrev (b : Nat) (h : Heap) : Nat × Heap :=
  let p := (h.block b).prev
  if p ≠ 0 ∧ (h.block p).free then
    let h := absorb p b h
    (p, if (h.block p).next ≠ 0 then h else { h with heap_tail := p })
  else (b, h)

def blockOf (ptr : Nat) : Nat := (ptr + (2 ^ 64 - BLK_HDR)) % 2 ^ 64

def free (ptr : Nat) (h : Heap) : Option Heap :=
  if ptr = 0 then some h else
    (mergeNext (blockOf ptr) rounds (h.setFree (blockOf ptr) 1)).map fun h =>
      let (b, h) := mergePrev (blockOf ptr) h
      if (h.block b).next = 0 then { h with heap_tail := b } else h

def zeroFill (p n : Nat) (h : Heap) : Heap := { h with mem := Bytes.copy n p h.mem Bytes.zero }

def callocWith (sbrk : Nat → Heap → Nat × Heap) (nmemb size : Nat) (h : Heap) : Option (Nat × Heap) :=
  (mallocWith sbrk (nmemb * size % 2 ^ 64) h).map fun (p, h) =>
    if p = 0 then (0, h) else (p, zeroFill p (nmemb * size % 2 ^ 64) h)

def calloc (grant : Bool) : Nat → Nat → Heap → Option (Nat × Heap) := callocWith (sbrk grant)

def copyBytes (src dst : Nat) : Nat → Heap → Heap
  | 0, h => h
  | n + 1, h =>
    let h := copyBytes src dst n h
    { h with mem := Function.update h.mem (dst + n) (h.mem (src + n)) }

def reallocWith (sbrk : Nat → Heap → Nat × Heap) (ptr n : Nat) (h : Heap) : Option (Nat × Heap) :=
  if ptr = 0 then mallocWith sbrk n h
  else if n = 0 then (free ptr h).map fun h => (0, h)
  else if n ≤ (h.block (blockOf ptr)).size then some (ptr, h)
  else
    (mallocWith sbrk n h).bind fun (np, h) =>
      if np = 0 then some (0, h)
      else
        let h := copyBytes ptr np (h.block (blockOf ptr)).size h
        (free ptr h).map fun h => (np, h)

def realloc (grant : Bool) : Nat → Nat → Heap → Option (Nat × Heap) := reallocWith (sbrk grant)

end User
