import Loeux.User.MallocRuns
/-!
# Sizes of user allocations

The allocator over the kernel's own `sbrk`, which takes the increment as an `int`. A
request whose size goes through rounding, multiplication and the system call unchanged,
or that the kernel refuses, is honoured; headers stay in order even where a free merges
two blocks over a region that the program took for itself.
-/

/-- `heap_brk + delta` in 64 bits. -/
def Proc.moveBrk (heap_brk : Nat) (delta : Int) : Nat := ((heap_brk + delta) % 2 ^ 64).toNat

namespace User

open Lib Heap List Nat Option

/-! ## The system call -/

def int32 (x : Nat) : Int := if x % 2 ^ 32 < 2 ^ 31 then (x % 2 ^ 32 : Nat) else (x % 2 ^ 32 : Nat) - 2 ^ 32

def sysSbrk (heap_start inc : Nat) (h : Heap) : Nat × Heap :=
  if Proc.moveBrk h.brk (int32 inc) < heap_start then (FAILED, h)
  else (h.brk, { h with brk := Proc.moveBrk h.brk (int32 inc) })

theorem sysSbrk_refused {base inc : Nat} {h : Heap} (hr : Proc.moveBrk h.brk (int32 inc) < base) :
    sysSbrk base inc h = (FAILED, h) := if_pos hr

theorem sysSbrk_whole {base inc : Nat} {h : Heap} (hb : base ≤ h.brk) (hi : inc < 2 ^ 31) (hlt : h.brk + inc < 2 ^ 64) :
    sysSbrk base inc h = sbrk true inc h := by
  have h32 : int32 inc = inc := by
    unfold int32
    rw [mod_eq_of_lt (by omega), if_pos hi]
  have hmove : Proc.moveBrk h.brk inc = h.brk + inc := by
    unfold Proc.moveBrk
    omega
  have h64 : int64 inc = inc := if_pos (by omega)
  unfold sysSbrk sbrk
  rw [h32, hmove, h64, if_neg (by omega)]
  dsimp only
  rw [if_pos ⟨rfl, by omega, by omega⟩, show ((h.brk : Int) + inc).toNat = h.brk + inc by omega]

/-! ## Programs over the system call -/

def Op.runWith (sbrk : Nat → Heap → Nat × Heap) (h : Heap) : Op → Option (Nat × Heap)
  | .malloc n => mallocWith sbrk n h
  | .calloc nmemb size => callocWith sbrk nmemb size h
  | .realloc ptr n => reallocWith sbrk ptr n h
  | .free ptr => (User.free ptr h).map fun h => (0, h)
  | .sbrk inc => some (sbrk inc h)
  | .store a v => some (0, { h with mem := Function.update h.mem a v })

/-- A call and its answer. -/
structure Call where
  op : Op
  answer : Nat

/-- A step of a program whose system calls reach the kernel. -/
def KStep (s : Prog) (c : Call) (s' : Prog) : Prop :=
  c.op.Allowed s ∧ ∃ h, c.op.runWith (sysSbrk s.base) s.heap = some (c.answer, h) ∧ s' = s.next c.answer h c.op

def Prog.granted (s : Prog) : Set Nat := Set.Ico s.base s.heap.brk

/-- The call that led from `s` to `s'` gave the bytes it was asked for. -/
def Honoured (s : Prog) (c : Call) (s' : Prog) : Prop :=
  match c.op with
  | .malloc n => c.answer ≠ 0 → Set.Ico c.answer (c.answer + n) ⊆ s'.granted
  | .calloc nmemb size => c.answer ≠ 0 → Set.Ico c.answer (c.answer + nmemb * size) ⊆ s'.granted ∧
    ∀ i, i < nmemb * size → s'.heap.mem (c.answer + i) = 0
  | .realloc ptr n => c.answer ≠ 0 → Set.Ico c.answer (c.answer + n) ⊆ s'.granted ∧
    (ptr ≠ 0 → ∀ i, i < min (s.heap.block (blockOf ptr)).size n → s'.heap.mem (c.answer + i) = s.heap.mem (ptr + i))
  | .free _ | .sbrk _ | .store _ _ => True

def total (n : Nat) : Nat := ALIGN_UP ((ALIGN_UP n + BLK_HDR) % 2 ^ 64)

def NoFit (n : Nat) (h : Heap) : Prop := firstFit (ALIGN_UP n) h rounds h.heap_head = some 0

def Refused (base n : Nat) (h : Heap) : Prop := n = 0 ∨ NoFit n h ∧ Proc.moveBrk h.brk (int32 (total n)) < base

/-- No step of the computation wraps, and what the kernel reads is what `malloc` asked for. -/
def Whole (n : Nat) (h : Heap) : Prop :=
  n ≤ 2 ^ 63 - 64 ∧ (NoFit n h → n ≤ 2 ^ 31 - 64 ∧ h.brk + total n < 2 ^ 64)

/-- Sizes that reach the kernel unchanged, or that it refuses. -/
def Sized (s : Prog) (c : Call) : Prop :=
  match c.op with
  | .malloc n => Refused s.base n s.heap ∨ Whole n s.heap
  | .calloc nmemb size => Refused s.base (nmemb * size % 2 ^ 64) s.heap ∨ Whole (nmemb * size) s.heap
  | .realloc ptr n => ptr = 0 ∨ (s.heap.block (blockOf ptr)).size < n → Refused s.base n s.heap ∨ Whole n s.heap
  | .sbrk inc => Proc.moveBrk s.heap.brk (int32 inc) < s.base ∨ inc < 2 ^ 31 ∧ s.heap.brk + inc < 2 ^ 64
  | .free _ | .store _ _ => True

variable {s : Prog} {h : Heap} {bs bs' : List Blk} {base n r p : Nat}

/-! ## The allocator over the kernel -/

theorem mallocWith_congr {f g : Nat → Heap → Nat × Heap} (hfg : NoFit n h → f (total n) h = g (total n) h) :
    mallocWith f n h = mallocWith g n h := by
  unfold mallocWith
  split
  · rfl
  · cases hfit : firstFit (ALIGN_UP n) h rounds h.heap_head with
    | none => rfl
    | some b =>
      rw [map_some, map_some]
      by_cases hb : b = 0
      · subst hb
        have he : growHeapWith f (ALIGN_UP n) h = growHeapWith g (ALIGN_UP n) h := by
          have htotal := hfg hfit
          unfold total at htotal
          unfold growHeapWith
          dsimp only
          rw [htotal]
        rw [he]
      · rw [if_pos hb, if_pos hb]

theorem mallocWith_refused (hr : Refused base n h) : mallocWith (sysSbrk base) n h = some (0, h) := by
  rcases hr with rfl | ⟨hfit, hlt⟩
  · exact if_pos rfl
  · unfold mallocWith growHeapWith
    unfold total at hlt
    split
    · rfl
    · unfold NoFit at hfit
      rw [hfit, map_some, if_neg (not_not.2 rfl)]
      dsimp only
      rw [sysSbrk_refused hlt]
      dsimp only
      rw [if_pos rfl, if_pos rfl]

theorem mallocWith_whole (hw : Whole n h) (hb : base ≤ h.brk) : mallocWith (sysSbrk base) n h = malloc true n h := by
  refine mallocWith_congr fun hfit => ?_
  obtain ⟨hle, hlt⟩ := hw.2 hfit
  refine sysSbrk_whole hb ?_ hlt
  unfold total ALIGN_UP ALIGN BLK_HDR
  omega

/-- What holds of a heap whose sizes were honoured: the blocks lie in order below the
break, and no header meets a region of the program. Payloads may. -/
structure Sound (s : Prog) (bs : List Blk) : Prop where
  inv : Inv { s with regions := [] } bs
  heads : ∀ r ∈ s.regions, r.1 + r.2 ≤ s.heap.brk ∧ ∀ b ∈ bs, r.1 + r.2 ≤ b.addr ∨ b.addr + BLK_HDR ≤ r.1

theorem Inv.forget (hi : Inv s bs) : Inv { s with regions := [] } bs where
  rep := hi.rep
  laid := ⟨hi.laid.low, hi.laid.order, hi.laid.high, fun _ hr => absurd hr not_mem_nil⟩
  settled := hi.settled
  pos := hi.pos
  le := hi.le
  lt := hi.lt
  regions _ hr := absurd hr not_mem_nil
  live := hi.live

section

variable (hs : Sound s bs)

include hs

theorem Sound.onward {s' : Prog} (hi : Inv { s' with regions := [] } bs') (hr : s'.regions = s.regions)
    (ho : Onward s.heap bs s'.heap bs') : Sound s' bs' := by
  refine ⟨hi, fun r hm => ?_⟩
  rw [hr] at hm
  obtain ⟨hle, hb⟩ := hs.heads r hm
  refine ⟨hle.trans ho.1, fun b hb' => ?_⟩
  rcases ho.2 b hb' with ⟨a, ha, hab⟩ | hnew
  · rw [← hab]
    exact hb a ha
  · exact .inl (hle.trans hnew)

omit hs in
theorem Inv.granted (hi : Inv s bs) (hr : Room bs r n) : Set.Ico r (r + n) ⊆ s.granted := by
  obtain ⟨b, hb, rfl, hn⟩ := hr
  have hlow := hi.laid.low b hb
  have hhigh := hi.laid.high b hb
  rintro i ⟨h1, h2⟩
  unfold Blk.stop at hhigh
  exact ⟨by omega, by omega⟩

theorem Sound.malloc (hg : Refused s.base n s.heap ∨ Whole n s.heap) :
    ∃ r h' bs', mallocWith (sysSbrk s.base) n s.heap = some (r, h') ∧
      Sound { s with heap := h', live := if r = 0 then s.live else r :: s.live } bs' ∧
      (r ≠ 0 → Set.Ico r (r + n) ⊆ Set.Ico s.base h'.brk) := by
  rcases hg with hr | hw
  · exact ⟨0, s.heap, bs, mallocWith_refused hr, hs, fun h0 => absurd rfl h0⟩
  · obtain ⟨r, h', bs', e, hh, hi, hon, -⟩ := hs.inv.malloc hw.1 true
    refine ⟨r, h', bs', (mallocWith_whole hw hs.inv.le).trans e, hs.onward hi rfl hon, fun h0 => ?_⟩
    rcases hh.used with ⟨rfl, -⟩ | ⟨b, hb, -, hr, hsz, -⟩
    · exact absurd rfl h0
    · exact hi.granted ⟨b, hb, hr, hsz⟩

theorem Sound.calloc {nmemb size : Nat}
    (hg : Refused s.base (nmemb * size % 2 ^ 64) s.heap ∨ Whole (nmemb * size) s.heap) :
    ∃ r h' bs', callocWith (sysSbrk s.base) nmemb size s.heap = some (r, h') ∧
      Sound { s with heap := h', live := if r = 0 then s.live else r :: s.live } bs' ∧
      (r ≠ 0 → Set.Ico r (r + nmemb * size) ⊆ Set.Ico s.base h'.brk ∧ ∀ i, i < nmemb * size → h'.mem (r + i) = 0) := by
  rcases hg with hr | hw
  · refine ⟨0, s.heap, bs, ?_, hs, fun h0 => absurd rfl h0⟩
    rw [callocWith, mallocWith_refused hr]
    rfl
  · have hmod : nmemb * size % 2 ^ 64 = nmemb * size := mod_eq_of_lt (by have := hw.1; omega)
    obtain ⟨r, h', bs', e, hi, hon, hroom⟩ := hs.inv.calloc (hmod.symm ▸ hw.1) true
    rw [hmod] at hroom
    refine ⟨r, h', bs', ?_, hs.onward hi rfl hon, fun h0 => ⟨hi.granted (hroom h0).1, (hroom h0).2⟩⟩
    rw [← e, callocWith, User.calloc, callocWith, hmod, mallocWith_whole hw hs.inv.le]
    rfl

omit hs in
theorem reallocWith_congr {f g : Nat → Heap → Nat × Heap} (hp : p ≠ 0)
    (hfg : (h.block (blockOf p)).size < n → mallocWith f n h = mallocWith g n h) :
    reallocWith f p n h = reallocWith g p n h := by
  unfold reallocWith
  rw [if_neg hp, if_neg hp]
  by_cases hn : n = 0
  · rw [if_pos hn, if_pos hn]
  rw [if_neg hn, if_neg hn]
  by_cases hfits : n ≤ (h.block (blockOf p)).size
  · rw [if_pos hfits, if_pos hfits]
  · rw [if_neg hfits, if_neg hfits, hfg (by omega)]

theorem Sound.realloc (hp : p ∈ s.live)
    (hg : (s.heap.block (blockOf p)).size < n → Refused s.base n s.heap ∨ Whole n s.heap) :
    ∃ r h' bs', reallocWith (sysSbrk s.base) p n s.heap = some (r, h') ∧
      Sound { s with heap := h', live := if r ≠ 0 then r :: s.live.erase p else if n = 0 then s.live.erase p else s.live }
        bs' ∧
      (r ≠ 0 → Set.Ico r (r + n) ⊆ Set.Ico s.base h'.brk ∧
        ∀ i, i < min (s.heap.block (blockOf p)).size n → h'.mem (r + i) = s.heap.mem (p + i)) := by
  have hp0 : p ≠ 0 := by
    rintro rfl
    obtain ⟨b, -, -, hb, -⟩ := hs.inv.block_of_live hp
    exact succ_ne_zero _ hb.symm
  by_cases hgrow : Refused s.base n s.heap ∧ (s.heap.block (blockOf p)).size < n
  · obtain ⟨hr, hlt⟩ := hgrow
    have hn : n ≠ 0 := by omega
    refine ⟨0, s.heap, bs, ?_, ?_, fun h0 => absurd rfl h0⟩
    · rw [reallocWith, if_neg hp0, if_neg hn, if_neg (by omega), mallocWith_refused hr]
      rfl
    · rw [if_neg (not_not.2 rfl), if_neg hn]
      exact hs
  · have hw : (s.heap.block (blockOf p)).size < n → Whole n s.heap := fun hlt =>
      (hg hlt).resolve_left fun hr => hgrow ⟨hr, hlt⟩
    obtain ⟨r, h', bs', e, hi, hon, hroom⟩ :=
      hs.inv.realloc hp (fun hlt => (hw hlt).1) (fun _ => meets_nil _ _) true
    refine ⟨r, h', bs', ?_, hs.onward hi rfl hon, fun h0 => ⟨hi.granted (hroom h0).1, (hroom h0).2⟩⟩
    exact (reallocWith_congr hp0 fun hlt => mallocWith_whole (hw hlt) hs.inv.le).trans e

theorem Sound.free (hp : p ∈ s.live) :
    ∃ h' bs', User.free p s.heap = some h' ∧ Sound { s with heap := h', live := s.live.erase p } bs' := by
  obtain ⟨h', bs', e, hi, hon, -⟩ := hs.inv.free hp (meets_nil _ _)
  exact ⟨h', bs', e, hs.onward hi rfl hon⟩

theorem Sound.sbrk {inc : Nat} (h0 : 0 < inc)
    (hg : Proc.moveBrk s.heap.brk (int32 inc) < s.base ∨ inc < 2 ^ 31 ∧ s.heap.brk + inc < 2 ^ 64) :
    Sound { s with
      heap := (sysSbrk s.base inc s.heap).2
      regions := if (sysSbrk s.base inc s.heap).1 = FAILED then s.regions
        else ((sysSbrk s.base inc s.heap).1, inc) :: s.regions } bs := by
  rcases hg with hr | ⟨hinc, hlt⟩
  · rw [sysSbrk_refused hr]
    dsimp only
    rw [if_pos rfl]
    exact hs
  · have hi := (hs.inv.sbrk h0 (show inc < 2 ^ 63 by omega) true).forget
    rw [sysSbrk_whole hs.inv.le hinc hlt]
    refine ⟨hi, ?_⟩
    have hsb : User.sbrk true inc s.heap = (s.heap.brk, { s.heap with brk := s.heap.brk + inc }) := by
      rw [User.sbrk, show int64 inc = inc from if_pos (by omega), if_pos ⟨rfl, by omega, by omega⟩]
      rfl
    have hne : s.heap.brk ≠ FAILED := by
      unfold FAILED
      omega
    rw [hsb]
    dsimp only
    rw [if_neg hne]
    intro r hr
    rcases mem_cons.1 hr with rfl | hr
    · refine ⟨le_refl _, fun b hb => .inr ?_⟩
      have := hs.inv.laid.high b hb
      unfold Blk.stop at this
      dsimp only at this ⊢
      omega
    · obtain ⟨hle, hb⟩ := hs.heads r hr
      exact ⟨by omega, hb⟩

theorem Sound.store {a : Nat} (v : UInt8) (ha : Op.Allowed s (.store a v)) :
    Sound { s with heap := { s.heap with mem := Function.update s.heap.mem a v } } bs := by
  refine ⟨?_, hs.heads⟩
  rcases ha with hlow | hpay | ⟨r, hr, h1, h2⟩
  · exact hs.inv.store v (.inl hlow)
  · exact hs.inv.store v (.inr (.inl hpay))
  · refine hs.inv.write fun x hx i h3 h4 => Function.update_of_ne ?_ v s.heap.mem
    have := (hs.heads r hr).2 x hx
    omega

theorem Sound.serve (op : Op) (ha : op.Allowed s) (hg : Sized s ⟨op, n⟩) :
    ∃ r h' bs', op.runWith (sysSbrk s.base) s.heap = some (r, h') ∧ Sound (s.next r h' op) bs' ∧
      Honoured s ⟨op, r⟩ (s.next r h' op) := by
  have hzero : 0 ∉ s.live := by
    intro h0
    obtain ⟨b, -, -, hb, -⟩ := hs.inv.block_of_live h0
    exact succ_ne_zero _ hb.symm
  cases op with
  | malloc n => exact hs.malloc hg
  | calloc nmemb size => exact hs.calloc hg
  | realloc ptr n =>
    rcases ha with rfl | hp
    · obtain ⟨r, h', bs', e, hs', hh⟩ := hs.malloc (hg (.inl rfl))
      refine ⟨r, h', bs', e, ?_, fun h0 => ⟨hh h0, fun h0 => absurd rfl h0⟩⟩
      simp only [Prog.next, erase_of_not_mem hzero, ite_self, ite_not]
      exact hs'
    · obtain ⟨r, h', bs', e, hs', hh⟩ := hs.realloc hp fun hlt => hg (.inr hlt)
      exact ⟨r, h', bs', e, hs', fun h0 => ⟨(hh h0).1, fun _ => (hh h0).2⟩⟩
  | free ptr =>
    rcases ha with rfl | hp
    · refine ⟨0, s.heap, bs, rfl, ?_, trivial⟩
      simp only [Prog.next, erase_of_not_mem hzero]
      exact hs
    · obtain ⟨h', bs', e, hs'⟩ := hs.free hp
      exact ⟨0, h', bs', by rw [Op.runWith, e]; rfl, hs', trivial⟩
  | sbrk inc => exact ⟨_, _, bs, rfl, hs.sbrk ha.1 hg, trivial⟩
  | store a v => exact ⟨0, _, bs, rfl, hs.store v ha, trivial⟩

theorem Sound.step {s' : Prog} {c : Call} (hg : Sized s c) (hk : KStep s c s') :
    (∃ bs', Sound s' bs') ∧ Honoured s c s' := by
  obtain ⟨ha, h, he, rfl⟩ := hk
  obtain ⟨r, h', bs', he', hs', hh⟩ := hs.serve c.op ha (n := c.answer) hg
  rw [he] at he'
  cases he'
  exact ⟨⟨bs', hs'⟩, hh⟩

end

theorem Start.sound (h : Start s) : Sound s [] :=
  ⟨h.inv.forget, fun _ hr => absurd hr (h.regions ▸ not_mem_nil)⟩

/-- In every program whose sizes are taken as they are, each such call is answered and
gives the bytes that it was asked for. -/
theorem sizes_honoured {s' : Prog} {cs : List Call} (h0 : Start s) (hr : Run (Guarded Sized KStep) s cs s') (op : Op)
    (ha : op.Allowed s') (hg : Sized s' ⟨op, 0⟩) :
    (∃ r s'', KStep s' ⟨op, r⟩ s'') ∧ ∀ r s'', KStep s' ⟨op, r⟩ s'' → Honoured s' ⟨op, r⟩ s'' := by
  have hsound : ∃ bs, Sound s' bs :=
    Run.inv (fun s => ∃ bs, Sound s bs) (fun s c s' ⟨_, hs⟩ hg hk => (hs.step hg hk).1) hr ⟨[], h0.sound⟩
  obtain ⟨bs, hs⟩ := hsound
  refine ⟨?_, fun r s'' hk => (hs.step (by cases op <;> exact hg) hk).2⟩
  obtain ⟨r, h', bs', e, -, -⟩ := hs.serve op ha hg
  exact ⟨r, _, ha, h', e, rfl⟩

/-! ## Sizes that are not taken as they are -/

namespace Sample

theorem kstep_of_run {c : Call} {brk : Nat} (ha : c.op.Allowed empty)
    (hr : ((c.op.runWith (sysSbrk empty.base) empty.heap).map fun x => (x.1, x.2.brk)) = some (c.answer, brk)) :
    ∃ h, KStep empty c (empty.next c.answer h c.op) ∧ h.brk = brk := by
  obtain ⟨⟨r, h⟩, he, hx⟩ := map_eq_some_iff.1 hr
  simp only [Prod.mk.injEq] at hx
  obtain ⟨rfl, rfl⟩ := hx
  exact ⟨h, ⟨ha, h, he, rfl⟩, rfl⟩

/-- The kernel reads 0 from a request of 2 ^ 32 bytes, and 2 * (2 ^ 63 + 8) wraps to 16. -/
theorem sizes_truncated : Start empty ∧
    (∃ s, KStep empty ⟨.malloc (2 ^ 32 - 48), 4144⟩ s ∧ ¬Honoured empty ⟨.malloc (2 ^ 32 - 48), 4144⟩ s) ∧
    ∃ s, KStep empty ⟨.calloc 2 (2 ^ 63 + 8), 4144⟩ s ∧ ¬Honoured empty ⟨.calloc 2 (2 ^ 63 + 8), 4144⟩ s := by
  refine ⟨empty_start, ?_, ?_⟩
  · obtain ⟨h, hk, hb⟩ := @kstep_of_run ⟨.malloc (2 ^ 32 - 48), 4144⟩ 4096 trivial (by decide)
    refine ⟨_, hk, fun hh => ?_⟩
    have hin : (4144 : Nat) < h.brk := (hh (by decide) ⟨le_refl 4144, by decide⟩).2
    omega
  · obtain ⟨h, hk, hb⟩ := @kstep_of_run ⟨.calloc 2 (2 ^ 63 + 8), 4144⟩ 4160 trivial (by decide)
    refine ⟨_, hk, fun hh => ?_⟩
    have hin : (4160 : Nat) < h.brk := ((hh (by decide)).1 ⟨show (4144 : Nat) ≤ 4160 by decide, by decide⟩).2
    omega

theorem small_honoured : Start empty ∧ Run (Guarded Sized KStep) empty [] empty ∧ Sized empty ⟨.malloc 16, 0⟩ ∧
    (∃ r s'', KStep empty ⟨.malloc 16, r⟩ s'') ∧
    ∀ r s'', KStep empty ⟨.malloc 16, r⟩ s'' → Honoured empty ⟨.malloc 16, r⟩ s'' := by
  have hsized : Sized empty ⟨.malloc 16, 0⟩ := .inr ⟨by decide, fun _ => ⟨by decide, by decide⟩⟩
  exact ⟨empty_start, .nil _, hsized, sizes_honoured empty_start (.nil _) (.malloc 16) trivial hsized⟩

end Sample

end User
