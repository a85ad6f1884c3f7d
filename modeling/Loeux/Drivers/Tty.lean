import Mathlib
/-!
# Line input of a terminal (`drivers/tty.c`)

`tty_cdev_read` in line mode feeds raw characters to `tty_line_discipline` until
a line is ready and hands that line out. `cook` is the stream it should deliver.
The line buffer is emptied whatever part of the line the reader's count covered,
so input is kept exactly when every line fits the count of the read that takes it.
-/

open List

namespace Terminal

def TTY_LINE_MAX : Nat := 512

/-- `struct tty`: `linebuf` up to `linepos`, and what `putc` was given. -/
structure Tty where
  linebuf : List UInt8 := []
  line_ready : Bool := false
  out : List UInt8 := []
deriving Repr, DecidableEq

def echo (c : UInt8) : List UInt8 :=
  if c = 13 ∨ c = 10 then [13, 10]
  else if c = 8 ∨ c = 0x7f then [8, 32, 8]
  else [c]

def lineDiscipline (t : Tty) (c : UInt8) : Tty :=
  let t' :=
    if c = 13 ∨ c = 10 then { t with linebuf := t.linebuf ++ [10], line_ready := true }
    else if c = 8 ∨ c = 0x7f then { t with linebuf := t.linebuf.dropLast }
    else if t.linebuf.length < TTY_LINE_MAX - 1 then { t with linebuf := t.linebuf ++ [c] }
    else t
  { t' with out := t'.out ++ echo c }

/-- How a read ends. `waits`: the terminal has no further character yet; `fault`:
`memcpy` was given a negative length. -/
inductive Outcome
  | ok (bytes : List UInt8)
  | failed
  | waits
  | fault
deriving Repr, DecidableEq

/-- A `uint64_t` as an `int`. -/
def toInt (n : Nat) : Int := (n : Int).bmod (2 ^ 32)

/-- The `len` bytes that are copied. -/
def lenOf (t : Tty) (count : Nat) : Int :=
  if (t.linebuf.length : Int) > toInt count then toInt count else t.linebuf.length

/-- The line is ready: as much of it as fits is copied, and all of it is dropped. -/
def takeLine (t : Tty) (count : Nat) (input : List (Option UInt8)) : Outcome × Tty × List (Option UInt8) :=
  if lenOf t count < 0 then (.fault, t, input)
  else (.ok (t.linebuf.take (lenOf t count).toNat), { t with linebuf := [], line_ready := false }, input)

/-- The loop of `tty_cdev_read`. The list is what `getc` will answer, `none` an error. -/
def readLoop (count : Nat) (t : Tty) : List (Option UInt8) → Outcome × Tty × List (Option UInt8)
  | [] => if t.line_ready then takeLine t count [] else (.waits, t, [])
  | i :: input =>
    if t.line_ready then takeLine t count (i :: input)
    else match i with
      | none => (.failed, t, input)
      | some c => readLoop count (lineDiscipline t c) input

/-- `tty_cdev_read`. A count of one is the raw mode. -/
def cdevRead (count : Nat) (t : Tty) (input : List (Option UInt8)) : Outcome × Tty × List (Option UInt8) :=
  if count = 1 then
    match input with
    | [] => (.waits, t, [])
    | none :: input => (.failed, t, input)
    | some c :: input => (.ok [c], t, input)
  else if count = 0 then (.ok [], t, input)
  else readLoop count t input

/-- One reader and its terminal: what `getc` has answered and will answer, and
each read so far with its count. -/
structure Session where
  tty : Tty := {}
  consumed : List (Option UInt8) := []
  input : List (Option UInt8)
  reads : List (Nat × Outcome) := []

def Session.read (s : Session) (count : Nat) : Session :=
  let r := cdevRead count s.tty s.input
  { tty := r.2.1
    consumed := s.consumed ++ s.input.take (s.input.length - r.2.2.length)
    input := r.2.2
    reads := s.reads ++ [(count, r.1)] }

def Session.run (s : Session) (counts : List Nat) : Session := counts.foldl Session.read s

/-! ## The cooked stream -/

/-- A character within a line. -/
def edit (line : List UInt8) (c : UInt8) : List UInt8 :=
  if c = 8 ∨ c = 0x7f then line.dropLast
  else if line.length < TTY_LINE_MAX - 1 then line ++ [c]
  else line

/-- The finished lines and the line being typed. -/
def cook (s : List (List UInt8) × List UInt8) : Option UInt8 → List (List UInt8) × List UInt8
  | none => s
  | some c => if c = 13 ∨ c = 10 then (s.1 ++ [s.2 ++ [10]], []) else (s.1, edit s.2 c)

def cooked (input : List (Option UInt8)) : List UInt8 := (input.foldl cook ([], [])).1.flatten

def upcoming (line : List UInt8) : List (Option UInt8) → Option (List UInt8)
  | [] => none
  | none :: _ => none
  | some c :: input => if c = 13 ∨ c = 10 then some (line ++ [10]) else upcoming (edit line c) input

def Session.delivered (s : Session) : List UInt8 :=
  s.reads.flatMap fun r => match r.2 with
    | .ok bytes => bytes
    | _ => []

def Session.held (s : Session) : List UInt8 := if s.tty.line_ready then s.tty.linebuf else []

/-- At most `count` bytes and at most one line. -/
def Orderly (count : Nat) : Outcome → Prop
  | .ok bytes => bytes.length ≤ count ∧ 10 ∉ bytes.dropLast
  | .failed | .waits => True
  | .fault => False

/-- Line input has lost nothing so far: the reads returned the cooked stream in
order, what is missing of a finished line is there for the next ones, and the
array has room for a line feed. -/
structure Faithful (input : List (Option UInt8)) (s : Session) : Prop where
  in_order : s.delivered <+: cooked input
  kept : s.delivered ++ s.held = cooked s.consumed
  orderly : ∀ r ∈ s.reads, Orderly r.1 r.2
  room : s.tty.linebuf.length < TTY_LINE_MAX

/-- The line that the read will take is not longer than the `int` of its count. -/
def Roomy (s : Session) (count : Nat) : Prop :=
  ∀ line, upcoming s.tty.linebuf s.input = some line → (line.length : Int) ≤ toInt count

/-! ## One line -/

section Line

variable {t : Tty} {c : UInt8} {count : Nat} {input : List (Option UInt8)} {line : List UInt8}

theorem lineDiscipline_end (h : c = 13 ∨ c = 10) :
    (lineDiscipline t c).linebuf = t.linebuf ++ [10] ∧ (lineDiscipline t c).line_ready = true := by
  unfold lineDiscipline
  rw [if_pos h]
  exact ⟨rfl, rfl⟩

theorem lineDiscipline_edit (h : ¬(c = 13 ∨ c = 10)) :
    (lineDiscipline t c).linebuf = edit t.linebuf c ∧ (lineDiscipline t c).line_ready = t.line_ready := by
  simp only [lineDiscipline, edit, if_neg h]
  split
  · exact ⟨rfl, rfl⟩
  · split <;> exact ⟨rfl, rfl⟩

theorem edit_length (h : line.length < TTY_LINE_MAX) : (edit line c).length < TTY_LINE_MAX := by
  unfold edit
  split
  · rw [length_dropLast]
    omega
  · split
    · rw [length_append, length_singleton]
      omega
    · exact h

theorem edit_inner (hc : ¬(c = 13 ∨ c = 10)) (h : 10 ∉ line) : 10 ∉ edit line c := by
  unfold edit
  split
  · exact fun hm => h (dropLast_subset _ hm)
  · split
    · rw [mem_append, mem_singleton]
      rintro (hm | rfl)
      · exact h hm
      · exact hc (.inr rfl)
    · exact h

theorem upcoming_inner (h : 10 ∉ line) {l : List UInt8} (hl : upcoming line input = some l) : 10 ∉ l.dropLast := by
  induction input generalizing line with
  | nil => cases hl
  | cons i input ih =>
    cases i with
    | none => cases hl
    | some c =>
      unfold upcoming at hl
      split at hl
      · cases hl
        rw [dropLast_concat]
        exact h
      · next hc => exact ih (edit_inner hc h) hl

theorem readLoop_ready (h : t.line_ready = true) : readLoop count t input = takeLine t count input := by
  cases input <;> simp only [readLoop, h, if_true]

/-- What the loop reads of its input, and how the cooked stream sees it. -/
structure Reads (count : Nat) (t : Tty) (input : List (Option UInt8)) (o : Outcome) (t' : Tty)
    (rest : List (Option UInt8)) : Prop where
  suffix : ∃ es, input = es ++ rest ∧ ∀ lines, es.foldl cook (lines, t.linebuf) =
    match upcoming t.linebuf input with
    | some line => (lines ++ [line], [])
    | none => (lines, t'.linebuf)
  outcome : match upcoming t.linebuf input with
    | some line => ∃ u : Tty, u.linebuf = line ∧ takeLine u count rest = (o, t', rest)
    | none => (o = .waits ∨ o = .failed) ∧ t'.line_ready = false
  room : t.linebuf.length < TTY_LINE_MAX → upcoming t.linebuf input = none → t'.linebuf.length < TTY_LINE_MAX
  inner : 10 ∉ t.linebuf → upcoming t.linebuf input = none → 10 ∉ t'.linebuf

theorem takeLine_rest (u : Tty) (count : Nat) (input : List (Option UInt8)) :
    ∃ o t', takeLine u count input = (o, t', input) := by
  unfold takeLine
  split <;> exact ⟨_, _, rfl⟩

theorem reads_end (hc : c = 13 ∨ c = 10) {u : Tty} (hu : u.linebuf = t.linebuf ++ [10]) {o : Outcome} {t' : Tty}
    (hrest : takeLine u count input = (o, t', input)) : Reads count t (some c :: input) o t' input := by
  have hup : upcoming t.linebuf (some c :: input) = some (t.linebuf ++ [10]) := by rw [upcoming, if_pos hc]
  refine ⟨⟨[some c], rfl, fun lines => ?_⟩, ?_, ?_, ?_⟩
  · rw [hup]
    simp only [foldl_cons, foldl_nil, cook, if_pos hc]
  · rw [hup]
    exact ⟨u, hu, hrest⟩
  · rw [hup]
    exact fun _ h => nomatch h
  · rw [hup]
    exact fun _ h => nomatch h

theorem readLoop_reads (h : t.line_ready = false) :
    Reads count t input (readLoop count t input).1 (readLoop count t input).2.1 (readLoop count t input).2.2 := by
  induction input generalizing t with
  | nil =>
    simp only [readLoop, h, Bool.false_eq_true, if_false]
    exact ⟨⟨[], rfl, fun _ => rfl⟩, ⟨.inl rfl, h⟩, fun hr _ => hr, fun hi _ => hi⟩
  | cons i input ih =>
    cases i with
    | none =>
      simp only [readLoop, h, Bool.false_eq_true, if_false]
      exact ⟨⟨[none], rfl, fun _ => rfl⟩, ⟨.inr rfl, h⟩, fun hr _ => hr, fun hi _ => hi⟩
    | some c =>
      simp only [readLoop, h, Bool.false_eq_true, if_false]
      by_cases hc : c = 13 ∨ c = 10
      · obtain ⟨hbuf, hready⟩ := lineDiscipline_end (t := t) hc
        obtain ⟨o, t', hrest⟩ := takeLine_rest (lineDiscipline t c) count input
        rw [readLoop_ready hready, hrest]
        exact reads_end hc hbuf hrest
      · obtain ⟨hbuf, hready⟩ := lineDiscipline_edit (t := t) hc
        obtain ⟨⟨es, hes, hcook⟩, hout, hroom, hin⟩ := ih (hready.trans h)
        have hup : upcoming t.linebuf (some c :: input) = upcoming (lineDiscipline t c).linebuf input := by
          rw [upcoming, if_neg hc, hbuf]
        refine ⟨⟨some c :: es, by rw [cons_append, ← hes], fun lines => ?_⟩, ?_, ?_, ?_⟩
        · rw [hup, ← hcook]
          simp only [foldl_cons, cook, if_neg hc, hbuf]
        · rw [hup]
          exact hout
        · rw [hup]
          intro hr
          exact hroom (hbuf ▸ edit_length hr)
        · rw [hup]
          exact fun hi => hin (hbuf ▸ edit_inner hc hi)

end Line

/-! ## One read -/

/-- Between reads no line is ready, and every finished line has been delivered. -/
structure Between (input : List (Option UInt8)) (s : Session) : Prop where
  whole : s.consumed ++ s.input = input
  idle : s.tty.line_ready = false
  lines : ∃ lines : List (List UInt8), s.consumed.foldl cook ([], []) = (lines, s.tty.linebuf) ∧ lines.flatten = s.delivered
  room : s.tty.linebuf.length < TTY_LINE_MAX
  inner : 10 ∉ s.tty.linebuf
  orderly : ∀ r ∈ s.reads, Orderly r.1 r.2

section Read

variable {s : Session} {count : Nat} {input : List (Option UInt8)} {line : List UInt8}

theorem between_start : Between input { input } :=
  ⟨rfl, rfl, ⟨[], rfl, rfl⟩, Nat.zero_lt_succ _, not_mem_nil, fun _ h => nomatch h⟩

theorem delivered_read : (s.read count).delivered = s.delivered ++ match (cdevRead count s.tty s.input).1 with
    | .ok bytes => bytes
    | _ => [] := by
  simp only [Session.delivered, Session.read, flatMap_append, flatMap_singleton]

theorem orderly_read (h : ∀ r ∈ s.reads, Orderly r.1 r.2) (ho : Orderly count (cdevRead count s.tty s.input).1) :
    ∀ r ∈ (s.read count).reads, Orderly r.1 r.2 := by
  intro r hr
  rcases mem_append.1 hr with hr | hr
  · exact h r hr
  · obtain rfl := mem_singleton.1 hr
    exact ho

theorem cooked_isPrefix (es rest : List (Option UInt8)) : cooked es <+: cooked (es ++ rest) := by
  have hgrow : ∀ (rest : List (Option UInt8)) (a : List (List UInt8) × List UInt8), a.1 <+: (rest.foldl cook a).1 := by
    intro rest
    induction rest with
    | nil => exact fun a => prefix_rfl
    | cons i rest ih =>
      intro a
      refine List.IsPrefix.trans ?_ (ih (cook a i))
      cases i with
      | none => exact prefix_rfl
      | some c =>
        show a.1 <+: (if c = 13 ∨ c = 10 then (a.1 ++ [a.2 ++ [10]], []) else (a.1, edit a.2 c) : List (List UInt8) × List UInt8).1
        split_ifs
        · exact prefix_append _ _
        · exact prefix_rfl
  obtain ⟨more, hmore⟩ := hgrow rest (es.foldl cook ([], []))
  rw [cooked, cooked, foldl_append, ← hmore, flatten_append]
  exact prefix_append _ _

theorem Between.faithful (h : Between input s) : Faithful input s := by
  obtain ⟨lines, hlines, hflat⟩ := h.lines
  have hcooked : cooked s.consumed = s.delivered := by rw [cooked, hlines, hflat]
  refine ⟨?_, ?_, h.orderly, h.room⟩
  · rw [← hcooked, ← h.whole]
    exact cooked_isPrefix _ _
  · rw [Session.held, h.idle, if_neg Bool.false_ne_true, append_nil, hcooked]

theorem takeLine_roomy {t : Tty} (h : (t.linebuf.length : Int) ≤ toInt count) :
    takeLine t count input = (.ok t.linebuf, { t with linebuf := [], line_ready := false }, input) := by
  have hlen : lenOf t count = t.linebuf.length := if_neg (by omega)
  rw [takeLine, hlen, if_neg (by omega), Int.toNat_natCast, take_length]

theorem takeLine_cut {t : Tty} (input : List (Option UInt8)) (h : ¬(t.linebuf.length : Int) ≤ toInt count) :
    (takeLine t count input).1 = .fault ∨
      ∃ n < t.linebuf.length, takeLine t count input = (.ok (t.linebuf.take n), { t with linebuf := [], line_ready := false }, input) := by
  have hlen : lenOf t count = toInt count := if_pos (by omega)
  rw [takeLine, hlen]
  by_cases hneg : toInt count < 0
  · rw [if_pos hneg]
    exact .inl rfl
  · rw [if_neg hneg]
    exact .inr ⟨(toInt count).toNat, by omega, rfl⟩

theorem toInt_le (n : Nat) : toInt n ≤ n := by
  unfold toInt
  rw [Int.bmod_def]
  split <;> omega

theorem Session.read_consumed {es : List (Option UInt8)} (h : s.input = es ++ (s.read count).input) :
    (s.read count).consumed = s.consumed ++ es := by
  show s.consumed ++ s.input.take (s.input.length - (s.read count).input.length) = _
  rw [h, length_append, Nat.add_sub_cancel, take_left]

theorem cdevRead_line (hn : 2 ≤ count) {t : Tty} : cdevRead count t input = readLoop count t input := by
  unfold cdevRead
  rw [if_neg (by omega), if_neg (by omega)]

/-- What a line read does between reads: it finds no line, or takes one. -/
theorem Between.read_cases (h : Between input s) (hn : 2 ≤ count) :
    (upcoming s.tty.linebuf s.input = none ∧ Between input (s.read count)) ∨
      ∃ line lines u, upcoming s.tty.linebuf s.input = some line ∧ u.linebuf = line ∧
        cdevRead count s.tty s.input = takeLine u count (s.read count).input ∧
        (s.read count).consumed ++ (s.read count).input = input ∧
        (s.read count).consumed.foldl cook ([], []) = (lines ++ [line], []) ∧ lines.flatten = s.delivered := by
  obtain ⟨lines, hlines, hflat⟩ := h.lines
  have hreads : Reads count s.tty s.input _ _ _ := readLoop_reads h.idle
  obtain ⟨⟨es, hes, hcook⟩, hout, hroom, hin⟩ := hreads
  rw [← cdevRead_line hn] at hes hout hroom hin
  have hconsumed : (s.read count).consumed = s.consumed ++ es := Session.read_consumed hes
  have hwhole : (s.read count).consumed ++ (s.read count).input = input := by
    rw [hconsumed, append_assoc, ← h.whole]
    exact congrArg (s.consumed ++ ·) hes.symm
  have hfold := hcook lines
  rw [← hlines, ← foldl_append, ← hconsumed, ← cdevRead_line hn] at hfold
  cases hup : upcoming s.tty.linebuf s.input with
  | none =>
    rw [hup] at hout hfold
    obtain ⟨ho, hidle⟩ := hout
    have hsame : (s.read count).delivered = s.delivered := by
      rw [delivered_read]
      rcases ho with ho | ho <;> rw [ho] <;> exact append_nil _
    refine .inl ⟨rfl, hwhole, hidle, ⟨lines, hfold, hflat.trans hsame.symm⟩, hroom h.room hup, hin h.inner hup, ?_⟩
    refine orderly_read h.orderly ?_
    rcases ho with ho | ho <;> rw [ho] <;> trivial
  | some line =>
    rw [hup] at hout hfold
    obtain ⟨u, hu, ho⟩ := hout
    exact .inr ⟨line, lines, u, rfl, hu, ho.symm, hwhole, hfold, hflat⟩

theorem Between.read (h : Between input s) (hn : 2 ≤ count) (hr : Roomy s count) : Between input (s.read count) := by
  obtain ⟨_, hb⟩ | ⟨line, lines, u, hup, hu, ho, hwhole, hfold, hflat⟩ := h.read_cases hn
  · exact hb
  · have hfits : (u.linebuf.length : Int) ≤ toInt count := hu ▸ hr line hup
    rw [takeLine_roomy hfits, hu] at ho
    have htty : (s.read count).tty = { u with linebuf := [], line_ready := false } := congrArg (·.2.1) ho
    have hdel : (s.read count).delivered = s.delivered ++ line := by rw [delivered_read, ho]
    refine ⟨hwhole, by rw [htty], ⟨lines ++ [line], by rw [htty, hfold], ?_⟩, by rw [htty]; exact Nat.zero_lt_succ _,
      by rw [htty]; exact not_mem_nil, orderly_read h.orderly ?_⟩
    · rw [flatten_concat, hflat, hdel]
    · rw [ho]
      have := toInt_le count
      exact ⟨by rw [hu] at hfits; omega, upcoming_inner h.inner hup⟩

theorem Between.roomy (h : Between input s) (hn : 2 ≤ count) (hf : Faithful input (s.read count)) : Roomy s count := by
  obtain ⟨hnone, _⟩ | ⟨line, lines, u, hup, hu, ho, hwhole, hfold, hflat⟩ := h.read_cases hn
  · intro line hline
    rw [hnone] at hline
    cases hline
  · intro line' hline
    rw [hup] at hline
    cases hline
    by_contra hlong
    rw [← hu] at hlong
    rcases takeLine_cut (s.read count).input hlong with hfault | ⟨n, hlt, hcut⟩
    · have hbad := hf.orderly (count, (cdevRead count s.tty s.input).1) (mem_append_right _ (mem_singleton_self _))
      rw [ho, hfault] at hbad
      exact hbad
    · rw [hcut] at ho
      have htty : (s.read count).tty = { u with linebuf := [], line_ready := false } := congrArg (·.2.1) ho
      have hdel : (s.read count).delivered = s.delivered ++ u.linebuf.take n := by rw [delivered_read, ho]
      have hkept := hf.kept
      rw [Session.held, htty, if_neg Bool.false_ne_true, append_nil, hdel, cooked, hfold, flatten_concat, hflat,
        append_cancel_left_eq, ← hu] at hkept
      have hlen := congrArg length hkept
      rw [length_take] at hlen
      omega

end Read

/-! ## A sequence of reads -/

section Reads

variable {input : List (Option UInt8)} {counts : List Nat}

theorem Session.run_concat (s : Session) (counts : List Nat) (n : Nat) : s.run (counts ++ [n]) = (s.run counts).read n := by
  rw [run, foldl_append]
  rfl

theorem between_run (hstep : ∀ done n, done ++ [n] <+: counts → Between input (({ input } : Session).run done) →
      Between input ((({ input } : Session).run done).read n))
    (done : List Nat) (hd : done <+: counts) : Between input (({ input } : Session).run done) := by
  induction done using reverseRecOn with
  | nil => exact between_start
  | append_singleton done n ih =>
    rw [Session.run_concat]
    exact hstep done n hd (ih ((prefix_append done [n]).trans hd))

/-- Line input loses nothing in any state of a sequence of reads exactly when
each read has room for the line it takes. -/
theorem line_input_iff (hn : ∀ n ∈ counts, 2 ≤ n) :
    (∀ done, done <+: counts → Faithful input (({ input } : Session).run done)) ↔
      ∀ done n, done ++ [n] <+: counts → Roomy (({ input } : Session).run done) n := by
  have hlast : ∀ done n, done ++ [n] <+: counts → 2 ≤ n := fun done n hd =>
    hn n (hd.subset (mem_append_right _ (mem_singleton_self n)))
  constructor
  · intro hf
    have hroomy : ∀ done n, done ++ [n] <+: counts → Between input (({ input } : Session).run done) →
        Roomy (({ input } : Session).run done) n := by
      intro done n hd hb
      have hafter := hf _ hd
      rw [Session.run_concat] at hafter
      exact hb.roomy (hlast done n hd) hafter
    intro done n hd
    refine hroomy done n hd (between_run ?_ done ((prefix_append done [n]).trans hd))
    exact fun done n hd hb => hb.read (hlast done n hd) (hroomy done n hd hb)
  · intro hr done hd
    refine (between_run ?_ done hd).faithful
    exact fun done n hd hb => hb.read (hlast done n hd) (hr done n hd)

end Reads

namespace Sample

def typed : List (Option UInt8) := [some 97, some 98, some 99, some 10, some 100, some 10]

/-- A reader with a buffer of two gets `ab` of the first line and then the second. -/
theorem long_line_lost : (({ input := typed } : Session).run [2, 16]).delivered = [97, 98, 100, 10] ∧
    ¬(({ input := typed } : Session).run [2, 16]).delivered <+: cooked typed := by
  decide +kernel

theorem short_lines_kept : (∀ n ∈ [16], 2 ≤ n) ∧
    ∀ done, done <+: [16] → Faithful typed (({ input := typed } : Session).run done) := by
  refine ⟨by decide, (line_input_iff (by decide)).2 ?_⟩
  intro done n hd line hline
  have hlen := hd.length_le
  rw [length_append, length_singleton, length_singleton] at hlen
  obtain rfl : done = [] := eq_nil_of_length_eq_zero (by omega)
  obtain rfl : n = 16 := by
    have := hd.subset (mem_singleton_self n)
    exact mem_singleton.1 this
  cases hline
  decide

end Sample

end Terminal
