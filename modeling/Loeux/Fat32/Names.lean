import Loeux.Fat32.Slots
/-!
# Names that are created, found and listed

After a successful `fat32_create` the entry stands in a slot that was free, so no
other entry has changed. It is found and listed under its own name exactly if the
name does not begin with the mark of a removed entry and is kept by the two flags.
-/

namespace Fat32

open Lib Bytes List Option

/-! ## The new entry -/

section Entry

variable {dos : Name} {attr ntres : UInt8} {cluster : Nat} {now : Stamp}

theorem De.dir_name_slice (e : Bytes) : De.dir_name (e.slice DIRENT_SIZE 0) = De.dir_name e := by
  refine map_congr_left fun i hi => ?_
  have : i < 11 := mem_range.1 hi
  simp only [slice, Nat.zero_add]
  rw [if_pos (by unfold DIRENT_SIZE; omega)]

theorem slice_apply {e : Bytes} {i : Nat} (h : i < DIRENT_SIZE) : e.slice DIRENT_SIZE 0 i = e i := by
  simp only [slice, Nat.zero_add, if_pos h]

theorem De.first_slice (e : Bytes) : De.first (e.slice DIRENT_SIZE 0) = De.first e := by
  unfold De.first
  rw [get_slice _ (by decide), get_slice _ (by decide), Nat.zero_add, Nat.zero_add]

theorem De.dir_file_size_slice (e : Bytes) : De.dir_file_size (e.slice DIRENT_SIZE 0) = De.dir_file_size e := by
  unfold De.dir_file_size
  rw [get_slice _ (by decide), Nat.zero_add]

theorem De.new_apply {i : Nat} (h : i < 13) : De.new dos attr ntres cluster now i =
    if i < 11 then dos.getD i 0 else if i = 11 then attr else ntres := by
  unfold De.new De.setFirst
  rw [put_of_ne _ (by omega), put_of_ne _ (by omega), put_of_ne _ (by omega), put_of_ne _ (by omega),
    put_of_ne _ (by omega), put_of_ne _ (by omega), put_of_ne _ (by omega)]
  split_ifs with h1 h2 h3
  · rfl
  · rfl
  · rfl
  · omega

theorem De.dir_name_new (h : dos.length = 11) : De.dir_name (De.new dos attr ntres cluster now) = dos := by
  refine ext_getElem (by simp [De.dir_name, h]) fun i h1 h2 => ?_
  rw [h] at h2
  simp only [De.dir_name, getElem_map, getElem_range]
  rw [De.new_apply (by omega), if_pos h2, getD_eq_getElem _ _ (by omega)]

theorem De.dir_attr_new : De.dir_attr (De.new dos attr ntres cluster now) = attr := De.new_apply (by decide)

theorem De.dir_nt_reserved_new : De.dir_nt_reserved (De.new dos attr ntres cluster now) = ntres := De.new_apply (by decide)

end Entry

/-! ## The slot -/

section Slot

variable {fs : Fs} {v v' : Volume} {dir : Inode} {l : List Nat} {s : Slot} {name dos : Name} {now : Stamp} {inode : Inode}

def isFree (e : Bytes) : Prop := e 0 = 0x00 ∨ e 0 = 0xE5

theorem not_listed_of_free {e : Bytes} (h : isFree e) : ¬isListed e = true := by
  unfold isListed isBasic
  rcases h with h | h <;> simp [h]

theorem dirent_zero {c off : Nat} (h : v.data c = zero) : v.dirent (c, off) = zero := by
  funext i
  simp only [Volume.dirent, h, slice, zero, ite_self]

theorem dirExtend_grown {c : Nat} (hl : Chain fs v (dirStart fs dir) l) (h : dirExtend fs v dir = some (v', c)) :
    l ≠ [] ∧ Grown fs v (dirStart fs dir) l v' (dirStart fs dir) [c] := by
  have hnil : l ≠ [] := by
    rintro rfl
    have h0 := hl.eq_nil_iff.1 rfl
    have hcount := fs.count
    rw [dirExtend, h0] at h
    cases hg : fs.cluster_count with
    | zero => omega
    | succ g =>
      rw [hg, tailLoop, if_neg fun hv => hv.ne_zero rfl] at h
      cases h
  refine ⟨hnil, ?_⟩
  unfold dirExtend at h
  rw [tailLoop_eq hl hnil hl.length_le] at h
  dsimp only at h
  split_ifs at h with hvalid
  split at h
  · cases h
  · next w d ha =>
    have hg := (took_of_alloc ha).grown hl rfl
    rw [if_neg hvalid.ne_zero, if_neg hvalid.ne_zero, fatSet, if_pos hvalid.range] at hg
    rw [fatSet, if_pos hvalid.range] at h
    cases h
    exact hg

theorem findSlot_spec (hl : Chain fs v (dirStart fs dir) l) (h : findSlot fs v dir = some (v', s)) :
    ∃ new, Grown fs v (dirStart fs dir) l v' (dirStart fs dir) new ∧ s ∈ fs.slotsOf (l ++ new) ∧ isFree (v'.dirent s) := by
  unfold findSlot at h
  cases hf : freeSlot fs v dir with
  | some t =>
    rw [hf] at h
    cases h
    refine ⟨[], .refl hl, ?_, ?_⟩
    · rw [append_nil, ← slots_eq hl]
      exact mem_of_find?_eq_some hf
    · have := find?_some hf
      simpa [isFree] using this
  | none =>
    rw [hf] at h
    obtain ⟨⟨w, c⟩, hw, heq⟩ := map_eq_some_iff.1 h
    cases heq
    obtain ⟨-, hg⟩ := dirExtend_grown hl hw
    refine ⟨[c], hg, Fs.mem_slotsOf.2 ⟨by simp, fs.zero_mem_offsets⟩, .inl ?_⟩
    rw [dirent_zero (hg.zero c (by simp))]
    rfl

theorem Grown.dirent {first first' : Nat} {new : List Nat} (hg : Grown fs v first l v' first' new) (hs : s ∈ fs.slotsOf l) : v'.dirent s = v.dirent s := by
  have hnd := nodup_append.1 hg.chain.nodup
  rw [Volume.dirent, Volume.dirent, hg.data s.1 fun hc => hnd.2.2 s.1 (Fs.mem_slotsOf.1 hs).1 s.1 hc rfl]

theorem Grown.not_listed {first first' : Nat} {new : List Nat} (hg : Grown fs v first l v' first' new) (hs : s ∈ fs.slotsOf new) :
    ¬isListed (v'.dirent s) = true :=
  not_listed_of_free (.inl (by rw [dirent_zero (hg.zero s.1 (Fs.mem_slotsOf.1 hs).1)]; rfl))

theorem vfsDirent_congr (h : v'.dirent s = v.dirent s) : vfsDirent v' s = vfsDirent v s := by
  unfold vfsDirent
  rw [h]

theorem listed_congr {ss : List Slot} (h : ∀ s ∈ ss, v'.dirent s = v.dirent s) :
    (ss.filter fun s => isListed (v'.dirent s)).map (vfsDirent v') = (ss.filter fun s => isListed (v.dirent s)).map (vfsDirent v) := by
  rw [filter_congr fun s hs => by rw [h s hs]]
  exact map_congr_left fun s hs => vfsDirent_congr (h s (mem_of_mem_filter hs))

theorem Grown.listing {new : List Nat} (hd : dir.dir = true) (hl : Chain fs v (dirStart fs dir) l)
    (hg : Grown fs v (dirStart fs dir) l v' (dirStart fs dir) new) : listing fs v' dir = listing fs v dir := by
  rw [listing_eq hd, listing_eq hd, slots_eq hl, slots_eq hg.chain, Fs.slotsOf_append, filter_append, map_append,
    listed_congr fun s hs => hg.dirent hs, filter_eq_nil_iff.2 fun s hs => hg.not_listed hs, map_nil, append_nil]

theorem listing_storeDirent {e : Bytes} (hd : dir.dir = true) (hl : Chain fs v (dirStart fs dir) l) (hs : s ∈ fs.slotsOf l)
    (hfree : isFree (v.dirent s)) : ∃ before after, listing fs v dir = before ++ after ∧
      listing fs (v.storeDirent s e) dir = before ++
        (if isListed ((v.storeDirent s e).dirent s) then [vfsDirent (v.storeDirent s e) s] else []) ++ after := by
  have hl' : Chain fs (v.storeDirent s e) (dirStart fs dir) l := hl.congr fun _ _ => rfl
  obtain ⟨ss, ts, hsplit⟩ := append_of_mem hs
  have hnd : (ss ++ s :: ts).Nodup := hsplit ▸ Fs.slotsOf_nodup hl.nodup
  have hmem : ∀ x ∈ ss ++ ts, x.2 ∈ fs.offsets ∧ x ≠ s := fun x hx => by
    refine ⟨(Fs.mem_slotsOf.1 (show x ∈ fs.slotsOf l by rw [hsplit]; simp only [mem_append, mem_cons] at hx ⊢; tauto)).2, ?_⟩
    rintro rfl
    exact (nodup_middle.1 hnd |> nodup_cons.1).1 hx
  have hsame : ∀ x ∈ ss ++ ts, (v.storeDirent s e).dirent x = v.dirent x := fun x hx =>
    dirent_storeDirent_of_ne (Fs.mem_slotsOf.1 hs).2 (hmem x hx).1 (hmem x hx).2
  refine ⟨(ss.filter fun x => isListed (v.dirent x)).map (vfsDirent v), (ts.filter fun x => isListed (v.dirent x)).map (vfsDirent v), ?_, ?_⟩
  · rw [listing_eq hd, slots_eq hl, hsplit, filter_append, filter_cons, if_neg (not_listed_of_free hfree), map_append]
  · rw [listing_eq hd, slots_eq hl', hsplit, filter_append, filter_cons, map_append, append_assoc,
      listed_congr fun x hx => hsame x (mem_append_left _ hx)]
    split_ifs
    · rw [map_cons, listed_congr fun x hx => hsame x (mem_append_right _ hx)]
      rfl
    · rw [listed_congr fun x hx => hsame x (mem_append_right _ hx)]
      rfl

theorem dirAdd_some {is_dir : Bool} (h : dirAdd fs v dir name is_dir now = (v', some inode)) : dir.dir = true ∧
    ∃ dos u cluster w s, nameToDos name = some dos ∧ dirFind fs v dir dos = none ∧
      (if is_dir then allocCluster fs v else some (v, 0)) = some (u, cluster) ∧ findSlot fs u dir = some (w, s) ∧
      v' = w.storeDirent s (De.new dos (if is_dir then ATTR_DIRECTORY else ATTR_ARCHIVE) (ntReserved name) cluster now) ∧
      inode = inodeCreate fs v' (De.new dos (if is_dir then ATTR_DIRECTORY else ATTR_ARCHIVE) (ntReserved name) cluster now) s := by
  unfold dirAdd at h
  split at h
  · next hd =>
    refine ⟨hd, ?_⟩
    cases hn : nameToDos name with
    | none =>
      rw [hn] at h
      cases h
    | some dos =>
      rw [hn] at h
      dsimp only at h
      split at h
      · cases h
      · next hfound =>
        unfold addEntry at h
        cases ha : (if is_dir then allocCluster fs v else some (v, 0)) with
        | none =>
          rw [ha] at h
          cases h
        | some r =>
          obtain ⟨u, cluster⟩ := r
          rw [ha] at h
          dsimp only at h
          cases hf : findSlot fs u dir with
          | none =>
            rw [hf] at h
            cases h
          | some r =>
            obtain ⟨w, s⟩ := r
            rw [hf] at h
            cases h
            exact ⟨dos, u, cluster, w, s, rfl, by simpa using hfound, rfl, hf, rfl, rfl⟩
  · cases h

end Slot

/-! ## Round trips -/

/-- The name is found and is the name of the one entry that the listing has got. -/
structure RoundTrips (fs : Fs) (v : Volume) (dir : Inode) (name : Name) (v' : Volume) (inode : Inode) : Prop where
  found : lookup fs v' dir name = some inode
  listed : ∃ before after d, listing fs v dir = before ++ after ∧ listing fs v' dir = before ++ d :: after ∧ d.name = name

section RoundTrip

variable {fs : Fs} {v v' : Volume} {dir inode : Inode} {l : List Nat} {name dos : Name} {now : Stamp}

theorem isListed_new (ha : Accepted name dos) (ntres : UInt8) (cluster : Nat) (now : Stamp) :
    isListed ((De.new dos ATTR_ARCHIVE ntres cluster now).slice DIRENT_SIZE 0) = true ↔ name.head? ≠ some 0xe5 := by
  obtain ⟨c, rest, rfl, hok, hhead⟩ := ha.first
  obtain ⟨h0, hdot, he5⟩ := toUpper_first hok
  have hbyte : (De.new dos ATTR_ARCHIVE ntres cluster now).slice DIRENT_SIZE 0 0 = toUpper c := by
    rw [slice_apply (by decide), De.new_apply (by decide), if_pos (by decide), getD_eq_getElem?_getD, ← head?_eq_getElem?, hhead]
    rfl
  have hattr : De.dir_attr ((De.new dos ATTR_ARCHIVE ntres cluster now).slice DIRENT_SIZE 0) = ATTR_ARCHIVE := by
    rw [De.dir_attr, slice_apply (by decide)]
    exact De.dir_attr_new
  have harchive : ATTR_ARCHIVE ≠ ATTR_LONG_NAME ∧ ATTR_ARCHIVE &&& ATTR_VOLUME_ID = 0 := by decide
  unfold isListed isBasic isDot
  rw [hbyte, hattr]
  simp [h0, hdot, he5, harchive]

theorem inodeCreate_slice (e : Bytes) (s : Slot) : inodeCreate fs v (e.slice DIRENT_SIZE 0) s = inodeCreate fs v e s := by
  have hattr : De.dir_attr (e.slice DIRENT_SIZE 0) = De.dir_attr e := slice_apply (by decide)
  unfold inodeCreate
  rw [De.first_slice, De.dir_file_size_slice, hattr]

theorem vfsDirent_name_new {w : Volume} {s : Slot} (ha : Accepted name dos) :
    (vfsDirent (w.storeDirent s (De.new dos ATTR_ARCHIVE (ntReserved name) 0 now)) s).name = dosToName dos (ntReserved name) := by
  have hnt : De.dir_nt_reserved ((De.new dos ATTR_ARCHIVE (ntReserved name) 0 now).slice DIRENT_SIZE 0) = ntReserved name := by
    rw [De.dir_nt_reserved, slice_apply (by decide)]
    exact De.dir_nt_reserved_new
  unfold vfsDirent
  rw [dirent_storeDirent_self, De.dir_name_slice, De.dir_name_new ha.dos_length, hnt]

theorem dirFind_storeDirent {s : Slot} {e : Bytes} (hl : Chain fs v (dirStart fs dir) l) (hs : s ∈ fs.slotsOf l)
    (hnone : ∀ x ∈ fs.slotsOf l, ¬(isListed (v.dirent x) && De.dir_name (v.dirent x) = dos) = true)
    (he : isListed (e.slice DIRENT_SIZE 0) = true) (hname : De.dir_name e = dos) :
    dirFind fs (v.storeDirent s e) dir dos = some s := by
  have hl' : Chain fs (v.storeDirent s e) (dirStart fs dir) l := hl.congr fun _ _ => rfl
  unfold dirFind
  rw [slots_eq hl']
  cases hf : (fs.slotsOf l).find? fun x => isListed ((v.storeDirent s e).dirent x) && De.dir_name ((v.storeDirent s e).dirent x) = dos with
  | none =>
    have := find?_eq_none.1 hf s hs
    rw [dirent_storeDirent_self, he, De.dir_name_slice, hname] at this
    simp at this
  | some x =>
    have hx := mem_of_find?_eq_some hf
    have hp := find?_some hf
    by_contra hne
    have hne : x ≠ s := fun e => hne (congrArg some e)
    rw [dirent_storeDirent_of_ne (Fs.mem_slotsOf.1 hs).2 (Fs.mem_slotsOf.1 hx).2 hne] at hp
    exact hnone x hx hp

/-- After a successful `fat32_create` in a directory whose chain ends, exactly these
names are found and listed as they were given. -/
theorem name_round_trip_iff (hl : Chain fs v (dirStart fs dir) l) (h : create fs v dir name now = (v', some inode)) :
    RoundTrips fs v dir name v' inode ↔ name.head? ≠ some 0xe5 ∧ Kept name := by
  obtain ⟨hd, dos, u, cluster, w, s, hn, hfind, hu, hslot, hv, hi⟩ := dirAdd_some h
  obtain ⟨rfl, rfl⟩ : v = u ∧ 0 = cluster := by
    cases hu
    exact ⟨rfl, rfl⟩
  rw [if_neg (by decide)] at hv hi
  subst hv hi
  have ha := accepted_of_nameToDos hn
  obtain ⟨new, hg, hs, hfree⟩ := findSlot_spec hl hslot
  obtain ⟨before, after, hbefore, hafter⟩ :=
    listing_storeDirent (e := De.new dos ATTR_ARCHIVE (ntReserved name) 0 now) hd hg.chain hs hfree
  rw [hg.listing hd hl] at hbefore
  rw [dirent_storeDirent_self] at hafter
  have hlisted := isListed_new ha (ntReserved name) 0 now
  constructor
  · rintro ⟨-, bs, as, d, h1, h2, rfl⟩
    have hyes : isListed ((De.new dos ATTR_ARCHIVE (ntReserved d.name) 0 now).slice DIRENT_SIZE 0) = true := by
      by_contra hno
      rw [if_neg hno, append_nil, ← hbefore, h1] at hafter
      have hlen := congrArg List.length (h2.symm.trans hafter)
      simp at hlen
    rw [if_pos hyes] at hafter
    -- one entry more than before, in two ways
    have heq : d ::ₘ ((bs ++ as : List VfsDirent) : Multiset VfsDirent) =
        vfsDirent (w.storeDirent s (De.new dos ATTR_ARCHIVE (ntReserved d.name) 0 now)) s ::ₘ
          ((before ++ after : List VfsDirent) : Multiset VfsDirent) := by
      rw [Multiset.cons_coe, Multiset.cons_coe, Multiset.coe_eq_coe]
      have h3 := h2.symm.trans hafter
      rw [append_assoc, singleton_append] at h3
      exact perm_middle.symm.trans ((List.Perm.of_eq h3).trans perm_middle)
    rw [← h1, ← hbefore, Multiset.cons_inj_left] at heq
    have hshow := congrArg VfsDirent.name heq
    rw [vfsDirent_name_new ha] at hshow
    exact ⟨hlisted.1 hyes, ha.shown_iff.1 hshow.symm⟩
  · rintro ⟨hhead, hkept⟩
    have hyes := hlisted.2 hhead
    rw [if_pos hyes] at hafter
    refine ⟨?_, before, after, _, hbefore, by rw [hafter, append_assoc]; rfl, ?_⟩
    · have hnone : ∀ x ∈ fs.slotsOf (l ++ new), ¬(isListed (w.dirent x) && De.dir_name (w.dirent x) = dos) = true := by
        intro x hx
        rw [Fs.slotsOf_append, mem_append] at hx
        rcases hx with hx | hx
        · rw [hg.dirent hx]
          unfold dirFind at hfind
          rw [slots_eq hl] at hfind
          exact find?_eq_none.1 hfind x hx
        · simp [hg.not_listed hx]
      rw [lookup, if_pos hd, hn]
      dsimp only
      rw [dirFind_storeDirent hg.chain hs hnone hyes (De.dir_name_new ha.dos_length), map_some, dirent_storeDirent_self,
        inodeCreate_slice]
    · rw [vfsDirent_name_new ha]
      exact ha.shown_iff.2 hkept

end RoundTrip

namespace NameSample

def fs : Fs where
  bytes_per_sector := 512
  sectors_per_cluster := 1
  root_cluster := 2
  cluster_count := 65525
  sector := rfl
  cluster := ⟨0, by decide⟩
  count := by decide
  root := by decide
  small := by decide

def vol : Volume := { fat := fun c => if c = 2 then EOF_MARK else 0, data := fun _ => Bytes.zero }

def root : Inode := { first_cluster := 2, kind := .root, size := 512 }

theorem root_chain : Chain fs vol (dirStart fs root) [2] where
  seg := ⟨rfl, rfl⟩
  valid c hc := by
    rw [mem_singleton.1 hc]
    decide

def abc : Name := [0x61, 0x62, 0x63]

def abcTxt : Name := [0x61, 0x62, 0x63, 0x2e, 0x74, 0x78, 0x74]

/-- The file `abc` is listed as `ABC`. -/
theorem listed_in_upper_case : ∃ v' inode, Chain fs vol (dirStart fs root) [2] ∧
    create fs vol root abc ⟨0, 0⟩ = (v', some inode) ∧ ¬RoundTrips fs vol root abc v' inode := by
  have hsome : (create fs vol root abc ⟨0, 0⟩).2.isSome = true := by decide +kernel
  have hnames : (listing fs (create fs vol root abc ⟨0, 0⟩).1 root).map VfsDirent.name = [[0x41, 0x42, 0x43]] := by decide +kernel
  obtain ⟨inode, hi⟩ := isSome_iff_exists.1 hsome
  refine ⟨_, inode, root_chain, Prod.ext rfl hi, fun h => ?_⟩
  obtain ⟨before, after, d, -, h2, hd⟩ := h.listed
  have hmem : abc ∈ (listing fs (create fs vol root abc ⟨0, 0⟩).1 root).map VfsDirent.name := by
    rw [h2, map_append, map_cons, hd]
    simp
  rw [hnames] at hmem
  exact absurd hmem (by decide)

theorem abcTxt_round_trip : ∃ v' inode, create fs vol root abcTxt ⟨0, 0⟩ = (v', some inode) ∧ Kept abcTxt ∧
    RoundTrips fs vol root abcTxt v' inode := by
  have hsome : (create fs vol root abcTxt ⟨0, 0⟩).2.isSome = true := by decide +kernel
  obtain ⟨inode, hi⟩ := isSome_iff_exists.1 hsome
  have hkept : Kept abcTxt := by decide +kernel
  exact ⟨_, inode, Prod.ext rfl hi, hkept, (name_round_trip_iff root_chain (Prod.ext rfl hi)).2 ⟨by decide, hkept⟩⟩

end NameSample

end Fat32
