import Yfs.Dirs.Spec

/-! # The directory routines find what the slots say -/

namespace Yfs

variable {g : Geometry} {σ : FS} {v : View} {d : Int} {path : CStr} {s : Search}

/-! ## `get_dir_entry` -/

theorem Scan.next {K : Nat} (h : Scan v d path K s) (hK : K < v.slots d)
    (hno : name_eq (v.slotName d K) path = false) :
    Scan v d path (K + 1)
      { (if s.entry_offset = -1 ∧ v.slotInum d K = 0 then
          { s with entry_b_num := v.slotBlock d K, entry_offset := slotOffset K } else s) with
        cur_entry := s.cur_entry + 32, total_size := s.total_size + DIRENTSIZE } := by
  have hunseen : ∀ k, k < K + 1 → name_eq (v.slotName d k) path = false := by
    intro k hk
    rcases Nat.lt_succ_iff_lt_or_eq.mp hk with hk | rfl
    · exact h.unseen k hk
    · exact hno
  have htotal : s.total_size + DIRENTSIZE = 32 * ((K + 1 : Nat) + 1) := by
    rw [h.total, DIRENTSIZE]; omega
  split
  case isTrue hc =>
    refine ⟨hK, h.found, htotal, hunseen, Or.inr ⟨K, Nat.lt_succ_self K, hc.2, ?_, rfl, rfl⟩⟩
    rcases h.entry with he | ⟨k, _, _, _, he, _⟩
    · exact he.2.2
    · rw [hc.1] at he
      simp only [slotOffset] at he
      omega
  case isFalse hc =>
    refine ⟨hK, h.found, htotal, hunseen, ?_⟩
    rcases h.entry with ⟨h1, h2, h3⟩ | ⟨k, hk, hrest⟩
    · refine Or.inl ⟨h1, h2, fun k hk => ?_⟩
      rcases Nat.lt_succ_iff_lt_or_eq.mp hk with hk | rfl
      · exact h3 k hk
      · exact fun h0 => hc ⟨h1, h0⟩
    · exact Or.inr ⟨k, Nat.lt_succ_of_lt hk, hrest⟩

theorem Scan.reset {K : Nat} (h : Scan v d path K s) (c : Nat) : Scan v d path K { s with cur_entry := c } :=
  ⟨h.within, h.found, h.total, h.unseen, h.entry⟩

theorem findSlot_some {k : Nat} (hk : k < v.slots d) (hn : name_eq (v.slotName d k) path = true)
    (hl : ∀ l, l < k → name_eq (v.slotName d l) path = false) : v.findSlot d path = some k := by
  rw [View.findSlot, List.find?_range_eq_some]
  simp only [List.mem_range]
  exact ⟨hn, hk, fun l h => by simp [hl l h]⟩

/-- One block of the scan: it stops at the first match, or at the end of the block or of the directory. -/
theorem scan_block_spec {m j : Nat} (fuel : Nat) (h : Scan v d path (16 * m + j) s) (hcur : s.cur_entry = 32 * j)
    (hj : j ≤ 16) (hf : 16 < fuel + j) :
    let r := scan_block path (v.size d) (v.block (v.pointer d m)) (v.pointer d m) fuel s
    (∃ k, k / 16 = m ∧ v.findSlot d path = some k ∧ r.found = true ∧ r.cur_entry = slotOffset k) ∨
      ∃ j', j' ≤ 16 ∧ Scan v d path (16 * m + j') r ∧ r.cur_entry = 32 * j' ∧
        (j' = 16 ∨ 16 * m + j' = v.slots d) := by
  induction fuel generalizing j s with
  | zero => omega
  | succ fuel ih =>
    have hblk : v.slotBlock d (16 * m + j) = v.pointer d ((16 * m + j) / 16) := rfl
    by_cases hstop : s.total_size ≤ v.size d ∧ s.cur_entry < 512
    · have htot := h.total
      have hj16 : j < 16 := by omega
      have hlt : 16 * m + j < v.slots d := by
        simp only [View.slots]; omega
      have hdiv : (16 * m + j) / 16 = m := by omega
      have hoff : slotOffset (16 * m + j) = s.cur_entry := by simp only [slotOffset]; omega
      rw [hdiv] at hblk
      have hinum : (v.block (v.pointer d m)).inum s.cur_entry = v.slotInum d (16 * m + j) := by
        rw [View.slotInum, hblk, hoff]
      have hname : (v.block (v.pointer d m)).name s.cur_entry = v.slotName d (16 * m + j) := by
        rw [View.slotName, hblk, hoff]
      have hcur' : (if s.entry_offset = -1 ∧ v.slotInum d (16 * m + j) = 0 then
          { s with entry_b_num := v.pointer d m, entry_offset := s.cur_entry } else s).cur_entry = s.cur_entry := by
        split <;> rfl
      have htot' : (if s.entry_offset = -1 ∧ v.slotInum d (16 * m + j) = 0 then
          { s with entry_b_num := v.pointer d m, entry_offset := s.cur_entry } else s).total_size = s.total_size := by
        split <;> rfl
      simp only [scan_block, if_pos hstop, hinum, hcur', hname, htot']
      cases hn : name_eq (v.slotName d (16 * m + j)) path with
      | true =>
        left
        refine ⟨16 * m + j, hdiv, findSlot_some hlt hn h.unseen, by simp, ?_⟩
        simp only [if_true, hoff]
      | false =>
        have hnext := h.next hlt hn
        rw [hblk, hoff] at hnext
        simp only [Bool.false_eq_true, if_false]
        exact ih (j := j + 1) hnext (by simp only [hcur]; omega) (by omega) (by omega)
    · right
      simp only [scan_block, if_neg hstop]
      refine ⟨j, hj, h, hcur, ?_⟩
      have htot := h.total
      have hwithin := h.within
      simp only [View.slots] at hwithin ⊢
      omega

theorem min_next {m j K : Nat} (h : 16 * m + j ≤ K) (hj : j ≤ 16) (hend : j = 16 ∨ 16 * m + j = K) :
    min (16 * (m + 1)) K = 16 * m + j := by omega

/-- The first free slot, as the scan remembers it. -/
structure FreeEntry (v : View) (d : Int) (s : Search) : Prop where
  free : ∀ k, v.freeSlot d = some k → s.entry_offset = slotOffset k ∧ s.entry_b_num = v.slotBlock d k
  full : v.freeSlot d = none → s.entry_b_num = 0

/-- The scan has passed `m` blocks. -/
structure Walked (v : View) (d : Int) (path : CStr) (m : Nat) (w : Walk) : Prop where
  scan : Scan v d path (min (16 * m) (v.slots d)) w.search
  i : w.i = m
  b_num : w.b_num = v.nthBlock d m
  last : m ≠ 0 → w.curr_b_num = v.pointer d (m - 1) ∧ (∃ p, w.cur_b = some p ∧ p.num = v.pointer d (m - 1)) ∧
    w.search.cur_entry = 32 * (min (16 * m) (v.slots d) - 16 * (m - 1))

/-- How the search of `get_dir_entry` ends. -/
def SearchDone (v : View) (d : Int) (path : CStr) (w : Walk) : Prop :=
  (∃ k, v.findSlot d path = some k ∧ w.search.found = true ∧ w.search.cur_entry = slotOffset k ∧
    w.b_num = v.slotBlock d k) ∨
  v.findSlot d path = none ∧ w.b_num = 0 ∧ FreeEntry v d w.search ∧ Walked v d path (v.blocks d) w

theorem slots_le (v : View) (d : Int) : v.slots d ≤ 16 * v.blocks d := by
  simp only [View.slots, View.blocks]; omega

theorem slots_full (hfull : v.size d % 512 = 0) : v.slots d / 16 = v.blocks d := by
  simp only [View.slots, View.blocks]; omega

theorem slotOffset_full (hfull : v.size d % 512 = 0) : slotOffset (v.slots d) = 0 := by
  simp only [View.slots, slotOffset]; omega

/-- A directory that does not fill its last block has room there. -/
theorem slots_part (hpos : 0 ≤ v.size d) (hsize : v.size d % 32 = 0) (hpart : ¬ v.size d % 512 = 0) :
    v.blocks d ≠ 0 ∧ v.slots d / 16 = v.blocks d - 1 ∧ v.covers d (v.slots d / 16) ∧
      32 * (min (16 * v.blocks d) (v.slots d) - 16 * (v.blocks d - 1)) = slotOffset (v.slots d) := by
  simp only [View.slots, View.blocks, View.covers, BLOCKSIZE, slotOffset]; omega

theorem freeSlot_lt {k : Nat} (h : v.freeSlot d = some k) : k < v.slots d :=
  List.mem_range.mp (List.mem_of_find?_eq_some h)

theorem freeSlot_inum {k : Nat} (h : v.freeSlot d = some k) : v.slotInum d k = 0 := by
  simpa using List.find?_some h

theorem findSlot_lt {k : Nat} (h : v.findSlot d path = some k) : k < v.slots d :=
  List.mem_range.mp (List.mem_of_find?_eq_some h)

theorem covers_of_slot {k : Nat} (h : k < v.slots d) : v.covers d (k / 16) := by
  simp only [View.slots, View.covers, BLOCKSIZE] at *; omega

theorem freeSlot_none (h : ∀ k, k < v.slots d → v.slotInum d k ≠ 0) : v.freeSlot d = none := by
  rw [View.freeSlot, List.find?_range_eq_none]
  intro k hk
  simp [h k hk]

theorem freeSlot_some {k : Nat} (hk : k < v.slots d) (h0 : v.slotInum d k = 0)
    (hl : ∀ l, l < k → v.slotInum d l ≠ 0) : v.freeSlot d = some k := by
  rw [View.freeSlot, List.find?_range_eq_some]
  exact ⟨decide_eq_true h0, List.mem_range.mpr hk, fun l hlk => by rw [decide_eq_false (hl l hlk)]; rfl⟩

theorem Scan.freeEntry (h : Scan v d path (v.slots d) s) : FreeEntry v d s := by
  rcases h.entry with ⟨_, h2, h3⟩ | ⟨k, hk, h0, hl, he⟩
  · have hnone := freeSlot_none h3
    exact ⟨fun k hk => absurd (hnone.symm.trans hk) (by simp), fun _ => h2⟩
  · have hsome := freeSlot_some hk h0 hl
    refine ⟨fun l hl => ?_, fun hn => absurd (hsome.symm.trans hn) (by simp)⟩
    obtain rfl := Option.some.inj (hsome.symm.trans hl)
    exact he

theorem Scan.findSlot_none (h : Scan v d path (v.slots d) s) : v.findSlot d path = none := by
  rw [View.findSlot, List.find?_range_eq_none]
  intro k hk
  simp [h.unseen k hk]

theorem scan_blocks_spec {Q : Walk → FS → Prop} {p : Ptr} {fuel m : Nat} {w : Walk} (hm : σ.Mapped g p.num)
    (h : Walked σ.toView p.num path m w) (hle : m ≤ σ.blocks p.num) (hf : σ.blocks p.num < m + fuel)
    (hQ : ∀ w', SearchDone σ.toView p.num path w' → Q w' σ) : wp g (scan_blocks path p fuel w) σ Q := by
  induction fuel generalizing m w with
  | zero => omega
  | succ fuel ih =>
    unfold scan_blocks
    simp only [wp_ite, wp_ret, Prog.pure_eq, wp_bind, wp_get_b, wp_readInode, wp_readBlock]
    refine ⟨fun h0 => hQ w ?_, fun h0 _ _ id => ⟨?_, ?_⟩⟩
    · have hc : ¬ σ.covers p.num m := fun hc => hm.nonzero m hc (by rw [← hm.nthBlock hc, ← h.b_num, h0])
      rw [View.covers_iff] at hc
      obtain rfl : m = σ.blocks p.num := by omega
      have hscan := h.scan
      rw [Nat.min_eq_right (slots_le σ.toView p.num)] at hscan
      exact Or.inr ⟨hscan.findSlot_none, h0, hscan.freeEntry, h⟩
    all_goals
      have hc : σ.covers p.num m := Decidable.byContradiction fun hc => h0 (by rw [h.b_num, View.nthBlock_of_not_covers hc])
      have hb : w.b_num = σ.pointer p.num m := by rw [h.b_num, hm.nthBlock hc]
    · rw [hb]; exact hm.data m hc
    · have hmin : min (16 * m) (σ.slots p.num) = 16 * m + 0 := by
        simp only [View.covers, BLOCKSIZE, View.slots] at hc ⊢
        omega
      have hscan := h.scan
      rw [hmin] at hscan
      have hr := scan_block_spec 17 (hscan.reset 0) rfl (by omega) (by omega)
      rw [hb]
      generalize scan_block path _ _ _ 17 _ = r at hr ⊢
      rcases hr with ⟨k, hk, hfind, hfound, hcur⟩ | ⟨j', hj', hscan', hcur, hend⟩
      · refine ⟨fun _ => hQ _ (Or.inl ⟨k, hfind, hfound, hcur, ?_⟩), fun hn => absurd hfound hn⟩
        rw [View.slotBlock, hk]
      · refine ⟨fun hf => absurd hf (by simp [hscan'.found]), fun _ => ?_⟩
        have hK := min_next hscan'.within hj' hend
        have hlt := View.covers_iff.mp hc
        refine get_nth_b_spec (n := m + 1) (by have := h.i; omega) (fun h => by cases h) hm.indirect ?_
        refine ih (m := m + 1) ⟨?_, ?_, rfl, fun _ => ⟨?_, ⟨⟨σ.pointer p.num m, id⟩, ?_, ?_⟩, ?_⟩⟩ hlt (by omega)
        · rwa [hK]
        · simp only [h.i]; omega
        · rw [Nat.add_sub_cancel]
        · rfl
        · rw [Nat.add_sub_cancel]
        · rw [hcur, hK]; omega

theorem Walked.start : Walked v d path 0
    { i := 0, b_num := v.nthBlock d 0, curr_b_num := 0, cur_b := none,
      search := { entry_offset := -1, entry_b_num := 0, cur_entry := 0, total_size := DIRENTSIZE, found := false } } := by
  refine ⟨⟨?_, rfl, ?_, ?_, Or.inl ⟨rfl, rfl, ?_⟩⟩, rfl, rfl, fun h => absurd rfl h⟩
  · omega
  · rw [Nat.mul_zero, Nat.zero_min]; rfl
  · intro k hk; omega
  · intro k hk; omega

section

variable {Q : Int × Int → FS → Prop}

/-- What the caller of the search has to show. -/
theorem search_spec {α : Type} {f : Ptr → Walk → Prog α} {Q : α → FS → Prop} (hd : g.isInode d) (hm : σ.Mapped g d)
    (hQ : ∀ id w, SearchDone σ.toView d path w → (σ.blocks d = 0 → w.cur_b = none) → wp g (f ⟨d, id⟩ w) σ Q) :
    wp g (do
      let inode ← get_i d
      let b_num ← get_nth_b inode 0 false
      let w ← scan_blocks path inode loopFuel
        { i := 0, b_num := b_num, curr_b_num := 0, cur_b := none,
          search := { entry_offset := -1, entry_b_num := 0, cur_entry := 0, total_size := DIRENTSIZE, found := false } }
      f inode w) σ Q := by
  have hmax := hm.blocks_le
  simp only [wp_bind, wp_get_i]
  refine fun _ => ⟨hd, fun id => get_nth_b_spec (n := 0) rfl (fun h => by cases h) hm.indirect ?_⟩
  by_cases h0 : σ.blocks d = 0
  · -- The search of an empty file stops before its first block.
    have hstart : Walked σ.toView d path 0 _ := .start
    have hscan := hstart.scan
    rw [show min (16 * 0) (σ.slots d) = σ.slots d by have := slots_le σ.toView d; omega] at hscan
    have hb : σ.nthBlock d 0 = 0 := View.nthBlock_of_not_covers fun hc => by
      have := View.covers_iff.mp hc
      omega
    obtain ⟨n, hn⟩ := Nat.exists_eq_succ_of_ne_zero (show loopFuel ≠ 0 by simp [loopFuel])
    rw [hn, scan_blocks, wp_ite, Prog.pure_eq, wp_ret]
    refine ⟨fun _ => hQ id _ (.inr ⟨hscan.findSlot_none, hb, hscan.freeEntry, ?_⟩) fun _ => rfl, fun hne => absurd hb hne⟩
    rwa [h0]
  · exact scan_blocks_spec hm Walked.start (Nat.zero_le _) (by simp only [loopFuel]; omega) fun w hw => hQ id w hw fun he => absurd he h0

theorem get_dir_entry_spec (hd : g.isInode d) (hm : σ.Mapped g d)
    (hsome : ∀ k, σ.findSlot d path = some k → Q ((slotOffset k : Int), σ.slotBlock d k) σ)
    (hnone : σ.findSlot d path = none → Q (-1, 0) σ) : wp g (get_dir_entry path d false) σ Q := by
  unfold get_dir_entry
  refine search_spec hd hm fun id w hw _ => ?_
  simp only [wp_ite, wp_ret, Prog.pure_eq]
  rcases hw with ⟨k, hfind, hfound, hcur, hb⟩ | ⟨hfind, hb, _, hw⟩
  · refine ⟨fun _ => ?_, fun hn => absurd hfound hn⟩
    rw [hcur, hb]
    exact hsome k hfind
  · refine ⟨fun hf => absurd hf (by simp [hw.scan.found]), fun _ => ⟨fun _ => ?_, fun hn => absurd trivial hn⟩⟩
    rw [hb]
    exact hnone hfind

theorem slotBlock_growBlock (hidx : σ.blocks d < 140) (hwrap : Mem.wrap 4 σ.next = σ.next)
    (hslot : σ.slots d / 16 = σ.blocks d) (hind : 12 ≤ σ.blocks d → σ.indirect d ≠ σ.next) :
    (σ.growBlock d).slotBlock d (σ.slots d) = σ.next := by
  simp only [View.slotBlock, hslot, FS.growBlock, FS.markInode_view, FS.markBlock_view, FS.setBlock_view,
    FS.setInode_view]
  rw [View.pointer_setBlock_ne, View.pointer_setInode_self (by simp) (by simp), FS.pointer_alloc_self hidx, hwrap]
  intro h
  simpa using hind h

theorem slotBlock_growLast (h : 12 ≤ σ.slots d / 16 → σ.indirect d ≠ σ.slotBlock d (σ.slots d)) :
    (σ.growLast d).slotBlock d (σ.slots d) = σ.slotBlock d (σ.slots d) := by
  rw [View.slotBlock]
  simp only [FS.growLast, FS.markInode_view, FS.markBlock_view, FS.setBlock_view, FS.setInode_view]
  rw [View.pointer_setBlock_ne, View.pointer_setInode_self (by simp) (by simp), View.slotBlock]
  intro hn
  simpa using h hn

theorem get_dir_entry_true_spec (hw : WellFormed g σ) (hd : g.isInode d) (hdir : σ.isDir d)
    (hgrow : σ.Full d path → σ.size d % 512 = 0 → σ.blocks d < 140 ∧ ¬ g.isTable σ.next ∧
      (12 ≤ σ.blocks d → ¬ g.isTable (σ.indirect d) ∧ σ.indirect d ≠ σ.next))
    (hQ : ∀ k σ', Placed σ d path k σ' → Q ((slotOffset k : Int), σ'.slotBlock d k) σ') :
    wp g (get_dir_entry path d true) σ Q := by
  have hm := hw.mapped d hd
  obtain ⟨hpos, hsize⟩ := hw.sizes d hd hdir
  unfold get_dir_entry
  refine search_spec hd hm fun id w hs _ => ?_
  simp only [wp_ite, wp_ret, Prog.pure_eq]
  rcases hs with ⟨k, hfind, hfound, hcur, hb⟩ | ⟨hfind, hb, he, hs⟩
  · refine ⟨fun _ => ?_, fun hn => absurd hfound hn⟩
    rw [hcur, hb]
    exact hQ k σ (.found hfind)
  refine ⟨fun hf => absurd hf (by simp [hs.scan.found]), fun _ => ⟨fun hn => (by cases hn), fun _ => ⟨fun h0 => ?_, fun h0 => ?_⟩⟩⟩
  · cases hfr : σ.freeSlot d with
    | none => exact absurd (he.full hfr) h0
    | some k =>
      rw [(he.free k hfr).1, (he.free k hfr).2]
      exact hQ k σ (.free hfind hfr)
  have hnofree : σ.freeSlot d = none := by
    cases hfr : σ.freeSlot d with
    | none => rfl
    | some k =>
      rw [not_not, (he.free k hfr).2] at h0
      exact absurd h0 (hm.nonzero _ (covers_of_slot (freeSlot_lt hfr)))
  have hfull : σ.Full d path := ⟨hfind, hnofree⟩
  have hQ := hQ _ _ (.new hfull)
  simp only [wp_bind, wp_readInode, wp_ite]
  have hmod : Int.tmod (σ.size d) BLOCKSIZE = σ.size d % 512 := by
    rw [BLOCKSIZE, Int.tmod_eq_emod_of_nonneg hpos]
  refine ⟨fun h0 => ?_, fun hpart => ?_⟩
  · rw [hmod] at h0
    obtain ⟨hidx, hnext, hind⟩ := hgrow hfull h0
    rw [FS.grow, if_pos h0, slotBlock_growBlock hidx hw.wrap_next (slots_full h0) fun h => (hind h).2,
      slotOffset_full h0] at hQ
    refine get_nth_b_alloc_spec hs.i View.not_covers_blocks (fun h _ => (hind h).1)
      (fun h => absurd hidx (Nat.not_lt.mpr h)) fun _ => ?_
    rw [hw.wrap_next]
    simp only [wp_get_b, modifyInode, modifyBlock, wp_bind, wp_readInode, wp_writeInode, wp_readBlock, wp_writeBlock,
      wp_dirtyBlock, wp_dirtyInode, wp_ret]
    exact fun _ _ _ => ⟨hnext, hnext, hQ⟩
  · rw [hmod] at hpart
    obtain ⟨hne, hidx, hcov, hcur⟩ := slots_part hpos hsize hpart
    obtain ⟨hb1, ⟨cur_b, hcb, hb2⟩, hentry⟩ := hs.last hne
    rw [hcur] at hentry
    rw [← hidx] at hb1 hb2
    have htab : ¬ g.isTable cur_b.num := hb2 ▸ hm.data _ hcov
    rw [FS.grow, if_neg hpart, slotBlock_growLast fun h => (hw.pointer_ne_indirect hd hcov (hcov.lt h)).symm] at hQ
    simp only [wp_bind, modifyInode, wp_readInode, wp_writeInode, wp_dirtyInode, hcb, wp_ite, wp_undef, modifyBlock,
      wp_readBlock, wp_writeBlock, wp_dirtyBlock, wp_ret]
    refine ⟨fun _ => trivial, fun _ => ⟨htab, htab, ?_⟩⟩
    rw [hentry, hb2, hb1]
    exact hQ

/-- In any file, directory or not, and with or without a block for it, `get_dir_entry` finds a slot or makes a place without an inode. -/
theorem get_dir_entry_any_spec (hw : WellFormed g σ) (hd : g.isInode d)
    (hgrow : σ.Full d path → σ.size d % 512 = 0 → ¬ g.isTable σ.next ∧ (12 ≤ σ.blocks d → ¬ g.isTable (σ.indirect d)))
    (hfound : ∀ k, σ.findSlot d path = some k → Q ((slotOffset k : Int), σ.slotBlock d k) σ)
    (hfree : σ.findSlot d path = none → ∀ k, σ.freeSlot d = some k → Q ((slotOffset k : Int), σ.slotBlock d k) σ)
    (hmade : σ.Full d path → ∀ (off : Nat) (b : Int) (τ : FS), ¬ g.isTable b → (τ.block b).inum off = 0 → τ.i_head = σ.i_head →
      τ.b_head ⊆ σ.b_head → τ.size d = Mem.wrap 4 (σ.size d + DIRENTSIZE) → Q ((off : Int), b) τ) : wp g (get_dir_entry path d true) σ Q := by
  have hm := hw.mapped d hd
  have hzero : Mem.wrap 2 (0 : Int) = 0 := Mem.wrap_short 0 (by decide) (by decide)
  unfold get_dir_entry
  refine search_spec hd hm fun id w hs hempty => ?_
  simp only [wp_ite, wp_ret, Prog.pure_eq]
  rcases hs with ⟨k, hfind, hfound', hcur, hb⟩ | ⟨hfind, hb, he, hs⟩
  · refine ⟨fun _ => ?_, fun hn => absurd hfound' hn⟩
    rw [hcur, hb]
    exact hfound k hfind
  refine ⟨fun hf => absurd hf (by simp [hs.scan.found]), fun _ => ⟨fun hn => (by cases hn), fun _ => ⟨fun h0 => ?_, fun h0 => ?_⟩⟩⟩
  · cases hfr : σ.freeSlot d with
    | none => exact absurd (he.full hfr) h0
    | some k =>
      rw [(he.free k hfr).1, (he.free k hfr).2]
      exact hfree hfind k hfr
  have hnofree : σ.freeSlot d = none := by
    cases hfr : σ.freeSlot d with
    | none => rfl
    | some k =>
      rw [not_not, (he.free k hfr).2] at h0
      exact absurd h0 (hm.nonzero _ (covers_of_slot (freeSlot_lt hfr)))
  have hfull : σ.Full d path := ⟨hfind, hnofree⟩
  have hmade := hmade hfull
  simp only [wp_bind, wp_readInode, wp_ite]
  refine ⟨fun h0 => ?_, fun hpart => ?_⟩
  · obtain ⟨hnext, hind⟩ := hgrow hfull (Int.emod_eq_zero_of_dvd (Int.dvd_of_tmod_eq_zero h0))
    refine get_nth_b_alloc_spec hs.i View.not_covers_blocks (fun h _ => hind h) (fun _ => ?_) fun _ => ?_
    · -- The largest directory gets block 0.
      simp only [wp_get_b, modifyInode, modifyBlock, wp_bind, wp_readInode, wp_writeInode, wp_readBlock, wp_writeBlock,
        wp_dirtyBlock, wp_dirtyInode, wp_ret]
      have h0 : ¬ g.isTable 0 := fun ht => absurd ht.1 (by decide)
      refine fun _ _ _ => ⟨h0, h0, hmade 0 0 _ h0 ?_ rfl (List.Subset.refl _) ?_⟩
      · exact (congrArg (Block.inum · 0) View.setBlock_block_self).trans ((Block.inum_setInum_self _ _ _ (by omega)).trans hzero)
      · simp [View.size, Field.width]
    · rw [hw.wrap_next]
      simp only [wp_get_b, modifyInode, modifyBlock, wp_bind, wp_readInode, wp_writeInode, wp_readBlock, wp_writeBlock,
        wp_dirtyBlock, wp_dirtyInode, wp_ret]
      have hi_head : (σ.alloc d (σ.blocks d)).i_head = σ.pop.i_head := congrArg Globals.i_head FS.alloc_globals
      have hb_head : (σ.alloc d (σ.blocks d)).b_head ⊆ σ.b_head := by
        rw [FS.alloc_globals]
        exact List.tail_subset _
      have hold : ((σ.alloc d (σ.blocks d)).inode d).size = σ.size d := FS.alloc_get fun _ _ => by simp
      refine fun _ _ _ => ⟨hnext, hnext, hmade 0 σ.next _ hnext ?_ hi_head hb_head ?_⟩
      · exact (congrArg (Block.inum · 0) View.setBlock_block_self).trans ((Block.inum_setInum_self _ _ _ (by omega)).trans hzero)
      · rw [← hold]
        simp [View.size, Field.width]
  · simp only [wp_bind, modifyInode, wp_readInode, wp_writeInode, wp_dirtyInode]
    cases hcb : w.cur_b with
    | none => simp only [wp_undef]
    | some cur_b =>
      have hne : σ.blocks d ≠ 0 := fun h => by
        rw [hempty h] at hcb
        cases hcb
      obtain ⟨hb1, ⟨p, hp, hb2⟩, _⟩ := hs.last hne
      obtain rfl := Option.some.inj (hcb.symm.trans hp)
      have htab : ¬ g.isTable cur_b.num := hb2 ▸ hm.data _ (View.covers_iff.mpr (by omega))
      simp only [wp_ite, wp_undef, modifyBlock, wp_bind, wp_readBlock, wp_writeBlock, wp_dirtyBlock, wp_ret]
      refine ⟨fun _ => trivial, fun hfits => ⟨htab, htab, ?_⟩⟩
      rw [hb1, ← hb2]
      refine hmade _ _ _ htab ?_ rfl (List.Subset.refl _) ?_
      · exact (congrArg (Block.inum · _) View.setBlock_block_self).trans ((Block.inum_setInum_self _ _ _ (by omega)).trans hzero)
      · simp [View.size, Field.width]

theorem room_spec (hw : WellFormed g σ) (hd : g.isInode d) (hdir : σ.isDir d) (hroom : σ.RoomFor g d path)
    (hQ : ∀ k σ', Placed σ d path k σ' → Q ((slotOffset k : Int), σ'.slotBlock d k) σ') :
    wp g (get_dir_entry path d true) σ Q := by
  refine get_dir_entry_true_spec hw hd hdir (fun hfull h0 => ?_) hQ
  have hg := hroom hfull h0
  exact ⟨hg.index, hg.data, fun h => ⟨(hg.indirect h).data, fun he => (hg.indirect h).free (he ▸ next_mem hg.free)⟩⟩

end

/-! ## Paths -/

theorem Geometry.isInode_zero (g : Geometry) : g.isInode 0 := by
  have := g.inodes_pos
  exact ⟨Int.le_refl 0, by omega⟩

theorem lookup_none (h : v.findSlot d path = none) : v.lookup d path = 0 := by
  rw [View.lookup, h, Option.map_none, Option.getD_none]

theorem lookup_some {k : Nat} (h : v.findSlot d path = some k) : v.lookup d path = v.slotInum d k := by
  rw [View.lookup, h, Option.map_some, Option.getD_some]

theorem WellFormed.lookup_isInode (hw : WellFormed g σ) (hd : g.isInode d) (hdir : σ.isDir d) :
    g.isInode (σ.lookup d path) := by
  cases h : σ.findSlot d path with
  | none => rw [lookup_none h]; exact g.isInode_zero
  | some k => rw [lookup_some h]; exact hw.entries d k hd hdir (findSlot_lt h)

theorem WellFormed.walk_isInode (hw : WellFormed g σ) {fuel : Nat} (hd : g.isInode d) :
    g.isInode (σ.walk fuel path d) := by
  induction fuel generalizing path d with
  | zero => exact g.isInode_zero
  | succ fuel ih =>
    rw [View.walk]
    split
    case isTrue hdir =>
      split
      · exact hw.lookup_isInode hd hdir
      · exact ih (hw.lookup_isInode hd hdir)
    case isFalse => exact g.isInode_zero

theorem WellFormed.resolve_isInode (hw : WellFormed g σ) (hd : g.isInode d) : g.isInode (σ.resolve path d) :=
  hw.walk_isInode hd

section

variable {Q : Int → FS → Prop}

theorem lookup_part_spec (hw : WellFormed g σ) (hd : g.isInode d) (hQ : Q (σ.lookup d path) σ) :
    wp g (lookup_part path d) σ Q := by
  have hm := hw.mapped d hd
  unfold lookup_part
  simp only [wp_bind]
  refine get_dir_entry_spec hd hm (fun k hk => ?_) fun hn => ?_
  · rw [lookup_some hk] at hQ
    simp only [wp_ite, wp_bind, wp_get_b, wp_readBlock, wp_ret, Prog.pure_eq]
    refine ⟨fun h => absurd h (by omega), fun _ _ _ id => ⟨hm.data _ (covers_of_slot (findSlot_lt hk)), ?_⟩⟩
    rw [Int.toNat_natCast]
    exact hQ
  · rw [lookup_none hn] at hQ
    simp only [wp_ite, wp_ret, Prog.pure_eq]
    exact ⟨fun _ => hQ, fun h => absurd trivial h⟩

theorem path_walk_spec (hw : WellFormed g σ) {fuel : Nat} (hd : g.isInode d) (hQ : Q (σ.walk fuel path d) σ) :
    wp g (path_walk fuel path d) σ Q := by
  induction fuel generalizing path d with
  | zero => simp only [path_walk, wp_undef]
  | succ fuel ih =>
    unfold path_walk
    simp only [wp_bind, wp_get_i, wp_readInode, wp_ite, wp_ret, Prog.pure_eq]
    rw [View.walk] at hQ
    refine fun _ => ⟨hd, fun id => ⟨fun hdir => lookup_part_spec hw hd ?_, fun hdir => ?_⟩⟩
    · rw [if_pos hdir] at hQ
      have hnext : g.isInode (σ.lookup d path) := hw.lookup_isInode hd hdir
      refine ⟨fun he _ => ⟨hnext, fun _ => ?_⟩, fun he => ih hnext ?_⟩
      · rwa [if_pos he] at hQ
      · rwa [if_neg he] at hQ
    · rwa [if_neg hdir] at hQ

theorem get_path_i_num_spec (hw : WellFormed g σ) (hd : g.isInode d) (hQ : Q (σ.resolve path d) σ) :
    wp g (get_path_i_num path d) σ Q := path_walk_spec hw hd hQ

end

/-- Where an absolute path starts. -/
theorem from_root_isInode (path : CStr) (hg : g.isInode ROOTINODE) (hd : g.isInode d) : g.isInode (from_root path d).2 := by
  unfold from_root
  split
  · exact hg
  · exact hd

theorem get_super_dir_spec {Q : Int × CStr → FS → Prop} (hw : WellFormed g σ) (hd : g.isInode d)
    (hg : g.isInode ROOTINODE) (hQ : Q (σ.superDir path d) σ) : wp g (get_super_dir path d) σ Q := by
  have hstart := from_root_isInode path hg hd
  unfold get_super_dir
  simp only [wp_ite, wp_bind, wp_ret, Prog.pure_eq]
  rw [View.superDir] at hQ
  refine ⟨fun hlen => ?_, fun hlen => ⟨fun hidx => get_path_i_num_spec hw hstart ?_, fun hidx => ?_⟩⟩
  · rwa [if_pos hlen] at hQ
  all_goals
    rw [if_neg hlen] at hQ
    simp only at hQ
  · rw [if_neg hidx] at hQ
    constructor
    · intro h0; rwa [if_pos h0] at hQ
    · intro h0; rwa [if_neg h0] at hQ
  · rwa [if_pos (not_not.mp hidx)] at hQ

end Yfs
