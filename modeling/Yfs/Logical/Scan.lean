import Yfs.Logical.Eval
import Yfs.Dirs.Slots

/-! # The search of `get_dir_entry`, on the logical file system -/

namespace Yfs

variable {g : Geometry} {σ : FS} {d : Int} {path : CStr} {p : Ptr}

/-! ## The blocks of the directory -/

theorem scan_blocks_finds {fuel m : Nat} {w : Walk} (hl : σ.Laid g p.num) (h : Walked σ.toView p.num path m w)
    (hle : m ≤ σ.blocks p.num) (hf : σ.blocks p.num < m + fuel) :
    ∃ w', eval g (scan_blocks path p fuel w) σ.logical = some (w', σ.logical) ∧ SearchDone σ.toView p.num path w' := by
  have hm := hl.mapped
  induction fuel generalizing m w with
  | zero => omega
  | succ fuel ih =>
    unfold scan_blocks
    by_cases h0 : w.b_num = 0
    · have hc : ¬ σ.covers p.num m := fun hc => hm.nonzero m hc (by rw [← hm.nthBlock hc, ← h.b_num, h0])
      rw [View.covers_iff] at hc
      obtain rfl : m = σ.blocks p.num := by omega
      have hscan := h.scan
      rw [Nat.min_eq_right (slots_le σ.toView p.num)] at hscan
      rw [if_pos h0]
      exact ⟨w, rfl, Or.inr ⟨hscan.findSlot_none, h0, hscan.freeEntry, h⟩⟩
    have hc : σ.covers p.num m := Decidable.byContradiction fun hc => h0 (by rw [h.b_num, View.nthBlock_of_not_covers hc])
    have hb : w.b_num = σ.pointer p.num m := by rw [h.b_num, hm.nthBlock hc]
    obtain ⟨-, hdata⟩ := hl.own m hc
    rw [if_neg h0, hb, eval_bind, eval_get_b hdata.range, Option.bind_some, eval_bind, eval_readInode, Option.bind_some, eval_bind,
      eval_readBlock hdata.table, Option.bind_some, FS.logical_inode, FS.logical_block]
    dsimp only
    have hmin : min (16 * m) (σ.slots p.num) = 16 * m + 0 := by
      simp only [View.covers, BLOCKSIZE, View.slots] at hc ⊢
      omega
    have hscan := h.scan
    rw [hmin] at hscan
    have hr := scan_block_spec 17 (hscan.reset 0) rfl (by omega) (by omega)
    generalize scan_block path _ _ _ 17 _ = r at hr ⊢
    rcases hr with ⟨k, hk, hfind, hfound, hcur⟩ | ⟨j', hj', hscan', hcur, hend⟩
    · rw [if_pos hfound]
      exact ⟨_, rfl, Or.inl ⟨k, hfind, hfound, hcur, by rw [View.slotBlock, hk]⟩⟩
    · have hK := min_next hscan'.within hj' hend
      have hi := h.i
      rw [if_neg (by simp [hscan'.found]), eval_bind, get_nth_b_look (n := m + 1) hl (by omega), Option.bind_some]
      refine ih (m := m + 1) ⟨?_, ?_, rfl, fun _ => ⟨?_, ⟨⟨σ.pointer p.num m, 0⟩, rfl, ?_⟩, ?_⟩⟩ (View.covers_iff.mp hc) (by omega)
      · rwa [hK]
      · simp only [hi]; omega
      · rw [Nat.add_sub_cancel]
      · rw [Nat.add_sub_cancel]
      · rw [hcur, hK]; omega

/-- What the caller of the search gets. -/
theorem search_finds (hl : σ.Laid g d) (path : CStr) : ∃ w, SearchDone σ.toView d path w ∧ ∀ {α : Type} (f : Ptr → Walk → Prog α),
    eval g (do
      let inode ← get_i d
      let b_num ← get_nth_b inode 0 false
      let w ← scan_blocks path inode loopFuel
        { i := 0, b_num := b_num, curr_b_num := 0, cur_b := none,
          search := { entry_offset := -1, entry_b_num := 0, cur_entry := 0, total_size := DIRENTSIZE, found := false } }
      f inode w) σ.logical = eval g (f ⟨d, 0⟩ w) σ.logical := by
  have hmax := hl.mapped.blocks_le
  have hstart : Walked σ.toView d path 0 _ := Walked.start
  obtain ⟨w, he, hw⟩ := scan_blocks_finds (p := ⟨d, 0⟩) hl hstart (Nat.zero_le _)
    (show σ.blocks d < 0 + loopFuel by simp only [loopFuel]; omega)
  have hfirst : eval g (get_nth_b ⟨d, 0⟩ 0 false) σ.logical = some (σ.nthBlock d 0, σ.logical) :=
    get_nth_b_look (p := ⟨d, 0⟩) (n := 0) hl rfl
  refine ⟨w, hw, fun f => ?_⟩
  rw [eval_bind, eval_get_i hl.inode, Option.bind_some, eval_bind]
  dsimp only
  rw [hfirst, Option.bind_some, eval_bind, he, Option.bind_some]

/-! ## `get_dir_entry` -/

/-- Without a new entry. -/
theorem get_dir_entry_looks (hl : σ.Laid g d) : eval g (get_dir_entry path d false) σ.logical =
    some (((σ.findSlot d path).map fun k => ((slotOffset k : Int), σ.slotBlock d k)).getD (-1, 0), σ.logical) := by
  unfold get_dir_entry
  obtain ⟨w, hw, he⟩ := search_finds hl path
  refine (he _).trans ?_
  rcases hw with ⟨k, hfind, hfound, hcur, hb⟩ | ⟨hfind, hb, _, hs⟩
  · rw [if_pos hfound, hfind, hcur, hb]
    rfl
  · rw [if_neg (by simp [hs.scan.found]), if_pos rfl, hfind, hb]
    rfl

/-- Where a full last block is no obstacle: the next block is on the disk, and so is the indirect block if it is needed. -/
structure FS.CanAppend (g : Geometry) (σ : FS) (d : Int) : Prop where
  index : σ.blocks d < 140
  wrap : Mem.wrap 4 σ.next = σ.next
  data : g.IsData σ.next
  indirect : 12 ≤ σ.blocks d → g.IsData (σ.indirect d) ∧ σ.indirect d ≠ σ.next

/-- With a new entry. -/
theorem get_dir_entry_places (hl : σ.Laid g d) (hsize : 0 ≤ σ.size d ∧ σ.size d % 32 = 0)
    (hind : ∀ n, σ.covers d n → 12 ≤ n → σ.pointer d n ≠ σ.indirect d)
    (hgrow : σ.Full d path → σ.size d % 512 = 0 → σ.CanAppend g d) :
    ∃ k σ', Placed σ d path k σ' ∧
      eval g (get_dir_entry path d true) σ.logical = some (((slotOffset k : Int), σ'.slotBlock d k), σ'.logical) := by
  unfold get_dir_entry
  obtain ⟨w, hw, he⟩ := search_finds hl path
  rw [he]
  rcases hw with ⟨k, hfind, hfound, hcur, hb⟩ | ⟨hfind, hb, hent, hs⟩
  · refine ⟨k, σ, .found hfind, ?_⟩
    rw [if_pos hfound, hcur, hb]
    rfl
  rw [if_neg (by simp [hs.scan.found]), if_neg (by simp)]
  cases hfr : σ.freeSlot d with
  | some k =>
    have hne := (hl.own _ (covers_of_slot (freeSlot_lt hfr))).1
    refine ⟨k, σ, .free hfind hfr, ?_⟩
    obtain ⟨h1, h2⟩ := hent.free k hfr
    rw [if_pos (by rw [h2]; exact hne), h1, h2]
    rfl
  | none =>
    have hfull : σ.Full d path := ⟨hfind, hfr⟩
    have hmod : Int.tmod (σ.size d) BLOCKSIZE = σ.size d % 512 := by rw [BLOCKSIZE, Int.tmod_eq_emod_of_nonneg hsize.1]
    refine ⟨σ.slots d, σ.grow d, .new hfull, ?_⟩
    rw [if_neg (by simp [hent.full hfr]), eval_bind, eval_readInode, Option.bind_some, FS.logical_inode, FS.grow]
    dsimp only
    by_cases h0 : σ.size d % 512 = 0
    · have hg := hgrow hfull h0
      have hc : ¬ σ.covers d (σ.blocks d) := View.not_covers_blocks
      have hreach : eval g (get_nth_b ⟨d, 0⟩ w.i true) σ.logical = some (σ.next, (σ.alloc d (σ.blocks d)).logical) := by
        have := get_nth_b_reach (g := g) (p := ⟨d, 0⟩) hs.i hg.index fun h12 => (hg.indirect h12).1
        rw [FS.reach, if_neg hc, FS.pointer_alloc_self hg.index, hg.wrap] at this
        exact this
      rw [if_pos h0, if_pos (hmod.trans h0), eval_bind, hreach, Option.bind_some, eval_bind, eval_get_b hg.data.range,
        Option.bind_some, eval_bind, eval_modifyInode, Option.bind_some, FS.logical_setInode, eval_bind,
        eval_modifyBlock hg.data.table, Option.bind_some, slotBlock_growBlock hg.index hg.wrap (slots_full h0) fun h => (hg.indirect h).2,
        slotOffset_full h0]
      rfl
    · obtain ⟨hne, hidx, hcov, hcur⟩ := slots_part hsize.1 hsize.2 h0
      obtain ⟨hb1, ⟨cur_b, hcb, hb2⟩, hentry⟩ := hs.last hne
      rw [hcur] at hentry
      rw [← hidx] at hb1 hb2
      have hdata := (hl.own _ hcov).2
      rw [if_neg h0, if_neg (by rwa [hmod]), eval_bind, eval_modifyInode, Option.bind_some, eval_bind, eval_dirtyInode, Option.bind_some,
        slotBlock_growLast fun h => (hind _ hcov h).symm, hcb]
      dsimp only
      rw [if_neg (by rw [hentry, slotOffset]; omega), eval_bind, eval_modifyBlock (by rw [hb2]; exact hdata.table), Option.bind_some, hentry,
        hb1, hb2]
      rfl

end Yfs
