import Yfs.Total.Files

/-! # The directory programs return -/

namespace Yfs

variable {g : Geometry} {σ : FS} {p : Ptr} {d cur : Int} {path : CStr}

/-! ## `get_dir_entry` -/

theorem scan_blocks_total {fuel m : Nat} {w : Walk} (hm : σ.Mapped g p.num) (hr : InRange g σ) (hi : g.isInode p.num)
    (hwi : w.i = m) (hb : w.b_num = σ.nthBlock p.num m) (hle : m ≤ σ.blocks p.num) (hf : σ.blocks p.num < m + fuel) :
    twp g (scan_blocks path p fuel w) σ fun _ _ => True := by
  induction fuel generalizing m w with
  | zero => omega
  | succ fuel ih =>
    unfold scan_blocks
    simp only [twp_ite, twp_ret, Prog.pure_eq, twp_bind, twp_get_b, twp_readInode, twp_readBlock]
    refine ⟨fun _ => trivial, fun h0 => ?_⟩
    have hc : σ.covers p.num m := Decidable.byContradiction fun hc => h0 (by rw [hb, View.nthBlock_of_not_covers hc])
    have hlt := View.covers_iff.mp hc
    refine ⟨?_, fun id => ⟨fun _ => trivial, fun _ => ?_⟩⟩
    · rw [hb, hm.nthBlock hc]
      exact hr.pointer hm hi hc
    · have hnext : w.i + 1 = ((m + 1 : Nat) : Int) := by omega
      have hfind : wp g (get_nth_b p (w.i + 1) false) σ fun b σ' => b = σ.nthBlock p.num (m + 1) ∧ σ' = σ :=
        get_nth_b_spec hnext (fun h => by cases h) hm.indirect ⟨rfl, rfl⟩
      refine twp_mono ?_ (twp_and (get_nth_b_total hnext fun _ _ => hr.indirect hi) hfind)
      rintro b σ' ⟨_, rfl, rfl⟩
      exact ih hnext rfl hlt (by omega)

/-- What the caller of the search has to show. -/
theorem search_total {α : Type} {f : Ptr → Walk → Prog α} {Q : α → FS → Prop} (hd : g.isInode d) (hm : σ.Mapped g d)
    (hr : InRange g σ) (hQ : ∀ id w, SearchDone σ.toView d path w → twp g (f ⟨d, id⟩ w) σ Q) :
    twp g (do
      let inode ← get_i d
      let b_num ← get_nth_b inode 0 false
      let w ← scan_blocks path inode loopFuel
        { i := 0, b_num := b_num, curr_b_num := 0, cur_b := none,
          search := { entry_offset := -1, entry_b_num := 0, cur_entry := 0, total_size := DIRENTSIZE, found := false } }
      f inode w) σ Q := by
  have hmax := hm.blocks_le
  simp only [twp_bind, twp_get_i]
  refine ⟨hd, fun id => ?_⟩
  have hfind : wp g (get_nth_b ⟨d, id⟩ 0 false) σ fun b σ' => b = σ.nthBlock d 0 ∧ σ' = σ :=
    get_nth_b_spec (n := 0) rfl (fun h => by cases h) hm.indirect ⟨rfl, rfl⟩
  refine twp_mono ?_ (twp_and (get_nth_b_total (n := 0) rfl fun _ _ => hr.indirect hd) hfind)
  rintro b σ' ⟨_, rfl, rfl⟩
  have hf : σ'.blocks d < 0 + loopFuel := by
    simp only [loopFuel]
    omega
  have hscan : wp g (scan_blocks path ⟨d, id⟩ loopFuel
      { i := 0, b_num := σ'.nthBlock d 0, curr_b_num := 0, cur_b := none,
        search := { entry_offset := -1, entry_b_num := 0, cur_entry := 0, total_size := DIRENTSIZE, found := false } }) σ'
      fun w τ => SearchDone σ'.toView d path w ∧ τ = σ' :=
    scan_blocks_spec hm Walked.start (Nat.zero_le _) hf fun w hw => ⟨hw, rfl⟩
  refine twp_mono ?_ (twp_and (scan_blocks_total hm hr hd rfl rfl (Nat.zero_le _) hf) hscan)
  rintro w τ ⟨_, hw, rfl⟩
  exact hQ id w hw

theorem get_dir_entry_total (hd : g.isInode d) (hm : σ.Mapped g d) (hr : InRange g σ) :
    twp g (get_dir_entry path d false) σ fun _ _ => True := by
  unfold get_dir_entry
  refine search_total hd hm hr fun id w hw => ?_
  simp only [twp_ite, twp_ret, Prog.pure_eq]
  exact ⟨fun _ => trivial, fun _ => ⟨fun _ => trivial, fun hn => absurd trivial hn⟩⟩

theorem get_dir_entry_found_total {k : Nat} {make : Bool} (hd : g.isInode d) (hm : σ.Mapped g d) (hr : InRange g σ)
    (hk : σ.findSlot d path = some k) : twp g (get_dir_entry path d make) σ fun _ _ => True := by
  unfold get_dir_entry
  refine search_total hd hm hr fun id w hw => ?_
  simp only [twp_ite, twp_ret, Prog.pure_eq]
  rcases hw with ⟨_, _, hfound, _⟩ | ⟨hnone, _⟩
  · exact ⟨fun _ => trivial, fun hn => absurd hfound hn⟩
  · rw [hk] at hnone
    cases hnone

theorem room_total (hw : WellFormed g σ) (hd : g.isInode d) (hdir : σ.isDir d) (hr : InRange g σ) (hroom : σ.RoomFor g d path) :
    twp g (get_dir_entry path d true) σ fun _ _ => True := by
  have hm := hw.mapped d hd
  obtain ⟨hpos, hsize⟩ := hw.sizes d hd hdir
  unfold get_dir_entry
  refine search_total hd hm hr fun id w hs => ?_
  simp only [twp_ite, twp_ret, Prog.pure_eq]
  rcases hs with ⟨k, hfind, hfound, hcur, hb⟩ | ⟨hfind, hb, he, hs⟩
  · exact ⟨fun _ => trivial, fun hn => absurd hfound hn⟩
  refine ⟨fun _ => trivial, fun _ => ⟨fun _ => trivial, fun _ => ⟨fun _ => trivial, fun h0 => ?_⟩⟩⟩
  have hnofree : σ.freeSlot d = none := by
    cases hfr : σ.freeSlot d with
    | none => rfl
    | some k =>
      rw [not_not, (he.free k hfr).2] at h0
      exact absurd h0 (hm.nonzero _ (covers_of_slot (freeSlot_lt hfr)))
  have hfull : σ.Full d path := ⟨hfind, hnofree⟩
  have hmod : Int.tmod (σ.size d) BLOCKSIZE = σ.size d % 512 := by
    rw [BLOCKSIZE, Int.tmod_eq_emod_of_nonneg hpos]
  simp only [twp_bind, twp_readInode, twp_ite]
  refine ⟨fun h512 => ?_, fun hpart => ?_⟩
  · rw [hmod] at h512
    have hg := hroom hfull h512
    have halloc : wp g (get_nth_b ⟨d, id⟩ w.i true) σ fun b _ => b = σ.next := by
      refine get_nth_b_alloc_spec hs.i View.not_covers_blocks (fun h _ => (hg.indirect h).data)
        (fun h => absurd hg.index (Nat.not_lt.mpr h)) fun _ => hw.wrap_next
    refine twp_mono ?_ (twp_and (get_nth_b_total hs.i fun _ _ => hr.indirect hd) halloc)
    rintro b σ' ⟨_, rfl⟩
    simp only [twp_get_b, modifyInode, modifyBlock, twp_bind, twp_readInode, twp_writeInode, twp_readBlock, twp_writeBlock,
      twp_dirtyBlock, twp_dirtyInode, twp_ret, implies_true, and_true]
    exact hr.next
  · rw [hmod] at hpart
    obtain ⟨hne, hidx, hcov, hcur⟩ := slots_part hpos hsize hpart
    obtain ⟨hb1, ⟨cur_b, hcb, hb2⟩, hentry⟩ := hs.last hne
    simp only [twp_bind, modifyInode, twp_readInode, twp_writeInode, twp_dirtyInode, hcb, twp_ite, twp_undef, modifyBlock,
      twp_readBlock, twp_writeBlock, twp_dirtyBlock, twp_ret, implies_true, and_true]
    rw [hentry, hcur, slotOffset]
    omega

/-! ## Paths -/

theorem lookup_part_total (hd : g.isInode d) (hm : σ.Mapped g d) (hr : InRange g σ) :
    twp g (lookup_part path d) σ fun _ _ => True := by
  unfold lookup_part
  have hentry : wp g (get_dir_entry path d false) σ fun r σ' => σ' = σ ∧
      (r.1 = -1 ∨ ∃ k, σ.findSlot d path = some k ∧ r.2 = σ.slotBlock d k) :=
    get_dir_entry_spec hd hm (fun k hk => ⟨rfl, .inr ⟨k, hk, rfl⟩⟩) fun _ => ⟨rfl, .inl rfl⟩
  refine twp_then (get_dir_entry_total hd hm hr) hentry ?_
  rintro ⟨off, b⟩ σ' ⟨rfl, hfound⟩
  simp only [twp_ite, twp_ret, Prog.pure_eq, twp_bind, twp_get_b, twp_readBlock, implies_true, and_true, true_and]
  intro hoff
  obtain ⟨k, hk, rfl⟩ := hfound.resolve_left hoff
  exact hr.pointer hm hd (covers_of_slot (findSlot_lt hk))

/-- A walk takes no more rounds than its path has bytes. -/
theorem next_part_shorter {path : CStr} (h : get_next_path_part path ≠ []) : (get_next_path_part path).length < path.length := by
  unfold get_next_path_part at h ⊢
  have h1 := (List.dropWhile_suffix (l := path) (· ≠ SLASH)).length_le
  cases hp : path.dropWhile (· ≠ SLASH) with
  | nil =>
    rw [hp] at h
    exact absurd rfl h
  | cons c rest =>
    have hc : c = SLASH := by
      have := List.head?_dropWhile_not (fun c : UInt8 => decide (c ≠ SLASH)) path
      rw [hp] at this
      simpa using this
    rw [hp, List.length_cons] at h1
    have h2 := (List.dropWhile_suffix (l := rest) (· = SLASH)).length_le
    rw [List.dropWhile_cons_of_pos (by simp [hc])]
    omega

theorem path_walk_total (hw : WellFormed g σ) (hr : InRange g σ) {fuel : Nat} (hd : g.isInode d) (hf : path.length < fuel) :
    twp g (path_walk fuel path d) σ fun _ _ => True := by
  induction fuel generalizing path d with
  | zero => omega
  | succ fuel ih =>
    unfold path_walk
    simp only [twp_bind, twp_get_i, twp_readInode, twp_ite, twp_ret, Prog.pure_eq]
    refine ⟨hd, fun id => ⟨fun hdir => ?_, fun _ => trivial⟩⟩
    have hfound : wp g (lookup_part path d) σ fun r σ' => r = σ.lookup d path ∧ σ' = σ := lookup_part_spec hw hd ⟨rfl, rfl⟩
    refine twp_mono ?_ (twp_and (lookup_part_total hd (hw.mapped d hd) hr) hfound)
    rintro r σ' ⟨_, rfl, rfl⟩
    have hnext : g.isInode (σ'.lookup d path) := hw.lookup_isInode hd hdir
    refine ⟨fun _ => ⟨hnext, fun _ => trivial⟩, fun hne => ih hnext ?_⟩
    have := next_part_shorter hne
    omega

theorem get_path_i_num_total (hw : WellFormed g σ) (hr : InRange g σ) (hd : g.isInode d) :
    twp g (get_path_i_num path d) σ fun _ _ => True := path_walk_total hw hr hd (Nat.lt_succ_self _)

theorem get_super_dir_total (hw : WellFormed g σ) (hr : InRange g σ) (hcur : g.isInode cur) :
    twp g (get_super_dir path cur) σ fun _ _ => True := by
  have hstart := from_root_isInode path g.isInode_root hcur
  unfold get_super_dir
  simp only [twp_ite, twp_bind, twp_ret, Prog.pure_eq, implies_true, and_true, true_and]
  exact fun _ _ => get_path_i_num_total hw hr hstart

end Yfs
