import Yfs.Total

/-! # The file programs return -/

namespace Yfs

variable {g : Geometry} {σ : FS} {p : Ptr} {b i k : Int} {n : Nat}

theorem get_next_free_bnum_total : twp g get_next_free_bnum σ fun _ _ => True := by
  unfold get_next_free_bnum
  simp only [twp_bind, twp_globals]
  cases σ.b_head <;> simp

theorem modifyInode_total {f : Inode → Inode} : twp g (modifyInode p f) σ fun _ _ => True := by simp [modifyInode]

theorem modifyBlock_total {f : Block → Block} : twp g (modifyBlock p f) σ fun _ _ => True := by simp [modifyBlock]

/-- Past the direct pointers it needs an indirect block that is on the disk. -/
theorem get_nth_b_total {a : Bool} (hk : k = n)
    (hind : 12 ≤ n → a = true ∨ σ.covers p.num n → 0 ≤ σ.indirect p.num ∧ σ.indirect p.num < g.sectors) :
    twp g (get_nth_b p k a) σ fun _ _ => True := by
  unfold get_nth_b
  simp only [twp_bind, twp_ite, twp_ret, Prog.pure_eq, twp_readInode]
  refine ⟨fun _ => trivial, fun _ => ⟨fun _ => trivial, fun hgo => ⟨fun hd => ?_, fun hd => ?_⟩⟩⟩ <;> simp only [NUM_DIRECT] at hd
  · rw [hk, directField_lt (by omega)]
    simp only [twp_ite, twp_bind, twp_readInode, twp_ret, modifyInode, twp_writeInode, implies_true, and_true]
    exact fun _ => get_next_free_bnum_total
  · simp only [twp_bind, twp_get_b, twp_readBlock, modifyBlock, twp_writeBlock, implies_true, and_true]
    refine ⟨hind (by omega) ?_, fun _ _ => get_next_free_bnum_total⟩
    cases a with
    | true => exact .inl rfl
    | false =>
      refine .inr (Decidable.byContradiction fun hc => hgo ⟨decide_eq_true ?_, rfl⟩)
      rw [View.covers, ← hk] at hc
      exact Int.not_lt.mp hc

/-! ## Freeing -/

theorem free_block_total : twp g (free_block b) σ fun _ _ => True := by simp [free_block]

theorem free_blocks_total {fuel : Nat} (hm : σ.Mapped g p.num) (hk : k = n) (hn : n ≤ σ.blocks p.num)
    (hf : σ.blocks p.num < n + fuel) (hind : σ.covers p.num 12 → 0 ≤ σ.indirect p.num ∧ σ.indirect p.num < g.sectors) :
    twp g (free_blocks p fuel k) σ fun _ _ => True := by
  induction fuel generalizing σ n k with
  | zero => omega
  | succ fuel ih =>
    unfold free_blocks
    have hfind : wp g (get_nth_b p k false) σ fun b σ' => b = σ.nthBlock p.num n ∧ σ' = σ :=
      get_nth_b_spec hk (fun h => by cases h) hm.indirect ⟨rfl, rfl⟩
    refine twp_then (get_nth_b_total hk fun h12 hc => hind (View.covers.lt (hc.resolve_left (by simp)) h12)) hfind ?_
    rintro b σ' ⟨rfl, rfl⟩
    simp only [twp_ite, twp_ret, Prog.pure_eq]
    refine ⟨fun _ => trivial, fun hb => ?_⟩
    have hc : σ'.covers p.num n := Decidable.byContradiction fun hc => hb (View.nthBlock_of_not_covers hc)
    have hlt := View.covers_iff.mp hc
    have hfree : wp g (free_block (σ'.nthBlock p.num n)) σ' fun _ τ => τ = σ'.release [σ'.nthBlock p.num n] := free_block_spec rfl
    refine twp_then free_block_total hfree ?_
    rintro _ τ rfl
    exact ih ⟨hm.index, hm.nonzero, hm.data, hm.indirect⟩ (by omega) hlt (show σ'.blocks p.num < n + 1 + fuel by omega) hind

theorem clear_file_total (hm : σ.Mapped g p.num) (hind : σ.covers p.num 12 → 0 ≤ σ.indirect p.num ∧ σ.indirect p.num < g.sectors) :
    twp g (clear_file p) σ fun _ _ => True := by
  have hmax := hm.blocks_le
  have hfree : twp g (free_blocks p loopFuel 0) σ fun _ _ => True :=
    free_blocks_total hm rfl (Nat.zero_le _) (by simp only [loopFuel]; omega) hind
  unfold clear_file
  simp only [twp_bind]
  exact twp_mono (fun _ _ _ => modifyInode_total) hfree

theorem zero_file_total (hi : g.isInode i) (hm : σ.Mapped g i) (hind : σ.covers i 12 → 0 ≤ σ.indirect i ∧ σ.indirect i < g.sectors) :
    twp g (zero_file i) σ fun _ _ => True := by
  unfold zero_file
  simp only [twp_bind, twp_get_i, twp_dirtyInode]
  exact ⟨hi, fun _ => clear_file_total hm hind⟩

/-! ## Reading -/

section

variable {buf : UserBuf} {size byte_offset left off num ret : Int} {fuel : Nat}

/-- A chunk of a read stays inside its block. -/
theorem read_loop_total {copied : List UInt8} (hm : σ.Mapped g p.num) (hr : InRange g σ) (hi : g.isInode p.num) (hk : k = n)
    (hfuel : 140 < n + fuel) (hlast : fuel = 0 → n ≤ 140) (hoff : 0 ≤ off) (hnum : off + num = 512) :
    twp g (read_loop p buf ret fuel k left off num copied) σ fun _ _ => True := by
  induction fuel generalizing n k left off num copied with
  | zero =>
    have := hlast rfl
    omega
  | succ fuel ih =>
    unfold read_loop
    simp only [twp_ite, twp_ret, Prog.pure_eq]
    refine ⟨fun _ => trivial, fun _ => ?_⟩
    have hfind : wp g (get_nth_b p k false) σ fun b σ' => b = σ.nthBlock p.num n ∧ σ' = σ :=
      get_nth_b_spec hk (fun h => by cases h) hm.indirect ⟨rfl, rfl⟩
    refine twp_then (get_nth_b_total hk fun _ _ => hr.indirect hi) hfind ?_
    rintro b σ' ⟨rfl, rfl⟩
    simp only [twp_ite, twp_ret, twp_bind, twp_get_b, twp_readBlock]
    refine ⟨fun _ => trivial, fun h0 => ?_⟩
    have hc : σ'.covers p.num n := Decidable.byContradiction fun hc => h0 (View.nthBlock_of_not_covers hc)
    have hn := hm.index n hc
    refine ⟨hm.nthBlock hc ▸ hr.pointer hm hi hc, fun id => ⟨fun hbad => ?_, fun _ => ⟨fun _ => trivial, fun _ => ?_⟩⟩⟩
    · simp only [BLOCKSIZE] at hbad
      split at hbad <;> omega
    · exact ih (n := n + 1) (by omega) (by omega) (by omega) (by omega) (by simp only [BLOCKSIZE]; omega)

theorem handle_read_total (hi : g.isInode i) (hm : σ.Mapped g i) (hr : InRange g σ) (h0 : 0 ≤ byte_offset) :
    twp g (handle_read i buf size byte_offset) σ fun _ _ => True := by
  have hdiv : Int.tdiv byte_offset BLOCKSIZE = byte_offset / 512 := Int.tdiv_eq_ediv_of_nonneg h0
  have hmod : Int.tmod byte_offset BLOCKSIZE = byte_offset % 512 := Int.tmod_eq_emod_of_nonneg h0
  unfold handle_read
  simp only [twp_bind, twp_ite, twp_ret, Prog.pure_eq, twp_get_i, twp_readInode, hdiv, hmod]
  refine ⟨fun _ => trivial, fun _ => ⟨hi, fun id => ⟨fun _ => trivial, fun _ => ?_⟩⟩⟩
  have hn : byte_offset / 512 = ((byte_offset / 512).toNat : Int) := by omega
  exact read_loop_total hm hr hi hn (by simp only [loopFuel]; omega) (by simp [loopFuel]) (by omega) (by simp only [BLOCKSIZE]; omega)

/-! ## Writing -/

theorem reach_inRange (hr : InRange g σ) (hw : WellFormed g σ) (hi : g.isInode i) (hn : n < 140) :
    0 ≤ (σ.reach i n).pointer i n ∧ (σ.reach i n).pointer i n < g.sectors := by
  unfold FS.reach
  split
  case isTrue hc => exact hr.pointer (hw.mapped i hi) hi hc
  case isFalse =>
    rw [FS.pointer_alloc_self hn, hw.wrap_next]
    exact hr.next

theorem write_loop_total (h : Writable g σ p.num buf size byte_offset n left off) (hr : InRange g σ) (hk : k = n)
    (hfuel : 141 < n + fuel) (hlast : fuel = 0 → n ≤ 141) :
    twp g (write_loop p buf size byte_offset fuel k left off) σ fun _ _ => True := by
  induction fuel generalizing σ n k left off with
  | zero =>
    have := hlast rfl
    omega
  | succ fuel ih =>
    unfold write_loop
    simp only [twp_ite, twp_ret, Prog.pure_eq]
    refine ⟨fun _ => trivial, fun hpos => ?_⟩
    have hpos : 0 < left := Int.not_le.mp hpos
    have hreach : wp g (get_nth_b p k true) σ fun b σ' => b = 0 ∨ n < 140 ∧ b = (σ.reach p.num n).pointer p.num n ∧
        σ' = σ.reach p.num n := by
      refine get_nth_b_reach_spec h.wellFormed hk h.inode (fun hn => (h.round hpos hn).indirect) (fun _ => .inl rfl) fun hn => ?_
      exact .inr ⟨hn, rfl, rfl⟩
    refine twp_then (get_nth_b_total hk fun _ _ => hr.indirect h.inode) hreach ?_
    rintro b σ' hb
    simp only [twp_ite, twp_ret, twp_bind, twp_get_b]
    refine ⟨fun _ => trivial, fun h0 => ?_⟩
    obtain ⟨hn, rfl, rfl⟩ := hb.resolve_left h0
    refine ⟨reach_inRange hr h.wellFormed h.inode hn, fun id => ⟨fun hoff => absurd h.offset.1 (by omega), fun _ => ?_⟩⟩
    cases hbytes : CopyFrom buf (size - left).toNat (get_num_copy_bytes left off).toNat with
    | none => simp only [twp_ret]
    | some bytes =>
      simp only [twp_bind, modifyBlock, modifyInode, twp_readBlock, twp_writeBlock, twp_dirtyBlock, twp_readInode, twp_writeInode]
      have hput := (h.round hpos hn).put h.wellFormed bytes h0
      exact ih (h.step hpos hn h0 hbytes) (hr.draws (hput.draws h.wellFormed h.inode)) (by omega) (by omega) (by omega)

theorem handle_write_total (hw : WellFormed g σ) (h : σ.WriteOk g i buf size byte_offset) (hr : InRange g σ) :
    twp g (handle_write i buf size byte_offset) σ fun _ _ => True := by
  have h0 := h.offset
  have hdiv : Int.tdiv byte_offset BLOCKSIZE = byte_offset / 512 := Int.tdiv_eq_ediv_of_nonneg h0
  have hmod : Int.tmod byte_offset BLOCKSIZE = byte_offset % 512 := Int.tmod_eq_emod_of_nonneg h0
  unfold handle_write
  simp only [twp_bind, twp_ite, twp_ret, Prog.pure_eq, twp_get_i, twp_readInode, twp_dirtyInode, hdiv, hmod, implies_true,
    and_self]
  refine ⟨h.inode, fun id => ⟨trivial, fun _ => ?_⟩⟩
  refine write_loop_total (h.writable hw) hr ?_ ?_ ?_
  · omega
  · simp only [loopFuel]
    omega
  · simp [loopFuel]

end

theorem handle_seek_total {offset whence cur_pos : Int} (hi : g.isInode i) :
    twp g (handle_seek i offset whence cur_pos) σ fun _ _ => True := by
  unfold handle_seek
  simp [hi]

end Yfs
