import Yfs.Boot.Proofs

/-! # The disk that `mkyfs` writes -/

namespace Yfs

variable {num_sectors num_inodes i b : Int} {fresh_dirty : Nat → Bool} {k : Nat}

theorem headerBlock_num_blocks (h0 : 0 ≤ num_sectors) (h : num_sectors < 2 ^ 31) :
    (headerBlock num_sectors num_inodes).num_blocks = num_sectors := by
  rw [Block.num_blocks, headerBlock, Block.setInode, Mem.loadInt_blit_ne _ _ _ _ _ (by omega),
    Mem.loadInt_storeInt_ne _ _ _ _ _ _ (by omega), Mem.loadInt_storeInt_same _ _ _ _ (by omega)]
  exact Mem.wrap_int _ (by omega) h

theorem headerBlock_num_inodes (h0 : 0 ≤ num_inodes) (h : num_inodes < 2 ^ 31) :
    (headerBlock num_sectors num_inodes).num_inodes = num_inodes := by
  rw [Block.num_inodes, headerBlock, Block.setInode, Mem.loadInt_blit_ne _ _ _ _ _ (by omega),
    Mem.loadInt_storeInt_same _ _ _ _ (by omega)]
  exact Mem.wrap_int _ (by omega) h

theorem headerBlock_size : ((headerBlock num_sectors num_inodes).inode 0).size = 0 := by
  rw [Inode.size, Inode.get, Block.inode, Mem.loadInt_sub _ _ _ _ _ (by decide), headerBlock, Block.setInode]
  rw [Mem.loadInt_blit_ne _ _ _ _ _ (by decide), Mem.loadInt_storeInt_ne _ _ _ _ _ _ (by decide),
    Mem.loadInt_storeInt_ne _ _ _ _ _ _ (by decide), Mem.loadInt_zero]

theorem headerBlock_root : (headerBlock num_sectors num_inodes).inode 1 = rootInode num_inodes :=
  Block.inode_setInode_same _ _ _ (by decide)

theorem headerBlock_free (h2 : 2 ≤ k) (h8 : k < 8) : (headerBlock num_sectors num_inodes).inode k = Mem.zero := by
  rw [headerBlock, Block.inode_setInode_ne _ _ _ _ (by omega) h8, Block.inode]
  refine Mem.ext_get fun j hj => ?_
  rw [Mem.get_sub _ _ _ _ hj, Mem.get_storeInt_out _ _ _ _ _ (by omega), Mem.get_storeInt_out _ _ _ _ _ (by omega),
    Mem.get_zero, Mem.get_zero]

/-- Every slot of the table but the root's is zero. -/
theorem mkyfs_inode (h1 : 1 ≤ i) (h : i < 8 * tableBlocks num_inodes) :
    (mkyfs num_sectors num_inodes fresh_dirty).view.inode i = if i = 1 then rootInode num_inodes else Mem.zero := by
  have hb := tableBlock_eq i (by omega)
  have hs := tableSlot_eq i (by omega)
  have hne : tableBlock i ≠ tableBlocks num_inodes + 1 := by omega
  rw [Disk.view, mkyfs]
  simp only [if_neg hne]
  by_cases h8 : i < 8
  · rw [if_pos (by omega)]
    by_cases hi : i = 1
    · subst hi
      exact headerBlock_root
    · rw [if_neg hi]
      exact headerBlock_free (by omega) (by omega)
  · rw [if_neg (by omega), if_neg (by omega)]
    exact Mem.sub_zero _ _

theorem rootInode_type : (rootInode num_inodes).type = INODE_DIRECTORY := by
  simp only [rootInode, Inode.type, Inode.get_set, reduceCtorEq, if_false, if_true]
  exact Mem.wrap_short _ (by decide) (by decide)

theorem rootInode_size : (rootInode num_inodes).size = 64 := by
  simp only [rootInode, Inode.size, Inode.get_set, reduceCtorEq, if_false, if_true]
  exact Mem.wrap_int _ (by decide) (by decide)

theorem rootInode_nlink : (rootInode num_inodes).nlink = 2 := by
  simp only [rootInode, Inode.nlink, Inode.get_set, reduceCtorEq, if_false, if_true]
  exact Mem.wrap_short _ (by decide) (by decide)

theorem rootInode_indirect : (rootInode num_inodes).indirect = 0 := by
  simp [rootInode, Inode.indirect]

theorem rootInode_direct (n : Fin 12) : (rootInode num_inodes).get (.direct n) =
    if n = 0 then Mem.wrap 4 (tableBlocks num_inodes + 1) else 0 := by
  simp [rootInode, eq_comm]
  rfl

theorem mkyfs_isFree (h1 : 1 ≤ i) (h : i < 8 * tableBlocks num_inodes) :
    (mkyfs num_sectors num_inodes fresh_dirty).view.isFree i = true ↔ i ≠ 1 := by
  rw [View.isFree, decide_eq_true_iff, View.type, mkyfs_inode h1 h]
  split
  case isTrue hi => simp [rootInode_type, hi, INODE_DIRECTORY, INODE_FREE]
  case isFalse hi => simp [hi, INODE_FREE]

theorem mkyfs_covers {n : Nat} (hpos : 1 ≤ num_inodes) :
    (mkyfs num_sectors num_inodes fresh_dirty).view.covers 1 n ↔ n = 0 := by
  have ht := tableBlocks_eq num_inodes
  rw [View.covers, View.size, mkyfs_inode (Int.le_refl 1) (by omega), if_pos rfl, rootInode_size]
  simp only [BLOCKSIZE]
  omega

theorem mkyfs_pointer (hpos : 1 ≤ num_inodes) (hfits : tableBlocks num_inodes + 1 < 2 ^ 31) :
    (mkyfs num_sectors num_inodes fresh_dirty).view.pointer 1 0 = tableBlocks num_inodes + 1 := by
  have ht := tableBlocks_eq num_inodes
  rw [View.pointer, dif_pos (by decide), mkyfs_inode (Int.le_refl 1) (by omega), if_pos rfl, rootInode_direct]
  exact Mem.wrap_int _ (by omega) hfits

theorem mkyfs_pointer_zero {n : Nat} (hpos : 1 ≤ num_inodes) (h0 : 0 < n) (h12 : n < 12) :
    (mkyfs num_sectors num_inodes fresh_dirty).view.pointer 1 n = 0 := by
  have ht := tableBlocks_eq num_inodes
  rw [View.pointer, dif_pos h12, mkyfs_inode (Int.le_refl 1) (by omega), if_pos rfl, rootInode_direct]
  exact if_neg fun h => by simp [Fin.ext_iff] at h; omega

theorem mkyfs_chain (hpos : 1 ≤ num_inodes) (hfits : tableBlocks num_inodes + 1 < 2 ^ 31) :
    (mkyfs num_sectors num_inodes fresh_dirty).view.chain 1 0 = [tableBlocks num_inodes + 1] := by
  have ht := tableBlocks_eq num_inodes
  have h0 : (mkyfs num_sectors num_inodes fresh_dirty).view.pointer 1 0 = _ := mkyfs_pointer hpos hfits
  rw [chain_cons (by decide) (by rw [h0]; omega), chain_zero (mkyfs_pointer_zero hpos (by decide) (by decide)), h0]

theorem scannedInodes_lt (h : i ∈ scannedInodes num_inodes) :
    1 ≤ i ∧ i < 8 * tableBlocks num_inodes := by
  have ht := tableBlocks_eq num_inodes
  rw [mem_scannedInodes] at h
  unfold scanEnd at h
  split at h <;> omega

/-- The scan of a fresh disk stays within it. -/
theorem mkyfs_bootOk (hpos : 1 ≤ num_inodes) (hfits : tableBlocks num_inodes + 1 < num_sectors) (hmax : num_sectors < 2 ^ 31) :
    BootOk (mkyfs num_sectors num_inodes fresh_dirty) num_inodes := by
  intro i hi hf
  obtain ⟨h1, h8⟩ := scannedInodes_lt hi
  have ht := tableBlocks_eq num_inodes
  obtain rfl : i = 1 := by
    by_contra hne
    rw [(mkyfs_isFree h1 h8).mpr hne] at hf
    cases hf
  have hc : (mkyfs num_sectors num_inodes fresh_dirty).view.chain 1 0 = _ := mkyfs_chain hpos (by omega)
  refine ⟨fun b hb => ?_, fun h12 => ?_⟩
  · rw [hc, List.mem_singleton] at hb
    have hs : (mkyfs num_sectors num_inodes fresh_dirty).num_sectors = num_sectors := rfl
    omega
  · rw [hc] at h12
    simp only [List.length_singleton] at h12
    omega

/-- The scan of a fresh disk marks the block of the root. -/
theorem mkyfs_marked (h2 : 2 ≤ num_inodes) (hfits : tableBlocks num_inodes + 1 < 2 ^ 31) :
    (mkyfs num_sectors num_inodes fresh_dirty).view.Marked (scannedInodes num_inodes) b ↔ b = tableBlocks num_inodes + 1 := by
  have ht := tableBlocks_eq num_inodes
  have hc : (mkyfs num_sectors num_inodes fresh_dirty).view.chain 1 0 = _ := mkyfs_chain (by omega) hfits
  constructor
  · rintro ⟨i, hi, hf, hb⟩
    obtain ⟨h1, h8⟩ := scannedInodes_lt hi
    obtain rfl : i = 1 := by
      by_contra hne
      rw [(mkyfs_isFree h1 h8).mpr hne] at hf
      cases hf
    rwa [hc, List.mem_singleton] at hb
  · rintro rfl
    refine ⟨1, mem_scannedInodes.mpr ⟨Int.le_refl 1, ?_⟩, ?_, ?_⟩
    · rw [scanEnd, if_neg (by omega)]
      omega
    · exact Bool.eq_false_iff.mpr fun hf => (mkyfs_isFree (Int.le_refl 1) (by omega)).mp hf rfl
    · rw [hc]
      exact List.mem_singleton_self _

/-- What `mkyfs` writes is an image. -/
theorem mkyfs_image (hpos : 1 ≤ num_inodes) (hn : num_inodes < 2 ^ 31) (hfits : tableBlocks num_inodes + 1 < num_sectors)
    (hmax : num_sectors < 2 ^ 31) :
    Image (mkyfs num_sectors num_inodes fresh_dirty) num_inodes := by
  have ht := tableBlocks_eq num_inodes
  have hroot : ∀ i, 1 ≤ i → i ≤ num_inodes → (mkyfs num_sectors num_inodes fresh_dirty).view.isFree i = false → i = 1 := by
    intro i h1 hi hf
    by_contra hne
    rw [(mkyfs_isFree h1 (by omega)).mpr hne] at hf
    cases hf
  refine ⟨headerBlock_num_inodes (by omega) hn, headerBlock_num_blocks (by omega) hmax, hpos, hfits, ?_, ?_, ?_⟩
  · intro i hi h
    rw [mkyfs_inode (by omega) h, if_neg (by omega)]
  · intro i h1 hi hf n hc
    obtain rfl := hroot i h1 hi hf
    obtain rfl := (mkyfs_covers hpos).mp hc
    have hs : (mkyfs num_sectors num_inodes fresh_dirty).num_sectors = num_sectors := rfl
    rw [mkyfs_pointer hpos (by omega), hs]
    omega
  · intro i h1 hi hf hc
    obtain rfl := hroot i h1 hi hf
    exact absurd ((mkyfs_covers hpos).mp hc) (by decide)

end Yfs
