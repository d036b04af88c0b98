import Yfs.Unlink

/-! # The loops that free a file's blocks -/

namespace Yfs

variable {g : Geometry} {σ τ τ' : FS} {sv : Server} {d i cur : Int} {k : Nat} {path name : CStr}

/-- The blocks of `i` are free, the last one first, and it has none. -/
structure Released (σ τ : FS) (i : Int) : Prop where
  b_head : τ.b_head = (σ.fileBlocks i).reverse ++ σ.b_head
  count : τ.free_b_count = σ.free_b_count + (σ.blocks i : Int)
  size : τ.size i = 0

theorem Released.agrees (h : Released σ τ i) (hi : g.isInode i) (ha : τ.Agrees g τ') : Released σ τ' i :=
  ⟨(congrArg Globals.b_head ha.globals).trans h.b_head, (congrArg Globals.free_b_count ha.globals).trans h.count, by
    rw [View.size, ha.inode i hi]
    exact h.size⟩

theorem truncate_released : Released σ (σ.truncate i) i := by
  refine ⟨rfl, ?_, ?_⟩
  · simp [FS.truncate, FS.release, View.fileBlocks]
  · simp [FS.truncate, FS.release, Field.width, Mem.wrap_int]

theorem fileBlocks_addLinks {n : Int} : (σ.addLinks i n).fileBlocks i = σ.fileBlocks i ∧ (σ.addLinks i n).blocks i = σ.blocks i := by
  have hsize : (σ.addLinks i n).size i = σ.size i := by simp [FS.addLinks]
  have hblocks : (σ.addLinks i n).blocks i = σ.blocks i := by rw [View.blocks, View.blocks, hsize]
  have hptr : (σ.addLinks i n).pointer i = σ.pointer i := funext fun m => View.pointer_setInode_self (by simp) (by simp)
  exact ⟨by rw [View.fileBlocks, View.fileBlocks, hblocks, hptr], hblocks⟩

/-- The last link of `i` goes. -/
theorem removeEntry_released (hi : σ.slotInum d k = i) (hlinks : σ.nlink i = 1) : Released σ (σ.removeEntry d k) i := by
  obtain ⟨hlist, hblocks⟩ := fileBlocks_addLinks (σ := σ) (i := i) (n := -1)
  have hzero : (σ.addLinks i (-1)).nlink i = 0 := by
    simp [FS.addLinks, hlinks, Field.width, Mem.wrap_short]
  have h : Released (σ.addLinks i (-1)) ((σ.addLinks i (-1)).truncate i) i := truncate_released
  unfold FS.removeEntry
  dsimp only
  rw [hi, if_pos hzero]
  refine ⟨?_, ?_, h.size⟩
  · rw [← hlist]
    exact h.b_head
  · rw [← hblocks]
    exact h.count

section

variable (hc : sv.CachesOk g) (hi : g.isInode i) (hm : sv.fs.Mapped g i)
  (hind : sv.fs.covers i 12 → 0 ≤ sv.fs.indirect i ∧ sv.fs.indirect i < g.sectors)
include hc hi hm hind

theorem zero_file_releases : ∃ sv', run (zero_file i) sv = some ((), sv') ∧ Released sv.fs sv'.fs i := by
  have hspec : wp g (zero_file i) sv.fs fun _ τ => Released sv.fs τ i :=
    zero_file_spec hi hm ⟨truncate_released.b_head, truncate_released.count, truncate_released.size⟩
  obtain ⟨_, sv', σ', hrun, hdone, hrel⟩ := run_total hc.rel (zero_file_steady hc.tidy).not_stale (zero_file_total hi hm hind) hspec
  exact ⟨sv', hrun, hdone.agrees hi hrel.agrees⟩

theorem clear_file_releases : ∃ sv', run (get_i i >>= clear_file) sv = some ((), sv') ∧ Released sv.fs sv'.fs i := by
  have hsteady : Steady (get_i i >>= clear_file) sv fun _ _ => True := Steady.bind_iff.mpr
    (get_i_steady hc.tidy fun _ _ _ _ _ hmoved hlive => (clear_file_steady hmoved.tidy hlive).mono fun _ _ _ => trivial)
  have htotal : twp g (get_i i >>= clear_file) sv.fs fun _ _ => True := by
    simp only [twp_bind, twp_get_i]
    exact ⟨hi, fun _ => clear_file_total hm hind⟩
  have hspec : wp g (get_i i >>= clear_file) sv.fs fun _ τ => Released sv.fs τ i := by
    simp only [wp_bind, wp_get_i]
    exact fun _ => ⟨hi, fun _ => clear_file_spec hm truncate_released⟩
  obtain ⟨_, sv', σ', hrun, hdone, hrel⟩ := run_total hc.rel hsteady.not_stale htotal hspec
  exact ⟨sv', hrun, hdone.agrees hi hrel.agrees⟩

/-- **The freeing loops release the file's blocks.** In every inode whose pointers are in order, `zero_file`, `clear_file` and, for the
last link, `handle_unlink` return, and free exactly the blocks below the file's size. -/
theorem freeing_loops_release : (∃ sv', run (zero_file i) sv = some ((), sv') ∧ Released sv.fs sv'.fs i) ∧
    (∃ sv', run (get_i i >>= clear_file) sv = some ((), sv') ∧ Released sv.fs sv'.fs i) ∧
    (OnDisk g sv → g.isInode cur → 0 < cur → sv.fs.superDir path cur = (d, name) → d ≠ ERROR → sv.fs.isDir d →
      sv.fs.findSlot d name = some k → sv.fs.slotInum d k = i → sv.fs.nlink i = 1 →
        ∃ resp sv', serve sv (.unlink (some path) cur) = some (resp, sv') ∧ resp.ret = 0 ∧ Released sv.fs sv'.fs i) := by
  refine ⟨zero_file_releases hc hi hm hind, clear_file_releases hc hi hm hind, fun h hcur hpos hsup hne hdir hk hinum hlinks => ?_⟩
  obtain ⟨resp, sv', σ', hserve, hrel, _, hdone⟩ := unlink_serves h hcur hpos hsup hne
  obtain ⟨hret, rfl⟩ := hdone k hdir hk
  exact ⟨resp, sv', hserve, hret, (removeEntry_released hinum hlinks).agrees hi hrel.agrees⟩

end

/-- A file of one byte in the root. -/
theorem freeing_loops_release_byte : ∃ sv, serves smallStart [.create (some [SLASH, 97]) 1, .write 15 (filledBuf 1) 1 0] = some sv ∧
    (∃ sv', run (zero_file 15) sv = some ((), sv') ∧ Released sv.fs sv'.fs 15) ∧
    (∃ sv', run (get_i 15 >>= clear_file) sv = some ((), sv') ∧ Released sv.fs sv'.fs 15) ∧
    ∃ resp sv', serve sv (.unlink (some [SLASH, 97]) 1) = some (resp, sv') ∧ resp.ret = 0 ∧ Released sv.fs sv'.fs 15 := by
  obtain ⟨⟨resp₁, sv₁⟩, hs₁, h⟩ := Option.bind_eq_some_iff.mp (show ((serve smallStart (.create (some [SLASH, 97]) 1)).bind fun r =>
    (serve r.2 (.write 15 (filledBuf 1) 1 0)).map fun r' => decide ((¬ r.2.fs.isDir 15 ∧ r.2.b_head.take 1 = [4] ∧ r.2.fs.blocks 15 = 0) ∧
      r'.2.fs.superDir [SLASH, 97] 1 = (1, [97]) ∧ r'.2.fs.isDir 1 ∧ r'.2.fs.findSlot 1 [97] = some 2 ∧ r'.2.fs.slotInum 1 2 = 15 ∧
        r'.2.fs.nlink 15 = 1)) = some true by decide +kernel)
  obtain ⟨⟨resp, sv⟩, hs, h⟩ := Option.map_eq_some_iff.mp h
  obtain ⟨⟨hfile, hfree, hblocks⟩, hsup, hdir, hslot, hinum, hlinks⟩ := of_decide_eq_true h
  have hsafe : sv₁.fs.WriteOk smallDisk.geometry 15 (filledBuf 1) 1 0 := by
    refine ⟨by decide, hfile, by decide, fun _ => by omega, fun b hb => ?_, fun _ hr => absurd hr.far (by decide)⟩
    rw [newBlocks, hblocks, show sv₁.fs.b_head = sv₁.b_head from rfl,
      show min 140 ((0 + 1 + 511 : Int) / 512).toNat - 0 = 1 from rfl, hfree, List.mem_singleton] at hb
    subst hb
    decide
  have hdisk : OnDisk smallDisk.geometry sv :=
    (smallStart_onDisk.step (by decide) (smallStart_sound.2.safe_create (by decide)) hs₁).step
      (by decide) (show Request.Safe _ _ (.write 15 (filledBuf 1) 1 0) from hsafe) hs
  have hi : smallDisk.geometry.isInode 15 := by decide
  have hmapped := hdisk.wellFormed.mapped 15 hi
  obtain ⟨hzero, hclear, hunlink⟩ := freeing_loops_release hdisk.toSound.caches hi hmapped fun _ => hdisk.inRange.indirect hi
  exact ⟨sv, by simp only [serves, hs₁, hs], hzero, hclear, hunlink hdisk (by decide) (by decide) hsup (by decide) hdir hslot hinum hlinks⟩

end Yfs
