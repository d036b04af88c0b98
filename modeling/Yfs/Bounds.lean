import Yfs.Ownership
import Yfs.Total.Requests

/-! # The numbers that the server looks up -/

namespace Yfs

/-- The number of an inode, whose slot lies within a block of the disk. -/
def InodeBounded (num_blocks num_inodes i : Int) : Prop :=
  (0 ≤ i ∧ i ≤ num_inodes) ∧ (0 ≤ tableBlock i ∧ tableBlock i < num_blocks) ∧
    0 ≤ tableSlot i * INODESIZE ∧ tableSlot i * INODESIZE ≤ BLOCKSIZE - INODESIZE

instance (num_blocks num_inodes i : Int) : Decidable (InodeBounded num_blocks num_inodes i) :=
  inferInstanceAs (Decidable (_ ∧ _))

/-- The arguments of `get_b` and `get_i`, and of what `get_i` calls to make room. -/
def Cmd.Bounded (num_blocks num_inodes : Int) (sv : Server) : Cmd → Prop
  | .get_b b => 0 ≤ b ∧ b < num_blocks
  | .get_i i => InodeBounded num_blocks num_inodes i ∧
    ∀ item ∈ sv.store.cache_i_queue, InodeBounded num_blocks num_inodes item.c_item_num
  | _ => True

instance (num_blocks num_inodes : Int) (sv : Server) : (c : Cmd) → Decidable (c.Bounded num_blocks num_inodes sv)
  | .get_b _ => inferInstanceAs (Decidable (_ ∧ _))
  | .get_i _ => inferInstanceAs (Decidable (_ ∧ _))
  | .readBlock _ | .writeBlock _ _ | .readInode _ | .writeInode _ _ | .dirtyBlock _ | .dirtyInode _ | .globals
  | .setGlobals _ => .isTrue trivial

variable {g : Geometry} {sv sv₀ : Server} {req : Request} {reqs : List Request} {i : Int}

theorem Geometry.isInode.bounded (h : g.isInode i) : InodeBounded g.sectors (g.inodes - 1) i := by
  obtain ⟨h0, h1⟩ := h
  have hfit := g.inodes_fit
  have htable := g.table_fits
  unfold InodeBounded
  rw [tableBlock_eq i h0, tableSlot_eq i h0, INODESIZE, BLOCKSIZE]
  omega

theorem Cmd.InRange.bounded {c : Cmd} (h : c.InRange g) (hc : sv.CachesOk g) : c.Bounded g.sectors (g.inodes - 1) sv := by
  cases c with
  | get_b b => exact h
  | get_i i => exact ⟨Geometry.isInode.bounded h, fun item hm => (hc.inodes.range item hm).bounded⟩
  | _ => trivial

/-! ## Runs -/

/-- The server is sound, and every block that the state names is on the disk. -/
structure OnDisk (g : Geometry) (sv : Server) : Prop extends Sound g sv where
  inRange : InRange g sv.fs

theorem OnDisk.step {resp : Response} {sv' : Server} (h : OnDisk g sv) (hshort : 8 * g.table ≤ 2 ^ 15)
    (hsafe : req.Safe g sv.fs) (hs : serve sv req = some (resp, sv')) : OnDisk g sv' := by
  obtain ⟨hsound, σ', heff, hw, hagree⟩ := h.toSound.step hshort hsafe hs
  exact ⟨hsound, hagree.inRange hw (h.inRange.draws (heff.draws h.wellFormed g.isInode_root hshort hsafe))⟩

theorem OnDisk.after (h : OnDisk g sv₀) (hshort : 8 * g.table ≤ 2 ^ 15)
    (hmeets : sv₀.meets (fun σ req => req.Safe g σ) reqs) (hrun : serves sv₀ reqs = some sv) : OnDisk g sv :=
  serves_induction h hmeets hrun fun _ _ _ _ h hp hs => h.step hshort hp hs

/-- **Numbers stay in range.** After any run of safe requests, a safe request that finds the parent directory it needs looks
up no number outside the inodes and the disk. -/
theorem numbers_in_range (hshort : 8 * g.table ≤ 2 ^ 15) (hstart : OnDisk g sv₀)
    (hmeets : sv₀.meets (fun σ req => req.Safe g σ) reqs) (hrun : serves sv₀ reqs = some sv) (hsafe : req.Safe g sv.fs)
    (hdef : req.Defined sv.fs) : Every (Cmd.Bounded g.sectors (g.inodes - 1)) req.handler sv := by
  have h := hstart.after hshort hmeets hrun
  have hall := every_inRange h.caches.rel (handler_total h.wellFormed h.inRange hsafe hdef)
    (handler_spec h.wellFormed g.isInode_root hsafe)
  exact hall.mono fun sv c hc => hc.1.bounded hc.2

/-! ## The smallest start -/

theorem Fresh.inRange {num_inodes : Int} {σ : FS} (h : Fresh num_inodes σ) (hpos : 1 ≤ num_inodes)
    (hfits : tableBlocks num_inodes + 1 < 2 ^ 31) (hg : g.table = tableBlocks num_inodes)
    (hroot : tableBlocks num_inodes + 1 < g.sectors) (hheader : σ.indirect 0 = 0) (hfree : ∀ b ∈ σ.b_head, b < g.sectors) :
    InRange g σ := by
  have ht := tableBlocks_eq num_inodes
  rintro b (⟨key, hk⟩ | ⟨i, hi, rfl⟩ | hb)
  · have := (h.ledger_eq hpos hfits hg hk).2
    omega
  · have hzero : σ.indirect i = 0 := by
      by_cases h0 : i = 0
      · rw [h0, hheader]
      have h1 := hi.1
      have h8 := hi.2
      have hfit := g.inodes_fit
      rw [View.indirect, h.inode i (by omega) (by omega)]
      split
      · exact rootInode_indirect
      · exact Inode.get_zero _
    rw [hzero]
    have := g.table_fits
    have := g.table_pos
    omega
  · exact ⟨by have := (h.b_head b hb).1; omega, hfree b hb⟩

theorem headerBlock_indirect {num_sectors num_inodes : Int} : ((headerBlock num_sectors num_inodes).inode 0).indirect = 0 := by
  rw [Inode.indirect, Inode.get, Block.inode, Mem.loadInt_sub _ _ _ _ _ (by decide), headerBlock, Block.setInode]
  rw [Mem.loadInt_blit_ne _ _ _ _ _ (by decide), Mem.loadInt_storeInt_ne _ _ _ _ _ _ (by decide),
    Mem.loadInt_storeInt_ne _ _ _ _ _ _ (by decide), Mem.loadInt_zero]

theorem DiskFormat.onDisk {f : DiskFormat} {fresh_dirty : Nat → Bool} (hboot : boot (f.disk fresh_dirty) = some sv) : OnDisk f.geometry sv := by
  have h2 := f.two
  have hfits := f.fits
  have hmax := f.max
  have h := DiskFormat.started hboot
  have hb := (f.image fresh_dirty).booted hboot
  have hinode : sv.fs.inode 0 = (headerBlock f.num_sectors f.num_inodes).inode 0 := hb.mirrors.view_i 0 f.geometry.isInode_zero
  refine ⟨h.sound, h.fresh.inRange (by omega) (by omega) rfl f.fits ?_ fun b hb => ((h.b_head b).mp hb).1.2⟩
  rw [View.indirect, hinode]
  exact headerBlock_indirect

theorem smallStart_onDisk : OnDisk smallDisk.geometry smallStart := by
  refine ⟨smallStart_sound.1, smallStart_sound.2.inRange (by decide) (by decide) rfl (by decide) (by decide +kernel) fun b hb => ?_⟩
  have := mem_ints.mp hb
  have hs : smallDisk.geometry.sectors = 100 := rfl
  omega

theorem numbers_in_range_create : ∃ sv, serves smallStart [.create (some [SLASH, 97]) 1] = some sv ∧
    Every (Cmd.Bounded 100 15) (Request.unlink (some [SLASH, 97]) 1).handler sv := by
  obtain ⟨sv, hrun, hdef⟩ := Option.map_eq_some_iff.mp (show (serves smallStart [.create (some [SLASH, 97]) 1]).map
    (fun sv => decide ((sv.fs.superDir [SLASH, 97] 1).1 ≠ ERROR)) = some true by decide +kernel)
  have hmeets : smallStart.meets (fun σ req => req.Safe smallDisk.geometry σ) [.create (some [SLASH, 97]) 1] :=
    ⟨smallStart_sound.2.safe_create (by decide), fun _ _ _ => trivial⟩
  exact ⟨sv, hrun, numbers_in_range (by decide) smallStart_onDisk hmeets hrun (Geometry.isInode_root _) fun _ => of_decide_eq_true hdef⟩

/-- `unlink` of a path whose directory is not there looks up inode -1. -/
theorem unlink_looks_up_negative : OnDisk smallDisk.geometry smallStart ∧
    ¬ Every (Cmd.Bounded 100 15) (Request.unlink (some [SLASH, 97, SLASH, 98]) 1).handler smallStart :=
  ⟨smallStart_onDisk, by decide +kernel⟩

end Yfs
