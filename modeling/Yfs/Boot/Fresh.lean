import Yfs.Boot.Format
import Yfs.Run

/-! # A server that has just booted from a fresh disk -/

namespace Yfs

open Ledger

/-- Free lists that leave the root and its block out. -/
structure FreshLists (num_inodes : Int) (v : Globals) : Prop where
  b_nodup : v.b_head.Nodup
  b_head : ∀ b ∈ v.b_head, 0 < b ∧ b < 2 ^ 31 ∧ b ≠ tableBlocks num_inodes + 1
  i_nodup : v.i_head.Nodup
  i_head : ∀ i ∈ v.i_head, 2 ≤ i ∧ i < 8 * tableBlocks num_inodes

/-- The root alone. -/
structure Fresh (num_inodes : Int) (σ : FS) : Prop extends FreshLists num_inodes σ.toGlobals where
  inode : ∀ i, 1 ≤ i → i < 8 * tableBlocks num_inodes → σ.inode i = if i = 1 then rootInode num_inodes else Mem.zero
  header : σ.size 0 = 0
  root : σ.block (tableBlocks num_inodes + 1) = rootBlock

namespace Fresh

variable {num_inodes i : Int} {n k : Nat} {σ : FS} {g : Geometry} (h : Fresh num_inodes σ)
  (hpos : 1 ≤ num_inodes) (hfits : tableBlocks num_inodes + 1 < 2 ^ 31) (hg : g.table = tableBlocks num_inodes)
include h hpos

theorem size_root : σ.size 1 = 64 := by
  have ht := tableBlocks_eq num_inodes
  rw [View.size, h.inode 1 (Int.le_refl 1) (by omega), if_pos rfl, rootInode_size]

theorem slots_root : σ.slots 1 = 2 := by rw [View.slots, h.size_root hpos]; rfl

theorem type_root : σ.type 1 = INODE_DIRECTORY := by
  have ht := tableBlocks_eq num_inodes
  rw [View.type, h.inode 1 (Int.le_refl 1) (by omega), if_pos rfl, rootInode_type]

include hfits in
theorem pointer_root : σ.pointer 1 0 = tableBlocks num_inodes + 1 := by
  have ht := tableBlocks_eq num_inodes
  rw [View.pointer, dif_pos (by decide), h.inode 1 (Int.le_refl 1) (by omega), if_pos rfl, rootInode_direct]
  exact Mem.wrap_int _ (by omega) hfits

include hg in
theorem covers_iff (hi : g.isInode i) : σ.covers i n ↔ i = 1 ∧ n = 0 := by
  have hsize := h.size_root hpos
  obtain ⟨h0, h8⟩ := hi
  have hfit := g.inodes_fit
  by_cases h1 : i = 1
  · subst h1
    rw [View.covers, hsize, BLOCKSIZE]
    omega
  · refine iff_of_false (fun hc => ?_) fun hc => h1 hc.1
    have hs : σ.size i = 0 := by
      by_cases hz : i = 0
      · rw [hz, h.header]
      · rw [View.size, h.inode i (by omega) (by omega), if_neg h1, Inode.size, Inode.get_zero]
    rw [View.covers, hs, BLOCKSIZE] at hc
    omega

include hfits in
theorem slotInum_root (hk : k < 2) : σ.slotInum 1 k = ROOTINODE := by
  rw [View.slotInum, View.slotBlock, show k / 16 = 0 by omega, h.pointer_root hpos hfits, h.root]
  obtain rfl | rfl : k = 0 ∨ k = 1 := by omega
  · decide +kernel
  · decide +kernel

include hfits in
theorem slotName_root (hk : k < 2) : σ.slotName 1 k = rootBlock.name (slotOffset k) := by
  rw [View.slotName, View.slotBlock, show k / 16 = 0 by omega, h.pointer_root hpos hfits, h.root]

include hg in
/-- The only entries are the root's. -/
theorem slot_root (hi : g.isInode i) (hk : k < σ.slots i) : i = 1 ∧ k < 2 := by
  obtain ⟨rfl, _⟩ := (h.covers_iff hpos hg hi).mp (covers_of_slot hk)
  exact ⟨rfl, by rwa [h.slots_root hpos] at hk⟩

include hfits hg

theorem ledger_eq {key : Int × Option Nat} {b : Int} (hk : σ.ledger g key = some b) :
    key = (1, some 0) ∧ b = tableBlocks num_inodes + 1 := by
  obtain ⟨i, o⟩ := key
  cases o with
  | none =>
    rw [View.ledger] at hk
    split at hk
    case isTrue hc => exact absurd ((h.covers_iff hpos hg hc.1).mp hc.2).2 (by decide)
    case isFalse => cases hk
  | some n =>
    rw [View.ledger] at hk
    split at hk
    case isTrue hc =>
      obtain ⟨rfl, rfl⟩ := (h.covers_iff hpos hg hc.1).mp hc.2
      rw [View.nthBlock_of_lt hc.2 (by decide), h.pointer_root hpos hfits] at hk
      exact ⟨rfl, (Option.some.inj hk).symm⟩
    case isFalse => cases hk

theorem wellFormed (hslots : g.inodes = 8 * g.table) : WellFormed g σ := by
  have ht := tableBlocks_eq num_inodes
  have hptr := h.pointer_root hpos hfits
  refine ⟨⟨h.b_nodup, fun key b hk hb => ?_, fun key key' b hk hk' => ?_⟩, fun i hi => ⟨fun n hc => ?_, fun n hc => ?_, fun n hc => ?_,
    fun hc => ?_⟩, fun b hb => ?_, fun d hd hdir => ?_, fun d k hd hdir hk => ?_, fun i hi => ?_⟩
  · exact (h.b_head b hb).2.2 (h.ledger_eq hpos hfits hg hk).2
  · rw [(h.ledger_eq hpos hfits hg hk).1, (h.ledger_eq hpos hfits hg hk').1]
  · obtain ⟨rfl, rfl⟩ := (h.covers_iff hpos hg hi).mp hc
    decide
  · obtain ⟨rfl, rfl⟩ := (h.covers_iff hpos hg hi).mp hc
    rw [hptr]
    omega
  · obtain ⟨rfl, rfl⟩ := (h.covers_iff hpos hg hi).mp hc
    rw [hptr, Geometry.isTable, hg]
    omega
  · exact absurd ((h.covers_iff hpos hg hi).mp hc).2 (by decide)
  · have := h.b_head b hb
    omega
  · by_cases h1 : d = 1
    · subst h1
      rw [h.size_root hpos]
      decide
    · have hs : σ.size d = 0 := by
        by_cases hz : d = 0
        · rw [hz, h.header]
        · rw [View.size, h.inode d (by have := hd.1; omega) (by have := hd.2; have := g.inodes_fit; omega), if_neg h1, Inode.size, Inode.get_zero]
      omega
  · obtain ⟨rfl, hlt⟩ := h.slot_root hpos hg hd hk
    rw [h.slotInum_root hpos hfits hlt]
    exact g.isInode_root
  · have := h.i_head i hi
    exact ⟨by omega, by omega⟩

omit hfits hg in
/-- The root has room for two names. -/
theorem safe_create : Request.Safe g σ (.create (some [SLASH, 97]) 1) := by
  refine ⟨g.isInode_root, fun d name hsup _ _ h512 => ?_⟩
  rw [show σ.superDir [SLASH, 97] 1 = (1, [97]) from rfl] at hsup
  obtain ⟨rfl, rfl⟩ := Prod.mk.inj hsup
  exact absurd h512 (by rw [h.size_root hpos]; decide)

end Fresh

theorem Mirrors.fresh {num_inodes num_sectors : Int} {fresh_dirty : Nat → Bool} {sv : Server} {g : Geometry}
    (hm : Mirrors g (mkyfs num_sectors num_inodes fresh_dirty) sv.store) (hpos : 1 ≤ num_inodes)
    (hg : g.table = tableBlocks num_inodes) (hl : FreshLists num_inodes sv.toGlobals) : Fresh num_inodes sv.fs := by
  have ht := tableBlocks_eq num_inodes
  have hslot : ∀ i, 0 ≤ i → i < 8 * tableBlocks num_inodes →
      sv.fs.inode i = (mkyfs num_sectors num_inodes fresh_dirty).view.inode i :=
    fun i h0 h8 => hm.view_i i ⟨h0, by rw [hm.slots, hg]; exact h8⟩
  refine ⟨hl, fun i h1 h8 => ?_, ?_, ?_⟩
  · rw [hslot i (by omega) h8]
    exact mkyfs_inode h1 h8
  · rw [View.size, hslot 0 (by omega) (by omega)]
    exact headerBlock_size
  · exact (hm.view_b _).trans ((if_neg (by omega)).trans (if_pos rfl))

/-! ## Booting -/

/-- The numbers that `mkyfs` is called with: two inodes at least, as many as a directory entry can name, and room for
the table and the block of the root. -/
structure DiskFormat where
  num_sectors : Int
  num_inodes : Int
  two : 2 ≤ num_inodes
  short : 8 * tableBlocks num_inodes ≤ 2 ^ 15
  fits : tableBlocks num_inodes + 1 < num_sectors
  max : num_sectors < 2 ^ 31

namespace DiskFormat

variable (f : DiskFormat)

def disk (fresh_dirty : Nat → Bool) : Disk := mkyfs f.num_sectors f.num_inodes fresh_dirty

theorem image (fresh_dirty : Nat → Bool) : Image (f.disk fresh_dirty) f.num_inodes := by
  have h2 := f.two
  have hs := f.short
  have ht := tableBlocks_eq f.num_inodes
  exact mkyfs_image (by omega) (by omega) f.fits f.max

/-- Block 0, the table, and the rest of the disk. -/
def geometry : Geometry := (f.image fun _ => false).geometry

theorem table : f.geometry.table = tableBlocks f.num_inodes := rfl

/-- What the server holds after it has booted. -/
structure Started (sv : Server) : Prop where
  caches : sv.CachesOk f.geometry
  fresh : Fresh f.num_inodes sv.fs
  clean_i : ∀ i, ¬ sv.fs.unmarked_i i
  clean_b : ∀ b, ¬ sv.fs.unmarked_b b
  i_head : ∀ i, i ∈ sv.i_head ↔ 2 ≤ i ∧ i < scanEnd f.num_inodes
  b_head : ∀ b, b ∈ sv.b_head ↔ (0 < b ∧ b < f.num_sectors) ∧ b ≠ tableBlocks f.num_inodes + 1

variable {f} {fresh_dirty : Nat → Bool} {sv : Server}

theorem boots : ∃ sv, boot (f.disk fresh_dirty) = some sv := by
  have h2 := f.two
  obtain ⟨sv, hsv, _⟩ := (boot_spec (f.image fresh_dirty)).1 (mkyfs_bootOk (by omega) f.fits f.max)
  exact ⟨sv, hsv⟩

theorem started (hboot : boot (f.disk fresh_dirty) = some sv) : f.Started sv := by
  have h2 := f.two
  have hfits := f.fits
  have hmax := f.max
  have ht := tableBlocks_eq f.num_inodes
  obtain ⟨sv', hsv, hb⟩ := (boot_spec (f.image fresh_dirty)).1 (mkyfs_bootOk (by omega) f.fits f.max)
  obtain rfl := Option.some.inj (hboot.symm.trans hsv)
  have hm := hb.mirrors
  have hlast : scanEnd f.num_inodes ≤ 8 * tableBlocks f.num_inodes := by
    unfold scanEnd
    split <;> omega
  have hi_head : ∀ i, i ∈ sv.i_head ↔ 2 ≤ i ∧ i < scanEnd f.num_inodes := by
    intro i
    rw [hb.i_head, List.mem_reverse, List.mem_filter, mem_scannedInodes]
    constructor
    · rintro ⟨⟨h1, h8⟩, hf⟩
      have := (mkyfs_isFree h1 (by omega)).mp hf
      omega
    · rintro ⟨h1, h8⟩
      exact ⟨⟨by omega, h8⟩, (mkyfs_isFree (by omega) (by omega)).mpr (by omega)⟩
  have hb_head : ∀ b, b ∈ sv.b_head ↔ (0 < b ∧ b < f.num_sectors) ∧ b ≠ tableBlocks f.num_inodes + 1 := by
    intro b
    rw [hb.b_head]
    exact and_congr_right fun _ => not_congr (mkyfs_marked h2 (by omega))
  refine ⟨⟨hm.blocks, hm.inodes, hm.sectors⟩, hm.fresh (by omega) rfl ⟨hb.nodup, fun b hbm => ?_, hb.nodup_i_head, fun i hi => ?_⟩,
    ?_, ?_, hi_head, hb_head⟩
  · have := (hb_head b).mp hbm
    omega
  · have := (hi_head i).mp hi
    omega
  · rintro i ⟨item, hmem, rfl, hne, _⟩
    refine hne ?_
    rw [← logicalInode_cached hm.inodes hmem, hm.view_i _ (hm.inodes.range item hmem), hm.slot]
  · rintro b ⟨item, hmem, rfl, hne, hd⟩
    rcases hm.marked item hmem hne with h | h
    · rw [hd] at h
      cases h
    · exact h

theorem Started.sound (h : f.Started sv) : Sound f.geometry sv := by
  have h2 := f.two
  have hfits := f.fits
  have hmax := f.max
  exact ⟨h.caches, h.fresh.wellFormed (by omega) (by omega) rfl rfl⟩

/-- A server that has empty caches over the disk, and free lists of its own. -/
theorem sound_of_lists (hl : FreshLists f.num_inodes sv.toGlobals) (hs : sv.store = (f.disk fresh_dirty).server.store) :
    Sound f.geometry sv ∧ Fresh f.num_inodes sv.fs := by
  have h2 := f.two
  have hfits := f.fits
  have hmax := f.max
  have hm : Mirrors f.geometry (f.disk fresh_dirty) sv.store := hs ▸ mirrors_start rfl
  have hfresh := hm.fresh (by omega) rfl hl
  exact ⟨⟨⟨hm.blocks, hm.inodes, hm.sectors⟩, hfresh.wellFormed (by omega) (by omega) rfl rfl⟩, hfresh⟩

end DiskFormat

/-- A disk of 100 blocks. Its table is full. -/
def smallDisk : DiskFormat := ⟨100, 15, by decide, by decide, by decide, by decide⟩

/-- A buffer full of `c`, all of it mapped. -/
def filledBuf (c : UInt8) : UserBuf := { null := false, bytes := fun _ => c, mapped := fun _ _ => true }

/-- The server that has booted from `d` and answered `reqs`. -/
def Disk.serves (d : Disk) (reqs : List Request) : Option Server := (boot d).bind fun sv => Yfs.serves sv reqs

theorem Disk.serves_eq {d : Disk} {reqs : List Request} {sv : Server} (h : d.serves reqs = some sv) :
    ∃ sv₀, boot d = some sv₀ ∧ Yfs.serves sv₀ reqs = some sv := Option.bind_eq_some_iff.mp h

end Yfs
