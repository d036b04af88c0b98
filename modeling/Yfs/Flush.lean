import Yfs.Marks
import Yfs.Answers

/-! # What a flush leaves on the disk -/

namespace Yfs

open Cache Queue

variable {g : Geometry} {sv : Server} {s : Store}

/-- The disk alone. -/
def Store.uncached (s : Store) : Store := { s with cache_b_queue := [], cache_i_queue := [] }

theorem logicalBlock_uncached {b : Int} : logicalBlock s.uncached b = s.sectors b := rfl

theorem logicalInode_uncached {i : Int} : logicalInode s.uncached i = (s.sectors (tableBlock i)).inode (tableSlot i).toNat := rfl

/-- The disk holds what the caches of `s` show, and `s'` needs no caches. -/
structure Flushed (g : Geometry) (s s' : Store) : Prop where
  sectors : ∀ b, ¬ g.isTable b → s'.sectors b = logicalBlock s b
  slots : ∀ i, g.isInode i → (s'.sectors (tableBlock i)).inode (tableSlot i).toNat = logicalInode s i
  blocks : ∀ b, logicalBlock s'.uncached b = logicalBlock s' b
  inodes : ∀ i, g.isInode i → logicalInode s'.uncached i = logicalInode s' i

/-- **Sync flushes all that is marked.** -/
theorem sync_flushes (h : sv.CachesOk g)
    (hb : ∀ item ∈ sv.store.cache_b_queue, item.data ≠ sv.store.sectors item.c_item_num → item.dirty = true)
    (hi : ∀ item ∈ sv.store.cache_i_queue, item.data ≠ logicalSlot sv.store item.c_item_num → item.dirty = true) :
    ∃ sv', handle_sync sv = some (0, sv') ∧ Flushed g sv.store sv'.store := by
  obtain ⟨sv', hs⟩ := handle_sync_total h
  obtain ⟨hstep, hsynced, hslots⟩ := handle_sync_synced h.blocks h.inodes (fun x hx hne => .inl (hb x hx hne))
    (fun x hx hne => .inl (hi x hx hne)) hs
  have hslot : ∀ i, logicalInode sv'.store.uncached i = logicalSlot sv'.store i := by
    intro i
    rw [logicalInode_uncached, logicalSlot, hsynced]
  refine ⟨sv', hs, fun b ht => ?_, fun i ht => ?_, fun b => ?_, fun i ht => ?_⟩
  · rw [← hsynced, hstep.view_b b ht]
  · rw [← logicalInode_uncached, hslot, hslots i ht, hstep.view_i i ht]
  · rw [logicalBlock_uncached, hsynced]
  · rw [hslot, hslots i ht]

/-- After the first file the directory's block, its table block and both inodes differ from the disk. -/
theorem sync_flushes_create : ∃ sv, (smallDisk.disk fun _ => false).serves [.create (some [SLASH, 97]) 1] = some sv ∧
    ∃ sv', handle_sync sv = some (0, sv') ∧ Flushed smallDisk.geometry sv.store sv'.store := by
  obtain ⟨sv, hrun, _⟩ := Option.map_eq_some_iff.mp (show ((smallDisk.disk fun _ => false).serves
    [.create (some [SLASH, 97]) 1]).map (fun _ => ()) = some () by decide +kernel)
  obtain ⟨sv₀, hboot, hrun₀⟩ := Disk.serves_eq hrun
  have hstart := DiskFormat.started hboot
  obtain ⟨⟨resp, sv₁⟩, hs, he⟩ : ∃ r, serve sv₀ (.create (some [SLASH, 97]) 1) = some r ∧ r.2 = sv := by
    rw [serves] at hrun₀
    split at hrun₀
    case h_1 => cases hrun₀
    case h_2 hs => exact ⟨_, hs, Option.some.inj hrun₀⟩
  obtain rfl : sv₁ = sv := he
  have hsafe : Request.Safe smallDisk.geometry sv₀.fs (.create (some [SLASH, 97]) 1) := hstart.fresh.safe_create (by decide)
  obtain ⟨hsound, _, heff, _, hagree⟩ := hstart.sound.step (by decide) hsafe hs
  have hclean := hagree.clean (heff.clean hstart.sound.wellFormed hsafe hstart.marks_create ⟨hstart.clean_i, hstart.clean_b⟩)
  have hmarked := hsound.caches.marked hclean
  exact ⟨sv₁, hrun, sync_flushes hsound.caches hmarked.blocks hmarked.inodes⟩

end Yfs
