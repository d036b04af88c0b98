import Yfs.Blocks.Proofs
import Yfs.Code.Boot

/-! # What `make_free_lists` finds on a disk -/

namespace Yfs

/-- The inodes in their slots, and the raw blocks. -/
def Disk.view (d : Disk) : View where
  inode i := (d.sectors (tableBlock i)).inode (tableSlot i).toNat
  block := d.sectors

/-- `k` numbers from `a` on. -/
def ints (a : Int) (k : Nat) : List Int := (List.range k).map fun j : Nat => a + (j : Int)

namespace View

variable (v : View)

/-- The pointers that the scan of inode `i` marks from index `n` on: up to the first zero. -/
def chain (i : Int) (n : Nat) : List Int := ((List.range' n (140 - n)).map (v.pointer i)).takeWhile fun b => b ≠ 0

/-- The scan of inode `i` stays within the disk: the marks, and the indirect block if it gets there. -/
structure ChainOk (num_blocks num_sectors i : Int) (n : Nat) : Prop where
  range : ∀ b ∈ v.chain i n, 0 ≤ b ∧ b < num_blocks
  indirect : 12 ≤ n + (v.chain i n).length → 0 ≤ v.indirect i ∧ v.indirect i < num_sectors

def isFree (i : Int) : Bool := v.type i = INODE_FREE

/-- A block that the scan of `l` marks. -/
def Marked (l : List Int) (b : Int) : Prop := ∃ i ∈ l, v.isFree i = false ∧ b ∈ v.chain i 0

end View

/-- Where the scan of the inodes ends: before the first multiple of 8 from `num_inodes` on. -/
def scanEnd (num_inodes : Int) : Int := if num_inodes ≤ 1 then 1 else 8 * ((num_inodes + 7) / 8)

/-- The inodes that the scan looks at. -/
def scannedInodes (num_inodes : Int) : List Int := ints 1 (scanEnd num_inodes - 1).toNat

/-- A disk image of `num_inodes` inodes, as `mkyfs` lays it out. -/
structure Image (d : Disk) (num_inodes : Int) : Prop where
  header_inodes : (d.sectors 1).num_inodes = num_inodes
  header_blocks : (d.sectors 1).num_blocks = d.num_sectors
  pos : 1 ≤ num_inodes
  fits : tableBlocks num_inodes + 1 < d.num_sectors
  /-- The slots past the last inode are zero. -/
  padding : ∀ i, num_inodes < i → i < 8 * tableBlocks num_inodes → d.view.inode i = Mem.zero
  /-- The pointers of an inode in use are nonzero and in range below its size. -/
  pointers : ∀ i, 1 ≤ i → i ≤ num_inodes → d.view.isFree i = false → ∀ n, d.view.covers i n →
    n < 140 ∧ d.view.pointer i n ≠ 0 ∧ 0 ≤ d.view.pointer i n ∧ d.view.pointer i n < d.num_sectors
  indirect : ∀ i, 1 ≤ i → i ≤ num_inodes → d.view.isFree i = false → d.view.covers i 12 →
    0 ≤ d.view.indirect i ∧ d.view.indirect i < d.num_sectors

/-- A disk whose header says how large it is, and whose table and root block fit. -/
structure Formatted (d : Disk) (num_inodes : Int) : Prop where
  header_inodes : (d.sectors 1).num_inodes = num_inodes
  header_blocks : (d.sectors 1).num_blocks = d.num_sectors
  pos : 1 ≤ num_inodes
  fits : tableBlocks num_inodes + 1 < d.num_sectors

theorem Image.formatted {d : Disk} {num_inodes : Int} (h : Image d num_inodes) : Formatted d num_inodes :=
  ⟨h.header_inodes, h.header_blocks, h.pos, h.fits⟩

theorem tableBlocks_eq (num_inodes : Int) : tableBlocks num_inodes = num_inodes / 8 + 1 := by
  rw [tableBlocks]
  omega

end Yfs
