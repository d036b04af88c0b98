import Yfs.Blocks.Grow

/-! # What `handle_write` does to the state -/

namespace Yfs

namespace FS

variable (σ : FS)

/-- `get_nth_b(i, n, true)`, on the state. -/
def reach (i : Int) (n : Nat) : FS := if σ.covers i n then σ else σ.alloc i n

/-- The rest of a round: the bytes, the mark and the size. -/
def putChunk (i : Int) (n off : Nat) (bytes : List UInt8) (size byte_offset left : Int) : FS :=
  let b := σ.pointer i n
  let σ₁ := (σ.setBlock b ((σ.block b).store off bytes)).markBlock b
  σ₁.setInode i (update_i_size (σ.inode i) size byte_offset left)

end FS

/-- The loop of `handle_write` from block `n` on: whether it ran to its end, and the state. -/
inductive Writing (i : Int) (buf : UserBuf) (size byte_offset : Int) : Nat → Int → Int → FS → Bool → FS → Prop where
  | done {n : Nat} {left off : Int} {σ : FS} (h : left ≤ 0) : Writing i buf size byte_offset n left off σ true σ
  /-- Past the last index. -/
  | limit {n : Nat} {left off : Int} {σ : FS} (h : 0 < left) (hn : 140 ≤ n) :
    Writing i buf size byte_offset n left off σ false σ
  /-- No free block, or a chunk that cannot be copied. -/
  | stuck {n : Nat} {left off : Int} {σ : FS} (h : 0 < left) (hn : n < 140)
    (hfail : (σ.reach i n).pointer i n = 0 ∨
      CopyFrom buf (size - left).toNat (get_num_copy_bytes left off).toNat = none) :
    Writing i buf size byte_offset n left off σ false (σ.reach i n)
  | chunk {n : Nat} {left off : Int} {σ σ' : FS} {bytes : List UInt8} {r : Bool} (h : 0 < left) (hn : n < 140)
    (hb : (σ.reach i n).pointer i n ≠ 0)
    (hbytes : CopyFrom buf (size - left).toNat (get_num_copy_bytes left off).toNat = some bytes)
    (hrest : Writing i buf size byte_offset (n + 1) (left - get_num_copy_bytes left off) 0
      ((σ.reach i n).putChunk i n off.toNat bytes size byte_offset (left - get_num_copy_bytes left off)) r σ') :
    Writing i buf size byte_offset n left off σ r σ'

/-- Chunk `n` of the write can be copied. -/
def chunkMapped (buf : UserBuf) (size byte_offset : Int) (n : Nat) : Prop :=
  buf.mapped (max byte_offset (512 * n) - byte_offset).toNat
    (min (byte_offset + size) (512 * (n + 1)) - max byte_offset (512 * n)).toNat = true

/-- From block `n` on the write gets to index 12: nothing stops it before. -/
structure Reaches (σ : FS) (i : Int) (buf : UserBuf) (size byte_offset : Int) (n : Nat) : Prop where
  far : 12 * 512 < byte_offset + size
  free : 12 ≤ σ.blocks i + σ.b_head.length
  mapped : ∀ m, n ≤ m → m < 12 → chunkMapped buf size byte_offset m

/-- The blocks that the write adds to file `i`. -/
def newBlocks (σ : FS) (i size byte_offset : Int) : Nat :=
  min 140 ((byte_offset + size + 511) / 512).toNat - σ.blocks i

/-- A write that keeps blocks apart: a file, no gap before the first byte, and an indirect block where one is
needed. -/
structure FS.WriteOk (σ : FS) (g : Geometry) (i : Int) (buf : UserBuf) (size byte_offset : Int) : Prop where
  inode : g.isInode i
  file : ¬ σ.isDir i
  offset : 0 ≤ byte_offset
  gap : 0 < size → byte_offset / 512 ≤ σ.blocks i
  /-- The blocks that the write takes are no table blocks. -/
  fresh : ∀ b ∈ σ.b_head.take (newBlocks σ i size byte_offset), ¬ g.isTable b
  indirect : ¬ σ.covers i 12 → Reaches σ i buf size byte_offset (byte_offset / 512).toNat → σ.OwnIndirect g i

/-- What `handle_write` has done when it returns `r`. -/
inductive Written (σ : FS) (i : Int) (buf : UserBuf) (size byte_offset : Int) : Int → FS → Prop where
  | ended {σ' : FS} (h : Writing i buf size byte_offset (byte_offset / 512).toNat size (byte_offset % 512) σ true σ') :
    Written σ i buf size byte_offset size (σ'.markInode i)
  | failed {σ' : FS} (h : Writing i buf size byte_offset (byte_offset / 512).toNat size (byte_offset % 512) σ false σ') :
    Written σ i buf size byte_offset ERROR σ'

end Yfs
