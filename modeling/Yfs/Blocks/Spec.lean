import Yfs.Code.Files
import Yfs.Lib.Ledger

/-! # Who owns which block -/

namespace Yfs

open Ledger

/-- Where slot `k` of a directory starts in its block. -/
def slotOffset (k : Nat) : Nat := 32 * (k % 16)

namespace View

variable (v : View)

abbrev size (i : Int) : Int := (v.inode i).size
abbrev type (i : Int) : Int := (v.inode i).type
abbrev nlink (i : Int) : Int := (v.inode i).nlink
abbrev indirect (i : Int) : Int := (v.inode i).indirect

/-- Index `n` of inode `i` is below its size. -/
def covers (i : Int) (n : Nat) : Prop := (n : Int) * BLOCKSIZE < v.size i

instance (i : Int) (n : Nat) : Decidable (v.covers i n) := inferInstanceAs (Decidable (_ < _))

/-- `ceil(size / BLOCKSIZE)` -/
def blocks (i : Int) : Nat := ((v.size i + 511) / 512).toNat

/-- The pointer of inode `i` at index `n`, whatever the size says. -/
def pointer (i : Int) (n : Nat) : Int :=
  if h : n < 12 then (v.inode i).get (.direct ⟨n, h⟩) else (v.block (v.indirect i)).pointer (n - 12)

/-- `get_nth_b(i, n, false)` -/
def nthBlock (i : Int) (n : Nat) : Int := if v.covers i n ∧ n < 140 then v.pointer i n else 0

/-- `i` owns `b` at index `n`. -/
def owns (g : Geometry) (i : Int) (n : Nat) (b : Int) : Prop := g.isInode i ∧ v.covers i n ∧ v.nthBlock i n = b

/-- The ledger: data blocks under their index, indirect blocks in use under none. -/
def ledger (g : Geometry) : Int × Option Nat → Option Int
  | (i, some n) => if g.isInode i ∧ v.covers i n then some (v.nthBlock i n) else none
  | (i, none) => if g.isInode i ∧ v.covers i 12 then some (v.indirect i) else none

/-- The blocks of `i` below its size, first index first. -/
def fileBlocks (i : Int) : List Int := (List.range (v.blocks i)).map (v.pointer i)

/-- Every index of `i` below its size has a data block. -/
structure Mapped (g : Geometry) (i : Int) : Prop where
  index : ∀ n, v.covers i n → n < 140
  nonzero : ∀ n, v.covers i n → v.pointer i n ≠ 0
  data : ∀ n, v.covers i n → ¬ g.isTable (v.pointer i n)
  indirect : v.covers i 12 → ¬ g.isTable (v.indirect i)

/-! ## Directory slots -/

/-- The slots within the size. -/
def slots (d : Int) : Nat := (v.size d / 32).toNat

/-- The block of slot `k`. -/
def slotBlock (d : Int) (k : Nat) : Int := v.pointer d (k / 16)

def slotInum (d : Int) (k : Nat) : Int := (v.block (v.slotBlock d k)).inum (slotOffset k)
def slotName (d : Int) (k : Nat) : List UInt8 := (v.block (v.slotBlock d k)).name (slotOffset k)

def isDir (d : Int) : Prop := v.type d = INODE_DIRECTORY

instance (d : Int) : Decidable (v.isDir d) := inferInstanceAs (Decidable (_ = _))

end View

namespace FS

variable (σ : FS)

/-- `get_next_free_bnum`, on the state. -/
def pop : FS := { σ with b_head := σ.b_head.tail }

/-- What `get_next_free_bnum` returns: 0 if there is no free block. -/
def next : Int := σ.b_head.headD 0

/-- `get_nth_b(i, n, true)` past the end, on the state. -/
def alloc (i : Int) (n : Nat) : FS :=
  if h : n < 12 then σ.pop.setInode i ((σ.inode i).set (.direct ⟨n, h⟩) σ.next)
  else σ.pop.setBlock (σ.indirect i) ((σ.block (σ.indirect i)).setPointer (n - 12) σ.next)

/-- Push the blocks of `l` one by one. -/
def release (l : List Int) : FS :=
  { σ with b_head := l.reverse ++ σ.b_head, free_b_count := σ.free_b_count + l.length }

/-- `clear_file`, on the state. -/
def truncate (i : Int) : FS := (σ.release (σ.fileBlocks i)).setInode i ((σ.inode i).set .size 0)

/-- The indirect block of `i` is nobody else's. -/
structure OwnIndirect (g : Geometry) (i : Int) : Prop where
  data : ¬ g.isTable (σ.indirect i)
  free : σ.indirect i ∉ σ.b_head
  key : ∀ k, σ.ledger g k = some (σ.indirect i) → k = (i, none)

/-- `i` can take the next free block. -/
structure CanGrow (g : Geometry) (i : Int) : Prop where
  index : σ.blocks i < 140
  free : σ.b_head ≠ []
  data : ¬ g.isTable σ.next
  indirect : 12 ≤ σ.blocks i → σ.OwnIndirect g i

end FS

/-- Blocks have one owner, and directories have the shape that the code relies on. -/
structure WellFormed (g : Geometry) (σ : FS) : Prop where
  exclusive : Exclusive (σ.ledger g) σ.b_head
  mapped : ∀ i, g.isInode i → σ.Mapped g i
  free : ∀ b ∈ σ.b_head, b ≠ 0 ∧ -2 ^ 31 ≤ b ∧ b < 2 ^ 31
  sizes : ∀ d, g.isInode d → σ.isDir d → 0 ≤ σ.size d ∧ σ.size d % 32 = 0
  entries : ∀ d k, g.isInode d → σ.isDir d → k < σ.slots d → g.isInode (σ.slotInum d k)
  inodes : ∀ i ∈ σ.i_head, g.isInode i

end Yfs
