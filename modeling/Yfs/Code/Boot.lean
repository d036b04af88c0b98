import Yfs.Code.Files

/-! # Booting and formatting -/

namespace Yfs

/-! ## `make_free_lists` -/

/-- `used_b_list[b_num] = true`; the array has `num_blocks` entries. -/
def mark_used (used_b_list : Int → Bool) (num_blocks b_num : Int) : Option (Int → Bool) :=
  if 0 ≤ b_num ∧ b_num < num_blocks then some (Function.update used_b_list b_num true) else none

/-- The pointer that the scan looks at: no size, no stop but a zero. -/
def scan_pointer (inode : Ptr) (i : Int) : Prog Int := do
  let ino ← readInode inode
  if i < NUM_DIRECT then
    match directField i with
    | none => .undef
    | some f => return ino.get f
  else
    let b_indir ← get_b ino.indirect
    let blk ← readBlock b_indir
    return blk.pointer (i - NUM_DIRECT).toNat

/-- `while (1)`, over the pointers of one inode. -/
def mark_pointers (inode : Ptr) (num_blocks : Int) : Nat → Int → (Int → Bool) → Prog (Int → Bool)
  | 0, _, _ => .undef
  | fuel + 1, i, used_b_list => do
    if i ≥ MAX_BLOCKS then return used_b_list
    let b_num ← scan_pointer inode i
    if b_num = 0 then return used_b_list
    match mark_used used_b_list num_blocks b_num with
    | none => .undef
    | some used_b_list => mark_pointers inode num_blocks fuel (i + 1) used_b_list

/-- The scan of one inode. -/
def scan_inode (num_blocks i_num : Int) (used_b_list : Int → Bool) : Prog (Int → Bool) := do
  let inode ← get_i i_num
  let ino ← readInode inode
  if ino.type = INODE_FREE then
    let v ← globals
    setGlobals { v with i_head := i_num :: v.i_head, free_i_count := v.free_i_count + 1 }
    return used_b_list
  else mark_pointers inode num_blocks loopFuel 0 used_b_list

/-- `while (i_num < (BLOCKSIZE / INODESIZE) * b_num)` -/
def scan_inodes (num_blocks b_num : Int) : Nat → Int → (Int → Bool) → Prog (Int × (Int → Bool))
  | 0, _, _ => .undef
  | fuel + 1, i_num, used_b_list => do
    if i_num < Int.tdiv BLOCKSIZE INODESIZE * b_num then
      let used_b_list ← scan_inode num_blocks i_num used_b_list
      scan_inodes num_blocks b_num fuel (i_num + 1) used_b_list
    else return (i_num, used_b_list)

/-- `while (i_num < header.num_inodes)` -/
def scan_table (num_blocks num_inodes : Int) : Nat → (i_num b_num : Int) → (Int → Bool) → Prog (Int → Bool)
  | 0, _, _, _ => .undef
  | fuel + 1, i_num, b_num, used_b_list => do
    if i_num < num_inodes then
      let (i_num, used_b_list) ← scan_inodes num_blocks b_num 9 i_num used_b_list
      let _ ← get_b (b_num + 1)
      scan_table num_blocks num_inodes fuel i_num (b_num + 1) used_b_list
    else return used_b_list

/-- The last loop, from block `i` on: `left` rounds. -/
def push_unused (used_b_list : Int → Bool) : (left : Nat) → (i : Int) → Globals → Globals
  | 0, _, v => v
  | left + 1, i, v =>
    push_unused used_b_list left (i + 1)
      (if used_b_list i = true then v
        else { v with b_head := i :: v.b_head, free_b_count := v.free_b_count + 1 })

def make_free_lists : Prog Unit := do
  let block ← get_b 1
  let header ← readBlock block
  let num_blocks := header.num_blocks
  let num_inodes := header.num_inodes
  match mark_used (fun _ => false) num_blocks 0 with
  | none => .undef
  | some used_b_list =>
    let used_b_list ← scan_table num_blocks num_inodes (num_inodes.toNat + 1) ROOTINODE 1 used_b_list
    let v ← globals
    setGlobals (push_unused used_b_list num_blocks.toNat 0 v)

/-- A disk, and what `malloc` leaves in the `dirty` byte of inode items. -/
structure Disk where
  num_sectors : Int
  sectors : Int → Block
  fresh_dirty : Nat → Bool

def Disk.server (d : Disk) : Server :=
  { i_head := [], b_head := [], free_i_count := 0, free_b_count := 0,
    store := emptyCaches d.num_sectors d.sectors d.fresh_dirty }

/-- A server that has just started on the disk. -/
def boot (d : Disk) : Option Server := (run make_free_lists d.server).map fun r => r.2

/-! ## `mkyfs` -/

/-- `inodes_size / BLOCKSIZE`: `num_inodes + 1` slots, rounded up to whole blocks. -/
def tableBlocks (num_inodes : Int) : Int := ((num_inodes + 1) * 64 + 511) / 512

def rootInode (num_inodes : Int) : Inode :=
  ((((Inode.set Mem.zero .type INODE_DIRECTORY).set .nlink 2).set .reuse 1).set .size (2 * DIRENTSIZE)).set
    (.direct 0) (tableBlocks num_inodes + 1)

/-- The first block of the table: the header, the root and free inodes. -/
def headerBlock (num_sectors num_inodes : Int) : Block :=
  Block.setInode (Mem.storeInt 4 (Mem.storeInt 4 Mem.zero 0 num_sectors) 4 num_inodes) 1 (rootInode num_inodes)

def rootBlock : Block :=
  Mem.store (Block.setInum (Mem.store (Block.setInum Mem.zero 0 ROOTINODE) 2 [46]) 32 ROOTINODE) 34 [46, 46]

/-- The disk that `mkyfs num_inodes` writes. -/
def mkyfs (num_sectors num_inodes : Int) (fresh_dirty : Nat → Bool) : Disk where
  num_sectors := num_sectors
  sectors b :=
    if b = 1 then headerBlock num_sectors num_inodes
    else if b = tableBlocks num_inodes + 1 then rootBlock
    else Mem.zero
  fresh_dirty := fresh_dirty

end Yfs
