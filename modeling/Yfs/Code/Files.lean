import Yfs.Prog

/-! # Files: free lists, block pointers, reads and writes -/

namespace Yfs

def modifyInode (p : Ptr) (f : Inode → Inode) : Prog Unit := do
  let ino ← readInode p
  writeInode p (f ino)

def modifyBlock (p : Ptr) (f : Block → Block) : Prog Unit := do
  let blk ← readBlock p
  writeBlock p (f blk)

/-! ## The free lists -/

def get_next_inum_free : Prog Int := do
  let v ← globals
  match v.i_head with
  | [] => return 0
  | i_num :: rest =>
    let inode ← get_i i_num
    modifyInode inode fun ino => ino.set .reuse (ino.reuse + 1)
    dirtyInode i_num
    setGlobals { v with i_head := rest }
    return i_num

def add_free_i_list (i_num : Int) : Prog Unit := do
  let v ← globals
  setGlobals { v with i_head := i_num :: v.i_head, free_i_count := v.free_i_count + 1 }

def get_next_free_bnum : Prog Int := do
  let v ← globals
  match v.b_head with
  | [] => return 0
  | b_num :: rest =>
    setGlobals { v with b_head := rest }
    return b_num

/-- The body of the three freeing loops. -/
def free_block (b_num : Int) : Prog Unit := do
  let v ← globals
  setGlobals { v with b_head := b_num :: v.b_head, free_b_count := v.free_b_count + 1 }

/-! ## Block pointers -/

/-- `direct[n]`; any other index is out of bounds. -/
def directField (n : Int) : Option Field :=
  if h : 0 ≤ n ∧ n < 12 then some (.direct ⟨n.toNat, by omega⟩) else none

def get_nth_b (inode : Ptr) (n : Int) (allocateIfNeeded : Bool) : Prog Int := do
  if n ≥ MAX_BLOCKS then return 0
  let ino ← readInode inode
  let finish := decide (n * BLOCKSIZE ≥ ino.size)
  if finish = true ∧ allocateIfNeeded = false then return 0
  if n < NUM_DIRECT then
    match directField n with
    | none => .undef
    | some f =>
      if finish = true then
        let b_num ← get_next_free_bnum
        modifyInode inode fun ino => ino.set f b_num
      let ino ← readInode inode
      return ino.get f
  else
    let b_indir ← get_b ino.indirect
    if finish = true then
      let b_num ← get_next_free_bnum
      modifyBlock b_indir fun blk => blk.setPointer (n - NUM_DIRECT).toNat b_num
    let blk ← readBlock b_indir
    return blk.pointer (n - NUM_DIRECT).toNat

/-- More rounds than `get_nth_b` has indices. -/
def loopFuel : Nat := 142

/-- `while ((b_num = get_nth_b(inode, i++, false)) != 0)` -/
def free_blocks (inode : Ptr) : Nat → Int → Prog Unit
  | 0, _ => .undef
  | fuel + 1, i => do
    let b_num ← get_nth_b inode i false
    if b_num = 0 then return ()
    free_block b_num
    free_blocks inode fuel (i + 1)

def clear_file (inode : Ptr) : Prog Unit := do
  free_blocks inode loopFuel 0
  modifyInode inode fun ino => ino.set .size 0

def zero_file (i_num : Int) : Prog Unit := do
  let inode ← get_i i_num
  clear_file inode
  dirtyInode i_num

/-! ## User memory -/

/-- The buffer of a request: its bytes, and where `CopyFrom` and `CopyTo` fail. -/
structure UserBuf where
  null : Bool
  bytes : Nat → UInt8
  /-- Whether the `len` bytes at `pos` can be copied. -/
  mapped : Nat → Nat → Bool

def CopyFrom (buf : UserBuf) (pos len : Nat) : Option (List UInt8) :=
  if buf.mapped pos len then some ((List.range len).map fun j => buf.bytes (pos + j)) else none

/-! ## Reading -/

/-- `false` and `true` are 0 and 1: never `ERROR`. -/
def is_valid_inputs (i_num : Int) (buf : UserBuf) (size byte_offset : Int) : Int :=
  if buf.null ∨ size < 0 ∨ byte_offset < 0 ∨ i_num ≤ 0 then 0 else 1

def get_num_bytes_left (byte_offset size : Int) (ino : Inode) : Int :=
  if Mem.wrap 4 (ino.size - byte_offset) < size then Mem.wrap 4 (ino.size - byte_offset) else size

/-- The result, and the bytes that reached the buffer. -/
structure Reply where
  ret : Int
  copied : List UInt8

def read_loop (inode : Ptr) (buf : UserBuf) (ret : Int) :
    Nat → (i leftover_bytes b_offset num_bytes : Int) → List UInt8 → Prog Reply
  | 0, _, _, _, _, _ => .undef
  | fuel + 1, i, leftover_bytes, b_offset, num_bytes, copied => do
    if leftover_bytes ≤ 0 then return ⟨ret, copied⟩
    let b_num ← get_nth_b inode i false
    if b_num = 0 then return ⟨ERROR, copied⟩
    let cur_b ← get_b b_num
    let num_bytes := if leftover_bytes < num_bytes then leftover_bytes else num_bytes
    if b_offset < 0 ∨ BLOCKSIZE < b_offset + num_bytes then .undef
    else
      if buf.mapped copied.length num_bytes.toNat = false then return ⟨ERROR, copied⟩
      let blk ← readBlock cur_b
      read_loop inode buf ret fuel (i + 1) (leftover_bytes - num_bytes) 0 BLOCKSIZE
        (copied ++ blk.load b_offset.toNat num_bytes.toNat)

def handle_read (i_num : Int) (buf : UserBuf) (size byte_offset : Int) : Prog Reply := do
  if is_valid_inputs i_num buf size byte_offset = ERROR then return ⟨ERROR, []⟩
  let inode ← get_i i_num
  let ino ← readInode inode
  if byte_offset > ino.size then return ⟨ERROR, []⟩
  let leftover_bytes := get_num_bytes_left byte_offset size ino
  let b_offset := Int.tmod byte_offset BLOCKSIZE
  read_loop inode buf leftover_bytes loopFuel (Int.tdiv byte_offset BLOCKSIZE) leftover_bytes b_offset
    (BLOCKSIZE - b_offset) []

/-! ## Writing -/

/-- `false` and `true` are 0 and 1: never `ERROR`. -/
def is_valid_i (ino : Inode) : Int := if ino.type ≠ INODE_REGULAR then 0 else 1

def get_num_copy_bytes (leftover_bytes b_offset : Int) : Int :=
  if leftover_bytes < BLOCKSIZE - b_offset then leftover_bytes else BLOCKSIZE - b_offset

def update_i_size (ino : Inode) (size byte_offset leftover_bytes : Int) : Inode :=
  let wrote_bytes := size - leftover_bytes
  if Mem.wrap 4 (wrote_bytes + byte_offset) > ino.size then ino.set .size (wrote_bytes + byte_offset) else ino

/-- Whether the loop of `handle_write` ran to its end. -/
def write_loop (inode : Ptr) (buf : UserBuf) (size byte_offset : Int) :
    Nat → (i leftover_bytes b_offset : Int) → Prog Bool
  | 0, _, _, _ => .undef
  | fuel + 1, i, leftover_bytes, b_offset => do
    if leftover_bytes ≤ 0 then return true
    let b_num ← get_nth_b inode i true
    if b_num = 0 then return false
    let cur_b ← get_b b_num
    let num_bytes := get_num_copy_bytes leftover_bytes b_offset
    if b_offset < 0 then .undef
    else
      match CopyFrom buf (size - leftover_bytes).toNat num_bytes.toNat with
      | none => return false
      | some bytes =>
        modifyBlock cur_b fun blk => blk.store b_offset.toNat bytes
        dirtyBlock b_num
        modifyInode inode fun ino => update_i_size ino size byte_offset (leftover_bytes - num_bytes)
        write_loop inode buf size byte_offset fuel (i + 1) (leftover_bytes - num_bytes) 0

def handle_write (i_num : Int) (buf : UserBuf) (size byte_offset : Int) : Prog Int := do
  let inode ← get_i i_num
  let ino ← readInode inode
  if is_valid_i ino = ERROR then return ERROR
  let done ← write_loop inode buf size byte_offset loopFuel (Int.tdiv byte_offset BLOCKSIZE) size
    (Int.tmod byte_offset BLOCKSIZE)
  if done = false then return ERROR
  dirtyInode i_num
  return size

/-! ## Seeking -/

def SEEK_SET : Int := 0
def SEEK_CUR : Int := 1
def SEEK_END : Int := 2

def handle_seek (i_num offset whence cur_pos : Int) : Prog Int := do
  let inode ← get_i i_num
  let ino ← readInode inode
  let size := ino.size
  if cur_pos > size ∨ cur_pos < 0 then return ERROR
  if whence = SEEK_SET then
    if offset < 0 ∨ offset > size then return ERROR
    return offset
  if whence = SEEK_CUR then
    let new_pos := Mem.wrap 4 (cur_pos + offset)
    if new_pos > size ∨ new_pos < 0 then return ERROR
    return new_pos
  if whence = SEEK_END then
    let new_pos := Mem.wrap 4 (size + offset)
    if offset > 0 ∨ new_pos < 0 then return ERROR
    return new_pos
  return ERROR

end Yfs
