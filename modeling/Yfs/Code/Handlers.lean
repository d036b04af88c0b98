import Yfs.Code.Dirs

/-! # The request handlers -/

namespace Yfs

/-! ## Opening and creating -/

def handle_open (pathname : Option CStr) (curr_i : Int) : Prog Int := do
  match pathname with
  | none => return ERROR
  | some pathname =>
    if curr_i ≤ 0 then return ERROR
    let (pathname, curr_i) := from_root pathname curr_i
    let i_num ← get_path_i_num pathname curr_i
    if i_num = 0 then return ERROR
    return i_num

/-- The second loop of `isPathnameValid`: no slash right before the terminator. -/
def noTrailingSlash : CStr → Bool
  | [] => true
  | c :: rest => if c = SLASH ∧ rest = [] then false else noTrailingSlash rest

def isPathnameValid (pathname : CStr) : Bool :=
  if pathname.length ≥ MAXPATHNAMELEN then false else noTrailingSlash pathname

/-- `strncpy` into a field of `n` bytes. -/
def strncpy (n : Nat) (s : CStr) : List UInt8 := (s ++ List.replicate n 0).take n

/-- `block` and `offset` are the directory entry. -/
def make_file (filename : CStr) (block : Ptr) (offset : Nat) (new_i_num : Int) : Prog Int := do
  modifyBlock block fun blk => blk.store (offset + 2) (strncpy DIRNAMELEN filename)
  if new_i_num = -1 then
    let i_num ← get_next_inum_free
    modifyBlock block fun blk => blk.setInum offset i_num
    let inode ← get_i i_num
    modifyInode inode fun ino => ((ino.set .type INODE_REGULAR).set .size 0).set .nlink 1
    dirtyInode i_num
    return i_num
  else
    modifyBlock block fun blk => blk.setInum offset new_i_num
    return new_i_num

def get_create_file (filename : CStr) (dir_i_num new_i_num : Int) : Prog Int := do
  let (offset, b_num) ← get_dir_entry filename dir_i_num true
  let block ← get_b b_num
  let blk ← readBlock block
  let i_num := blk.inum offset.toNat
  if i_num ≠ 0 then
    if new_i_num ≠ -1 then return ERROR
    zero_file i_num
    dirtyBlock b_num
    return i_num
  else
    let i_num ← make_file filename block offset.toNat new_i_num
    dirtyBlock b_num
    return i_num

def handle_create (pathname : Option CStr) (curr_i new_i_num : Int) : Prog Int := do
  match pathname with
  | none => return ERROR
  | some pathname =>
    if isPathnameValid pathname = false ∨ curr_i ≤ 0 then return ERROR
    let (dir_i_num, filename) ← get_super_dir pathname curr_i
    if dir_i_num = ERROR then return ERROR
    let dir_i ← get_i dir_i_num
    let ino ← readInode dir_i
    if ino.type ≠ INODE_DIRECTORY then return ERROR
    let i_num ← get_create_file filename dir_i_num new_i_num
    if i_num = ERROR then return ERROR
    return i_num

/-! ## Linking and unlinking -/

def adj_path_i (name : CStr) (curr_i : Int) : CStr × Int :=
  if name.head? = some SLASH then (name.tail, ROOTINODE) else (name, curr_i)

def handle_link (old_name new_name : Option CStr) (curr_i : Int) : Prog Int := do
  match old_name, new_name with
  | some old_name, some new_name =>
    if curr_i ≤ 0 then return ERROR
    let (old_name, curr_i) := adj_path_i old_name curr_i
    let old_i_name ← get_path_i_num old_name curr_i
    let inode ← get_i old_i_name
    let ino ← readInode inode
    if ino.type = INODE_DIRECTORY ∨ old_i_name = 0 then return ERROR
    let (new_name, curr_i) := adj_path_i new_name curr_i
    let ret ← handle_create (some new_name) curr_i old_i_name
    if ret = ERROR then return ERROR
    modifyInode inode fun ino => ino.set .nlink (ino.nlink + 1)
    dirtyInode old_i_name
    return 0
  | _, _ => return ERROR

def handle_unlink (pathname : Option CStr) (curr_i : Int) : Prog Int := do
  match pathname with
  | none => return ERROR
  | some pathname =>
    if curr_i ≤ 0 then return ERROR
    let (dir_i_num, filename) ← get_super_dir pathname curr_i
    let dir_i ← get_i dir_i_num
    let ino ← readInode dir_i
    if ino.type ≠ INODE_DIRECTORY then return ERROR
    let (offset, b_num) ← get_dir_entry filename dir_i_num false
    if offset = -1 then return ERROR
    let block ← get_b b_num
    let blk ← readBlock block
    let i_num := blk.inum offset.toNat
    let inode ← get_i i_num
    modifyInode inode fun ino => ino.set .nlink (ino.nlink - 1)
    let ino ← readInode inode
    if ino.nlink = 0 then
      clear_file inode
    dirtyInode i_num
    modifyBlock block fun blk => blk.setInum offset.toNat 0
    dirtyBlock b_num
    return 0

/-! ## Making and removing directories -/

/-- `memset` the name, then copy `filename` up to its terminator, however long it is. -/
def update_dir_entry (block : Ptr) (offset : Nat) (filename : CStr) (i_num : Int) : Prog Unit :=
  if 512 < offset + 2 + filename.length then .undef
  else modifyBlock block fun blk =>
    Block.setInum ((blk.store (offset + 2) (List.replicate DIRNAMELEN 0)).store (offset + 2) filename) offset i_num

/-- What `handle_mkdir` writes into the first block of a new directory. -/
def head_dir (blk : Block) (i_num dir_i_num : Int) : Block :=
  Mem.store (Block.setInum (Mem.store (Block.setInum blk 0 i_num) 2 [DOT]) 32 dir_i_num) 34 [DOT, DOT]

def handle_mkdir (pathname : Option CStr) (curr_i : Int) : Prog Int := do
  match pathname with
  | none => return ERROR
  | some pathname =>
    if curr_i ≤ 0 then return ERROR
    let (pathname, curr_i) := from_root pathname curr_i
    let (dir_i_num, filename) ← get_super_dir pathname curr_i
    let (offset, b_num) ← get_dir_entry filename dir_i_num true
    let block ← get_b b_num
    let blk ← readBlock block
    if blk.inum offset.toNat ≠ 0 then return ERROR
    let i_num ← get_next_inum_free
    update_dir_entry block offset.toNat filename i_num
    dirtyBlock b_num
    let _ ← get_b (tableBlock i_num)
    let inode ← get_i i_num
    modifyInode inode fun ino =>
      ((ino.set .type INODE_DIRECTORY).set .size (2 * DIRENTSIZE)).set .nlink 1
    let head_dir_b_num ← get_next_free_bnum
    let head_dir_b ← get_b head_dir_b_num
    modifyInode inode fun ino => ino.set (.direct 0) head_dir_b_num
    modifyBlock head_dir_b fun blk => head_dir blk i_num dir_i_num
    dirtyBlock head_dir_b_num
    dirtyInode i_num
    return 0

def handle_rmdir (pathname : Option CStr) (curr_i : Int) : Prog Int := do
  match pathname with
  | none => return ERROR
  | some pathname =>
    if curr_i ≤ 0 then return ERROR
    let (pathname, curr_i) := from_root pathname curr_i
    let i_num ← get_path_i_num pathname curr_i
    if i_num = ERROR then return ERROR
    let inode ← get_i i_num
    let ino ← readInode inode
    if ino.size > 2 * DIRENTSIZE then return ERROR
    clear_file inode
    add_free_i_list i_num
    let (dir_i_num, filename) ← get_super_dir pathname curr_i
    let (offset, b_num) ← get_dir_entry filename dir_i_num true
    let block ← get_b b_num
    modifyBlock block fun blk => blk.setInum offset.toNat 0
    dirtyBlock b_num
    return 0

/-! ## Looking -/

def handle_chdir (pathname : Option CStr) (curr_i : Int) : Prog Int := do
  match pathname with
  | none => return ERROR
  | some pathname =>
    if curr_i ≤ 0 then return ERROR
    let (pathname, curr_i) := from_root pathname curr_i
    let inode ← get_path_i_num pathname curr_i
    if inode = 0 then return ERROR
    return inode

/-- `struct Stat` -/
structure Stat where
  inum : Int
  type : Int
  size : Int
  nlink : Int

/-- `stat_buffer` is `none` for a null pointer, else whether `CopyTo` reaches it. -/
def handle_stat (pathname : Option CStr) (curr_i : Int) (stat_buffer : Option Bool) : Prog (Int × Option Stat) := do
  match pathname, stat_buffer with
  | some pathname, some mapped =>
    if curr_i ≤ 0 then return (ERROR, none)
    let (pathname, curr_i) := from_root pathname curr_i
    let i_num ← get_path_i_num pathname curr_i
    if i_num = 0 then return (ERROR, none)
    let inode ← get_i i_num
    let ino ← readInode inode
    if mapped = false then return (ERROR, none)
    return (0, some { inum := i_num, type := ino.type, size := ino.size, nlink := ino.nlink })
  | _, _ => return (ERROR, none)

end Yfs
