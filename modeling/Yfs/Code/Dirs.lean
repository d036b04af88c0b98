import Yfs.Code.Files

/-! # Directories and paths -/

namespace Yfs

/-- `'/'` and `'.'` -/
def SLASH : UInt8 := 47
def DOT : UInt8 := 46

/-- A C string, without its terminator. -/
abbrev CStr : Type := List UInt8

/-! ## Directory entries -/

/-- The name comparison: from `j` on, the path and the bytes left of the slot's name. -/
def name_eq : List UInt8 → CStr → Bool
  | [], _ => true
  | b :: name, pathname =>
    let c := pathname.headD 0
    if (c = SLASH ∨ c = 0) ∧ b = 0 then true
    else if c ≠ b then false
    else name_eq name pathname.tail

/-- The locals that the inner loop of `get_dir_entry` changes. -/
structure Search where
  entry_offset : Int
  entry_b_num : Int
  cur_entry : Nat
  total_size : Int
  found : Bool

/-- Its inner loop, over the slots of one block. -/
def scan_block (pathname : CStr) (size : Int) (cur_b : Block) (b_num : Int) : Nat → Search → Search
  | 0, s => s
  | fuel + 1, s =>
    if s.total_size ≤ size ∧ s.cur_entry < 512 then
      let s := if s.entry_offset = -1 ∧ cur_b.inum s.cur_entry = 0 then
        { s with entry_b_num := b_num, entry_offset := s.cur_entry } else s
      if name_eq (cur_b.name s.cur_entry) pathname then { s with found := true }
      else scan_block pathname size cur_b b_num fuel
        { s with cur_entry := s.cur_entry + 32, total_size := s.total_size + DIRENTSIZE }
    else s

/-- The locals after its outer loop. -/
structure Walk where
  i : Int
  b_num : Int
  curr_b_num : Int
  cur_b : Option Ptr
  search : Search

/-- Its outer loop, over the blocks. -/
def scan_blocks (pathname : CStr) (inode : Ptr) : Nat → Walk → Prog Walk
  | 0, _ => .undef
  | fuel + 1, w => do
    if w.b_num = 0 then return w
    let cur_b ← get_b w.b_num
    let ino ← readInode inode
    let blk ← readBlock cur_b
    let s := scan_block pathname ino.size blk w.b_num 17 { w.search with cur_entry := 0 }
    if s.found = true then return { w with cur_b := some cur_b, search := s }
    let b_num ← get_nth_b inode (w.i + 1) false
    scan_blocks pathname inode fuel
      { i := w.i + 1, b_num := b_num, curr_b_num := w.b_num, cur_b := some cur_b, search := s }

/-- The offset of the entry in its block, and `*b_numPtr`. -/
def get_dir_entry (pathname : CStr) (start_i : Int) (should_make_dir : Bool) : Prog (Int × Int) := do
  let inode ← get_i start_i
  let b_num ← get_nth_b inode 0 false
  let w ← scan_blocks pathname inode loopFuel
    { i := 0, b_num := b_num, curr_b_num := 0, cur_b := none,
      search := { entry_offset := -1, entry_b_num := 0, cur_entry := 0, total_size := DIRENTSIZE, found := false } }
  if w.search.found = true then return ((w.search.cur_entry : Int), w.b_num)
  if should_make_dir = false then return (-1, w.b_num)
  if w.search.entry_b_num ≠ 0 then return (w.search.entry_offset, w.search.entry_b_num)
  let ino ← readInode inode
  if Int.tmod ino.size BLOCKSIZE = 0 then
    let b_num ← get_nth_b inode w.i true
    let cur_b ← get_b b_num
    modifyInode inode fun ino => ino.set .size (ino.size + DIRENTSIZE)
    modifyBlock cur_b fun blk => blk.setInum 0 0
    dirtyBlock b_num
    dirtyInode start_i
    return (0, b_num)
  modifyInode inode fun ino => ino.set .size (ino.size + DIRENTSIZE)
  dirtyInode start_i
  match w.cur_b with
  | none => .undef
  | some cur_b =>
    if 512 < w.search.cur_entry + 32 then .undef
    else
      modifyBlock cur_b fun blk => blk.setInum w.search.cur_entry 0
      dirtyBlock w.curr_b_num
      dirtyBlock w.curr_b_num
      return ((w.search.cur_entry : Int), w.curr_b_num)

/-! ## Paths -/

def get_next_path_part (path : CStr) : CStr := (path.dropWhile (· ≠ SLASH)).dropWhile (· = SLASH)

/-- The directory branch of `get_path_i_num`: the entry's inode, 0 if there is none. -/
def lookup_part (path : CStr) (start_i : Int) : Prog Int := do
  let (offset, b_num) ← get_dir_entry path start_i false
  if offset = -1 then return 0
  let block ← get_b b_num
  let blk ← readBlock block
  return blk.inum offset.toNat

def path_walk : Nat → CStr → Int → Prog Int
  | 0, _, _ => .undef
  | fuel + 1, path, start_i => do
    let inode ← get_i start_i
    let ino ← readInode inode
    if ino.type = INODE_DIRECTORY then
      let next_i_num ← lookup_part path start_i
      let p_next := get_next_path_part path
      if p_next = [] then
        let _ ← get_i next_i_num
        return next_i_num
      path_walk fuel p_next next_i_num
    else
      -- `next_i_num` is 0 here, so the source's condition always holds.
      return 0

def get_path_i_num (path : CStr) (start_i : Int) : Prog Int := path_walk (path.length + 1) path start_i

/-- `while (pathname[0] == '/') pathname++` -/
def skip_slashes (pathname : CStr) : CStr := pathname.dropWhile (· = SLASH)

/-- A path that starts with `/` starts at the root. -/
def from_root (pathname : CStr) (curr_i : Int) : CStr × Int :=
  if pathname.head? = some SLASH then (skip_slashes pathname, ROOTINODE) else (pathname, curr_i)

/-- The index of the last slash, 0 if there is none. -/
def last_slash : CStr → (i idx : Nat) → Nat
  | [], _, idx => idx
  | c :: rest, i, idx => last_slash rest (i + 1) (if c = SLASH then i else idx)

/-- The containing directory, and `*file_ptr`. -/
def get_super_dir (pathname : CStr) (curr_i : Int) : Prog (Int × CStr) := do
  if pathname.length ≥ MAXPATHNAMELEN then return (ERROR, [])
  let (pathname, curr_i) := from_root pathname curr_i
  let idx := last_slash pathname 0 0
  if idx ≠ 0 then
    let dir_i_num ← get_path_i_num (pathname.take idx) curr_i
    if dir_i_num = 0 then return (ERROR, pathname.drop (idx + 1))
    return (dir_i_num, pathname.drop (idx + 1))
  else
    return (curr_i, pathname)

end Yfs
