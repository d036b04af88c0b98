import Yfs.Lib.Mem

/-! # The disk format

The constants and the structures of `comp421/filesystem.h`, as views of bytes.
-/

namespace Yfs

def ERROR : Int := -1
def BLOCKSIZE : Int := 512
def INODESIZE : Int := 64
def NUM_DIRECT : Int := 12
def DIRNAMELEN : Nat := 30
def MAXPATHNAMELEN : Nat := 256
def ROOTINODE : Int := 1
def BLOCK_CACHESIZE : Nat := 32
def INODE_CACHESIZE : Nat := 16

def INODE_FREE : Int := 0
def INODE_DIRECTORY : Int := 1
def INODE_REGULAR : Int := 2

/-- `sizeof(struct dir_entry)` -/
def DIRENTSIZE : Int := 32

/-- `NUM_DIRECT + BLOCKSIZE / sizeof(int)` -/
def MAX_BLOCKS : Int := 140

abbrev Block : Type := Mem 512
abbrev Inode : Type := Mem 64

/-! ## Inodes -/

/-- An inode has direct pointers. -/
instance direct_neZero : NeZero 12 := ⟨by decide⟩

/-- The fields of `struct inode`. -/
inductive Field where
  | type
  | nlink
  | reuse
  | size
  | direct (n : Fin 12)
  | indirect
  deriving DecidableEq

def Field.offset : Field → Nat
  | .type => 0
  | .nlink => 2
  | .reuse => 4
  | .size => 8
  | .direct n => 12 + 4 * n.val
  | .indirect => 60

def Field.width : Field → Nat
  | .type => 2
  | .nlink => 2
  | _ => 4

theorem Field.offset_width (f : Field) : f.offset + f.width ≤ 64 := by
  cases f <;> simp only [offset, width] <;> omega

theorem Field.disjoint (f g : Field) (h : f ≠ g) :
    f.offset + f.width ≤ g.offset ∨ g.offset + g.width ≤ f.offset := by
  cases f <;> cases g <;> simp [offset, width] at * <;> omega

namespace Inode

def get (ino : Inode) (f : Field) : Int := Mem.loadInt f.width ino f.offset
def set (ino : Inode) (f : Field) (v : Int) : Inode := Mem.storeInt f.width ino f.offset v

abbrev type (ino : Inode) : Int := get ino .type
abbrev nlink (ino : Inode) : Int := get ino .nlink
abbrev reuse (ino : Inode) : Int := get ino .reuse
abbrev size (ino : Inode) : Int := get ino .size
abbrev indirect (ino : Inode) : Int := get ino .indirect

@[simp]
theorem get_set (ino : Inode) (f g : Field) (v : Int) :
    get (set ino f v) g = if f = g then Mem.wrap f.width v else get ino g := by
  split
  case isTrue h => subst h; exact Mem.loadInt_storeInt_same _ _ _ _ f.offset_width
  case isFalse h => exact Mem.loadInt_storeInt_ne _ _ _ _ _ _ ((f.disjoint g h).symm)

theorem size_set_size (ino : Inode) (v : Int) (h1 : -2 ^ 31 ≤ v) (h2 : v < 2 ^ 31) : (set ino .size v).size = v := by
  rw [size, get_set, if_pos rfl]
  exact Mem.wrap_int v h1 h2

theorem set_get (ino : Inode) (f : Field) : set ino f (get ino f) = ino := Mem.storeInt_loadInt _ _ _

theorem set_of_get {ino : Inode} {f : Field} {v : Int} (h : get ino f = v) : set ino f v = ino := h ▸ set_get ino f

/-- Every byte belongs to a field. -/
theorem exists_field {k : Nat} (h : k < 64) : ∃ f : Field, f.offset ≤ k ∧ k < f.offset + f.width := by
  by_cases h12 : 12 ≤ k ∧ k < 60
  · exact ⟨.direct ⟨(k - 12) / 4, by omega⟩, by simp only [Field.offset]; omega, by simp only [Field.offset, Field.width]; omega⟩
  · by_cases h2 : k < 2
    · exact ⟨.type, by simp only [Field.offset]; omega, by simp only [Field.offset, Field.width]; omega⟩
    by_cases h4 : k < 4
    · exact ⟨.nlink, by simp only [Field.offset]; omega, by simp only [Field.offset, Field.width]; omega⟩
    by_cases h8 : k < 8
    · exact ⟨.reuse, by simp only [Field.offset]; omega, by simp only [Field.offset, Field.width]; omega⟩
    by_cases h12 : k < 12
    · exact ⟨.size, by simp only [Field.offset]; omega, by simp only [Field.offset, Field.width]; omega⟩
    · exact ⟨.indirect, by simp only [Field.offset]; omega, by simp only [Field.offset, Field.width]; omega⟩

/-- An inode is its fields. -/
theorem ext_get {a b : Inode} (h : ∀ f, get a f = get b f) : a = b := by
  refine Mem.ext_get fun k hk => ?_
  obtain ⟨f, h1, h2⟩ := exists_field hk
  have ha := congrArg (fun m : Inode => Mem.get m k) (set_get a f)
  have hb := congrArg (fun m : Inode => Mem.get m k) (set_get b f)
  rw [← ha, ← hb]
  simp only [set, h f]
  exact Mem.get_storeInt_in _ _ _ _ _ hk ⟨h1, h2⟩

@[simp]
theorem get_zero (f : Field) : get Mem.zero f = 0 := Mem.loadInt_zero _ _

theorem get_range (ino : Inode) (f : Field) : -2 ^ 31 ≤ get ino f ∧ get ino f < 2 ^ 31 := by
  have h2 := Mem.wrap_short_range (Mem.leNat (Mem.load ino f.offset 2))
  have h4 := Mem.wrap_int_range (Mem.leNat (Mem.load ino f.offset 4))
  cases f <;> simp only [get, Mem.loadInt, Field.width] <;> omega

end Inode

/-! ## Blocks -/

namespace Block

/-- The `k`th inode of an inode-table block. -/
def inode (b : Block) (k : Nat) : Inode := Mem.sub b (64 * k) 64
def setInode (b : Block) (k : Nat) (ino : Inode) : Block := Mem.blit b (64 * k) ino

/-- The `k`th pointer of an indirect block. -/
def pointer (b : Block) (k : Nat) : Int := Mem.loadInt 4 b (4 * k)
def setPointer (b : Block) (k : Nat) (v : Int) : Block := Mem.storeInt 4 b (4 * k) v

/-- The fields of the `struct dir_entry` at `off`. -/
def inum (b : Block) (off : Nat) : Int := Mem.loadInt 2 b off
def setInum (b : Block) (off : Nat) (v : Int) : Block := Mem.storeInt 2 b off v
def name (b : Block) (off : Nat) : List UInt8 := Mem.load b (off + 2) DIRNAMELEN

/-- The fields of `struct fs_header`. -/
def num_blocks (b : Block) : Int := Mem.loadInt 4 b 0
def num_inodes (b : Block) : Int := Mem.loadInt 4 b 4

@[simp]
theorem inode_setInode_same (b : Block) (k : Nat) (ino : Inode) (h : k < 8) :
    (b.setInode k ino).inode k = ino := Mem.sub_blit_same _ _ _ (by omega)

theorem inode_setInode_ne (b : Block) (k j : Nat) (ino : Inode) (h : k ≠ j) (hj : j < 8) :
    (b.setInode k ino).inode j = b.inode j := Mem.sub_blit_ne _ _ _ _ (by omega) (by omega)

theorem setInode_inode (b : Block) (k : Nat) : b.setInode k (b.inode k) = b := Mem.blit_sub _ _

theorem setInode_setInode (b : Block) (k : Nat) (u v : Inode) :
    (b.setInode k u).setInode k v = b.setInode k v := Mem.blit_blit _ _ _ _

theorem pointer_range (b : Block) (k : Nat) : -2 ^ 31 ≤ b.pointer k ∧ b.pointer k < 2 ^ 31 := by
  rw [pointer, Mem.loadInt_eq]
  exact Mem.wrap_int_range _

theorem pointer_setPointer_self (b : Block) (k : Nat) (v : Int) (h : k < 128) :
    (b.setPointer k v).pointer k = Mem.wrap 4 v := Mem.loadInt_storeInt_same _ _ _ _ (by omega)

theorem pointer_setPointer_ne (b : Block) (k j : Nat) (v : Int) (h : j ≠ k) :
    (b.setPointer k v).pointer j = b.pointer j := Mem.loadInt_storeInt_ne _ _ _ _ _ _ (by omega)

theorem inum_setInum_self (b : Block) (off : Nat) (v : Int) (h : off + 2 ≤ 512) :
    (b.setInum off v).inum off = Mem.wrap 2 v := Mem.loadInt_storeInt_same _ _ _ _ h

theorem inum_setInum_ne (b : Block) (off off' : Nat) (v : Int) (h : off' + 2 ≤ off ∨ off + 2 ≤ off') :
    (b.setInum off v).inum off' = b.inum off' := Mem.loadInt_storeInt_ne _ _ _ _ _ _ h

theorem name_setInum (b : Block) (off off' : Nat) (v : Int) (h : off' + 32 ≤ off ∨ off ≤ off') :
    (b.setInum off v).name off' = b.name off' := Mem.load_storeInt_ne _ _ _ _ _ _ (by simp only [DIRNAMELEN]; omega)

end Block

/-! ## Where an inode lives -/

/-- `i_num / (BLOCKSIZE / INODESIZE) + 1`: the inode-table block of inode `i`. -/
def tableBlock (i : Int) : Int := Int.tdiv i (Int.tdiv BLOCKSIZE INODESIZE) + 1

/-- `i_num - (b_num - 1) * (BLOCKSIZE / INODESIZE)`: its slot in that block. -/
def tableSlot (i : Int) : Int := i - (tableBlock i - 1) * Int.tdiv BLOCKSIZE INODESIZE

theorem tableBlock_eq (i : Int) (h : 0 ≤ i) : tableBlock i = i / 8 + 1 := by
  have : Int.tdiv BLOCKSIZE INODESIZE = 8 := by decide
  rw [tableBlock, this, Int.tdiv_eq_ediv_of_nonneg h]

theorem tableSlot_eq (i : Int) (h : 0 ≤ i) : tableSlot i = i % 8 := by
  have : Int.tdiv BLOCKSIZE INODESIZE = 8 := by decide
  rw [tableSlot, tableBlock_eq i h, this]
  omega

/-- A disk: block 0, then `table` inode-table blocks, then data. The inodes are those below `inodes`. -/
structure Geometry where
  table : Int
  sectors : Int
  inodes : Int
  table_pos : 0 < table
  table_fits : table < sectors
  inodes_pos : 1 < inodes
  inodes_fit : inodes ≤ 8 * table

namespace Geometry

def isTable (g : Geometry) (b : Int) : Prop := 1 ≤ b ∧ b ≤ g.table

/-- The numbers of inodes. Slot 0 is the header. -/
def isInode (g : Geometry) (i : Int) : Prop := 0 ≤ i ∧ i < g.inodes

instance (g : Geometry) (b : Int) : Decidable (g.isTable b) := inferInstanceAs (Decidable (_ ∧ _))
instance (g : Geometry) (i : Int) : Decidable (g.isInode i) := inferInstanceAs (Decidable (_ ∧ _))

theorem isTable_tableBlock {g : Geometry} {i : Int} (h : g.isInode i) : g.isTable (tableBlock i) := by
  obtain ⟨h0, h1⟩ := h
  have := g.inodes_fit
  rw [isTable, tableBlock_eq i h0]
  omega

end Geometry

/-- A slot of the table holds one inode. -/
theorem table_inj {i j : Int} (hi : 0 ≤ i) (hj : 0 ≤ j) (hb : tableBlock i = tableBlock j)
    (hs : (tableSlot i).toNat = (tableSlot j).toNat) : i = j := by
  rw [tableBlock_eq i hi, tableBlock_eq j hj] at hb
  rw [tableSlot_eq i hi, tableSlot_eq j hj] at hs
  omega

theorem tableSlot_lt {i : Int} (hi : 0 ≤ i) : (tableSlot i).toNat < 8 := by
  rw [tableSlot_eq i hi]; omega

end Yfs
