import Yfs.Dirs.Slots

/-! # What the handlers do to a well-formed state -/

namespace Yfs

namespace FS

variable (σ : FS)

/-! ## Inodes -/

/-- What `get_next_inum_free` returns: 0 if there is no free inode. -/
def nextInode : Int := σ.i_head.headD 0

/-- `get_next_inum_free`, on the state. -/
def popInode : FS :=
  if σ.i_head = [] then σ
  else
    { (σ.setInode σ.nextInode ((σ.inode σ.nextInode).set .reuse ((σ.inode σ.nextInode).reuse + 1))).markInode
        σ.nextInode with
      i_head := σ.i_head.tail }

/-- `add_free_i_list`, on the state. -/
def pushInode (i : Int) : FS := { σ with i_head := i :: σ.i_head, free_i_count := σ.free_i_count + 1 }

/-- What `make_file` does to a new inode. -/
def initFile (i : Int) : FS :=
  (σ.setInode i ((((σ.inode i).set .type INODE_REGULAR).set .size 0).set .nlink 1)).markInode i

/-- `nlink += n` -/
def addLinks (i n : Int) : FS := σ.setInode i ((σ.inode i).set .nlink (σ.nlink i + n))

/-! ## Entries -/

/-- Change the bytes of block `b`. -/
def editBlock (b : Int) (f : Block → Block) : FS := σ.setBlock b (f (σ.block b))

def setName (b : Int) (off : Nat) (name : CStr) : FS :=
  σ.editBlock b fun blk => blk.store (off + 2) (strncpy DIRNAMELEN name)

def setInum (b : Int) (off : Nat) (i : Int) : FS := σ.editBlock b fun blk => blk.setInum off i

/-- `make_file` with a new inode, then the mark of `get_create_file`. -/
def newFile (d : Int) (k : Nat) (name : CStr) : FS :=
  let b := σ.slotBlock d k
  let σ₁ := (σ.setName b (slotOffset k) name).popInode
  ((σ₁.setInum b (slotOffset k) σ.nextInode).initFile σ.nextInode).markBlock b

/-- `make_file` with an old inode, then the mark of `get_create_file`. -/
def newLink (d : Int) (k : Nat) (name : CStr) (i : Int) : FS :=
  let b := σ.slotBlock d k
  ((σ.setName b (slotOffset k) name).setInum b (slotOffset k) i).markBlock b

/-- `handle_unlink` once it has found the entry. -/
def removeEntry (d : Int) (k : Nat) : FS :=
  let i := σ.slotInum d k
  let σ₁ := σ.addLinks i (-1)
  let σ₂ := if σ₁.nlink i = 0 then σ₁.truncate i else σ₁
  ((σ₂.markInode i).setInum (σ.slotBlock d k) (slotOffset k) 0).markBlock (σ.slotBlock d k)

/-- What `update_dir_entry` makes of a block. -/
def nameEntry (off : Nat) (name : CStr) (i : Int) (blk : Block) : Block :=
  Block.setInum (Mem.store (Mem.store blk (off + 2) (List.replicate DIRNAMELEN 0)) (off + 2) name) off i

/-- What `handle_mkdir` does to the new inode before it has a block. -/
def initDir (i : Int) : FS :=
  σ.setInode i ((((σ.inode i).set .type INODE_DIRECTORY).set .size (2 * DIRENTSIZE)).set .nlink 1)

/-- `handle_mkdir` gives the new directory its block. -/
def headBlock (i d : Int) : FS :=
  let σ₁ := σ.pop.setInode i ((σ.inode i).set (.direct 0) σ.next)
  ((σ₁.editBlock σ.next fun blk => head_dir blk i d).markBlock σ.next).markInode i

/-- `handle_mkdir` once it has found a free slot. -/
def newDir (d : Int) (k : Nat) (name : CStr) : FS :=
  let b := σ.slotBlock d k
  let i := σ.nextInode
  (((σ.popInode.editBlock b (nameEntry (slotOffset k) name i)).markBlock b).initDir i).headBlock i d

/-- `handle_rmdir` until it looks for the entry. -/
def dropDir (i : Int) : FS := (σ.truncate i).pushInode i

/-- `handle_rmdir` once it has found the entry. -/
def clearEntry (d : Int) (k : Nat) : FS :=
  (σ.setInum (σ.slotBlock d k) (slotOffset k) 0).markBlock (σ.slotBlock d k)

end FS

/-! ## What a handler has done when it returns `r` -/

inductive CreatedIn (σ : FS) (d : Int) (name : CStr) (new : Int) : Int → FS → Prop where
  | taken {k : Nat} (hk : σ.findSlot d name = some k) (h0 : σ.slotInum d k ≠ 0) (hn : new ≠ -1) :
    CreatedIn σ d name new ERROR σ
  | truncated {k : Nat} (hk : σ.findSlot d name = some k) (h0 : σ.slotInum d k ≠ 0) (hn : new = -1) :
    CreatedIn σ d name new (σ.slotInum d k)
      (((σ.truncate (σ.slotInum d k)).markInode (σ.slotInum d k)).markBlock (σ.slotBlock d k))
  | made {k : Nat} {σ₁ : FS} (hp : Placed σ d name k σ₁) (h0 : σ₁.slotInum d k = 0) (hn : new = -1) :
    CreatedIn σ d name new σ₁.nextInode (σ₁.newFile d k name)
  | linked {k : Nat} {σ₁ : FS} (hp : Placed σ d name k σ₁) (h0 : σ₁.slotInum d k = 0) (hn : new ≠ -1) :
    CreatedIn σ d name new new (σ₁.newLink d k name new)

inductive Created (σ : FS) (path : CStr) (cur new : Int) : Int → FS → Prop where
  | error : Created σ path cur new ERROR σ
  | done {d r : Int} {name : CStr} {σ' : FS} (hcur : 0 < cur) (hsup : σ.superDir path cur = (d, name)) (hne : d ≠ ERROR)
    (hdir : σ.isDir d) (h : CreatedIn σ d name new r σ') : Created σ path cur new r σ'

inductive Linked (σ : FS) (old_name new_name : CStr) (cur : Int) : Int → FS → Prop where
  | error : Linked σ old_name new_name cur ERROR σ
  | done {i d : Int} {k : Nat} {name : CStr} {σ₁ : FS} (hcur : 0 < cur)
    (hi : σ.resolve (adj_path_i old_name cur).1 (adj_path_i old_name cur).2 = i) (h0 : i ≠ 0) (hfile : ¬ σ.isDir i)
    (hsup : σ.superDir (adj_path_i new_name (adj_path_i old_name cur).2).1
      (adj_path_i new_name (adj_path_i old_name cur).2).2 = (d, name))
    (hne : d ≠ ERROR) (hdir : σ.isDir d) (hp : Placed σ d name k σ₁) (hfree : σ₁.slotInum d k = 0) :
    Linked σ old_name new_name cur 0 (((σ₁.newLink d k name i).addLinks i 1).markInode i)

inductive Unlinked (σ : FS) (path : CStr) (cur : Int) : Int → FS → Prop where
  | error : Unlinked σ path cur ERROR σ
  | done {d : Int} {k : Nat} {name : CStr} (hcur : 0 < cur) (hsup : σ.superDir path cur = (d, name)) (hne : d ≠ ERROR)
    (hdir : σ.isDir d) (hk : σ.findSlot d name = some k) : Unlinked σ path cur 0 (σ.removeEntry d k)

inductive MadeDir (σ : FS) (path : CStr) (cur : Int) : Int → FS → Prop where
  | error : MadeDir σ path cur ERROR σ
  | done {d : Int} {k : Nat} {name : CStr} {σ₁ : FS} (hcur : 0 < cur)
    (hsup : σ.superDir (from_root path cur).1 (from_root path cur).2 = (d, name)) (hne : d ≠ ERROR)
    (hdir : σ.isDir d) (hp : Placed σ d name k σ₁) (h0 : σ₁.slotInum d k = 0) (hfits : slotOffset k + 2 + name.length ≤ 512) :
    MadeDir σ path cur 0 (σ₁.newDir d k name)

inductive RemovedDir (σ : FS) (path : CStr) (cur : Int) : Int → FS → Prop where
  | error : RemovedDir σ path cur ERROR σ
  | done {i d : Int} {k : Nat} {name : CStr} {σ₁ : FS} (hcur : 0 < cur)
    (hi : σ.resolve (from_root path cur).1 (from_root path cur).2 = i) (hsize : σ.size i ≤ 64)
    (hsup : (σ.dropDir i).superDir (from_root path cur).1 (from_root path cur).2 = (d, name))
    (hne : d ≠ ERROR) (hdir : (σ.dropDir i).isDir d) (hp : Placed (σ.dropDir i) d name k σ₁) :
    RemovedDir σ path cur 0 (σ₁.clearEntry d k)

end Yfs
