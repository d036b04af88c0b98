import Yfs.Code.Handlers
import Yfs.Blocks.Proofs

/-! # Directories as lists of slots -/

namespace Yfs

namespace View

variable (v : View)

/-- The first slot whose name is the first part of `path`. -/
def findSlot (d : Int) (path : CStr) : Option Nat :=
  (List.range (v.slots d)).find? fun k => name_eq (v.slotName d k) path

/-- The first slot without an inode. -/
def freeSlot (d : Int) : Option Nat := (List.range (v.slots d)).find? fun k => v.slotInum d k = 0

/-- The inode that the first part of `path` names in `d`, 0 if there is none. -/
def lookup (d : Int) (path : CStr) : Int := ((v.findSlot d path).map (v.slotInum d)).getD 0

/-- `get_path_i_num`, on the state. -/
def walk : Nat → CStr → Int → Int
  | 0, _, _ => 0
  | fuel + 1, path, d =>
    if (v.inode d).type = INODE_DIRECTORY then
      if get_next_path_part path = [] then v.lookup d path
      else walk fuel (get_next_path_part path) (v.lookup d path)
    else 0

def resolve (path : CStr) (cur : Int) : Int := v.walk (path.length + 1) path cur

/-- `get_super_dir`, on the state. -/
def superDir (path : CStr) (cur : Int) : Int × CStr :=
  if path.length ≥ MAXPATHNAMELEN then (ERROR, [])
  else
    let (path, cur) := from_root path cur
    let idx := last_slash path 0 0
    if idx = 0 then (cur, path)
    else if v.resolve (path.take idx) cur = 0 then (ERROR, path.drop (idx + 1))
    else (v.resolve (path.take idx) cur, path.drop (idx + 1))

end View

namespace FS

variable (σ : FS)

/-! ## A new slot -/

/-- The last block of `d` is full: the slot opens a new block. -/
def growBlock (d : Int) : FS :=
  let σ₁ := σ.alloc d (σ.blocks d)
  let σ₂ := σ₁.setInode d ((σ₁.inode d).set .size (σ₁.size d + DIRENTSIZE))
  ((σ₂.setBlock σ.next ((σ₂.block σ.next).setInum 0 0)).markBlock σ.next).markInode d

/-- The slot goes into the last block. -/
def growLast (d : Int) : FS :=
  let b := σ.slotBlock d (σ.slots d)
  let σ₁ := (σ.setInode d ((σ.inode d).set .size (σ.size d + DIRENTSIZE))).markInode d
  ((σ₁.setBlock b ((σ₁.block b).setInum (slotOffset (σ.slots d)) 0)).markBlock b).markBlock b

/-- `get_dir_entry(_, d, _, true)` without a match and without a free slot, on the state. -/
def grow (d : Int) : FS := if σ.size d % 512 = 0 then σ.growBlock d else σ.growLast d

/-- A name that is not there, and a directory without a free slot. -/
def Full (d : Int) (path : CStr) : Prop := σ.findSlot d path = none ∧ σ.freeSlot d = none

/-- `get_dir_entry(path, d, _, true)` never needs a block that is not there. -/
def RoomFor (g : Geometry) (d : Int) (path : CStr) : Prop := σ.Full d path → σ.size d % 512 = 0 → σ.CanGrow g d

end FS

/-- The slot that `get_dir_entry(path, d, _, true)` returns, and the state. -/
inductive Placed (σ : FS) (d : Int) (path : CStr) : Nat → FS → Prop where
  | found {k : Nat} (h : σ.findSlot d path = some k) : Placed σ d path k σ
  | free {k : Nat} (h : σ.findSlot d path = none) (hk : σ.freeSlot d = some k) : Placed σ d path k σ
  | new (h : σ.Full d path) : Placed σ d path (σ.slots d) (σ.grow d)

/-! ## The scan of `get_dir_entry` -/

/-- The search has passed the slots below `K`. -/
structure Scan (v : View) (d : Int) (path : CStr) (K : Nat) (s : Search) : Prop where
  within : K ≤ v.slots d
  found : s.found = false
  total : s.total_size = 32 * (K + 1)
  unseen : ∀ k, k < K → name_eq (v.slotName d k) path = false
  entry : s.entry_offset = -1 ∧ s.entry_b_num = 0 ∧ (∀ k, k < K → v.slotInum d k ≠ 0) ∨
    ∃ k, k < K ∧ v.slotInum d k = 0 ∧ (∀ l, l < k → v.slotInum d l ≠ 0) ∧
      s.entry_offset = slotOffset k ∧ s.entry_b_num = v.slotBlock d k

end Yfs
