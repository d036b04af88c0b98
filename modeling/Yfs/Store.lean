import Yfs.Layout
import Yfs.Lib.Queue

/-! # The disk and the two caches

`get_b`, `get_i` and their evictions. A cache's queue, its hash table and its counter are one list,
oldest first.
-/

namespace Yfs

/-- A `cache_item` with the buffer behind its `addr`. `id` is where `malloc` put the item. -/
structure CacheItem (α : Type) where
  id : Nat
  c_item_num : Int
  dirty : Bool
  data : α

abbrev CacheQueue (α : Type) : Type := List (CacheItem α)

/-- What `get_b` and `get_i` return: a pointer into the buffer of the item `id`, which holds `num`. -/
structure Ptr where
  num : Int
  id : Nat

structure Store where
  num_sectors : Int
  sectors : Int → Block
  cache_b_queue : CacheQueue Block
  cache_i_queue : CacheQueue Inode
  next_id : Nat
  /-- What a fresh inode item holds in `dirty`, which `get_i` does not set. -/
  fresh_dirty : Nat → Bool

/-! ## Queues and hash tables -/

section Queue

variable {α : Type}

def query_ht (q : CacheQueue α) (num : Int) : Option (CacheItem α) :=
  Queue.lookup CacheItem.c_item_num q num

def right_dequeue (q : CacheQueue α) (item : CacheItem α) : CacheQueue α :=
  Queue.remove CacheItem.c_item_num q item.c_item_num

def right_enqueue (item : CacheItem α) (q : CacheQueue α) : CacheQueue α := q ++ [item]

/-- The item that `p` points into, unless it was freed. -/
def deref (q : CacheQueue α) (p : Ptr) : Option (CacheItem α) :=
  (query_ht q p.num).filter fun item => item.id = p.id

/-- Store through `p`. -/
def assign (q : CacheQueue α) (p : Ptr) (v : α) : Option (CacheQueue α) :=
  (deref q p).map fun _ => Queue.modify CacheItem.c_item_num q p.num fun item => { item with data := v }

/-- `query_ht(ht, num)->dirty = true` -/
def markDirty (q : CacheQueue α) (num : Int) : Option (CacheQueue α) :=
  (query_ht q num).map fun _ => Queue.modify CacheItem.c_item_num q num fun item => { item with dirty := true }

end Queue

def Store.isSector (s : Store) (b : Int) : Prop := 0 ≤ b ∧ b < s.num_sectors

instance (s : Store) (b : Int) : Decidable (s.isSector b) := inferInstanceAs (Decidable (_ ∧ _))

namespace Cache

/-! ## Blocks -/

/-- Outside the disk `ReadSector` fails and leaves the fresh buffer uninitialised. -/
def ReadSector (s : Store) (b : Int) : Option Block := if s.isSector b then some (s.sectors b) else none

def WriteSector (s : Store) (b : Int) (v : Block) : Store :=
  if s.isSector b then { s with sectors := Function.update s.sectors b v } else s

def evict_b (s : Store) : Option Store :=
  match s.cache_b_queue with
  | [] => none
  | lru :: rest => some { WriteSector s lru.c_item_num lru.data with cache_b_queue := rest }

/-- Evict the LRU block if the cache is full. -/
def makeRoom_b (s : Store) : Option Store :=
  if s.cache_b_queue.length = BLOCK_CACHESIZE then evict_b s else some s

def get_b (b_num : Int) (s : Store) : Option (Ptr × Store) :=
  match query_ht s.cache_b_queue b_num with
  | some b_tmp =>
    some (⟨b_num, b_tmp.id⟩,
      { s with cache_b_queue := right_enqueue b_tmp (right_dequeue s.cache_b_queue b_tmp) })
  | none => do
    let s ← makeRoom_b s
    let block ← ReadSector s b_num
    let c_tmp : CacheItem Block := { id := s.next_id, c_item_num := b_num, dirty := false, data := block }
    some (⟨b_num, c_tmp.id⟩,
      { s with cache_b_queue := right_enqueue c_tmp s.cache_b_queue, next_id := s.next_id + 1 })

/-! ## Inodes -/

/-- Slot offsets outside the block are stray memory. -/
def slotOf (i_num : Int) : Option Nat :=
  if 0 ≤ tableSlot i_num ∧ tableSlot i_num < 8 then some (tableSlot i_num).toNat else none

def evict_i (s : Store) : Option Store :=
  match s.cache_i_queue with
  | [] => none
  | lru_i :: rest => do
    let lru_b_num := tableBlock lru_i.c_item_num
    let (lru_b, s) ← get_b lru_b_num { s with cache_i_queue := rest }
    let block ← deref s.cache_b_queue lru_b
    let slot ← slotOf lru_i.c_item_num
    let q ← assign s.cache_b_queue lru_b (block.data.setInode slot lru_i.data)
    let q ← markDirty q lru_b_num
    some { s with cache_b_queue := q }

/-- Evict the LRU inode if the cache is full. -/
def makeRoom_i (s : Store) : Option Store :=
  if s.cache_i_queue.length = INODE_CACHESIZE then evict_i s else some s

def get_i (i_num : Int) (s : Store) : Option (Ptr × Store) :=
  match query_ht s.cache_i_queue i_num with
  | some c_i_tmp =>
    some (⟨i_num, c_i_tmp.id⟩,
      { s with cache_i_queue := right_enqueue c_i_tmp (right_dequeue s.cache_i_queue c_i_tmp) })
  | none => do
    let s ← makeRoom_i s
    let (b_addr, s) ← get_b (tableBlock i_num) s
    let block ← deref s.cache_b_queue b_addr
    let slot ← slotOf i_num
    let i_tmp : CacheItem Inode :=
      { id := s.next_id, c_item_num := i_num, dirty := s.fresh_dirty s.next_id, data := block.data.inode slot }
    some (⟨i_num, i_tmp.id⟩,
      { s with cache_i_queue := right_enqueue i_tmp s.cache_i_queue, next_id := s.next_id + 1 })

/-! ## Flushing -/

/-- The first loop of `handle_sync`. -/
def syncBlocks (s : Store) : Store :=
  s.cache_b_queue.foldl
    (fun s item => if item.dirty then WriteSector s item.c_item_num item.data else s) s

/-- One round of its second loop. -/
def syncInode (s : Store) (item : CacheItem Inode) : Option Store :=
  if item.dirty then do
    let b_num := tableBlock item.c_item_num
    let (p, s) ← get_b b_num s
    let block ← deref s.cache_b_queue p
    let slot ← slotOf item.c_item_num
    let v := block.data.setInode slot item.data
    let q ← assign s.cache_b_queue p v
    some (WriteSector { s with cache_b_queue := q } b_num v)
  else some s

def syncInodes (s : Store) : Option Store := s.cache_i_queue.foldlM syncInode s

end Cache

/-- Empty caches over a disk, as `make_free_lists` sets them up. -/
def emptyCaches (num_sectors : Int) (sectors : Int → Block) (fresh_dirty : Nat → Bool) : Store :=
  { num_sectors, sectors, cache_b_queue := [], cache_i_queue := [], next_id := 0, fresh_dirty }

/-! ## The logical view -/

/-- The cached buffer of `b`, else its sector. -/
def logicalBlock (s : Store) (b : Int) : Block :=
  match query_ht s.cache_b_queue b with
  | some item => item.data
  | none => s.sectors b

/-- The slot of `i` in its logical inode-table block. -/
def logicalSlot (s : Store) (i : Int) : Inode :=
  (logicalBlock s (tableBlock i)).inode (tableSlot i).toNat

/-- The cached copy of `i`, else its slot. -/
def logicalInode (s : Store) (i : Int) : Inode :=
  match query_ht s.cache_i_queue i with
  | some item => item.data
  | none => logicalSlot s i

end Yfs
