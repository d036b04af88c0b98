import Yfs.Layout

/-! # The pointers of the two caches

The queues and the hash tables, link by link. `none` as a result is what C leaves undefined, a failed assertion, or a loop that
never ends.
-/

namespace Yfs.Pointers

/-- Where `malloc` puts things. `NULL` is `none`. -/
abbrev Addr : Type := Nat

/-- What is allocated. -/
abbrev Heap (α : Type) : Type := AList fun _ : Addr => α

/-! ## Queues -/

/-- A `cache_item`, without its buffer. -/
structure CacheItem where
  c_item_num : Int
  dirty : Bool
  prev_c_item : Option Addr
  next_c_item : Option Addr

structure ItemQueue where
  q_first : Option Addr
  q_last : Option Addr

/-- The two queues, which `right_enqueue` tells apart. -/
inductive QueueName where
  | cache_b_queue
  | cache_i_queue
deriving DecidableEq

def left_dequeue (queue : ItemQueue) (items : Heap CacheItem) : Option (Option Addr × ItemQueue × Heap CacheItem) :=
  match queue.q_first with
  | none => some (none, queue, items)
  | some q_first => do
    let first ← items.lookup q_first
    let q_last := if first.next_c_item.isNone then none else queue.q_last
    let items := items.insert q_first { first with prev_c_item := none }
    match first.next_c_item with
    | none => some (some q_first, { q_first := none, q_last := q_last }, items)
    | some next => do
      let second ← items.lookup next
      some (some q_first, { q_first := some next, q_last := q_last }, items.insert next { second with prev_c_item := none })

def right_dequeue (queue : ItemQueue) (item : Addr) (items : Heap CacheItem) : Option (ItemQueue × Heap CacheItem) := do
  let it ← items.lookup item
  match it.prev_c_item with
  | none => do
    let (_, queue, items) ← left_dequeue queue items
    some (queue, items)
  | some prev => do
    let queue := if it.next_c_item.isNone then { queue with q_last := some prev } else queue
    let before ← items.lookup prev
    let items := items.insert prev { before with next_c_item := it.next_c_item }
    match it.next_c_item with
    | none => some (queue, items)
    | some next => do
      let after ← items.lookup next
      some (queue, items.insert next { after with prev_c_item := some prev })

def right_enqueue (item : Addr) (name : QueueName) (queue : ItemQueue) (items : Heap CacheItem) : Option (ItemQueue × Heap CacheItem) :=
  match queue.q_first with
  | none => do
    let it ← items.lookup item
    let it := if name = .cache_b_queue then { it with next_c_item := none } else it
    some ({ q_first := some item, q_last := some item }, items.insert item { it with prev_c_item := none })
  | some _ => do
    let last ← queue.q_last
    let before ← items.lookup last
    let items := items.insert last { before with next_c_item := some item }
    let it ← items.lookup item
    some ({ queue with q_last := some item }, items.insert item { it with prev_c_item := some last, next_c_item := none })

/-! ## Hash tables -/

/-- An `ht_map`. -/
structure HtMap (V : Type) where
  key : Int
  value : Option V
  next_inode : Option Addr

/-- The values of an `unsigned int`. -/
def UINT : Nat := 2 ^ 32

/-- A `struct ht`, and the nodes that it has allocated. -/
structure Table (V : Type) where
  head : Nat → Option Addr
  size : Nat
  num_used : Nat
  nodes : Heap (HtMap V)
  size_pos : 0 < size
  size_lt : size < UINT

section

variable {V : Type}

/-- As `make_free_lists` sets a table up. -/
def emptyTable (size : Nat) (hpos : 0 < size) (hlt : size < UINT) : Table V :=
  { head := fun _ => none, size := size, num_used := 0, nodes := ∅, size_pos := hpos, size_lt := hlt }

/-- `(unsigned int)(key % ht->size) % ht->size`, in which `key` is converted to `unsigned int`. -/
def Table.index (ht : Table V) (key : Int) : Nat := (key % UINT).toNat % ht.size % ht.size

/-- More steps than there are nodes would go around in a circle. -/
def Table.fuel (ht : Table V) : Nat := ht.nodes.keys.length

/-- The loop of `query_ht`. -/
def query_from (nodes : Heap (HtMap V)) (key : Int) : Nat → Option Addr → Option (Option V)
  | _, none => some none
  | 0, some _ => none
  | fuel + 1, some p => do
    let elem ← nodes.lookup p
    if elem.key = key then some elem.value else query_from nodes key fuel elem.next_inode

def query_ht (ht : Table V) (key : Int) : Option (Option V) := query_from ht.nodes key ht.fuel (ht.head (ht.index key))

/-- `elem` is what `malloc` returns. -/
def insert_ht (ht : Table V) (key : Int) (value : Option V) (elem : Option Addr) : Option (Int × Table V) := do
  let present ← query_ht ht key
  if present.isSome then none
  else if value.isNone then none
  else
    match elem with
    | none => some (-1, ht)
    | some elem =>
      let index := ht.index key
      some (0, { ht with
        nodes := ht.nodes.insert elem { key := key, value := value, next_inode := ht.head index }
        head := Function.update ht.head index (some elem)
        num_used := (ht.num_used + 1) % UINT })

/-- The loop of `evict_ht`. -/
def evict_from (ht : Table V) (key : Int) : Nat → (elem prev : Option Addr) → Option (Table V)
  | _, none, _ => some ht
  | 0, some _, _ => none
  | fuel + 1, some p, prev => do
    let elem ← ht.nodes.lookup p
    if elem.key = key then
      let index := ht.index key
      let unlinked ← if ht.head index = some p then some { ht with head := Function.update ht.head index elem.next_inode }
        else do
          let prev ← prev
          let before ← ht.nodes.lookup prev
          some { ht with nodes := ht.nodes.insert prev { before with next_inode := elem.next_inode } }
      some { unlinked with num_used := (ht.num_used + UINT - 1) % UINT, nodes := unlinked.nodes.erase p }
    else evict_from ht key fuel elem.next_inode (some p)

def evict_ht (ht : Table V) (key : Int) : Option (Table V) := evict_from ht key ht.fuel (ht.head (ht.index key)) none

end

/-! ## Caches -/

/-- `malloc` never fails. The `n`-th thing goes where nothing is, and an item comes with `leftover n` in it. -/
structure Malloc where
  place : Nat → List Addr → Addr
  fresh : ∀ n used, place n used ∉ used
  leftover : Nat → CacheItem

/-- A queue, its hash table and its counter, and the numbers asked for so far. -/
structure LinkedCache where
  queue : ItemQueue
  ht : Table Addr
  size : Int
  asked : List Int

/-- The two caches. A buffer lives and dies with its item, so a pointer to an item stands for one to its buffer. -/
structure Caches where
  items : Heap CacheItem
  b : LinkedCache
  i : LinkedCache
  mallocs : Nat

def Caches.used (c : Caches) : List Addr := c.items.keys ++ c.b.ht.nodes.keys ++ c.i.ht.nodes.keys

namespace LinkedCache

/-- An item that is asked for again. -/
def renew (c : LinkedCache) (name : QueueName) (item : Addr) (items : Heap CacheItem) : Option (LinkedCache × Heap CacheItem) := do
  let (queue, items) ← right_dequeue c.queue item items
  let (queue, items) ← right_enqueue item name queue items
  some ({ c with queue := queue }, items)

/-- The end of `get_b` and of `get_i`: the new item `it`, at `item`, and its node, at `elem`. -/
def add (c : LinkedCache) (name : QueueName) (item elem : Addr) (it : CacheItem) (items : Heap CacheItem) :
    Option (LinkedCache × Heap CacheItem) := do
  let (queue, items) ← right_enqueue item name c.queue (items.insert item it)
  let (_, ht) ← insert_ht c.ht it.c_item_num (some item) (some elem)
  some ({ c with queue := queue, ht := ht, size := c.size + 1 }, items)

/-- The start of `evict_b` and of `evict_i`: the oldest item leaves the cache. -/
def drop (c : LinkedCache) (items : Heap CacheItem) : Option (Addr × LinkedCache × Heap CacheItem) := do
  let (lru, queue, items) ← left_dequeue c.queue items
  let lru ← lru
  let it ← items.lookup lru
  let ht ← evict_ht c.ht it.c_item_num
  some (lru, { c with queue := queue, ht := ht, size := c.size - 1 }, items)

end LinkedCache

def evict_b (c : Caches) : Option Caches := do
  let (lrub_tmp, b, items) ← c.b.drop c.items
  some { c with b := b, items := items.erase lrub_tmp }

/-- Evict the oldest block if the cache is full. -/
def makeRoom_b (c : Caches) : Option Caches := if c.b.size = (BLOCK_CACHESIZE : Int) then evict_b c else some c

def get_b (m : Malloc) (b_num : Int) (c : Caches) : Option (Addr × Caches) := do
  let c := { c with b := { c.b with asked := c.b.asked ++ [b_num] } }
  match ← query_ht c.b.ht b_num with
  | some b_tmp => do
    let (b, items) ← c.b.renew .cache_b_queue b_tmp c.items
    some (b_tmp, { c with b := b, items := items })
  | none => do
    let c ← makeRoom_b c
    let c_tmp := m.place c.mallocs c.used
    let elem := m.place (c.mallocs + 1) (c_tmp :: c.used)
    let it := { m.leftover c.mallocs with c_item_num := b_num, dirty := false }
    let (b, items) ← c.b.add .cache_b_queue c_tmp elem it c.items
    some (c_tmp, { c with b := b, items := items, mallocs := c.mallocs + 2 })

def evict_i (m : Malloc) (c : Caches) : Option Caches := do
  let (lru_i, i, items) ← c.i.drop c.items
  let c := { c with i := i, items := items }
  let it ← c.items.lookup lru_i
  let lru_b_num := tableBlock it.c_item_num
  let (_, c) ← get_b m lru_b_num c
  let tmpb_tmp ← query_ht c.b.ht lru_b_num
  let tmpb_tmp ← tmpb_tmp
  let block ← c.items.lookup tmpb_tmp
  some { c with items := (c.items.insert tmpb_tmp { block with dirty := true }).erase lru_i }

/-- Evict the oldest inode if the cache is full. -/
def makeRoom_i (m : Malloc) (c : Caches) : Option Caches := if c.i.size = (INODE_CACHESIZE : Int) then evict_i m c else some c

def get_i (m : Malloc) (i_num : Int) (c : Caches) : Option (Addr × Caches) := do
  let c := { c with i := { c.i with asked := c.i.asked ++ [i_num] } }
  match ← query_ht c.i.ht i_num with
  | some c_i_tmp => do
    let (i, items) ← c.i.renew .cache_i_queue c_i_tmp c.items
    some (c_i_tmp, { c with i := i, items := items })
  | none => do
    let c ← makeRoom_i m c
    let (_, c) ← get_b m (tableBlock i_num) c
    let i_tmp := m.place c.mallocs c.used
    let elem := m.place (c.mallocs + 1) (i_tmp :: c.used)
    let it := { m.leftover c.mallocs with c_item_num := i_num }
    let (i, items) ← c.i.add .cache_i_queue i_tmp elem it c.items
    some (i_tmp, { c with i := i, items := items, mallocs := c.mallocs + 2 })

/-- As `make_free_lists` sets the caches up. -/
def noCaches : Caches :=
  { items := ∅
    b := { queue := { q_first := none, q_last := none }, ht := emptyTable (BLOCK_CACHESIZE + 1) (by decide) (by decide), size := 0, asked := [] }
    i := { queue := { q_first := none, q_last := none }, ht := emptyTable (INODE_CACHESIZE + 1) (by decide) (by decide), size := 0, asked := [] }
    mallocs := 0 }

end Yfs.Pointers
