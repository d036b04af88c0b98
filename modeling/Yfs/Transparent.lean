import Yfs.StoreProofs

/-! # The two caches are transparent

A client calls `get_b` and `get_i` and overwrites what a call has just returned. It sees what it would
see over a disk without caches.
-/

namespace Yfs

open Cache

/-- One call, and the value the client then stores through the pointer, if any. -/
inductive Access where
  | block (b : Int) (v : Option Block)
  | inode (i : Int) (v : Option Inode)

/-- What a call returns. -/
inductive Seen where
  | block (v : Block)
  | inode (v : Inode)

/-- The numbers are on the disk, and table blocks are overwritten only through `get_i`. -/
def Access.valid (g : Geometry) : Access → Prop
  | .block b v => 0 ≤ b ∧ b < g.sectors ∧ (v.isSome → ¬ g.isTable b)
  | .inode i _ => g.isInode i

def overwrite {α : Type} (q : CacheQueue α) (p : Ptr) : Option α → Option (CacheQueue α)
  | none => some q
  | some v => assign q p v

def access (s : Store) : Access → Option (Seen × Store)
  | .block b v => do
    let (p, s) ← Cache.get_b b s
    let item ← deref s.cache_b_queue p
    let q ← overwrite s.cache_b_queue p v
    some (.block item.data, { s with cache_b_queue := q })
  | .inode i v => do
    let (p, s) ← Cache.get_i i s
    let item ← deref s.cache_i_queue p
    let q ← overwrite s.cache_i_queue p v
    some (.inode item.data, { s with cache_i_queue := q })

def accesses (s : Store) : List Access → Option (List Seen × Store)
  | [] => some ([], s)
  | a :: l => do
    let (x, s) ← access s a
    let (xs, s) ← accesses s l
    some (x :: xs, s)

/-! ## The store without caches -/

namespace Uncached

/-- Every inode is its slot in its inode-table block. -/
def inode (d : Int → Block) (i : Int) : Inode := (d (tableBlock i)).inode (tableSlot i).toNat

def access (d : Int → Block) : Access → Seen × (Int → Block)
  | .block b v => (.block (d b), v.elim d (Function.update d b))
  | .inode i v =>
    (.inode (inode d i), v.elim d fun v =>
      Function.update d (tableBlock i) ((d (tableBlock i)).setInode (tableSlot i).toNat v))

def accesses (d : Int → Block) : List Access → List Seen × (Int → Block)
  | [] => ([], d)
  | a :: l => ((access d a).1 :: (accesses (access d a).2 l).1, (accesses (access d a).2 l).2)

end Uncached

/-- What `get_b` shows of an inode-table block is not compared. -/
def shown (g : Geometry) (a : Access) (x : Seen) : Option Seen :=
  match a with
  | .block b _ => if g.isTable b then none else some x
  | .inode _ _ => some x

/-! ## The simulation -/

/-- The caches over their disk show the uncached disk `d`. -/
structure Shows (g : Geometry) (s : Store) (d : Int → Block) : Prop where
  blocks : BlocksOk s
  inodes : InodesOk g s
  sectors : s.num_sectors = g.sectors
  view_b : ∀ b, ¬ g.isTable b → logicalBlock s b = d b
  view_i : ∀ i, g.isInode i → logicalInode s i = Uncached.inode d i

theorem shows_empty (g : Geometry) (d : Int → Block) (fresh : Nat → Bool) :
    Shows g (emptyCaches g.sectors d fresh) d := by
  refine ⟨⟨List.nodup_nil, by simp [emptyCaches], by simp [emptyCaches]⟩,
    ⟨List.nodup_nil, by simp [emptyCaches], by simp [emptyCaches]⟩, rfl, fun _ _ => rfl, fun _ _ => rfl⟩

theorem Shows.step {g : Geometry} {s s' : Store} {d : Int → Block} (h : Shows g s d) (hs : InodeStep g s s') :
    Shows g s' d :=
  ⟨hs.blocks, hs.inodes, hs.sectors.trans h.sectors, fun b hb => (hs.view_b b hb).trans (h.view_b b hb),
    fun i hi => (hs.view_i i hi).trans (h.view_i i hi)⟩

theorem Shows.overwrite_b {g : Geometry} {s : Store} {d : Int → Block} {p : Ptr} {v : Option Block}
    {q : CacheQueue Block} (h : Shows g s d) (hv : v.isSome → ¬ g.isTable p.num)
    (hq : overwrite s.cache_b_queue p v = some q) :
    Shows g { s with cache_b_queue := q } (v.elim d (Function.update d p.num)) := by
  cases v with
  | none => obtain rfl := Option.some.inj hq; exact h
  | some v =>
    have hp : ¬ g.isTable p.num := hv rfl
    have hview := logicalBlock_assign (s := s) (p := p) (v := v) hq
    refine ⟨h.blocks.of_nums (assign_nums hq), ⟨h.inodes.distinct, h.inodes.range, h.inodes.size⟩, h.sectors, ?_, ?_⟩
    · intro b hb
      rw [hview, h.view_b b hb]
      simp only [Option.elim_some, Function.update_apply]
    · intro i hi
      have hne : tableBlock i ≠ p.num := fun he => hp (he ▸ Geometry.isTable_tableBlock hi)
      have hslot : logicalSlot { s with cache_b_queue := q } i = logicalSlot s i := by
        rw [logicalSlot, hview, if_neg hne, logicalSlot]
      have hold := h.view_i i hi
      simp only [logicalInode, hslot, Uncached.inode, Option.elim_some, Function.update_of_ne hne] at hold ⊢
      exact hold

theorem Shows.overwrite_i {g : Geometry} {s : Store} {d : Int → Block} {p : Ptr} {v : Option Inode}
    {q : CacheQueue Inode} (h : Shows g s d) (hp : g.isInode p.num)
    (hq : overwrite s.cache_i_queue p v = some q) :
    Shows g { s with cache_i_queue := q } (v.elim d fun v =>
      Function.update d (tableBlock p.num) ((d (tableBlock p.num)).setInode (tableSlot p.num).toNat v)) := by
  cases v with
  | none => obtain rfl := Option.some.inj hq; exact h
  | some v =>
    refine ⟨⟨h.blocks.distinct, h.blocks.range, h.blocks.size⟩, h.inodes.of_nums (assign_nums hq), h.sectors, ?_, ?_⟩
    · intro b hb
      have hne : b ≠ tableBlock p.num := fun he => hb (he ▸ Geometry.isTable_tableBlock hp)
      simp only [Option.elim_some, Function.update_of_ne hne]
      exact h.view_b b hb
    · intro i hi
      have hold := h.view_i i hi
      have hslot : logicalSlot { s with cache_i_queue := q } i = logicalSlot s i := rfl
      simp only [logicalInode, query_assign hq i, hslot, Uncached.inode, Option.elim_some] at hold ⊢
      by_cases hip : i = p.num
      · obtain ⟨item, hitem⟩ := assign_deref hq
        simp only [hip, if_true, deref_query hitem, Option.map_some, Function.update_self]
        rw [Block.inode_setInode_same _ _ _ (tableSlot_lt hp.1)]
      · rw [if_neg hip, hold]
        by_cases hb : tableBlock i = tableBlock p.num
        · have hne : (tableSlot p.num).toNat ≠ (tableSlot i).toNat := fun he =>
            hip (table_inj hi.1 hp.1 hb he.symm)
          rw [hb, Function.update_self, Block.inode_setInode_ne _ _ _ _ hne (tableSlot_lt hi.1)]
        · rw [Function.update_of_ne hb]

/-- One call over the caches answers as the disk without caches does. -/
theorem access_shows {g : Geometry} {s : Store} {d : Int → Block} {a : Access} (h : Shows g s d)
    (ha : a.valid g) :
    ∃ x s', access s a = some (x, s') ∧ shown g a x = shown g a (Uncached.access d a).1 ∧
      Shows g s' (Uncached.access d a).2 := by
  cases a with
  | block b v =>
    obtain ⟨h0, h1, hv⟩ := ha
    have hsec : s.isSector b := ⟨h0, by rw [h.sectors]; exact h1⟩
    obtain ⟨p, t, hg⟩ := get_b_total h.blocks hsec
    obtain ⟨rfl, _, hstep, item, hitem, hdata⟩ := get_b_spec h.blocks hg
    have ht := h.step (hstep.inodeStep h.inodes)
    obtain ⟨q, hq⟩ : ∃ q, overwrite t.cache_b_queue p v = some q := by
      cases v with
      | none => exact ⟨_, rfl⟩
      | some v => exact assign_total hitem v
    refine ⟨_, _, by simp only [access, hg, hitem, hq, Option.bind_eq_bind, Option.bind_some]; exact rfl, ?_,
      ht.overwrite_b hv hq⟩
    simp only [shown, Uncached.access, hdata]
    split
    case isTrue => rfl
    case isFalse hb => rw [h.view_b _ hb]
  | inode i v =>
    have hi : g.isInode i := ha
    obtain ⟨p, t, hg⟩ := get_i_total h.blocks h.inodes h.sectors hi
    obtain ⟨rfl, hstep, item, hitem, hdata⟩ := get_i_spec h.blocks h.inodes hi hg
    have ht := h.step hstep
    obtain ⟨q, hq⟩ : ∃ q, overwrite t.cache_i_queue p v = some q := by
      cases v with
      | none => exact ⟨_, rfl⟩
      | some v => exact assign_total hitem v
    refine ⟨_, _, by simp only [access, hg, hitem, hq, Option.bind_eq_bind, Option.bind_some]; exact rfl, ?_,
      ht.overwrite_i hi hq⟩
    simp only [shown, Uncached.access, hdata, h.view_i _ hi]

theorem accesses_shows {g : Geometry} {l : List Access} {s : Store} {d : Int → Block} (h : Shows g s d)
    (hl : ∀ a ∈ l, a.valid g) :
    ∃ xs s', accesses s l = some (xs, s') ∧
      List.zipWith (shown g) l xs = List.zipWith (shown g) l (Uncached.accesses d l).1 ∧
      xs.length = l.length ∧ Shows g s' (Uncached.accesses d l).2 := by
  induction l generalizing s d with
  | nil => exact ⟨[], s, rfl, rfl, rfl, h⟩
  | cons a l ih =>
    obtain ⟨x, t, ha, hx, ht⟩ := access_shows h (hl a List.mem_cons_self)
    obtain ⟨xs, u, hu, hxs, hlen, hu'⟩ := ih ht fun b hb => hl b (List.mem_cons_of_mem _ hb)
    refine ⟨x :: xs, u, ?_, ?_, by simp [hlen], hu'⟩
    · simp only [accesses, ha, hu, Option.bind_eq_bind, Option.bind_some]
    · simp only [Uncached.accesses, List.zipWith_cons_cons, hx, hxs]

/-- **The cache is transparent.** From empty caches every call returns, and shows what the uncached disk
shows. The logical blocks and inodes end up as the uncached disk has them. -/
theorem cache_transparent (g : Geometry) (d : Int → Block) (fresh : Nat → Bool) (l : List Access)
    (hl : ∀ a ∈ l, a.valid g) :
    ∃ xs s, accesses (emptyCaches g.sectors d fresh) l = some (xs, s) ∧ xs.length = l.length ∧
      List.zipWith (shown g) l xs = List.zipWith (shown g) l (Uncached.accesses d l).1 ∧
      (∀ b, ¬ g.isTable b → logicalBlock s b = (Uncached.accesses d l).2 b) ∧
      ∀ i, g.isInode i → logicalInode s i = Uncached.inode (Uncached.accesses d l).2 i := by
  obtain ⟨xs, s, h1, h2, h3, h4⟩ := accesses_shows (shows_empty g d fresh) hl
  exact ⟨xs, s, h1, h3, h2, h4.view_b, h4.view_i⟩

/-- An overwritten inode survives its eviction. -/
theorem cache_transparent_evicted : ∃ xs s,
    accesses (emptyCaches 9 (fun _ => Mem.zero) fun _ => false)
      (.inode 1 (some (Inode.set Mem.zero .nlink 5)) :: (List.range 16).map fun k => .inode (2 + (k : Int)) none) =
        some (xs, s) ∧ logicalInode s 1 = Inode.set Mem.zero .nlink 5 := by
  obtain ⟨xs, s, hrun, _, _, _, hview⟩ := cache_transparent ⟨3, 9, 24, by decide, by decide, by decide, by decide⟩ (fun _ => Mem.zero)
    (fun _ => false) (.inode 1 (some (Inode.set Mem.zero .nlink 5)) :: (List.range 16).map fun k => .inode (2 + (k : Int)) none)
    (by simp [Access.valid, Geometry.isInode]; omega)
  refine ⟨xs, s, hrun, (hview 1 (by decide)).trans ?_⟩
  exact Block.inode_setInode_same _ _ _ (by decide)

end Yfs
