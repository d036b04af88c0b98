import Yfs.StoreProofs

/-! # The server's programs

A handler is a `Prog`: a sequence of calls to the caches, of reads and stores through the pointers they
return, of dirty marks and of accesses to the free lists.
-/

namespace Yfs

/-- The global variables besides the caches. -/
structure Globals where
  /-- `i_head`, `b_head`: the free lists, first entry first. -/
  i_head : List Int
  b_head : List Int
  free_i_count : Int
  free_b_count : Int

structure Server extends Globals where
  store : Store

inductive Cmd where
  | get_b (b_num : Int)
  | get_i (i_num : Int)
  | readBlock (p : Ptr)
  | writeBlock (p : Ptr) (v : Block)
  | readInode (p : Ptr)
  | writeInode (p : Ptr) (v : Inode)
  /-- `query_ht(b_ht, b_num)->dirty = true` -/
  | dirtyBlock (b_num : Int)
  | dirtyInode (i_num : Int)
  | globals
  | setGlobals (v : Globals)

abbrev Cmd.Ret : Cmd → Type
  | .get_b _ => Ptr
  | .get_i _ => Ptr
  | .readBlock _ => Block
  | .readInode _ => Inode
  | .globals => Globals
  | _ => Unit

inductive Prog (α : Type) : Type where
  | ret (a : α)
  /-- Undefined behaviour. -/
  | undef
  | call (c : Cmd) (k : c.Ret → Prog α)

namespace Prog

def bind {α β : Type} : Prog α → (α → Prog β) → Prog β
  | .ret a, f => f a
  | .undef, _ => .undef
  | .call c k, f => .call c fun r => (k r).bind f

instance : Monad Prog where
  pure := .ret
  bind := bind

variable {α β : Type}

@[simp]
theorem pure_eq (a : α) : (pure a : Prog α) = .ret a := rfl

@[simp]
theorem ret_bind (a : α) (f : α → Prog β) : (Prog.ret a >>= f) = f a := rfl

@[simp]
theorem undef_bind (f : α → Prog β) : (Prog.undef >>= f) = .undef := rfl

@[simp]
theorem call_bind (c : Cmd) (k : c.Ret → Prog α) (f : α → Prog β) :
    (Prog.call c k >>= f) = .call c fun r => k r >>= f := rfl

theorem bind_assoc {γ : Type} (p : Prog α) (f : α → Prog β) (h : β → Prog γ) : ((p >>= f) >>= h) = (p >>= fun a => f a >>= h) := by
  induction p with
  | ret => rfl
  | undef => rfl
  | call c k ih => simp only [call_bind, ih]

/-- A single command. -/
def cmd (c : Cmd) : Prog c.Ret := .call c .ret

end Prog

open Prog (cmd)

def get_b (b_num : Int) : Prog Ptr := cmd (.get_b b_num)
def get_i (i_num : Int) : Prog Ptr := cmd (.get_i i_num)
def readBlock (p : Ptr) : Prog Block := cmd (.readBlock p)
def writeBlock (p : Ptr) (v : Block) : Prog Unit := cmd (.writeBlock p v)
def readInode (p : Ptr) : Prog Inode := cmd (.readInode p)
def writeInode (p : Ptr) (v : Inode) : Prog Unit := cmd (.writeInode p v)
def dirtyBlock (b_num : Int) : Prog Unit := cmd (.dirtyBlock b_num)
def dirtyInode (i_num : Int) : Prog Unit := cmd (.dirtyInode i_num)
def globals : Prog Globals := cmd .globals
def setGlobals (v : Globals) : Prog Unit := cmd (.setGlobals v)

/-! ## Running a program -/

def exec (sv : Server) : (c : Cmd) → Option (c.Ret × Server)
  | .get_b b => (Cache.get_b b sv.store).map fun r => (r.1, { sv with store := r.2 })
  | .get_i i => (Cache.get_i i sv.store).map fun r => (r.1, { sv with store := r.2 })
  | .readBlock p => (deref sv.store.cache_b_queue p).map fun item => (item.data, sv)
  | .writeBlock p v =>
    (assign sv.store.cache_b_queue p v).map fun q => ((), { sv with store.cache_b_queue := q })
  | .readInode p => (deref sv.store.cache_i_queue p).map fun item => (item.data, sv)
  | .writeInode p v =>
    (assign sv.store.cache_i_queue p v).map fun q => ((), { sv with store.cache_i_queue := q })
  | .dirtyBlock b =>
    (markDirty sv.store.cache_b_queue b).map fun q => ((), { sv with store.cache_b_queue := q })
  | .dirtyInode i =>
    (markDirty sv.store.cache_i_queue i).map fun q => ((), { sv with store.cache_i_queue := q })
  | .globals => some (sv.toGlobals, sv)
  | .setGlobals v => some ((), { sv with toGlobals := v })

/-- `none` is undefined behaviour: a freed item, a null pointer, a sector or a slot that is not there. -/
def run {α : Type} : Prog α → Server → Option (α × Server)
  | .ret a, sv => some (a, sv)
  | .undef, _ => none
  | .call c k, sv =>
    match exec sv c with
    | none => none
    | some (r, sv') => run (k r) sv'

/-! ## The logical file system -/

/-- The inodes and the blocks, whichever of cache and disk holds them. -/
structure View where
  inode : Int → Inode
  block : Int → Block

namespace View

def setInode (v : View) (i : Int) (ino : Inode) : View := { v with inode := Function.update v.inode i ino }
def setBlock (v : View) (b : Int) (blk : Block) : View := { v with block := Function.update v.block b blk }

end View

/-- What the server holds. -/
structure FS extends Globals, View where
  /-- Changed since the last mark: `dirty` may be unset. -/
  unmarked_i : Int → Prop
  unmarked_b : Int → Prop

namespace FS

def setInode (σ : FS) (i : Int) (ino : Inode) : FS :=
  { σ with
    toView := σ.toView.setInode i ino
    unmarked_i := fun j => σ.unmarked_i j ∨ j = i ∧ σ.inode i ≠ ino }

def setBlock (σ : FS) (b : Int) (blk : Block) : FS :=
  { σ with
    toView := σ.toView.setBlock b blk
    unmarked_b := fun c => σ.unmarked_b c ∨ c = b ∧ σ.block b ≠ blk }

def markInode (σ : FS) (i : Int) : FS := { σ with unmarked_i := fun j => j ≠ i ∧ σ.unmarked_i j }
def markBlock (σ : FS) (b : Int) : FS := { σ with unmarked_b := fun c => c ≠ b ∧ σ.unmarked_b c }

end FS

/-- `σ` is what `sv` shows. -/
structure Rel (g : Geometry) (sv : Server) (σ : FS) : Prop where
  blocks : BlocksOk sv.store
  inodes : InodesOk g sv.store
  sectors : sv.store.num_sectors = g.sectors
  globals : sv.toGlobals = σ.toGlobals
  view_b : ∀ b, ¬ g.isTable b → logicalBlock sv.store b = σ.block b
  view_i : ∀ i, g.isInode i → logicalInode sv.store i = σ.inode i
  marked_b : MarkedBlocks sv.store σ.unmarked_b
  marked_i : MarkedInodes sv.store σ.unmarked_i

/-! ## Weakest preconditions -/

/-- What must hold of the logical file system before `c`, for `Q` after it. Undefined behaviour promises
anything. An inode outside the table, and the raw bytes of the table, are out of bounds. -/
def Cmd.wp (g : Geometry) (σ : FS) : (c : Cmd) → (c.Ret → FS → Prop) → Prop
  | .get_b b, Q => 0 ≤ b → b < g.sectors → ∀ id, Q ⟨b, id⟩ σ
  | .get_i i, Q => ¬ (-8 < i ∧ i < 0) → g.isInode i ∧ ∀ id, Q ⟨i, id⟩ σ
  | .readBlock p, Q => ¬ g.isTable p.num ∧ Q (σ.block p.num) σ
  | .writeBlock p v, Q => ¬ g.isTable p.num ∧ Q () (σ.setBlock p.num v)
  | .readInode p, Q => Q (σ.inode p.num) σ
  | .writeInode p v, Q => Q () (σ.setInode p.num v)
  | .dirtyBlock b, Q => Q () (σ.markBlock b)
  | .dirtyInode i, Q => Q () (σ.markInode i)
  | .globals, Q => Q σ.toGlobals σ
  | .setGlobals v, Q => Q () { σ with toGlobals := v }

def wp {α : Type} (g : Geometry) : Prog α → FS → (α → FS → Prop) → Prop
  | .ret a, σ, Q => Q a σ
  | .undef, _, _ => True
  | .call c k, σ, Q => c.wp g σ fun r σ' => wp g (k r) σ' Q

theorem Cmd.wp_mono {g : Geometry} {c : Cmd} {Q Q' : c.Ret → FS → Prop} {σ : FS}
    (h : ∀ r σ', Q r σ' → Q' r σ') (hw : c.wp g σ Q) : c.wp g σ Q' := by
  cases c with
  | get_b b => exact fun h0 h1 id => h _ _ (hw h0 h1 id)
  | get_i i => exact fun hn => ⟨(hw hn).1, fun id => h _ _ ((hw hn).2 id)⟩
  | readBlock p => exact ⟨hw.1, h _ _ hw.2⟩
  | writeBlock p v => exact ⟨hw.1, h _ _ hw.2⟩
  | _ => exact h _ _ hw

theorem wp_mono {α : Type} {g : Geometry} {p : Prog α} {Q Q' : α → FS → Prop} {σ : FS}
    (h : ∀ a σ', Q a σ' → Q' a σ') (hw : wp g p σ Q) : wp g p σ Q' := by
  induction p generalizing σ with
  | ret a => exact h _ _ hw
  | undef => trivial
  | call c k ih => exact Cmd.wp_mono (fun r σ' hr => ih r hr) hw

/-- The rule for sequencing. -/
theorem wp_bind {α β : Type} {g : Geometry} {p : Prog α} {f : α → Prog β} {Q : β → FS → Prop} {σ : FS} :
    wp g (p >>= f) σ Q ↔ wp g p σ (fun a σ' => wp g (f a) σ' Q) := by
  induction p generalizing σ with
  | ret a => rfl
  | undef => rfl
  | call c k ih =>
    constructor
    · exact Cmd.wp_mono fun r σ' hr => (ih r).mp hr
    · exact Cmd.wp_mono fun r σ' hr => (ih r).mpr hr

section Rules

variable {α : Type} {g : Geometry} {Q : α → FS → Prop} {σ : FS} {p : Ptr}

@[simp]
theorem wp_ret (a : α) : wp g (.ret a) σ Q ↔ Q a σ := ⟨id, id⟩

theorem wp_call {c : Cmd} {k : c.Ret → Prog α} :
    wp g (.call c k) σ Q ↔ c.wp g σ fun r σ' => wp g (k r) σ' Q := ⟨id, id⟩

@[simp]
theorem wp_undef : wp g .undef σ Q ↔ True := ⟨id, id⟩

@[simp]
theorem wp_ite {c : Prop} [Decidable c] {a b : Prog α} :
    wp g (if c then a else b) σ Q ↔ (c → wp g a σ Q) ∧ (¬ c → wp g b σ Q) := by
  split <;> simp_all

@[simp]
theorem wp_get_b {b : Int} {Q : Ptr → FS → Prop} :
    wp g (get_b b) σ Q ↔ (0 ≤ b → b < g.sectors → ∀ id, Q ⟨b, id⟩ σ) := ⟨id, id⟩

@[simp]
theorem wp_get_i {i : Int} {Q : Ptr → FS → Prop} :
    wp g (get_i i) σ Q ↔ (¬ (-8 < i ∧ i < 0) → g.isInode i ∧ ∀ id, Q ⟨i, id⟩ σ) := ⟨id, id⟩

@[simp]
theorem wp_readBlock {Q : Block → FS → Prop} :
    wp g (readBlock p) σ Q ↔ ¬ g.isTable p.num ∧ Q (σ.block p.num) σ := ⟨id, id⟩

@[simp]
theorem wp_writeBlock {v : Block} {Q : Unit → FS → Prop} :
    wp g (writeBlock p v) σ Q ↔ ¬ g.isTable p.num ∧ Q () (σ.setBlock p.num v) := ⟨id, id⟩

@[simp]
theorem wp_readInode {Q : Inode → FS → Prop} : wp g (readInode p) σ Q ↔ Q (σ.inode p.num) σ := ⟨id, id⟩

@[simp]
theorem wp_writeInode {v : Inode} {Q : Unit → FS → Prop} :
    wp g (writeInode p v) σ Q ↔ Q () (σ.setInode p.num v) := ⟨id, id⟩

@[simp]
theorem wp_dirtyBlock {b : Int} {Q : Unit → FS → Prop} :
    wp g (dirtyBlock b) σ Q ↔ Q () (σ.markBlock b) := ⟨id, id⟩

@[simp]
theorem wp_dirtyInode {i : Int} {Q : Unit → FS → Prop} :
    wp g (dirtyInode i) σ Q ↔ Q () (σ.markInode i) := ⟨id, id⟩

@[simp]
theorem wp_globals {Q : Globals → FS → Prop} : wp g globals σ Q ↔ Q σ.toGlobals σ := ⟨id, id⟩

@[simp]
theorem wp_setGlobals {v : Globals} {Q : Unit → FS → Prop} :
    wp g (setGlobals v) σ Q ↔ Q () { σ with toGlobals := v } := ⟨id, id⟩

end Rules

/-! ## The rules are sound -/

theorem Rel.step {g : Geometry} {sv : Server} {σ : FS} {s' : Store} (h : Rel g sv σ)
    (hs : InodeStep g sv.store s') : Rel g { sv with store := s' } σ :=
  ⟨hs.blocks, hs.inodes, hs.sectors.trans h.sectors, h.globals,
    fun b hb => (hs.view_b b hb).trans (h.view_b b hb), fun i hi => (hs.view_i i hi).trans (h.view_i i hi),
    hs.marked_b _ h.marked_b, hs.marked_i _ h.marked_i⟩

/-- `get_i` cannot return for a slot that starts before its block. -/
theorem get_i_negative {g : Geometry} {s : Store} {i : Int} (hi : InodesOk g s) (h : -8 < i ∧ i < 0) :
    Cache.get_i i s = none := by
  have hslot : Cache.slotOf i = none := by
    have hd : Int.tdiv BLOCKSIZE INODESIZE = 8 := by decide
    have h0 : Int.tdiv i 8 = 0 := by
      rw [← Int.neg_neg i, Int.neg_tdiv, Int.tdiv_eq_ediv_of_nonneg (by omega)]
      omega
    rw [Cache.slotOf, tableSlot, tableBlock, hd, h0, if_neg (by omega)]
  unfold Cache.get_i
  split
  case h_1 item hq =>
    obtain ⟨hm, rfl⟩ := Queue.lookup_mem hq
    have := (hi.range item hm).1
    omega
  case h_2 =>
    simp only [hslot, Option.bind_eq_bind, Option.bind_none]
    rcases Cache.makeRoom_i s with _ | t
    · rfl
    · simp only [Option.bind_some]
      rcases Cache.get_b (tableBlock i) t with _ | ⟨p, u⟩
      · rfl
      · simp only [Option.bind_some]
        rcases deref u.cache_b_queue p with _ | item <;> rfl

theorem Rel.writeBlock {g : Geometry} {sv : Server} {σ : FS} {p : Ptr} {v : Block} {q : CacheQueue Block}
    (h : Rel g sv σ) (hp : ¬ g.isTable p.num) (hq : assign sv.store.cache_b_queue p v = some q) :
    Rel g { sv with store.cache_b_queue := q } (σ.setBlock p.num v) := by
  have hview := logicalBlock_assign hq
  have hslot : ∀ i, g.isInode i → logicalSlot { sv.store with cache_b_queue := q } i = logicalSlot sv.store i := by
    intro i hi
    have hne : tableBlock i ≠ p.num := fun he => hp (he ▸ Geometry.isTable_tableBlock hi)
    rw [logicalSlot, hview, if_neg hne, logicalSlot]
  refine ⟨h.blocks.of_nums (assign_nums hq), ⟨h.inodes.distinct, h.inodes.range, h.inodes.size⟩, h.sectors,
    h.globals, ?_, ?_, ?_, ?_⟩
  · intro b hb
    rw [hview, h.view_b b hb]
    simp only [FS.setBlock, View.setBlock, Function.update_apply]
  · intro i hi
    have hold := h.view_i i hi
    simp only [logicalInode, hslot i hi] at hold ⊢
    exact hold
  · have := marked_assign_b hq h.marked_b h.blocks
    rwa [h.view_b _ hp] at this
  · intro x hx hne
    rw [hslot _ (h.inodes.range x hx)] at hne
    exact h.marked_i x hx hne

theorem Rel.writeInode {g : Geometry} {sv : Server} {σ : FS} {p : Ptr} {v : Inode} {q : CacheQueue Inode}
    (h : Rel g sv σ) (hq : assign sv.store.cache_i_queue p v = some q) :
    Rel g { sv with store.cache_i_queue := q } (σ.setInode p.num v) := by
  obtain ⟨item, hitem⟩ := assign_deref hq
  obtain ⟨hm, hnum⟩ := deref_mem hitem
  have hp : g.isInode p.num := hnum ▸ h.inodes.range item hm
  refine ⟨⟨h.blocks.distinct, h.blocks.range, h.blocks.size⟩, h.inodes.of_nums (assign_nums hq), h.sectors, h.globals,
    h.view_b, ?_, h.marked_b, ?_⟩
  · intro i hi
    have hold := h.view_i i hi
    have hslot : logicalSlot { sv.store with cache_i_queue := q } i = logicalSlot sv.store i := rfl
    simp only [logicalInode, query_assign hq i, hslot, FS.setInode, View.setInode] at hold ⊢
    by_cases hip : i = p.num
    · simp [hip, deref_query hitem]
    · rw [if_neg hip, Function.update_of_ne hip, hold]
  · intro x hx hne
    obtain ⟨y, hy, h1, h2, h3⟩ := mem_assign hq hx
    have hslot : logicalSlot { sv.store with cache_i_queue := q } x.c_item_num =
      logicalSlot sv.store x.c_item_num := rfl
    rw [hslot] at hne
    rw [h1, h2]
    simp only [h1, h3] at hne
    split at hne
    case isTrue hyp =>
      by_cases hv : σ.inode p.num = v
      · rw [← hv, ← hyp, ← h.view_i _ (h.inodes.range y hy), logicalInode_cached h.inodes hy] at hne
        exact (h.marked_i y hy hne).imp_right Or.inl
      · exact Or.inr (Or.inr ⟨hyp, hv⟩)
    case isFalse => exact (h.marked_i y hy hne).imp_right Or.inl

theorem Rel.dirtyBlock {g : Geometry} {sv : Server} {σ : FS} {b : Int} {q : CacheQueue Block}
    (h : Rel g sv σ) (hq : markDirty sv.store.cache_b_queue b = some q) :
    Rel g { sv with store.cache_b_queue := q } (σ.markBlock b) := by
  have hview := logicalBlock_markDirty hq
  have hslot : ∀ i, logicalSlot { sv.store with cache_b_queue := q } i = logicalSlot sv.store i := by
    intro i; rw [logicalSlot, hview, logicalSlot]
  refine ⟨h.blocks.of_nums (markDirty_nums hq), ⟨h.inodes.distinct, h.inodes.range, h.inodes.size⟩, h.sectors,
    h.globals, fun c hc => (hview c).trans (h.view_b c hc), ?_, marked_markDirty_b hq h.marked_b, ?_⟩
  · intro i hi
    have hold := h.view_i i hi
    simp only [logicalInode, hslot] at hold ⊢
    exact hold
  · intro x hx hne
    rw [hslot] at hne
    exact h.marked_i x hx hne

theorem Rel.dirtyInode {g : Geometry} {sv : Server} {σ : FS} {i : Int} {q : CacheQueue Inode}
    (h : Rel g sv σ) (hq : markDirty sv.store.cache_i_queue i = some q) :
    Rel g { sv with store.cache_i_queue := q } (σ.markInode i) := by
  refine ⟨⟨h.blocks.distinct, h.blocks.range, h.blocks.size⟩, h.inodes.of_nums (markDirty_nums hq), h.sectors, h.globals,
    h.view_b, ?_, h.marked_b, ?_⟩
  · intro j hj
    have hold := h.view_i j hj
    have hdata := query_markDirty hq j
    have hslot : logicalSlot { sv.store with cache_i_queue := q } j = logicalSlot sv.store j := rfl
    simp only [logicalInode, hslot] at hold ⊢
    cases h1 : query_ht q j <;> cases h2 : query_ht sv.store.cache_i_queue j <;>
      simp_all [FS.markInode]
  · intro x hx hne
    obtain ⟨y, hy, h1, h2, h3⟩ := mem_markDirty hq hx
    rcases h3 with h3 | ⟨h3, h4⟩
    · exact Or.inl h3
    · rw [h1, h2] at hne
      rw [h4, h1]
      exact (h.marked_i y hy hne).imp_right fun he => ⟨h1 ▸ h3, he⟩

theorem exec_sound {g : Geometry} {sv sv' : Server} {σ : FS} {c : Cmd} {r : c.Ret} {Q : c.Ret → FS → Prop}
    (h : Rel g sv σ) (hw : c.wp g σ Q) (he : exec sv c = some (r, sv')) : ∃ σ', Q r σ' ∧ Rel g sv' σ' := by
  cases c with
  | get_b b =>
    obtain ⟨⟨p, t⟩, hg, he⟩ := Option.map_eq_some_iff.mp he
    obtain ⟨rfl, rfl⟩ := Prod.mk.inj he
    obtain ⟨hp, hb, hstep, _⟩ := get_b_spec h.blocks hg
    refine ⟨σ, ?_, h.step (hstep.inodeStep h.inodes)⟩
    have := hw hb.1 (h.sectors ▸ hb.2) p.id
    rwa [← hp] at this
  | get_i i =>
    obtain ⟨⟨p, t⟩, hg, he⟩ := Option.map_eq_some_iff.mp he
    obtain ⟨rfl, rfl⟩ := Prod.mk.inj he
    have hn : ¬ (-8 < i ∧ i < 0) := fun hn => by rw [get_i_negative h.inodes hn] at hg; cases hg
    obtain ⟨hi, hQ⟩ := hw hn
    obtain ⟨hp, hstep, _⟩ := get_i_spec h.blocks h.inodes hi hg
    refine ⟨σ, ?_, h.step hstep⟩
    have := hQ p.id
    rwa [← hp] at this
  | readBlock p =>
    obtain ⟨item, hi, he⟩ := Option.map_eq_some_iff.mp he
    obtain ⟨rfl, rfl⟩ := Prod.mk.inj he
    obtain ⟨hm, hnum⟩ := deref_mem hi
    refine ⟨σ, ?_, h⟩
    rw [← logicalBlock_cached h.blocks hm, hnum, h.view_b _ hw.1]
    exact hw.2
  | writeBlock p v =>
    obtain ⟨q, hq, he⟩ := Option.map_eq_some_iff.mp he
    obtain ⟨rfl, rfl⟩ := Prod.mk.inj he
    exact ⟨_, hw.2, h.writeBlock hw.1 hq⟩
  | readInode p =>
    obtain ⟨item, hi, he⟩ := Option.map_eq_some_iff.mp he
    obtain ⟨rfl, rfl⟩ := Prod.mk.inj he
    obtain ⟨hm, hnum⟩ := deref_mem hi
    refine ⟨σ, ?_, h⟩
    rw [← logicalInode_cached h.inodes hm, hnum, h.view_i _ (hnum ▸ h.inodes.range item hm)]
    exact hw
  | writeInode p v =>
    obtain ⟨q, hq, he⟩ := Option.map_eq_some_iff.mp he
    obtain ⟨rfl, rfl⟩ := Prod.mk.inj he
    exact ⟨_, hw, h.writeInode hq⟩
  | dirtyBlock b =>
    obtain ⟨q, hq, he⟩ := Option.map_eq_some_iff.mp he
    obtain ⟨rfl, rfl⟩ := Prod.mk.inj he
    exact ⟨_, hw, h.dirtyBlock hq⟩
  | dirtyInode i =>
    obtain ⟨q, hq, he⟩ := Option.map_eq_some_iff.mp he
    obtain ⟨rfl, rfl⟩ := Prod.mk.inj he
    exact ⟨_, hw, h.dirtyInode hq⟩
  | globals =>
    obtain ⟨rfl, rfl⟩ := Prod.mk.inj (Option.some.inj he)
    exact ⟨σ, by rw [h.globals]; exact hw, h⟩
  | setGlobals v =>
    obtain ⟨rfl, rfl⟩ := Prod.mk.inj (Option.some.inj he)
    exact ⟨_, hw, ⟨h.blocks, h.inodes, h.sectors, rfl, h.view_b, h.view_i, h.marked_b, h.marked_i⟩⟩

/-- **Soundness.** A program that returns ends where its weakest precondition says. -/
theorem run_sound {α : Type} {g : Geometry} {p : Prog α} {sv sv' : Server} {σ : FS} {a : α}
    {Q : α → FS → Prop} (h : Rel g sv σ) (hw : wp g p σ Q) (hr : run p sv = some (a, sv')) :
    ∃ σ', Q a σ' ∧ Rel g sv' σ' := by
  induction p generalizing sv σ with
  | ret b =>
    obtain ⟨rfl, rfl⟩ := Prod.mk.inj (Option.some.inj hr)
    exact ⟨σ, hw, h⟩
  | undef => cases hr
  | call c k ih =>
    unfold run at hr
    split at hr
    case h_1 => cases hr
    case h_2 r t he =>
      obtain ⟨σ', hQ, ht⟩ := exec_sound h hw he
      exact ih r ht hQ hr

attribute [irreducible] wp
attribute [simp] wp_bind

end Yfs
