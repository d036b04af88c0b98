import Yfs.Logical.Twins

/-! # Programs on the logical file system -/

namespace Yfs

/-- A sector of the disk outside the inode table. -/
structure Geometry.IsData (g : Geometry) (b : Int) : Prop where
  range : 0 ≤ b ∧ b < g.sectors
  table : ¬ g.isTable b

/-- The blocks of file `i` are sectors outside the inode table. -/
structure View.Laid (v : View) (g : Geometry) (i : Int) : Prop where
  inode : g.isInode i
  index : ∀ n, v.covers i n → n < 140
  own : ∀ n, v.covers i n → v.pointer i n ≠ 0 ∧ g.IsData (v.pointer i n)
  indirect : v.covers i 12 → g.IsData (v.indirect i)

/-- The blocks of `i` are nobody's but its own, and the free ones are sectors outside the table. -/
structure FS.OwnBlocks (g : Geometry) (σ : FS) (i : Int) : Prop extends σ.Laid g i where
  apart : ∀ n m, σ.covers i n → σ.covers i m → σ.pointer i n = σ.pointer i m → n = m
  unshared : ∀ n, σ.covers i n → σ.pointer i n ∉ σ.b_head
  free : ∀ b ∈ σ.b_head, b ≠ 0 ∧ b < 2 ^ 31 ∧ g.IsData b

/-- The indirect block of `i` is neither free nor a data block of `i`. -/
structure FS.IndirectApart (g : Geometry) (σ : FS) (i : Int) : Prop where
  data : g.IsData (σ.indirect i)
  free : σ.indirect i ∉ σ.b_head
  apart : ∀ n, σ.covers i n → σ.pointer i n ≠ σ.indirect i

variable {g : Geometry} {σ : FS} {i : Int} {n : Nat} {p : Ptr}

theorem View.Laid.mapped (h : σ.Laid g i) : σ.Mapped g i :=
  ⟨h.index, fun n hc => (h.own n hc).1, fun n hc => (h.own n hc).2.table, fun hc => (h.indirect hc).table⟩

/-! ## Well-formed states -/

namespace WellFormed

variable (hw : WellFormed g σ) (hr : InRange g σ) (hi : g.isInode i)
include hw hr hi

theorem laid : σ.Laid g i :=
  ⟨hi, (hw.mapped i hi).index, fun n hc => ⟨(hw.mapped i hi).nonzero n hc, hr.pointer (hw.mapped i hi) hi hc, (hw.mapped i hi).data n hc⟩,
    fun hc => ⟨hr.indirect hi, (hw.mapped i hi).indirect hc⟩⟩

theorem ownBlocks (hfree : ∀ b ∈ σ.b_head, ¬ g.isTable b) : σ.OwnBlocks g i :=
  ⟨hw.laid hr hi, fun _ _ => hw.pointer_inj hi, fun _ hc => hw.exclusive.apart _ _ (View.ledger_data (hw.mapped i hi) hi hc),
    fun b hb => ⟨(hw.free b hb).1, (hw.free b hb).2.2, hr b (.inr (.inr hb)), hfree b hb⟩⟩

theorem indirectApart (hown : σ.OwnIndirect g i) : σ.IndirectApart g i := by
  refine ⟨⟨hr.indirect hi, hown.data⟩, hown.free, fun n hc he => ?_⟩
  have hkey := hown.key _ (he ▸ View.ledger_data (hw.mapped i hi) hi hc)
  cases hkey

end WellFormed

/-! ## Commands -/

section

@[simp]
theorem FS.logical_inode : σ.logical.inode i = σ.inode i := rfl

@[simp]
theorem FS.logical_block {b : Int} : σ.logical.block b = σ.block b := rfl

@[simp]
theorem FS.logical_setInode {ino : Inode} : σ.logical.setInode i ino = (σ.setInode i ino).logical := rfl

@[simp]
theorem FS.logical_setBlock {b : Int} {blk : Block} : σ.logical.setBlock b blk = (σ.setBlock b blk).logical := rfl

@[simp]
theorem FS.logical_markInode : (σ.markInode i).logical = σ.logical := rfl

@[simp]
theorem FS.logical_markBlock {b : Int} : (σ.markBlock b).logical = σ.logical := rfl

variable {l : Logical} {b : Int}

@[simp]
theorem eval_ret {α : Type} (a : α) : eval g (.ret a) l = some (a, l) := rfl

theorem eval_get_b (h : 0 ≤ b ∧ b < g.sectors) : eval g (get_b b) l = some (⟨b, 0⟩, l) := by
  rw [get_b, Prog.cmd, eval, Cmd.apply, if_pos h]
  rfl

theorem eval_get_i (h : g.isInode i) : eval g (get_i i) l = some (⟨i, 0⟩, l) := by
  rw [get_i, Prog.cmd, eval, Cmd.apply, if_pos h]
  rfl

theorem eval_readBlock (h : ¬ g.isTable p.num) : eval g (readBlock p) l = some (l.block p.num, l) := by
  rw [readBlock, Prog.cmd, eval, Cmd.apply, if_neg h]
  rfl

theorem eval_modifyBlock {f : Block → Block} (h : ¬ g.isTable p.num) :
    eval g (modifyBlock p f) l = some ((), l.setBlock p.num (f (l.block p.num))) := by
  rw [modifyBlock, eval_bind, eval_readBlock h, Option.bind_some, writeBlock, Prog.cmd, eval, Cmd.apply, if_neg h]
  rfl

@[simp]
theorem eval_readInode : eval g (readInode p) l = some (l.inode p.num, l) := rfl

@[simp]
theorem eval_modifyInode {f : Inode → Inode} :
    eval g (modifyInode p f) l = some ((), l.setInode p.num (f (l.inode p.num))) := rfl

@[simp]
theorem eval_dirtyBlock : eval g (dirtyBlock b) l = some ((), l) := rfl

@[simp]
theorem eval_dirtyInode : eval g (dirtyInode i) l = some ((), l) := rfl

@[simp]
theorem eval_globals : eval g globals l = some (l.toGlobals, l) := rfl

end

/-! ## Reaching a block -/

theorem eval_get_next_free_bnum : eval g get_next_free_bnum σ.logical = some (σ.next, σ.pop.logical) := by
  unfold get_next_free_bnum
  rw [eval_bind, eval_globals, Option.bind_some]
  dsimp only
  split
  case h_1 h =>
    have hnil : σ.b_head = [] := h
    have hpop : σ.pop = σ := by simp only [FS.pop, hnil, List.tail_nil]; rw [← hnil]
    rw [FS.next, hpop, hnil]
    rfl
  case h_2 b rest h =>
    have hcons : σ.b_head = b :: rest := h
    rw [FS.next, FS.pop, hcons]
    rfl

theorem get_nth_b_covered {k : Int} {a : Bool} (hk : k = n) (hn : n < 140) (hc : σ.covers p.num n)
    (hind : 12 ≤ n → g.IsData (σ.indirect p.num)) :
    eval g (get_nth_b p k a) σ.logical = some (σ.pointer p.num n, σ.logical) := by
  have hfin : ¬ k * BLOCKSIZE ≥ σ.size p.num := fun h => View.not_covers.mpr (hk ▸ h) hc
  have hidx : (k - NUM_DIRECT).toNat = n - 12 := by simp only [NUM_DIRECT]; omega
  unfold get_nth_b
  rw [if_neg (by simp only [MAX_BLOCKS]; omega), eval_bind, eval_readInode, Option.bind_some, FS.logical_inode, View.pointer]
  dsimp only
  rw [if_neg (by simpa using fun h => absurd h hfin)]
  by_cases h12 : n < 12
  · rw [if_pos (by simp only [NUM_DIRECT]; omega), dif_pos h12, hk, directField_lt h12]
    dsimp only
    rw [if_neg (by simpa [hk] using hfin)]
    rfl
  · have hi := hind (by omega)
    rw [if_neg (by simp only [NUM_DIRECT]; omega), dif_neg h12, eval_bind, eval_get_b hi.range, Option.bind_some,
      if_neg (by simpa using hfin), eval_bind, eval_readBlock hi.table, Option.bind_some, hidx]
    rfl

/-- `get_nth_b(i, n, false)` -/
theorem get_nth_b_look {k : Int} (h : σ.Laid g p.num) (hk : k = n) :
    eval g (get_nth_b p k false) σ.logical = some (σ.nthBlock p.num n, σ.logical) := by
  by_cases hc : σ.covers p.num n
  · rw [h.mapped.nthBlock hc]
    exact get_nth_b_covered hk (h.index n hc) hc fun h12 => h.indirect (hc.lt h12)
  · rw [View.nthBlock_of_not_covers hc]
    unfold get_nth_b
    by_cases hn : k ≥ MAX_BLOCKS
    · rw [if_pos hn]
      rfl
    · rw [if_neg hn, eval_bind, eval_readInode, Option.bind_some, FS.logical_inode]
      dsimp only
      rw [if_pos (by simpa [hk] using View.not_covers.mp hc)]
      rfl

theorem get_nth_b_reach {k : Int} (hk : k = n) (hn : n < 140) (hind : 12 ≤ n → g.IsData (σ.indirect p.num)) :
    eval g (get_nth_b p k true) σ.logical = some ((σ.reach p.num n).pointer p.num n, (σ.reach p.num n).logical) := by
  unfold FS.reach
  by_cases hc : σ.covers p.num n
  · rw [if_pos hc]
    exact get_nth_b_covered hk hn hc hind
  have hfin : k * BLOCKSIZE ≥ σ.size p.num := hk ▸ View.not_covers.mp hc
  have hidx : (k - NUM_DIRECT).toNat = n - 12 := by simp only [NUM_DIRECT]; omega
  unfold get_nth_b
  rw [if_neg (by simp only [MAX_BLOCKS]; omega), eval_bind, eval_readInode, Option.bind_some, FS.logical_inode]
  dsimp only
  rw [if_neg (by simp), if_neg hc, FS.pointer_alloc_self hn, FS.alloc]
  by_cases h12 : n < 12
  · rw [if_pos (by simp only [NUM_DIRECT]; omega), dif_pos h12, hk, directField_lt h12]
    dsimp only
    rw [if_pos (by simpa [hk] using hfin), eval_bind, eval_get_next_free_bnum]
    simp [eval_bind, Field.width]
  · have hi := hind (by omega)
    rw [if_neg (by simp only [NUM_DIRECT]; omega), dif_neg h12, eval_bind, eval_get_b hi.range, Option.bind_some,
      if_pos (by simpa using hfin), eval_bind, eval_get_next_free_bnum, Option.bind_some, eval_bind, eval_modifyBlock hi.table,
      Option.bind_some, eval_bind, eval_readBlock hi.table, Option.bind_some, hidx]
    simp [Block.pointer_setPointer_self _ _ _ (show n - 12 < 128 by omega)]

namespace FS

theorem reach_get {f : Field} (h : ∀ k, f ≠ .direct k) : ((σ.reach i n).inode i).get f = (σ.inode i).get f := by
  unfold reach
  split
  · rfl
  · exact alloc_get fun k _ => h k

theorem reach_pointer_ne {m : Nat} (h : m ≠ n) : (σ.reach i n).pointer i m = σ.pointer i m := by
  unfold reach
  split
  · rfl
  · exact pointer_alloc_ne h

theorem reach_block_ne {b : Int} (h : 12 ≤ n → b ≠ σ.indirect i) : (σ.reach i n).block b = σ.block b := by
  unfold reach
  split
  · rfl
  · exact alloc_block_ne h

theorem reach_b_head : (σ.reach i n).b_head = if σ.covers i n then σ.b_head else σ.b_head.tail := by
  unfold reach
  split
  · rfl
  · exact congrArg Globals.b_head alloc_globals

end FS

end Yfs
