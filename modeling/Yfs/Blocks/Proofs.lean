import Yfs.Blocks.Spec

/-! # What the pointer routines do to the blocks -/

namespace Yfs

open Ledger

/-! ## Updates -/

namespace View

variable {v w : View} {g : Geometry} {i j b c : Int} {m n : Nat} {ino : Inode} {blk : Block}

@[simp]
theorem setInode_inode_self : (v.setInode i ino).inode i = ino := Function.update_self ..

theorem setInode_inode_ne (h : j ≠ i) : (v.setInode i ino).inode j = v.inode j := Function.update_of_ne h ..

@[simp]
theorem size_setInode_self : (v.setInode i ino).size i = ino.size := by rw [size, setInode_inode_self]

@[simp]
theorem type_setInode_self : (v.setInode i ino).type i = ino.type := by rw [type, setInode_inode_self]

@[simp]
theorem nlink_setInode_self : (v.setInode i ino).nlink i = ino.nlink := by rw [nlink, setInode_inode_self]

@[simp]
theorem indirect_setInode_self : (v.setInode i ino).indirect i = ino.indirect := by
  rw [indirect, setInode_inode_self]

@[simp]
theorem setInode_block : (v.setInode i ino).block = v.block := rfl

@[simp]
theorem setBlock_block_self : (v.setBlock b blk).block b = blk := Function.update_self ..

theorem setBlock_block_ne (h : c ≠ b) : (v.setBlock b blk).block c = v.block c := Function.update_of_ne h ..

@[simp]
theorem setBlock_inode : (v.setBlock b blk).inode = v.inode := rfl

end View

namespace FS

variable (σ : FS) (i b : Int) (ino : Inode) (blk : Block) (l : List Int)

@[simp]
theorem setInode_view : (σ.setInode i ino).toView = σ.toView.setInode i ino := rfl

@[simp]
theorem setInode_globals : (σ.setInode i ino).toGlobals = σ.toGlobals := rfl

@[simp]
theorem setBlock_view : (σ.setBlock b blk).toView = σ.toView.setBlock b blk := rfl

@[simp]
theorem setBlock_globals : (σ.setBlock b blk).toGlobals = σ.toGlobals := rfl

@[simp]
theorem markInode_view : (σ.markInode i).toView = σ.toView := rfl

@[simp]
theorem markInode_globals : (σ.markInode i).toGlobals = σ.toGlobals := rfl

@[simp]
theorem markBlock_view : (σ.markBlock b).toView = σ.toView := rfl

@[simp]
theorem markBlock_globals : (σ.markBlock b).toGlobals = σ.toGlobals := rfl

@[simp]
theorem pop_view : σ.pop.toView = σ.toView := rfl

@[simp]
theorem release_view : (σ.release l).toView = σ.toView := rfl

theorem release_release (l m : List Int) : (σ.release l).release m = σ.release (l ++ m) := by
  simp only [release, List.reverse_append, List.append_assoc, List.length_append, Int.natCast_add, Int.add_assoc]

end FS

/-! ## Indices and pointers -/

namespace View

variable {v w : View} {g : Geometry} {i j b c : Int} {m n : Nat} {ino : Inode} {blk : Block}

theorem covers_iff : v.covers i n ↔ n < v.blocks i := by
  simp only [covers, blocks, BLOCKSIZE]
  omega

theorem covers.lt (h : v.covers i n) (hm : m ≤ n) : v.covers i m := by
  simp only [covers, BLOCKSIZE] at *
  omega

theorem not_covers : ¬ v.covers i n ↔ n * BLOCKSIZE ≥ v.size i := Int.not_lt

theorem not_covers_blocks : ¬ v.covers i (v.blocks i) := fun h => absurd (covers_iff.mp h) (Nat.lt_irrefl _)

theorem covers_congr (h : w.size i = v.size i) : w.covers i n ↔ v.covers i n := by
  rw [covers, covers, h]

/-- A pointer depends on its inode and, past the direct ones, on the indirect block. -/
theorem pointer_congr (h : w.inode i = v.inode i)
    (hb : 12 ≤ n → w.block (v.indirect i) = v.block (v.indirect i)) : w.pointer i n = v.pointer i n := by
  unfold pointer
  split
  case isTrue hn => rw [h]
  case isFalse hn => simp only [indirect, h] at hb ⊢; rw [hb (by omega)]

/-- Fields that are not pointers do not move pointers. -/
theorem pointer_setInode_self (hd : ∀ k, ino.get (.direct k) = (v.inode i).get (.direct k))
    (hi : ino.indirect = v.indirect i) : (v.setInode i ino).pointer i n = v.pointer i n := by
  unfold pointer
  split
  case isTrue => rw [setInode_inode_self, hd]
  case isFalse => rw [indirect, setInode_inode_self, hi, setInode_block]

theorem pointer_setInode_ne (h : j ≠ i) : (v.setInode i ino).pointer j n = v.pointer j n :=
  pointer_congr (setInode_inode_ne h) fun _ => rfl

theorem pointer_setBlock_ne (h : 12 ≤ n → v.indirect i ≠ b) : (v.setBlock b blk).pointer i n = v.pointer i n :=
  pointer_congr rfl fun hn => setBlock_block_ne (h hn)

theorem nthBlock_of_lt (hc : v.covers i n) (h : n < 140) : v.nthBlock i n = v.pointer i n := if_pos ⟨hc, h⟩

theorem nthBlock_of_ge (h : 140 ≤ n) : v.nthBlock i n = 0 := if_neg fun hc => by omega

theorem nthBlock_of_not_covers (hc : ¬ v.covers i n) : v.nthBlock i n = 0 := if_neg fun h => hc h.1

theorem Mapped.nthBlock (hm : v.Mapped g i) (hc : v.covers i n) : v.nthBlock i n = v.pointer i n :=
  nthBlock_of_lt hc (hm.index n hc)

theorem Mapped.blocks_le (hm : v.Mapped g i) : v.blocks i ≤ 140 := by
  by_contra h
  have := hm.index 140 (covers_iff.mpr (by omega))
  omega

theorem pointer_range : -2 ^ 31 ≤ v.pointer i n ∧ v.pointer i n < 2 ^ 31 := by
  unfold pointer
  split
  · exact Inode.get_range _ _
  · exact Block.pointer_range _ _

/-! ## The ledger -/

theorem ledger_data (hm : v.Mapped g i) (hi : g.isInode i) (hc : v.covers i n) :
    v.ledger g (i, some n) = some (v.pointer i n) := by
  rw [ledger, if_pos ⟨hi, hc⟩, hm.nthBlock hc]

theorem ledger_indirect (hi : g.isInode i) (hc : v.covers i 12) : v.ledger g (i, none) = some (v.indirect i) :=
  if_pos ⟨hi, hc⟩

/-- An inode keeps its blocks when it and its indirect block stay. -/
theorem ledger_congr (h : w.inode i = v.inode i)
    (hb : v.covers i 12 → w.block (v.indirect i) = v.block (v.indirect i)) (o : Option Nat) :
    w.ledger g (i, o) = v.ledger g (i, o) := by
  have hsize : w.size i = v.size i := by rw [size, h]
  cases o with
  | none => simp only [ledger, covers_congr hsize, indirect, h]
  | some n =>
    simp only [ledger, covers_congr hsize]
    split
    case isTrue hc =>
      have := pointer_congr (n := n) h fun hn => hb (hc.2.lt hn)
      simp only [nthBlock, covers_congr hsize, this]
    case isFalse => rfl

end View

/-! ## `get_nth_b` -/

section

variable {g : Geometry} {σ : FS} {p : Ptr} {i : Int} {n : Nat} {Q : Int → FS → Prop}

theorem directField_lt (h : n < 12) : directField n = some (.direct ⟨n, h⟩) := by
  rw [directField, dif_pos (by omega)]
  rfl

theorem get_nth_b_spec {a : Bool} (hi : i = n) (ha : a = true → σ.covers p.num n)
    (hind : σ.covers p.num 12 → ¬ g.isTable (σ.indirect p.num))
    (hQ : Q (σ.nthBlock p.num n) σ) : wp g (get_nth_b p i a) σ Q := by
  unfold get_nth_b
  simp only [wp_bind, wp_ite, wp_ret, Prog.pure_eq, wp_readInode, decide_eq_true_eq]
  refine ⟨fun hn => ?_, fun hn => ⟨fun hs => ?_, fun hs => ?_⟩⟩
  · simp only [MAX_BLOCKS] at hn
    rwa [View.nthBlock_of_ge (by omega)] at hQ
  · rw [hi, ← View.not_covers] at hs
    rwa [View.nthBlock_of_not_covers hs.1] at hQ
  · rw [hi, ← View.not_covers] at hs
    have hc : σ.covers p.num n := by
      cases a with
      | true => exact ha rfl
      | false => exact Decidable.byContradiction fun h => hs ⟨h, rfl⟩
    have hfin : ¬ i * BLOCKSIZE ≥ σ.size p.num := fun h => View.not_covers.mpr (hi ▸ h) hc
    simp only [MAX_BLOCKS] at hn
    rw [View.nthBlock_of_lt hc (by omega), View.pointer] at hQ
    refine ⟨fun hd => ?_, fun hd => ?_⟩ <;> simp only [NUM_DIRECT] at hd
    · rw [dif_pos (by omega)] at hQ
      rw [hi, directField_lt (by omega)]
      simp only [wp_ite, wp_bind, wp_readInode, wp_ret]
      exact ⟨fun h => absurd (hi ▸ h) hfin, fun _ => hQ⟩
    · rw [dif_neg (by omega)] at hQ
      have hk : (i - NUM_DIRECT).toNat = n - 12 := by simp only [NUM_DIRECT]; omega
      simp only [wp_readBlock, wp_get_b, hk]
      exact fun h0 h1 id => ⟨fun h => absurd h hfin, fun _ => ⟨hind (hc.lt (by omega)), hQ⟩⟩

theorem get_next_free_bnum_spec (hQ : Q σ.next σ.pop) : wp g get_next_free_bnum σ Q := by
  unfold get_next_free_bnum
  simp only [wp_bind, wp_globals]
  cases h : σ.b_head with
  | nil =>
    have hpop : σ.pop = σ := by simp only [FS.pop, h, List.tail_nil]; rw [← h]
    rw [FS.next, hpop, h] at hQ
    simpa using hQ
  | cons b rest =>
    rw [FS.next, FS.pop, h] at hQ
    simpa using hQ

theorem get_nth_b_alloc_spec (hi : i = n) (hc : ¬ σ.covers p.num n)
    (hind : 12 ≤ n → n < 140 → ¬ g.isTable (σ.indirect p.num)) (hmax : 140 ≤ n → Q 0 σ)
    (hQ : n < 140 → Q (Mem.wrap 4 σ.next) (σ.alloc p.num n)) : wp g (get_nth_b p i true) σ Q := by
  have hfin := View.not_covers.mp hc
  unfold get_nth_b
  simp only [wp_bind, wp_ite, wp_ret, Prog.pure_eq, wp_readInode]
  refine ⟨fun hn => ?_, fun hn => ⟨fun hs => absurd hs.2 (by decide), fun hs => ⟨fun hd => ?_, fun hd => ?_⟩⟩⟩
  · simp only [MAX_BLOCKS] at hn
    exact hmax (by omega)
  all_goals
    simp only [NUM_DIRECT, MAX_BLOCKS] at hd hn
    specialize hQ (by omega)
    rw [FS.alloc] at hQ
  · rw [dif_pos (by omega)] at hQ
    rw [hi, directField_lt (by omega)]
    simp only [wp_ite, wp_bind, wp_readInode, modifyInode, wp_ret, wp_writeInode, decide_eq_true_eq]
    refine ⟨fun _ => get_next_free_bnum_spec ?_, fun h => absurd hfin h⟩
    simpa [Field.width] using hQ
  · rw [dif_neg (by omega)] at hQ
    have ht := hind (by omega) (by omega)
    have hk : (i - NUM_DIRECT).toNat = n - 12 := by simp only [NUM_DIRECT]; omega
    simp only [wp_bind, wp_readBlock, wp_get_b, modifyBlock, wp_writeBlock, decide_eq_true_eq, hk]
    refine fun h0 h1 id => ⟨fun _ => get_next_free_bnum_spec ⟨ht, ht, ht, ?_⟩, fun h => absurd (hi ▸ hfin) h⟩
    rw [FS.setBlock_view, View.setBlock_block_self, Block.pointer_setPointer_self _ _ _ (by omega)]
    exact hQ

end

/-! ## Allocation -/

namespace FS

variable {σ : FS} {g : Geometry} {i j b : Int} {m n : Nat}

theorem alloc_inode_ne (h : j ≠ i) : (σ.alloc i n).inode j = σ.inode j := by
  unfold alloc
  split
  · exact View.setInode_inode_ne h
  · rfl

theorem alloc_get {f : Field} (h : ∀ k : Fin 12, k.val = n → f ≠ .direct k) :
    ((σ.alloc i n).inode i).get f = (σ.inode i).get f := by
  unfold alloc
  split
  case isTrue hn => rw [setInode_view, View.setInode_inode_self, Inode.get_set, if_neg fun he => h ⟨n, hn⟩ rfl he.symm]
  case isFalse => rfl

theorem alloc_block_ne (h : 12 ≤ n → b ≠ σ.indirect i) : (σ.alloc i n).block b = σ.block b := by
  unfold alloc
  split
  case isTrue => rfl
  case isFalse hn => exact View.setBlock_block_ne (h (by omega))

theorem alloc_globals : (σ.alloc i n).toGlobals = σ.pop.toGlobals := by
  unfold alloc
  split <;> rfl

@[simp]
theorem size_alloc : (σ.alloc i n).size j = σ.size j := by
  by_cases hj : j = i
  · subst hj; exact alloc_get fun _ _ => by simp
  · rw [View.size, alloc_inode_ne hj]

@[simp]
theorem indirect_alloc : (σ.alloc i n).indirect j = σ.indirect j := by
  by_cases hj : j = i
  · subst hj; exact alloc_get fun _ _ => by simp
  · rw [View.indirect, alloc_inode_ne hj]

theorem pointer_alloc_self (hn : n < 140) : (σ.alloc i n).pointer i n = Mem.wrap 4 σ.next := by
  unfold View.pointer
  split
  case isTrue h => rw [alloc, dif_pos h, setInode_view, View.setInode_inode_self, Inode.get_set, if_pos rfl]; rfl
  case isFalse h =>
    rw [indirect_alloc, alloc, dif_neg h, setBlock_view, View.setBlock_block_self,
      Block.pointer_setPointer_self _ _ _ (by omega)]

theorem pointer_alloc_ne (hm : m ≠ n) : (σ.alloc i n).pointer i m = σ.pointer i m := by
  unfold View.pointer
  split
  case isTrue h =>
    refine alloc_get fun k hk he => hm ?_
    cases he
    exact hk
  case isFalse h =>
    rw [indirect_alloc]
    by_cases hn : n < 12
    · rw [alloc_block_ne fun h' => by omega]
    · rw [alloc, dif_neg hn, setBlock_view, View.setBlock_block_self, Block.pointer_setPointer_ne _ _ _ _ (by omega)]

end FS

/-! ## Well-formed states -/

section

variable {g : Geometry} {σ : FS} {i : Int} {n : Nat}

theorem WellFormed.ownIndirect (hw : WellFormed g σ) (hi : g.isInode i) (hc : σ.covers i 12) : σ.OwnIndirect g i := by
  have hk := View.ledger_indirect hi hc
  exact ⟨(hw.mapped i hi).indirect hc, hw.exclusive.apart _ _ hk, fun k hk' => hw.exclusive.inj _ _ _ hk' hk⟩

/-- An indirect block in use is no data block. -/
theorem WellFormed.pointer_ne_indirect (hw : WellFormed g σ) (hi : g.isInode i) (hc : σ.covers i n)
    (h12 : σ.covers i 12) : σ.pointer i n ≠ σ.indirect i := by
  intro he
  have hk := View.ledger_data (hw.mapped i hi) hi hc
  rw [he] at hk
  cases (hw.ownIndirect hi h12).key _ hk

theorem next_mem (h : σ.b_head ≠ []) : σ.next ∈ σ.b_head := by
  rw [FS.next]
  cases hb : σ.b_head with
  | nil => exact absurd hb h
  | cons b rest => exact List.mem_cons_self

theorem next_data (htable : ∀ b ∈ σ.b_head, ¬ g.isTable b) : ¬ g.isTable σ.next := by
  by_cases hb : σ.b_head = []
  · rw [FS.next, hb]
    exact fun ht => absurd ht.1 (by decide)
  · exact htable _ (next_mem hb)

theorem b_head_eq (h : σ.b_head ≠ []) : σ.b_head = σ.next :: σ.pop.b_head := by
  rw [FS.next, FS.pop]
  cases hb : σ.b_head with
  | nil => exact absurd hb h
  | cons b rest => rfl

theorem WellFormed.wrap_next (hw : WellFormed g σ) : Mem.wrap 4 σ.next = σ.next := by
  by_cases h : σ.b_head = []
  · rw [FS.next, h]
    exact Mem.wrap_int _ (by decide) (by decide)
  · obtain ⟨_, h1, h2⟩ := hw.free _ (next_mem h)
    exact Mem.wrap_int _ h1 h2

end

/-! ## Freeing -/

section

variable {g : Geometry} {σ : FS} {p : Ptr} {b i : Int} {n fuel : Nat} {Q : Unit → FS → Prop}

theorem free_block_spec (hQ : Q () (σ.release [b])) : wp g (free_block b) σ Q := by
  unfold free_block
  simpa [FS.release] using hQ

theorem free_blocks_spec (hm : σ.Mapped g p.num) (hi : i = n) (hn : n ≤ σ.blocks p.num)
    (hf : σ.blocks p.num < n + fuel) (hQ : Q () (σ.release (σ.fileBlocks p.num))) :
    wp g (free_blocks p fuel i) (σ.release ((List.range n).map (σ.pointer p.num))) Q := by
  induction fuel generalizing n i with
  | zero => omega
  | succ fuel ih =>
    unfold free_blocks
    simp only [wp_bind, wp_ite, wp_ret, Prog.pure_eq]
    refine get_nth_b_spec hi (fun h => by cases h) hm.indirect ⟨fun h0 => ?_, fun h0 => free_block_spec ?_⟩
    · have hc : ¬ σ.covers p.num n := fun hc => hm.nonzero n hc (by rwa [← hm.nthBlock hc])
      rw [View.covers_iff] at hc
      rwa [View.fileBlocks, show σ.blocks p.num = n by omega] at hQ
    · have hc : σ.covers p.num n := Decidable.byContradiction fun hc => h0 (View.nthBlock_of_not_covers hc)
      have hval := hm.nthBlock hc
      rw [View.covers_iff] at hc
      have hnext := ih (n := n + 1) (i := i + 1) (by omega) (by omega) (by omega)
      rw [List.range_succ, List.map_append, List.map_singleton, ← hval, ← FS.release_release] at hnext
      exact hnext

theorem clear_file_spec (hm : σ.Mapped g p.num) (hQ : Q () (σ.truncate p.num)) : wp g (clear_file p) σ Q := by
  have hmax := hm.blocks_le
  unfold clear_file
  simp only [wp_bind, modifyInode, wp_readInode, wp_writeInode]
  have hstart : σ.release ((List.range 0).map (σ.pointer p.num)) = σ := by simp [FS.release]
  rw [← hstart]
  exact free_blocks_spec hm (n := 0) rfl (by omega) (by simp only [loopFuel]; omega) hQ

end

end Yfs
