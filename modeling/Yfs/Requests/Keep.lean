import Yfs.Requests.Spec

/-! # The pieces of the requests keep the state well formed -/

namespace Yfs

open Ledger

variable {g : Geometry} {σ σ' : FS} {d i j b : Int} {k off : Nat} {name : CStr}

/-! ## Counters and marks -/

/-- A new `nlink` or `reuse` shows every inode the same. -/
theorem setInode_same {ino : Inode} (h : ∀ f, f ≠ .nlink → f ≠ .reuse → ino.get f = (σ.inode i).get f) :
    σ.Same (σ.setInode i ino).toView j := by
  by_cases hj : j = i
  · subst hj
    have hptr : ∀ n, (σ.setInode j ino).pointer j n = σ.pointer j n :=
      fun n => View.pointer_setInode_self (fun _ => h _ (by simp) (by simp)) (h _ (by simp) (by simp))
    refine ⟨?_, ?_, ?_, fun n _ => hptr n, fun _ _ => rfl⟩
    · rw [FS.setInode_view, View.type_setInode_self]; exact h _ (by simp) (by simp)
    · rw [FS.setInode_view, View.size_setInode_self]; exact h _ (by simp) (by simp)
    · rw [FS.setInode_view, View.indirect_setInode_self]; exact h _ (by simp) (by simp)
  · have hinode : (σ.setInode i ino).inode j = σ.inode j := View.setInode_inode_ne hj
    exact ⟨by rw [View.type, hinode], by rw [View.size, hinode], by rw [View.indirect, hinode],
      fun n _ => View.pointer_setInode_ne hj, fun _ _ => rfl⟩

theorem addLinks_same {n : Int} : σ.Same (σ.addLinks i n).toView j :=
  setInode_same fun f h1 _ => by rw [Inode.get_set, if_neg h1.symm]

theorem popInode_same : σ.Same σ.popInode.toView j := by
  unfold FS.popInode
  split
  · exact View.Same.refl _ _
  · exact setInode_same fun f _ h2 => by rw [Inode.get_set, if_neg h2.symm]

@[simp]
theorem FS.popInode_b_head : σ.popInode.b_head = σ.b_head := by
  unfold FS.popInode
  split <;> rfl

theorem popInode_i_head : σ.popInode.i_head = σ.i_head.tail := by
  unfold FS.popInode
  split
  case isTrue h => rw [h]; rfl
  case isFalse => rfl

theorem popInode_inode_ne (h : j ≠ σ.nextInode) : σ.popInode.inode j = σ.inode j := by
  unfold FS.popInode
  split
  · rfl
  · exact View.setInode_inode_ne h

theorem popInode_block : σ.popInode.block = σ.block := by
  unfold FS.popInode
  split <;> rfl

theorem WellFormed.nextInode (hw : WellFormed g σ) : g.isInode σ.nextInode := by
  rw [FS.nextInode]
  cases h : σ.i_head with
  | nil => exact g.isInode_zero
  | cons i rest => exact hw.inodes i (h ▸ List.mem_cons_self)

theorem WellFormed.addLinks {n : Int} (hw : WellFormed g σ) : WellFormed g (σ.addLinks i n) :=
  hw.keep (fun _ _ => addLinks_same) (List.Sublist.refl _) hw.inodes

theorem WellFormed.popInode (hw : WellFormed g σ) : WellFormed g σ.popInode := by
  refine hw.keep (fun _ _ => popInode_same) ?_ fun j hj => hw.inodes j ?_
  · rw [FS.popInode_b_head]
  · rw [popInode_i_head] at hj
    exact List.mem_of_mem_tail hj

theorem WellFormed.markInode (hw : WellFormed g σ) : WellFormed g (σ.markInode i) :=
  hw.keep (fun _ _ => View.Same.refl _ _) (List.Sublist.refl _) hw.inodes

theorem WellFormed.markBlock (hw : WellFormed g σ) : WellFormed g (σ.markBlock b) :=
  hw.keep (fun _ _ => View.Same.refl _ _) (List.Sublist.refl _) hw.inodes

/-! ## Slots -/

/-- A block that nobody holds. -/
theorem loose_same {f : Block → Block} (hw : WellFormed g σ) (hb : Loose (σ.ledger g) b) (hj : g.isInode j) :
    σ.Same (σ.editBlock b f).toView j := by
  refine hw.same hj rfl fun c hc o hk => ?_
  by_cases he : c = b
  · exact hb _ (he ▸ hk)
  · exact hc (View.setBlock_block_ne he)

/-- A change within slot `k`. -/
theorem editSlot_written {f : Block → Block} (hw : WellFormed g σ) (hd : g.isInode d) (hc : σ.covers d (k / 16))
    (hf : ∀ blk, SlotOnly blk (f blk) (k % 16)) : SlotWritten σ (σ.editBlock (σ.slotBlock d k) f) d k := by
  have hothers : ∀ c, c ≠ σ.slotBlock d k → (σ.editBlock (σ.slotBlock d k) f).block c = σ.block c :=
    fun c hc => View.setBlock_block_ne hc
  refine ⟨⟨fun j _ => rfl, rfl, rfl, fun m => Iff.rfl, fun m hm => View.pointer_setBlock_ne fun h12 => ?_,
    fun b hb => hothers b (hb _ hc), rfl, rfl⟩, hc, hothers, ?_⟩
  · exact (hw.pointer_ne_indirect hd hc (hm.lt h12)).symm
  · rw [FS.editBlock, FS.setBlock_view, View.setBlock_block_self]
    exact hf _

theorem editSlot_self {f : Block → Block} : (σ.editBlock b f).block b = f (σ.block b) := View.setBlock_block_self

/-- Slot `k` of directory `d` is in block `b`. -/
structure SlotAt (g : Geometry) (σ : FS) (d : Int) (k : Nat) (b : Int) : Prop where
  wellFormed : WellFormed g σ
  inode : g.isInode d
  dir : σ.isDir d
  lt : k < σ.slots d
  block : σ.slotBlock d k = b

namespace SlotAt

variable (h : SlotAt g σ d k b)
include h

theorem of_same (hw : WellFormed g σ') (hs : σ.Same σ'.toView d) : SlotAt g σ' d k b :=
  ⟨hw, h.inode, hs.isDir.mpr h.dir, hs.slots.symm ▸ h.lt, (hs.slotBlock h.lt).trans h.block⟩

theorem popInode : SlotAt g σ.popInode d k b := h.of_same h.wellFormed.popInode popInode_same

theorem markBlock {c : Int} : SlotAt g (σ.markBlock c) d k b := h.of_same h.wellFormed.markBlock (View.Same.refl _ _)

theorem written {f : Block → Block} (hf : ∀ blk, SlotOnly blk (f blk) (k % 16)) :
    SlotWritten σ (σ.editBlock b f) d k := by
  have := editSlot_written h.wellFormed h.inode (covers_of_slot h.lt) hf
  rwa [h.block] at this

/-- The new bytes of the slot name an inode of the table. -/
theorem edit {f : Block → Block} (hf : ∀ blk, SlotOnly blk (f blk) (k % 16))
    (hi : g.isInode ((f (σ.block b)).inum (slotOffset k))) : SlotAt g (σ.editBlock b f) d k b := by
  have hwr := h.written hf
  refine ⟨hwr.wellFormed h.wellFormed h.inode fun _ => ⟨h.wellFormed.sizes d h.inode h.dir, fun l hl => ?_⟩, h.inode,
    h.dir, h.lt, (hwr.slotBlock (covers_of_slot h.lt)).trans h.block⟩
  by_cases hlk : l = k
  · subst hlk
    rw [hwr.inum_self, h.block, editSlot_self]
    exact hi
  · rw [(hwr.slot_ne h.wellFormed h.inode hl hlk).1]
    exact h.wellFormed.entries d l h.inode h.dir hl

theorem inum : (σ.block b).inum (slotOffset k) = σ.slotInum d k := by rw [View.slotInum, h.block]

end SlotAt

theorem slotOnly_inum (i : Int) (blk : Block) : SlotOnly blk (blk.setInum (slotOffset k) i) (k % 16) :=
  slotOnly_setInum _ _ _

theorem length_strncpy (n : Nat) (s : CStr) : (strncpy n s).length = n := by simp [strncpy]

theorem slotOnly_strncpy (name : CStr) (blk : Block) :
    SlotOnly blk (blk.store (slotOffset k + 2) (strncpy DIRNAMELEN name)) (k % 16) :=
  slotOnly_name _ _ _ (by simp [length_strncpy, DIRNAMELEN])

theorem inum_setInum (blk : Block) (h : Mem.wrap 2 i = i) : (blk.setInum (slotOffset k) i).inum (slotOffset k) = i := by
  rw [Block.inum_setInum_self _ _ _ (by simp only [slotOffset]; omega), h]

theorem inum_name (blk : Block) (bs : List UInt8) :
    Block.inum (blk.store (slotOffset k + 2) bs) (slotOffset k) = blk.inum (slotOffset k) :=
  Mem.loadInt_store_ne _ _ _ _ _ (by omega)

theorem SlotAt.setName (h : SlotAt g σ d k b) : SlotAt g (σ.setName b (slotOffset k) name) d k b := by
  refine h.edit (slotOnly_strncpy name) ?_
  rw [inum_name, h.inum]
  exact h.wellFormed.entries d k h.inode h.dir h.lt

theorem SlotAt.setInum (h : SlotAt g σ d k b) (hi : g.isInode i) (hs : Mem.wrap 2 i = i) :
    SlotAt g (σ.setInum b (slotOffset k) i) d k b := by
  refine h.edit (slotOnly_inum i) ?_
  rwa [inum_setInum _ hs]

theorem SlotAt.setInum_zero (h : SlotAt g σ d k b) : SlotAt g (σ.setInum b (slotOffset k) 0) d k b :=
  h.setInum g.isInode_zero (Mem.wrap_short 0 (by decide) (by decide))

/-! ## New inodes -/

theorem initFile_emptied : Emptied σ (σ.initFile i) i [] := by
  refine ⟨fun j hj => View.setInode_inode_ne hj, ?_, rfl, rfl, List.nodup_nil, fun b hb => by cases hb⟩
  simp [FS.initFile, Field.width, Mem.wrap_int]

theorem WellFormed.initFile (hw : WellFormed g σ) (hi : g.isInode i) : WellFormed g (σ.initFile i) :=
  initFile_emptied.wellFormed hw hi hw.inodes

/-- Inode numbers fit the `short` of an entry. -/
theorem wrap_inode (hshort : 8 * g.table ≤ 2 ^ 15) (hi : g.isInode i) : Mem.wrap 2 i = i :=
  Mem.wrap_short i (by have := hi.1; omega) (by have := hi.2; have := g.inodes_fit; omega)

theorem SlotAt.newFile (h : SlotAt g σ d k (σ.slotBlock d k)) (hshort : 8 * g.table ≤ 2 ^ 15) (name : CStr) :
    WellFormed g (σ.newFile d k name) := by
  have hi := h.wellFormed.nextInode
  exact (((h.setName.popInode.setInum hi (wrap_inode hshort hi)).wellFormed).initFile hi).markBlock

theorem SlotAt.newLink (h : SlotAt g σ d k (σ.slotBlock d k)) (hshort : 8 * g.table ≤ 2 ^ 15) (name : CStr)
    (hi : g.isInode i) : WellFormed g (σ.newLink d k name i) :=
  (h.setName.setInum hi (wrap_inode hshort hi)).wellFormed.markBlock

theorem SlotAt.clearEntry (h : SlotAt g σ d k (σ.slotBlock d k)) : WellFormed g (σ.clearEntry d k) :=
  h.setInum_zero.wellFormed.markBlock

/-- A truncated file lets go of its blocks. -/
theorem Emptied.loose {freed : List Int} (h : Emptied σ σ' i freed) (hw : WellFormed g σ) (hi : g.isInode i)
    (hb : σ.ledger g (i, some k) = some b) : Loose (σ'.ledger g) b := by
  rintro ⟨j, o⟩ hk
  by_cases hj : j = i
  · subst hj
    rw [h.ledger_none] at hk
    cases hk
  · rw [ledger_of_same (fun j hj hne => h.same hw hj hne) hj] at hk
    exact hj (congrArg Prod.fst (hw.exclusive.inj _ _ _ hk hb))

/-- Clearing an entry whose file has been truncated. The directory may have been that file. -/
theorem SlotAt.truncated (h : SlotAt g σ d k b) (hi : g.isInode i) :
    WellFormed g (((σ.truncate i).markInode i).setInum b (slotOffset k) 0) := by
  have hemp := truncate_emptied h.wellFormed hi
  have hw := hemp.wellFormed h.wellFormed hi h.wellFormed.inodes
  by_cases hdi : d = i
  · subst hdi
    have hb := View.ledger_data (h.wellFormed.mapped d hi) hi (covers_of_slot h.lt)
    rw [show σ.pointer d (k / 16) = b from h.block] at hb
    have hloose := hemp.loose h.wellFormed hi hb
    exact hw.markInode.keep (fun j hj => loose_same hw.markInode hloose hj) (List.Sublist.refl _) hw.inodes
  · have hs := hemp.same h.wellFormed h.inode hdi
    exact (SlotAt.setInum_zero (h.of_same hw.markInode hs)).wellFormed

theorem SlotAt.removeEntry (h : SlotAt g σ d k (σ.slotBlock d k)) : WellFormed g (σ.removeEntry d k) := by
  have hi := h.wellFormed.entries d k h.inode h.dir h.lt
  have h₁ := h.of_same (h.wellFormed.addLinks (i := σ.slotInum d k) (n := -1)) addLinks_same
  unfold FS.removeEntry
  refine WellFormed.markBlock ?_
  split
  case isTrue => exact h₁.truncated hi
  case isFalse =>
    have hmark := h₁.of_same (h₁.wellFormed.markInode (i := σ.slotInum d k)) (View.Same.refl _ _)
    exact hmark.setInum_zero.wellFormed

/-- The new directory before it has a block. -/
def FS.bareDir (σ : FS) (i : Int) : FS :=
  σ.setInode i ((((σ.inode i).set .type INODE_DIRECTORY).set .size 0).set .nlink 1)

theorem bareDir_emptied : Emptied σ (σ.bareDir i) i [] := by
  refine ⟨fun j hj => View.setInode_inode_ne hj, ?_, rfl, rfl, List.nodup_nil, fun b hb => by cases hb⟩
  simp [FS.bareDir, Field.width, Mem.wrap_int]

theorem bareDir_blocks : (σ.bareDir i).blocks i = 0 := by
  rw [View.blocks, bareDir_emptied.size]
  rfl

theorem headBlock_inode : ((σ.initDir i).headBlock i d).inode i =
    ((((σ.inode i).set .type INODE_DIRECTORY).set .size (2 * DIRENTSIZE)).set .nlink 1).set (.direct 0) σ.next := by
  simp [FS.headBlock, FS.initDir, FS.editBlock, FS.next]

theorem headBlock_size : ((σ.initDir i).headBlock i d).size i = 64 := by
  rw [View.size, headBlock_inode]
  simp [Field.width, Mem.wrap_int, DIRENTSIZE]

theorem bareDir_canGrow (hfree : σ.b_head ≠ []) (hdata : ¬ g.isTable σ.next) : (σ.bareDir i).CanGrow g i := by
  have := bareDir_blocks (σ := σ) (i := i)
  exact ⟨by omega, hfree, hdata, fun h => by omega⟩

theorem headBlock_appended (hw : WellFormed g σ) (hi : g.isInode i) (hfree : σ.b_head ≠ [])
    (hdata : ¬ g.isTable σ.next) :
    Appended (σ.bareDir i) ((σ.initDir i).headBlock i d) i := by
  have hw₀ := bareDir_emptied.wellFormed hw hi hw.inodes
  have hblocks := bareDir_blocks (σ := σ) (i := i)
  have halloc : ((σ.bareDir i).alloc i ((σ.bareDir i).blocks i)).inode i =
      ((((σ.inode i).set .type INODE_DIRECTORY).set .size 0).set .nlink 1).set (.direct 0) σ.next := by
    rw [hblocks]
    simp [FS.alloc, FS.bareDir, FS.next]
  refine FS.alloc_appended (s := 64) hw₀ (bareDir_canGrow hfree hdata) (fun j hj => ?_) (fun f hf => ?_)
    headBlock_size (fun b hb => ?_) rfl rfl ?_ ?_
  · exact (View.setInode_inode_ne hj).trans ((View.setInode_inode_ne hj).trans (View.setInode_inode_ne hj).symm)
  · rw [headBlock_inode, halloc]
    simp only [Inode.get_set, if_neg hf.symm]
  · refine (View.setBlock_block_ne hb).trans (Eq.symm (FS.alloc_block_ne fun h => ?_))
    omega
  · omega
  · omega

theorem head_dir_inum (blk : Block) (i d : Int) :
    (head_dir blk i d).inum 0 = Mem.wrap 2 i ∧ (head_dir blk i d).inum 32 = Mem.wrap 2 d := by
  constructor
  · refine (Mem.loadInt_store_ne _ _ _ _ _ (by simp)).trans ((Block.inum_setInum_ne _ _ _ _ (by omega)).trans ?_)
    exact (Mem.loadInt_store_ne _ _ _ _ _ (by simp)).trans (Block.inum_setInum_self _ _ _ (by omega))
  · exact (Mem.loadInt_store_ne _ _ _ _ _ (by simp)).trans (Block.inum_setInum_self _ _ _ (by omega))

/-- The names of these entries end where the bytes that the block held are zero. -/
theorem head_dir_name (blk : Block) (i d : Int) :
    (head_dir blk i d).name 0 = DOT :: Mem.load blk 3 29 ∧ (head_dir blk i d).name 32 = DOT :: DOT :: Mem.load blk 36 28 := by
  unfold head_dir Block.name Block.setInum
  constructor
  · rw [DIRNAMELEN, Mem.load_succ, Mem.get_store_out _ _ _ _ (by simp), Mem.get_storeInt_out _ _ _ _ _ (by simp),
      Mem.get_store _ _ _ _ (by omega), Mem.load_store_ne _ _ _ _ _ (by simp), Mem.load_storeInt_ne _ _ _ _ _ _ (by simp),
      Mem.load_store_ne _ _ _ _ _ (by simp), Mem.load_storeInt_ne _ _ _ _ _ _ (by simp)]
    rfl
  · rw [DIRNAMELEN, Mem.load_succ, Mem.load_succ, Mem.get_store _ _ _ _ (by omega), Mem.get_store _ _ _ _ (by omega),
      Mem.load_store_ne _ _ _ _ _ (by simp), Mem.load_storeInt_ne _ _ _ _ _ _ (by simp),
      Mem.load_store_ne _ _ _ _ _ (by simp), Mem.load_storeInt_ne _ _ _ _ _ _ (by simp)]
    rfl

theorem headBlock_block : ((σ.initDir i).headBlock i d).block σ.next = head_dir (σ.block σ.next) i d := View.setBlock_block_self

theorem headBlock_slotBlock (hw : WellFormed g σ) (hi : g.isInode i) (hfree : σ.b_head ≠ []) (hdata : ¬ g.isTable σ.next) (hk : k < 16) :
    ((σ.initDir i).headBlock i d).slotBlock i k = σ.next := by
  have hnew := (headBlock_appended (d := d) hw hi hfree hdata).new
  rw [bareDir_blocks] at hnew
  rw [View.slotBlock, Nat.div_eq_of_lt hk, hnew]
  rfl

/-- The two entries of a new directory. -/
theorem headBlock_slots (hw : WellFormed g σ) (hi : g.isInode i) (hfree : σ.b_head ≠ []) (hdata : ¬ g.isTable σ.next) :
    ((σ.initDir i).headBlock i d).slots i = 2 ∧
      ((σ.initDir i).headBlock i d).slotInum i 0 = Mem.wrap 2 i ∧
      ((σ.initDir i).headBlock i d).slotInum i 1 = Mem.wrap 2 d := by
  refine ⟨by rw [View.slots, headBlock_size]; rfl, ?_, ?_⟩
  · rw [View.slotInum, headBlock_slotBlock hw hi hfree hdata (by omega), headBlock_block]
    exact (head_dir_inum _ i d).1
  · rw [View.slotInum, headBlock_slotBlock hw hi hfree hdata (by omega), headBlock_block]
    exact (head_dir_inum _ i d).2

/-- Their names. -/
theorem headBlock_names (hw : WellFormed g σ) (hi : g.isInode i) (hfree : σ.b_head ≠ []) (hdata : ¬ g.isTable σ.next) :
    ((σ.initDir i).headBlock i d).slotName i 0 = DOT :: (σ.block σ.next).load 3 29 ∧
      ((σ.initDir i).headBlock i d).slotName i 1 = DOT :: DOT :: (σ.block σ.next).load 36 28 := by
  constructor
  · rw [View.slotName, headBlock_slotBlock hw hi hfree hdata (by omega), headBlock_block]
    exact (head_dir_name _ i d).1
  · rw [View.slotName, headBlock_slotBlock hw hi hfree hdata (by omega), headBlock_block]
    exact (head_dir_name _ i d).2

theorem WellFormed.headBlock (hw : WellFormed g σ) (hi : g.isInode i) (hd : g.isInode d) (hshort : 8 * g.table ≤ 2 ^ 15)
    (hfree : σ.b_head ≠ []) (hdata : ¬ g.isTable σ.next) : WellFormed g ((σ.initDir i).headBlock i d) := by
  have hw₀ := bareDir_emptied.wellFormed hw hi hw.inodes
  obtain ⟨hslots, h0, h1⟩ := headBlock_slots (d := d) hw hi hfree hdata
  refine (headBlock_appended hw hi hfree hdata).wellFormed hw₀ (bareDir_canGrow hfree hdata) hi fun _ => ⟨?_, fun k hk => ?_⟩
  · rw [headBlock_size]
    decide
  · rw [hslots] at hk
    obtain rfl | rfl : k = 0 ∨ k = 1 := by omega
    · rw [h0, wrap_inode hshort hi]; exact hi
    · rw [h1, wrap_inode hshort hd]; exact hd

theorem nameEntry_slotOnly (i : Int) (hname : name.length ≤ 30) (blk : Block) :
    SlotOnly blk (FS.nameEntry (slotOffset k) name i blk) (k % 16) :=
  ((slotOnly_name _ _ _ (by simp [DIRNAMELEN])).trans (slotOnly_name _ _ _ hname)).trans (slotOnly_inum i _)

/-- `handle_mkdir` until it makes the new inode a directory. -/
def FS.nameDir (σ : FS) (d : Int) (k : Nat) (name : CStr) : FS :=
  (σ.popInode.editBlock (σ.slotBlock d k) (FS.nameEntry (slotOffset k) name σ.nextInode)).markBlock (σ.slotBlock d k)

@[simp]
theorem nameDir_b_head : (σ.nameDir d k name).b_head = σ.b_head := FS.popInode_b_head

@[simp]
theorem nameDir_next : (σ.nameDir d k name).next = σ.next := by rw [FS.next, nameDir_b_head, FS.next]

theorem newDir_eq : σ.newDir d k name = ((σ.nameDir d k name).initDir σ.nextInode).headBlock σ.nextInode d := rfl

theorem SlotAt.nameDir (h : SlotAt g σ d k (σ.slotBlock d k)) (hshort : 8 * g.table ≤ 2 ^ 15) (hname : name.length ≤ 30) :
    SlotAt g (σ.nameDir d k name) d k (σ.slotBlock d k) := by
  refine (h.popInode.edit (nameEntry_slotOnly _ hname) ?_).markBlock
  rw [FS.nameEntry, inum_setInum _ (wrap_inode hshort h.wellFormed.nextInode)]
  exact h.wellFormed.nextInode

theorem SlotAt.newDir (h : SlotAt g σ d k (σ.slotBlock d k)) (hshort : 8 * g.table ≤ 2 ^ 15)
    (hname : name.length ≤ 30) (hfree : σ.b_head ≠ []) (hdata : ¬ g.isTable σ.next) :
    WellFormed g (σ.newDir d k name) := by
  have hw := (h.nameDir hshort hname).wellFormed
  exact hw.headBlock h.wellFormed.nextInode h.inode hshort (by rwa [nameDir_b_head]) (by rwa [nameDir_next])

end Yfs
