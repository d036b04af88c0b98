import Yfs.Blocks.Grow

/-! # New slots, and slots that change -/

namespace Yfs

variable {g : Geometry} {σ σ' : FS} {d j : Int} {k l m n : Nat}

theorem WellFormed.pointer_inj (hw : WellFormed g σ) (hd : g.isInode d) (hm : σ.covers d m) (hn : σ.covers d n)
    (h : σ.pointer d m = σ.pointer d n) : m = n := by
  have hk := View.ledger_data (hw.mapped d hd) hd hm
  rw [h] at hk
  exact Option.some.inj (congrArg Prod.snd (hw.exclusive.inj _ _ _ hk (View.ledger_data (hw.mapped d hd) hd hn)))

theorem WellFormed.size_le (hw : WellFormed g σ) (hd : g.isInode d) : σ.size d ≤ 140 * 512 := by
  have := (hw.mapped d hd).blocks_le
  simp only [View.blocks] at this
  omega

/-- Only slot `r` of the block has changed. -/
def SlotOnly (blk blk' : Block) (r : Nat) : Prop :=
  ∀ q, q ≠ r → blk'.inum (32 * q) = blk.inum (32 * q) ∧ blk'.name (32 * q) = blk.name (32 * q)

theorem slotOnly_setInum (blk : Block) (r : Nat) (v : Int) : SlotOnly blk (blk.setInum (32 * r) v) r :=
  fun q hq => ⟨Block.inum_setInum_ne _ _ _ _ (by omega), Block.name_setInum _ _ _ _ (by omega)⟩

theorem slotOnly_name (blk : Block) (r : Nat) (bs : List UInt8) (h : bs.length ≤ 30) :
    SlotOnly blk (blk.store (32 * r + 2) bs) r := by
  refine fun q hq => ⟨Mem.loadInt_store_ne _ _ _ _ _ (by omega), Mem.load_store_ne _ _ _ _ _ ?_⟩
  simp only [DIRNAMELEN]
  omega

theorem SlotOnly.trans {a b c : Block} {r : Nat} (h : SlotOnly a b r) (h' : SlotOnly b c r) : SlotOnly a c r :=
  fun q hq => ⟨(h' q hq).1.trans (h q hq).1, (h' q hq).2.trans (h q hq).2⟩

/-- Slot `k` of `d` has changed, and perhaps the size within the last block. -/
structure SlotWritten (σ σ' : FS) (d : Int) (k : Nat) : Prop extends Rewritten σ σ' d where
  within : σ.covers d (k / 16)
  others : ∀ b, b ≠ σ.slotBlock d k → σ'.block b = σ.block b
  slot : SlotOnly (σ.block (σ.slotBlock d k)) (σ'.block (σ.slotBlock d k)) (k % 16)

namespace SlotWritten

variable (h : SlotWritten σ σ' d k) (hw : WellFormed g σ) (hd : g.isInode d)
include h

theorem slotBlock (hl : σ.covers d (l / 16)) : σ'.slotBlock d l = σ.slotBlock d l := h.pointer _ hl

theorem inum_self : σ'.slotInum d k = (σ'.block (σ.slotBlock d k)).inum (slotOffset k) := by
  rw [View.slotInum, h.slotBlock h.within]

theorem name_self : σ'.slotName d k = (σ'.block (σ.slotBlock d k)).name (slotOffset k) := by
  rw [View.slotName, h.slotBlock h.within]

include hw hd

theorem slot_ne (hl : l < σ.slots d) (hne : l ≠ k) :
    σ'.slotInum d l = σ.slotInum d l ∧ σ'.slotName d l = σ.slotName d l := by
  have hcov := covers_of_slot hl
  rw [View.slotInum, View.slotName, h.slotBlock hcov, View.slotInum, View.slotName]
  by_cases hb : σ.slotBlock d l = σ.slotBlock d k
  · have hdiv := hw.pointer_inj hd hcov h.within hb
    rw [hb]
    exact h.slot (l % 16) (by omega)
  · rw [h.others _ hb]
    exact ⟨rfl, rfl⟩

end SlotWritten

/-! ## Growing -/

theorem growBlock_appended (hw : WellFormed g σ) (hd : g.isInode d) (hdir : σ.isDir d) (hfull : σ.size d % 512 = 0)
    (hg : σ.CanGrow g d) : Appended σ (σ.growBlock d) d := by
  have hpos := (hw.sizes d hd hdir).1
  have hle := hw.size_le hd
  have hinode : (σ.growBlock d).inode d = ((σ.alloc d (σ.blocks d)).inode d).set .size (σ.size d + 32) := by
    simp [FS.growBlock, DIRENTSIZE]
  have hglob : (σ.growBlock d).toGlobals = σ.pop.toGlobals := FS.alloc_globals
  refine FS.alloc_appended (s := σ.size d + 32) hw hg (fun j hj => ?_) (fun f hf => ?_) ?_ (fun b hb => ?_) ?_ ?_ ?_ ?_
  · exact (View.setInode_inode_ne hj).trans (FS.alloc_inode_ne hj)
  · rw [hinode, Inode.get_set, if_neg hf.symm]
  · rw [View.size, hinode]
    exact Inode.size_set_size _ _ (by omega) (by omega)
  · exact View.setBlock_block_ne hb
  · rw [hglob]; rfl
  · rw [hglob]; rfl
  · simp only [View.blocks]; omega
  · simp only [View.blocks]; omega

theorem growLast_written (hw : WellFormed g σ) (hd : g.isInode d) (hdir : σ.isDir d) (hpart : ¬ σ.size d % 512 = 0) :
    SlotWritten σ (σ.growLast d) d (σ.slots d) := by
  obtain ⟨hpos, hsize⟩ := hw.sizes d hd hdir
  have hle := hw.size_le hd
  obtain ⟨_, _, hcov, _⟩ := slots_part hpos hsize hpart
  have hm := hw.mapped d hd
  have hinode : (σ.growLast d).inode d = (σ.inode d).set .size (σ.size d + 32) := by
    simp [FS.growLast, DIRENTSIZE]
  have hsz : (σ.growLast d).size d = σ.size d + 32 := by
    rw [View.size, hinode]
    exact Inode.size_set_size _ _ (by omega) (by omega)
  have hind : (σ.growLast d).indirect d = σ.indirect d := by
    rw [View.indirect, hinode]
    simp
  have hothers : ∀ b, b ≠ σ.slotBlock d (σ.slots d) → (σ.growLast d).block b = σ.block b :=
    fun b hb => View.setBlock_block_ne hb
  refine ⟨⟨fun j hj => View.setInode_inode_ne hj, ?_, hind, fun m => ?_, fun m hc => ?_, fun b hb => ?_, rfl, rfl⟩,
    hcov, hothers, ?_⟩
  · rw [View.type, hinode]
    simp
  · rw [View.covers, View.covers, hsz, BLOCKSIZE]
    omega
  · unfold View.pointer
    split
    case isTrue => rw [hinode, Inode.get_set, if_neg (by simp)]
    case isFalse h12 =>
      rw [hind, hothers _ (hw.pointer_ne_indirect hd hcov (hc.lt (by omega))).symm]
  · exact hothers b (hb _ hcov)
  · have : (σ.growLast d).block (σ.slotBlock d (σ.slots d)) =
        (σ.block (σ.slotBlock d (σ.slots d))).setInum (slotOffset (σ.slots d)) 0 := by
      simp [FS.growLast]
    rw [this]
    exact slotOnly_setInum _ _ _

/-- `d` has one more slot, a free one. -/
structure Grown (σ σ' : FS) (d : Int) : Prop where
  size : σ'.size d = σ.size d + 32
  slots : σ'.slots d = σ.slots d + 1
  old : ∀ l, l < σ.slots d → σ'.slotInum d l = σ.slotInum d l ∧ σ'.slotName d l = σ.slotName d l
  new : σ'.slotInum d (σ.slots d) = 0

section

variable (hw : WellFormed g σ) (hd : g.isInode d) (hdir : σ.isDir d)
include hw hd hdir

theorem growBlock_grown (hfull : σ.size d % 512 = 0) (hg : σ.CanGrow g d) : Grown σ (σ.growBlock d) d := by
  have hle := hw.size_le hd
  have hpos := (hw.sizes d hd hdir).1
  have happ := growBlock_appended hw hd hdir hfull hg
  have hsize : (σ.growBlock d).size d = σ.size d + 32 := by
    have : (σ.growBlock d).inode d = ((σ.alloc d (σ.blocks d)).inode d).set .size (σ.size d + 32) := by
      simp [FS.growBlock, DIRENTSIZE]
    rw [View.size, this]
    exact Inode.size_set_size _ _ (by omega) (by omega)
  refine ⟨hsize, ?_, fun l hl => ?_, ?_⟩
  · simp only [View.slots, hsize]; omega
  · have hcov := covers_of_slot hl
    simp only [View.slotInum, View.slotName, View.slotBlock, happ.old _ hcov, happ.data hw hg hd hcov, and_self]
  · rw [View.slotInum, View.slotBlock, slots_full hfull, happ.new, slotOffset_full hfull]
    simp only [FS.growBlock, FS.markInode_view, FS.markBlock_view, FS.setBlock_view, View.setBlock_block_self]
    exact (Block.inum_setInum_self _ _ _ (by omega)).trans (Mem.wrap_short 0 (by decide) (by decide))

theorem growLast_grown (hpart : ¬ σ.size d % 512 = 0) : Grown σ (σ.growLast d) d := by
  have hle := hw.size_le hd
  have hpos := (hw.sizes d hd hdir).1
  have hwr := growLast_written hw hd hdir hpart
  have hsize : (σ.growLast d).size d = σ.size d + 32 := by
    have : (σ.growLast d).inode d = (σ.inode d).set .size (σ.size d + 32) := by simp [FS.growLast, DIRENTSIZE]
    rw [View.size, this]
    exact Inode.size_set_size _ _ (by omega) (by omega)
  refine ⟨hsize, ?_, fun l hl => hwr.slot_ne hw hd hl (Nat.ne_of_lt hl), ?_⟩
  · simp only [View.slots, hsize]; omega
  · rw [hwr.inum_self]
    simp only [FS.growLast, FS.markBlock_view, FS.setBlock_view, View.setBlock_block_self]
    refine (Block.inum_setInum_self _ _ _ ?_).trans (Mem.wrap_short 0 (by decide) (by decide))
    simp only [slotOffset]; omega

theorem grow_grown (hg : σ.size d % 512 = 0 → σ.CanGrow g d) : Grown σ (σ.grow d) d := by
  unfold FS.grow
  split
  case isTrue hfull => exact growBlock_grown hw hd hdir hfull (hg hfull)
  case isFalse hpart => exact growLast_grown hw hd hdir hpart

theorem grow_wellFormed (hg : σ.size d % 512 = 0 → σ.CanGrow g d) : WellFormed g (σ.grow d) := by
  have hgr := grow_grown hw hd hdir hg
  have hsz := hw.sizes d hd hdir
  have hok : σ.isDir d → (0 ≤ (σ.grow d).size d ∧ (σ.grow d).size d % 32 = 0) ∧
      ∀ k, k < (σ.grow d).slots d → g.isInode ((σ.grow d).slotInum d k) := by
    refine fun _ => ⟨by rw [hgr.size]; omega, fun k hk => ?_⟩
    rw [hgr.slots] at hk
    rcases Nat.lt_succ_iff_lt_or_eq.mp hk with hk | rfl
    · rw [(hgr.old k hk).1]; exact hw.entries d k hd hdir hk
    · rw [hgr.new]; exact g.isInode_zero
  by_cases hfull : σ.size d % 512 = 0
  · have happ := growBlock_appended hw hd hdir hfull (hg hfull)
    rw [FS.grow, if_pos hfull] at hok ⊢
    exact happ.wellFormed hw (hg hfull) hd hok
  · have hwr := growLast_written hw hd hdir hfull
    rw [FS.grow, if_neg hfull] at hok ⊢
    exact hwr.wellFormed hw hd hok

theorem grow_same (hg : σ.size d % 512 = 0 → σ.CanGrow g d) (hj : g.isInode j) (hne : j ≠ d) :
    σ.Same (σ.grow d).toView j := by
  unfold FS.grow
  split
  case isTrue hfull => exact (growBlock_appended hw hd hdir hfull (hg hfull)).same hw (hg hfull) hj hne
  case isFalse hpart => exact (growLast_written hw hd hdir hpart).same hw hd hj hne

end

theorem grow_inode_ne (hne : j ≠ d) : (σ.grow d).inode j = σ.inode j := by
  unfold FS.grow
  split
  · exact (View.setInode_inode_ne hne).trans (FS.alloc_inode_ne hne)
  · exact View.setInode_inode_ne hne

/-- Growing changes the size and, at most, a pointer. -/
theorem grow_get {f : Field} (hs : f ≠ .size) (hp : ∀ n, f ≠ .direct n) :
    ((σ.grow d).inode d).get f = (σ.inode d).get f := by
  have h1 := FS.alloc_get (σ := σ) (i := d) (n := σ.blocks d) (f := f) fun k _ => hp k
  unfold FS.grow
  split
  · simp [FS.growBlock, hs.symm, h1]
  · simp [FS.growLast, hs.symm]

/-! ## The slot for a name -/

namespace Placed

variable {path : CStr} (h : Placed σ d path k σ')
include h

theorem eq_or_grow : σ' = σ ∨ σ.Full d path ∧ σ' = σ.grow d := by
  cases h with
  | found => exact Or.inl rfl
  | free => exact Or.inl rfl
  | new hf => exact Or.inr ⟨hf, rfl⟩

/-- An entry that is there already needs no new slot. -/
theorem live (h0 : σ'.slotInum d k ≠ 0) (hw : WellFormed g σ) (hd : g.isInode d) (hdir : σ.isDir d)
    (hroom : σ.RoomFor g d path) : σ' = σ ∧ σ.findSlot d path = some k := by
  cases h with
  | found hf => exact ⟨rfl, hf⟩
  | free _ hk => exact absurd (freeSlot_inum hk) h0
  | new hf => exact absurd (grow_grown hw hd hdir (hroom hf)).new h0

variable (hw : WellFormed g σ) (hd : g.isInode d) (hdir : σ.isDir d) (hroom : σ.RoomFor g d path)
include hw hd hdir hroom

theorem wellFormed : WellFormed g σ' := by
  rcases h.eq_or_grow with rfl | ⟨hf, rfl⟩
  · exact hw
  · exact grow_wellFormed hw hd hdir (hroom hf)

omit hw hd hroom in
theorem isDir : σ'.isDir d := by
  rcases h.eq_or_grow with rfl | ⟨_, rfl⟩
  · exact hdir
  · exact (grow_get (by simp) (by simp)).trans hdir

theorem lt : k < σ'.slots d := by
  cases h with
  | found hf => exact findSlot_lt hf
  | free _ hk => exact freeSlot_lt hk
  | new hf => rw [(grow_grown hw hd hdir (hroom hf)).slots]; exact Nat.lt_succ_self _

theorem not_table : ¬ g.isTable (σ'.slotBlock d k) :=
  ((h.wellFormed hw hd hdir hroom).mapped d hd).data _ (covers_of_slot (h.lt hw hd hdir hroom))

end Placed

end Yfs
