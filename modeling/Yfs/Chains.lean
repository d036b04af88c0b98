import Yfs.Bounds
import Yfs.Header

/-! # Every pointer that boot may follow is on the disk

Boot follows the pointers of an inode up to the first zero, whatever the size says.
-/

namespace Yfs

variable {g : Geometry} {σ σ' τ : FS} {T : Int → Field → Prop} {req : Request} {d i b ret : Int} {k n : Nat} {name : CStr}

/-- The fields that boot follows. -/
def Field.points : Field → Bool
  | .direct _ | .indirect => true
  | _ => false

theorem Inode.get_set_points {ino : Inode} {e f : Field} {v : Int} (he : e.points = false) (hf : f.points = true) :
    (ino.set e v).get f = ino.get f := by
  rw [Inode.get_set, if_neg]
  rintro rfl
  rw [he] at hf
  cases hf

/-- The number of a block of the disk, or 0. -/
def Geometry.Holds (g : Geometry) (b : Int) : Prop := 0 ≤ b ∧ b < g.sectors

/-- No inode has an indirect block but block 0, and what is there and in the inodes is on the disk. -/
structure ChainsIn (g : Geometry) (σ : FS) : Prop where
  indirect : ∀ i, g.isInode i → σ.indirect i = 0
  direct : ∀ i k, g.isInode i → i ≠ 0 → g.Holds ((σ.inode i).get (.direct k))
  block : ∀ m, m < 128 → g.Holds ((σ.block 0).pointer m)

namespace ChainsIn

theorem pointer (h : ChainsIn g σ) (hi : g.isInode i) (h0 : i ≠ 0) (hn : n < 140) : g.Holds (σ.pointer i n) := by
  unfold View.pointer
  split
  · exact h.direct i _ hi h0
  · rw [h.indirect i hi]
    exact h.block _ (by omega)

/-- Nothing that boot follows has changed. -/
theorem edit (h : ChainsIn g σ) (he : Edits T σ τ) (hT : ∀ j f, T j f → f.points = false) (hb : τ.block 0 = σ.block 0) : ChainsIn g τ := by
  have hkeep : ∀ j f, Field.points f = true → (τ.inode j).get f = (σ.inode j).get f :=
    fun j f hf => he j f fun ht => by rw [hT j f ht] at hf; cases hf
  refine ⟨fun i hi => ?_, fun i k hi h0 => ?_, fun m hm => ?_⟩
  · exact (hkeep i .indirect rfl).trans (h.indirect i hi)
  · rw [hkeep i (.direct k) rfl]
    exact h.direct i k hi h0
  · rw [hb]
    exact h.block m hm

variable (h : ChainsIn g σ)
include h

theorem setInode {ino : Inode} (hf : ∀ f, Field.points f = true → ino.get f = (σ.inode i).get f) : ChainsIn g (σ.setInode i ino) :=
  h.edit (T := fun _ f => f.points = false) (.setInode fun f hp => hf f (by simpa using hp)) (fun _ _ => id) rfl

theorem setBlock {blk : Block} (hb : b ≠ 0) : ChainsIn g (σ.setBlock b blk) :=
  h.edit (T := fun _ _ => False) (.of_inode rfl) (fun _ _ => False.elim) (View.setBlock_block_ne hb.symm)

theorem editBlock {f : Block → Block} (hb : b ≠ 0) : ChainsIn g (σ.editBlock b f) := h.setBlock hb

/-- Marks and lists do not matter. -/
theorem congr (hv : τ.toView = σ.toView) : ChainsIn g τ := by
  obtain ⟨hi, hd, hb⟩ := h
  exact ⟨fun i => hv ▸ hi i, fun i k => hv ▸ hd i k, fun m => hv ▸ hb m⟩

theorem markInode : ChainsIn g (σ.markInode i) := h.congr rfl

theorem markBlock : ChainsIn g (σ.markBlock b) := h.congr rfl

theorem setDirect {l : Fin 12} {v : Int} (hv : g.Holds (Mem.wrap 4 v)) :
    ChainsIn g (σ.setInode i ((σ.inode i).set (.direct l) v)) := by
  refine ⟨fun j hj => ?_, fun j k hj h0 => ?_, h.block⟩
  · by_cases hji : j = i
    · subst hji
      rw [FS.setInode_view, View.indirect_setInode_self, Inode.indirect, Inode.get_set, if_neg (by simp)]
      exact h.indirect j hj
    · rw [View.indirect, FS.setInode_view, View.setInode_inode_ne hji]
      exact h.indirect j hj
  · by_cases hji : j = i
    · subst hji
      rw [FS.setInode_view, View.setInode_inode_self, Inode.get_set]
      split
      · exact hv
      · exact h.direct j k hj h0
    · rw [FS.setInode_view, View.setInode_inode_ne hji]
      exact h.direct j k hj h0

/-- A new pointer is that of a free block. -/
theorem alloc (hw : WellFormed g σ) (hr : InRange g σ) (hi : g.isInode i) : ChainsIn g (σ.alloc i n) := by
  have hnext : g.Holds (Mem.wrap 4 σ.next) := by
    rw [hw.wrap_next]
    exact hr.next
  have hpop : ChainsIn g σ.pop := h.congr rfl
  unfold FS.alloc
  split
  case isTrue => exact hpop.setDirect hnext
  case isFalse hn =>
    refine ⟨h.indirect, h.direct, fun m hm => ?_⟩
    rw [h.indirect i hi, FS.setBlock_view, View.setBlock_block_self]
    by_cases hmn : m = n - 12
    · rw [hmn, Block.pointer_setPointer_self _ _ _ (by omega)]
      exact hnext
    · rw [Block.pointer_setPointer_ne _ _ _ _ hmn]
      exact h.block m hm

end ChainsIn

/-! ## The pieces of the requests -/

theorem next_ne_zero (hw : WellFormed g σ) (hfree : σ.b_head ≠ []) : σ.next ≠ 0 := (hw.free _ (next_mem hfree)).1

theorem SlotAt.block_ne_zero (h : SlotAt g σ d k b) : b ≠ 0 :=
  h.block ▸ (h.wellFormed.mapped d h.inode).nonzero _ (covers_of_slot h.lt)

theorem truncate_chains (h : ChainsIn g σ) : ChainsIn g (σ.truncate i) :=
  h.edit truncate_edits (fun _ _ hf => by rw [hf.2]; rfl) rfl

theorem dropDir_chains (h : ChainsIn g σ) : ChainsIn g (σ.dropDir i) := (truncate_chains (i := i) h).congr rfl

theorem addLinks_chains {m : Int} (h : ChainsIn g σ) : ChainsIn g (σ.addLinks i m) :=
  h.edit addLinks_edits (fun _ _ hf => by rw [hf.2]; rfl) rfl

theorem popInode_chains (h : ChainsIn g σ) : ChainsIn g σ.popInode :=
  h.edit popInode_edits (fun _ _ hf => by rw [hf.2]; rfl) (by rw [popInode_block])

theorem initFile_chains (h : ChainsIn g σ) : ChainsIn g (σ.initFile i) := by
  refine (h.setInode fun f hf => ?_).markInode
  rw [Inode.get_set_points rfl hf, Inode.get_set_points rfl hf, Inode.get_set_points rfl hf]

theorem initDir_chains (h : ChainsIn g σ) : ChainsIn g (σ.initDir i) := by
  refine h.setInode fun f hf => ?_
  rw [Inode.get_set_points rfl hf, Inode.get_set_points rfl hf, Inode.get_set_points rfl hf]

theorem grow_chains (h : ChainsIn g σ) (hw : WellFormed g σ) (hr : InRange g σ) (hd : g.isInode d) (hdir : σ.isDir d)
    (hg : σ.size d % 512 = 0 → σ.CanGrow g d) : ChainsIn g (σ.grow d) := by
  have hsize : ∀ {σ : FS} {v : Int}, ChainsIn g σ → ChainsIn g (σ.setInode d ((σ.inode d).set .size v)) := fun h =>
    h.setInode fun f hf => Inode.get_set_points rfl hf
  unfold FS.grow
  split
  case isTrue hfull =>
    have halloc : ChainsIn g (σ.alloc d (σ.blocks d)) := h.alloc hw hr hd
    exact ((hsize halloc).setBlock (next_ne_zero hw (hg hfull).free)).markBlock.markInode
  case isFalse hpart =>
    obtain ⟨hpos, hslots⟩ := hw.sizes d hd hdir
    obtain ⟨_, _, hcov, _⟩ := slots_part hpos hslots hpart
    have hgrown : ChainsIn g _ := (hsize (v := σ.size d + DIRENTSIZE) h).markInode (i := d)
    exact (hgrown.setBlock ((hw.mapped d hd).nonzero _ hcov)).markBlock.markBlock

theorem Placed.chains (hp : Placed σ d name k σ') (h : ChainsIn g σ) (hw : WellFormed g σ) (hr : InRange g σ) (hd : g.isInode d)
    (hdir : σ.isDir d) (hroom : σ.RoomFor g d name) : ChainsIn g σ' := by
  rcases hp.eq_or_grow with rfl | ⟨hf, rfl⟩
  · exact h
  · exact grow_chains h hw hr hd hdir (hroom hf)

section

variable (hat : SlotAt g σ d k (σ.slotBlock d k)) (h : ChainsIn g σ)
include hat h

theorem SlotAt.newFile_chains : ChainsIn g (σ.newFile d k name) := by
  have hb := hat.block_ne_zero
  exact (initFile_chains ((popInode_chains (h.editBlock hb)).editBlock hb)).markBlock

theorem SlotAt.newLink_chains : ChainsIn g (σ.newLink d k name i) := by
  have hb := hat.block_ne_zero
  exact ((h.editBlock hb).editBlock hb).markBlock

theorem SlotAt.clearEntry_chains : ChainsIn g (σ.clearEntry d k) := (h.editBlock hat.block_ne_zero).markBlock

theorem SlotAt.removeEntry_chains : ChainsIn g (σ.removeEntry d k) := by
  have hlinks : ChainsIn g (σ.addLinks (σ.slotInum d k) (-1)) := addLinks_chains h
  unfold FS.removeEntry
  dsimp only
  split
  · exact ((truncate_chains hlinks).markInode.editBlock hat.block_ne_zero).markBlock
  · exact (hlinks.markInode.editBlock hat.block_ne_zero).markBlock

theorem SlotAt.newDir_chains (hr : InRange g σ) (hfree : σ.b_head ≠ []) : ChainsIn g (σ.newDir d k name) := by
  have hw := hat.wellFormed
  have hentry : ChainsIn g (σ.nameDir d k name) := ((popInode_chains h).editBlock hat.block_ne_zero).markBlock
  have hdir : ChainsIn g ((σ.nameDir d k name).initDir σ.nextInode).pop := (initDir_chains hentry).congr rfl
  have hnext : (σ.nameDir d k name).next = σ.next := nameDir_next
  have hhold : g.Holds (Mem.wrap 4 (σ.nameDir d k name).next) := by
    rw [hnext, hw.wrap_next]
    exact hr.next
  have hne : (σ.nameDir d k name).next ≠ 0 := hnext ▸ next_ne_zero hw hfree
  rw [newDir_eq]
  exact ((hdir.setDirect hhold).editBlock hne).markBlock.markInode

end

/-! ## Writes -/

section

variable {buf : UserBuf} {size byte_offset left off : Int}

theorem reach_chains (h : ChainsIn g σ) (hw : WellFormed g σ) (hr : InRange g σ) (hi : g.isInode i) : ChainsIn g (σ.reach i n) := by
  unfold FS.reach
  split
  · exact h
  · exact h.alloc hw hr hi

theorem putChunk_chains {off : Nat} {bytes : List UInt8} (h : ChainsIn g σ) (hb : σ.pointer i n ≠ 0) :
    ChainsIn g (σ.putChunk i n off bytes size byte_offset left) := by
  have hbytes : ChainsIn g ((σ.setBlock (σ.pointer i n) ((σ.block (σ.pointer i n)).store off bytes)).markBlock (σ.pointer i n)) :=
    (h.setBlock hb).markBlock
  exact hbytes.setInode fun f hf => update_i_size_get fun he => by rw [he] at hf; cases hf

theorem Writing.chains {r : Bool} (hwr : Writing i buf size byte_offset n left off σ r σ')
    (hs : Writable g σ i buf size byte_offset n left off) (hr : InRange g σ) (h : ChainsIn g σ) : ChainsIn g σ' := by
  induction hwr with
  | done => exact h
  | limit => exact h
  | stuck => exact reach_chains h hs.wellFormed hr hs.inode
  | @chunk _ _ _ _ _ bytes _ hpos hn hb hbytes _ ih =>
    have hput := (hs.round hpos hn).put hs.wellFormed bytes hb
    exact ih (hs.step hpos hn hb hbytes) (hr.draws (hput.draws hs.wellFormed hs.inode))
      (putChunk_chains (reach_chains h hs.wellFormed hr hs.inode) hb)

theorem Written.chains {r : Int} (hwr : Written σ i buf size byte_offset r σ') (hw : WellFormed g σ) (hs : σ.WriteOk g i buf size byte_offset)
    (hr : InRange g σ) (h : ChainsIn g σ) : ChainsIn g σ' := by
  cases hwr with
  | ended hwr => exact (hwr.chains (hs.writable hw) hr h).markInode
  | failed hwr => exact hwr.chains (hs.writable hw) hr h

end

/-! ## Requests -/

/-- A request stores only pointers to blocks of the disk. -/
theorem Effect.chains (heff : Effect σ req ret τ) (hw : WellFormed g σ) (hr : InRange g σ) (hsafe : req.Safe g σ) (h : ChainsIn g σ) :
    ChainsIn g τ := by
  have hroot := g.isInode_root
  cases heff with
  | looked => exact h
  | refused => exact h
  | create heff =>
    cases heff with
    | error => exact h
    | done _ hsup hne hdir heff =>
      have hd := (hw.superDir_isInode hroot hsafe.1 hsup).resolve_left hne
      have hroom := hsafe.2 _ _ hsup hdir
      cases heff with
      | taken => exact h
      | truncated => exact (truncate_chains h).markInode.markBlock
      | made hp => exact (hp.slotAt hw hd hdir hroom).newFile_chains (hp.chains h hw hr hd hdir hroom)
      | linked hp => exact (hp.slotAt hw hd hdir hroom).newLink_chains (hp.chains h hw hr hd hdir hroom)
  | write heff => exact heff.chains hw hsafe hr h
  | link heff =>
    cases heff with
    | error => exact h
    | done _ _ _ _ hsup hne hdir hp =>
      have hold (path : CStr) := adj_path_i_isInode path hroot hsafe.1
      have hd := (hw.superDir_isInode hroot (adj_path_i_isInode _ hroot (hold _)) hsup).resolve_left hne
      have hroom := hsafe.2 _ _ hsup hdir
      exact (addLinks_chains ((hp.slotAt hw hd hdir hroom).newLink_chains (hp.chains h hw hr hd hdir hroom))).markInode
  | unlink heff =>
    cases heff with
    | error => exact h
    | done _ hsup hne hdir hk =>
      have hd := (hw.superDir_isInode hroot hsafe hsup).resolve_left hne
      exact SlotAt.removeEntry_chains ⟨hw, hd, hdir, findSlot_lt hk, rfl⟩ h
  | mkdir heff =>
    cases heff with
    | error => exact h
    | done _ hsup hne hdir hp h0 =>
      have hd := (hw.superDir_isInode hroot (from_root_isInode _ hroot hsafe.1) hsup).resolve_left hne
      have hroom := (hsafe.2.1 _ _ hsup hne).2
      obtain ⟨_, hfree, _⟩ := hsafe.2.2 _ _ _ _ hsup hp h0
      exact (hp.slotAt hw hd hdir hroom).newDir_chains (hp.chains h hw hr hd hdir hroom) (hr.draws (hp.draws hw hd hdir hroom)) hfree
  | rmdir heff =>
    cases heff with
    | error => exact h
    | done _ hi hsize hsup hne hdir hp =>
      have hstart (path : CStr) := from_root_isInode path hroot hsafe.1
      have hi' := hi ▸ hw.resolve_isInode (hstart _)
      have hw₁ := dropDir_wellFormed hw hi'
      have hd := (hw₁.superDir_isInode hroot (hstart _) hsup).resolve_left hne
      subst hi
      have hroom := (hsafe.2 hsize _ _ hsup hne).2
      exact (hp.slotAt hw₁ hd hdir hroom).clearEntry_chains (hp.chains (dropDir_chains h) hw₁ (hr.draws (dropDir_draws hw hi')) hd hdir hroom)

/-- What shows the same inodes and blocks has the same pointers. -/
theorem ChainsIn.shown (h : ChainsIn g σ) (hinode : ∀ i, g.isInode i → τ.inode i = σ.inode i)
    (hblock : ∀ b, ¬ g.isTable b → τ.block b = σ.block b) : ChainsIn g τ := by
  refine ⟨fun i hi => (congrArg Inode.indirect (hinode i hi)).trans (h.indirect i hi), fun i k hi h0 => ?_, fun m hm => ?_⟩
  · rw [hinode i hi]
    exact h.direct i k hi h0
  · rw [hblock 0 fun ht => absurd ht.1 (by decide)]
    exact h.block m hm

end Yfs
