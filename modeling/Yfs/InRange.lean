import Yfs.Requests.Frame

/-! # Every block is on the disk -/

namespace Yfs

/-- A block that the state names: that of a file, an indirect block or a free one. -/
def FS.Names (σ : FS) (g : Geometry) (b : Int) : Prop :=
  (∃ key, σ.ledger g key = some b) ∨ (∃ i, g.isInode i ∧ σ.indirect i = b) ∨ b ∈ σ.b_head

/-- All of them are on the disk. -/
def InRange (g : Geometry) (σ : FS) : Prop := ∀ b, σ.Names g b → 0 ≤ b ∧ b < g.sectors

/-- A step that names no new block. -/
def Draws (g : Geometry) (σ σ' : FS) : Prop := ∀ b, σ'.Names g b → σ.Names g b

variable {g : Geometry} {σ σ' : FS} {i j d b : Int} {k n : Nat} {name : CStr}

theorem InRange.draws (h : InRange g σ) (hd : Draws g σ σ') : InRange g σ' := fun b hb => h b (hd b hb)

namespace InRange

variable (h : InRange g σ)
include h

theorem pointer (hm : σ.Mapped g i) (hi : g.isInode i) (hc : σ.covers i n) :
    0 ≤ σ.pointer i n ∧ σ.pointer i n < g.sectors := h _ (.inl ⟨_, View.ledger_data hm hi hc⟩)

theorem indirect (hi : g.isInode i) : 0 ≤ σ.indirect i ∧ σ.indirect i < g.sectors := h _ (.inr (.inl ⟨i, hi, rfl⟩))

theorem next : 0 ≤ σ.next ∧ σ.next < g.sectors := by
  cases hl : σ.b_head with
  | nil =>
    have := g.table_pos
    have := g.table_fits
    rw [FS.next, hl]
    simp only [List.headD_nil]
    omega
  | cons b rest => exact h _ (.inr (.inr (next_mem (by simp [hl]))))

end InRange

namespace Draws

theorem refl (σ : FS) : Draws g σ σ := fun _ => id

theorem trans {τ : FS} (h : Draws g σ σ') (h' : Draws g σ' τ) : Draws g σ τ := fun b hb => h b (h' b hb)

/-- Marks do not matter. -/
theorem markInode (h : Draws g σ σ') : Draws g σ (σ'.markInode i) := h

theorem markBlock (h : Draws g σ σ') : Draws g σ (σ'.markBlock b) := h

/-- A step on file `i`. -/
theorem step (i : Int) (hsame : ∀ j, g.isInode j → j ≠ i → σ.Same σ'.toView j) (hind : σ'.indirect i = σ.indirect i)
    (hi : ∀ o b, σ'.ledger g (i, o) = some b → σ.Names g b) (hfree : ∀ b ∈ σ'.b_head, σ.Names g b) : Draws g σ σ' := by
  rintro b (⟨⟨j, o⟩, hk⟩ | ⟨j, hj, rfl⟩ | hb)
  · by_cases hji : j = i
    · exact hi o b (hji ▸ hk)
    · exact .inl ⟨(j, o), (ledger_of_same hsame hji).symm.trans hk⟩
  · by_cases hji : j = i
    · exact .inr (.inl ⟨j, hj, by rw [hji, hind]⟩)
    · exact .inr (.inl ⟨j, hj, (hsame j hj hji).indirect.symm⟩)
  · exact hfree b hb

/-- A step that shows every file the same. -/
theorem keep (hsame : ∀ j, g.isInode j → σ.Same σ'.toView j) (hfree : σ'.b_head ⊆ σ.b_head) : Draws g σ σ' := by
  rintro b (⟨⟨j, o⟩, hk⟩ | ⟨j, hj, rfl⟩ | hb)
  · exact .inl ⟨(j, o), (ledger_of_same (i := j + 1) (fun l hl _ => hsame l hl) (by omega)).symm.trans hk⟩
  · exact .inr (.inl ⟨j, hj, (hsame j hj).indirect.symm⟩)
  · exact .inr (.inr (hfree hb))

end Draws

theorem Appended.draws (h : Appended σ σ' i) (hw : WellFormed g σ) (hg : σ.CanGrow g i) (hi : g.isInode i) : Draws g σ σ' := by
  refine .step i (fun j hj hne => h.same hw hg hj hne) h.indirect (fun o b hk => ?_) fun b hb => ?_
  · rcases h.holds hw hg hi hk with hk | ⟨_, rfl⟩ | ⟨_, rfl, _⟩
    · exact .inl ⟨_, hk⟩
    · exact .inr (.inr (next_mem hg.free))
    · exact .inr (.inl ⟨i, hi, rfl⟩)
  · rw [h.b_head] at hb
    exact .inr (.inr (List.mem_of_mem_tail hb))

theorem Rewritten.draws (h : Rewritten σ σ' i) (hw : WellFormed g σ) (hi : g.isInode i) : Draws g σ σ' := by
  refine .step i (fun j hj hne => h.same hw hi hj hne) h.indirect (fun o b hk => ?_) fun b hb => ?_
  · exact .inl ⟨_, (h.ledger hw hi _).symm.trans hk⟩
  · exact .inr (.inr (h.b_head ▸ hb))

theorem Emptied.draws {freed : List Int} (h : Emptied σ σ' i freed) (hw : WellFormed g σ) (hi : g.isInode i)
    (hind : σ'.indirect i = σ.indirect i) : Draws g σ σ' := by
  refine .step i (fun j hj hne => h.same hw hj hne) hind (fun o b hk => ?_) fun b hb => ?_
  · rw [h.ledger_none o] at hk
    cases hk
  · rw [h.b_head, List.mem_append] at hb
    rcases hb with hb | hb
    · obtain ⟨m, hc, rfl⟩ := h.held b hb
      exact .inl ⟨_, View.ledger_data (hw.mapped i hi) hi hc⟩
    · exact .inr (.inr hb)

/-! ## The pieces of the requests -/

theorem truncate_draws (hw : WellFormed g σ) (hi : g.isInode i) : Draws g σ (σ.truncate i) :=
  (truncate_emptied hw hi).draws hw hi (truncate_edits i .indirect (by simp))

theorem grow_draws (hw : WellFormed g σ) (hd : g.isInode d) (hdir : σ.isDir d) (hg : σ.size d % 512 = 0 → σ.CanGrow g d) :
    Draws g σ (σ.grow d) := by
  unfold FS.grow
  split
  case isTrue hfull => exact (growBlock_appended hw hd hdir hfull (hg hfull)).draws hw (hg hfull) hd
  case isFalse hpart => exact (growLast_written hw hd hdir hpart).toRewritten.draws hw hd

theorem Placed.draws (hp : Placed σ d name k σ') (hw : WellFormed g σ) (hd : g.isInode d) (hdir : σ.isDir d)
    (hroom : σ.RoomFor g d name) : Draws g σ σ' := by
  rcases hp.eq_or_grow with rfl | ⟨hf, rfl⟩
  · exact .refl _
  · exact grow_draws hw hd hdir (hroom hf)

theorem SlotAt.edit_draws {f : Block → Block} (h : SlotAt g σ d k b) (hf : ∀ blk, SlotOnly blk (f blk) (k % 16)) :
    Draws g σ (σ.editBlock b f) := (h.written hf).toRewritten.draws h.wellFormed h.inode

theorem popInode_draws : Draws g σ σ.popInode := .keep (fun _ _ => popInode_same) (by rw [FS.popInode_b_head]; exact List.Subset.refl _)

theorem SlotAt.newFile_draws (h : SlotAt g σ d k (σ.slotBlock d k)) (hshort : 8 * g.table ≤ 2 ^ 15) :
    Draws g σ (σ.newFile d k name) := by
  have hi := h.wellFormed.nextInode
  have hnamed : SlotAt g (σ.setName (σ.slotBlock d k) (slotOffset k) name) d k (σ.slotBlock d k) := h.setName
  have h₁ := hnamed.popInode
  have h₂ := h₁.setInum hi (wrap_inode hshort hi)
  have hname := h.edit_draws (slotOnly_strncpy name)
  have hinum := h₁.edit_draws (slotOnly_inum σ.nextInode)
  have hinit : Draws g _ _ := initFile_emptied.draws h₂.wellFormed hi (by simp [FS.initFile])
  exact hname.trans (popInode_draws.trans (hinum.trans hinit))

theorem SlotAt.newLink_draws (h : SlotAt g σ d k (σ.slotBlock d k)) : Draws g σ (σ.newLink d k name i) :=
  (h.edit_draws (slotOnly_strncpy name)).trans (h.setName.edit_draws (slotOnly_inum _))

theorem SlotAt.clearEntry_draws (h : SlotAt g σ d k (σ.slotBlock d k)) : Draws g σ (σ.clearEntry d k) :=
  h.edit_draws (slotOnly_inum _)

theorem addLinks_draws {m : Int} : Draws g σ (σ.addLinks i m) := .keep (fun _ _ => addLinks_same) (List.Subset.refl _)

theorem SlotAt.truncated_draws (h : SlotAt g σ d k b) (hi : g.isInode i) :
    Draws g σ (((σ.truncate i).markInode i).setInum b (slotOffset k) 0) := by
  have hemp := truncate_emptied h.wellFormed hi
  have hw := hemp.wellFormed h.wellFormed hi h.wellFormed.inodes
  refine (truncate_draws h.wellFormed hi).trans ?_
  by_cases hdi : d = i
  · subst hdi
    have hb := View.ledger_data (h.wellFormed.mapped d hi) hi (covers_of_slot h.lt)
    rw [show σ.pointer d (k / 16) = b from h.block] at hb
    have hloose := hemp.loose h.wellFormed hi hb
    exact .keep (fun j hj => loose_same hw.markInode hloose hj) (List.Subset.refl _)
  · have hs := hemp.same h.wellFormed h.inode hdi
    exact (h.of_same hw.markInode hs).edit_draws (slotOnly_inum _)

theorem SlotAt.removeEntry_draws (h : SlotAt g σ d k (σ.slotBlock d k)) : Draws g σ (σ.removeEntry d k) := by
  have hi := h.wellFormed.entries d k h.inode h.dir h.lt
  have h₁ := h.of_same (h.wellFormed.addLinks (i := σ.slotInum d k) (n := -1)) addLinks_same
  have hlinks : Draws g σ (σ.addLinks (σ.slotInum d k) (-1)) := addLinks_draws
  unfold FS.removeEntry
  dsimp only
  refine Draws.markBlock (hlinks.trans ?_)
  split
  case isTrue => exact h₁.truncated_draws hi
  case isFalse =>
    have hmark := h₁.of_same (h₁.wellFormed.markInode (i := σ.slotInum d k)) (View.Same.refl _ _)
    exact hmark.edit_draws (slotOnly_inum _)

theorem SlotAt.newDir_draws (h : SlotAt g σ d k (σ.slotBlock d k)) (hshort : 8 * g.table ≤ 2 ^ 15)
    (hname : name.length ≤ 30) (hfree : σ.b_head ≠ []) (hdata : ¬ g.isTable σ.next) : Draws g σ (σ.newDir d k name) := by
  have hi := h.wellFormed.nextInode
  have hw := (h.nameDir hshort hname).wellFormed
  have hfree' : (σ.nameDir d k name).b_head ≠ [] := by rwa [nameDir_b_head]
  have hdata' : ¬ g.isTable (σ.nameDir d k name).next := by rwa [nameDir_next]
  have hentry := h.popInode.edit_draws (nameEntry_slotOnly σ.nextInode hname)
  have hbare := bareDir_emptied (i := σ.nextInode).draws hw hi (by simp [FS.bareDir])
  have hhead := (headBlock_appended (d := d) hw hi hfree' hdata').draws (bareDir_emptied.wellFormed hw hi hw.inodes)
    (bareDir_canGrow hfree' hdata') hi
  exact popInode_draws.trans (hentry.trans (hbare.trans hhead))

theorem dropDir_draws (hw : WellFormed g σ) (hi : g.isInode i) : Draws g σ (σ.dropDir i) := truncate_draws hw hi

theorem reach_draws (hw : WellFormed g σ) (hi : g.isInode i) (hind : ¬ σ.covers i n → 12 ≤ n → σ.OwnIndirect g i) :
    Draws g σ (σ.reach i n) := by
  unfold FS.reach
  split
  case isTrue => exact .refl σ
  case isFalse hc =>
    refine .keep (fun j hj => alloc_same hw hi hc (hind hc) hj) ?_
    rw [FS.alloc_globals]
    exact List.tail_subset _

theorem Put.draws (h : Put g σ σ' i n) (hw : WellFormed g σ) (hi : g.isInode i) : Draws g σ σ' := by
  cases h with
  | inside _ h => exact h.draws hw hi
  | atEnd _ hg h => exact h.draws hw hg hi

theorem Writing.draws {buf : UserBuf} {size byte_offset left off : Int} {r : Bool}
    (h : Writing i buf size byte_offset n left off σ r σ') (hs : Writable g σ i buf size byte_offset n left off) :
    Draws g σ σ' := by
  induction h with
  | done => exact .refl _
  | limit => exact .refl _
  | stuck hpos hn => exact reach_draws hs.wellFormed hs.inode (hs.round hpos hn).indirect
  | chunk hpos hn hb hbytes _ ih =>
    exact (((hs.round hpos hn).put hs.wellFormed _ hb).draws hs.wellFormed hs.inode).trans (ih (hs.step hpos hn hb hbytes))

theorem Written.draws {buf : UserBuf} {size byte_offset r : Int} (h : Written σ i buf size byte_offset r σ')
    (hw : WellFormed g σ) (hs : σ.WriteOk g i buf size byte_offset) : Draws g σ σ' := by
  cases h with
  | ended h => exact h.draws (hs.writable hw)
  | failed h => exact h.draws (hs.writable hw)

theorem Effect.draws {req : Request} {ret : Int} (h : Effect σ req ret σ') (hw : WellFormed g σ) (hroot : g.isInode ROOTINODE)
    (hshort : 8 * g.table ≤ 2 ^ 15) (hsafe : req.Safe g σ) : Draws g σ σ' := by
  cases h with
  | looked => exact .refl σ
  | refused => exact .refl σ
  | create h =>
    cases h with
    | error => exact .refl σ
    | done _ hsup hne hdir h =>
      have hd := (hw.superDir_isInode hroot hsafe.1 hsup).resolve_left hne
      have hroom := hsafe.2 _ _ hsup hdir
      cases h with
      | taken => exact .refl σ
      | truncated hk => exact truncate_draws hw (hw.entries _ _ hd hdir (findSlot_lt hk))
      | made hp => exact (hp.draws hw hd hdir hroom).trans ((hp.slotAt hw hd hdir hroom).newFile_draws hshort)
      | linked hp => exact (hp.draws hw hd hdir hroom).trans (hp.slotAt hw hd hdir hroom).newLink_draws
  | write h => exact h.draws hw hsafe
  | link h =>
    cases h with
    | error => exact .refl σ
    | done _ _ _ _ hsup hne hdir hp =>
      have hold (path : CStr) := adj_path_i_isInode path hroot hsafe.1
      have hd := (hw.superDir_isInode hroot (adj_path_i_isInode _ hroot (hold _)) hsup).resolve_left hne
      have hroom := hsafe.2 _ _ hsup hdir
      exact (hp.draws hw hd hdir hroom).trans ((hp.slotAt hw hd hdir hroom).newLink_draws.trans addLinks_draws)
  | unlink h =>
    cases h with
    | error => exact .refl σ
    | done _ hsup hne hdir hk =>
      have hd := (hw.superDir_isInode hroot hsafe hsup).resolve_left hne
      exact SlotAt.removeEntry_draws ⟨hw, hd, hdir, findSlot_lt hk, rfl⟩
  | mkdir h =>
    cases h with
    | error => exact .refl σ
    | done _ hsup hne hdir hp h0 =>
      have hd := (hw.superDir_isInode hroot (from_root_isInode _ hroot hsafe.1) hsup).resolve_left hne
      have hroom := (hsafe.2.1 _ _ hsup hne).2
      obtain ⟨hname, hfree, hdata⟩ := hsafe.2.2 _ _ _ _ hsup hp h0
      exact (hp.draws hw hd hdir hroom).trans ((hp.slotAt hw hd hdir hroom).newDir_draws hshort hname hfree hdata)
  | rmdir h =>
    cases h with
    | error => exact .refl σ
    | done _ hi hsize hsup hne hdir hp =>
      have hstart (path : CStr) := from_root_isInode path hroot hsafe.1
      have hi' := hi ▸ hw.resolve_isInode (hstart _)
      have hw₁ := dropDir_wellFormed hw hi'
      have hd := (hw₁.superDir_isInode hroot (hstart _) hsup).resolve_left hne
      subst hi
      have hroom := (hsafe.2 hsize _ _ hsup hne).2
      exact (dropDir_draws hw hi').trans ((hp.draws hw₁ hd hdir hroom).trans
        (hp.slotAt hw₁ hd hdir hroom).clearEntry_draws)

theorem FS.Agrees.inRange {τ : FS} (h : σ.Agrees g τ) (hw : WellFormed g σ) (hr : InRange g σ) : InRange g τ :=
  hr.draws (.keep (fun _ hj => h.same hw hj) (by rw [h.globals]; exact List.Subset.refl _))

end Yfs
