import Yfs.InRange
import Yfs.TreeShape

/-! # No block is lost

What leaves the free list is held by a file, and what a file lets go of returns to the list.
-/

namespace Yfs

open Ledger

variable {g : Geometry} {σ σ' τ : FS} {sv sv₀ sv' : Server} {d e i j b ret : Int} {k n : Nat} {name : CStr} {req : Request} {reqs : List Request}

/-- The data blocks under inode and index. -/
def View.holding (v : View) (g : Geometry) (key : Int × Nat) : Option Int := v.ledger g (key.1, some key.2)

/-- A step that loses no block. -/
def Retains (g : Geometry) (σ σ' : FS) : Prop := ∀ b, Accounted (σ.holding g) σ.b_head b → Accounted (σ'.holding g) σ'.b_head b

theorem holding_eq_some : σ.holding g (i, n) = some b ↔ σ.owns g i n b := ledger_owns

namespace Retains

theorem refl (σ : FS) : Retains g σ σ := fun _ => id

theorem trans (h : Retains g σ σ') (h' : Retains g σ' τ) : Retains g σ τ := fun b hb => h' b (h b hb)

/-- Marks do not matter. -/
theorem markInode (h : Retains g σ σ') : Retains g σ (σ'.markInode i) := h

theorem markBlock (h : Retains g σ σ') : Retains g σ (σ'.markBlock b) := h

/-- A step on file `i`. -/
theorem step (i : Int) (hsame : ∀ j, g.isInode j → j ≠ i → σ.Same σ'.toView j)
    (hi : ∀ n b, σ.owns g i n b → Accounted (σ'.holding g) σ'.b_head b)
    (hfree : ∀ b ∈ σ.b_head, Accounted (σ'.holding g) σ'.b_head b) : Retains g σ σ' := by
  refine fun b hb => hb.step (hfree b) ?_
  rintro ⟨j, n⟩ hk
  by_cases hji : j = i
  · exact hi n b (hji ▸ holding_eq_some.mp hk)
  · exact .inr ⟨(j, n), (ledger_of_same hsame hji).trans hk⟩

/-- A step that shows every file the same. -/
theorem keep (hsame : ∀ j, g.isInode j → σ.Same σ'.toView j) (hfree : σ.b_head ⊆ σ'.b_head) : Retains g σ σ' := by
  refine fun b hb => hb.step (fun h => .inl (hfree h)) ?_
  rintro ⟨j, n⟩ hk
  exact .inr ⟨(j, n), (ledger_of_same (i := j + 1) (fun l hl _ => hsame l hl) (by show j ≠ j + 1; omega)).trans hk⟩

end Retains

/-! ## Files that grow and shrink -/

theorem Appended.retains (h : Appended σ σ' i) (hw : WellFormed g σ) (hg : σ.CanGrow g i) (hi : g.isInode i) : Retains g σ σ' := by
  have hm' := h.mapped hw hg hi
  refine .step i (fun j hj hne => h.same hw hg hj hne) ?_ fun b hb => ?_
  · rintro n b ⟨_, hc, rfl⟩
    have hc' : σ'.covers i n := (h.covers n).mpr (Nat.le_of_lt (View.covers_iff.mp hc))
    rw [(hw.mapped i hi).nthBlock hc, ← h.old n hc]
    exact .inr ⟨(i, n), View.ledger_data hm' hi hc'⟩
  · rw [b_head_eq hg.free] at hb
    rcases List.mem_cons.mp hb with rfl | hb
    · refine .inr ⟨(i, σ.blocks i), ?_⟩
      rw [← h.new]
      exact View.ledger_data hm' hi ((h.covers _).mpr le_rfl)
    · exact .inl (h.b_head ▸ hb)

theorem Rewritten.retains (h : Rewritten σ σ' i) (hw : WellFormed g σ) (hi : g.isInode i) : Retains g σ σ' := by
  refine .step i (fun j hj hne => h.same hw hi hj hne) (fun n b ho => ?_) fun b hb => .inl (h.b_head ▸ hb)
  exact .inr ⟨(i, n), (h.ledger hw hi _).trans (holding_eq_some.mpr ho)⟩

theorem Emptied.retains {freed : List Int} (h : Emptied σ σ' i freed) (hw : WellFormed g σ)
    (hall : ∀ n, σ.covers i n → σ.nthBlock i n ∈ freed) : Retains g σ σ' := by
  refine .step i (fun j hj hne => h.same hw hj hne) ?_ fun b hb => ?_
  · rintro n b ⟨_, hc, rfl⟩
    exact .inl (h.b_head ▸ List.mem_append_left _ (hall n hc))
  · exact .inl (h.b_head ▸ List.mem_append_right _ hb)

/-- What held nothing is emptied. -/
theorem Emptied.retains_bare {freed : List Int} (h : Emptied σ σ' i freed) (hw : WellFormed g σ) (h0 : σ.size i = 0) : Retains g σ σ' :=
  h.retains hw fun n hc => by
    rw [View.covers, h0, BLOCKSIZE] at hc
    omega

theorem truncate_retains (hw : WellFormed g σ) (hi : g.isInode i) : Retains g σ (σ.truncate i) := by
  refine (truncate_emptied hw hi).retains hw fun n hc => ?_
  rw [(hw.mapped i hi).nthBlock hc, List.mem_reverse]
  exact List.mem_map_of_mem (List.mem_range.mpr (View.covers_iff.mp hc))

/-! ## The pieces of the requests -/

theorem grow_retains (hw : WellFormed g σ) (hd : g.isInode d) (hdir : σ.isDir d) (hg : σ.size d % 512 = 0 → σ.CanGrow g d) :
    Retains g σ (σ.grow d) := by
  unfold FS.grow
  split
  case isTrue hfull => exact (growBlock_appended hw hd hdir hfull (hg hfull)).retains hw (hg hfull) hd
  case isFalse hpart => exact (growLast_written hw hd hdir hpart).toRewritten.retains hw hd

theorem Placed.retains (hp : Placed σ d name k σ') (hw : WellFormed g σ) (hd : g.isInode d) (hdir : σ.isDir d)
    (hroom : σ.RoomFor g d name) : Retains g σ σ' := by
  rcases hp.eq_or_grow with rfl | ⟨hf, rfl⟩
  · exact .refl _
  · exact grow_retains hw hd hdir (hroom hf)

theorem SlotAt.edit_retains {f : Block → Block} (h : SlotAt g σ d k b) (hf : ∀ blk, SlotOnly blk (f blk) (k % 16)) :
    Retains g σ (σ.editBlock b f) := (h.written hf).toRewritten.retains h.wellFormed h.inode

theorem popInode_retains : Retains g σ σ.popInode :=
  .keep (fun _ _ => popInode_same) (by rw [FS.popInode_b_head]; exact List.Subset.refl _)

theorem addLinks_retains {m : Int} : Retains g σ (σ.addLinks i m) := .keep (fun _ _ => addLinks_same) (List.Subset.refl _)

theorem SlotAt.newFile_retains (h : SlotAt g σ d k (σ.slotBlock d k)) (hshort : 8 * g.table ≤ 2 ^ 15) (h0 : σ.size σ.nextInode = 0) :
    Retains g σ (σ.newFile d k name) := by
  have hi := h.wellFormed.nextInode
  have hnamed : SlotAt g (σ.setName (σ.slotBlock d k) (slotOffset k) name) d k (σ.slotBlock d k) := h.setName
  have h₁ := hnamed.popInode
  have h₂ := h₁.setInum hi (wrap_inode hshort hi)
  have hname := h.edit_retains (slotOnly_strncpy name)
  have hinum := h₁.edit_retains (slotOnly_inum σ.nextInode)
  have hsize : (σ.setName (σ.slotBlock d k) (slotOffset k) name).popInode.size σ.nextInode = 0 := popInode_same.size.trans h0
  have hinit : Retains g _ _ := initFile_emptied.retains_bare h₂.wellFormed hsize
  exact hname.trans (popInode_retains.trans (hinum.trans hinit))

theorem SlotAt.newLink_retains (h : SlotAt g σ d k (σ.slotBlock d k)) : Retains g σ (σ.newLink d k name i) :=
  (h.edit_retains (slotOnly_strncpy name)).trans (h.setName.edit_retains (slotOnly_inum _))

theorem SlotAt.clearEntry_retains (h : SlotAt g σ d k (σ.slotBlock d k)) : Retains g σ (σ.clearEntry d k) :=
  h.edit_retains (slotOnly_inum _)

theorem SlotAt.truncated_retains (h : SlotAt g σ d k b) (hi : g.isInode i) :
    Retains g σ (((σ.truncate i).markInode i).setInum b (slotOffset k) 0) := by
  have hemp := truncate_emptied h.wellFormed hi
  have hw := hemp.wellFormed h.wellFormed hi h.wellFormed.inodes
  refine (truncate_retains h.wellFormed hi).trans ?_
  by_cases hdi : d = i
  · subst hdi
    have hb := View.ledger_data (h.wellFormed.mapped d hi) hi (covers_of_slot h.lt)
    rw [show σ.pointer d (k / 16) = b from h.block] at hb
    have hloose := hemp.loose h.wellFormed hi hb
    exact .keep (fun j hj => loose_same hw.markInode hloose hj) (List.Subset.refl _)
  · have hs := hemp.same h.wellFormed h.inode hdi
    exact (h.of_same hw.markInode hs).edit_retains (slotOnly_inum _)

theorem SlotAt.removeEntry_retains (h : SlotAt g σ d k (σ.slotBlock d k)) : Retains g σ (σ.removeEntry d k) := by
  have hi := h.wellFormed.entries d k h.inode h.dir h.lt
  have h₁ := h.of_same (h.wellFormed.addLinks (i := σ.slotInum d k) (n := -1)) addLinks_same
  have hlinks : Retains g σ (σ.addLinks (σ.slotInum d k) (-1)) := addLinks_retains
  unfold FS.removeEntry
  dsimp only
  refine Retains.markBlock (hlinks.trans ?_)
  split
  case isTrue => exact h₁.truncated_retains hi
  case isFalse =>
    have hmark := h₁.of_same (h₁.wellFormed.markInode (i := σ.slotInum d k)) (View.Same.refl _ _)
    exact hmark.edit_retains (slotOnly_inum _)

theorem SlotAt.newDir_retains (h : SlotAt g σ d k (σ.slotBlock d k)) (hshort : 8 * g.table ≤ 2 ^ 15)
    (hname : name.length ≤ 30) (hfree : σ.b_head ≠ []) (hdata : ¬ g.isTable σ.next) (h0 : σ.size σ.nextInode = 0) :
    Retains g σ (σ.newDir d k name) := by
  have hi := h.wellFormed.nextInode
  have hw := (h.nameDir hshort hname).wellFormed
  have hfree' : (σ.nameDir d k name).b_head ≠ [] := by rwa [nameDir_b_head]
  have hdata' : ¬ g.isTable (σ.nameDir d k name).next := by rwa [nameDir_next]
  have hentry := h.popInode.edit_retains (nameEntry_slotOnly σ.nextInode hname)
  have hsize : (σ.nameDir d k name).size σ.nextInode = 0 := popInode_same.size.trans h0
  have hbare := (bareDir_emptied (i := σ.nextInode)).retains_bare hw hsize
  have hhead := (headBlock_appended (d := d) hw hi hfree' hdata').retains (bareDir_emptied.wellFormed hw hi hw.inodes)
    (bareDir_canGrow hfree' hdata') hi
  exact popInode_retains.trans (hentry.trans (hbare.trans hhead))

theorem dropDir_retains (hw : WellFormed g σ) (hi : g.isInode i) : Retains g σ (σ.dropDir i) := truncate_retains hw hi

theorem Put.retains (h : Put g σ σ' i n) (hw : WellFormed g σ) (hi : g.isInode i) : Retains g σ σ' := by
  cases h with
  | inside _ h => exact h.retains hw hi
  | atEnd _ hg h => exact h.retains hw hg hi

/-! ## Writes -/

section

variable {buf : UserBuf} {size byte_offset left off : Int}

/-- A round that stops takes a block only to copy something that cannot be copied. -/
theorem stuck_retains (hs : Writable g σ i buf size byte_offset n left off) (hpos : 0 < left) (hn : n < 140)
    (hfail : (σ.reach i n).pointer i n = 0 ∨ CopyFrom buf (size - left).toNat (get_num_copy_bytes left off).toNat = none)
    (hcopy : σ.covers i n ∨ chunkMapped buf size byte_offset n) : Retains g σ (σ.reach i n) := by
  unfold FS.reach at hfail ⊢
  by_cases hc : σ.covers i n
  · rw [if_pos hc]
    exact .refl σ
  · rw [if_neg hc] at hfail ⊢
    have hmapped := (hs.chunkMapped hpos).mp (hcopy.resolve_left hc)
    have hzero := hfail.resolve_right (by simp [CopyFrom, hmapped])
    rw [FS.pointer_alloc_self hn, hs.wellFormed.wrap_next] at hzero
    have hnone : σ.b_head = [] := by
      by_contra hb
      exact (hs.wellFormed.free _ (next_mem hb)).1 hzero
    exact .keep (fun j hj => alloc_same hs.wellFormed hs.inode hc ((hs.round hpos hn).indirect hc) hj) (by simp [hnone])

theorem Writing.retains {r : Bool} (h : Writing i buf size byte_offset n left off σ r σ') (hs : Writable g σ i buf size byte_offset n left off)
    (hcopy : ∀ m, n ≤ m → m < 140 → 512 * (m : Int) < byte_offset + size → σ.covers i m ∨ chunkMapped buf size byte_offset m) :
    Retains g σ σ' := by
  induction h with
  | done => exact .refl _
  | limit => exact .refl _
  | @stuck n _ _ _ hpos hn hfail =>
    have hposn := hs.position hpos
    have hoff := hs.offset
    exact stuck_retains hs hpos hn hfail (hcopy n le_rfl hn (by omega))
  | @chunk _ _ _ _ _ bytes _ hpos hn hb hbytes _ ih =>
    have hput := (hs.round hpos hn).put hs.wellFormed bytes hb
    refine (hput.retains hs.wellFormed hs.inode).trans (ih (hs.step hpos hn hb hbytes) fun m hm h140 hlt => ?_)
    exact (hcopy m (by omega) h140 hlt).imp_left hput.covers

end

/-- The condition on a request and the state before it: `write` goes to an inode in use, and finds what it copies into new blocks. -/
def Request.KeepsBlocks (g : Geometry) (σ : FS) : Request → Prop
  | .write i buf size byte_offset => σ.Taken g i ∧ ∀ m : Nat, byte_offset / 512 ≤ m → m < 140 → 512 * (m : Int) < byte_offset + size →
    σ.covers i m ∨ chunkMapped buf size byte_offset m
  | _ => True

theorem Written.retains {buf : UserBuf} {size byte_offset r : Int} (h : Written σ i buf size byte_offset r σ') (hw : WellFormed g σ)
    (hs : σ.WriteOk g i buf size byte_offset) (hcopy : (Request.write i buf size byte_offset).KeepsBlocks g σ) : Retains g σ σ' := by
  have h0 := hs.offset
  have hall : ∀ m : Nat, (byte_offset / 512).toNat ≤ m → m < 140 → 512 * (m : Int) < byte_offset + size →
      σ.covers i m ∨ chunkMapped buf size byte_offset m := fun m hm => hcopy.2 m (by omega)
  cases h with
  | ended h => exact h.retains (hs.writable hw) hall
  | failed h => exact h.retains (hs.writable hw) hall

/-! ## Requests -/

/-- Inodes that are not in use have no blocks. -/
def FS.Bare (g : Geometry) (σ : FS) : Prop := ∀ e, g.isInode e → ¬ σ.Taken g e → σ.size e = 0

/-- The next free inode has no blocks. -/
theorem FS.Bare.next (h : σ.Bare g) (hw : WellFormed g σ) : σ.size σ.nextInode = 0 := h _ hw.nextInode fun ht => ht.ne_next rfl

theorem Placed.next_bare (hp : Placed σ d name k σ') (hd : σ.Taken g d) (h0 : σ.size σ.nextInode = 0) : σ'.size σ'.nextInode = 0 := by
  rw [hp.nextInode]
  exact (hp.edits _ .size fun hf => hd.ne_next hf.1.symm).trans h0

section

variable (ht : σ.Planted g) (hw : WellFormed g σ) (hshort : 8 * g.table ≤ 2 ^ 15) (hbare : σ.Bare g) (h : Effect σ req ret τ)
  (hsafe : req.Safe g σ) (hkeeps : req.KeepsTree g σ) (hblocks : req.KeepsBlocks g σ)
include ht hw hbare h hsafe hkeeps hblocks

theorem Effect.bare : τ.Bare g := by
  intro e he hfree
  by_cases hold : σ.Taken g e
  · have hmem : e ∈ τ.i_head := by
      by_contra hm
      exact hfree ⟨he, hm, hold.2.2⟩
    have hfrees := (h.frees hw hsafe hmem).resolve_left hold.2.1
    cases h with
    | @rmdir path cur _ _ h =>
      cases h with
      | error => exact absurd hold hfree
      | @done i d _ _ _ _ hi hsize hsup hne _ hp =>
        obtain rfl : i = e := hi.symm.trans hfrees.2.1
        obtain ⟨_, _, _, hname⟩ := hkeeps.2 i hi hsize
        have hdi := (hname _ _ hsup hne).1
        have hplaced := (hp.edits i .size fun hf => hdi hf.1.symm).trans truncate_size
        exact hplaced
    | looked => exact absurd hold hfree
    | refused => exact absurd hold hfree
    | _ => exact False.elim hfrees
  · refine h.size_idle ht hw hsafe hkeeps hold (fun hhead hnext => ?_) (fun buf size offset hreq => ?_) (hbare e he hold)
    · by_contra h0
      exact hfree ((taken_tail ht.nodup hw.nextInode (hnext ▸ h0) hhead).mpr (.inr hnext))
    · subst hreq
      exact hold hblocks.1

include hshort

/-- A request loses no block. -/
theorem Effect.retains : Retains g σ τ := by
  have hroot := g.isInode_root
  cases h with
  | looked => exact .refl σ
  | refused => exact .refl σ
  | create h =>
    cases h with
    | error => exact .refl σ
    | done _ hsup hne hdir h =>
      have hd := (hw.superDir_isInode hroot hsafe.1 hsup).resolve_left hne
      have hroom := hsafe.2 _ _ hsup hdir
      cases h with
      | taken => exact .refl σ
      | truncated hk => exact truncate_retains hw (hw.entries _ _ hd hdir (findSlot_lt hk))
      | made hp =>
        have hzero := hp.next_bare (ht.superDir hkeeps.1 hsup hne) (hbare.next hw)
        exact (hp.retains hw hd hdir hroom).trans ((hp.slotAt hw hd hdir hroom).newFile_retains hshort hzero)
      | linked hp => exact (hp.retains hw hd hdir hroom).trans (hp.slotAt hw hd hdir hroom).newLink_retains
  | write h => exact h.retains hw hsafe hblocks
  | link h =>
    cases h with
    | error => exact .refl σ
    | done _ _ _ _ hsup hne hdir hp =>
      have hold (path : CStr) := adj_path_i_isInode path hroot hsafe.1
      have hd := (hw.superDir_isInode hroot (adj_path_i_isInode _ hroot (hold _)) hsup).resolve_left hne
      have hroom := hsafe.2 _ _ hsup hdir
      exact (hp.retains hw hd hdir hroom).trans ((hp.slotAt hw hd hdir hroom).newLink_retains.trans addLinks_retains)
  | unlink h =>
    cases h with
    | error => exact .refl σ
    | done _ hsup hne hdir hk =>
      have hd := (hw.superDir_isInode hroot hsafe hsup).resolve_left hne
      exact SlotAt.removeEntry_retains ⟨hw, hd, hdir, findSlot_lt hk, rfl⟩
  | @mkdir path cur _ _ h =>
    cases h with
    | error => exact .refl σ
    | done _ hsup hne hdir hp h0 =>
      have hstart : σ.Taken g (View.start (from_root path cur).1 (from_root path cur).2) := by
        rw [start_from_root]
        exact hkeeps.1
      have hzero := hp.next_bare (ht.superDir hstart hsup hne) (hbare.next hw)
      have hd := (hw.superDir_isInode hroot (from_root_isInode _ hroot hsafe.1) hsup).resolve_left hne
      have hroom := (hsafe.2.1 _ _ hsup hne).2
      obtain ⟨hname, hfree, hdata⟩ := hsafe.2.2 _ _ _ _ hsup hp h0
      exact (hp.retains hw hd hdir hroom).trans ((hp.slotAt hw hd hdir hroom).newDir_retains hshort hname hfree hdata hzero)
  | rmdir h =>
    cases h with
    | error => exact .refl σ
    | done _ hi hsize hsup hne hdir hp =>
      have hstart (path : CStr) := from_root_isInode path hroot hsafe.1
      have hi' := hi ▸ hw.resolve_isInode (hstart _)
      have hw₁ := dropDir_wellFormed hw hi'
      have hd := (hw₁.superDir_isInode hroot (hstart _) hsup).resolve_left hne
      subst hi
      have hroom := (hsafe.2 hsize _ _ hsup hne).2
      exact (dropDir_retains hw hi').trans ((hp.retains hw₁ hd hdir hroom).trans
        (hp.slotAt hw₁ hd hdir hroom).clearEntry_retains)

end

/-! ## Runs -/

/-- What the runs of this section keep. -/
structure Accounting (g : Geometry) (sv : Server) : Prop extends Sound g sv where
  planted : sv.fs.Planted g
  bare : sv.fs.Bare g
  range : InRange g sv.fs
  all : ∀ b, 0 < b → b < g.sectors → Accounted (sv.fs.holding g) sv.fs.b_head b

theorem FS.Agrees.retains (ha : σ.Agrees g τ) (hw : WellFormed g σ) : Retains g σ τ :=
  .keep (fun _ hj => ha.same hw hj) (by rw [ha.globals]; exact List.Subset.refl _)

theorem FS.Agrees.bare (ha : σ.Agrees g τ) (hbare : σ.Bare g) : τ.Bare g := by
  intro e he hfree
  rw [taken_same (congrArg Globals.i_head ha.globals)] at hfree
  exact (congrArg Inode.size (ha.inode e he)).trans (hbare e he hfree)

theorem DiskFormat.Started.bare {f : DiskFormat} (h : f.Started sv) : sv.fs.Bare f.geometry := by
  intro e he hfree
  have h1 : e ≠ 1 := by
    rintro rfl
    exact hfree h.root.1
  by_cases h0 : e = 0
  · rw [h0]
    exact h.fresh.header
  · have hpos := he.1
    have hzero := h.fresh.inode e (by omega) he.2
    rw [if_neg h1] at hzero
    rw [View.size, hzero, Inode.size, Inode.get_zero]

theorem DiskFormat.accounting {f : DiskFormat} {fresh_dirty : Nat → Bool} (hboot : boot (f.disk fresh_dirty) = some sv) :
    Accounting f.geometry sv := by
  have hnum := f.two
  have hfits := f.fits
  have hmax := f.max
  have h := DiskFormat.started hboot
  refine ⟨h.sound, h.planted, h.bare, (DiskFormat.onDisk hboot).inRange, fun b h0 hlast => ?_⟩
  by_cases hb : b = tableBlocks f.num_inodes + 1
  · have hc : sv.fs.covers 1 0 := (h.fresh.covers_iff (by omega) rfl f.geometry.isInode_root).mpr ⟨rfl, rfl⟩
    refine .inr ⟨(1, 0), holding_eq_some.mpr ⟨f.geometry.isInode_root, hc, ?_⟩⟩
    rw [(h.sound.wellFormed.mapped 1 f.geometry.isInode_root).nthBlock hc, h.fresh.pointer_root (by omega) (by omega), hb]
  · exact .inl ((h.b_head b).mpr ⟨⟨h0, hlast⟩, hb⟩)

/-- A request keeps the accounts. -/
theorem Accounting.step {resp : Response} (h : Accounting g sv) (hshort : 8 * g.table ≤ 2 ^ 15) (hsafe : req.Safe g sv.fs)
    (hkeeps : req.KeepsTree g sv.fs) (hblocks : req.KeepsBlocks g sv.fs) (hs : serve sv req = some (resp, sv')) : Accounting g sv' := by
  obtain ⟨hsound, σ', heff, hw', hagree⟩ := h.toSound.step hshort hsafe hs
  have hw := h.wellFormed
  have hdraws := heff.draws hw g.isInode_root hshort hsafe
  have hretains := (heff.retains h.planted hw hshort h.bare hsafe hkeeps hblocks).trans (hagree.retains hw')
  exact ⟨hsound, serve_planted h.toSound hshort h.planted hsafe hkeeps hs,
    hagree.bare (heff.bare h.planted hw h.bare hsafe hkeeps hblocks), hagree.inRange hw' (h.range.draws hdraws),
    fun b h0 hlast => hretains b (h.all b h0 hlast)⟩

theorem accounting {f : DiskFormat} {fresh_dirty : Nat → Bool} (hboot : boot (f.disk fresh_dirty) = some sv₀)
    (hmeets : sv₀.meets (fun σ req => req.Safe f.geometry σ ∧ req.KeepsTree f.geometry σ ∧ req.KeepsBlocks f.geometry σ) reqs)
    (hrun : serves sv₀ reqs = some sv) : Accounting f.geometry sv :=
  serves_induction (DiskFormat.accounting hboot) hmeets hrun fun _ _ _ _ h ⟨hsafe, hkeeps, hblocks⟩ hs =>
    h.step f.short hsafe hkeeps hblocks hs

/-- Every block of the disk past block 0 is on the free list or held by one file at one index, and they add up. -/
structure BlocksBalance (g : Geometry) (σ : FS) : Prop extends OwnedOnce g σ where
  all : ∀ b, (0 < b ∧ b < g.sectors) ↔ b ∈ σ.b_head ∨ ∃ i n, σ.owns g i n b
  count : σ.b_head.length + ∑ i ∈ Finset.Ico 0 g.inodes, (σ.blocks i : Int) = g.sectors - 1

theorem exclusive_holding (hw : WellFormed g σ) : Exclusive (σ.holding g) σ.b_head := by
  refine ⟨hw.exclusive.nodup, fun k b hk => hw.exclusive.apart _ b hk, fun k k' b hk hk' => ?_⟩
  have hkey := hw.exclusive.inj _ _ _ hk hk'
  exact Prod.ext (Prod.mk.inj hkey).1 (Option.some.inj (Prod.mk.inj hkey).2)

/-- The indices of the inodes. -/
noncomputable def View.holdingKeys (v : View) (g : Geometry) : Finset (Int × Nat) :=
  ((Finset.Ico 0 g.inodes).sigma fun i => Finset.range (v.blocks i)).map (Equiv.sigmaEquivProd Int Nat).toEmbedding

theorem mem_holdingKeys {k : Int × Nat} : k ∈ σ.holdingKeys g ↔ ∃ b, σ.holding g k = some b := by
  obtain ⟨i, n⟩ := k
  simp only [View.holdingKeys, Finset.mem_map_equiv, Finset.mem_sigma, Finset.mem_Ico, Finset.mem_range, holding_eq_some]
  constructor
  · rintro ⟨hi, hn⟩
    exact ⟨_, hi, View.covers_iff.mpr hn, rfl⟩
  · rintro ⟨b, hi, hc, _⟩
    exact ⟨hi, View.covers_iff.mp hc⟩

theorem Accounting.balance (h : Accounting g sv) : BlocksBalance g sv.fs := by
  have hw := h.wellFormed
  have hall : ∀ b, (0 < b ∧ b < g.sectors) ↔ Accounted (sv.fs.holding g) sv.fs.b_head b := by
    refine fun b => ⟨fun hb => h.all b hb.1 hb.2, ?_⟩
    rintro (hb | ⟨⟨i, n⟩, hk⟩)
    · have h0 := (hw.free b hb).1
      have hr := h.range b (.inr (.inr hb))
      exact ⟨by omega, hr.2⟩
    · have hr := h.range b (.inl ⟨_, hk⟩)
      obtain ⟨hi, hc, rfl⟩ := holding_eq_some.mp hk
      have h0 := (hw.mapped i hi).nonzero n hc
      rw [(hw.mapped i hi).nthBlock hc] at hr ⊢
      exact ⟨by omega, hr.2⟩
  refine ⟨hw.ownedOnce, fun b => (hall b).trans (or_congr_right ?_), ?_⟩
  · constructor
    · rintro ⟨⟨i, n⟩, hk⟩
      exact ⟨i, n, holding_eq_some.mp hk⟩
    · rintro ⟨i, n, ho⟩
      exact ⟨(i, n), holding_eq_some.mpr ho⟩
  · have hcard := (exclusive_holding hw).card (fun b => Finset.mem_Ioo.trans (hall b)) fun _ => mem_holdingKeys
    rw [Int.card_Ioo, View.holdingKeys, Finset.card_map, Finset.card_sigma] at hcard
    simp only [Finset.card_range] at hcard
    have := g.table_fits
    have := g.table_pos
    rw [← Nat.cast_sum]
    omega

end Yfs
