import Yfs.Boot.Fresh
import Yfs.Files.Ends

/-! # Every change is marked dirty -/

namespace Yfs

/-- What may be unmarked. -/
structure FS.Unmarked (σ : FS) (I B : Int → Prop) : Prop where
  inodes : ∀ i, σ.unmarked_i i → I i
  blocks : ∀ b, σ.unmarked_b b → B b

/-- Everything is marked. -/
abbrev FS.Clean (σ : FS) : Prop := σ.Unmarked (fun _ => False) fun _ => False

variable {σ σ' : FS} {I I' B B' : Int → Prop} {i b d : Int} {k n : Nat} {name : CStr} {g : Geometry}

namespace FS.Unmarked

theorem mono (h : σ.Unmarked I B) (hi : ∀ i, I i → I' i) (hb : ∀ b, B b → B' b) : σ.Unmarked I' B' :=
  ⟨fun i hu => hi i (h.inodes i hu), fun b hu => hb b (h.blocks b hu)⟩

/-- The free lists do not matter. -/
theorem congr (h : σ.Unmarked I B) (hi : σ'.unmarked_i = σ.unmarked_i) (hb : σ'.unmarked_b = σ.unmarked_b) :
    σ'.Unmarked I B :=
  ⟨fun i hu => h.inodes i (hi ▸ hu), fun b hu => h.blocks b (hb ▸ hu)⟩

theorem setInode (ino : Inode) (h : σ.Unmarked I B) (hi : I i) : (σ.setInode i ino).Unmarked I B := by
  refine ⟨fun j hu => ?_, h.blocks⟩
  rcases hu with hu | ⟨rfl, _⟩
  · exact h.inodes j hu
  · exact hi

theorem setInode_same {ino : Inode} (h : σ.Unmarked I B) (hi : σ.inode i = ino) : (σ.setInode i ino).Unmarked I B := by
  refine ⟨fun j hu => ?_, h.blocks⟩
  rcases hu with hu | ⟨_, hne⟩
  · exact h.inodes j hu
  · exact absurd hi hne

theorem setBlock {blk : Block} (h : σ.Unmarked I B) (hb : B b) : (σ.setBlock b blk).Unmarked I B := by
  refine ⟨h.inodes, fun c hu => ?_⟩
  rcases hu with hu | ⟨rfl, _⟩
  · exact h.blocks c hu
  · exact hb

theorem editBlock {f : Block → Block} (h : σ.Unmarked I B) (hb : B b) : (σ.editBlock b f).Unmarked I B := h.setBlock hb

theorem markInode (h : σ.Unmarked I B) : (σ.markInode i).Unmarked (fun j => j ≠ i ∧ I j) B :=
  ⟨fun j hu => ⟨hu.1, h.inodes j hu.2⟩, h.blocks⟩

theorem markBlock (h : σ.Unmarked I B) : (σ.markBlock b).Unmarked I fun c => c ≠ b ∧ B c :=
  ⟨h.inodes, fun c hu => ⟨hu.1, h.blocks c hu.2⟩⟩

end FS.Unmarked

namespace FS.Unmarked

theorem openBlock (h : σ.Unmarked I fun _ => False) (b : Int) : σ.Unmarked I fun c => c = b :=
  h.mono (fun _ => id) fun _ => False.elim

theorem closeBlock (h : σ.Unmarked I fun c => c = b) : (σ.markBlock b).Unmarked I fun _ => False :=
  h.markBlock.mono (fun _ => id) fun _ hc => hc.1 hc.2

theorem openInode (h : σ.Unmarked (fun _ => False) B) (i : Int) : σ.Unmarked (fun j => j = i) B :=
  h.mono (fun _ => False.elim) fun _ => id

theorem closeInode (h : σ.Unmarked (fun j => j = i) B) : (σ.markInode i).Unmarked (fun _ => False) B :=
  h.markInode.mono (fun _ hj => hj.1 hj.2) fun _ => id

/-- Change an inode and mark it. -/
theorem editInode (i : Int) (ino : Inode) (h : σ.Unmarked (fun _ => False) B) :
    ((σ.setInode i ino).markInode i).Unmarked (fun _ => False) B := closeInode ((h.openInode i).setInode ino rfl)

/-- Change a block and mark it. -/
theorem editBlock_mark (b : Int) (f : Block → Block) (h : σ.Unmarked I fun _ => False) :
    ((σ.editBlock b f).markBlock b).Unmarked I fun _ => False := closeBlock ((h.openBlock b).editBlock rfl)

theorem popInode (h : σ.Unmarked (fun _ => False) B) : σ.popInode.Unmarked (fun _ => False) B := by
  unfold FS.popInode
  split
  · exact h
  · exact (h.editInode σ.nextInode _).congr rfl rfl

end FS.Unmarked

/-! ## What each request marks -/

open FS.Unmarked

theorem newFile_clean (h : σ.Clean) : (σ.newFile d k name).Clean :=
  closeBlock ((((h.openBlock _).editBlock rfl).popInode.editBlock rfl).editInode _ _)

theorem newLink_clean (h : σ.Clean) : (σ.newLink d k name i).Clean :=
  closeBlock (((h.openBlock _).editBlock rfl).editBlock rfl)

theorem addLinks_clean {m : Int} (h : σ.Clean) : ((σ.addLinks i m).markInode i).Clean := h.editInode _ _

theorem removeEntry_clean (h : σ.Clean) : (σ.removeEntry d k).Clean := by
  refine editBlock_mark _ _ (closeInode ?_)
  have h₁ : (σ.addLinks (σ.slotInum d k) (-1)).Unmarked (fun j => j = σ.slotInum d k) fun _ => False :=
    (h.openInode _).setInode _ rfl
  split
  · exact FS.Unmarked.setInode _ (h₁.congr rfl rfl) rfl
  · exact h₁

theorem newDir_clean (h : σ.Clean) : (σ.newDir d k name).Clean := by
  have h₁ : ((σ.popInode.editBlock (σ.slotBlock d k) (FS.nameEntry (slotOffset k) name σ.nextInode)).markBlock
      (σ.slotBlock d k)).Clean := h.popInode.editBlock_mark _ _
  refine closeInode (editBlock_mark _ _ (FS.Unmarked.setInode _ ?_ rfl))
  exact ((h₁.openInode _).setInode _ rfl).congr rfl rfl

/-- Clearing an empty file changes nothing. -/
theorem truncate_clean (h : σ.Clean) (h0 : σ.size i = 0) : (σ.truncate i).Clean := by
  refine FS.Unmarked.setInode_same (h.congr rfl rfl) ?_
  have hset := Inode.set_get (σ.inode i) .size
  rw [show (σ.inode i).get .size = 0 from h0] at hset
  exact hset.symm

/-- Clearing a file and marking it. -/
theorem truncate_mark (i b : Int) (h : σ.Clean) : (((σ.truncate i).markInode i).markBlock b).Clean := by
  refine (closeInode (FS.Unmarked.setInode _ ?_ rfl)).markBlock.mono (fun _ => id) fun _ hb => hb.2
  exact (h.openInode i).congr rfl rfl

theorem clearEntry_clean (h : σ.Clean) : (σ.clearEntry d k).Clean := editBlock_mark _ _ h

theorem dropDir_clean (h : σ.Clean) (h0 : σ.size i = 0) : (σ.dropDir i).Clean := (truncate_clean h h0).congr rfl rfl

/-- `d` does not grow past its direct pointers. -/
def FS.GrowsDirect (σ : FS) (d : Int) (name : CStr) : Prop := σ.Full d name → σ.size d % 512 = 0 → σ.blocks d < 12

theorem grow_clean (h : σ.Clean) (hd : σ.size d % 512 = 0 → σ.blocks d < 12) : (σ.grow d).Clean := by
  unfold FS.grow
  split
  case isTrue hfull =>
    have halloc : (σ.alloc d (σ.blocks d)).Unmarked (fun j => j = d) fun _ => False := by
      rw [FS.alloc, dif_pos (hd hfull)]
      exact FS.Unmarked.setInode _ ((h.openInode d).congr rfl rfl) rfl
    exact closeInode (closeBlock ((halloc.setInode _ rfl).openBlock _ |>.setBlock rfl))
  case isFalse =>
    have h₁ := h.editInode d ((σ.inode d).set .size (σ.size d + DIRENTSIZE))
    exact ((closeBlock ((h₁.openBlock _).setBlock rfl)).openBlock _ |> closeBlock)

theorem Placed.clean (hp : Placed σ d name k σ') (h : σ.Clean) (hd : σ.GrowsDirect d name) : σ'.Clean := by
  rcases hp.eq_or_grow with rfl | ⟨hfull, rfl⟩
  · exact h
  · exact grow_clean h (hd hfull)

/-! ## Writes -/

section

variable {buf : UserBuf} {size byte_offset left off : Int} {r : Bool}

theorem Writing.unmarked (h : Writing i buf size byte_offset n left off σ r σ')
    (hs : Writable g σ i buf size byte_offset n left off)
    (hdirect : ∀ m : Nat, σ.blocks i ≤ m → 512 * (m : Int) < byte_offset + size → m < 12)
    (hu : σ.Unmarked (fun j => j = i) fun _ => False) : σ'.Unmarked (fun j => j = i) fun _ => False := by
  have hreach : ∀ (σ : FS) (n : Nat), (¬ σ.covers i n → n < 12) → σ.Unmarked (fun j => j = i) (fun _ => False) →
      (σ.reach i n).Unmarked (fun j => j = i) fun _ => False := by
    intro σ n hn hu
    unfold FS.reach
    split
    case isTrue => exact hu
    case isFalse hc =>
      rw [FS.alloc, dif_pos (hn hc)]
      exact FS.Unmarked.setInode _ (hu.congr rfl rfl) rfl
  have hlow : ∀ {σ : FS} {n : Nat} {left off : Int}, Writable g σ i buf size byte_offset n left off → 0 < left →
      (∀ m : Nat, σ.blocks i ≤ m → 512 * (m : Int) < byte_offset + size → m < 12) → ¬ σ.covers i n → n < 12 := by
    intro σ n left off hs hpos hdirect hc
    have hposn := hs.position hpos
    have hoff := hs.offset
    rw [View.covers_iff] at hc
    exact hdirect n (by omega) (by omega)
  induction h with
  | done => exact hu
  | limit => exact hu
  | stuck hpos hidx => exact hreach _ _ (hlow hs hpos hdirect) hu
  | @chunk n left off σ σ' bytes r hpos hidx hb hbytes hrest ih =>
    have hput := (hs.round hpos hidx).put hs.wellFormed bytes hb
    refine ih (hs.step hpos hidx hb hbytes) (fun m hm => hdirect m ?_) ?_
    · by_contra hlt
      have := View.covers_iff.mp (hput.covers (View.covers_iff.mpr (Nat.not_le.mp hlt)))
      omega
    · exact (closeBlock (((hreach _ _ (hlow hs hpos hdirect) hu).openBlock _).setBlock rfl)).setInode _ rfl

end

/-- A write whose changes are all marked: it stops inside the file, the file is full already, or it needs no indirect
block and runs to its end. -/
def FS.MarksWrite (σ : FS) (i : Int) (buf : UserBuf) (size byte_offset : Int) : Prop :=
  (∃ m : Nat, byte_offset / 512 ≤ m ∧ 512 * (m : Int) < byte_offset + size ∧ σ.covers i m ∧
      ¬ chunkMapped buf size byte_offset m) ∨
    140 * 512 ≤ σ.size i ∨
      ((∀ m : Nat, σ.blocks i ≤ m → 512 * (m : Int) < byte_offset + size → m < 12 ∧ chunkMapped buf size byte_offset m) ∧
        newBlocks σ i size byte_offset ≤ σ.b_head.length)

theorem Poked.clean (h : Poked σ σ') (hc : σ.Clean) : σ'.Clean :=
  ⟨fun j hj => hc.inodes j (h.unmarked_i j hj), fun b hb => hc.blocks b (h.unmarked_b b hb)⟩

theorem Written.clean {buf : UserBuf} {size byte_offset r : Int} (h : Written σ i buf size byte_offset r σ')
    (hw : WellFormed g σ) (hok : σ.WriteOk g i buf size byte_offset) (hm : σ.MarksWrite i buf size byte_offset)
    (hc : σ.Clean) : σ'.Clean := by
  have hs := hok.writable hw
  have h0 := hok.offset
  have hgap := hok.gap
  have hmax := (hw.mapped i hok.inode).blocks_le
  -- A write that stays inside the file.
  have hinside : ∀ {r : Bool} {τ : FS} (K : Nat),
      Writing i buf size byte_offset (byte_offset / 512).toNat size (byte_offset % 512) σ r τ →
      (0 < size → (byte_offset / 512).toNat ≤ K) → 512 * (K : Int) ≤ σ.size i →
        (K = 140 ∨ σ.covers i K ∧ ¬ chunkMapped buf size byte_offset K) → τ.Clean :=
    fun K hwr hK hsize hstop => (hwr.poked hs hK hsize hstop).clean hc
  have hloop : ∀ {r : Bool} {τ : FS},
      Writing i buf size byte_offset (byte_offset / 512).toNat size (byte_offset % 512) σ r τ →
        τ.Clean ∨ r = true ∧ τ.Unmarked (fun j => j = i) fun _ => False := by
    intro r τ hwr
    by_cases hstop : ∃ m : Nat, byte_offset / 512 ≤ m ∧ 512 * (m : Int) < byte_offset + size ∧ σ.covers i m ∧
        ¬ chunkMapped buf size byte_offset m
    · obtain ⟨m, hm, _, hcov, hnot⟩ := hstop
      have hlt := hcov
      rw [View.covers, BLOCKSIZE] at hlt
      exact .inl (hinside m hwr (fun _ => by omega) (by omega) (.inr ⟨hcov, hnot⟩))
    rcases hm with h | hfull | ⟨hnew, hfree⟩
    · exact absurd h hstop
    · exact .inl (hinside 140 hwr (fun hpos => by have := hgap hpos; omega) hfull (.inl rfl))
    · refine .inr ⟨hwr.succeeds hs (fun m hm hlt => ?_) hfree, hwr.unmarked hs (fun m hm hlt => (hnew m hm hlt).1)
        (hc.openInode i)⟩
      by_cases hcov : σ.covers i m
      · refine ⟨by rw [View.covers_iff] at hcov; omega, by_contra fun hnot => hstop ⟨m, by omega, hlt, hcov, hnot⟩⟩
      · rw [View.covers_iff] at hcov
        obtain ⟨h12, hmap⟩ := hnew m (by omega) hlt
        exact ⟨by omega, hmap⟩
  cases h with
  | ended h =>
    rcases hloop h with h | ⟨_, h⟩
    · exact h.markInode.mono (fun _ hj => hj.2) fun _ => id
    · exact closeInode h
  | failed h =>
    rcases hloop h with h | ⟨h, _⟩
    · exact h
    · cases h

/-! ## Runs -/

/-- The condition on a request and the state before it: nothing is changed that is not marked. -/
def Request.Marks (σ : FS) : Request → Prop
  | .create (some path) cur => ∀ d name, σ.superDir path cur = (d, name) → σ.GrowsDirect d name
  | .write i buf size offset => σ.MarksWrite i buf size offset
  | .link (some old_name) (some new_name) cur => ∀ d name,
    σ.superDir (adj_path_i new_name (adj_path_i old_name cur).2).1 (adj_path_i new_name (adj_path_i old_name cur).2).2 =
      (d, name) → σ.GrowsDirect d name
  | .mkdir (some path) cur => ∀ d name, σ.superDir (from_root path cur).1 (from_root path cur).2 = (d, name) →
    σ.GrowsDirect d name
  | .rmdir (some path) cur =>
    let i := σ.resolve (from_root path cur).1 (from_root path cur).2
    σ.size i ≤ 64 → σ.size i = 0 ∧ ∀ d name,
      (σ.dropDir i).superDir (from_root path cur).1 (from_root path cur).2 = (d, name) → (σ.dropDir i).GrowsDirect d name
  | _ => True

theorem Effect.clean {req : Request} {ret : Int} (h : Effect σ req ret σ') (hw : WellFormed g σ) (hsafe : req.Safe g σ)
    (hm : req.Marks σ) (hc : σ.Clean) : σ'.Clean := by
  cases h with
  | looked => exact hc
  | refused => exact hc
  | create h =>
    cases h with
    | error => exact hc
    | done _ hsup _ _ h =>
      cases h with
      | taken => exact hc
      | truncated => exact truncate_mark _ _ hc
      | made hp => exact newFile_clean (hp.clean hc (hm _ _ hsup))
      | linked hp => exact newLink_clean (hp.clean hc (hm _ _ hsup))
  | write h => exact h.clean hw hsafe hm hc
  | link h =>
    cases h with
    | error => exact hc
    | done _ _ _ _ hsup _ _ hp => exact addLinks_clean (newLink_clean (hp.clean hc (hm _ _ hsup)))
  | unlink h =>
    cases h with
    | error => exact hc
    | done => exact removeEntry_clean hc
  | mkdir h =>
    cases h with
    | error => exact hc
    | done _ hsup _ _ hp => exact newDir_clean (hp.clean hc (hm _ _ hsup))
  | rmdir h =>
    cases h with
    | error => exact hc
    | done _ hi hsize hsup _ _ hp =>
      subst hi
      obtain ⟨h0, hgrow⟩ := hm hsize
      exact clearEntry_clean (hp.clean (dropDir_clean hc h0) (hgrow _ _ hsup))

theorem FS.Agrees.clean {τ : FS} (h : σ.Agrees g τ) (hc : σ.Clean) : τ.Clean :=
  ⟨fun i hi => hc.inodes i (h.unmarked_i i hi), fun b hb => hc.blocks b (h.unmarked_b b hb)⟩

/-- A flush of a clean server: the disk holds what the server shows. -/
theorem handle_sync_flushed {sv sv' : Server} {r : Int} (h : sv.CachesOk g) (hc : sv.fs.Clean)
    (hs : handle_sync sv = some (r, sv')) :
    (∀ b, ¬ g.isTable b → sv'.store.sectors b = logicalBlock sv.store b) ∧
      ∀ i, g.isInode i → (sv'.store.sectors (tableBlock i)).inode (tableSlot i).toNat = logicalInode sv.store i := by
  have hb : MarkedBlocks sv.store fun _ => False := fun x hx hne => (h.rel.marked_b x hx hne).imp_right (hc.blocks _)
  have hi : MarkedInodes sv.store fun _ => False := fun x hx hne => (h.rel.marked_i x hx hne).imp_right (hc.inodes _)
  obtain ⟨hall, hsynced, hslots⟩ := handle_sync_synced h.blocks h.inodes hb hi hs
  exact ⟨fun b ht => (hsynced b).symm.trans (hall.view_b b ht),
    fun i ht => (congrArg (fun blk : Block => blk.inode (tableSlot i).toNat) (hsynced _)).symm.trans
      ((hslots i ht).trans (hall.view_i i ht))⟩

/-- The flags are sound, and a flush writes all that the server shows. -/
structure Server.Marked (g : Geometry) (sv : Server) : Prop where
  blocks : ∀ item ∈ sv.store.cache_b_queue, item.data ≠ sv.store.sectors item.c_item_num → item.dirty = true
  inodes : ∀ item ∈ sv.store.cache_i_queue, item.data ≠ logicalSlot sv.store item.c_item_num → item.dirty = true
  flush : ∀ r sv', handle_sync sv = some (r, sv') →
    (∀ b, ¬ g.isTable b → sv'.store.sectors b = logicalBlock sv.store b) ∧
      ∀ i, g.isInode i → (sv'.store.sectors (tableBlock i)).inode (tableSlot i).toNat = logicalInode sv.store i

theorem Server.CachesOk.marked {sv : Server} (h : sv.CachesOk g) (hc : sv.fs.Clean) : sv.Marked g :=
  ⟨fun x hx hne => (h.rel.marked_b x hx hne).resolve_right (hc.blocks _),
    fun x hx hne => (h.rel.marked_i x hx hne).resolve_right (hc.inodes _), fun _ _ => handle_sync_flushed h hc⟩

theorem Booted.cachesOk {d : Disk} {num_inodes : Int} {h : Image d num_inodes} {sv : Server}
    (hb : Booted h.geometry d num_inodes sv) : sv.CachesOk h.geometry :=
  ⟨hb.mirrors.blocks, hb.mirrors.inodes, hb.mirrors.sectors⟩

/-- Booting changes nothing. -/
theorem Booted.clean {d : Disk} {num_inodes : Int} {sv : Server} (hb : Booted g d num_inodes sv) : sv.fs.Clean := by
  have hm := hb.mirrors
  constructor
  · rintro i ⟨item, hmem, rfl, hne, _⟩
    refine hne ?_
    rw [← logicalInode_cached hm.inodes hmem, hm.view_i _ (hm.inodes.range item hmem), hm.slot]
  · rintro b ⟨item, hmem, rfl, hne, hd⟩
    exact (hm.marked item hmem hne).elim (by simp [hd]) id

/-- **Dirty flags are sound.** In a run from boot whose requests are safe and mark what they change, every cached item that
differs from what is below it is dirty, and a flush writes all changes. -/
theorem dirty_flags_sound {d : Disk} {num_inodes : Int} {sv₀ sv : Server} {reqs : List Request} (hd : Image d num_inodes)
    (hshort : 8 * hd.geometry.table ≤ 2 ^ 15) (hboot : boot d = some sv₀) (hw : WellFormed hd.geometry sv₀.fs)
    (hmeets : sv₀.meets (fun σ req => req.Safe hd.geometry σ ∧ req.Marks σ) reqs) (hrun : serves sv₀ reqs = some sv) :
    sv.Marked hd.geometry := by
  have hb := hd.booted hboot
  have hstart : Sound hd.geometry sv₀ ∧ sv₀.fs.Clean := ⟨⟨hb.cachesOk, hw⟩, hb.clean⟩
  have hend : Sound hd.geometry sv ∧ sv.fs.Clean := by
    refine serves_induction (I := fun sv => Sound hd.geometry sv ∧ sv.fs.Clean) hstart hmeets hrun
      fun sv req resp sv' h hp hs => ?_
    obtain ⟨hsound, σ', heff, _, hagree⟩ := h.1.step hshort hp.1 hs
    exact ⟨hsound, hagree.clean (heff.clean h.1.wellFormed hp.1 hp.2 h.2)⟩
  exact hend.1.caches.marked hend.2

/-- The first file marks what it changes. -/
theorem DiskFormat.Started.marks_create {sv₀ : Server} (h : smallDisk.Started sv₀) : Request.Marks sv₀.fs (.create (some [SLASH, 97]) 1) := by
  intro d name hsup _ h512
  rw [show sv₀.fs.superDir [SLASH, 97] 1 = (1, [97]) from rfl] at hsup
  obtain ⟨rfl, rfl⟩ := Prod.mk.inj hsup
  exact absurd h512 (by rw [h.fresh.size_root (by decide)]; decide)

theorem dirty_flags_sound_create : ∃ sv, (smallDisk.disk fun _ => false).serves [.create (some [SLASH, 97]) 1] = some sv ∧
    sv.Marked smallDisk.geometry := by
  obtain ⟨sv, hrun, _⟩ := Option.map_eq_some_iff.mp (show ((smallDisk.disk fun _ => false).serves
    [.create (some [SLASH, 97]) 1]).map (fun _ => ()) = some () by decide +kernel)
  obtain ⟨sv₀, hboot, hrun₀⟩ := Disk.serves_eq hrun
  have hstart := DiskFormat.started hboot
  have hmeets : sv₀.meets (fun σ req => req.Safe smallDisk.geometry σ ∧ req.Marks σ) [.create (some [SLASH, 97]) 1] :=
    ⟨⟨hstart.fresh.safe_create (by decide), hstart.marks_create⟩, fun _ _ _ => trivial⟩
  exact ⟨sv, hrun, dirty_flags_sound (smallDisk.image fun _ => false) (by decide) hboot hstart.sound.wellFormed hmeets hrun₀⟩

/-- A file that has grown past its direct pointers: block 0, which serves as its indirect block, is not dirty. -/
theorem grown_block_clean : ∃ sv, (smallDisk.disk fun _ => false).serves
    [.create (some [SLASH, 97]) 1, .write 15 (filledBuf 1) 6200 0] = some sv ∧ ¬ sv.Marked smallDisk.geometry := by
  obtain ⟨sv, hrun, h⟩ := Option.map_eq_some_iff.mp (show ((smallDisk.disk fun _ => false).serves
    [.create (some [SLASH, 97]) 1, .write 15 (filledBuf 1) 6200 0]).map (fun sv => sv.store.cache_b_queue.any fun item =>
      !item.dirty && (item.data.pointer 0 != (sv.store.sectors item.c_item_num).pointer 0)) = some true by decide +kernel)
  refine ⟨sv, hrun, fun hm => ?_⟩
  obtain ⟨item, hmem, hitem⟩ := List.any_eq_true.mp h
  simp only [Bool.and_eq_true, Bool.not_eq_true', bne_iff_ne] at hitem
  have := hm.blocks item hmem fun he => hitem.2 (by rw [he])
  rw [hitem.1] at this
  cases this

end Yfs
