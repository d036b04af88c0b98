import Yfs.Marks
import Yfs.Requests.Frame

/-! # The header is nobody's inode -/

namespace Yfs

/-- The condition on a request and the state before it: inode 0 is not taken for an inode. -/
def Request.SparesHeader (σ : FS) : Request → Prop
  | .create (some path) cur => ∀ d name, σ.superDir path cur = (d, name) → σ.isDir d → σ.lookup d name = 0 → σ.i_head ≠ []
  | .write i _ _ _ => i ≠ 0
  | .unlink (some path) cur => ∀ d name k, σ.superDir path cur = (d, name) → σ.isDir d → σ.findSlot d name = some k →
    σ.slotInum d k ≠ 0
  | .mkdir (some path) cur => ∀ d name, σ.superDir (from_root path cur).1 (from_root path cur).2 = (d, name) →
    σ.lookup d name = 0 → σ.i_head ≠ []
  | .rmdir (some path) cur => σ.resolve (from_root path cur).1 (from_root path cur).2 ≠ 0
  | _ => True

variable {g : Geometry} {σ σ' : FS} {req : Request} {ret d cur : Int} {k : Nat} {path name : CStr}

theorem from_root_pos (path : CStr) (hcur : 0 < cur) : 0 < (from_root path cur).2 := by
  unfold from_root
  split
  · exact Int.one_pos
  · exact hcur

theorem adj_path_i_pos (path : CStr) (hcur : 0 < cur) : 0 < (adj_path_i path cur).2 := by
  unfold adj_path_i
  split
  · exact Int.one_pos
  · exact hcur

theorem superDir_ne_zero (h : σ.superDir path cur = (d, name)) (hcur : 0 < cur) : d ≠ 0 := by
  unfold View.superDir at h
  split at h
  · obtain ⟨rfl, _⟩ := Prod.mk.inj h
    decide
  · dsimp only at h
    split at h
    · obtain ⟨rfl, _⟩ := Prod.mk.inj h
      exact Int.ne_of_gt (from_root_pos path hcur)
    · split at h
      · obtain ⟨rfl, _⟩ := Prod.mk.inj h
        decide
      · obtain ⟨rfl, _⟩ := Prod.mk.inj h
        assumption

/-- A slot to fill means that the name is not there. -/
theorem Placed.lookup_zero (hp : Placed σ d name k σ') (h0 : σ'.slotInum d k = 0) : σ.lookup d name = 0 := by
  cases hp with
  | found h => rw [lookup_some h]; exact h0
  | free h => exact lookup_none h
  | new h => exact lookup_none h.1

theorem nextInode_mem (h : σ.i_head ≠ []) : σ.nextInode ∈ σ.i_head := by
  cases hl : σ.i_head with
  | nil => exact absurd hl h
  | cons i rest => simp [FS.nextInode, hl]

theorem Placed.nextInode (hp : Placed σ d name k σ') : σ'.nextInode = σ.nextInode := by
  rw [FS.nextInode, FS.nextInode, hp.i_head]

theorem Placed.inode_zero (hp : Placed σ d name k σ') (h : d ≠ 0) : σ'.inode 0 = σ.inode 0 :=
  hp.edits.inode fun _ hf => h hf.1.symm

theorem Placed.not_free {i : Int} (hp : Placed σ d name k σ') (h : i ∉ σ.i_head) : i ∉ σ'.i_head := by rw [hp.i_head]; exact h

/-- The header is as it was, and not on the free list. -/
structure Spared (σ σ' : FS) : Prop where
  inode : σ'.inode 0 = σ.inode 0
  free : 0 ∉ σ'.i_head

theorem Effect.spared (h : Effect σ req ret σ') (hsafe : req.Safe g σ) (hw : WellFormed g σ) (hs : req.SparesHeader σ)
    (h0 : 0 ∉ σ.i_head) : Spared σ σ' := by
  have hpop : ∀ {σ₁ : FS}, σ₁.nextInode = σ.nextInode → σ.i_head ≠ [] → 0 ≠ σ₁.nextInode := by
    intro σ₁ hn hne he
    exact h0 (by rw [he, hn]; exact nextInode_mem hne)
  cases h with
  | looked => exact ⟨rfl, h0⟩
  | refused => exact ⟨rfl, h0⟩
  | create h =>
    cases h with
    | error => exact ⟨rfl, h0⟩
    | done hcur hsup _ hdir h =>
      have hd := superDir_ne_zero hsup hcur
      cases h with
      | taken => exact ⟨rfl, h0⟩
      | truncated _ hne => exact ⟨truncate_edits.inode fun _ hf => hne hf.1.symm, h0⟩
      | made hp hfree =>
        have hne := hs _ _ hsup hdir (hp.lookup_zero hfree)
        refine ⟨(newFile_edits.inode fun _ => hpop hp.nextInode hne).trans (hp.inode_zero hd), ?_⟩
        rw [newFile_i_head, hp.i_head]
        exact fun hm => h0 (List.mem_of_mem_tail hm)
      | linked hp => exact ⟨hp.inode_zero hd, hp.not_free h0⟩
  | write h =>
    have hk := h.kept hw hsafe
    exact ⟨hk.inode 0 (Ne.symm hs), by rw [hk.i_head]; exact h0⟩
  | link h =>
    cases h with
    | error => exact ⟨rfl, h0⟩
    | done hcur _ hi _ hsup _ _ hp =>
      have hd := superDir_ne_zero hsup (adj_path_i_pos _ (adj_path_i_pos _ hcur))
      exact ⟨(addLinks_edits.inode fun _ hf => hi hf.1.symm).trans (hp.inode_zero hd), hp.not_free h0⟩
  | unlink h =>
    cases h with
    | error => exact ⟨rfl, h0⟩
    | done _ hsup _ hdir hk =>
      exact ⟨removeEntry_edits.inode fun _ hf => hs _ _ _ hsup hdir hk hf.1.symm, by rw [removeEntry_i_head]; exact h0⟩
  | mkdir h =>
    cases h with
    | error => exact ⟨rfl, h0⟩
    | done hcur hsup _ hdir hp hfree =>
      have hd := superDir_ne_zero hsup (from_root_pos _ hcur)
      have hne := hs _ _ hsup (hp.lookup_zero hfree)
      refine ⟨(newDir_edits.inode fun _ => hpop hp.nextInode hne).trans (hp.inode_zero hd), ?_⟩
      rw [newDir_i_head, hp.i_head]
      exact fun hm => h0 (List.mem_of_mem_tail hm)
  | rmdir h =>
    cases h with
    | error => exact ⟨rfl, h0⟩
    | done hcur hi _ hsup _ _ hp =>
      subst hi
      have hd := superDir_ne_zero hsup (from_root_pos _ hcur)
      exact ⟨(hp.inode_zero hd).trans (dropDir_edits.inode fun _ hf => hs hf.1.symm),
        hp.not_free fun hm => (List.mem_cons.mp hm).elim (fun he => hs he.symm) h0⟩

/-- **The header is never altered.** In a run from boot whose requests are safe and never take 0 for an inode, slot 0 is as it
was at boot. -/
theorem header_unchanged {d : Disk} {num_inodes : Int} {sv₀ sv : Server} {reqs : List Request} (hd : Image d num_inodes)
    (hshort : 8 * hd.geometry.table ≤ 2 ^ 15) (hboot : boot d = some sv₀) (hw : WellFormed hd.geometry sv₀.fs)
    (hmeets : sv₀.meets (fun σ req => req.Safe hd.geometry σ ∧ req.SparesHeader σ) reqs) (hrun : serves sv₀ reqs = some sv) :
    logicalInode sv.store 0 = (d.sectors 1).inode 0 := by
  have hb := hd.booted hboot
  have hzero := Geometry.isInode_zero hd.geometry
  have hfree : (0 : Int) ∉ sv₀.i_head := by
    intro hm
    have := (mem_scannedInodes.mp (hb.mem_i_head.mp hm).1).1
    omega
  have hend := serves_induction
    (I := fun sv => Sound hd.geometry sv ∧ sv.fs.inode 0 = sv₀.fs.inode 0 ∧ (0 : Int) ∉ sv.i_head)
    ⟨⟨hb.cachesOk, hw⟩, rfl, hfree⟩ hmeets hrun fun sv req resp sv' h hp hs => ?_
  · exact hend.2.1.trans (hb.mirrors.view_i 0 hzero)
  · obtain ⟨hsound, σ', heff, _, hagree⟩ := h.1.step hshort hp.1 hs
    have hspared := heff.spared hp.1 h.1.wellFormed hp.2 h.2.2
    refine ⟨hsound, (hagree.inode 0 hzero).trans (hspared.inode.trans h.2.1), ?_⟩
    rw [show sv'.i_head = σ'.i_head from congrArg Globals.i_head hagree.globals]
    exact hspared.free

theorem header_unchanged_create : ∃ sv, (smallDisk.disk fun _ => false).serves [.create (some [SLASH, 97]) 1] = some sv ∧
    logicalInode sv.store 0 = ((smallDisk.disk fun _ => false).sectors 1).inode 0 := by
  obtain ⟨sv, hrun, _⟩ := Option.map_eq_some_iff.mp (show ((smallDisk.disk fun _ => false).serves
    [.create (some [SLASH, 97]) 1]).map (fun _ => ()) = some () by decide +kernel)
  obtain ⟨sv₀, hboot, hrun₀⟩ := Disk.serves_eq hrun
  have hstart := DiskFormat.started hboot
  have hmeets : sv₀.meets (fun σ req => req.Safe smallDisk.geometry σ ∧ req.SparesHeader σ) [.create (some [SLASH, 97]) 1] := by
    refine ⟨⟨hstart.fresh.safe_create (by decide), fun _ _ _ _ _ he => ?_⟩, fun _ _ _ => trivial⟩
    have hm : (2 : Int) ∈ sv₀.i_head := (hstart.i_head 2).mpr (by decide)
    rw [show sv₀.i_head = [] from he] at hm
    cases hm
  exact ⟨sv, hrun, header_unchanged (smallDisk.image fun _ => false) (by decide) hboot hstart.sound.wellFormed hmeets hrun₀⟩

/-- A second unlink takes the inode of the dead entry, 0, and takes a link from it. -/
theorem unlink_twice_alters_header : ∃ sv, (smallDisk.disk fun _ => false).serves
    [.create (some [SLASH, 97]) 1, .unlink (some [SLASH, 97]) 1, .unlink (some [SLASH, 97]) 1] = some sv ∧
      logicalInode sv.store 0 ≠ ((smallDisk.disk fun _ => false).sectors 1).inode 0 := by
  obtain ⟨sv, hrun, h⟩ := Option.map_eq_some_iff.mp (show ((smallDisk.disk fun _ => false).serves
    [.create (some [SLASH, 97]) 1, .unlink (some [SLASH, 97]) 1, .unlink (some [SLASH, 97]) 1]).map
      (fun sv => (logicalInode sv.store 0).nlink) = some (-1) by decide +kernel)
  refine ⟨sv, hrun, fun he => ?_⟩
  rw [he] at h
  exact absurd h (by decide +kernel)

end Yfs
