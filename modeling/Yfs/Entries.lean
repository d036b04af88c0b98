import Yfs.Atomic
import Yfs.Logical.Alike
import Yfs.Logical.Scan
import Yfs.Paths

/-! # `get_dir_entry` finds the right slot -/

namespace Yfs

variable {g : Geometry} {σ σ' : FS} {sv : Server} {d : Int} {path name : CStr} {k l n m : Nat} {make : Bool}

/-- The first slot of `d` with that name, live or not. -/
def View.firstNamed (v : View) (d : Int) (name : CStr) : Option Nat :=
  (List.range (v.slots d)).find? fun k => cname (v.slotName d k) = name

/-- A directory of whole entries without slashes, in blocks of its own. -/
structure FS.DirOk (g : Geometry) (σ : FS) (d : Int) : Prop extends σ.OwnBlocks g d where
  size : 0 ≤ σ.size d ∧ σ.size d % 32 = 0
  plain : ∀ k, k < σ.slots d → SLASH ∉ cname (σ.slotName d k)
  far : 12 * 512 ≤ σ.size d → σ.IndirectApart g d

/-- `d` has one more slot, a free one at the old end, and nothing else has changed. -/
structure SlotAdded (g : Geometry) (σ σ' : FS) (d : Int) : Prop where
  size : σ'.size d = σ.size d + 32
  inum : σ'.slotInum d (σ.slots d) = 0
  old : ∀ l, l < σ.slots d → σ'.slotBlock d l = σ.slotBlock d l ∧ σ'.slotInum d l = σ.slotInum d l ∧ σ'.slotName d l = σ.slotName d l
  b_head : σ.b_head = if σ.size d % 512 = 0 then σ'.slotBlock d (σ.slots d) :: σ'.b_head else σ'.b_head
  i_head : σ'.i_head = σ.i_head
  inode : ∀ j, g.isInode j → j ≠ d → σ'.inode j = σ.inode j
  block : ∀ b, ¬ g.isTable b → b ≠ σ'.slotBlock d (σ.slots d) → (σ.size d % 512 = 0 → 12 ≤ σ.blocks d → b ≠ σ.indirect d) →
    σ'.block b = σ.block b

/-- What `get_dir_entry` returns for a name, and the state. -/
inductive SlotFor (g : Geometry) (σ : FS) (d : Int) (name : CStr) (make : Bool) : Int × Int → FS → Prop where
  | named {k : Nat} {σ' : FS} (h : σ.firstNamed d name = some k) (hu : σ.Unchanged g σ') :
    SlotFor g σ d name make (slotOffset k, σ.slotBlock d k) σ'
  | absent {b : Int} {σ' : FS} (h : σ.firstNamed d name = none) (hm : make = false) (hu : σ.Unchanged g σ') :
    SlotFor g σ d name make (-1, b) σ'
  | free {k : Nat} {σ' : FS} (h : σ.firstNamed d name = none) (hm : make = true) (hk : σ.freeSlot d = some k) (hu : σ.Unchanged g σ') :
    SlotFor g σ d name make (slotOffset k, σ.slotBlock d k) σ'
  | added {σ' : FS} (h : σ.firstNamed d name = none) (hm : make = true) (hk : σ.freeSlot d = none) (hadd : SlotAdded g σ σ' d) :
    SlotFor g σ d name make (slotOffset (σ.slots d), σ'.slotBlock d (σ.slots d)) σ'

theorem SlotFor.congr {τ : FS} {r : Int × Int} (h : SlotFor g σ d name make r τ) (hlog : σ'.logical = τ.logical) :
    SlotFor g σ d name make r σ' := by
  obtain ⟨tg, tv, _, _⟩ := τ
  obtain ⟨sg, sv, ui, ub⟩ := σ'
  obtain ⟨rfl, rfl⟩ : sg = tg ∧ sv = tv := ⟨congrArg Logical.toGlobals hlog, congrArg Logical.toView hlog⟩
  cases h with
  | named h hu => exact .named h ⟨hu.i_head, hu.b_head, hu.inode, hu.block⟩
  | absent h hm hu => exact .absent h hm ⟨hu.i_head, hu.b_head, hu.inode, hu.block⟩
  | free h hm hk hu => exact .free h hm hk ⟨hu.i_head, hu.b_head, hu.inode, hu.block⟩
  | added h hm hk ha =>
    have hb : SlotAdded g σ ⟨sg, sv, ui, ub⟩ d := ⟨ha.size, ha.inum, ha.old, ha.b_head, ha.i_head, ha.inode, ha.block⟩
    have hslot := SlotFor.added h hm hk hb
    exact hslot

/-! ## Names -/

theorem findSlot_firstNamed {v : View} (hplain : ∀ k, k < v.slots d → SLASH ∉ cname (v.slotName d k)) (hstr : 0 ∉ path) :
    v.findSlot d path = v.firstNamed d ((path.takeWhile (· ≠ SLASH)).take DIRNAMELEN) := by
  unfold View.findSlot View.firstNamed
  refine List.find?_congr fun k hk => ?_
  rw [Bool.eq_iff_iff, name_eq_iff (hplain k (List.mem_range.mp hk)) hstr, slotName_length, decide_eq_true_iff]

/-! ## A slot at the end -/

namespace FS.DirOk

variable (h : σ.DirOk g d)
include h

theorem size_le : σ.size d ≤ 140 * 512 := by
  have := h.mapped.blocks_le
  simp only [View.blocks] at this
  omega

omit h in
theorem far_full (hfull : σ.size d % 512 = 0) (h12 : 12 ≤ σ.blocks d) : 12 * 512 ≤ σ.size d := by
  simp only [View.blocks] at h12
  omega

theorem canAppend (hfull : σ.size d % 512 = 0) (hidx : σ.blocks d < 140) (hfree : σ.b_head ≠ []) : σ.CanAppend g d := by
  have hmem := next_mem hfree
  obtain ⟨h0, hlt, hdata⟩ := h.free _ hmem
  refine ⟨hidx, Mem.wrap_int _ (by have := hdata.range; omega) hlt, hdata, fun h12 => ?_⟩
  have hfar := h.far (far_full hfull h12)
  exact ⟨hfar.data, fun he => hfar.free (he ▸ hmem)⟩

theorem growBlock_added (hfull : σ.size d % 512 = 0) (hidx : σ.blocks d < 140) (hfree : σ.b_head ≠ []) :
    SlotAdded g σ (σ.growBlock d) d := by
  have hg := h.canAppend hfull hidx hfree
  have hle := h.size_le
  have hpos := h.size.1
  have hmem := next_mem hfree
  have hnew : (σ.growBlock d).slotBlock d (σ.slots d) = σ.next :=
    slotBlock_growBlock hidx hg.wrap (slots_full hfull) fun h12 => (hg.indirect h12).2
  have hold : ((σ.alloc d (σ.blocks d)).inode d).size = σ.size d := FS.alloc_get fun _ _ => by simp
  have hsize : (σ.growBlock d).size d = σ.size d + 32 := by
    have : (σ.growBlock d).inode d = ((σ.alloc d (σ.blocks d)).inode d).set .size (σ.size d + 32) := by
      simp [FS.growBlock, DIRENTSIZE]
    rw [View.size, this]
    exact Inode.size_set_size _ _ (by omega) (by omega)
  have hblock : ∀ b, b ≠ σ.next → (12 ≤ σ.blocks d → b ≠ σ.indirect d) → (σ.growBlock d).block b = σ.block b :=
    fun b hb hind => (View.setBlock_block_ne hb).trans (FS.alloc_block_ne hind)
  have hptr : ∀ m, σ.covers d m → (σ.growBlock d).pointer d m = σ.pointer d m := by
    intro m hm
    have hlt := View.covers_iff.mp hm
    simp only [FS.growBlock, FS.markInode_view, FS.markBlock_view, FS.setBlock_view, FS.setInode_view]
    rw [View.pointer_setBlock_ne, View.pointer_setInode_self (by simp) (by simp), FS.pointer_alloc_ne (by omega)]
    intro h12
    simpa using (hg.indirect (by omega)).2
  refine ⟨hsize, ?_, fun l hl => ?_, ?_, ?_, fun j _ hne => ?_, fun b _ hb hind => hblock b (hnew ▸ hb) (hind hfull)⟩
  · rw [View.slotInum, hnew, slotOffset_full hfull]
    simp only [FS.growBlock, FS.markInode_view, FS.markBlock_view, FS.setBlock_view, View.setBlock_block_self]
    exact (Block.inum_setInum_self _ _ _ (by omega)).trans (Mem.wrap_short 0 (by decide) (by decide))
  · have hcov := covers_of_slot hl
    have hsame : (σ.growBlock d).block (σ.pointer d (l / 16)) = σ.block (σ.pointer d (l / 16)) :=
      hblock _ (fun he => h.unshared _ hcov (he ▸ hmem)) fun h12 => (h.far (far_full hfull h12)).apart _ hcov
    simp only [View.slotInum, View.slotName, View.slotBlock, hptr _ hcov, hsame, and_self]
  · rw [if_pos hfull, hnew]
    have : (σ.growBlock d).b_head = σ.b_head.tail := congrArg Globals.b_head FS.alloc_globals
    rw [this]
    exact b_head_eq hfree
  · have : (σ.growBlock d).i_head = σ.pop.i_head := congrArg Globals.i_head FS.alloc_globals
    exact this
  · exact (View.setInode_inode_ne hne).trans (FS.alloc_inode_ne hne)

theorem growLast_added (hpart : ¬ σ.size d % 512 = 0) : SlotAdded g σ (σ.growLast d) d := by
  obtain ⟨hpos, hsize⟩ := h.size
  have hle := h.size_le
  obtain ⟨_, _, hcov, _⟩ := slots_part hpos hsize hpart
  have hfar : ∀ m, σ.covers d m → 12 ≤ m → ∀ n, σ.covers d n → σ.pointer d n ≠ σ.indirect d := by
    intro m hm h12
    simp only [View.covers, BLOCKSIZE] at hm
    exact (h.far (by omega)).apart
  have hinode : (σ.growLast d).inode d = (σ.inode d).set .size (σ.size d + 32) := by simp [FS.growLast, DIRENTSIZE]
  have hsz : (σ.growLast d).size d = σ.size d + 32 := by
    rw [View.size, hinode]
    exact Inode.size_set_size _ _ (by omega) (by omega)
  have hnew : (σ.growLast d).slotBlock d (σ.slots d) = σ.slotBlock d (σ.slots d) :=
    slotBlock_growLast fun h12 => (hfar _ hcov h12 _ hcov).symm
  have hblock : ∀ b, b ≠ σ.slotBlock d (σ.slots d) → (σ.growLast d).block b = σ.block b := fun b hb => View.setBlock_block_ne hb
  have hself : (σ.growLast d).block (σ.slotBlock d (σ.slots d)) =
      (σ.block (σ.slotBlock d (σ.slots d))).setInum (slotOffset (σ.slots d)) 0 := by
    simp [FS.growLast]
  have hptr : ∀ m, σ.covers d m → (σ.growLast d).pointer d m = σ.pointer d m := by
    intro m hm
    simp only [FS.growLast, FS.markInode_view, FS.markBlock_view, FS.setBlock_view, FS.setInode_view]
    rw [View.pointer_setBlock_ne, View.pointer_setInode_self (by simp) (by simp)]
    intro h12
    have hne := (hfar m hm h12 _ hcov).symm
    simpa [View.slotBlock] using hne
  refine ⟨hsz, ?_, fun l hl => ?_, by rw [if_neg hpart]; rfl, rfl, fun j _ hne => View.setInode_inode_ne hne,
    fun b _ hb _ => hblock b (hnew ▸ hb)⟩
  · rw [View.slotInum, hnew, hself]
    refine (Block.inum_setInum_self _ _ _ ?_).trans (Mem.wrap_short 0 (by decide) (by decide))
    simp only [slotOffset]; omega
  · have hcl := covers_of_slot hl
    refine ⟨hptr _ hcl, ?_⟩
    rw [View.slotInum, View.slotName, View.slotBlock, hptr _ hcl, View.slotInum, View.slotName]
    by_cases hb : σ.pointer d (l / 16) = σ.slotBlock d (σ.slots d)
    · have hdiv := h.apart _ _ hcl hcov hb
      rw [View.slotBlock, hb, hself]
      exact slotOnly_setInum _ _ _ (l % 16) (by omega)
    · rw [hblock _ hb]
      exact ⟨rfl, rfl⟩

theorem grow_added (hroom : σ.size d % 512 = 0 → σ.blocks d < 140 ∧ σ.b_head ≠ []) : SlotAdded g σ (σ.grow d) d := by
  unfold FS.grow
  split
  case isTrue hfull => exact h.growBlock_added hfull (hroom hfull).1 (hroom hfull).2
  case isFalse hpart => exact h.growLast_added hpart

end FS.DirOk

/-! ## The search -/

/-- The directories of a well-formed state are such directories. -/
theorem WellFormed.dirOk (hw : WellFormed g σ) (hr : InRange g σ) (hn : σ.toView.Named g) (hd : g.isInode d) (hdir : σ.isDir d)
    (hfree : ∀ b ∈ σ.b_head, ¬ g.isTable b) (hfar : 12 * 512 ≤ σ.size d → σ.OwnIndirect g d) : σ.DirOk g d :=
  ⟨hw.ownBlocks hr hd hfree, hw.sizes d hd hdir, fun k => hn.plain d k hd hdir, fun h12 => hw.indirectApart hr hd (hfar h12)⟩

theorem smallStart_table : ∀ b ∈ smallStart.fs.b_head, ¬ smallDisk.geometry.isTable b := by
  intro b hb ht
  have := mem_ints.mp hb
  have : smallDisk.geometry.table = 2 := rfl
  have := ht.2
  omega

end Yfs
