import Yfs.Bindings

/-! # `unlink` removes one name -/

namespace Yfs

variable {g : Geometry} {σ τ τ' : FS} {sv : Server} {d e i j cur : Int} {k : Nat} {p path c name : CStr}

/-! ## A name less -/

theorem nlink_range : -2 ^ 15 ≤ σ.nlink i ∧ σ.nlink i < 2 ^ 15 := by
  rw [View.nlink, Inode.nlink, Inode.get, Mem.loadInt_eq]
  exact Mem.wrap_short_range _

theorem addLinks_nlink {n : Int} : (σ.addLinks i n).nlink i = Mem.wrap 2 (σ.nlink i + n) := by
  rw [FS.addLinks, FS.setInode_view, View.nlink, View.setInode_inode_self, Inode.nlink, Inode.get_set, if_pos rfl]
  rfl

/-- Entry `c` of `d`, which named `i`, is free. Other names lead where they led. `i` has one link less, and its blocks are free if
that was the last. -/
structure EntryRemoved (g : Geometry) (σ τ : FS) (d : Int) (c : CStr) (i : Int) : Prop where
  slot : ∃ k, k < σ.slots d ∧ σ.slotInum d k = i ∧ cname (σ.slotName d k) = c.take DIRNAMELEN ∧
    SlotPut g σ.toView τ.toView {j | j = i ∧ τ.nlink j = 0} d k 0 (σ.slotName d k)
  gone : τ.entry d c = none
  names : ∀ e a, g.isInode e → σ.isDir e → e ≠ d ∨ a.take DIRNAMELEN ≠ c.take DIRNAMELEN → τ.isDir e ∧ τ.entry e a = σ.entry e a
  nlink : τ.nlink i = σ.nlink i - 1
  b_head : τ.b_head = if τ.nlink i = 0 then (σ.fileBlocks i).reverse ++ σ.b_head else σ.b_head
  i_head : τ.i_head = σ.i_head
  inode : ∀ j, g.isInode j → j ≠ i → τ.inode j = σ.inode j

theorem EntryRemoved.agrees (h : EntryRemoved g σ τ d c i) (hw : WellFormed g τ) (hd : g.isInode d) (hi : g.isInode i)
    (ha : τ.Agrees g τ') : EntryRemoved g σ τ' d c i := by
  have hsame : ∀ e, g.isInode e → τ.Same τ'.toView e := fun e he => ha.same hw he
  have hlinks : τ'.nlink i = τ.nlink i := by rw [View.nlink, ha.inode i hi]
  have hset : {j | j = i ∧ τ'.nlink j = 0} = {j | j = i ∧ τ.nlink j = 0} := by
    ext j
    constructor
    · rintro ⟨rfl, h0⟩
      exact ⟨rfl, hlinks ▸ h0⟩
    · rintro ⟨rfl, h0⟩
      exact ⟨rfl, hlinks.trans h0⟩
  obtain ⟨k, hk, hinum, hname, hput⟩ := h.slot
  refine ⟨⟨k, hk, hinum, hname, ?_⟩, (hsame d hd).entry.trans h.gone, fun e a he hdir hne => ?_, hlinks.trans h.nlink, ?_,
    (congrArg Globals.i_head ha.globals).trans h.i_head, fun j hj hne => (ha.inode j hj).trans (h.inode j hj hne)⟩
  · rw [hset]
    exact hput.then_same (hsame d hd) fun e he _ _ => hsame e he
  · obtain ⟨h1, h2⟩ := h.names e a he hdir hne
    exact ⟨(hsame e he).isDir.mpr h1, (hsame e he).entry.trans h2⟩
  · rw [hlinks, ha.globals]
    exact h.b_head

theorem removeEntry_b_head : (σ.removeEntry d k).b_head =
    if (σ.addLinks (σ.slotInum d k) (-1)).nlink (σ.slotInum d k) = 0 then (σ.fileBlocks (σ.slotInum d k)).reverse ++ σ.b_head
    else σ.b_head := by
  have hblocks : (σ.addLinks (σ.slotInum d k) (-1)).fileBlocks (σ.slotInum d k) = σ.fileBlocks (σ.slotInum d k) := by
    have hsize : (σ.addLinks (σ.slotInum d k) (-1)).size (σ.slotInum d k) = σ.size (σ.slotInum d k) := by simp [FS.addLinks]
    have hptr : (σ.addLinks (σ.slotInum d k) (-1)).pointer (σ.slotInum d k) = σ.pointer (σ.slotInum d k) :=
      funext fun m => View.pointer_setInode_self (by simp) (by simp)
    rw [View.fileBlocks, View.fileBlocks, View.blocks, View.blocks, hsize, hptr]
  unfold FS.removeEntry
  dsimp only
  split
  · rw [← hblocks]
    rfl
  · rfl

/-- What `handle_unlink` does to a live entry of a file. -/
theorem removeEntry_removed (hw : WellFormed g σ) (hn : σ.toView.Named g) (hd : g.isInode d) (hdir : σ.isDir d) (hk : k < σ.slots d)
    (hname : cname (σ.slotName d k) = c.take DIRNAMELEN) (hlive : σ.slotInum d k ≠ 0) (hfile : ¬ σ.isDir (σ.slotInum d k))
    (hlinks : -2 ^ 15 < σ.nlink (σ.slotInum d k)) : EntryRemoved g σ (σ.removeEntry d k) d c (σ.slotInum d k) := by
  have hat : SlotAt g σ d k (σ.slotBlock d k) := ⟨hw, hd, hdir, hk, rfl⟩
  have hne : σ.slotInum d k ≠ d := fun he => hfile (he.symm ▸ hdir)
  have hput := hat.removeEntry_put hne
  have hnamed := hn.at hd hdir
  have hself : (σ.removeEntry d k).NamedAt d := hput.namedAt hnamed (hnamed.plain k hk) (fun h => absurd rfl h) (fun h => absurd rfl h)
    fun m hm hlt h0 => hnamed.first m k hlt h0 hm
  have hnlink : (σ.removeEntry d k).nlink (σ.slotInum d k) = σ.nlink (σ.slotInum d k) - 1 := by
    have hrange : σ.nlink (σ.slotInum d k) < 2 ^ 15 := nlink_range.2
    rw [removeEntry_nlink, addLinks_nlink]
    exact Mem.wrap_short _ (by omega) (by omega)
  have htype : ∀ j, (σ.removeEntry d k).isDir j ↔ σ.isDir j := by
    intro j
    have h := removeEntry_edits (σ := σ) (d := d) (k := k) j .type fun h => by simp at h
    rw [View.isDir, View.isDir]
    exact Eq.congr_left h
  refine ⟨⟨k, hk, rfl, hname, hput⟩, hput.entry_gone hnamed hk hlive hname rfl, fun e a he hdir' hor => ⟨(htype e).mpr hdir', ?_⟩, hnlink,
    ?_, removeEntry_i_head, fun j _ hj => removeEntry_edits.inode fun f hf => hj hf.1⟩
  · by_cases hed : e = d
    · subst hed
      have hne' := hor.resolve_left fun h => h rfl
      exact hput.entry_other hnamed hself (fun _ _ h => hne' (h.symm.trans hname)) fun h => absurd rfl h
    · refine (hput.same e he hed ?_).entry
      rintro ⟨rfl, _⟩
      exact hfile hdir'
  · rw [removeEntry_b_head, hnlink, ← hnlink, removeEntry_nlink]

/-! ## The handler -/

/-- `path` names a live entry of a directory, and the entry names a file. -/
structure FS.Unlinkable (σ : FS) (path : CStr) (cur d i : Int) : Prop where
  parent : σ.parent path cur = some d
  dir : σ.isDir d
  entry : σ.entry d (basename path) = some i
  file : ¬ σ.isDir i

/-- What `unlink` is for. -/
structure Unlinks (g : Geometry) (σ : FS) (path : CStr) (cur ret : Int) (τ : FS) : Prop where
  removes : ∀ d i, σ.Unlinkable path cur d i → ret = 0 ∧ EntryRemoved g σ τ d (basename path) i
  refuses : (¬ ∃ d i, σ.Unlinkable path cur d i) → ret = ERROR ∧ σ.Unchanged g τ

/-- The directory of the path is there, and if some slot in it has the name, the first such slot is live and names a file. -/
def FS.FindsFile (σ : FS) (path : CStr) (cur : Int) : Prop :=
  path.length < MAXPATHNAMELEN ∧ ∃ d, σ.parent path cur = some d ∧ (σ.isDir d →
    ∀ k, σ.firstNamed d ((basename path).take DIRNAMELEN) = some k →
      σ.slotInum d k ≠ 0 ∧ ¬ σ.isDir (σ.slotInum d k) ∧ -2 ^ 15 < σ.nlink (σ.slotInum d k))

section

variable (h : OnDisk g sv) (hn : sv.fs.Named g) (hcur : g.isInode cur) (hpos : 0 < cur)
include h hcur hpos

/-- There is no inode -1. -/
theorem unlink_undefined (hsup : (sv.fs.superDir path cur).1 = ERROR) : serve sv (.unlink (some path) cur) = none := by
  obtain ⟨⟨d, name⟩, sv₁, σ₁, hrun, rfl, hrel⟩ := h.returns (get_super_dir_steady h.caches.tidy)
    (get_super_dir_total h.wellFormed h.inRange hcur)
    (get_super_dir_spec (Q := fun r _ => r.1 = ERROR) h.wellFormed hcur g.isInode_root hsup)
  have hget : Cache.get_i ERROR sv₁.store = none := get_i_negative hrel.inodes (by decide)
  have hnone : run (handle_unlink (some path) cur) sv = none := by
    unfold handle_unlink
    dsimp only
    rw [if_neg (by omega), run_bind, hrun]
    simp [get_i, Prog.cmd, run, exec, hget]
  rw [serve_handler (by simp), Request.handler, run_bind, hnone]
  rfl

theorem unlink_serves (hsup : sv.fs.superDir path cur = (d, name)) (hne : d ≠ ERROR) :
    ∃ resp sv' σ', serve sv (.unlink (some path) cur) = some (resp, sv') ∧ Rel g sv' σ' ∧
      (¬ sv.fs.isDir d ∨ sv.fs.findSlot d name = none → resp.ret = ERROR ∧ σ' = sv.fs) ∧
      ∀ k, sv.fs.isDir d → sv.fs.findSlot d name = some k → resp.ret = 0 ∧ σ' = sv.fs.removeEntry d k := by
  have hanswer : Request.Answerable g sv (.unlink (some path) cur) := ⟨hcur, fun _ => by rwa [hsup], trivial⟩
  have hspec : wp g (Request.unlink (some path) cur).handler sv.fs fun resp σ' =>
      (¬ sv.fs.isDir d ∨ sv.fs.findSlot d name = none → resp.ret = ERROR ∧ σ' = sv.fs) ∧
      ∀ k, sv.fs.isDir d → sv.fs.findSlot d name = some k → resp.ret = 0 ∧ σ' = sv.fs.removeEntry d k := by
    refine wp_bind.mpr (handle_unlink_cases h.wellFormed g.isInode_root hcur (fun hle => absurd hpos (by omega)) ?_)
    rintro d' name' _ hsup' _
    obtain ⟨rfl, rfl⟩ := Prod.mk.inj (hsup.symm.trans hsup')
    refine ⟨fun hmiss => wp_pure ⟨fun _ => ⟨rfl, rfl⟩, fun k hdir hk => ?_⟩, fun k hdir hk => wp_pure ⟨fun hmiss => ?_, fun l _ hl => ?_⟩⟩
    · rcases hmiss with hfile | hnone
      · exact absurd hdir hfile
      · rw [hnone] at hk
        cases hk
    · rcases hmiss with hfile | hnone
      · exact absurd hdir hfile
      · rw [hnone] at hk
        cases hk
    · rw [hk] at hl
      obtain rfl := Option.some.inj hl
      exact ⟨rfl, rfl⟩
  obtain ⟨resp, sv', σ', hserve, hQ, hrel⟩ := h.serves_to hanswer (by simp) hspec
  exact ⟨resp, sv', σ', hserve, hrel, hQ⟩

include hn

end

end Yfs
