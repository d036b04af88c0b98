import Yfs.Answers
import Yfs.Boot.Lists
import Yfs.Chains
import Yfs.Code.Main
import Yfs.LinkCounts

/-! # What survives a restart

A server that shuts down leaves a disk. The next one boots from it.
-/

namespace Yfs

open Ledger

variable {g : Geometry} {f : DiskFormat} {σ σ₁ τ : FS} {sv sv₀ sv' : Server} {disk disk' : Disk} {d e i b ret : Int} {k : Nat} {name : CStr} {req : Request}
  {reqs : List Request} {fresh_dirty : Nat → Bool}

/-! ## Free inodes have no type -/

/-- The free list is what boot would make of the types, and what has no type has no blocks. -/
structure Listed (f : DiskFormat) (σ : FS) : Prop where
  free : ∀ i, i ∈ σ.i_head ↔ (1 ≤ i ∧ i < scanEnd f.num_inodes) ∧ σ.type i = INODE_FREE
  typed : ∀ i, f.geometry.isInode i → i ≠ 0 → σ.type i ≠ INODE_FREE → i < scanEnd f.num_inodes
  bare : ∀ i, f.geometry.isInode i → i ≠ 0 → σ.type i = INODE_FREE → σ.size i = 0

/-- At most the first free inode gets a type, and what has none stays empty. -/
structure Retypes (σ τ : FS) : Prop where
  types : (τ.i_head = σ.i_head ∧ ∀ e, τ.type e = σ.type e) ∨
    σ.i_head ≠ [] ∧ τ.i_head = σ.i_head.tail ∧ τ.type σ.nextInode ≠ INODE_FREE ∧ ∀ e, e ≠ σ.nextInode → τ.type e = σ.type e
  sizes : ∀ e, σ.type e = INODE_FREE → τ.type e = INODE_FREE → σ.size e = 0 → τ.size e = 0

/-- `write` goes to files. -/
def Request.WritesFiles (σ : FS) : Request → Prop
  | .write i _ _ _ => σ.type i = INODE_REGULAR
  | _ => True

namespace Retypes

theorem refl (σ : FS) : Retypes σ σ := ⟨.inl ⟨rfl, fun _ => rfl⟩, fun _ _ _ => id⟩

/-- No type changes. -/
theorem same (hhead : τ.i_head = σ.i_head) (htype : ∀ e, τ.type e = σ.type e)
    (hsize : ∀ e, σ.type e = INODE_FREE → σ.size e = 0 → τ.size e = 0) : Retypes σ τ :=
  ⟨.inl ⟨hhead, htype⟩, fun e h _ => hsize e h⟩

end Retypes

theorem Placed.type_eq (hp : Placed σ d name k σ₁) : σ₁.type e = σ.type e := hp.edits e .type (by simp [Field.grows])

theorem Placed.size_typeless (hp : Placed σ d name k σ₁) (hdir : σ.isDir d) (htype : σ.type e = INODE_FREE) : σ₁.size e = σ.size e :=
  hp.edits e .size fun hf => absurd (htype.symm.trans (hf.1 ▸ hdir)) (by decide)

/-- A free inode gets a type, and an entry. -/
theorem Retypes.made (hp : Placed σ d name k σ₁) (hdir : σ.isDir d) (hne : σ.i_head ≠ []) (hhead : τ.i_head = σ₁.i_head.tail)
    (hedits : Edits (fun j _ => j = σ₁.nextInode) σ₁ τ) (htype : τ.type σ₁.nextInode ≠ INODE_FREE) : Retypes σ τ := by
  rw [hp.nextInode] at hedits htype
  refine ⟨.inr ⟨hne, by rw [hhead, hp.i_head], htype, fun e he => (hedits e .type he).trans hp.type_eq⟩, fun e hold hnew h0 => ?_⟩
  have he : e ≠ σ.nextInode := by
    rintro rfl
    exact htype hnew
  exact (hedits e .size he).trans ((hp.size_typeless hdir hold).trans h0)

theorem newDir_type : (σ.newDir d k name).type σ.nextInode = INODE_DIRECTORY := by
  rw [newDir_eq, View.type, headBlock_inode]
  simp [Field.width, INODE_DIRECTORY, Mem.wrap_short]

theorem truncate_size_zero (h : σ.size e = 0) : (σ.truncate i).size e = 0 := by
  by_cases hei : e = i
  · rw [hei]
    exact truncate_size
  · exact (truncate_edits e .size fun hf => hei hf.1).trans h

/-- `rmdir` finds no empty directory among those of the tree. -/
theorem FS.Planted.no_rmdir {path : CStr} {cur : Int} (ht : σ.Planted g) (hkeeps : (Request.rmdir (some path) cur).KeepsTree g σ)
    (hmarks : (Request.rmdir (some path) cur).Marks σ) : ¬ σ.size (σ.resolve (from_root path cur).1 (from_root path cur).2) ≤ 64 := by
  intro hsize
  obtain ⟨hused, hdir, _⟩ := hkeeps.2 _ rfl hsize
  obtain ⟨c, hself⟩ := ht.tree.self _ ⟨hused, hdir⟩
  have hlt := (entries_eq_some.mp hself).2.1.lt
  rw [View.slots, (hmarks hsize).1] at hlt
  exact absurd hlt (by decide)

theorem Effect.retypes (h : Effect σ req ret τ) (ht : σ.Planted g) (hw : WellFormed g σ) (hsafe : req.Safe g σ) (hkeeps : req.KeepsTree g σ)
    (hmarks : req.Marks σ) (hspares : req.SparesHeader σ) (hfiles : req.WritesFiles σ) : Retypes σ τ := by
  cases h with
  | looked => exact .refl σ
  | refused => exact .refl σ
  | create h =>
    cases h with
    | error => exact .refl σ
    | done _ hsup hne hdir h =>
      cases h with
      | taken => exact .refl σ
      | truncated => exact .same rfl (fun e => truncate_edits e .type (by simp)) fun e _ => truncate_size_zero
      | linked hp => exact .same hp.i_head (fun _ => hp.type_eq) fun e htype h0 => (hp.size_typeless hdir htype).trans h0
      | made hp hfree =>
        refine .made hp hdir (hspares _ _ hsup hdir (hp.lookup_zero hfree)) newFile_i_head newFile_edits ?_
        rw [newFile_fields.1]
        decide
  | @write i _ _ _ _ _ h =>
    have hk := h.kept hw hsafe
    refine .same hk.i_head (fun e => h.edits e .type (by simp [Field.grows])) fun e htype h0 => ?_
    have hei : e ≠ i := by
      rintro rfl
      exact absurd (htype.symm.trans hfiles) (by decide)
    exact (congrArg Inode.size (hk.inode e hei)).trans h0
  | link h =>
    cases h with
    | error => exact .refl σ
    | done _ _ _ _ _ _ hdir hp =>
      refine .same hp.i_head (fun e => ?_) fun e htype h0 => ?_
      · exact (addLinks_edits e .type (by simp)).trans hp.type_eq
      · exact (addLinks_edits e .size (by simp)).trans ((hp.size_typeless hdir htype).trans h0)
  | unlink h =>
    cases h with
    | error => exact .refl σ
    | done => exact .same removeEntry_i_head (fun e => removeEntry_edits e .type (by simp)) fun e _ => removeEntry_size_zero
  | mkdir h =>
    cases h with
    | error => exact .refl σ
    | done _ hsup _ hdir hp hfree =>
      refine .made hp hdir (hspares _ _ hsup (hp.lookup_zero hfree)) newDir_i_head newDir_edits ?_
      rw [newDir_type]
      decide
  | rmdir h =>
    cases h with
    | error => exact .refl σ
    | done _ hi hsize =>
      subst hi
      exact absurd hsize (ht.no_rmdir hkeeps hmarks)

theorem Listed.retypes (h : Listed f σ) (hnodup : σ.i_head.Nodup) (hr : Retypes σ τ) : Listed f τ := by
  rcases hr.types with ⟨hhead, htype⟩ | ⟨hne, hhead, hnew, htype⟩
  · exact ⟨fun i => by rw [hhead, htype, h.free], fun i hi h0 => by rw [htype]; exact h.typed i hi h0,
      fun i hi h0 hf => hr.sizes i ((htype i).symm.trans hf) hf (h.bare i hi h0 ((htype i).symm.trans hf))⟩
  · have hmem := nextInode_mem hne
    have hfree := (h.free _).mp hmem
    have hold : ∀ {i}, τ.type i = INODE_FREE → i ≠ σ.nextInode ∧ σ.type i = INODE_FREE := by
      intro i hi
      have hin : i ≠ σ.nextInode := by
        rintro rfl
        exact hnew hi
      exact ⟨hin, (htype i hin).symm.trans hi⟩
    have htail : ∀ i, i ∈ τ.i_head ↔ i ∈ σ.i_head ∧ i ≠ σ.nextInode := by
      intro i
      rw [hhead]
      unfold FS.nextInode
      cases hl : σ.i_head with
      | nil => exact absurd hl hne
      | cons a rest =>
        rw [hl] at hnodup
        have ha := (List.nodup_cons.mp hnodup).1
        simp only [List.tail_cons, List.headD_cons, List.mem_cons]
        constructor
        · exact fun hi => ⟨.inr hi, fun hia => ha (hia ▸ hi)⟩
        · exact fun hi => hi.1.resolve_left hi.2
    refine ⟨fun i => ?_, fun i hi h0 htyped => ?_, fun i hi h0 hi' => ?_⟩
    · rw [htail, h.free]
      constructor
      · exact fun ⟨⟨hr, hf⟩, hin⟩ => ⟨hr, (htype i hin).trans hf⟩
      · exact fun ⟨hr, hf⟩ => ⟨⟨hr, (hold hf).2⟩, (hold hf).1⟩
    · by_cases hin : i = σ.nextInode
      · exact hin ▸ hfree.1.2
      · exact h.typed i hi h0 (htype i hin ▸ htyped)
    · exact hr.sizes i (hold hi').2 hi' (h.bare i hi h0 (hold hi').2)

/-! ## Sessions -/

/-- The conditions of the sections before, together. -/
structure Request.Orderly (g : Geometry) (σ : FS) (req : Request) : Prop where
  safe : req.Safe g σ
  keeps : req.KeepsTree g σ
  plain : req.Plain σ
  fits : req.LinksFit σ
  marks : req.Marks σ
  spares : req.SparesHeader σ
  files : req.WritesFiles σ

/-- What a run of such requests keeps. -/
structure Durable (f : DiskFormat) (sv : Server) : Prop extends OnDisk f.geometry sv where
  planted : sv.fs.Planted f.geometry
  dotted : sv.fs.Dotted f.geometry
  counted : Tree.Counted (sv.fs.nodes f.geometry)
  clean : sv.fs.Clean
  header : sv.fs.inode 0 = (headerBlock f.num_sectors f.num_inodes).inode 0
  chains : ChainsIn f.geometry sv.fs
  listed : Listed f sv.fs

theorem scanEnd_le (hpos : 1 ≤ f.num_inodes) : scanEnd f.num_inodes ≤ f.geometry.inodes := by
  have ht := tableBlocks_eq f.num_inodes
  show scanEnd f.num_inodes ≤ 8 * tableBlocks f.num_inodes
  unfold scanEnd
  split <;> omega

/-- The types and the sizes are what they were, and so is the list. -/
theorem Listed.congr (h : Listed f σ) (hhead : ∀ i, i ∈ τ.i_head ↔ i ∈ σ.i_head)
    (hinode : ∀ i, f.geometry.isInode i → τ.inode i = σ.inode i) : Listed f τ := by
  have htype : ∀ {i}, f.geometry.isInode i → τ.type i = σ.type i := fun hi => congrArg Inode.type (hinode _ hi)
  have hnum := f.two
  refine ⟨fun i => ?_, fun i hi h0 ht => h.typed i hi h0 (htype hi ▸ ht), fun i hi h0 ht => ?_⟩
  · rw [hhead, h.free]
    refine and_congr_right fun hr => ?_
    have hle := scanEnd_le (f := f) (by omega)
    rw [htype ⟨by omega, by omega⟩]
  · exact (congrArg Inode.size (hinode i hi)).trans (h.bare i hi h0 ((htype hi).symm.trans ht))

theorem Listed.agrees (h : Listed f σ) (ha : σ.Agrees f.geometry τ) : Listed f τ :=
  h.congr (fun _ => by rw [ha.globals]) ha.inode

theorem Durable.step {resp : Response} (h : Durable f sv) (hreq : req.Orderly f.geometry sv.fs) (hserve : serve sv req = some (resp, sv')) :
    Durable f sv' := by
  obtain ⟨hsound, σ', heff, hw', ha⟩ := h.toSound.step f.short hreq.safe hserve
  have hw := h.wellFormed
  have hfree : (0 : Int) ∉ sv.fs.i_head := fun hm => absurd ((h.listed.free 0).mp hm).1.1 (by decide)
  exact {
    toOnDisk := h.toOnDisk.step f.short hreq.safe hserve
    planted := serve_planted h.toSound f.short h.planted hreq.safe hreq.keeps hserve
    dotted := serve_dotted h.toSound f.short h.planted hreq.safe hreq.keeps hserve hreq.plain h.dotted
    counted := serve_counted h.toSound f.short h.planted hreq.safe hreq.keeps hserve hreq.fits h.counted
    clean := ha.clean (heff.clean hw hreq.safe hreq.marks h.clean)
    header := (ha.inode 0 f.geometry.isInode_zero).trans ((heff.spared hreq.safe hw hreq.spares hfree).inode.trans h.header)
    chains := (heff.chains hw h.inRange hreq.safe h.chains).shown ha.inode ha.block
    listed := (h.listed.retypes h.planted.nodup
      (heff.retypes h.planted hw hreq.safe hreq.keeps hreq.marks hreq.spares hreq.files)).agrees ha }

/-! ## A restart -/

/-- The disk holds what the state shows. -/
structure DiskShows (f : DiskFormat) (σ : FS) (disk : Disk) : Prop where
  sectors : disk.num_sectors = f.num_sectors
  inode : ∀ i, f.geometry.isInode i → disk.view.inode i = σ.inode i
  block : ∀ b, ¬ f.geometry.isTable b → disk.view.block b = σ.block b

theorem Durable.shutdown (h : Durable f sv) (fresh_dirty : Nat → Bool) : ∃ disk, handle_shutdown fresh_dirty sv = some disk ∧ DiskShows f sv.fs disk := by
  obtain ⟨sv', hsync⟩ := handle_sync_total h.caches
  obtain ⟨hblock, hinode⟩ := handle_sync_flushed h.caches h.clean hsync
  have hsectors : sv'.store.num_sectors = f.num_sectors := (handle_sync_spec h.caches.rel hsync).2.sectors
  exact ⟨⟨sv'.store.num_sectors, sv'.store.sectors, fresh_dirty⟩, by rw [handle_shutdown, hsync, Option.map_some],
    hsectors, hinode, hblock⟩

namespace DiskShows

variable (hd : DiskShows f sv.fs disk) (h : Durable f sv)
include hd h

theorem formatted : Formatted disk f.num_inodes := by
  have hnum := f.two
  have hfits := f.fits
  have hmax := f.max
  have hshort := f.short
  have ht := tableBlocks_eq f.num_inodes
  have hslot : (disk.sectors 1).inode 0 = (headerBlock f.num_sectors f.num_inodes).inode 0 :=
    (hd.inode 0 f.geometry.isInode_zero).trans h.header
  have hload : ∀ off, off + 4 ≤ 64 → Mem.loadInt 4 (disk.sectors 1) off = Mem.loadInt 4 (headerBlock f.num_sectors f.num_inodes) off := by
    intro off hoff
    have hinode := congrArg (fun ino : Inode => Mem.loadInt 4 ino off) hslot
    simpa [Block.inode, Mem.loadInt_sub _ _ _ _ _ hoff] using hinode
  refine ⟨?_, ?_, by omega, hd.sectors ▸ hfits⟩
  · exact (hload 4 (by decide)).trans (headerBlock_num_inodes (by omega) (by omega))
  · exact (hload 0 (by decide)).trans ((headerBlock_num_blocks (by omega) hmax).trans hd.sectors.symm)

theorem pointer (hi : f.geometry.isInode i) : disk.view.pointer i k = sv.fs.pointer i k := by
  refine View.pointer_congr (hd.inode i hi) fun _ => ?_
  rw [h.chains.indirect i hi]
  exact hd.block 0 fun ht => absurd ht.1 (by decide)

theorem bootOk : BootOk disk f.num_inodes := by
  intro i hi _
  obtain ⟨h1, h8⟩ := scannedInodes_lt hi
  have hinode : f.geometry.isInode i := ⟨by omega, h8⟩
  refine ⟨fun b hb => ?_, fun _ => ?_⟩
  · obtain ⟨n, _, h140, _, rfl⟩ := mem_chain.mp hb
    rw [hd.pointer h hinode, hd.sectors]
    exact h.chains.pointer hinode (by omega) h140
  · rw [show disk.view.indirect i = sv.fs.indirect i from congrArg Inode.indirect (hd.inode i hinode), h.chains.indirect i hinode, hd.sectors]
    have hpos := f.geometry.table_pos
    have hfit := f.geometry.table_fits
    exact ⟨le_rfl, by show (0 : Int) < f.geometry.sectors; omega⟩

/-- The scan comes to every block of a file. -/
theorem marked {n : Nat} (hi : f.geometry.isInode i) (hc : sv.fs.covers i n) :
    disk.view.Marked (scannedInodes f.num_inodes) (sv.fs.pointer i n) := by
  have hm := h.wellFormed.mapped i hi
  have hsize : sv.fs.size i ≠ 0 := by
    intro h0
    rw [View.covers, h0, BLOCKSIZE] at hc
    omega
  have h0 : i ≠ 0 := by
    rintro rfl
    exact hsize h.planted.header
  have htyped : sv.fs.type i ≠ INODE_FREE := fun ht => hsize (h.listed.bare i hi h0 ht)
  have hpos := hi.1
  refine ⟨i, mem_scannedInodes.mpr ⟨by omega, h.listed.typed i hi h0 htyped⟩, ?_, mem_chain.mpr ⟨n, n.zero_le, hm.index n hc, fun m _ hmn => ?_, ?_⟩⟩
  · have htype : disk.view.type i = sv.fs.type i := congrArg Inode.type (hd.inode i hi)
    simpa [View.isFree, htype] using htyped
  · rw [hd.pointer h hi]
    exact hm.nonzero m (hc.lt hmn)
  · exact hd.pointer h hi

end DiskShows

/-- Other free lists. -/
theorem WellFormed.relist (hw : WellFormed g σ) (hsame : ∀ j, g.isInode j → σ.Same τ.toView j) (hnodup : τ.b_head.Nodup)
    (hfree : ∀ b ∈ τ.b_head, (b ≠ 0 ∧ -2 ^ 31 ≤ b ∧ b < 2 ^ 31) ∧ Loose (σ.ledger g) b) (hinodes : ∀ i ∈ τ.i_head, g.isInode i) :
    WellFormed g τ := by
  have hledger : ∀ key, τ.ledger g key = σ.ledger g key :=
    fun key => ledger_of_same (i := key.1 + 1) (fun j hj _ => hsame j hj) (by omega)
  refine ⟨⟨hnodup, fun key b hk hb => ?_, fun key key' b hk hk' => ?_⟩, fun i hi => (hsame i hi).mapped (hw.mapped i hi), fun b hb => (hfree b hb).1,
    fun d hd hdir => ?_, fun d k hd hdir hk => ?_, hinodes⟩
  · exact (hfree b hb).2 key ((hledger key).symm.trans hk)
  · exact hw.exclusive.inj key key' b ((hledger key).symm.trans hk) ((hledger key').symm.trans hk')
  · rw [(hsame d hd).size]
    exact hw.sizes d hd ((hsame d hd).isDir.mp hdir)
  · rw [(hsame d hd).slots] at hk
    rw [(hsame d hd).slotInum hk]
    exact hw.entries d k hd ((hsame d hd).isDir.mp hdir) hk

theorem InRange.relist (hr : InRange g σ) (hsame : ∀ j, g.isInode j → σ.Same τ.toView j) (hfree : ∀ b ∈ τ.b_head, 0 ≤ b ∧ b < g.sectors) :
    InRange g τ := by
  rintro b (⟨key, hk⟩ | ⟨i, hi, rfl⟩ | hb)
  · exact hr b (.inl ⟨key, (ledger_of_same (i := key.1 + 1) (fun j hj _ => hsame j hj) (by omega)).symm.trans hk⟩)
  · exact (hsame i hi).indirect ▸ hr.indirect hi
  · exact hfree b hb

/-- The next server shows the same, and its free blocks are no file's. -/
theorem Durable.restart (h : Durable f sv) (hd : DiskShows f sv.fs disk) :
    ∃ sv', boot disk = some sv' ∧ sv.fs.Shows f.geometry sv'.fs ∧ Durable f sv' := by
  obtain ⟨num_sectors, sectors, fresh⟩ := disk
  obtain rfl : num_sectors = f.num_sectors := hd.sectors
  have hnum := f.two
  have hmax := f.max
  have hw := h.wellFormed
  obtain ⟨sv', hboot, hb⟩ := (hd.formatted h).boot_spec.1 (hd.bootOk h)
  have hm : Mirrors f.geometry _ sv'.store := hb.mirrors
  have hinode : ∀ i, f.geometry.isInode i → sv'.fs.inode i = sv.fs.inode i := fun i hi => (hm.view_i i hi).trans (hd.inode i hi)
  have hblock : ∀ b, ¬ f.geometry.isTable b → sv'.fs.block b = sv.fs.block b := fun b ht => (hm.view_b b).trans (hd.block b ht)
  have hsame : ∀ i, f.geometry.isInode i → sv.fs.Same sv'.fs.toView i := fun i hi => (hw.mapped i hi).same (hinode i hi) hblock
  have hhead : ∀ i, i ∈ sv'.fs.i_head ↔ i ∈ sv.fs.i_head := by
    intro i
    refine hb.mem_i_head.trans ?_
    rw [h.listed.free, mem_scannedInodes]
    refine and_congr_right fun hr => ?_
    have hle := scanEnd_le (f := f) (by omega)
    rw [View.isFree, decide_eq_true_eq, View.type, hd.inode i ⟨by omega, by omega⟩]
  have hshows : sv.fs.Shows f.geometry sv'.fs := ⟨hinode, hblock, fun e => by rw [FS.Taken, FS.Taken, hhead]⟩
  have hfree : ∀ b ∈ sv'.fs.b_head, (0 < b ∧ b < f.num_sectors) ∧ Loose (sv.fs.ledger f.geometry) b := by
    intro b hmem
    obtain ⟨hr, hnot⟩ := (hb.b_head b).mp hmem
    refine ⟨hr, ?_⟩
    rintro ⟨i, o⟩ hk
    cases o with
    | none =>
      rw [View.ledger] at hk
      split at hk
      case isTrue hc =>
        rw [h.chains.indirect i hc.1] at hk
        obtain rfl := Option.some.inj hk
        exact absurd hr.1 (by decide)
      case isFalse => cases hk
    | some n =>
      obtain ⟨hi, hc, rfl⟩ := ledger_owns.mp hk
      rw [(hw.mapped i hi).nthBlock hc] at hnot
      exact hnot (hd.marked h hi hc)
  have hw' : WellFormed f.geometry sv'.fs := by
    refine hw.relist hsame hb.nodup (fun b hmem => ?_) fun i hi => hw.inodes i ((hhead i).mp hi)
    obtain ⟨hr, hloose⟩ := hfree b hmem
    exact ⟨by omega, hloose⟩
  refine ⟨sv', hboot, hshows, {
    caches := ⟨hm.blocks, hm.inodes, hm.sectors⟩
    wellFormed := hw'
    inRange := h.inRange.relist hsame fun b hmem => ⟨Int.le_of_lt (hfree b hmem).1.1, (hfree b hmem).1.2⟩
    planted := hshows.planted hw h.planted hb.nodup_i_head
    dotted := hshows.dotted hw h.planted h.dotted
    counted := hshows.counted hw h.planted h.counted
    clean := hb.clean
    header := (hinode 0 f.geometry.isInode_zero).trans h.header
    chains := h.chains.shown hinode hblock
    listed := h.listed.congr hhead hinode }⟩

/-! ## One server after the other -/

/-- A new disk, or what a server that has booted from such a disk leaves. -/
inductive DiskFormat.Lineage (f : DiskFormat) : Disk → Prop where
  | new (fresh_dirty : Nat → Bool) : f.Lineage (f.disk fresh_dirty)
  | next {disk disk' : Disk} {sv₀ sv : Server} {reqs : List Request} {fresh_dirty : Nat → Bool} (h : f.Lineage disk)
    (hboot : boot disk = some sv₀) (hmeets : sv₀.meets (fun σ req => req.Orderly f.geometry σ) reqs) (hrun : serves sv₀ reqs = some sv)
    (hdown : handle_shutdown fresh_dirty sv = some disk') : f.Lineage disk'

theorem DiskFormat.Started.listed (h : f.Started sv) : Listed f sv.fs := by
  have hnum := f.two
  have hroot : sv.fs.type ROOTINODE ≠ INODE_FREE := fun ht => absurd (h.root.2.symm.trans ht) (by decide)
  have hend : ROOTINODE < scanEnd f.num_inodes := by
    rw [scanEnd, if_neg (by omega)]
    simp only [ROOTINODE]
    omega
  have hle := scanEnd_le (f := f) (by omega)
  refine ⟨fun i => (h.i_head i).trans ⟨fun hi => ⟨⟨by omega, hi.2⟩, ?_⟩, fun hi => ⟨?_, hi.1.2⟩⟩, fun i hi h0 htype => ?_, fun i hi h0 htype => ?_⟩
  · exact h.typeless ⟨by omega, by omega⟩ (by omega) (by simp only [ROOTINODE]; omega)
  · by_contra hlt
    obtain ⟨hi, htype⟩ := hi
    obtain rfl : i = ROOTINODE := by simp only [ROOTINODE]; omega
    exact hroot htype
  · by_contra hge
    refine htype (h.typeless hi h0 ?_)
    rintro rfl
    exact hge hend
  · have hpos := hi.1
    have h1 : i ≠ 1 := by
      rintro rfl
      exact hroot htype
    have hinode := h.fresh.inode i (by omega) hi.2
    rw [if_neg h1] at hinode
    rw [View.size, hinode, Inode.size, Inode.get_zero]

theorem DiskFormat.Started.chains (h : f.Started sv) (hheader : sv.fs.inode 0 = (headerBlock f.num_sectors f.num_inodes).inode 0)
    (hblock : sv.fs.block 0 = (f.disk fresh_dirty).sectors 0) : ChainsIn f.geometry sv.fs := by
  have hnum := f.two
  have hfits := f.fits
  have hmax := f.max
  have ht := tableBlocks_eq f.num_inodes
  have hzero : f.geometry.Holds 0 := ⟨le_rfl, by show 0 < f.num_sectors; omega⟩
  have hinode : ∀ i, f.geometry.isInode i → i ≠ 0 → sv.fs.inode i = if i = 1 then rootInode f.num_inodes else Mem.zero :=
    fun i hi h0 => h.fresh.inode i (by have := hi.1; omega) hi.2
  refine ⟨fun i hi => ?_, fun i k hi h0 => ?_, fun m _ => ?_⟩
  · by_cases h0 : i = 0
    · rw [h0, View.indirect, hheader]
      exact headerBlock_indirect
    · rw [View.indirect, hinode i hi h0]
      split
      · exact rootInode_indirect
      · exact Inode.get_zero _
  · rw [hinode i hi h0]
    split
    · rw [rootInode_direct]
      split
      · rw [Mem.wrap_int _ (by omega) (by omega)]
        exact ⟨by omega, hfits⟩
      · exact hzero
    · rw [Inode.get_zero]
      exact hzero
  · have htable : ¬ (0 : Int) = tableBlocks f.num_inodes + 1 := by omega
    have hnone : (f.disk fresh_dirty).sectors 0 = Mem.zero := by simp [DiskFormat.disk, mkyfs, htable]
    rw [hblock, hnone, Block.pointer, Mem.loadInt_zero]
    exact hzero

theorem DiskFormat.durable (hboot : boot (f.disk fresh_dirty) = some sv) : Durable f sv := by
  have hnum := f.two
  have h := DiskFormat.started hboot
  have hdisk := DiskFormat.onDisk hboot
  have hb := (f.image fresh_dirty).booted hboot
  have hheader : sv.fs.inode 0 = (headerBlock f.num_sectors f.num_inodes).inode 0 := hb.mirrors.view_i 0 f.geometry.isInode_zero
  exact ⟨hdisk, h.planted, h.dotted, h.counted, hb.clean, hheader, h.chains hheader (hb.mirrors.view_b 0), h.listed⟩

theorem Durable.after (h : Durable f sv₀) (hmeets : sv₀.meets (fun σ req => req.Orderly f.geometry σ) reqs) (hrun : serves sv₀ reqs = some sv) :
    Durable f sv := serves_induction h hmeets hrun fun _ _ _ _ h hreq hs => h.step hreq hs

/-- Every disk of the line boots. -/
theorem DiskFormat.Lineage.boots (h : f.Lineage disk) : ∃ sv, boot disk = some sv ∧ Durable f sv := by
  induction h with
  | new fresh_dirty =>
    obtain ⟨sv, hboot⟩ : ∃ sv, boot (f.disk fresh_dirty) = some sv := DiskFormat.boots
    exact ⟨sv, hboot, DiskFormat.durable hboot⟩
  | next _ hboot hmeets hrun hdown ih =>
    obtain ⟨sv, hboot', hdurable⟩ := ih
    obtain rfl := Option.some.inj (hboot.symm.trans hboot')
    have hafter := hdurable.after hmeets hrun
    obtain ⟨disk, hdown', hshows⟩ := hafter.shutdown _
    obtain rfl := Option.some.inj (hdown.symm.trans hdown')
    obtain ⟨sv', hsv', _, hdurable'⟩ := hafter.restart hshows
    exact ⟨sv', hsv', hdurable'⟩

theorem walk_shown {w : View} {fuel : Nat} {path : CStr} (hw : WellFormed g σ) (hsame : ∀ i, g.isInode i → σ.Same w i) (hd : g.isInode d) :
    w.walk fuel path d = σ.walk fuel path d := by
  induction fuel generalizing path d with
  | zero => rfl
  | succ fuel ih =>
    have hd' := hsame d hd
    have hlook : w.lookup d path = σ.lookup d path := hd'.lookup
    rw [View.walk, View.walk, hlook, show (w.inode d).type = (σ.inode d).type from hd'.type]
    split
    case isTrue hdir =>
      split
      · rfl
      · exact ih (hw.lookup_isInode hd hdir)
    case isFalse => rfl

/-- What a session shows, and what any shutdown of it leaves for the next one. -/
structure Survives (f : DiskFormat) (sv : Server) : Prop where
  tree : sv.fs.DirTree f.geometry
  links : sv.fs.LinksExact f.geometry
  blocks : OwnedOnce f.geometry sv.fs
  next : ∀ fresh_dirty, ∃ disk sv', handle_shutdown fresh_dirty sv = some disk ∧ boot disk = some sv' ∧ sv.fs.Shows f.geometry sv'.fs ∧
    OwnedOnce f.geometry sv'.fs ∧ ∀ path cur, f.geometry.isInode cur → sv'.fs.resolve path cur = sv.fs.resolve path cur

theorem Durable.survives (h : Durable f sv) : Survives f sv := by
  refine ⟨h.planted.dirTree h.dotted, h.planted.linksExact h.counted, h.wellFormed.ownedOnce, fun fresh_dirty => ?_⟩
  obtain ⟨disk, hdown, hd⟩ := h.shutdown fresh_dirty
  obtain ⟨sv', hboot, hshows, h'⟩ := h.restart hd
  exact ⟨disk, sv', hdown, hboot, hshows, h'.wellFormed.ownedOnce, fun _ _ hcur =>
    walk_shown h.wellFormed (fun _ hi => hshows.same h.wellFormed hi) hcur⟩

theorem create_orderly {path : CStr} {cur : Int} (hsup : σ.superDir path cur = (d, name)) (hroom : σ.size d % 512 ≠ 0)
    (hcur : g.isInode cur) (hstart : σ.Taken g (View.start path cur)) (hfile : ¬ σ.isDir (σ.lookup d name)) (hfree : σ.i_head ≠ [])
    (hstr : 0 ∉ path) : (Request.create (some path) cur).Orderly g σ := by
  obtain ⟨hsafe, hkeeps⟩ := create_meets hcur hsup hroom hstart hfile
  refine ⟨hsafe, hkeeps, hstr, trivial, fun d' name' hsup' _ h512 => ?_, fun _ _ _ _ _ => hfree, trivial⟩
  obtain ⟨rfl, rfl⟩ := Prod.mk.inj (hsup.symm.trans hsup')
  exact absurd h512 hroom

end Yfs
