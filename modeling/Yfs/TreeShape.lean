import Yfs.Tree

/-! # The shape of the tree

What a run leaves of the tree that boot finds.
-/

namespace Yfs

variable {g : Geometry} {σ τ : FS} {sv sv₀ sv' : Server} {d e i j p : Int} {k l : Nat} {c : CStr} {req : Request} {reqs : List Request}

/-! ## Runs -/

/-- The same inodes and blocks, and the same inodes in use. -/
structure FS.Shows (g : Geometry) (σ τ : FS) : Prop where
  inode : ∀ i, g.isInode i → τ.inode i = σ.inode i
  block : ∀ b, ¬ g.isTable b → τ.block b = σ.block b
  taken : ∀ e, τ.Taken g e ↔ σ.Taken g e

namespace FS.Shows

variable (h : σ.Shows g τ) (hw : WellFormed g σ)
include h hw

theorem same (hi : g.isInode e) : σ.Same τ.toView e := (hw.mapped e hi).same (h.inode e hi) h.block

/-- No entry differs. -/
theorem entries : (τ.nodes g).entries = (σ.nodes g).entries :=
  funext fun _ => funext fun _ => entries_congr (h.taken _) fun he => (h.same hw he.1).entryAt

theorem treeStep {fits p : Prop} : TreeStep g fits p σ τ := by
  refine .same (h.entries hw) h.taken (fun e => dir_same (h.taken e) fun he => (h.same hw he.1).type) fun e he => ?_
  have hinode := h.inode e he.1
  exact ⟨⟨he.1, he.2.1, (congrArg Inode.type hinode).symm.trans he.2.2⟩, congrArg Inode.nlink hinode⟩

theorem planted (ht : σ.Planted g) (hnodup : τ.i_head.Nodup) : τ.Planted g := by
  have hstep : TreeStep g False False σ τ := h.treeStep hw
  exact ⟨hnodup, (congrArg Inode.size (h.inode 0 g.isInode_zero)).trans ht.header, hstep.rooted ht.tree⟩

theorem dotted (ht : σ.Planted g) (hd : σ.Dotted g) : τ.Dotted g := by
  have hstep : TreeStep g True True σ τ := h.treeStep hw
  exact (hstep.mono (fun _ hc => hc trivial) (fun _ hc => hc trivial) fun _ hc => hc trivial).signed ht.tree hd

theorem counted (ht : σ.Planted g) (hc : Tree.Counted (σ.nodes g)) : Tree.Counted (τ.nodes g) := by
  have hstep : TreeStep g True False σ τ := h.treeStep hw
  exact hstep.counted ht.tree hc trivial fun _ => finite_into

end FS.Shows

/-- What the caches hide changes nothing of it. -/
theorem FS.Agrees.shows (ha : σ.Agrees g τ) : σ.Shows g τ :=
  ⟨ha.inode, ha.block, fun _ => taken_same (congrArg Globals.i_head ha.globals)⟩

theorem FS.Planted.agrees (h : σ.Planted g) (hw : WellFormed g σ) (ha : σ.Agrees g τ) : τ.Planted g := by
  refine ha.shows.planted hw h ?_
  rw [show τ.i_head = σ.i_head from congrArg Globals.i_head ha.globals]
  exact h.nodup

section

variable {resp : Response} (h : Sound g sv) (hshort : 8 * g.table ≤ 2 ^ 15) (ht : sv.fs.Planted g) (hsafe : req.Safe g sv.fs)
  (hkeeps : req.KeepsTree g sv.fs) (hserve : serve sv req = some (resp, sv'))
include h hshort ht hsafe hkeeps hserve

/-- One round. -/
theorem serve_planted : sv'.fs.Planted g := by
  obtain ⟨_, σ', heff, hw', hagree⟩ := h.step hshort hsafe hserve
  exact (heff.planted ht h.wellFormed hshort hsafe hkeeps).agrees hw' hagree

theorem serve_dotted (hplain : req.Plain sv.fs) (hdotted : sv.fs.Dotted g) : sv'.fs.Dotted g := by
  obtain ⟨_, σ', heff, hw', hagree⟩ := h.step hshort hsafe hserve
  have hstep := heff.treeStep (p := True) ht h.wellFormed hshort hsafe hkeeps fun _ => ⟨hplain, hdotted⟩
  have ht' := heff.planted ht h.wellFormed hshort hsafe hkeeps
  have hplainStep := hstep.mono (fun _ hc => hc trivial) (fun _ hc => hc trivial) fun _ hc => hc trivial
  exact hagree.shows.dotted hw' ht' (hplainStep.signed ht.tree hdotted)

theorem serve_counted (hfits : req.LinksFit sv.fs) (hc : Tree.Counted (sv.fs.nodes g)) : Tree.Counted (sv'.fs.nodes g) := by
  obtain ⟨_, σ', heff, hw', hagree⟩ := h.step hshort hsafe hserve
  have hstep := heff.treeStep (p := False) ht h.wellFormed hshort hsafe hkeeps False.elim
  have ht' := heff.planted ht h.wellFormed hshort hsafe hkeeps
  exact hagree.shows.counted hw' ht' (hstep.counted ht.tree hc hfits fun _ => finite_into)

end

/-! ## A new disk -/

section

variable {f : DiskFormat} (h : f.Started sv)
include h

theorem DiskFormat.Started.entry {e : Int} {l : Nat} {j : Int} {c : CStr} (he : (sv.fs.nodes f.geometry).entries e l = some (j, c)) :
    e = ROOTINODE ∧ l < 2 ∧ j = ROOTINODE ∧ c = cname (rootBlock.name (slotOffset l)) := by
  have hnum := f.two
  have hfits := f.fits
  have hmax := f.max
  obtain ⟨htaken, hl, rfl⟩ := entries_eq_some.mp he
  obtain ⟨rfl, hlt⟩ := h.fresh.slot_root (by omega) rfl htaken.1 hl.lt
  exact ⟨rfl, hlt, hl.inum.symm.trans (h.fresh.slotInum_root (by omega) (by omega) hlt), by rw [h.fresh.slotName_root (by omega) (by omega) hlt]⟩

theorem DiskFormat.Started.root : (sv.fs.nodes f.geometry).dir ROOTINODE := by
  have hnum := f.two
  refine ⟨⟨f.geometry.isInode_root, fun hm => ?_, by decide⟩, h.fresh.type_root (by omega)⟩
  have := (h.fresh.i_head _ hm).1
  simp only [ROOTINODE] at this
  omega

theorem DiskFormat.Started.root_entry {l : Nat} (hl : l < 2) :
    (sv.fs.nodes f.geometry).entries ROOTINODE l = some (ROOTINODE, cname (rootBlock.name (slotOffset l))) := by
  have hnum := f.two
  have hfits := f.fits
  have hmax := f.max
  have hslots : sv.fs.slots ROOTINODE = 2 := h.fresh.slots_root (by omega)
  have hname : sv.fs.slotName ROOTINODE l = rootBlock.name (slotOffset l) := h.fresh.slotName_root (by omega) (by omega) hl
  exact entries_eq_some.mpr ⟨h.root.1, ⟨h.root.2, hslots ▸ hl, h.fresh.slotInum_root (by omega) (by omega) hl, by decide⟩, by rw [hname]⟩

/-- The other inodes have no type. -/
theorem DiskFormat.Started.typeless {e : Int} (he : f.geometry.isInode e) (h0 : e ≠ 0) (h1 : e ≠ ROOTINODE) : sv.fs.type e = INODE_FREE := by
  have hpos := he.1
  have hzero := h.fresh.inode e (by omega) he.2
  rw [if_neg (show ¬ e = 1 from h1)] at hzero
  rw [View.type, hzero, Inode.type, Inode.get_zero]
  rfl

theorem DiskFormat.Started.planted : sv.fs.Planted f.geometry := by
  have hdir : ∀ e, (sv.fs.nodes f.geometry).dir e → e = ROOTINODE := by
    intro e he
    by_contra h1
    exact absurd ((h.typeless he.1.1 he.1.2.2 h1).symm.trans he.2) (by decide)
  refine ⟨h.fresh.i_nodup, h.fresh.header, fun e he => he.1, fun he => ?_, fun he => ?_, fun e he => ?_, h.root, fun e he => ?_,
    ⟨_, h.root_entry (by decide)⟩, fun he hl _ => ?_, fun he _ h2 _ _ => ?_⟩
  · exact (h.entry he).1 ▸ h.root
  · exact (h.entry he).2.2.1 ▸ h.root.1
  · exact hdir e he ▸ .root
  · exact hdir e he ▸ ⟨_, h.root_entry (by decide)⟩
  · have := (h.entry he).2.1
    omega
  · have := (h.entry he).2.1
    omega

theorem DiskFormat.Started.dotted : sv.fs.Dotted f.geometry := by
  intro e l j c he
  obtain ⟨rfl, hlt, rfl, rfl⟩ := h.entry he
  refine ⟨?_, ?_, fun h2 => by omega⟩
  · rintro rfl
    decide +kernel
  · rintro rfl
    decide +kernel

theorem DiskFormat.Started.counted : Tree.Counted (sv.fs.nodes f.geometry) := by
  have hnone : ∀ e, ¬ (sv.fs.nodes f.geometry).file e := by
    rintro e ⟨he, h0, htype⟩
    by_cases h1 : e = ROOTINODE
    · subst h1
      exact absurd (htype.symm.trans h.root.2) (by decide)
    · exact absurd ((h.typeless he h0 h1).symm.trans htype) (by decide)
  exact ⟨fun e he => absurd he (hnone e), fun e he => absurd he (hnone e)⟩

end

/-! ## The shape -/

/-- The only entry `c` of `d` names `j`. -/
def View.OnlyEntry (v : View) (d : Int) (c : CStr) (j : Int) : Prop :=
  ∃ k, v.entryAt d k = some (j, c) ∧ ∀ l i, v.entryAt d l = some (i, c) → l = k

/-- What names other than `.` and `..` lead to from the root. -/
inductive View.Hangs (v : View) : Int → Prop where
  | root : v.Hangs ROOTINODE
  | next {e : Int} {l : Nat} {j : Int} {c : CStr} (h : v.Hangs e) (he : v.entryAt e l = some (j, c)) (hname : ¬ IsDots c) : v.Hangs j

/-- Slot `l` of `p` is the only one of an inode in use that names `d` other than `.` or `..`. -/
structure FS.HangsFrom (g : Geometry) (σ : FS) (d p : Int) (l : Nat) : Prop where
  parent : σ.Taken g p
  name : ∃ c, σ.entryAt p l = some (d, c) ∧ ¬ IsDots c
  only : ∀ q m c, σ.Taken g q → σ.entryAt q m = some (d, c) → ¬ IsDots c → q = p ∧ m = l

/-- The directories in use are a tree below the root, and `.` and `..` follow it. -/
structure FS.DirTree (g : Geometry) (σ : FS) : Prop where
  root : σ.Taken g ROOTINODE ∧ σ.isDir ROOTINODE
  reached : ∀ d, σ.isDir d → (σ.Taken g d ↔ σ.Reached d)
  self : ∀ d, σ.Taken g d → σ.isDir d → σ.OnlyEntry d [DOT] d
  top : σ.OnlyEntry ROOTINODE [DOT, DOT] ROOTINODE
  up : ∀ d, σ.Taken g d → σ.isDir d → d ≠ ROOTINODE → ∃ p l, σ.HangsFrom g d p l ∧ σ.OnlyEntry d [DOT, DOT] p
  nameless : ∀ q l c, σ.Taken g q → σ.entryAt q l = some (ROOTINODE, c) → IsDots c
  hangs : ∀ d, σ.Taken g d → σ.isDir d → σ.Hangs d

theorem FS.Planted.reached (ht : σ.Planted g) (hr : σ.Reached e) : σ.Taken g e := by
  induction hr with
  | root => exact ht.tree.root.1
  | next _ hl ih => exact ht.target ih hl

theorem FS.Planted.reached_iff (ht : σ.Planted g) (hdir : σ.isDir d) : σ.Taken g d ↔ σ.Reached d := by
  have hall : ∀ d, Tree.Reached (σ.nodes g).entries ROOTINODE d → σ.Reached d := fun d hr => by
    induction hr with
    | root => exact .root
    | next _ he ih => exact ih.next (entries_eq_some.mp he).2.1
  exact ⟨fun hd => hall d (ht.tree.reached d ⟨hd, hdir⟩), ht.reached⟩

/-- Slots past the first two have names that are not `.` or `..`, and the names of the first two are nowhere else. -/
theorem FS.Dotted.past (h : σ.Dotted g) (hd : σ.Taken g d) (he : σ.entryAt d l = some (j, c)) : ¬ IsDots c ↔ 2 ≤ l := by
  obtain ⟨h0, h1, h2⟩ := h d l j c ((entries_taken hd).trans he)
  refine ⟨fun hc => ?_, h2⟩
  by_contra hl
  obtain rfl | rfl : l = 0 ∨ l = 1 := by omega
  · exact hc (.inl (h0 rfl))
  · exact hc (.inr (h1 rfl))

theorem FS.Dotted.onlyEntry (h : σ.Dotted g) (hd : σ.Taken g d) (he : (σ.nodes g).entries d k = some (j, c)) (hc : IsDots c) :
    σ.OnlyEntry d c j := by
  have hat : ∀ {l i}, (σ.nodes g).entries d l = some (i, c) → l < 2 ∧ (l = 0 → c = [DOT]) ∧ (l = 1 → c = [DOT, DOT]) := by
    intro l i hl
    obtain ⟨h0, h1, h2⟩ := h d l i c hl
    exact ⟨by by_contra h2'; exact h2 (by omega) hc, h0, h1⟩
  refine ⟨k, (entries_taken hd).symm.trans he, fun l i hl => ?_⟩
  obtain ⟨hk, hk0, hk1⟩ := hat he
  obtain ⟨hl, hl0, hl1⟩ := hat ((entries_taken hd).trans hl)
  obtain rfl | rfl := hc
  · have hk' : k ≠ 1 := fun hk => absurd (hk1 hk) (by decide)
    have hl' : l ≠ 1 := fun hl => absurd (hl1 hl) (by decide)
    omega
  · have hk' : k ≠ 0 := fun hk => absurd (hk0 hk) (by decide)
    have hl' : l ≠ 0 := fun hl => absurd (hl0 hl) (by decide)
    omega

theorem FS.Planted.dirTree (ht : σ.Planted g) (hdotted : σ.Dotted g) : σ.DirTree g := by
  have hat : ∀ {q l i c}, σ.Taken g q → σ.entryAt q l = some (i, c) → (σ.nodes g).entries q l = some (i, c) := fun hq he =>
    (entries_taken hq).trans he
  refine ⟨ht.tree.root, fun d => ht.reached_iff, fun d hd hdir => ?_, ?_, fun d hd hdir hne => ?_, fun q l c hq he => ?_,
    fun d hd hdir => ?_⟩
  · obtain ⟨c, he⟩ := ht.tree.self d ⟨hd, hdir⟩
    obtain rfl := (hdotted d 0 d c he).1 rfl
    exact hdotted.onlyEntry hd he (.inl rfl)
  · obtain ⟨c, he⟩ := ht.tree.top
    obtain rfl := (hdotted _ 1 _ c he).2.1 rfl
    exact hdotted.onlyEntry ht.tree.root.1 he (.inr rfl)
  · obtain ⟨p, l, c, hl, he⟩ := ht.tree.hangs ⟨hd, hdir⟩ hne
    obtain ⟨_, b, hup⟩ := ht.tree.parent he hl ⟨hd, hdir⟩
    obtain rfl := (hdotted _ 1 _ b hup).2.1 rfl
    have hp := (entries_eq_some.mp he).1
    have hname := (entries_taken hp).symm.trans he
    refine ⟨p, l, ⟨hp, ⟨c, hname, (hdotted.past hp hname).mpr hl⟩, fun q m b hq hq' hb => ?_⟩, hdotted.onlyEntry hd hup (.inr rfl)⟩
    have hm := (hdotted.past hq hq').mp hb
    obtain ⟨_, b', hup'⟩ := ht.tree.parent (hat hq hq') hm ⟨hd, hdir⟩
    obtain rfl := (Prod.mk.inj (Option.some.inj (hup'.symm.trans hup))).1
    exact ⟨rfl, ht.tree.once (hat hq hq') he hm hl ⟨hd, hdir⟩⟩
  · by_contra hc
    exact (ht.tree.parent (hat hq he) ((hdotted.past hq he).mp hc) ht.tree.root).1 rfl
  · have hall : ∀ d, Tree.Below (σ.nodes g).entries ROOTINODE d → σ.Hangs d := fun d hr => by
      induction hr with
      | root => exact .root
      | next _ hl he ih =>
        have hp := (entries_eq_some.mp he).1
        have hname := (entries_taken hp).symm.trans he
        exact ih.next hname ((hdotted.past hp hname).mpr hl)
    exact hall d (ht.tree.below ⟨hd, hdir⟩)

/-! ## Directories that have room -/

section

variable {path old_name name p : CStr} {cur c : Int} (hcur : g.isInode cur)
include hcur

theorem create_meets (hsup : σ.superDir path cur = (d, name)) (hroom : σ.size d % 512 ≠ 0) (hstart : σ.Taken g (View.start path cur))
    (hfile : ¬ σ.isDir (σ.lookup d name)) : (Request.create (some path) cur).Safe g σ ∧ (Request.create (some path) cur).KeepsTree g σ := by
  refine ⟨⟨hcur, fun d' name' hsup' _ _ h512 => ?_⟩, hstart, fun d' name' hsup' _ _ => ?_⟩ <;>
    obtain ⟨rfl, rfl⟩ := Prod.mk.inj (hsup.symm.trans hsup')
  · exact absurd h512 hroom
  · exact hfile

theorem link_meets (hpath : adj_path_i path (adj_path_i old_name cur).2 = (p, c)) (hsup : σ.superDir p c = (d, name)) (hroom : σ.size d % 512 ≠ 0)
    (hstart : σ.Taken g (View.start old_name cur)) :
    (Request.link (some old_name) (some path) cur).Safe g σ ∧ (Request.link (some old_name) (some path) cur).KeepsTree g σ := by
  refine ⟨⟨hcur, fun d' name' hsup' _ _ h512 => ?_⟩, hstart⟩
  rw [hpath] at hsup'
  obtain ⟨rfl, rfl⟩ := Prod.mk.inj (hsup.symm.trans hsup')
  exact absurd h512 hroom

theorem unlink_meets (hsup : σ.superDir path cur = (d, name)) (hstart : σ.Taken g (View.start path cur)) (hfile : ¬ σ.isDir (σ.lookup d name)) :
    (Request.unlink (some path) cur).Safe g σ ∧ (Request.unlink (some path) cur).KeepsTree g σ := by
  refine ⟨hcur, hstart, fun d' name' hsup' _ _ => ?_⟩
  obtain ⟨rfl, rfl⟩ := Prod.mk.inj (hsup.symm.trans hsup')
  exact hfile

theorem mkdir_meets (hpath : from_root path cur = (p, c)) (hsup : σ.superDir p c = (d, name)) (hdir : σ.isDir d) (hroom : σ.size d % 512 ≠ 0)
    (hlen : name.length ≤ 30) (hblocks : 2 ≤ σ.b_head.length) (htable : ¬ g.isTable (σ.headDirBlock d name))
    (hstart : σ.Taken g (View.start path cur)) (hnext : σ.nextInode ≠ 0) (hstr : 0 ∉ path)
    (hends : (σ.block (σ.headDirBlock d name)).NamesEnd) :
    (Request.mkdir (some path) cur).Safe g σ ∧ (Request.mkdir (some path) cur).KeepsTree g σ ∧ (Request.mkdir (some path) cur).Plain σ := by
  have hat : ∀ {d' name'}, σ.superDir (from_root path cur).1 (from_root path cur).2 = (d', name') → d' = d ∧ name' = name := fun hsup' => by
    rw [hpath] at hsup'
    obtain ⟨rfl, rfl⟩ := Prod.mk.inj (hsup.symm.trans hsup')
    exact ⟨rfl, rfl⟩
  refine ⟨⟨hcur, fun d' name' hsup' _ => ?_, fun d' name' k τ hsup' hp _ => ?_⟩, ⟨hstart, fun _ _ _ _ => hnext⟩, hstr, fun d' name' hsup' _ => ?_⟩ <;>
    obtain ⟨rfl, rfl⟩ := hat hsup'
  · exact ⟨hdir, fun _ h512 => absurd h512 hroom⟩
  · refine ⟨hlen, fun hnil => ?_, hp.next ▸ htable⟩
    rcases hp.b_head with hb | hb <;> rw [hb] at hnil
    · rw [hnil] at hblocks
      cases hblocks
    · have := congrArg List.length hnil
      rw [List.length_tail, List.length_nil] at this
      omega
  · exact hends

end

/-! ## Runs from a new disk -/

end Yfs
