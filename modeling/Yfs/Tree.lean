import Yfs.Dangling
import Yfs.Lib.Tree
import Yfs.Unlink

/-! # The tree of directories

What the handlers do to the entries of the inodes in use, as steps on a tree.
-/

namespace Yfs

variable {g : Geometry} {σ σ₁ τ : FS} {sv sv₀ sv' : Server} {v w : View} {X : Set Int} {d e i j m cur ret : Int} {k l fuel : Nat}
  {bs c path name : CStr} {req : Request} {reqs : List Request}

/-! ## The tree of a state -/

instance : Decidable (σ.Taken g e) := inferInstanceAs (Decidable (_ ∧ _ ∧ _))

/-- What slot `l` of the directory `e` names, and the name. -/
def View.entryAt (v : View) (e : Int) (l : Nat) : Option (Int × CStr) :=
  if v.isDir e ∧ l < v.slots e ∧ v.slotInum e l ≠ 0 then some (v.slotInum e l, cname (v.slotName e l)) else none

/-- The inodes in use and their entries. -/
def FS.nodes (g : Geometry) (σ : FS) : Tree.Nodes Int CStr where
  entries e l := if σ.Taken g e then σ.entryAt e l else none
  used e := σ.Taken g e
  dir e := σ.Taken g e ∧ σ.isDir e
  file e := g.isInode e ∧ e ≠ 0 ∧ σ.type e = INODE_REGULAR
  links e := σ.nlink e

/-- The directories in use are a tree below the root. -/
structure FS.Planted (g : Geometry) (σ : FS) : Prop where
  nodup : σ.i_head.Nodup
  header : σ.size 0 = 0
  tree : Tree.Rooted (σ.nodes g) ROOTINODE

/-! ## Slots -/

theorem entryAt_eq_some : v.entryAt e l = some (j, c) ↔ v.Live e l j ∧ cname (v.slotName e l) = c := by
  unfold View.entryAt
  constructor
  · intro h
    split at h
    case isTrue hlive =>
      obtain ⟨rfl, rfl⟩ := Prod.mk.inj (Option.some.inj h)
      exact ⟨⟨hlive.1, hlive.2.1, rfl, hlive.2.2⟩, rfl⟩
    case isFalse => cases h
  · rintro ⟨h, rfl⟩
    have hne := h.ne_zero
    rw [← h.inum] at hne ⊢
    rw [if_pos ⟨h.dir, h.lt, hne⟩]

theorem entryAt_file (h : ¬ v.isDir e) : v.entryAt e l = none := if_neg fun hl => h hl.1

theorem entryAt_past (h : v.slots e ≤ l) : v.entryAt e l = none := if_neg fun hl => absurd hl.2.1 (Nat.not_lt.mpr h)

theorem entryAt_zero (h : v.slotInum e l = 0) : v.entryAt e l = none := if_neg fun hl => hl.2.2 h

theorem entryAt_congr (hdir : w.isDir e ↔ v.isDir e) (hlt : l < w.slots e ↔ l < v.slots e)
    (h : l < v.slots e → w.slotInum e l = v.slotInum e l ∧ w.slotName e l = v.slotName e l) : w.entryAt e l = v.entryAt e l := by
  by_cases hl : l < v.slots e
  · obtain ⟨hinum, hname⟩ := h hl
    simp only [View.entryAt, hdir, hlt, hinum, hname]
  · rw [entryAt_past (v := v) (Nat.not_lt.mp hl), entryAt_past (v := w) (Nat.not_lt.mp (mt hlt.mp hl))]

theorem View.Same.entryAt (h : v.Same w e) : w.entryAt e l = v.entryAt e l :=
  entryAt_congr h.isDir (by rw [h.slots]) fun hl => ⟨h.slotInum hl, h.slotName hl⟩

namespace SlotPut

variable (h : SlotPut g v w X d k i bs)
include h

theorem entryAt_other (hl : l ≠ k) : w.entryAt d l = v.entryAt d l := by
  have hs := h.slots
  have hle := h.le
  exact entryAt_congr (iff_of_true h.after h.before) (by omega) fun hlt => h.others l hlt hl

theorem entryAt_self (h0 : i ≠ 0) : w.entryAt d k = some (i, cname bs) :=
  entryAt_eq_some.mpr ⟨⟨h.after, h.lt, h.inum, h0⟩, by rw [h.name]⟩

end SlotPut

/-- The slot that `get_dir_entry` takes for a new entry. -/
theorem Placed.vacant (hp : Placed σ d name k τ) (h0 : τ.slotInum d k = 0) : σ.entryAt d k = none := by
  cases hp with
  | found => exact entryAt_zero h0
  | free => exact entryAt_zero h0
  | new => exact entryAt_past le_rfl

/-! ## Entries of inodes in use -/

theorem entries_eq_some : (σ.nodes g).entries e l = some (j, c) ↔ σ.Taken g e ∧ σ.Live e l j ∧ cname (σ.slotName e l) = c := by
  show (if σ.Taken g e then σ.entryAt e l else none) = _ ↔ _
  rw [← entryAt_eq_some]
  by_cases h : σ.Taken g e <;> simp [h]

theorem entries_taken (h : σ.Taken g e) : (σ.nodes g).entries e l = σ.entryAt e l := if_pos h

theorem entries_free (h : ¬ σ.Taken g e) : (σ.nodes g).entries e l = none := if_neg h

/-- Entries of inodes that the step takes or frees apart. -/
theorem entries_congr (hused : τ.Taken g e ↔ σ.Taken g e) (h : σ.Taken g e → τ.entryAt e l = σ.entryAt e l) :
    (τ.nodes g).entries e l = (σ.nodes g).entries e l := by
  by_cases ht : σ.Taken g e
  · rw [entries_taken ht, entries_taken (hused.mpr ht), h ht]
  · rw [entries_free ht, entries_free (mt hused.mp ht)]

theorem taken_root (h : σ.Planted g) : σ.Taken g ROOTINODE := h.tree.root.1

theorem FS.Planted.target (h : σ.Planted g) (he : σ.Taken g e) (hl : σ.Live e l j) : σ.Taken g j :=
  h.tree.target (entries_eq_some.mpr ⟨he, hl, rfl⟩)

/-- A file has not more names than there are slots. -/
theorem finite_into : (Tree.into (σ.nodes g).entries j).Finite := by
  have hslots : (⋃ e ∈ Set.Ico 0 g.inodes, Prod.mk e '' Set.Iio (σ.slots e)).Finite :=
    (Set.finite_Ico 0 g.inodes).biUnion fun e _ => (Set.finite_lt_nat (σ.slots e)).image _
  refine hslots.subset ?_
  rintro ⟨e, l⟩ ⟨c, he⟩
  obtain ⟨htaken, hl, _⟩ := entries_eq_some.mp he
  exact Set.mem_biUnion (show e ∈ Set.Ico 0 g.inodes from htaken.1) ⟨l, hl.lt, rfl⟩

/-! ## Inodes in use after a step -/

theorem taken_same (h : τ.i_head = σ.i_head) : τ.Taken g e ↔ σ.Taken g e := by rw [FS.Taken, FS.Taken, h]

/-- One that was free is taken. -/
theorem taken_tail (hnodup : σ.i_head.Nodup) (hi : g.isInode σ.nextInode) (h0 : σ.nextInode ≠ 0) (h : τ.i_head = σ.i_head.tail) :
    τ.Taken g e ↔ σ.Taken g e ∨ e = σ.nextInode := by
  rw [FS.Taken, FS.Taken, h]
  unfold FS.nextInode at *
  cases hl : σ.i_head with
  | nil =>
    rw [hl] at h0
    exact absurd rfl h0
  | cons a rest =>
    rw [hl] at hnodup hi h0
    obtain ⟨ha, _⟩ := List.nodup_cons.mp hnodup
    simp only [List.tail_cons, List.headD_cons, List.mem_cons, not_or] at hi h0 ⊢
    constructor
    · rintro ⟨he, hrest, hne⟩
      by_cases hea : e = a
      · exact .inr hea
      · exact .inl ⟨he, ⟨hea, hrest⟩, hne⟩
    · rintro (⟨he, ⟨_, hrest⟩, hne⟩ | rfl)
      · exact ⟨he, hrest, hne⟩
      · exact ⟨hi, ha, h0⟩

/-- None was free: inode 0 is taken for one. -/
theorem taken_tail_zero (h0 : σ.nextInode = 0) (h : τ.i_head = σ.i_head.tail) : τ.Taken g e ↔ σ.Taken g e := by
  rw [FS.Taken, FS.Taken, h]
  unfold FS.nextInode at h0
  cases hl : σ.i_head with
  | nil => rfl
  | cons a rest =>
    rw [hl] at h0
    obtain rfl : a = 0 := h0
    rw [List.tail_cons, List.mem_cons, not_or]
    tauto

/-- One is freed. -/
theorem taken_cons (h : τ.i_head = i :: σ.i_head) : τ.Taken g e ↔ σ.Taken g e ∧ e ≠ i := by
  rw [FS.Taken, FS.Taken, h, List.mem_cons, not_or]
  tauto

/-! ## One slot -/

section

variable (h : SlotPut g σ.toView τ.toView X d k i bs)
  (hX : ∀ e ∈ X, ∀ l, (τ.nodes g).entries e l = none ∧ (σ.nodes g).entries e l = none) (hused : ∀ e, e ∉ X → (τ.Taken g e ↔ σ.Taken g e))
include h hX hused

theorem SlotPut.entries_other (hne : ¬ (e = d ∧ l = k)) : (τ.nodes g).entries e l = (σ.nodes g).entries e l := by
  by_cases heX : e ∈ X
  · rw [(hX e heX l).1, (hX e heX l).2]
  · refine entries_congr (hused e heX) fun he => ?_
    by_cases hed : e = d
    · subst hed
      exact h.entryAt_other fun hlk => hne ⟨rfl, hlk⟩
    · exact (h.same e he.1 hed heX).entryAt

/-- A new entry. -/
theorem SlotPut.put (hd : τ.Taken g d) (hfree : σ.entryAt d k = none) (h0 : i ≠ 0) :
    Tree.Put (σ.nodes g).entries (τ.nodes g).entries d k i (cname bs) := by
  refine ⟨?_, (entries_taken hd).trans (h.entryAt_self h0), fun e l hne => h.entries_other hX hused hne⟩
  by_cases hold : σ.Taken g d
  · exact (entries_taken hold).trans hfree
  · exact entries_free hold

end

/-- A cleared slot. -/
theorem SlotPut.cleared (h : SlotPut g v τ.toView X d k 0 bs) : (τ.nodes g).entries d k = none := by
  by_cases hd : τ.Taken g d
  · exact (entries_taken hd).trans (entryAt_zero h.inum)
  · exact entries_free hd

/-- Files are as they were where types and link counts are. -/
theorem Edits.file {T : Int → Field → Prop} (h : Edits T σ τ) (htype : ¬ T e .type) (hlinks : ¬ T e .nlink) (hfile : (τ.nodes g).file e) :
    (σ.nodes g).file e ∧ (τ.nodes g).links e = (σ.nodes g).links e :=
  ⟨⟨hfile.1, hfile.2.1, (h e .type htype).symm.trans hfile.2.2⟩, h e .nlink hlinks⟩

/-- Directories in use are as they were. -/
theorem dir_same (hused : τ.Taken g e ↔ σ.Taken g e) (htype : σ.Taken g e → τ.type e = σ.type e) : (τ.nodes g).dir e ↔ (σ.nodes g).dir e := by
  show τ.Taken g e ∧ τ.isDir e ↔ σ.Taken g e ∧ σ.isDir e
  rw [hused]
  refine and_congr_right fun he => ?_
  rw [View.isDir, View.isDir, htype he]

/-! ## Walks -/

section

variable (h : σ.Planted g)
include h

theorem FS.Planted.slots_zero : σ.slots 0 = 0 := by
  rw [View.slots, h.header]
  rfl

theorem FS.Planted.start (hcur : σ.Taken g cur) : σ.Taken g (View.start path cur) := by
  unfold View.start
  split
  · exact taken_root h
  · exact hcur

theorem FS.Planted.next (he : σ.Taken g e ∨ e = 0) (hdir : σ.isDir e) (hne : σ.lookup e path ≠ 0) : σ.Taken g (σ.lookup e path) := by
  cases hk : σ.findSlot e path with
  | none => exact absurd (lookup_none hk) hne
  | some k =>
    have hlt := findSlot_lt hk
    rcases he with he | rfl
    · exact h.target he ⟨hdir, hlt, (lookup_some hk).symm, hne⟩
    · rw [h.slots_zero] at hlt
      exact absurd hlt (Nat.not_lt_zero k)

/-- Walks from inodes in use stay there. -/
theorem FS.Planted.walk (he : σ.Taken g e) (h0 : σ.walk fuel path e ≠ 0) : σ.Taken g (σ.walk fuel path e) :=
  walk_mem (Q := fun e => σ.Taken g e ∨ e = 0) (fun _ _ => h.next) (fun _ => .inl) (.inr rfl) (.inl he) h0

theorem FS.Planted.superDir (hstart : σ.Taken g (View.start path cur)) (hsup : σ.superDir path cur = (d, name)) (hne : d ≠ ERROR) :
    σ.Taken g d :=
  superDir_mem (Q := fun e => σ.Taken g e ∨ e = 0) (fun _ _ => h.next) (fun _ => .inl) (.inr rfl) (from_root_start ▸ hstart) hsup hne

/-- Also once a directory is emptied. -/
theorem FS.Planted.superDir_drop (hw : WellFormed g σ) (hi : σ.Taken g i) (hstart : σ.Taken g (View.start path cur))
    (hsup : (σ.dropDir i).superDir path cur = (d, name)) (hne : d ≠ ERROR) : σ.Taken g d := by
  refine superDir_mem (Q := fun e => σ.Taken g e ∨ e = 0) (fun e p he hdir h0 => ?_) (fun _ => .inl) (.inr rfl) (from_root_start ▸ hstart) hsup hne
  have hei : e ≠ i := by
    rintro rfl
    refine h0 (lookup_none ?_)
    rw [View.findSlot, dropDir_slots hw hi.1]
    rfl
  have he' : g.isInode e := he.elim And.left fun hz => hz ▸ g.isInode_zero
  have hsame := dropDir_same hw hi.1 he' hei
  have hlook : (σ.dropDir i).lookup e p = σ.lookup e p := hsame.lookup
  rw [hlook] at h0 ⊢
  exact h.next he (hsame.isDir.mp hdir) h0

end

/-! ## Requests -/

/-- The condition on a request and the state before it: paths start at inodes in use, `create` and `unlink` find no directory, `mkdir`
finds a free inode, and `rmdir` takes a directory but the root, by the name in its parent. -/
def Request.KeepsTree (g : Geometry) (σ : FS) : Request → Prop
  | .create (some path) cur => σ.Taken g (View.start path cur) ∧
    ∀ d name, σ.superDir path cur = (d, name) → σ.isDir d → σ.lookup d name ≠ 0 → ¬ σ.isDir (σ.lookup d name)
  | .write i _ _ _ => i ≠ 0
  | .link (some old_name) (some _) cur => σ.Taken g (View.start old_name cur)
  | .unlink (some path) cur => σ.Taken g (View.start path cur) ∧
    ∀ d name, σ.superDir path cur = (d, name) → σ.isDir d → σ.lookup d name ≠ 0 → ¬ σ.isDir (σ.lookup d name)
  | .mkdir (some path) cur => σ.Taken g (View.start path cur) ∧ ∀ d name,
    σ.superDir (from_root path cur).1 (from_root path cur).2 = (d, name) → σ.lookup d name = 0 → σ.nextInode ≠ 0
  | .rmdir (some path) cur => σ.Taken g (View.start path cur) ∧ ∀ i, σ.resolve (from_root path cur).1 (from_root path cur).2 = i →
    σ.size i ≤ 64 → σ.Taken g i ∧ σ.isDir i ∧ i ≠ ROOTINODE ∧
      ∀ d name, (σ.dropDir i).superDir (from_root path cur).1 (from_root path cur).2 = (d, name) → d ≠ ERROR →
        d ≠ i ∧ σ.lookup d name = i
  | _ => True

/-- What `rmdir` frees. -/
theorem Request.KeepsTree.frees (h : req.KeepsTree g σ) (hf : req.Frees σ i) : σ.Taken g i ∧ i ≠ ROOTINODE := by
  cases req with
  | rmdir path cur =>
    cases path with
    | none => exact hf.elim
    | some path =>
      obtain ⟨hused, _, hroot, _⟩ := h.2 i hf.2.1 hf.2.2
      exact ⟨hused, hroot⟩
  | _ => exact hf.elim

/-- The link counter of the file that `link` names can be incremented. -/
def Request.LinksFit (σ : FS) : Request → Prop
  | .link (some old_name) (some _) cur => σ.nlink (σ.resolve (adj_path_i old_name cur).1 (adj_path_i old_name cur).2) + 1 < 2 ^ 15
  | _ => True

/-- Names are strings, and the names of a new directory's own entries end. -/
def Request.Plain (σ : FS) : Request → Prop
  | .create (some path) _ => 0 ∉ path
  | .link _ (some new_name) _ => 0 ∉ new_name
  | .mkdir (some path) cur => 0 ∉ path ∧ ∀ d name, σ.superDir (from_root path cur).1 (from_root path cur).2 = (d, name) →
    σ.lookup d name = 0 → (σ.block (σ.headDirBlock d name)).NamesEnd
  | _ => True

/-- Slots 0 and 1 of the directories in use are `.` and `..`, and no others are. -/
def FS.Dotted (g : Geometry) (σ : FS) : Prop :=
  Tree.Signed (σ.nodes g).entries (fun c => c = [DOT]) (fun c => c = [DOT, DOT]) fun c => ¬ IsDots c

/-- A step on the tree, with names in order provided `p`. -/
def TreeStep (g : Geometry) (fits p : Prop) (σ τ : FS) : Prop :=
  Tree.Step fits (fun c => p → c = [DOT]) (fun c => p → c = [DOT, DOT]) (fun c => p → ¬ IsDots c) ROOTINODE (σ.nodes g) (τ.nodes g)

/-- A name that is not there is not `.` or `..`. -/
theorem FS.Dotted.new_name (h : σ.Dotted g) (ht : σ.Planted g) (hd : (σ.nodes g).dir d) (h0 : σ.lookup d name = 0) (hslash : SLASH ∉ name)
    (hstr : 0 ∉ name) : ¬ IsDots (cname (strncpy DIRNAMELEN name)) := by
  obtain ⟨c, hself⟩ := ht.tree.self d hd
  obtain ⟨p, b, hup⟩ := ht.tree.up hd
  obtain rfl := (h d 0 d c hself).1 rfl
  obtain rfl := (h d 1 p b hup).2.1 rfl
  obtain ⟨_, hlive₀, hname₀⟩ := entries_eq_some.mp hself
  obtain ⟨_, hlive₁, hname₁⟩ := entries_eq_some.mp hup
  rw [cname_strncpy hstr]
  rintro (hdot | hdots)
  · refine hlive₀.ne_zero (hlive₀.inum.symm.trans ?_)
    rw [← lookup_some (findSlot_first hslash hstr hlive₀.lt (hname₀.trans hdot.symm) fun l hl => absurd hl (Nat.not_lt_zero l)), h0]
  · refine hlive₁.ne_zero (hlive₁.inum.symm.trans ?_)
    rw [← lookup_some (findSlot_first hslash hstr hlive₁.lt (hname₁.trans hdots.symm) fun l hl => ?_), h0]
    obtain rfl : l = 0 := by omega
    rw [hname₀, hdots]
    decide

/-! ## Steps -/

section

variable {fits p : Prop} (ht : σ.Planted g) (hw : WellFormed g σ) (hshort : 8 * g.table ≤ 2 ^ 15)

/-- No entry comes or goes. -/
theorem treeStep_same {T : Int → Field → Prop} (hedits : Edits T σ τ) (hT : ∀ e f, T e f → f ≠ .type ∧ f ≠ .nlink ∨ e = 0)
    (hused : ∀ e, τ.Taken g e ↔ σ.Taken g e) (hentries : ∀ e l, σ.Taken g e → τ.entryAt e l = σ.entryAt e l) : TreeStep g fits p σ τ := by
  have htype : ∀ e, e ≠ 0 → ¬ T e .type := fun e h0 hT' => (hT e _ hT').elim (fun hne => hne.1 rfl) h0
  have hlinks : ∀ e, e ≠ 0 → ¬ T e .nlink := fun e h0 hT' => (hT e _ hT').elim (fun hne => hne.2 rfl) h0
  refine .same (funext fun e => funext fun l => entries_congr (hused e) (hentries e l)) hused (fun e => ?_)
    fun e hfile => hedits.file (htype e hfile.2.1) (hlinks e hfile.2.1) hfile
  exact dir_same (hused e) fun he => hedits e .type (htype e he.2.2)

include ht hw hshort

theorem CreatedIn.treeStep (h : CreatedIn σ d name (-1) ret τ) (hd : σ.Taken g d) (hdir : σ.isDir d) (hroom : σ.RoomFor g d name)
    (hleaf : σ.lookup d name ≠ 0 → ¬ σ.isDir (σ.lookup d name))
    (hname : σ.lookup d name = 0 → p → ¬ IsDots (cname (strncpy DIRNAMELEN name))) : TreeStep g fits p σ τ := by
  cases h with
  | taken _ _ hn => exact absurd rfl hn
  | linked _ _ hn => exact absurd rfl hn
  | @truncated k hk hlive _ =>
    rw [lookup_some hk] at hleaf
    have hi := hw.entries d k hd.1 hdir (findSlot_lt hk)
    have hfile := hleaf hlive
    have hedits := truncate_edits (σ := σ) (i := σ.slotInum d k)
    refine treeStep_same hedits (fun e f hf => .inl ?_) (fun _ => Iff.rfl) fun e l he => ?_
    · rw [hf.2]
      decide
    · by_cases hei : e = σ.slotInum d k
      · have hfile' : ¬ (σ.truncate (σ.slotInum d k)).isDir e := by
          rw [View.isDir, View.type, Inode.type, hedits e .type (by simp), hei]
          exact hfile
        exact (entryAt_file hfile').trans (entryAt_file (hei ▸ hfile)).symm
      · exact ((truncate_emptied hw hi).same hw he.1 hei).entryAt
  | @made k σ₁ hp h0 _ =>
    have hat := hp.slotAt hw hd.1 hdir hroom
    have hnext := hp.nextInode
    have hdne : d ≠ σ.nextInode := hd.ne_next
    have hput := (hp.put (X := {σ.nextInode}) hw hd.1 hdir hroom).trans (hnext ▸ hat.newFile_put (c := name) hshort (hnext ▸ hdne.symm))
    have hfree := hp.vacant h0
    have hhead : (σ₁.newFile d k name).i_head = σ.i_head.tail := by rw [newFile_i_head, hp.i_head]
    obtain ⟨htype, _, hlinks⟩ := newFile_fields (σ := σ₁) (d := d) (k := k) (c := name)
    rw [hnext] at htype hlinks
    have hedits : Edits (fun e f => e = σ.nextInode ∨ f.grows = true) σ (σ₁.newFile d k name) :=
      (hp.edits.mono fun _ _ hf => .inr hf.2).trans (newFile_edits.mono fun _ _ hf => .inl (hf.trans hnext))
    have hgrows : ∀ f : Field, f.grows = true → f ≠ .type ∧ f ≠ .nlink := by
      rintro f hf
      constructor <;> rintro rfl <;> cases hf
    by_cases hzero : σ.nextInode = 0
    · refine treeStep_same hedits (fun e f hf => ?_) (fun _ => taken_tail_zero hzero hhead) fun e l he => ?_
      · rcases hf with he | hf
        · exact .inr (he.trans hzero)
        · exact .inl (hgrows f hf)
      · by_cases hed : e = d
        · subst hed
          by_cases hlk : l = k
          · subst hlk
            rw [hfree, entryAt_zero (hput.inum.trans hzero)]
          · exact hput.entryAt_other hlk
        · exact (hput.same e he.1 hed (by simpa [hzero] using he.2.2)).entryAt
    · have hused : ∀ e, (σ₁.newFile d k name).Taken g e ↔ σ.Taken g e ∨ e = σ.nextInode :=
        fun _ => taken_tail ht.nodup hw.nextInode hzero hhead
      have hunused : ¬ σ.Taken g σ.nextInode := fun h => h.ne_next rfl
      have hX : ∀ e ∈ ({σ.nextInode} : Set Int), ∀ l, ((σ₁.newFile d k name).nodes g).entries e l = none ∧ (σ.nodes g).entries e l = none := by
        rintro e rfl l
        refine ⟨?_, entries_free hunused⟩
        rw [entries_taken ((hused _).mpr (.inr rfl))]
        refine entryAt_file ?_
        rw [View.isDir, htype]
        decide
      have hput' := hput.put hX (fun e he => (hused e).trans (or_iff_left (by simpa using he))) ((hused d).mpr (.inl hd)) hfree hzero
      refine .create hput' (hname (hp.lookup_zero h0)) ⟨hd, hdir⟩ hunused hused (fun e => ?_) hlinks fun e hfile hne => ?_
      · show _ ∧ (σ₁.newFile d k name).isDir e ↔ _ ∧ σ.isDir e
        rw [hused]
        by_cases hei : e = σ.nextInode
        · subst hei
          refine iff_of_false ?_ fun h => hunused h.1
          rintro ⟨_, hdir'⟩
          exact absurd (htype.symm.trans hdir') (by decide)
        · rw [or_iff_left hei, View.isDir, View.type, Inode.type, hedits e .type (by simp [hei, Field.grows])]
          rfl
      · exact hedits.file (by simp [hne, Field.grows]) (by simp [hne, Field.grows]) hfile

omit ht in
/-- `handle_link` once it has found the slot. -/
theorem Placed.linkStep (hp : Placed σ d name k σ₁) (h0 : σ₁.slotInum d k = 0) (hd : σ.Taken g d) (hdir : σ.isDir d) (hroom : σ.RoomFor g d name)
    (hi : σ.Taken g i) (hfile : ¬ σ.isDir i) (hname : p → ¬ IsDots (cname (strncpy DIRNAMELEN name))) :
    TreeStep g (σ.nlink i + 1 < 2 ^ 15) p σ (((σ₁.newLink d k name i).addLinks i 1).markInode i) := by
  have hat := hp.slotAt hw hd.1 hdir hroom
  have hlinked := (hp.put (X := ∅) hw hd.1 hdir hroom).trans (hat.newLink_put (c := name) (wrap_inode hshort hi.1))
  have hput : SlotPut g σ.toView (((σ₁.newLink d k name i).addLinks i 1).markInode i).toView ∅ d k i (strncpy DIRNAMELEN name) :=
    hlinked.then_same addLinks_same fun _ _ _ _ => addLinks_same
  have hused : ∀ e, (((σ₁.newLink d k name i).addLinks i 1).markInode i).Taken g e ↔ σ.Taken g e := fun e => taken_same hp.i_head
  have hgrown : Edits (fun _ f => f.grows = true) σ (σ₁.newLink d k name i) := hp.edits.mono fun _ _ hf => hf.2
  have hedits : Edits (fun e f => e = i ∧ f = .nlink ∨ f.grows = true) σ (((σ₁.newLink d k name i).addLinks i 1).markInode i) :=
    (hgrown.mono fun _ _ hf => .inr hf).trans (addLinks_edits.mono fun _ _ hf => .inl hf)
  have hput' := hput.put (fun _ he => absurd he (Set.notMem_empty _)) (fun e _ => hused e) ((hused d).mpr hd) (hp.vacant h0) hi.2.2
  refine .link hput' hname ⟨hd, hdir⟩ hi (fun h => hfile h.2) hused (fun e => ?_) (fun hfits => ?_) fun e he => ?_
  · exact dir_same (hused e) fun _ => hedits e .type (by simp [Field.grows])
  · show ((σ₁.newLink d k name i).addLinks i 1).nlink i = σ.nlink i + 1
    have hlinks : (σ₁.newLink d k name i).nlink i = σ.nlink i := hgrown i .nlink (by simp [Field.grows])
    have hrange : -2 ^ 15 ≤ σ.nlink i := nlink_range.1
    rw [addLinks_nlink, hlinks]
    exact Mem.wrap_short _ (by omega) hfits
  · have hold : (σ.nodes g).file e := ⟨he.1, he.2.1, (hedits e .type (by simp [Field.grows])).symm.trans he.2.2⟩
    exact ⟨hold, fun hne => hedits e .nlink (by simp [hne, Field.grows])⟩

omit hshort in
/-- The live entry that `handle_unlink` removes. -/
theorem removeEntry_take (hd : σ.Taken g d) (hl : σ.Live d k i) (hfile : ¬ σ.isDir i) :
    Tree.Take (σ.nodes g).entries ((σ.removeEntry d k).nodes g).entries d k i (cname (σ.slotName d k)) := by
  obtain ⟨hdir, hlt, rfl, h0⟩ := hl
  have hat : SlotAt g σ d k (σ.slotBlock d k) := ⟨hw, hd.1, hdir, hlt, rfl⟩
  have hput := hat.removeEntry_put fun he => hfile (he.symm ▸ hdir)
  have hused : ∀ e, (σ.removeEntry d k).Taken g e ↔ σ.Taken g e := fun e => taken_same removeEntry_i_head
  have hi : σ.Taken g (σ.slotInum d k) := ht.target hd ⟨hdir, hlt, rfl, h0⟩
  refine ⟨entries_eq_some.mpr ⟨hd, ⟨hdir, hlt, rfl, h0⟩, rfl⟩, hput.cleared, fun e l hne => hput.entries_other ?_ (fun e _ => hused e) hne⟩
  rintro e ⟨rfl, _⟩ l
  have htype : (σ.removeEntry d k).type (σ.slotInum d k) = σ.type (σ.slotInum d k) := removeEntry_edits _ .type (by simp)
  rw [entries_taken hi, entries_taken ((hused _).mpr hi)]
  exact ⟨entryAt_file fun hdir' => hfile (htype.symm.trans hdir'), entryAt_file hfile⟩

omit hshort in
/-- `handle_unlink` once it has found the entry. -/
theorem unlinkStep {fits : Prop} (hk : σ.findSlot d name = some k) (hd : σ.Taken g d) (hdir : σ.isDir d)
    (hleaf : σ.lookup d name ≠ 0 → ¬ σ.isDir (σ.lookup d name)) : TreeStep g fits p σ (σ.removeEntry d k) := by
  have hat : SlotAt g σ d k (σ.slotBlock d k) := ⟨hw, hd.1, hdir, findSlot_lt hk, rfl⟩
  have hedits := removeEntry_edits (σ := σ) (d := d) (k := k)
  have hused : ∀ e, (σ.removeEntry d k).Taken g e ↔ σ.Taken g e := fun e => taken_same removeEntry_i_head
  rw [lookup_some hk] at hleaf
  by_cases hzero : σ.slotInum d k = 0
  · have hput := hat.removeEntry_put fun he => hd.2.2 (he.symm.trans hzero)
    refine treeStep_same hedits (fun e f hf => .inr (hf.1.trans hzero)) hused fun e l he => ?_
    by_cases hed : e = d
    · subst hed
      by_cases hlk : l = k
      · subst hlk
        rw [entryAt_zero hput.inum, entryAt_zero hzero]
      · exact hput.entryAt_other hlk
    · exact (hput.same e he.1 hed fun hX => he.2.2 (hX.1.trans hzero)).entryAt
  · have hfile := hleaf hzero
    have htype : ∀ e, (σ.removeEntry d k).type e = σ.type e := fun e => hedits e .type (by simp)
    refine .unlink (removeEntry_take ht hw hd ⟨hdir, findSlot_lt hk, rfl, hzero⟩ hfile) (fun h => hfile h.2) hused
      (fun e => dir_same (hused e) fun _ => htype e) (fun hpos => ?_) fun e he => ?_
    · show (σ.removeEntry d k).nlink (σ.slotInum d k) = σ.nlink (σ.slotInum d k) - 1
      have hpos' : 0 < σ.nlink (σ.slotInum d k) := hpos
      have hrange : σ.nlink (σ.slotInum d k) < 2 ^ 15 := nlink_range.2
      rw [removeEntry_nlink, addLinks_nlink]
      exact Mem.wrap_short _ (by omega) (by omega)
    · exact ⟨⟨he.1, he.2.1, (htype e).symm.trans he.2.2⟩, fun hne => hedits e .nlink (by simp [hne])⟩

/-- `handle_mkdir` once it has found the slot. -/
theorem Placed.mkdirStep {fits : Prop} (hp : Placed σ d name k σ₁) (h0 : σ₁.slotInum d k = 0) (hd : σ.Taken g d) (hdir : σ.isDir d)
    (hroom : σ.RoomFor g d name) (hlen : name.length ≤ DIRNAMELEN) (hblock : σ₁.b_head ≠ []) (hdata : ¬ g.isTable σ₁.next)
    (hinode : σ.nextInode ≠ 0) (hname : p → ¬ IsDots (cname (strncpy DIRNAMELEN name)))
    (hends : p → (σ.block (σ.headDirBlock d name)).NamesEnd) : TreeStep g fits p σ (σ₁.newDir d k name) := by
  have hat := hp.slotAt hw hd.1 hdir hroom
  have hnext := hp.nextInode
  have hdne : d ≠ σ.nextInode := hd.ne_next
  have hput := (hp.put (X := {σ.nextInode}) hw hd.1 hdir hroom).trans
    (hnext ▸ hat.newDir_put hshort (hnext ▸ hdne.symm) hlen hblock hdata)
  have hhead : (σ₁.newDir d k name).i_head = σ.i_head.tail := by rw [newDir_i_head, hp.i_head]
  obtain ⟨hisdir, hslots, ⟨hself, hdot⟩, hup, hdots⟩ := newDir_head hp hw hd.1 hdir hroom hlen hshort hblock hdata
  have hedits : Edits (fun e f => e = σ.nextInode ∨ f.grows = true) σ (σ₁.newDir d k name) :=
    (hp.edits.mono fun _ _ hf => .inr hf.2).trans (newDir_edits.mono fun _ _ hf => .inl (hf.trans hnext))
  have hused : ∀ e, (σ₁.newDir d k name).Taken g e ↔ σ.Taken g e ∨ e = σ.nextInode := fun _ => taken_tail ht.nodup hw.nextInode hinode hhead
  have hunused : ¬ σ.Taken g σ.nextInode := fun h => h.ne_next rfl
  have hnew : (σ₁.newDir d k name).Taken g σ.nextInode := (hused _).mpr (.inr rfl)
  have hd' : (σ₁.newDir d k name).Taken g d := (hused d).mpr (.inl hd)
  refine .mkdir ⟨(entries_taken hd).trans (hp.vacant h0), (entries_taken hd').trans (hput.entryAt_self hinode), ⟨_, entries_eq_some.mpr ⟨hnew,
    ⟨hisdir, by rw [hslots]; decide, hself, hinode⟩, rfl⟩, fun hp => ?_⟩, ⟨_, entries_eq_some.mpr ⟨hnew, ⟨hisdir, by rw [hslots]; decide, hup,
    hd.2.2⟩, rfl⟩, fun hp => ?_⟩, fun l hl => (entries_taken hnew).trans (entryAt_past (hslots ▸ hl)), fun e l hem hne => ?_⟩ hname ⟨hd, hdir⟩
    hunused hused (fun e => ?_) fun e he => ?_
  · rw [hdot, cname_cons (by decide), (cname_load _).mpr (hends hp).1]
  · rw [hdots, cname_cons (by decide), cname_cons (by decide), (cname_load _).mpr (hends hp).2]
  · refine entries_congr ((hused e).trans (or_iff_left hem)) fun he => ?_
    by_cases hed : e = d
    · subst hed
      exact hput.entryAt_other fun hlk => hne ⟨rfl, hlk⟩
    · exact (hput.same e he.1 hed hem).entryAt
  · show _ ∧ (σ₁.newDir d k name).isDir e ↔ _ ∧ σ.isDir e ∨ _
    rw [hused]
    by_cases hei : e = σ.nextInode
    · subst hei
      exact iff_of_true ⟨.inr rfl, hisdir⟩ (.inr rfl)
    · rw [or_iff_left hei, or_iff_left hei, View.isDir, View.type, Inode.type, hedits e .type (by simp [hei, Field.grows])]
      rfl
  · have hfile : ¬ (σ₁.newDir d k name).isDir e := by
      rw [View.isDir, he.2.2]
      decide
    have hei : e ≠ σ.nextInode := by
      rintro rfl
      exact hfile hisdir
    exact ⟨fun h => hfile h.2, hedits.file (by simp [hei, Field.grows]) (by simp [hei, Field.grows]) he⟩

omit ht hshort in
/-- `handle_rmdir` once it has found the entry. -/
theorem Placed.rmdirStep {fits : Prop} (hp : Placed (σ.dropDir i) d name k σ₁) (hi : σ.Taken g i) (hisdir : σ.isDir i) (hroot : i ≠ ROOTINODE)
    (hsize : σ.size i ≤ 64) (hd : σ.Taken g d) (hdir : (σ.dropDir i).isDir d) (hroom : (σ.dropDir i).RoomFor g d name) (hne : d ≠ i)
    (hlook : σ.lookup d name = i) : TreeStep g fits p σ (σ₁.clearEntry d k) := by
  have hw₁ := dropDir_wellFormed hw hi.1
  have hsame : ∀ e, g.isInode e → e ≠ i → σ.Same (σ.dropDir i).toView e := fun e he hei => dropDir_same hw hi.1 he hei
  have hat := hp.slotAt hw₁ hd.1 hdir hroom
  have hput := (hp.put (X := ∅) hw₁ hd.1 hdir hroom).trans (hat.clearEntry_put (X := ∅))
  obtain ⟨l, hl⟩ : ∃ l, σ.findSlot d name = some l := by
    cases hl : σ.findSlot d name with
    | none => exact absurd ((lookup_none hl).symm.trans hlook) (Ne.symm hi.2.2)
    | some l => exact ⟨l, rfl⟩
  obtain rfl : k = l := hp.eq_of_find ((hsame d hd.1 hne).findSlot.trans hl)
  have hinum : σ.slotInum d k = i := (lookup_some hl).symm.trans hlook
  have hhead : (σ₁.clearEntry d k).i_head = i :: σ.i_head := hp.i_head
  have hused : ∀ e, (σ₁.clearEntry d k).Taken g e ↔ σ.Taken g e ∧ e ≠ i := fun _ => taken_cons hhead
  have hedits : Edits (fun _ f => f = .size ∨ f.grows = true) σ (σ₁.clearEntry d k) :=
    (dropDir_edits.mono fun _ _ hf => .inl hf.2).trans (hp.edits.mono fun _ _ hf => .inr hf.2)
  have htype : ∀ e, (σ₁.clearEntry d k).type e = σ.type e := fun e => hedits e .type (by simp [Field.grows])
  refine .rmdir ⟨⟨_, entries_eq_some.mpr ⟨hd, ⟨(hsame d hd.1 hne).isDir.mp hdir, findSlot_lt hl, hinum, hi.2.2⟩, rfl⟩⟩, fun m hm => ?_, hput.cleared,
    fun m => entries_free fun h => ((hused i).mp h).2 rfl, fun e m hei hem => ?_⟩ hne ⟨hi, hisdir⟩ hroot hused (fun e => ?_) fun e he => ?_
  · refine (entries_taken hi).trans (entryAt_past ?_)
    rw [View.slots]
    omega
  · refine entries_congr ((hused e).trans (and_iff_left hei)) fun he => ?_
    refine Eq.trans ?_ (hsame e he.1 hei).entryAt
    by_cases hed : e = d
    · subst hed
      exact hput.entryAt_other fun hmk => hem ⟨rfl, hmk⟩
    · exact (hput.same e he.1 hed (Set.notMem_empty e)).entryAt
  · show _ ∧ (σ₁.clearEntry d k).isDir e ↔ (_ ∧ σ.isDir e) ∧ _
    rw [hused, View.isDir, View.isDir, htype]
    tauto
  · have hold := hedits.file (by simp [Field.grows]) (by simp [Field.grows]) he
    refine ⟨fun h => ?_, hold⟩
    have hreg : σ.type e = INODE_REGULAR := hold.1.2.2
    exact absurd (hreg.symm.trans h.2) (by decide)

omit ht hshort in
/-- `handle_write` to a file. -/
theorem Written.treeStep {fits : Prop} {buf : UserBuf} {size byte_offset : Int} (h : Written σ i buf size byte_offset ret τ)
    (hok : σ.WriteOk g i buf size byte_offset) : TreeStep g fits p σ τ := by
  have hkept := h.kept hw hok
  refine treeStep_same h.edits (fun e f hf => .inl ?_) (fun _ => taken_same hkept.i_head) fun e l he => ?_
  · constructor <;> rintro rfl <;> cases hf.2
  · by_cases hei : e = i
    · subst hei
      have hfile : ¬ τ.isDir e := by
        rw [View.isDir, hkept.type]
        exact hok.file
      rw [entryAt_file hfile, entryAt_file hok.file]
    · exact (hkept.same e he.1 hei).entryAt

/-- A request is a step on the tree. -/
theorem Effect.treeStep (h : Effect σ req ret τ) (hsafe : req.Safe g σ) (hkeeps : req.KeepsTree g σ) (hp : p → req.Plain σ ∧ σ.Dotted g) :
    TreeStep g (req.LinksFit σ) p σ τ := by
  have hroot := g.isInode_root
  have hsame : TreeStep g (req.LinksFit σ) p σ σ :=
    treeStep_same (T := fun _ _ => False) (.refl σ) (fun _ _ hf => hf.elim) (fun _ => Iff.rfl) fun _ _ _ => rfl
  cases h with
  | looked => exact hsame
  | refused => exact hsame
  | create h =>
    cases h with
    | error => exact hsame
    | done _ hsup hne hdir h =>
      have hd := ht.superDir hkeeps.1 hsup hne
      refine h.treeStep ht hw hshort hd hdir (hsafe.2 _ _ hsup hdir) (hkeeps.2 _ _ hsup hdir) fun h0 h' => ?_
      obtain ⟨hstr, hdotted⟩ := hp h'
      obtain ⟨hslash, hstr'⟩ := superDir_component hstr hsup hne
      exact hdotted.new_name ht ⟨hd, hdir⟩ h0 hslash hstr'
  | write h => exact h.treeStep hw hsafe
  | @link old new cur _ _ h =>
    cases h with
    | error => exact hsame
    | @done i d k name σ₁ _ hi h0 hfile hsup hne hdir hplaced hfree =>
      subst hi
      have hold : σ.Taken g (adj_path_i old cur).2 := by
        rw [adj_path_i_start]
        exact hkeeps
      have hnew : σ.Taken g (adj_path_i new (adj_path_i old cur).2).2 := by
        rw [adj_path_i_start]
        exact ht.start hold
      have hd := ht.superDir (ht.start hnew) hsup hne
      refine hplaced.linkStep hw hshort hfree hd hdir (hsafe.2 _ _ hsup hdir) (ht.walk hold h0) hfile fun h' => ?_
      obtain ⟨hstr, hdotted⟩ := hp h'
      obtain ⟨hslash, hstr'⟩ := superDir_component (adj_path_i_zero hstr) hsup hne
      exact hdotted.new_name ht ⟨hd, hdir⟩ (hplaced.lookup_zero hfree) hslash hstr'
  | unlink h =>
    cases h with
    | error => exact hsame
    | done _ hsup hne hdir hk =>
      exact unlinkStep ht hw hk (ht.superDir hkeeps.1 hsup hne) hdir (hkeeps.2 _ _ hsup hdir)
  | @mkdir path cur _ _ h =>
    cases h with
    | error => exact hsame
    | @done d k name σ₁ hcur hsup hne hdir hplaced hfree _ =>
      obtain ⟨hlen, hblock, hdata⟩ := hsafe.2.2 _ _ _ _ hsup hplaced hfree
      have hstart : σ.Taken g (View.start (from_root path cur).1 (from_root path cur).2) := by
        rw [start_from_root]
        exact hkeeps.1
      have hd := ht.superDir hstart hsup hne
      have h0 := hplaced.lookup_zero hfree
      refine hplaced.mkdirStep ht hw hshort hfree hd hdir (hsafe.2.1 _ _ hsup hne).2 hlen hblock hdata (hkeeps.2 _ _ hsup h0)
        (fun h' => ?_) fun h' => (hp h').1.2 _ _ hsup h0
      obtain ⟨⟨hstr, _⟩, hdotted⟩ := hp h'
      obtain ⟨hslash, hstr'⟩ := superDir_component (from_root_zero hstr) hsup hne
      exact hdotted.new_name ht ⟨hd, hdir⟩ h0 hslash hstr'
  | @rmdir path cur _ _ h =>
    cases h with
    | error => exact hsame
    | @done i d k name σ₁ hcur hi hsize hsup hne hdir hplaced =>
      obtain ⟨htaken, hisdir, hnotroot, honly⟩ := hkeeps.2 i hi hsize
      subst hi
      obtain ⟨hdi, hlook⟩ := honly _ _ hsup hne
      have hstart : σ.Taken g (View.start (from_root path cur).1 (from_root path cur).2) := by
        rw [start_from_root]
        exact hkeeps.1
      have hd := ht.superDir_drop hw htaken hstart hsup hne
      exact hplaced.rmdirStep hw htaken hisdir hnotroot hsize hd hdir (hsafe.2 hsize _ _ hsup hne).2 hdi hlook

omit ht hw hshort in
theorem removeEntry_size_zero (h0 : σ.size e = 0) : (σ.removeEntry d k).size e = 0 := by
  have hlinks : (σ.addLinks (σ.slotInum d k) (-1)).size e = 0 := (addLinks_edits e .size (by simp)).trans h0
  unfold FS.removeEntry
  dsimp only
  split
  · show ((σ.addLinks (σ.slotInum d k) (-1)).truncate (σ.slotInum d k)).size e = 0
    by_cases he : e = σ.slotInum d k
    · rw [he]
      exact truncate_size
    · exact (truncate_edits e .size (by simp [he])).trans hlinks
  · exact hlinks

omit hshort in
/-- An inode that is not in use stays empty unless it is taken or written to. -/
theorem Effect.size_idle (h : Effect σ req ret τ) (hsafe : req.Safe g σ) (hkeeps : req.KeepsTree g σ) (he : ¬ σ.Taken g e)
    (hpop : τ.i_head = σ.i_head.tail → e = σ.nextInode → e = 0) (hwrite : ∀ buf size offset, req ≠ .write e buf size offset)
    (h0 : σ.size e = 0) : τ.size e = 0 := by
  have hplaced : ∀ {d : Int} {name : CStr} {k : Nat} {σ₀ σ₁ : FS}, Placed σ₀ d name k σ₁ → σ.Taken g d → σ₀.size e = 0 → σ₁.size e = 0 :=
    fun hp hd hzero => (hp.edits e .size fun hf => he (hf.1 ▸ hd)).trans hzero
  cases h with
  | looked => exact h0
  | refused => exact h0
  | create h =>
    cases h with
    | error => exact h0
    | @done d name _ _ _ hsup hne _ h =>
      have hd := ht.superDir hkeeps.1 hsup hne
      cases h with
      | taken => exact h0
      | @truncated k =>
        by_cases hek : e = σ.slotInum d k
        · exact hek ▸ truncate_size
        · exact (truncate_edits e .size fun hf => hek hf.1).trans h0
      | linked hp =>
        have hzero := hplaced hp hd h0
        exact hzero
      | @made k σ₁ hp =>
        by_cases hnext : e = σ₁.nextInode
        · exact hnext ▸ newFile_fields.2.1
        · exact (newFile_edits e .size hnext).trans (hplaced hp hd h0)
  | @write i _ _ _ _ _ h =>
    have hei : e ≠ i := by
      rintro rfl
      exact hwrite _ _ _ rfl
    exact (congrArg Inode.size ((h.kept hw hsafe).inode e hei)).trans h0
  | @link old new cur _ _ h =>
    cases h with
    | error => exact h0
    | done _ _ _ _ hsup hne _ hp =>
      have hold : σ.Taken g (adj_path_i old cur).2 := by
        rw [adj_path_i_start]
        exact hkeeps
      have hnew : σ.Taken g (adj_path_i new (adj_path_i old cur).2).2 := by
        rw [adj_path_i_start]
        exact ht.start hold
      have hzero := hplaced hp (ht.superDir (ht.start hnew) hsup hne) h0
      exact (addLinks_edits e .size (by simp)).trans hzero
  | unlink h =>
    cases h with
    | error => exact h0
    | done => exact removeEntry_size_zero h0
  | @mkdir path cur _ _ h =>
    cases h with
    | error => exact h0
    | done _ hsup hne _ hp hfree =>
      have hstart : σ.Taken g (View.start (from_root path cur).1 (from_root path cur).2) := by
        rw [start_from_root]
        exact hkeeps.1
      have hnext : e ≠ σ.nextInode := fun hen => hkeeps.2 _ _ hsup (hp.lookup_zero hfree) (hen ▸ hpop (by rw [newDir_i_head, hp.i_head]) hen)
      rw [← hp.nextInode] at hnext
      exact (newDir_edits e .size hnext).trans (hplaced hp (ht.superDir hstart hsup hne) h0)
  | @rmdir path cur _ _ h =>
    cases h with
    | error => exact h0
    | @done i _ _ _ _ _ hi hsize hsup hne _ hp =>
      obtain ⟨htaken, _⟩ := hkeeps.2 i hi hsize
      have hstart : σ.Taken g (View.start (from_root path cur).1 (from_root path cur).2) := by
        rw [start_from_root]
        exact hkeeps.1
      have hzero := hplaced hp (ht.superDir_drop hw htaken hstart hsup hne) ((dropDir_edits e .size fun hf => he (hf.1 ▸ htaken)).trans h0)
      exact hzero

omit hshort in
/-- The header stays empty. -/
theorem Effect.header (h : Effect σ req ret τ) (hsafe : req.Safe g σ) (hkeeps : req.KeepsTree g σ) : τ.size 0 = 0 := by
  refine h.size_idle ht hw hsafe hkeeps (fun h0 => h0.2.2 rfl) (fun _ _ => rfl) (fun buf size offset hreq => ?_) ht.header
  subst hreq
  exact hkeeps rfl

/-- A request keeps the tree. -/
theorem Effect.planted (h : Effect σ req ret τ) (hsafe : req.Safe g σ) (hkeeps : req.KeepsTree g σ) : τ.Planted g := by
  refine ⟨?_, h.header ht hw hsafe hkeeps, (h.treeStep (p := False) ht hw hshort hsafe hkeeps False.elim).rooted ht.tree⟩
  rcases h.i_head hw hsafe with hsame | htail | ⟨i, hfrees, hcons⟩
  · exact hsame ▸ ht.nodup
  · exact htail ▸ ht.nodup.sublist (List.tail_sublist _)
  · rw [hcons]
    exact List.nodup_cons.mpr ⟨(hkeeps.frees hfrees).1.2.1, ht.nodup⟩

end

end Yfs
