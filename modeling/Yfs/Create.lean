import Yfs.Bindings
import Yfs.Header
import Yfs.Logical.Splice

/-! # `create` makes or empties a file -/

namespace Yfs

variable {g : Geometry} {σ τ τ' : FS} {sv : Server} {v w : View} {d e i j cur : Int} {k : Nat} {p path c name : CStr}

/-! ## Valid paths -/

theorem noTrailingSlash_concat {b : UInt8} : noTrailingSlash (p ++ [b]) = decide (b ≠ SLASH) := by
  induction p with
  | nil => by_cases hb : b = SLASH <;> simp [noTrailingSlash, hb]
  | cons a p ih => simp [noTrailingSlash, ih]

/-- A valid path has a last component. -/
theorem isPathnameValid_basename (h : isPathnameValid p = true) (hne : p ≠ []) : p.length < MAXPATHNAMELEN ∧ basename p ≠ [] := by
  unfold isPathnameValid at h
  split at h
  case isTrue => cases h
  case isFalse hlen =>
    refine ⟨by omega, ?_⟩
    induction p using List.reverseRecOn with
    | nil => exact absurd rfl hne
    | append_singleton p b _ =>
      rw [noTrailingSlash_concat] at h
      rw [basename_concat (of_decide_eq_true h)]
      simp

/-! ## What stays -/

/-- The bytes of a file that is shown the same. -/
theorem View.Same.content (h : v.Same w i) : w.content i = v.content i := by
  have hblocks : (List.range (v.blocks i)).map (fun n => (w.block (w.pointer i n)).load 0 512) =
      (List.range (v.blocks i)).map fun n => (v.block (v.pointer i n)).load 0 512 := by
    apply List.map_congr_left
    intro n hn
    have hc : v.covers i n := View.covers_iff.mpr (List.mem_range.mp hn)
    rw [h.pointer n hc, h.data n hc]
  rw [View.content, View.content, h.blocks, h.size, List.flatMap, List.flatMap, hblocks]

/-- Every file but those in `X` keeps its inode, its bytes and, if it is a directory, its names. -/
structure OthersKept (g : Geometry) (σ τ : FS) (X : Set Int) : Prop where
  inode : ∀ j, g.isInode j → j ∉ X → τ.inode j = σ.inode j
  content : ∀ j, g.isInode j → j ∉ X → τ.content j = σ.content j
  names : ∀ j a, g.isInode j → j ∉ X → τ.graph j a = σ.graph j a

theorem OthersKept.of_same {X : Set Int} (hinode : ∀ j, g.isInode j → j ∉ X → τ.inode j = σ.inode j)
    (hsame : ∀ j, g.isInode j → j ∉ X → σ.Same τ.toView j) : OthersKept g σ τ X :=
  ⟨hinode, fun j hj hX => (hsame j hj hX).content, fun j _ hj hX => (hsame j hj hX).graph⟩

theorem OthersKept.agrees {X : Set Int} (h : OthersKept g σ τ X) (hw : WellFormed g τ) (ha : τ.Agrees g τ') : OthersKept g σ τ' X :=
  ⟨fun j hj hX => (ha.inode j hj).trans (h.inode j hj hX), fun j hj hX => (ha.same hw hj).content.trans (h.content j hj hX),
    fun j a hj hX => (ha.same hw hj).graph.trans (h.names j a hj hX)⟩

/-- `i`, which was free, is an empty file, and `c` in `d` leads to it. Beside that `d` keeps its names. -/
structure FileMade (g : Geometry) (σ τ : FS) (d : Int) (c : CStr) (i : Int) : Prop where
  free : σ.i_head = i :: τ.i_head
  type : τ.type i = INODE_REGULAR
  size : τ.size i = 0
  nlink : τ.nlink i = 1
  entry : τ.entry d c = some i
  names : ∀ a, a.take DIRNAMELEN ≠ c.take DIRNAMELEN → τ.entry d a = σ.entry d a
  slot : Bound g σ.toView τ.toView {i} d c i
  parent : ∀ f : Field, f.grows = false → (τ.inode d).get f = (σ.inode d).get f
  others : OthersKept g σ τ {i, d}

/-- `i` is empty and keeps its other fields, and its blocks are free. -/
structure FileEmptied (g : Geometry) (σ τ : FS) (i : Int) : Prop where
  i_head : τ.i_head = σ.i_head
  size : τ.size i = 0
  fields : ∀ f : Field, f ≠ .size → (τ.inode i).get f = (σ.inode i).get f
  b_head : τ.b_head = (σ.fileBlocks i).reverse ++ σ.b_head
  others : OthersKept g σ τ {i}

theorem FileEmptied.agrees (h : FileEmptied g σ τ i) (hw : WellFormed g τ) (hi : g.isInode i) (ha : τ.Agrees g τ') : FileEmptied g σ τ' i := by
  have hinode := ha.inode i hi
  refine ⟨(congrArg Globals.i_head ha.globals).trans h.i_head, ?_, fun f hf => ?_, (congrArg Globals.b_head ha.globals).trans h.b_head,
    h.others.agrees hw ha⟩
  · rw [View.size, hinode]
    exact h.size
  · rw [hinode]
    exact h.fields f hf

theorem FileMade.agrees (h : FileMade g σ τ d c i) (hw : WellFormed g τ) (hd : g.isInode d) (hi : g.isInode i) (ha : τ.Agrees g τ') :
    FileMade g σ τ' d c i := by
  have hinode := ha.inode i hi
  have hsame := ha.same hw hd
  have hhead : τ'.i_head = τ.i_head := congrArg Globals.i_head ha.globals
  refine ⟨hhead ▸ h.free, ?_, ?_, ?_, hsame.entry.trans h.entry, fun a ha' => hsame.entry.trans (h.names a ha'),
    h.slot.then_same hsame fun e he _ _ => ha.same hw he, fun f hf => ?_, h.others.agrees hw ha⟩
  · rw [View.type, hinode]
    exact h.type
  · rw [View.size, hinode]
    exact h.size
  · rw [View.nlink, hinode]
    exact h.nlink
  · rw [ha.inode d hd]
    exact h.parent f hf

theorem truncate_fileEmptied {b : Int} (hw : WellFormed g σ) (hi : g.isInode i) :
    FileEmptied g σ (((σ.truncate i).markInode i).markBlock b) i := by
  have hemp := truncate_emptied hw hi
  refine ⟨rfl, hemp.size, fun f hf => ?_, rfl, .of_same (fun j _ hj => hemp.inode j hj) fun j hj hX => hemp.same hw hj hX⟩
  exact truncate_edits i f fun h => hf h.2

/-- A name of a directory. -/
structure IsName (c : CStr) : Prop where
  string : 0 ∉ c
  plain : SLASH ∉ c
  nonempty : c ≠ []

theorem isName_basename (hstr : 0 ∉ p) (hne : basename p ≠ []) : IsName (basename p) := ⟨basename_zero hstr, slash_not_mem_basename, hne⟩

theorem newFile_fields : (σ.newFile d k c).type σ.nextInode = INODE_REGULAR ∧ (σ.newFile d k c).size σ.nextInode = 0 ∧
    (σ.newFile d k c).nlink σ.nextInode = 1 := by
  have hfields : ∀ f : Field, ((σ.newFile d k c).inode σ.nextInode).get f =
      ((((((σ.setName (σ.slotBlock d k) (slotOffset k) c).popInode.inode σ.nextInode).set .type INODE_REGULAR).set .size 0).set .nlink 1)).get f := by
    intro f
    simp [FS.newFile, FS.initFile, FS.setInum, FS.editBlock]
  refine ⟨?_, ?_, ?_⟩
  · rw [View.type, Inode.type, hfields]
    simp [Field.width, INODE_REGULAR, Mem.wrap_short]
  · rw [View.size, Inode.size, hfields]
    simp [Field.width, Mem.wrap_int]
  · rw [View.nlink, Inode.nlink, hfields]
    simp [Field.width, Mem.wrap_short]

theorem newFile_fileMade (hp : Placed σ d c k τ) (hw : WellFormed g σ) (hd : g.isInode d) (hdir : σ.isDir d) (hroom : σ.RoomFor g d c)
    (hn : σ.toView.Named g) (hname : IsName c) (hshort : 8 * g.table ≤ 2 ^ 15) (hinode : σ.i_head ≠ []) (hne : σ.nextInode ≠ d)
    (h0 : σ.nextInode ≠ 0) (hfree : τ.slotInum d k = 0) : FileMade g σ (τ.newFile d k c) d c σ.nextInode := by
  have hat := hp.slotAt hw hd hdir hroom
  have hnext : τ.nextInode = σ.nextInode := by rw [FS.nextInode, FS.nextInode, hp.i_head]
  have hput := hat.newFile_put (c := c) hshort (hnext ▸ hne)
  rw [hnext] at hput
  have hbound := hp.bound hw hd hdir hroom hn hname.string hname.plain hfree hput
  have hnamed := hn.at hd hdir
  obtain ⟨htype, hsize, hlinks⟩ := newFile_fields (σ := τ) (d := d) (k := k) (c := c)
  rw [hnext] at htype hsize hlinks
  have hedits := hp.edits.mono (U := fun j f => j = σ.nextInode ∨ j = d ∧ f.grows = true) fun _ _ h => .inr h
  have hnew : Edits (fun j _ => j = τ.nextInode) τ (τ.newFile d k c) := newFile_edits
  have hall := hedits.trans (hnew.mono fun _ _ h => .inl (h.trans hnext))
  refine ⟨?_, ?_, ?_, ?_, hbound.entry hnamed hname.string hname.plain hname.nonempty h0,
    fun a ha => hbound.entry_other hnamed hname.string hname.plain hname.nonempty ha, hbound, fun f hf => ?_, .of_same (fun j hj hX => ?_) fun j hj hX => ?_⟩
  · rw [newFile_i_head, hp.i_head, FS.nextInode]
    cases hl : σ.i_head with
    | nil => exact absurd hl hinode
    | cons a l => rfl
  · exact htype
  · exact hsize
  · exact hlinks
  · refine hall d f ?_
    rintro (he | ⟨_, hg⟩)
    · exact hne he.symm
    · rw [hf] at hg
      cases hg
  · refine hall.inode fun f hf => hX ?_
    rcases hf with he | ⟨he, _⟩
    · exact .inl he
    · exact .inr he
  · refine hbound.same hj (fun he => hX (.inr he)) fun he => hX (.inl he)

theorem FileMade.named (h : FileMade g σ τ d c i) (hn : σ.Named g) (hname : IsName c) (hd : g.isInode d) (hd0 : d ≠ 0) (h0 : i ≠ 0) :
    τ.Named g := by
  refine h.slot.named hname.string hname.plain hname.nonempty hn hd hd0 (by simpa using h0.symm) fun e he hdir => ?_
  obtain rfl : e = i := he
  exact absurd (hdir.symm.trans h.type) (by decide)

/-- A name that is not there gets a file. -/
theorem CreatedIn.fileMade {r : Int} (hc : CreatedIn σ d c (-1) r τ) (hw : WellFormed g σ) (hd : g.isInode d) (hdir : σ.isDir d)
    (hroom : σ.RoomFor g d c) (hn : σ.Named g) (hname : IsName c) (hshort : 8 * g.table ≤ 2 ^ 15) (hinode : σ.i_head ≠ [])
    (hfree : σ.FreeApart g) (hused : d ∉ σ.i_head) (hnone : σ.lookup d c = 0) :
    WellFormed g τ ∧ r = σ.nextInode ∧ r ≠ 0 ∧ FileMade g σ τ d c r := by
  cases hc with
  | taken _ _ hn => exact absurd rfl hn
  | linked _ _ hn => exact absurd rfl hn
  | truncated hk hlive _ => exact absurd (lookup_some hk ▸ hnone) hlive
  | @made k σ₁ hp hslot _ =>
    have hmem : σ.nextInode ∈ σ.i_head := nextInode_mem hinode
    have hne : σ.nextInode ≠ d := fun he => hused (he ▸ hmem)
    have h0 : σ.nextInode ≠ 0 := by
      have := hfree.past _ hmem
      simp only [ROOTINODE] at this
      omega
    have hat := hp.slotAt hw hd hdir hroom
    rw [hp.nextInode]
    exact ⟨hat.newFile hshort c, rfl, h0, newFile_fileMade hp hw hd hdir hroom hn hname hshort hinode hne h0 hslot⟩

/-- A name that is there keeps its inode, which is emptied. -/
theorem CreatedIn.fileEmptied {r : Int} (hc : CreatedIn σ d c (-1) r τ) (hw : WellFormed g σ) (hd : g.isInode d) (hdir : σ.isDir d)
    (hlive : σ.lookup d c ≠ 0) : WellFormed g τ ∧ r = σ.lookup d c ∧ g.isInode r ∧ FileEmptied g σ τ r := by
  cases hc with
  | taken _ _ hn => exact absurd rfl hn
  | linked hp h0 _ => exact absurd (hp.lookup_zero h0) hlive
  | made hp h0 _ => exact absurd (hp.lookup_zero h0) hlive
  | @truncated k hk _ _ =>
    have hi := hw.entries d _ hd hdir (findSlot_lt hk)
    exact ⟨((truncate_emptied hw hi).wellFormed hw hi hw.inodes).markInode.markBlock, (lookup_some hk).symm, hi, truncate_fileEmptied hw hi⟩

/-! ## The handler -/

/-- What `create` is for, where the directory of `path` is `d`. -/
structure Creates (g : Geometry) (σ : FS) (path : CStr) (cur d ret : Int) (τ : FS) : Prop where
  new : σ.entry d (basename path) = none → FileMade g σ τ d (basename path) ret ∧ τ.reference path cur = some ret
  file : ∀ i, σ.entry d (basename path) = some i → σ.type i = INODE_REGULAR → ret = i ∧ FileEmptied g σ τ i
  dir : ∀ i, σ.entry d (basename path) = some i → σ.isDir i → ret = ERROR ∧ σ.Unchanged g τ
  others : ∀ i, σ.entry d (basename path) = some i → OthersKept g σ τ {i}

section

variable (h : sv.InOrder g) (hcur : g.isInode cur) (hpos : 0 < cur) (hstr : 0 ∉ path) (hne : path ≠ []) (hvalid : isPathnameValid path = true)
  (hpar : sv.fs.parent path cur = some d) (hdir : sv.fs.isDir d) (hroom : sv.fs.RoomFor g d (basename path))
include h hcur hpos hstr hne hvalid hpar hdir hroom

theorem create_serves : ∃ resp sv' σ', serve sv (.create (some path) cur) = some (resp, sv') ∧ Rel g sv' σ' ∧
    CreatedIn sv.fs d (basename path) (-1) resp.ret σ' := by
  have hd := parent_isInode h.wellFormed hcur hpar
  have hsup := superDir_eq h.named h.wellFormed hcur (by omega) hstr (isPathnameValid_basename hvalid hne).1
  rw [hpar, Option.getD_some] at hsup
  have hroom' : sv.fs.RoomAt g path cur := by
    intro d' name' hsup' _
    obtain ⟨rfl, rfl⟩ := Prod.mk.inj (hsup.symm.trans hsup')
    exact hroom
  have hanswer : Request.Answerable g sv (.create (some path) cur) := ⟨⟨hcur, hroom'⟩, trivial, trivial⟩
  have hspec : wp g (Request.create (some path) cur).handler sv.fs fun resp σ' => CreatedIn sv.fs d (basename path) (-1) resp.ret σ' := by
    refine wp_bind.mpr (handle_create_cases h.wellFormed g.isInode_root hcur (fun d name hsup _ => hroom' d name hsup) (fun hstop => ?_) fun d' name' _ _ hsup' => ⟨fun hmiss => ?_, fun _ _ r σ' hc => ?_⟩)
    · rcases hstop with hbad | hle
      · rw [hvalid] at hbad
        cases hbad
      · omega
    · obtain ⟨rfl, rfl⟩ := Prod.mk.inj (hsup.symm.trans hsup')
      rcases hmiss with he | hfile
      · exact absurd he (isInode_ne_error hd)
      · exact absurd hdir hfile
    · obtain ⟨rfl, rfl⟩ := Prod.mk.inj (hsup.symm.trans hsup')
      exact wp_pure hc
  obtain ⟨resp, sv', σ', hserve, hQ, hrel⟩ := h.serves_to hanswer (by simp) hspec
  exact ⟨resp, sv', σ', hserve, hrel, hQ⟩

/-- **`create` makes or empties a file.** In a well-formed state with a free inode and room for an entry, `create` does what it is
for exactly if the last component of the path does not name a directory. -/
theorem handle_create_makes (hshort : 8 * g.table ≤ 2 ^ 15) (hused : cur ∉ sv.fs.i_head) (hinode : sv.fs.i_head ≠ []) :
    (∃ resp sv', serve sv (.create (some path) cur) = some (resp, sv') ∧ Creates g sv.fs path cur d resp.ret sv'.fs) ↔
      ∀ i, sv.fs.entry d (basename path) = some i → ¬ sv.fs.isDir i := by
  have hw := h.wellFormed
  have hn := h.named
  have hd := parent_isInode hw hcur hpar
  have hbase := (isPathnameValid_basename hvalid hne).2
  have hname := isName_basename hstr hbase
  have hlookup := lookup_basename hn hd hdir hstr
  obtain ⟨resp, sv', σ', hserve, hrel, hmade⟩ := create_serves h hcur hpos hstr hne hvalid hpar hdir hroom
  have hagree := hrel.agrees
  have hemptied : ∀ i, sv.fs.entry d (basename path) = some i → resp.ret = i ∧ g.isInode i ∧ FileEmptied g sv.fs sv'.fs i := by
    intro i he
    obtain ⟨_, _, _, h0, _⟩ := entry_eq_some he
    rw [he, Option.getD_some] at hlookup
    obtain ⟨hw', hret, hi, hempty⟩ := hmade.fileEmptied hw hd hdir (by rwa [hlookup])
    rw [hret, hlookup] at hi hempty
    exact ⟨hret.trans hlookup, hi, hempty.agrees hw' hi hagree⟩
  constructor
  · rintro ⟨resp', sv'', hserve', hdone⟩ i hi hdiri
    obtain ⟨rfl, rfl⟩ := Prod.mk.inj (Option.some.inj (hserve.symm.trans hserve'))
    obtain ⟨hret, hinum, _⟩ := hemptied i hi
    exact isInode_ne_error hinum (hret.symm.trans (hdone.dir i hi hdiri).1)
  · intro hfile
    refine ⟨resp, sv', hserve, fun hnone => ?_, fun i he _ => ?_, fun i he hdiri => absurd hdiri (hfile i he), fun i he => ?_⟩
    · have hnot := parent_used hw h.freeApart hcur hused hpar
      have hmem : sv.fs.nextInode ∈ sv.fs.i_head := nextInode_mem hinode
      rw [hnone, Option.getD_none] at hlookup
      obtain ⟨hw', hret, h0, hnew⟩ := hmade.fileMade hw hd hdir hroom hn hname hshort hinode h.freeApart hnot hlookup
      have hnew' := hnew.agrees hw' hd (hret ▸ hw.inodes _ hmem) hagree
      refine ⟨hnew', hnew'.slot.reference hw h.freeApart hcur hused (hn.at hd hdir) hstr hbase h0 ?_ hpar⟩
      rintro e rfl
      exact hret ▸ hmem
    · obtain ⟨hret, _, hempty⟩ := hemptied i he
      exact ⟨hret, hempty⟩
    · obtain ⟨_, _, hempty⟩ := hemptied i he
      exact hempty.others

end

/-- A new name in the root. -/
theorem handle_create_makes_new : ∃ resp sv', serve smallStart (.create (some [SLASH, 97]) 1) = some (resp, sv') ∧
    Creates smallDisk.geometry smallStart.fs [SLASH, 97] 1 ROOTINODE resp.ret sv'.fs := by
  have hsize : smallStart.fs.size ROOTINODE = 64 := by decide +kernel
  refine (handle_create_makes smallStart_inOrder (Geometry.isInode_root _) Int.one_pos (by decide) (by decide) (by decide)
    (smallStart_parent (by decide)) (by decide +kernel) (fun _ h => absurd h (by omega)) (by decide) (show (1 : Int) ∉ [(15 : Int), 14] by decide)
    (show [(15 : Int), 14] ≠ [] by decide)).mpr fun i hi => ?_
  have hnone : smallStart.fs.entry ROOTINODE (basename [SLASH, 97]) = none := by decide +kernel
  rw [hnone] at hi
  cases hi

/-- `create` of a directory. -/
theorem create_empties_directory : smallStart.InOrder smallDisk.geometry ∧ isPathnameValid [SLASH, DOT] = true ∧
    smallStart.fs.parent [SLASH, DOT] 1 = some ROOTINODE ∧ smallStart.fs.isDir ROOTINODE ∧
    ¬ ∃ resp sv', serve smallStart (.create (some [SLASH, DOT]) 1) = some (resp, sv') ∧
      Creates smallDisk.geometry smallStart.fs [SLASH, DOT] 1 ROOTINODE resp.ret sv'.fs := by
  refine ⟨smallStart_inOrder, by decide, smallStart_parent (by decide), by decide +kernel, ?_⟩
  rintro ⟨resp, sv', hserve, hdone⟩
  have hret : (serve smallStart (.create (some [SLASH, DOT]) 1)).map (fun r => r.1.ret) = some 1 := by decide +kernel
  rw [hserve, Option.map_some, Option.some.injEq] at hret
  have hentry : smallStart.fs.entry ROOTINODE (basename [SLASH, DOT]) = some 1 := by decide +kernel
  have hrefused := (hdone.dir 1 hentry (by decide +kernel)).1
  rw [hret] at hrefused
  exact absurd hrefused (by decide)

end Yfs
