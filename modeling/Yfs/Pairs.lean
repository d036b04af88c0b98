import Yfs.Freeing
import Yfs.Rmdir
import Yfs.Walks

/-! # What comes and goes

A file that is made, written and removed gives its blocks back. A directory gives its inode back too.
-/

namespace Yfs

variable {g : Geometry} {v w : View} {σ σ' τ : FS} {sv sv' sv₁ : Server} {d e i cur : Int} {k n : Nat} {c path : CStr} {buf : UserBuf}
  {size offset left off : Int} {blocks inodes : List Int}

/-! ## Blocks on their way -/

/-- The blocks of `i`, then the free ones. -/
def FS.held (σ : FS) (i : Int) : List Int := σ.fileBlocks i ++ σ.b_head

theorem fileBlocks_congr (hblocks : w.blocks i = v.blocks i) (hptr : ∀ m, v.covers i m → w.pointer i m = v.pointer i m) :
    w.fileBlocks i = v.fileBlocks i := by
  rw [View.fileBlocks, View.fileBlocks, hblocks]
  exact List.map_congr_left fun m hm => hptr m (View.covers_iff.mpr (List.mem_range.mp hm))

theorem fileBlocks_empty (h : v.size i = 0) : v.fileBlocks i = [] := by
  rw [View.fileBlocks, View.blocks, h]
  rfl

theorem held_congr (h : σ.Same σ'.toView i) (hfree : σ'.b_head = σ.b_head) : σ'.held i = σ.held i := by
  rw [FS.held, FS.held, hfree, fileBlocks_congr h.blocks h.pointer]

theorem Rewritten.held (h : Rewritten σ σ' i) : σ'.held i = σ.held i := by
  have hblocks : σ'.blocks i = σ.blocks i := blocks_of_covers fun m => (h.covers m).trans View.covers_iff
  rw [FS.held, FS.held, h.b_head, fileBlocks_congr hblocks h.pointer]

/-- The first free block becomes the last one of the file. -/
theorem Appended.held (h : Appended σ σ' i) (hfree : σ.b_head ≠ []) : σ'.held i = σ.held i := by
  have hblocks : σ'.blocks i = σ.blocks i + 1 := blocks_of_covers fun m => (h.covers m).trans Nat.lt_succ_iff.symm
  have hold : (List.range (σ.blocks i)).map (σ'.pointer i) = σ.fileBlocks i :=
    List.map_congr_left fun m hm => h.old m (View.covers_iff.mpr (List.mem_range.mp hm))
  have hlist : σ'.fileBlocks i = σ.fileBlocks i ++ [σ.next] := by
    rw [View.fileBlocks, hblocks, List.range_succ, List.map_append, hold, List.map_singleton, h.new]
  rw [FS.held, FS.held, hlist, h.b_head, List.append_assoc, List.singleton_append]
  exact congrArg _ (b_head_eq hfree).symm

theorem Put.held (h : Put g σ σ' i n) : σ'.held i = σ.held i := by
  cases h with
  | inside _ h => exact h.held
  | atEnd _ hg h => exact h.held hg.free

theorem Writing.held {r : Bool} (h : Writing i buf size offset n left off σ r σ') (hs : Writable g σ i buf size offset n left off)
    (hr : r = true) : σ'.held i = σ.held i := by
  induction h with
  | done => rfl
  | limit => cases hr
  | stuck => cases hr
  | chunk hpos hn hb hbytes _ ih => exact (ih (hs.step hpos hn hb hbytes) hr).trans ((hs.round hpos hn).put hs.wellFormed _ hb).held

/-- A write that succeeds only moves blocks from the free list to the file. -/
theorem Written.held {r : Int} (h : Written σ i buf size offset r σ') (hw : WellFormed g σ) (hs : σ.WriteOk g i buf size offset)
    (hr : r ≠ ERROR) : σ'.held i = σ.held i := by
  cases h with
  | ended h => exact h.held (hs.writable hw) rfl
  | failed => exact absurd rfl hr

theorem Released.held (h : Released σ τ i) : τ.b_head.Perm (σ.held i) := by
  rw [h.b_head]
  exact (List.reverse_perm _).append_right _

/-- The first free block becomes the block of the new directory. -/
theorem SlotAt.newDir_held (h : SlotAt g σ d k (σ.slotBlock d k)) (hshort : 8 * g.table ≤ 2 ^ 15) (hname : c.length ≤ DIRNAMELEN)
    (hfree : σ.b_head ≠ []) (hdata : ¬ g.isTable σ.next) : (σ.newDir d k c).held σ.nextInode = σ.b_head := by
  have hw := (h.nameDir hshort hname).wellFormed
  have hfree' : (σ.nameDir d k c).b_head ≠ [] := by rwa [nameDir_b_head]
  have happ := headBlock_appended (d := d) hw h.wellFormed.nextInode hfree' (by rwa [nameDir_next])
  rw [newDir_eq, happ.held hfree', FS.held, fileBlocks_empty bareDir_emptied.size, List.nil_append]
  exact (nameDir_b_head : (σ.nameDir d k c).b_head = σ.b_head)

/-! ## Writes in a row -/

/-- Writes to `i` that keep blocks apart, and succeed. -/
inductive Filled (g : Geometry) (i : Int) : Server → Server → Prop where
  | refl (sv : Server) : Filled g i sv sv
  | write {sv sv₁ sv₂ : Server} {buf : UserBuf} {size offset : Int} {resp : Response} (hok : sv.fs.WriteOk g i buf size offset)
    (hserve : serve sv (.write i buf size offset) = some (resp, sv₁)) (hret : resp.ret ≠ ERROR) (rest : Filled g i sv₁ sv₂) :
    Filled g i sv sv₂

/-- `i`, which has one link, and the free list have `blocks`. Other files are as in `v`. -/
structure Holds (g : Geometry) (v : View) (i : Int) (blocks inodes : List Int) (sv : Server) : Prop where
  onDisk : OnDisk g sv
  held : sv.fs.held i = blocks
  i_head : sv.fs.i_head = inodes
  nlink : sv.fs.nlink i = 1
  same : ∀ e, g.isInode e → e ≠ i → v.Same sv.fs.toView e

/-- One round. -/
theorem Holds.write {resp : Response} (h : Holds g v i blocks inodes sv) (hshort : 8 * g.table ≤ 2 ^ 15)
    (hok : sv.fs.WriteOk g i buf size offset) (hserve : serve sv (.write i buf size offset) = some (resp, sv₁)) (hret : resp.ret ≠ ERROR) :
    Holds g v i blocks inodes sv₁ := by
  have hw := h.onDisk.wellFormed
  have hi := hok.inode
  have hsafe : Request.Safe g sv.fs (.write i buf size offset) := hok
  obtain ⟨_, τ, heff, hw', hagree⟩ := h.onDisk.toSound.step hshort hsafe hserve
  generalize resp.ret = r at heff hret
  cases heff with
  | refused => exact absurd rfl hret
  | looked hl => cases hl
  | write hwritten =>
    have hkept := hwritten.kept hw hok
    have hlinks := hwritten.edits i .nlink (by simp [Field.grows])
    refine ⟨h.onDisk.step hshort hsafe hserve, ?_, ?_, ?_, fun e he hne => ?_⟩
    · rw [held_congr (hagree.same hw' hi) (congrArg Globals.b_head hagree.globals), hwritten.held hw hok hret, h.held]
    · rw [← h.i_head, ← hkept.i_head]
      exact congrArg Globals.i_head hagree.globals
    · rw [View.nlink, hagree.inode i hi, ← h.nlink]
      exact hlinks
    · exact ((h.same e he hne).trans (hkept.same e he hne)).trans (hagree.same hw' he)

theorem Filled.holds (h : Filled g i sv sv₁) (hshort : 8 * g.table ≤ 2 ^ 15) (hs : Holds g v i blocks inodes sv) :
    Holds g v i blocks inodes sv₁ := by
  induction h with
  | refl => exact hs
  | write hok hserve hret _ ih => exact ih (hs.write hshort hok hserve hret)

/-! ## The pairs -/

theorem from_root_length (p : CStr) (cur : Int) : (from_root p cur).1.length ≤ p.length := by
  unfold from_root
  split
  · exact (List.dropWhile_suffix _).length_le
  · exact Nat.le_refl _

/-- Where a slot is free, no slot is added. -/
theorem Placed.in_place (hp : Placed σ d c k τ) (hspace : ∃ k, k < σ.slots d ∧ σ.slotInum d k = 0) : τ = σ ∧ k < σ.slots d := by
  cases hp with
  | found h => exact ⟨rfl, findSlot_lt h⟩
  | free _ h => exact ⟨rfl, freeSlot_lt h⟩
  | new hfull =>
    obtain ⟨k, hk, h0⟩ := hspace
    have hnone := hfull.2
    rw [View.freeSlot, List.find?_range_eq_none] at hnone
    exact absurd h0 (by simpa using hnone k hk)

theorem room_of_space (hspace : ∃ k, k < σ.slots d ∧ σ.slotInum d k = 0) : σ.RoomFor g d c := fun hfull =>
  absurd (Placed.new hfull : Placed σ d c _ _).in_place (fun h => absurd (h hspace).2 (lt_irrefl _))

/-- An inode that is taken off and not put back. -/
theorem tail_perm {l : List Int} : l.tail.Perm l ↔ l = [] := by
  constructor
  · intro h
    have := h.length_eq
    rw [List.length_tail] at this
    exact List.eq_nil_of_length_eq_zero (by omega)
  · rintro rfl
    exact List.Perm.refl _

/-- An inode that is put back, or put there if there was none. -/
theorem head_tail_perm {l : List Int} : (l.headD 0 :: l.tail).Perm l ↔ l ≠ [] := by
  cases l with
  | nil => simp
  | cons => simp

section

variable (h : sv.InOrder g) (hshort : 8 * g.table ≤ 2 ^ 15) (hcur : g.isInode cur) (hpos : 0 < cur) (hused : cur ∉ sv.fs.i_head)
  (hstr : 0 ∉ path) (hne : path ≠ []) (hvalid : isPathnameValid path = true) (hpar : sv.fs.parent path cur = some d)
  (hdir : sv.fs.isDir d) (hspace : ∃ k, k < sv.fs.slots d ∧ sv.fs.slotInum d k = 0) (hnew : sv.fs.entry d (basename path) = none)
include h hshort hcur hpos hused hstr hne hvalid hpar hdir hspace hnew

omit hused in
theorem create_fills : ∃ resp sv₁ k, serve sv (.create (some path) cur) = some (resp, sv₁) ∧ resp.ret = sv.fs.nextInode ∧
    Placed sv.fs d (basename path) k sv.fs ∧ k < sv.fs.slots d ∧ sv.fs.slotInum d k = 0 ∧ OnDisk g sv₁ ∧
    Rel g sv₁ (sv.fs.newFile d k (basename path)) := by
  have hw := h.wellFormed
  have hd := parent_isInode hw hcur hpar
  have hroom : sv.fs.RoomFor g d (basename path) := room_of_space hspace
  have hlookup := lookup_basename h.named hd hdir hstr
  rw [hnew, Option.getD_none] at hlookup
  have hsup := superDir_eq h.named hw hcur (by omega) hstr (isPathnameValid_basename hvalid hne).1
  rw [hpar, Option.getD_some] at hsup
  have hsafe : Request.Safe g sv.fs (.create (some path) cur) := by
    refine ⟨hcur, fun e name hsup' _ => ?_⟩
    obtain ⟨rfl, rfl⟩ := Prod.mk.inj (hsup.symm.trans hsup')
    exact hroom
  obtain ⟨resp, sv₁, τ, hserve, hrel, hmade⟩ := create_serves h hcur hpos hstr hne hvalid hpar hdir hroom
  have hdisk := h.toOnDisk.step hshort hsafe hserve
  generalize hr : resp.ret = r at hmade
  cases hmade with
  | taken _ _ ha => exact absurd rfl ha
  | linked _ _ ha => exact absurd rfl ha
  | truncated hk hlive => exact absurd (lookup_some hk ▸ hlookup) hlive
  | made hp h0 =>
    obtain ⟨rfl, hlt⟩ := hp.in_place hspace
    exact ⟨resp, sv₁, _, hserve, hr, hp, hlt, h0, hdisk, hrel⟩

/-- The new file, however much is written to it, can be removed by its name. -/
theorem create_unlink : ∃ resp sv₁, serve sv (.create (some path) cur) = some (resp, sv₁) ∧ resp.ret ≠ ERROR ∧
    ∀ sv₂, Filled g resp.ret sv₁ sv₂ → ∃ resp' sv₃, serve sv₂ (.unlink (some path) cur) = some (resp', sv₃) ∧ resp'.ret = 0 ∧
      sv₃.fs.b_head.Perm sv.fs.b_head ∧ (sv₃.fs.i_head.Perm sv.fs.i_head ↔ sv.fs.i_head = []) := by
  have hw := h.wellFormed
  have hd := parent_isInode hw hcur hpar
  have hi := hw.nextInode
  obtain ⟨hlen, hbase⟩ := isPathnameValid_basename hvalid hne
  have hname := isName_basename hstr hbase
  have hstart : sv.fs.Taken g (View.start path cur) := taken_start h.freeApart hcur hused (Int.ne_of_gt hpos)
  have hroom : sv.fs.RoomFor g d (basename path) := room_of_space hspace
  obtain ⟨resp, sv₁, k, hserve, hret, hp, hlt, h0, hdisk, hrel⟩ :=
    create_fills h hshort hcur hpos hstr hne hvalid hpar hdir hspace hnew
  have hat : SlotAt g sv.fs d k (sv.fs.slotBlock d k) := ⟨hw, hd, hdir, hlt, rfl⟩
  have hdtaken := parent_taken hw h.freeApart hstart hpar
  have hdne := hdtaken.ne_next
  have hput := hat.newFile_put (c := basename path) hshort hdne.symm
  have hw' := hat.newFile hshort (basename path)
  obtain ⟨_, hsize, hlinks⟩ := newFile_fields (σ := sv.fs) (d := d) (k := k) (c := basename path)
  have hagree := hrel.agrees
  have hholds : Holds g (sv.fs.newFile d k (basename path)).toView sv.fs.nextInode sv.fs.b_head sv.fs.i_head.tail sv₁ := by
    refine ⟨hdisk, ?_, ?_, ?_, fun e he _ => hagree.same hw' he⟩
    · rw [held_congr (hagree.same hw' hi) (congrArg Globals.b_head hagree.globals), FS.held, fileBlocks_empty hsize, List.nil_append]
      exact FS.popInode_b_head
    · exact (congrArg Globals.i_head hagree.globals).trans newFile_i_head
    · rw [View.nlink, hagree.inode _ hi]
      exact hlinks
  refine ⟨resp, sv₁, hserve, ?_, fun sv₂ hfilled => ?_⟩
  · rw [hret]
    exact isInode_ne_error hi
  rw [hret] at hfilled
  have hafter := hfilled.holds hshort hholds
  have hput₂ := hput.then_same (hafter.same d hd hdne) fun e he _ hX => hafter.same e he hX
  have hleads := hp.leads hw h.freeApart h.named hd hdir hroom hlt h0 hname.plain hname.string hput₂
  have hsup := hleads.superDir hstart hstr hpar hlen hdtaken.2.2
  obtain ⟨resp', sv₃, σ', hserve', hrel', _, hfound⟩ := unlink_serves hafter.onDisk hcur hpos hsup (isInode_ne_error hd)
  obtain ⟨hret', rfl⟩ := hfound k hput₂.after (hp.findSlot hname.plain hname.string hput₂)
  have hreleased := (removeEntry_released hput₂.inum hafter.nlink).agrees hi hrel'.agrees
  have hhead : sv₃.fs.i_head = sv.fs.i_head.tail :=
    (congrArg Globals.i_head hrel'.agrees.globals).trans (removeEntry_i_head.trans hafter.i_head)
  refine ⟨resp', sv₃, hserve', hret', ?_, ?_⟩
  · rw [← hafter.held]
    exact hreleased.held
  · rw [hhead]
    exact tail_perm

variable (hblock : sv.fs.b_head ≠ []) (hdata : ¬ g.isTable sv.fs.next) (hfits : (basename path).length ≤ DIRNAMELEN)
include hblock hdata hfits

omit hused in
theorem mkdir_fills : ∃ resp sv₁ k, serve sv (.mkdir (some path) cur) = some (resp, sv₁) ∧ resp.ret = 0 ∧
    Placed sv.fs d (basename path) k sv.fs ∧ k < sv.fs.slots d ∧ sv.fs.slotInum d k = 0 ∧ OnDisk g sv₁ ∧
    Rel g sv₁ (sv.fs.newDir d k (basename path)) := by
  have hw := h.wellFormed
  have hd := parent_isInode hw hcur hpar
  have hroom : sv.fs.RoomFor g d (basename path) := room_of_space hspace
  have hlookup := lookup_basename h.named hd hdir hstr
  rw [hnew, Option.getD_none] at hlookup
  have hsup : sv.fs.superDir (from_root path cur).1 (from_root path cur).2 = (d, basename path) := by
    have hs0 : (from_root path cur).2 ≠ 0 := by
      rw [from_root_start]
      exact Int.ne_of_gt (start_pos hpos)
    have hsup := superDir_eq h.named hw (from_root_isInode path g.isInode_root hcur) hs0 (from_root_zero hstr)
      (Nat.lt_of_le_of_lt (from_root_length path cur) (isPathnameValid_basename hvalid hne).1)
    rwa [parent_from_root, hpar, Option.getD_some, basename_from_root] at hsup
  have hsame : ∀ {e name}, sv.fs.superDir (from_root path cur).1 (from_root path cur).2 = (e, name) → e = d ∧ name = basename path :=
    fun hsup' => Prod.mk.inj (hsup'.symm.trans hsup)
  have hsafe : Request.Safe g sv.fs (.mkdir (some path) cur) := by
    refine ⟨hcur, fun e name hsup' _ => ?_, fun e name k σ₁ hsup' hp _ => ?_⟩
    · obtain ⟨rfl, rfl⟩ := hsame hsup'
      exact ⟨hdir, hroom⟩
    · obtain ⟨rfl, rfl⟩ := hsame hsup'
      obtain ⟨rfl, _⟩ := hp.in_place hspace
      exact ⟨hfits, hblock, hdata⟩
  have hanswer : Request.Answerable g sv (.mkdir (some path) cur) := ⟨hsafe, fun _ => by rw [hsup]; exact isInode_ne_error hd, trivial⟩
  have hspec : wp g (Request.mkdir (some path) cur).handler sv.fs fun resp τ => resp.ret = 0 ∧ ∃ k, Placed sv.fs d (basename path) k sv.fs ∧
      k < sv.fs.slots d ∧ sv.fs.slotInum d k = 0 ∧ τ = sv.fs.newDir d k (basename path) := by
    refine wp_bind.mpr (handle_mkdir_cases hw g.isInode_root hcur (fun e name hsup' _ => ?_) (fun e name k σ₁ hsup' _ hp _ => ?_)
      (fun e name hsup' _ hfile => ?_) (fun hle => absurd hpos (by omega)) fun e name _ hsup' _ => ?_)
    · obtain ⟨rfl, rfl⟩ := hsame hsup'
      exact hroom
    · obtain ⟨rfl, rfl⟩ := hsame hsup'
      obtain ⟨rfl, _⟩ := hp.in_place hspace
      exact hdata
    · obtain ⟨rfl, rfl⟩ := hsame hsup'
      exact absurd hdir hfile
    · obtain ⟨rfl, rfl⟩ := hsame hsup'
      refine ⟨fun hlive => absurd hlookup hlive, fun _ k σ₁ hp h0 _ => ?_, fun hfile => absurd hdir hfile⟩
      obtain ⟨rfl, hlt⟩ := hp.in_place hspace
      exact wp_pure ⟨rfl, k, hp, hlt, h0, rfl⟩
  obtain ⟨resp, sv₁, _, hserve, ⟨hret, k, hp, hlt, h0, rfl⟩, hrel⟩ := h.serves_to hanswer (by simp) hspec
  exact ⟨resp, sv₁, k, hserve, hret, hp, hlt, h0, h.toOnDisk.step hshort hsafe hserve, hrel⟩

/-- The new directory can be removed by its name. -/
theorem mkdir_rmdir : ∃ resp sv₁, serve sv (.mkdir (some path) cur) = some (resp, sv₁) ∧ resp.ret = 0 ∧
    ∃ resp' sv₂, serve sv₁ (.rmdir (some path) cur) = some (resp', sv₂) ∧ resp'.ret = 0 ∧
      sv₂.fs.b_head.Perm sv.fs.b_head ∧ (sv₂.fs.i_head.Perm sv.fs.i_head ↔ sv.fs.i_head ≠ []) := by
  have hw := h.wellFormed
  have hd := parent_isInode hw hcur hpar
  have hi := hw.nextInode
  obtain ⟨hlen, hbase⟩ := isPathnameValid_basename hvalid hne
  have hname := isName_basename hstr hbase
  have hstart : sv.fs.Taken g (View.start path cur) := taken_start h.freeApart hcur hused (Int.ne_of_gt hpos)
  have hdtaken := parent_taken hw h.freeApart hstart hpar
  have hdne := hdtaken.ne_next
  have hroom : sv.fs.RoomFor g d (basename path) := room_of_space hspace
  obtain ⟨resp, sv₁, k, hserve, hret, hp, hlt, h0, hdisk, hrel⟩ :=
    mkdir_fills h hshort hcur hpos hstr hne hvalid hpar hdir hspace hnew hblock hdata hfits
  have hat : SlotAt g sv.fs d k (sv.fs.slotBlock d k) := ⟨hw, hd, hdir, hlt, rfl⟩
  have hw' := hat.newDir hshort hfits hblock hdata
  have hagree := hrel.agrees
  have hput := (hat.newDir_put hshort hdne.symm hfits hblock hdata).then_same (hagree.same hw' hd) fun e he _ _ => hagree.same hw' he
  have hleads := hp.leads hw h.freeApart h.named hd hdir hroom hlt h0 hname.plain hname.string hput
  have hfound := hp.findSlot hname.plain hname.string hput
  have hres : sv₁.fs.resolve (from_root path cur).1 (from_root path cur).2 = sv.fs.nextInode := by
    rw [hleads.resolve hstart hstr hpar hbase hdir, View.child, if_pos hput.after, ← findSlot_component hname.plain hname.string, hfound]
    exact hput.inum
  have hdrop : ∀ e, g.isInode e → e ≠ sv.fs.nextInode → sv₁.fs.Same (sv₁.fs.dropDir sv.fs.nextInode).toView e :=
    fun e he => dropDir_same hdisk.wellFormed hi he
  have hput₁ := hput.then_same (hdrop d hd hdne) fun e he _ hX => hdrop e he hX
  have hleads₁ := hp.leads hw h.freeApart h.named hd hdir hroom hlt h0 hname.plain hname.string hput₁
  have hsup := hleads₁.superDir (start_from_root.symm ▸ hstart) (from_root_zero hstr) (parent_from_root.trans hpar)
    (Nat.lt_of_le_of_lt (from_root_length path cur) hlen) hdtaken.2.2
  rw [basename_from_root] at hsup
  have hsize : (sv.fs.newDir d k (basename path)).size sv.fs.nextInode = 64 := headBlock_size
  have hsmall : sv₁.fs.size sv.fs.nextInode ≤ 64 := by
    rw [View.size, hagree.inode _ hi]
    exact Int.le_of_eq hsize
  obtain ⟨resp', sv₂, hserve', hret', hrel'⟩ := rmdir_clears hdisk hcur hpos hres hsmall hsup (isInode_ne_error hd) hput₁.after
    (hp.findSlot hname.plain hname.string hput₁)
  have hheld : sv₁.fs.held sv.fs.nextInode = sv.fs.b_head := by
    rw [held_congr (hagree.same hw' hi) (congrArg Globals.b_head hagree.globals)]
    exact hat.newDir_held hshort hfits hblock hdata
  have hhead : sv₂.fs.i_head = sv.fs.nextInode :: sv.fs.i_head.tail := by
    refine (congrArg Globals.i_head hrel'.agrees.globals).trans (congrArg (sv.fs.nextInode :: ·) ?_)
    exact (congrArg Globals.i_head hagree.globals).trans newDir_i_head
  have hfree : sv₂.fs.b_head = (sv₁.fs.fileBlocks sv.fs.nextInode).reverse ++ sv₁.fs.b_head := congrArg Globals.b_head hrel'.agrees.globals
  refine ⟨resp, sv₁, hserve, hret, resp', sv₂, hserve', hret', ?_, ?_⟩
  · rw [hfree, ← hheld]
    exact (List.reverse_perm _).append_right _
  · rw [hhead]
    exact head_tail_perm

end

/-- A file has come and gone: the root has a free slot. -/
theorem smallStart_space : ∃ sv, serves smallStart [.create (some [SLASH, 97]) 1, .unlink (some [SLASH, 97]) 1] = some sv ∧
    sv.InOrder smallDisk.geometry ∧ sv.fs.parent [SLASH, 98] 1 = some 1 ∧ sv.fs.isDir 1 ∧ (2 < sv.fs.slots 1 ∧ sv.fs.slotInum 1 2 = 0) ∧
    sv.fs.entry 1 [98] = none ∧ sv.fs.i_head = [14] ∧ sv.fs.b_head ≠ [] ∧ ¬ smallDisk.geometry.isTable sv.fs.next := by
  have hrun : (serves smallStart [.create (some [SLASH, 97]) 1, .unlink (some [SLASH, 97]) 1]).map (fun sv => decide (
      (sv.fs.Named smallDisk.geometry ∧ (∀ j ∈ List.range 16, sv.fs.isDir (j : Nat) → j = 1) ∧
        ∀ k < sv.fs.slots 1, sv.fs.slotInum 1 k ∈ [0, 1]) ∧
      sv.fs.parent [SLASH, 98] 1 = some 1 ∧ sv.fs.isDir 1 ∧ (2 < sv.fs.slots 1 ∧ sv.fs.slotInum 1 2 = 0) ∧
      sv.fs.entry 1 [98] = none ∧ sv.fs.i_head = [14] ∧ sv.fs.b_head ≠ [] ∧ ¬ smallDisk.geometry.isTable sv.fs.next)) = some true := by
    decide +kernel
  obtain ⟨sv, hrun, hall⟩ := Option.map_eq_some_iff.mp hrun
  obtain ⟨⟨hnamed, honly, hlive⟩, hrest⟩ := of_decide_eq_true hall
  have hhead : sv.fs.i_head = [14] := hrest.2.2.2.2.1
  have hmeets : smallStart.meets (fun σ req => req.Safe smallDisk.geometry σ)
      [.create (some [SLASH, 97]) 1, .unlink (some [SLASH, 97]) 1] :=
    ⟨smallStart_sound.2.safe_create (by decide), fun _ _ _ => ⟨(by decide : smallDisk.geometry.isInode 1), fun _ _ _ => trivial⟩⟩
  refine ⟨sv, hrun, ⟨smallStart_onDisk.after (by decide) hmeets hrun, hnamed, fun i hi => ?_, fun d k hd _ hdir hk _ => ?_⟩, hrest⟩
  · rw [hhead, List.mem_singleton] at hi
    subst hi
    decide
  · have hd16 : d < 16 := hd.2
    have hpos := hd.1
    have hroot := honly d.toNat (List.mem_range.mpr (by omega)) (by rwa [Int.toNat_of_nonneg hpos])
    obtain rfl : d = 1 := by omega
    have hinum := hlive k hk
    rw [hhead]
    intro hmem
    rw [List.mem_singleton.mp hmem] at hinum
    exact absurd hinum (by decide)

end Yfs
