import Yfs.Link

/-! # `mkdir` makes an empty directory -/

namespace Yfs

open Cache

variable {g : Geometry} {σ τ τ' : FS} {sv sv' : Server} {v w : View} {d i j b cur : Int} {k : Nat} {p path c : CStr}

/-! ## The block of a new directory -/

/-- The block that `handle_mkdir` takes for the directory `c` in `d`: not the first free one if the entry needs that. -/
def FS.headDirBlock (σ : FS) (d : Int) (c : CStr) : Int :=
  if σ.findSlot d c = none ∧ σ.freeSlot d = none ∧ σ.size d % 512 = 0 then σ.b_head.tail.headD 0 else σ.next

/-- The bytes after the names `.` and `..` of a new directory are zero. -/
def Block.NamesEnd (blk : Block) : Prop := Mem.get blk 3 = 0 ∧ Mem.get blk 36 = 0

instance {blk : Block} : Decidable blk.NamesEnd := inferInstanceAs (Decidable (_ ∧ _))

section

variable (hp : Placed σ d c k τ) (hw : WellFormed g σ) (hd : g.isInode d) (hdir : σ.isDir d) (hroom : σ.RoomFor g d c)
include hp

theorem Placed.next : τ.next = σ.headDirBlock d c := by
  unfold FS.headDirBlock
  cases hp with
  | found h => rw [if_neg fun hn => by rw [h] at hn; cases hn.1]
  | free _ h => rw [if_neg fun hn => by rw [h] at hn; cases hn.2.1]
  | new h =>
    unfold FS.grow
    split
    case isTrue hfull =>
      have hb_head : (σ.growBlock d).b_head = σ.b_head.tail := congrArg Globals.b_head FS.alloc_globals
      rw [if_pos ⟨h.1, h.2, hfull⟩, FS.next, hb_head]
    case isFalse hpart =>
      rw [if_neg fun hn => hpart hn.2.2]
      rfl

theorem Placed.b_head : τ.b_head = σ.b_head ∨ τ.b_head = σ.b_head.tail := by
  rcases hp.eq_or_grow with rfl | ⟨_, rfl⟩
  · exact .inl rfl
  · unfold FS.grow
    split
    · exact .inr (congrArg Globals.b_head FS.alloc_globals)
    · exact .inl rfl

/-- The block for the directory is there, and holds no inodes. -/
theorem Placed.next_block (hblocks : 2 ≤ σ.b_head.length) (htable : ∀ b ∈ σ.b_head, ¬ g.isTable b) :
    τ.b_head ≠ [] ∧ ¬ g.isTable τ.next := by
  have hfree : τ.b_head ≠ [] ∧ τ.b_head ⊆ σ.b_head := by
    rcases hp.b_head with he | he
    · exact ⟨fun hnil => by rw [← he, hnil] at hblocks; simp at hblocks, he ▸ List.Subset.refl _⟩
    · refine ⟨fun hnil => ?_, he ▸ List.tail_subset _⟩
      have := congrArg List.length (he.symm.trans hnil)
      rw [List.length_tail, List.length_nil] at this
      omega
  exact ⟨hfree.1, htable _ (hfree.2 (next_mem hfree.1))⟩

include hw hd hdir hroom

/-- The free blocks keep their bytes. -/
theorem Placed.free_block (hb : b ∈ τ.b_head) : τ.block b = σ.block b := by
  rcases hp.eq_or_grow with rfl | ⟨hf, rfl⟩
  · rfl
  · unfold FS.grow at hb ⊢
    split at hb
    case isTrue hfull =>
      have hg := hroom hf hfull
      have happ := growBlock_appended hw hd hdir hfull hg
      have hnodup := hw.exclusive.nodup
      rw [happ.b_head] at hb
      rw [if_pos hfull]
      refine happ.block b ?_ fun h12 he => (hg.indirect h12).free (he ▸ List.mem_of_mem_tail hb)
      rintro rfl
      rw [b_head_eq hg.free] at hnodup
      exact (List.nodup_cons.mp hnodup).1 hb
    case isFalse hpart =>
      rw [if_neg hpart]
      obtain ⟨hpos, hsize⟩ := hw.sizes d hd hdir
      obtain ⟨_, _, hcov, _⟩ := slots_part hpos hsize hpart
      refine View.setBlock_block_ne ?_
      rintro rfl
      exact hw.exclusive.apart _ _ (View.ledger_data (hw.mapped d hd) hd hcov) hb

end

/-! ## What `mkdir` is for -/

/-- The names of the live entries, and what they lead to. -/
def View.live (v : View) (d : Int) : Set (CStr × Int) :=
  {e | ∃ k, k < v.slots d ∧ v.slotInum d k ≠ 0 ∧ (cname (v.slotName d k), v.slotInum d k) = e}

/-- The path means `i`, and `open` returns it. -/
structure Server.Finds (sv : Server) (p : CStr) (cur i : Int) : Prop where
  means : sv.fs.reference p cur = some i
  opens : ∃ sv', serve sv (.open (some p) cur) = some ({ ret := i }, sv')

/-- `i`, which was free, is a directory with nothing but itself and its parent `d`. -/
structure DirMade (σ : FS) (sv : Server) (p : CStr) (cur d i : Int) : Prop where
  free : i ∈ σ.i_head
  dir : sv.fs.isDir i
  live : sv.fs.live i = {([DOT], i), ([DOT, DOT], d)}
  path : sv.Finds p cur i
  self : sv.Finds (p ++ [SLASH, DOT]) cur i
  parent : sv.Finds (p ++ [SLASH, DOT, DOT]) cur d

/-- The directory of `p` is `d`, which has no live entry of that name, and the name fits an entry. -/
structure View.Makable (v : View) (p : CStr) (cur d : Int) : Prop where
  vacant : v.vacant p cur = some d
  nonempty : basename p ≠ []
  fits : (basename p).length ≤ DIRNAMELEN

/-- What `mkdir` is for. -/
structure Mkdirs (g : Geometry) (sv : Server) (p : CStr) (cur ret : Int) (sv' : Server) : Prop where
  makes : ∀ d, sv.fs.Makable p cur d → ret = 0 ∧ ∃ i, DirMade sv.fs sv' p cur d i
  refuses : (¬ ∃ d, sv.fs.Makable p cur d) → ret = ERROR ∧ sv.fs.Unchanged g sv'.fs

/-- The path without its first slashes is not too long, its directory is there, and either some slot in it has the name and an inode,
or a directory can be made whose names end. -/
def FS.MkdirMeant (σ : FS) (p : CStr) (cur : Int) : Prop :=
  (from_root p cur).1.length < MAXPATHNAMELEN ∧ ∃ d, σ.parent p cur = some d ∧
    (σ.lookup d (basename p) ≠ 0 ∨ σ.isDir d ∧ basename p ≠ [] ∧ (basename p).length ≤ DIRNAMELEN ∧
      (σ.block (σ.headDirBlock d (basename p))).NamesEnd)

/-! ## The new directory -/

/-- The directory `i` in `d`, with what its first block leaves of the names `.` and `..`. -/
structure NewDir (g : Geometry) (v w : View) (d : Int) (c : CStr) (i : Int) (blk : Block) : Prop where
  slot : Bound g v w {i} d c i
  dir : w.isDir i
  slots : w.slots i = 2
  self : w.slotInum i 0 = i ∧ w.slotName i 0 = DOT :: blk.load 3 29
  parent : w.slotInum i 1 = d ∧ w.slotName i 1 = DOT :: DOT :: blk.load 36 28

theorem NewDir.agrees {blk : Block} (h : NewDir g v τ.toView d c i blk) (hw : WellFormed g τ) (hd : g.isInode d) (hi : g.isInode i)
    (ha : τ.Agrees g τ') : NewDir g v τ'.toView d c i blk := by
  have hs := ha.same hw hi
  have h0 : 0 < τ.slots i := by
    rw [h.slots]
    decide
  have h1 : 1 < τ.slots i := by
    rw [h.slots]
    decide
  exact ⟨h.slot.then_same (ha.same hw hd) fun e he _ _ => ha.same hw he, hs.isDir.mpr h.dir, hs.slots.trans h.slots,
    ⟨(hs.slotInum h0).trans h.self.1, (hs.slotName h0).trans h.self.2⟩, (hs.slotInum h1).trans h.parent.1, (hs.slotName h1).trans h.parent.2⟩

section

variable (hp : Placed σ d c k τ) (hw : WellFormed g σ) (hd : g.isInode d) (hdir : σ.isDir d) (hroom : σ.RoomFor g d c)
  (hlen : c.length ≤ DIRNAMELEN) (hshort : 8 * g.table ≤ 2 ^ 15) (hfree : τ.b_head ≠ []) (hdata : ¬ g.isTable τ.next)
include hp hw hd hdir hroom hlen hshort hfree hdata

/-- The new directory and its two entries. -/
theorem newDir_head : (τ.newDir d k c).isDir σ.nextInode ∧ (τ.newDir d k c).slots σ.nextInode = 2 ∧
    ((τ.newDir d k c).slotInum σ.nextInode 0 = σ.nextInode ∧
      (τ.newDir d k c).slotName σ.nextInode 0 = DOT :: (σ.block (σ.headDirBlock d c)).load 3 29) ∧
    (τ.newDir d k c).slotInum σ.nextInode 1 = d ∧
      (τ.newDir d k c).slotName σ.nextInode 1 = DOT :: DOT :: (σ.block (σ.headDirBlock d c)).load 36 28 := by
  have hat := hp.slotAt hw hd hdir hroom
  have hi : g.isInode τ.nextInode := hat.wellFormed.nextInode
  rw [← hp.nextInode]
  have hw₁ : WellFormed g (τ.nameDir d k c) := (hat.nameDir hshort hlen).wellFormed
  have hfree₁ : (τ.nameDir d k c).b_head ≠ [] := by rwa [nameDir_b_head]
  have hdata₁ : ¬ g.isTable (τ.nameDir d k c).next := by rwa [nameDir_next]
  have hblock : (τ.nameDir d k c).block (τ.nameDir d k c).next = σ.block (σ.headDirBlock d c) := by
    rw [nameDir_next, ← hp.next, ← hp.free_block hw hd hdir hroom (next_mem hfree), ← popInode_block (σ := τ)]
    refine View.setBlock_block_ne fun he => ?_
    have hkey := View.ledger_data (hat.wellFormed.mapped d hd) hd (covers_of_slot hat.lt)
    have hmem := next_mem hfree
    rw [he] at hmem
    exact hat.wellFormed.exclusive.apart _ _ hkey hmem
  obtain ⟨hslots, hself, hparent⟩ := headBlock_slots (d := d) hw₁ hi hfree₁ hdata₁
  obtain ⟨hdot, hdots⟩ := headBlock_names (d := d) hw₁ hi hfree₁ hdata₁
  rw [hblock] at hdot hdots
  rw [wrap_inode hshort hi] at hself
  rw [wrap_inode hshort hd] at hparent
  refine ⟨?_, hslots, ⟨hself, hdot⟩, hparent, hdots⟩
  rw [newDir_eq, View.isDir, View.type, headBlock_inode]
  simp [Field.width, INODE_DIRECTORY, Mem.wrap_short]

/-- What `handle_mkdir` does to the slot that it has found. -/
theorem newDir_made (hn : σ.toView.Named g) (hname : IsName c) (hne : σ.nextInode ≠ d) (h0 : τ.slotInum d k = 0) :
    WellFormed g (τ.newDir d k c) ∧ NewDir g σ.toView (τ.newDir d k c).toView d c σ.nextInode (σ.block (σ.headDirBlock d c)) := by
  have hat := hp.slotAt hw hd hdir hroom
  obtain ⟨hisdir, hslots, hself, hparent⟩ := newDir_head hp hw hd hdir hroom hlen hshort hfree hdata
  rw [← hp.nextInode] at hne
  have hbound := hp.bound hw hd hdir hroom hn hname.string hname.plain h0 (hat.newDir_put (c := c) hshort hne hlen hfree hdata)
  exact ⟨hat.newDir hshort hlen hfree hdata, hp.nextInode ▸ hbound, hisdir, hslots, hself, hparent⟩

end

theorem cname_cons {a : UInt8} {l : List UInt8} (h : a ≠ 0) : cname (a :: l) = a :: cname l :=
  List.takeWhile_cons_of_pos (by simpa using h)

theorem cname_load {m n off : Nat} (a : Mem m) : cname (a.load off (n + 1)) = [] ↔ a.get off = 0 := by
  rw [Mem.load_succ, cname]
  constructor
  · intro h
    by_contra hne
    rw [List.takeWhile_cons_of_pos (by simpa using hne)] at h
    cases h
  · intro h
    exact List.takeWhile_cons_of_neg (by simpa using h)

namespace NewDir

variable {blk : Block} (h : NewDir g v w d c i blk)
include h

theorem name_self : cname (w.slotName i 0) = DOT :: cname (blk.load 3 29) := by rw [h.self.2, cname_cons (by decide)]

theorem name_parent : cname (w.slotName i 1) = DOT :: DOT :: cname (blk.load 36 28) := by
  rw [h.parent.2, cname_cons (by decide), cname_cons (by decide)]

/-- The names are right if they end. -/
theorem live_iff (hi : i ≠ 0) (hd : d ≠ 0) (hne : i ≠ d) : w.live i = {([DOT], i), ([DOT, DOT], d)} ↔ blk.NamesEnd := by
  have hslots := h.slots
  constructor
  · intro he
    have h0 : (cname (w.slotName i 0), i) ∈ w.live i := ⟨0, by omega, by rw [h.self.1]; exact hi, by rw [h.self.1]⟩
    have h1 : (cname (w.slotName i 1), d) ∈ w.live i := ⟨1, by omega, by rw [h.parent.1]; exact hd, by rw [h.parent.1]⟩
    rw [he, h.name_self] at h0
    rw [he, h.name_parent] at h1
    simp only [Set.mem_insert_iff, Set.mem_singleton_iff, Prod.mk.injEq, List.cons.injEq, true_and, and_true, hne, hne.symm, and_false,
      or_false, false_or] at h0 h1
    exact ⟨(cname_load blk).mp h0, (cname_load blk).mp h1⟩
  · rintro ⟨h3, h36⟩
    have hself := h.name_self
    rw [(cname_load blk).mpr h3] at hself
    have hparent := h.name_parent
    rw [(cname_load blk).mpr h36] at hparent
    ext e
    simp only [Set.mem_insert_iff, Set.mem_singleton_iff]
    constructor
    · rintro ⟨k, hk, _, rfl⟩
      obtain rfl | rfl : k = 0 ∨ k = 1 := by omega
      · exact .inl (by rw [hself, h.self.1])
      · exact .inr (by rw [hparent, h.parent.1])
    · rintro (rfl | rfl)
      · exact ⟨0, by omega, by rw [h.self.1]; exact hi, by rw [hself, h.self.1]⟩
      · exact ⟨1, by omega, by rw [h.parent.1]; exact hd, by rw [hparent, h.parent.1]⟩

variable (hblk : blk.NamesEnd)
include hblk

theorem namedAt : w.NamedAt i := by
  have hslots := h.slots
  have hself := h.name_self
  rw [(cname_load blk).mpr hblk.1] at hself
  have hparent := h.name_parent
  rw [(cname_load blk).mpr hblk.2] at hparent
  refine ⟨fun k hk => ?_, fun k hk _ => ?_, fun k l hk _ hl => ?_⟩
  · obtain rfl | rfl : k = 0 ∨ k = 1 := by omega
    · rw [hself]
      decide
    · rw [hparent]
      decide
  · obtain rfl | rfl : k = 0 ∨ k = 1 := by omega
    · rw [hself]
      decide
    · rw [hparent]
      decide
  · obtain ⟨rfl, rfl⟩ : k = 1 ∧ l = 0 := by omega
    rw [hself, hparent]
    decide

theorem graph_self (hi : i ≠ 0) : w.graph i [DOT] = some i := by
  have hself := h.name_self
  rw [(cname_load blk).mpr hblk.1] at hself
  rw [View.graph, if_pos h.dir]
  exact (h.namedAt hblk).entry_iff.mpr ⟨0, by rw [h.slots]; decide, h.self.1, hi, hself⟩

theorem graph_parent (hd : d ≠ 0) : w.graph i [DOT, DOT] = some d := by
  have hparent := h.name_parent
  rw [(cname_load blk).mpr hblk.2] at hparent
  rw [View.graph, if_pos h.dir]
  exact (h.namedAt hblk).entry_iff.mpr ⟨1, by rw [h.slots]; decide, h.parent.1, hd, hparent⟩

end NewDir

/-- One more name after a path. -/
theorem reference_append {a : CStr} (hp : p ≠ []) (ha : a ≠ []) (hslash : SLASH ∉ a) (href : v.reference p cur = some i) :
    v.reference (p ++ SLASH :: a) cur = v.graph i a := by
  have hstart : View.start (p ++ SLASH :: a) cur = View.start p cur := by
    rw [View.start, View.start, List.head?_append_of_ne_nil _ hp]
  rw [View.reference_eq] at href
  rw [View.reference_eq, hstart, components_append, components_part hslash ha, Names.follow_concat, href, Option.bind_some]

/-! ## The handler -/

/-- What `mkdir` does for the name `c` in `d`. -/
def MkdirDid (σ : FS) (d : Int) (c : CStr) (r : Int) (τ : FS) : Prop :=
  (σ.lookup d c ≠ 0 → r = ERROR ∧ τ = σ) ∧ (σ.lookup d c = 0 → r = 0 ∧ (σ.isDir d →
    ∃ k σ₁, Placed σ d c k σ₁ ∧ σ₁.slotInum d k = 0 ∧ slotOffset k + 2 + c.length ≤ 512 ∧ τ = σ₁.newDir d k c))

section

variable (h : OnDisk g sv) (hcur : g.isInode cur) (hpos : 0 < cur)
include h hcur hpos

/-- There is no inode -1. -/
theorem mkdir_undefined (hsup : (sv.fs.superDir (from_root path cur).1 (from_root path cur).2).1 = ERROR) :
    serve sv (.mkdir (some path) cur) = none := by
  have hstart := from_root_isInode path g.isInode_root hcur
  obtain ⟨⟨d, name⟩, sv₁, σ₁, hrun, rfl, hrel⟩ := h.returns (get_super_dir_steady h.caches.tidy)
    (get_super_dir_total h.wellFormed h.inRange hstart)
    (get_super_dir_spec (Q := fun r _ => r.1 = ERROR) h.wellFormed hstart g.isInode_root hsup)
  have hget : Cache.get_i ERROR sv₁.store = none := get_i_negative hrel.inodes (by decide)
  have hnone : run (handle_mkdir (some path) cur) sv = none := by
    unfold handle_mkdir
    dsimp only
    rw [if_neg (by omega), run_bind, hrun]
    simp [get_dir_entry, get_i, Prog.cmd, run, exec, hget, run_bind]
  rw [serve_handler (by simp), Request.handler, run_bind, hnone]
  rfl

variable (hsup : sv.fs.superDir (from_root path cur).1 (from_root path cur).2 = (d, c)) (hne : d ≠ ERROR) (hroom : sv.fs.RoomFor g d c)
  (htable : ∀ b ∈ sv.fs.b_head, ¬ g.isTable b) (hblocks : 2 ≤ sv.fs.b_head.length)
include hsup hne hroom htable hblocks

theorem mkdir_spec : wp g (handle_mkdir (some path) cur) sv.fs (MkdirDid sv.fs d c) := by
  have hsame : ∀ {d' c'}, sv.fs.superDir (from_root path cur).1 (from_root path cur).2 = (d', c') → d' = d ∧ c' = c :=
    fun hsup' => Prod.mk.inj (hsup'.symm.trans hsup)
  refine handle_mkdir_cases h.wellFormed g.isInode_root hcur (fun d' c' hsup' _ => ?_) (fun d' c' k σ₁ hsup' _ hp _ => ?_)
    (fun _ _ _ _ _ => htable) (fun hle => absurd hpos (by omega)) fun d' c' _ hsup' _ => ?_
  · obtain ⟨rfl, rfl⟩ := hsame hsup'
    exact hroom
  · obtain ⟨rfl, rfl⟩ := hsame hsup'
    exact (hp.next_block hblocks htable).2
  · obtain ⟨rfl, rfl⟩ := hsame hsup'
    refine ⟨fun hlive => ⟨fun _ => ⟨rfl, rfl⟩, fun h0 => absurd h0 hlive⟩, fun _ k σ₁ hp h0 hfits => ?_, fun hfile h0 σ' => ?_⟩
    · exact ⟨fun hlive => absurd (hp.lookup_zero h0) hlive, fun _ => ⟨rfl, fun _ => ⟨k, σ₁, hp, h0, hfits, rfl⟩⟩⟩
    · exact ⟨fun hlive => absurd h0 hlive, fun _ => ⟨rfl, fun hdir => absurd hdir hfile⟩⟩

/-- An entry that is there is refused. -/
theorem mkdir_taken (hlive : sv.fs.lookup d c ≠ 0) :
    ∃ resp sv', serve sv (.mkdir (some path) cur) = some (resp, sv') ∧ resp.ret = ERROR ∧ sv.fs.Unchanged g sv'.fs := by
  obtain ⟨r, sv', σ, hrun, hdone, hrel⟩ := h.returns (handle_mkdir_steady h.caches.tidy)
    (handle_mkdir_taken_total h.wellFormed h.inRange hcur hsup hne hlive) (mkdir_spec h hcur hpos hsup hne hroom htable hblocks)
  obtain ⟨rfl, rfl⟩ := hdone.1 hlive
  refine ⟨{ ret := ERROR }, sv', ?_, rfl, hrel.agrees.unchanged⟩
  rw [serve_handler (by simp), Request.handler, run_bind, hrun]
  rfl

omit h hpos in
/-- A name that fits is safe. -/
theorem mkdir_safe (hdir : sv.fs.isDir d) (hfits : c.length ≤ DIRNAMELEN) : Request.Safe g sv.fs (.mkdir (some path) cur) := by
  refine ⟨hcur, fun d' c' hsup' _ => ?_, fun d' c' k σ₁ hsup' hp _ => ?_⟩
  · obtain ⟨rfl, rfl⟩ := Prod.mk.inj (hsup'.symm.trans hsup)
    exact ⟨hdir, hroom⟩
  · obtain ⟨rfl, rfl⟩ := Prod.mk.inj (hsup'.symm.trans hsup)
    exact ⟨hfits, hp.next_block hblocks htable⟩

/-- What `mkdir` does where it is answered. -/
theorem mkdir_does {resp : Response} (hserve : serve sv (.mkdir (some path) cur) = some (resp, sv')) :
    ∃ σ', Rel g sv' σ' ∧ MkdirDid sv.fs d c resp.ret σ' := by
  have hspec : wp g (Request.mkdir (some path) cur).handler sv.fs fun resp σ' => MkdirDid sv.fs d c resp.ret σ' :=
    wp_bind.mpr (wp_mono (fun _ _ hdone => wp_pure hdone) (mkdir_spec h hcur hpos hsup hne hroom htable hblocks))
  rw [serve_handler (by simp)] at hserve
  obtain ⟨σ', hQ, hrel⟩ := run_sound h.caches.rel hspec hserve
  exact ⟨σ', hrel, hQ⟩

end

section

variable (h : sv.InOrder g) (hcur : g.isInode cur) (hpos : 0 < cur) (hused : cur ∉ sv.fs.i_head) (hstr : 0 ∉ path)
  (hshort : 8 * g.table ≤ 2 ^ 15) (hinode : sv.fs.i_head ≠ []) (hblocks : 2 ≤ sv.fs.b_head.length) (htable : ∀ b ∈ sv.fs.b_head, ¬ g.isTable b)
include h hcur hpos hused hstr hshort hinode hblocks htable

/-- The directory that `mkdir` has made. -/
theorem mkdir_new {resp : Response} (hpar : sv.fs.parent path cur = some d)
    (hsup : sv.fs.superDir (from_root path cur).1 (from_root path cur).2 = (d, basename path)) (hroom : sv.fs.RoomFor g d (basename path))
    (hdir : sv.fs.isDir d) (hbase : basename path ≠ []) (hfits : (basename path).length ≤ DIRNAMELEN)
    (h0 : sv.fs.lookup d (basename path) = 0) (hserve : serve sv (.mkdir (some path) cur) = some (resp, sv')) :
    NewDir g sv.fs.toView sv'.fs.toView d (basename path) sv.fs.nextInode (sv.fs.block (sv.fs.headDirBlock d (basename path))) := by
  have hw := h.wellFormed
  have hd := parent_isInode hw hcur hpar
  obtain ⟨σ', hrel, hdid⟩ := mkdir_does h.toOnDisk hcur hpos hsup (isInode_ne_error hd) hroom htable hblocks hserve
  obtain ⟨k, τ, hp, hfree, _, rfl⟩ := (hdid.2 h0).2 hdir
  obtain ⟨hblock, hdata⟩ := hp.next_block hblocks htable
  have hne : sv.fs.nextInode ≠ d := fun he => parent_used hw h.freeApart hcur hused hpar (he ▸ nextInode_mem hinode)
  obtain ⟨hw', hnew⟩ := newDir_made hp hw hd hdir hroom hfits hshort hblock hdata h.named (isName_basename hstr hbase) hne hfree
  exact hnew.agrees hw' hd hw.nextInode hrel.agrees

end

end Yfs
