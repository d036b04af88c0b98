import Yfs.Boot.Spec
import Yfs.Outcome

/-! # The scan of `make_free_lists` -/

namespace Yfs

open Cache Queue

/-! ## Reading an unchanged disk -/

/-- A block is its eight inodes. -/
theorem Block.ext_inode {a b : Block} (h : ∀ k, k < 8 → a.inode k = b.inode k) : a = b := by
  refine Mem.ext_get fun k hk => ?_
  have h64 : k % 64 < 64 := Nat.mod_lt k (by decide)
  have h8 : Mem.get (a.inode (k / 64)) (k % 64) = Mem.get (b.inode (k / 64)) (k % 64) := by rw [h (k / 64) (by omega)]
  rwa [Block.inode, Block.inode, Mem.get_sub _ _ _ _ h64, Mem.get_sub _ _ _ _ h64, Nat.div_add_mod] at h8

/-- The caches over `d` hold what `d` holds. -/
structure Mirrors (g : Geometry) (d : Disk) (s : Store) : Prop where
  blocks : BlocksOk s
  inodes : InodesOk g s
  sectors : s.num_sectors = d.num_sectors
  /-- Every slot of the table counts. -/
  slots : g.inodes = 8 * g.table
  view_b : ∀ b, logicalBlock s b = d.sectors b
  view_i : ∀ i, g.isInode i → logicalInode s i = d.view.inode i
  marked : MarkedBlocks s fun _ => False

variable {g : Geometry} {d : Disk} {s s' : Store} {b i : Int}

theorem mirrors_start (hslots : g.inodes = 8 * g.table) : Mirrors g d d.server.store := by
  refine ⟨⟨List.nodup_nil, ?_, ?_⟩, ⟨List.nodup_nil, ?_, ?_⟩, rfl, hslots, fun _ => rfl, fun _ _ => rfl, ?_⟩ <;>
    simp [Disk.server, emptyCaches, BlocksDiffer]

theorem Mirrors.slot (h : Mirrors g d s) (i : Int) : logicalSlot s i = d.view.inode i := by
  rw [logicalSlot, h.view_b, Disk.view]

theorem Mirrors.blockStep (h : Mirrors g d s) (hs : BlockStep s s') : Mirrors g d s' :=
  ⟨hs.ok, hs.inodesOk h.inodes, hs.sectors.trans h.sectors, h.slots, fun b => (hs.view b).trans (h.view_b b),
    fun i hi => (hs.inode i).trans (h.view_i i hi), hs.marked _ h.marked⟩

theorem Mirrors.inodeStep (h : Mirrors g d s) (hs : InodeStep g s s') : Mirrors g d s' := by
  have hslot : ∀ i, g.isInode i → logicalSlot s' i = d.view.inode i := by
    intro i hi
    rcases hs.slot i hi with he | he
    · rw [he, h.slot]
    · rw [he, h.view_i i hi]
  refine ⟨hs.blocks, hs.inodes, hs.sectors.trans h.sectors, h.slots, fun b => ?_, fun i hi => (hs.view_i i hi).trans (h.view_i i hi),
    hs.marked_b _ h.marked⟩
  by_cases ht : g.isTable b
  · refine Block.ext_inode fun k hk => ?_
    -- Slot `k` of table block `b` is that of inode `8 * (b - 1) + k`.
    have hb : tableBlock (8 * (b - 1) + k) = b := by
      rw [tableBlock_eq _ (by have := ht.1; omega)]
      omega
    have hk' : (tableSlot (8 * (b - 1) + k)).toNat = k := by
      rw [tableSlot_eq _ (by have := ht.1; omega)]
      omega
    have hi : g.isInode (8 * (b - 1) + k) := ⟨by have := ht.1; omega, by have := ht.2; have := h.slots; omega⟩
    have hs := hslot _ hi
    simp only [logicalSlot, Disk.view, hb, hk'] at hs
    exact hs
  · rw [hs.view_b b ht, h.view_b]

/-! ## Commands -/

theorem get_b_outcome {sv : Server} (hm : Mirrors g d sv.store) :
    Outcome (get_b b) sv (0 ≤ b ∧ b < d.num_sectors) fun p sv' =>
      (∃ item, deref sv'.store.cache_b_queue p = some item ∧ item.data = d.sectors b) ∧
        BlockStep sv.store sv'.store ∧ sv'.toGlobals = sv.toGlobals := by
  rw [← hm.sectors, ← hm.view_b]
  exact Outcome.get_b hm.blocks

/-! ## The pointers of one inode -/

theorem chain_end (v : View) (i : Int) : v.chain i 140 = [] := rfl

theorem chain_zero {v : View} {n : Nat} (h : v.pointer i n = 0) : v.chain i n = [] := by
  unfold View.chain
  cases hk : 140 - n with
  | zero => rfl
  | succ k => rw [List.range'_succ, List.map_cons, List.takeWhile_cons, h]; rfl

theorem chain_cons {v : View} {n : Nat} (hn : n < 140) (h : v.pointer i n ≠ 0) :
    v.chain i n = v.pointer i n :: v.chain i (n + 1) := by
  unfold View.chain
  rw [show 140 - n = 140 - (n + 1) + 1 by omega, List.range'_succ, List.map_cons, List.takeWhile_cons, if_pos (by simpa using h)]

section

variable {sv : Server} {p : Ptr} {item : CacheItem Inode} {n : Nat}

theorem scan_pointer_outcome (hm : Mirrors g d sv.store) (hp : deref sv.store.cache_i_queue p = some item)
    (hd : item.data = d.view.inode i) :
    Outcome (scan_pointer p n) sv (12 ≤ n → 0 ≤ d.view.indirect i ∧ d.view.indirect i < d.num_sectors)
      fun b sv' => b = d.view.pointer i n ∧ BlockStep sv.store sv'.store ∧ sv'.toGlobals = sv.toGlobals := by
  unfold scan_pointer
  by_cases h12 : n < 12
  · refine .of_iff (show _ ↔ True ∧ True by simp; omega) ((Outcome.readInode hp).bind fun ino sv' h => ?_)
    obtain ⟨rfl, rfl⟩ := h
    rw [if_pos (by simp only [NUM_DIRECT]; omega), directField_lt h12]
    refine .ret ⟨?_, .refl hm.blocks, rfl⟩
    rw [View.pointer, dif_pos h12, hd]
  · refine .of_iff (show _ ↔ True ∧ (0 ≤ d.view.indirect i ∧ d.view.indirect i < d.num_sectors) ∧ True ∧ True by
      simp; omega) ((Outcome.readInode hp).bind fun ino sv' h => ?_)
    obtain ⟨rfl, rfl⟩ := h
    rw [if_neg (by simp only [NUM_DIRECT]; omega), hd]
    refine (get_b_outcome hm).bind fun q sv₁ hgot => ?_
    obtain ⟨⟨blk, hq, hblk⟩, hstep, hglob⟩ := hgot
    refine (Outcome.readBlock hq).bind fun v sv₂ h => ?_
    obtain ⟨rfl, rfl⟩ := h
    refine .ret ⟨?_, hstep, hglob⟩
    have hk : ((n : Int) - NUM_DIRECT).toNat = n - 12 := by simp only [NUM_DIRECT]; omega
    rw [View.pointer, dif_neg h12, hblk, hk]
    rfl

theorem chainOk_end {nb : Int} (hind : 0 ≤ d.view.indirect i ∧ d.view.indirect i < d.num_sectors) :
    d.view.ChainOk nb d.num_sectors i 140 :=
  ⟨fun b hb => absurd hb (by rw [chain_end]; exact List.not_mem_nil), fun _ => hind⟩

theorem chainOk_zero {nb : Int} (h0 : d.view.pointer i n = 0) : d.view.ChainOk nb d.num_sectors i n ↔
    (12 ≤ n → 0 ≤ d.view.indirect i ∧ d.view.indirect i < d.num_sectors) := by
  refine ⟨fun h h12 => h.indirect (by omega), fun h => ⟨fun b hb => ?_, fun h12 => h ?_⟩⟩
  · rw [chain_zero h0] at hb
    cases hb
  · rwa [chain_zero h0] at h12

theorem chainOk_cons (nb : Int) (hn : n < 140) (h0 : d.view.pointer i n ≠ 0) : d.view.ChainOk nb d.num_sectors i n ↔
    (0 ≤ d.view.pointer i n ∧ d.view.pointer i n < nb) ∧ d.view.ChainOk nb d.num_sectors i (n + 1) := by
  have hc := chain_cons hn h0
  constructor
  · intro h
    refine ⟨h.range _ (hc ▸ List.mem_cons_self), fun b hb => h.range b (hc ▸ List.mem_cons_of_mem _ hb), fun h12 => h.indirect ?_⟩
    rw [hc, List.length_cons]
    omega
  · rintro ⟨hr, h⟩
    refine ⟨fun b hb => ?_, fun h12 => h.indirect ?_⟩
    · rw [hc] at hb
      rcases List.mem_cons.mp hb with rfl | hb
      · exact hr
      · exact h.range b hb
    · rw [hc, List.length_cons] at h12
      omega

theorem mark_pointers_outcome {fuel : Nat} {nb k : Int} {used : Int → Bool} (hm : Mirrors g d sv.store)
    (hp : deref sv.store.cache_i_queue p = some item) (hd : item.data = d.view.inode i) (hk : k = n) (hn : n ≤ 140)
    (hind : 12 < n → 0 ≤ d.view.indirect i ∧ d.view.indirect i < d.num_sectors) (hf : 140 < n + fuel) :
    Outcome (mark_pointers p nb fuel k used) sv (d.view.ChainOk nb d.num_sectors i n) fun used' sv' =>
      (∀ b, used' b = true ↔ used b = true ∨ b ∈ d.view.chain i n) ∧ BlockStep sv.store sv'.store ∧
        sv'.toGlobals = sv.toGlobals := by
  induction fuel generalizing sv n k used with
  | zero => omega
  | succ fuel ih =>
    unfold mark_pointers
    subst hk
    by_cases hmax : n = 140
    · subst hmax
      rw [if_pos (by decide)]
      refine .of_iff (iff_true_intro (chainOk_end (hind (by omega)))) (.ret ⟨fun b => ?_, .refl hm.blocks, rfl⟩)
      rw [chain_end]
      simp
    rw [if_neg (by simp only [MAX_BLOCKS]; omega)]
    by_cases h0 : d.view.pointer i n = 0
    · refine .of_iff (show _ ↔ (12 ≤ n → 0 ≤ d.view.indirect i ∧ d.view.indirect i < d.num_sectors) ∧ True by
        rw [chainOk_zero h0, and_true]) ((scan_pointer_outcome hm hp hd).bind ?_)
      rintro b sv₁ ⟨rfl, hstep, hglob⟩
      rw [if_pos h0]
      refine .ret ⟨fun b => ?_, hstep, hglob⟩
      rw [chain_zero h0]
      simp
    have hcons := chainOk_cons nb (by omega) h0
    by_cases hsec : 12 ≤ n → 0 ≤ d.view.indirect i ∧ d.view.indirect i < d.num_sectors
    · refine .of_iff (show _ ↔ (12 ≤ n → 0 ≤ d.view.indirect i ∧ d.view.indirect i < d.num_sectors) ∧
        d.view.ChainOk nb d.num_sectors i n by simp only [iff_and_self]; exact fun _ => hsec)
        ((scan_pointer_outcome hm hp hd).bind ?_)
      rintro b sv₁ ⟨rfl, hstep, hglob⟩
      rw [if_neg h0, mark_used]
      by_cases hr : 0 ≤ d.view.pointer i n ∧ d.view.pointer i n < nb
      · rw [if_pos hr]
        have hp₁ : deref sv₁.store.cache_i_queue p = some item := by rwa [hstep.inodes]
        refine .of_iff (hcons.trans (and_iff_right hr)) (.mono (ih (hm.blockStep hstep) hp₁ (by omega) (by omega)
          (fun h => hsec (by omega)) (by omega)) ?_)
        rintro used' sv₂ ⟨hused, hstep', hglob'⟩
        refine ⟨fun b => ?_, hstep.trans hstep', hglob'.trans hglob⟩
        rw [hused, chain_cons (by omega) h0, List.mem_cons, Function.update_apply]
        split
        case isTrue he => simp [he]
        case isFalse he => simp [he]
      · rw [if_neg hr]
        exact .of_iff (by rw [hcons]; simp [hr]) .undefined
    · refine .of_iff (iff_false_intro fun h => hsec fun h12 => h.indirect (by omega))
        ((scan_pointer_outcome hm hp hd).bind_undef hsec)

end

/-! ## The inodes -/

theorem ints_succ (a : Int) (k : Nat) : ints a (k + 1) = a :: ints (a + 1) k := by
  simp only [ints, List.range_succ_eq_map, List.map_cons, List.map_map]
  refine congrArg₂ List.cons (by simp) (List.map_congr_left fun j _ => ?_)
  simp only [Function.comp_apply]
  omega

theorem ints_add (a : Int) (j k : Nat) : ints a (j + k) = ints a j ++ ints (a + j) k := by
  simp only [ints, List.range_add, List.map_append, List.map_map]
  refine congrArg _ (List.map_congr_left fun m _ => ?_)
  simp only [Function.comp_apply]
  omega

theorem mem_ints {a x : Int} {k : Nat} : x ∈ ints a k ↔ a ≤ x ∧ x < a + k := by
  simp only [ints, List.mem_map, List.mem_range]
  constructor
  · rintro ⟨j, hj, rfl⟩
    omega
  · intro h
    exact ⟨(x - a).toNat, by omega, by omega⟩

theorem mem_scannedInodes {num_inodes : Int} : i ∈ scannedInodes num_inodes ↔ 1 ≤ i ∧ i < scanEnd num_inodes := by
  rw [scannedInodes, mem_ints]
  unfold scanEnd
  split <;> omega

theorem nodup_ints (a : Int) (k : Nat) : (ints a k).Nodup := by
  refine List.Nodup.map_on (fun x _ y _ h => ?_) List.nodup_range
  omega

/-- The inode can be scanned. -/
def InodeOk (d : Disk) (nb i : Int) : Prop := d.view.isFree i = false → d.view.ChainOk nb d.num_sectors i 0

/-- The inodes of `l` have been scanned. -/
structure Scanned (g : Geometry) (d : Disk) (l : List Int) (sv sv' : Server) (used used' : Int → Bool) : Prop where
  mirrors : Mirrors g d sv'.store
  i_head : sv'.i_head = (l.filter d.view.isFree).reverse ++ sv.i_head
  b_head : sv'.b_head = sv.b_head
  used : ∀ b, used' b = true ↔ used b = true ∨ d.view.Marked l b

section

variable {sv sv₁ sv₂ : Server} {used used₁ used₂ : Int → Bool} {l m : List Int} {nb : Int}

theorem marked_append {v : View} : v.Marked (l ++ m) b ↔ v.Marked l b ∨ v.Marked m b := by
  simp only [View.Marked, List.mem_append, or_and_right, exists_or]

theorem marked_single {v : View} : v.Marked [i] b ↔ v.isFree i = false ∧ b ∈ v.chain i 0 := by
  simp only [View.Marked, List.mem_singleton, exists_eq_left]

theorem Scanned.nil (hm : Mirrors g d sv.store) : Scanned g d [] sv sv used used :=
  ⟨hm, rfl, rfl, fun b => by simp [View.Marked]⟩

theorem Scanned.append (h : Scanned g d l sv sv₁ used used₁) (h' : Scanned g d m sv₁ sv₂ used₁ used₂) :
    Scanned g d (l ++ m) sv sv₂ used used₂ := by
  refine ⟨h'.mirrors, ?_, h'.b_head.trans h.b_head, fun b => ?_⟩
  · rw [h'.i_head, h.i_head, List.filter_append, List.reverse_append, List.append_assoc]
  · rw [h'.used, h.used, marked_append, or_assoc]

theorem get_i_outcome (hm : Mirrors g d sv.store) (hs : g.sectors = d.num_sectors) (hi : g.isInode i) :
    Outcome (get_i i) sv True fun p sv' =>
      (∃ item, deref sv'.store.cache_i_queue p = some item ∧ item.data = d.view.inode i) ∧
        Mirrors g d sv'.store ∧ sv'.toGlobals = sv.toGlobals := by
  refine (Outcome.get_i hm.blocks hm.inodes (hm.sectors.trans hs.symm) hi).mono fun p sv' ⟨hitem, hstep, hglob⟩ => ?_
  rw [hm.view_i i hi] at hitem
  exact ⟨hitem, hm.inodeStep hstep, hglob⟩

theorem scan_inode_outcome (hm : Mirrors g d sv.store) (hs : g.sectors = d.num_sectors) (hi : g.isInode i) :
    Outcome (scan_inode nb i used) sv (InodeOk d nb i) fun used' sv' => Scanned g d [i] sv sv' used used' := by
  unfold scan_inode
  refine .of_iff (show _ ↔ True ∧ True ∧ InodeOk d nb i by simp) ((get_i_outcome hm hs hi).bind ?_)
  rintro p sv₁ ⟨⟨item, hp, hd⟩, hm₁, hglob⟩
  refine (Outcome.readInode hp).bind ?_
  rintro ino sv₂ ⟨rfl, rfl⟩
  rw [hd]
  cases hfree : d.view.isFree i with
  | true =>
    have htype : (d.view.inode i).type = INODE_FREE := by simpa [View.isFree] using hfree
    rw [if_pos htype]
    refine .of_iff (iff_true_intro fun h => absurd hfree (by simp [h])) ⟨fun _ => ?_, fun h => absurd trivial h⟩
    refine ⟨_, _, rfl, hm₁, ?_, ?_, fun b => ?_⟩
    · simp [hfree, hglob]
    · simp [hglob]
    · rw [marked_single]
      simp [hfree]
  | false =>
    have htype : (d.view.inode i).type ≠ INODE_FREE := by simpa [View.isFree] using hfree
    rw [if_neg htype]
    refine .of_iff (show _ ↔ d.view.ChainOk nb d.num_sectors i 0 by simp [InodeOk, hfree])
      (.mono (mark_pointers_outcome hm₁ hp hd rfl (by omega) (fun h => by omega) (by decide)) ?_)
    rintro used' sv₃ ⟨hused, hstep, hglob'⟩
    refine ⟨hm₁.blockStep hstep, ?_, ?_, fun b => ?_⟩
    · simp [hfree, hglob', hglob]
    · rw [hglob', hglob]
    · rw [hused, marked_single]
      simp [hfree]

theorem scan_inodes_outcome {fuel k : Nat} {bn : Int} (hm : Mirrors g d sv.store) (hs : g.sectors = d.num_sectors)
    (hk : i + k = 8 * bn) (hi : 0 ≤ i) (hbn : bn ≤ g.table) (hf : k < fuel) :
    Outcome (scan_inodes nb bn fuel i used) sv (∀ j ∈ ints i k, InodeOk d nb j) fun r sv' =>
      r.1 = 8 * bn ∧ Scanned g d (ints i k) sv sv' used r.2 := by
  have h8 : Int.tdiv BLOCKSIZE INODESIZE = 8 := by decide
  induction fuel generalizing sv i k used with
  | zero => omega
  | succ fuel ih =>
    unfold scan_inodes
    rw [h8]
    cases k with
    | zero =>
      rw [if_neg (by omega)]
      exact .of_iff (by simp [ints]) (.ret ⟨by simp only; omega, .nil hm⟩)
    | succ k =>
      rw [if_pos (by omega)]
      refine .of_iff (show _ ↔ InodeOk d nb i ∧ ∀ j ∈ ints (i + 1) k, InodeOk d nb j by
        rw [ints_succ, List.forall_mem_cons]) ((scan_inode_outcome hm hs ⟨hi, by have := hm.slots; omega⟩).bind ?_)
      intro used₁ sv₁ h
      refine .mono (ih h.mirrors (by omega) (by omega) (by omega)) ?_
      rintro ⟨r, used₂⟩ sv₂ ⟨rfl, h'⟩
      exact ⟨rfl, ints_succ i k ▸ h.append h'⟩

/-- Where the scan ends that has come to inode `i`. -/
def tableEnd (num_inodes i : Int) : Int := if num_inodes ≤ i then i else 8 * ((num_inodes + 7) / 8)

theorem scan_table_outcome {fuel : Nat} {bn ni : Int} (hm : Mirrors g d sv.store) (hs : g.sectors = d.num_sectors)
    (ht : g.table = ni / 8 + 1) (hfits : g.table + 1 < d.num_sectors) (hi : 0 ≤ i) (hb : 8 * (bn - 1) ≤ i ∧ i < 8 * bn)
    (hf : (ni - i).toNat < fuel) :
    Outcome (scan_table nb ni fuel i bn used) sv (∀ j ∈ ints i (tableEnd ni i - i).toNat, InodeOk d nb j)
      fun used' sv' => Scanned g d (ints i (tableEnd ni i - i).toNat) sv sv' used used' := by
  induction fuel generalizing sv i bn used with
  | zero => omega
  | succ fuel ih =>
    unfold scan_table
    by_cases hend : ni ≤ i
    · rw [if_neg (by omega), tableEnd, if_pos hend, Int.sub_self]
      exact .of_iff (by simp [ints]) (.ret (.nil hm))
    rw [if_pos (by omega)]
    have hlen : (tableEnd ni i - i).toNat = (8 * bn - i).toNat + (tableEnd ni (8 * bn) - 8 * bn).toNat := by
      unfold tableEnd
      rw [if_neg hend]
      split <;> omega
    have hmid : i + ((8 * bn - i).toNat : Int) = 8 * bn := by omega
    rw [hlen, ints_add, hmid]
    refine .of_iff (show _ ↔ (∀ j ∈ ints i (8 * bn - i).toNat, InodeOk d nb j) ∧
        (0 ≤ bn + 1 ∧ bn + 1 < d.num_sectors) ∧
        ∀ j ∈ ints (8 * bn) (tableEnd ni (8 * bn) - 8 * bn).toNat, InodeOk d nb j by
      rw [List.forall_mem_append, and_iff_right (show 0 ≤ bn + 1 ∧ bn + 1 < d.num_sectors by omega)])
      ((scan_inodes_outcome hm hs hmid hi (by omega) (by omega)).bind ?_)
    rintro ⟨r, used₁⟩ sv₁ ⟨rfl, h⟩
    refine (get_b_outcome h.mirrors).bind ?_
    rintro q sv₂ ⟨_, hstep, hglob⟩
    have h₂ : Scanned g d (ints i (8 * bn - i).toNat) sv sv₂ used used₁ :=
      ⟨h.mirrors.blockStep hstep, by rw [hglob, h.i_head], by rw [hglob, h.b_head], h.used⟩
    refine .mono (ih h₂.mirrors (by omega) (by omega) (by omega)) fun used₃ sv₃ h₃ => h₂.append h₃

end

/-! ## The whole boot -/

theorem push_unused_i_head (used : Int → Bool) (left : Nat) (a : Int) (v : Globals) :
    (push_unused used left a v).i_head = v.i_head := by
  induction left generalizing a v with
  | zero => rfl
  | succ left ih =>
    rw [push_unused, ih]
    split <;> rfl

theorem push_unused_b_head (used : Int → Bool) (left : Nat) (a : Int) (v : Globals) :
    (push_unused used left a v).b_head = ((ints a left).filter fun b => !used b).reverse ++ v.b_head := by
  induction left generalizing a v with
  | zero => rfl
  | succ left ih =>
    rw [push_unused, ih, ints_succ, List.filter_cons]
    cases used a <;> simp

/-- Every inode that the scan looks at can be scanned. -/
def BootOk (d : Disk) (num_inodes : Int) : Prop := ∀ i ∈ scannedInodes num_inodes, InodeOk d d.num_sectors i

/-- What the server holds after `make_free_lists`. -/
structure Booted (g : Geometry) (d : Disk) (num_inodes : Int) (sv : Server) : Prop where
  mirrors : Mirrors g d sv.store
  i_head : sv.i_head = ((scannedInodes num_inodes).filter d.view.isFree).reverse
  nodup : sv.b_head.Nodup
  b_head : ∀ b, b ∈ sv.b_head ↔ (0 < b ∧ b < d.num_sectors) ∧ ¬ d.view.Marked (scannedInodes num_inodes) b

theorem Booted.mem_i_head {num_inodes : Int} {sv : Server} (h : Booted g d num_inodes sv) :
    i ∈ sv.i_head ↔ i ∈ scannedInodes num_inodes ∧ d.view.isFree i = true := by
  rw [h.i_head, List.mem_reverse, List.mem_filter]

theorem Booted.nodup_i_head {num_inodes : Int} {sv : Server} (h : Booted g d num_inodes sv) : sv.i_head.Nodup := by
  rw [h.i_head]
  exact List.nodup_reverse.mpr ((nodup_ints 1 _).filter _)

/-- The geometry of an image. -/
def Image.geometry {num_inodes : Int} (h : Image d num_inodes) : Geometry where
  table := tableBlocks num_inodes
  sectors := d.num_sectors
  inodes := 8 * tableBlocks num_inodes
  table_pos := by
    have := h.pos
    rw [tableBlocks_eq]
    omega
  table_fits := by
    have := h.fits
    omega
  inodes_pos := by
    have := h.pos
    rw [tableBlocks_eq]
    omega
  inodes_fit := Int.le_refl _

/-- The geometry of a formatted disk. -/
def Formatted.geometry {num_inodes : Int} (h : Formatted d num_inodes) : Geometry where
  table := tableBlocks num_inodes
  sectors := d.num_sectors
  inodes := 8 * tableBlocks num_inodes
  table_pos := by
    have := h.pos
    rw [tableBlocks_eq]
    omega
  table_fits := by
    have := h.fits
    omega
  inodes_pos := by
    have := h.pos
    rw [tableBlocks_eq]
    omega
  inodes_fit := Int.le_refl _

/-- **What boot does.** It returns unless a scan leaves the disk, with the scanned free inodes and the unmarked
blocks on the free lists. -/
theorem Formatted.boot_spec {num_inodes : Int} (h : Formatted d num_inodes) :
    (BootOk d num_inodes → ∃ sv, boot d = some sv ∧ Booted h.geometry d num_inodes sv) ∧
      (¬ BootOk d num_inodes → boot d = none) := by
  have hout : Outcome make_free_lists d.server (BootOk d num_inodes) fun _ sv => Booted h.geometry d num_inodes sv := by
    have hpos := h.pos
    have hfits := h.fits
    have htab := tableBlocks_eq num_inodes
    unfold make_free_lists
    refine .of_iff (show _ ↔ (0 ≤ (1 : Int) ∧ 1 < d.num_sectors) ∧ True ∧ BootOk d num_inodes ∧ True by
      rw [and_iff_right (show 0 ≤ (1 : Int) ∧ 1 < d.num_sectors by omega)]
      simp) ((get_b_outcome (g := h.geometry) (mirrors_start rfl)).bind ?_)
    rintro q sv₁ ⟨⟨blk, hq, hblk⟩, hstep, hglob⟩
    refine (Outcome.readBlock hq).bind ?_
    rintro header sv₂ ⟨rfl, rfl⟩
    rw [hblk]
    simp only [h.header_blocks, h.header_inodes]
    rw [mark_used, if_pos (by omega)]
    have hm : Mirrors h.geometry d sv₂.store := (mirrors_start rfl).blockStep hstep
    refine (scan_table_outcome hm rfl htab hfits (by decide) (by decide) ?_).bind ?_
    · simp only [ROOTINODE]
      omega
    intro used sv₃ hsc
    refine ⟨fun _ => ⟨(), _, rfl, hsc.mirrors, ?_, ?_, fun b => ?_⟩, fun h => absurd trivial h⟩
    all_goals simp only
    · rw [push_unused_i_head, hsc.i_head, hglob]
      exact List.append_nil _
    all_goals rw [push_unused_b_head, hsc.b_head, hglob]
    · exact (List.append_nil _).symm ▸ List.nodup_reverse.mpr ((nodup_ints 0 _).filter _)
    · have hu := hsc.used b
      rw [Function.update_apply] at hu
      change b ∈ _ ++ [] ↔ _ ∧ ¬ d.view.Marked (ints ROOTINODE (tableEnd num_inodes ROOTINODE - ROOTINODE).toNat) b
      rw [List.append_nil, List.mem_reverse, List.mem_filter, mem_ints, Bool.not_eq_true', ← Bool.not_eq_true, hu, not_or]
      constructor
      · rintro ⟨hr, h0, hmk⟩
        have hne : b ≠ 0 := fun h => h0 (by rw [if_pos h])
        exact ⟨by omega, hmk⟩
      · rintro ⟨hr, hmk⟩
        exact ⟨by omega, by rw [if_neg (by omega)]; exact Bool.false_ne_true, hmk⟩
  exact ⟨fun hok => by
    obtain ⟨_, sv, hr, hb⟩ := hout.returns hok
    exact ⟨sv, by rw [boot, hr]; rfl, hb⟩, fun hn => by rw [boot, hout.undef hn]; rfl⟩

theorem boot_spec {num_inodes : Int} (h : Image d num_inodes) :
    (BootOk d num_inodes → ∃ sv, boot d = some sv ∧ Booted h.geometry d num_inodes sv) ∧
      (¬ BootOk d num_inodes → boot d = none) := h.formatted.boot_spec

theorem Image.booted {d : Disk} {num_inodes : Int} {sv : Server} (h : Image d num_inodes) (hboot : Yfs.boot d = some sv) :
    Booted h.geometry d num_inodes sv := by
  by_cases hok : BootOk d num_inodes
  · obtain ⟨sv', hsv, hb⟩ := (boot_spec h).1 hok
    obtain rfl := Option.some.inj (hboot.symm.trans hsv)
    exact hb
  · rw [(boot_spec h).2 hok] at hboot
    cases hboot

end Yfs
