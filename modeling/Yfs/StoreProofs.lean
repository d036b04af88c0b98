import Yfs.Store

/-! # What the caches keep

Each cache operation keeps the logical view. `get_b_spec` and `get_i_spec` say the rest.
-/

namespace Yfs

open Queue Cache

/-! ## The block cache -/

/-- The shape of the block cache. -/
structure BlocksOk (s : Store) : Prop where
  distinct : Distinct CacheItem.c_item_num s.cache_b_queue
  range : ∀ item ∈ s.cache_b_queue, s.isSector item.c_item_num
  size : s.cache_b_queue.length ≤ BLOCK_CACHESIZE

/-- A cached block that differs from its sector has `P`. -/
def BlocksDiffer (s : Store) (P : CacheItem Block → Prop) : Prop :=
  ∀ item ∈ s.cache_b_queue, item.data ≠ s.sectors item.c_item_num → P item

/-- A cached block that differs from its sector is dirty, or `b` is exempt. -/
abbrev MarkedBlocks (s : Store) (exempt : Int → Prop) : Prop :=
  BlocksDiffer s fun item => item.dirty = true ∨ exempt item.c_item_num

/-- A step of the block cache that no reader notices. -/
structure BlockStep (s s' : Store) : Prop where
  ok : BlocksOk s'
  sectors : s'.num_sectors = s.num_sectors
  inodes : s'.cache_i_queue = s.cache_i_queue
  fresh : s'.fresh_dirty = s.fresh_dirty
  view : ∀ b, logicalBlock s' b = logicalBlock s b
  marked : ∀ P, BlocksDiffer s P → BlocksDiffer s' P

theorem BlockStep.refl {s : Store} (h : BlocksOk s) : BlockStep s s :=
  ⟨h, rfl, rfl, rfl, fun _ => rfl, fun _ hm => hm⟩

theorem BlockStep.trans {s t u : Store} (h : BlockStep s t) (h' : BlockStep t u) : BlockStep s u :=
  ⟨h'.ok, h'.sectors.trans h.sectors, h'.inodes.trans h.inodes, h'.fresh.trans h.fresh,
    fun b => (h'.view b).trans (h.view b), fun e hm => h'.marked e (h.marked e hm)⟩

theorem BlockStep.slot {s s' : Store} (h : BlockStep s s') (i : Int) : logicalSlot s' i = logicalSlot s i := by
  rw [logicalSlot, h.view, logicalSlot]

theorem BlockStep.inode {s s' : Store} (h : BlockStep s s') (i : Int) :
    logicalInode s' i = logicalInode s i := by
  simp only [logicalInode, h.inodes, h.slot]

theorem logicalBlock_cached {s : Store} (h : BlocksOk s) {item : CacheItem Block}
    (hm : item ∈ s.cache_b_queue) : logicalBlock s item.c_item_num = item.data := by
  simp only [logicalBlock, query_ht, lookup_of_mem h.distinct hm]

theorem touch_b_step {s : Store} (h : BlocksOk s) {item : CacheItem Block} (hm : item ∈ s.cache_b_queue) :
    BlockStep s { s with cache_b_queue := right_enqueue item (right_dequeue s.cache_b_queue item) } := by
  have hmem : ∀ x, x ∈ touch CacheItem.c_item_num s.cache_b_queue item ↔ x ∈ s.cache_b_queue :=
    fun x => mem_touch h.distinct hm
  refine ⟨⟨h.distinct.touch, fun x hx => h.range x ((hmem x).mp hx), ?_⟩, rfl, rfl, rfl, ?_, ?_⟩
  · exact Nat.le_trans (Nat.le_of_eq (length_touch h.distinct hm)) h.size
  · intro b
    have hq : query_ht (right_enqueue item (right_dequeue s.cache_b_queue item)) b =
        query_ht s.cache_b_queue b := lookup_touch h.distinct hm
    simp only [logicalBlock, hq]
  · intro P hx x hxm
    exact hx x ((hmem x).mp hxm)

theorem evict_b_step {s s' : Store} (h : BlocksOk s) (he : evict_b s = some s') :
    BlockStep s s' ∧ s'.cache_b_queue.length < BLOCK_CACHESIZE ∧
      ∀ item ∈ s'.cache_b_queue, item ∈ s.cache_b_queue := by
  unfold evict_b at he
  split at he
  case h_1 => cases he
  case h_2 lru rest hq =>
    obtain rfl := Option.some.inj he
    have hd : Distinct CacheItem.c_item_num (lru :: rest) := hq ▸ h.distinct
    have hlru : s.isSector lru.c_item_num := h.range lru (by simp [hq])
    have hin : ∀ x ∈ rest, x ∈ s.cache_b_queue := fun x hx => by simp [hq, hx]
    have hsize := h.size
    rw [hq, List.length_cons] at hsize
    have hne : ∀ x ∈ rest, x.c_item_num ≠ lru.c_item_num := by
      simp only [Distinct, List.map_cons, List.nodup_cons, List.mem_map, not_exists, not_and] at hd
      exact hd.1
    rw [WriteSector, if_pos hlru]
    refine ⟨⟨⟨hd.tail, fun x hx => h.range x (hin x hx), by simp only; omega⟩, rfl, rfl, rfl, ?_, ?_⟩,
      by simp only; omega, hin⟩
    · intro b
      simp only [logicalBlock, query_ht, lookup_tail (k := b) hd, hq]
      by_cases hb : lru.c_item_num = b
      · subst hb
        have : lookup CacheItem.c_item_num (lru :: rest) lru.c_item_num = some lru :=
          lookup_of_mem hd List.mem_cons_self
        simp [this]
      · simp only [hb, if_false]
        split
        · rfl
        · rw [Function.update_of_ne (Ne.symm hb)]
    · intro P hx x hxm
      simp only [Function.update_of_ne (hne x hxm)]
      exact hx x (hin x hxm)

theorem insert_b_step {s : Store} (h : BlocksOk s) (b : Int) (hb : s.isSector b)
    (hlen : s.cache_b_queue.length < BLOCK_CACHESIZE) (hq : query_ht s.cache_b_queue b = none) (id n : Nat)
    (d : Bool) :
    BlockStep s { s with cache_b_queue := right_enqueue ⟨id, b, d, s.sectors b⟩ s.cache_b_queue, next_id := n } := by
  have hne : ∀ y ∈ s.cache_b_queue, y.c_item_num ≠ (⟨id, b, d, s.sectors b⟩ : CacheItem Block).c_item_num :=
    lookup_none hq
  refine ⟨⟨h.distinct.append_new hne, ?_, by simp [right_enqueue]; omega⟩, rfl, rfl, rfl, ?_, ?_⟩
  · intro x hx
    rcases List.mem_append.mp hx with hx | hx
    · exact h.range x hx
    · rw [List.mem_singleton.mp hx]; exact hb
  · intro c
    simp only [logicalBlock, query_ht, right_enqueue] at hq ⊢
    rw [lookup_append_new hne]
    by_cases hc : b = c
    · subst hc; simp [hq]
    · simp [hc]
  · intro P hx x hxm
    rcases List.mem_append.mp hxm with hxm | hxm
    · exact hx x hxm
    · rw [List.mem_singleton.mp hxm]; intro hf; exact absurd rfl hf

theorem deref_insert {α : Type} (q : CacheQueue α) (item : CacheItem α)
    (hq : query_ht q item.c_item_num = none) :
    deref (right_enqueue item q) ⟨item.c_item_num, item.id⟩ = some item := by
  have hne : ∀ y ∈ q, y.c_item_num ≠ item.c_item_num := lookup_none hq
  simp [deref, query_ht, right_enqueue, lookup_append_new hne]

theorem query_sub {s s' : Store} {b : Int} (h : ∀ item ∈ s'.cache_b_queue, item ∈ s.cache_b_queue)
    (hq : query_ht s.cache_b_queue b = none) : query_ht s'.cache_b_queue b = none := by
  have hne := lookup_none hq
  simp only [query_ht, lookup, List.find?_eq_none, decide_eq_true_eq]
  exact fun x hx => hne x (h x hx)

theorem makeRoom_b_step {s t : Store} (h : BlocksOk s) (hr : makeRoom_b s = some t) :
    BlockStep s t ∧ t.cache_b_queue.length < BLOCK_CACHESIZE ∧
      ∀ item ∈ t.cache_b_queue, item ∈ s.cache_b_queue := by
  unfold makeRoom_b at hr
  split at hr
  case isTrue => exact evict_b_step h hr
  case isFalse hfull =>
    obtain rfl := Option.some.inj hr
    exact ⟨.refl h, Nat.lt_of_le_of_ne h.size hfull, fun _ hx => hx⟩

/-- What `get_b` returns: the block, as the logical view has it. -/
theorem get_b_spec {s s' : Store} {b : Int} {p : Ptr} (h : BlocksOk s) (hg : get_b b s = some (p, s')) :
    p.num = b ∧ s.isSector b ∧ BlockStep s s' ∧
      ∃ item, deref s'.cache_b_queue p = some item ∧ item.data = logicalBlock s b := by
  unfold get_b at hg
  split at hg
  case h_1 item hq =>
    obtain ⟨rfl, rfl⟩ := Prod.mk.inj (Option.some.inj hg)
    obtain ⟨hm, rfl⟩ := lookup_mem hq
    refine ⟨rfl, h.range item hm, touch_b_step h hm, item, ?_, (logicalBlock_cached h hm).symm⟩
    have hq' : query_ht (right_enqueue item (right_dequeue s.cache_b_queue item)) item.c_item_num = some item :=
      (lookup_touch h.distinct hm).trans hq
    simp [deref, hq']
  case h_2 hq =>
    obtain ⟨t, ht, hg⟩ := Option.bind_eq_some_iff.mp hg
    obtain ⟨hst, hlen, hsub⟩ := makeRoom_b_step h ht
    have hqt := query_sub hsub hq
    obtain ⟨v, hv, hg⟩ := Option.bind_eq_some_iff.mp hg
    unfold ReadSector at hv
    split at hv
    case isFalse => cases hv
    case isTrue hb =>
      obtain rfl := Option.some.inj hv
      obtain ⟨rfl, rfl⟩ := Prod.mk.inj (Option.some.inj hg)
      have hb' : s.isSector b := by simpa [Store.isSector, hst.sectors] using hb
      refine ⟨rfl, hb', hst.trans (insert_b_step hst.ok b hb hlen hqt _ _ _), _,
        deref_insert _ ⟨t.next_id, b, false, t.sectors b⟩ hqt, ?_⟩
      rw [← hst.view b, logicalBlock, hqt]

theorem makeRoom_b_total {s : Store} : ∃ t, makeRoom_b s = some t := by
  unfold makeRoom_b evict_b
  split
  case isTrue hfull =>
    split
    case h_1 hq => rw [hq] at hfull; cases hfull
    case h_2 => exact ⟨_, rfl⟩
  case isFalse => exact ⟨_, rfl⟩

/-- On the disk `get_b` always returns. -/
theorem get_b_total {s : Store} {b : Int} (h : BlocksOk s) (hb : s.isSector b) :
    ∃ p s', get_b b s = some (p, s') := by
  unfold get_b
  split
  · exact ⟨_, _, rfl⟩
  · obtain ⟨t, ht⟩ := makeRoom_b_total (s := s)
    have hbt : t.isSector b := by
      simpa [Store.isSector, (makeRoom_b_step h ht).1.sectors] using hb
    exact ⟨_, _, by simp [ht, ReadSector, hbt]; exact ⟨rfl, rfl⟩⟩

/-! ## Stores through pointers -/

section Assign

variable {α : Type} {q q' : CacheQueue α} {p : Ptr} {num : Int} {v : α} {item : CacheItem α}

theorem deref_query (h : deref q p = some item) : query_ht q p.num = some item :=
  (Option.filter_eq_some_iff.mp h).1

theorem deref_mem (h : deref q p = some item) : item ∈ q ∧ item.c_item_num = p.num :=
  lookup_mem (deref_query h)

theorem deref_id (h : deref q p = some item) : item.id = p.id := of_decide_eq_true (Option.filter_eq_some_iff.mp h).2

theorem query_modify (f : CacheItem α → CacheItem α) (hf : ∀ x, (f x).c_item_num = x.c_item_num) (k : Int) :
    query_ht (modify CacheItem.c_item_num q num f) k =
      if k = num then (query_ht q k).map f else query_ht q k := lookup_modify hf k

theorem query_assign (h : assign q p v = some q') (k : Int) :
    query_ht q' k = if k = p.num then (query_ht q k).map fun x => { x with data := v } else query_ht q k := by
  unfold assign at h
  obtain ⟨_, _, rfl⟩ := Option.map_eq_some_iff.mp h
  exact query_modify (fun x => { x with data := v }) (fun _ => rfl) k

theorem assign_deref (h : assign q p v = some q') : ∃ item, deref q p = some item := by
  unfold assign at h
  obtain ⟨item, hi, _⟩ := Option.map_eq_some_iff.mp h
  exact ⟨item, hi⟩

theorem assign_nums (h : assign q p v = some q') :
    q'.map CacheItem.c_item_num = q.map CacheItem.c_item_num := by
  unfold assign at h
  obtain ⟨_, _, rfl⟩ := Option.map_eq_some_iff.mp h
  exact map_key_modify fun _ => rfl

theorem mem_assign (h : assign q p v = some q') {x : CacheItem α} (hx : x ∈ q') :
    ∃ y ∈ q, x.c_item_num = y.c_item_num ∧ x.dirty = y.dirty ∧
      x.data = if y.c_item_num = p.num then v else y.data := by
  unfold assign at h
  obtain ⟨_, _, rfl⟩ := Option.map_eq_some_iff.mp h
  obtain ⟨y, hy, rfl⟩ := mem_modify.mp hx
  refine ⟨y, hy, ?_⟩
  split <;> simp

theorem query_markDirty (h : markDirty q num = some q') (k : Int) :
    (query_ht q' k).map CacheItem.data = (query_ht q k).map CacheItem.data := by
  unfold markDirty at h
  obtain ⟨_, _, rfl⟩ := Option.map_eq_some_iff.mp h
  rw [query_modify (fun x => { x with dirty := true }) (fun _ => rfl) k]
  split
  · simp only [Option.map_map]; rfl
  · rfl

theorem markDirty_nums (h : markDirty q num = some q') :
    q'.map CacheItem.c_item_num = q.map CacheItem.c_item_num := by
  unfold markDirty at h
  obtain ⟨_, _, rfl⟩ := Option.map_eq_some_iff.mp h
  exact map_key_modify fun _ => rfl

theorem mem_markDirty (h : markDirty q num = some q') {x : CacheItem α} (hx : x ∈ q') :
    ∃ y ∈ q, x.c_item_num = y.c_item_num ∧ x.data = y.data ∧
      (x.dirty = true ∨ x.c_item_num ≠ num ∧ x.dirty = y.dirty) := by
  unfold markDirty at h
  obtain ⟨_, _, rfl⟩ := Option.map_eq_some_iff.mp h
  obtain ⟨y, hy, rfl⟩ := mem_modify.mp hx
  refine ⟨y, hy, ?_⟩
  split
  case isTrue => simp
  case isFalse hne => simp [hne]

end Assign

theorem distinct_of_nums {α : Type} {q q' : CacheQueue α}
    (h : q'.map CacheItem.c_item_num = q.map CacheItem.c_item_num) (hd : Distinct CacheItem.c_item_num q) :
    Distinct CacheItem.c_item_num q' := by
  rw [Distinct, h]; exact hd

theorem length_of_nums {α : Type} {q q' : CacheQueue α}
    (h : q'.map CacheItem.c_item_num = q.map CacheItem.c_item_num) : q'.length = q.length := by
  simpa using congrArg List.length h

theorem mem_of_nums {α : Type} {q q' : CacheQueue α}
    (h : q'.map CacheItem.c_item_num = q.map CacheItem.c_item_num) {x : CacheItem α} (hx : x ∈ q') :
    ∃ y ∈ q, y.c_item_num = x.c_item_num := by
  have : x.c_item_num ∈ q.map CacheItem.c_item_num := h ▸ List.mem_map_of_mem hx
  simpa [List.mem_map] using this

theorem BlocksOk.of_nums {s : Store} {q : CacheQueue Block} (h : BlocksOk s)
    (hn : q.map CacheItem.c_item_num = s.cache_b_queue.map CacheItem.c_item_num) :
    BlocksOk { s with cache_b_queue := q } := by
  refine ⟨distinct_of_nums hn h.distinct, fun x hx => ?_, (length_of_nums hn).symm ▸ h.size⟩
  obtain ⟨y, hy, hxy⟩ := mem_of_nums hn hx
  rw [← hxy]; exact h.range y hy

theorem logicalBlock_assign {s : Store} {q : CacheQueue Block} {p : Ptr} {v : Block}
    (h : assign s.cache_b_queue p v = some q) (b : Int) :
    logicalBlock { s with cache_b_queue := q } b = if b = p.num then v else logicalBlock s b := by
  simp only [logicalBlock, query_assign h b]
  by_cases hb : b = p.num
  · obtain ⟨item, hi⟩ := assign_deref h
    simp [hb, deref_query hi]
  · simp [hb]

theorem logicalBlock_markDirty {s : Store} {q : CacheQueue Block} {num : Int}
    (h : markDirty s.cache_b_queue num = some q) (b : Int) :
    logicalBlock { s with cache_b_queue := q } b = logicalBlock s b := by
  have := query_markDirty h b
  simp only [logicalBlock]
  cases h1 : query_ht q b <;> cases h2 : query_ht s.cache_b_queue b <;> simp_all

theorem marked_assign_b {s : Store} {q : CacheQueue Block} {p : Ptr} {v : Block} {exempt : Int → Prop}
    (h : assign s.cache_b_queue p v = some q) (hm : MarkedBlocks s exempt) (hk : BlocksOk s) :
    MarkedBlocks { s with cache_b_queue := q }
      fun b => exempt b ∨ b = p.num ∧ logicalBlock s p.num ≠ v := by
  intro x hx hne
  obtain ⟨y, hy, h1, h2, h3⟩ := mem_assign h hx
  rw [h1, h2]
  simp only [h1, h3] at hne
  split at hne
  case isTrue hp =>
    by_cases hv : logicalBlock s p.num = v
    · rw [← hv, ← hp, logicalBlock_cached hk hy] at hne
      exact (hm y hy hne).imp_right Or.inl
    · exact Or.inr (Or.inr ⟨hp, hv⟩)
  case isFalse => exact (hm y hy hne).imp_right Or.inl

theorem marked_markDirty_b {s : Store} {q : CacheQueue Block} {num : Int} {exempt : Int → Prop}
    (h : markDirty s.cache_b_queue num = some q) (hm : MarkedBlocks s exempt) :
    MarkedBlocks { s with cache_b_queue := q } fun b => b ≠ num ∧ exempt b := by
  intro x hx hne
  obtain ⟨y, hy, h1, h2, h3⟩ := mem_markDirty h hx
  rcases h3 with h3 | ⟨h3, h4⟩
  · exact Or.inl h3
  · simp only [h1, h2] at hne
    rw [h4, h1]
    exact (hm y hy hne).imp_right fun he => ⟨h1 ▸ h3, he⟩

/-! ## The inode cache -/

/-- The shape of the inode cache. -/
structure InodesOk (g : Geometry) (s : Store) : Prop where
  distinct : Distinct CacheItem.c_item_num s.cache_i_queue
  range : ∀ item ∈ s.cache_i_queue, g.isInode item.c_item_num
  size : s.cache_i_queue.length ≤ INODE_CACHESIZE

theorem InodesOk.of_nums {g : Geometry} {s : Store} {q : CacheQueue Inode} (h : InodesOk g s)
    (hn : q.map CacheItem.c_item_num = s.cache_i_queue.map CacheItem.c_item_num) :
    InodesOk g { s with cache_i_queue := q } := by
  refine ⟨distinct_of_nums hn h.distinct, fun x hx => ?_, (length_of_nums hn).symm ▸ h.size⟩
  obtain ⟨y, hy, hxy⟩ := mem_of_nums hn hx
  rw [← hxy]; exact h.range y hy

/-- A cached inode that differs from its slot is dirty, or exempt. -/
def MarkedInodes (s : Store) (exempt : Int → Prop) : Prop :=
  ∀ item ∈ s.cache_i_queue, item.data ≠ logicalSlot s item.c_item_num →
    item.dirty = true ∨ exempt item.c_item_num

/-- A step of the two caches that no reader of inodes, or of blocks outside the table, notices. -/
structure InodeStep (g : Geometry) (s s' : Store) : Prop where
  blocks : BlocksOk s'
  inodes : InodesOk g s'
  sectors : s'.num_sectors = s.num_sectors
  view_b : ∀ b, ¬ g.isTable b → logicalBlock s' b = logicalBlock s b
  view_i : ∀ i, g.isInode i → logicalInode s' i = logicalInode s i
  /-- A slot stays, or gets its inode. -/
  slot : ∀ i, g.isInode i → logicalSlot s' i = logicalSlot s i ∨ logicalSlot s' i = logicalInode s i
  marked_b : ∀ exempt, MarkedBlocks s exempt → MarkedBlocks s' exempt
  marked_i : ∀ exempt, MarkedInodes s exempt → MarkedInodes s' exempt

theorem InodeStep.trans {g : Geometry} {s t u : Store} (h : InodeStep g s t) (h' : InodeStep g t u) :
    InodeStep g s u := by
  refine ⟨h'.blocks, h'.inodes, h'.sectors.trans h.sectors, fun b hb => (h'.view_b b hb).trans (h.view_b b hb),
    fun i hi => (h'.view_i i hi).trans (h.view_i i hi), fun i hi => ?_, fun e hm => h'.marked_b e (h.marked_b e hm),
    fun e hm => h'.marked_i e (h.marked_i e hm)⟩
  rcases h'.slot i hi with he | he
  · rw [he]
    exact h.slot i hi
  · exact Or.inr (he.trans (h.view_i i hi))

theorem BlockStep.inodesOk {g : Geometry} {s s' : Store} (h : BlockStep s s') (hi : InodesOk g s) :
    InodesOk g s' := by
  constructor
  · rw [h.inodes]; exact hi.distinct
  · rw [h.inodes]; exact hi.range
  · rw [h.inodes]; exact hi.size

theorem BlockStep.markedInodes {s s' : Store} (h : BlockStep s s') {exempt : Int → Prop}
    (hm : MarkedInodes s exempt) : MarkedInodes s' exempt := by
  intro x hx hne
  rw [h.inodes] at hx
  rw [h.slot] at hne
  exact hm x hx hne

theorem BlockStep.inodeStep {g : Geometry} {s s' : Store} (h : BlockStep s s') (hi : InodesOk g s) :
    InodeStep g s s' :=
  ⟨h.ok, h.inodesOk hi, h.sectors, fun b _ => h.view b, fun i _ => h.inode i, fun i _ => Or.inl (h.slot i), fun _ => h.marked _,
    fun _ hm => h.markedInodes hm⟩

theorem slotOf_eq {i : Int} (hi : 0 ≤ i) : slotOf i = some (tableSlot i).toNat := by
  have := tableSlot_eq i hi
  rw [slotOf, if_pos (by omega)]

theorem logicalInode_cached {g : Geometry} {s : Store} (h : InodesOk g s) {item : CacheItem Inode}
    (hm : item ∈ s.cache_i_queue) : logicalInode s item.c_item_num = item.data := by
  simp only [logicalInode, query_ht, lookup_of_mem h.distinct hm]

/-- What a store into the slot of a cached inode leaves. -/
theorem writeSlot_spec {g : Geometry} {s t : Store} {lru : CacheItem Inode} {p : Ptr}
    {item : CacheItem Block} {q : CacheQueue Block} (hi : g.isInode lru.c_item_num) (hb : BlocksOk t)
    (hp : p.num = tableBlock lru.c_item_num) (hitem : item.data = logicalBlock s p.num)
    (hview : ∀ b, logicalBlock t b = logicalBlock s b)
    (ha : assign t.cache_b_queue p (item.data.setInode (tableSlot lru.c_item_num).toNat lru.data) = some q) :
    BlocksOk { t with cache_b_queue := q } ∧
      (∀ b, b ≠ p.num → logicalBlock { t with cache_b_queue := q } b = logicalBlock s b) ∧
      (∀ i, 0 ≤ i → logicalSlot { t with cache_b_queue := q } i =
        if i = lru.c_item_num then lru.data else logicalSlot s i) ∧
      ∀ exempt, MarkedBlocks t exempt → MarkedBlocks { t with cache_b_queue := q } fun b => exempt b ∨ b = p.num := by
  have hlb := logicalBlock_assign ha
  refine ⟨hb.of_nums (assign_nums ha), fun b hne => by rw [hlb, if_neg hne, hview], fun i h0 => ?_, fun exempt hm => ?_⟩
  · rw [logicalSlot, hlb, logicalSlot]
    by_cases hblk : tableBlock i = p.num
    · rw [if_pos hblk, hitem]
      by_cases hil : i = lru.c_item_num
      · rw [hil, if_pos rfl, Block.inode_setInode_same _ _ _ (tableSlot_lt hi.1)]
      · have hne : (tableSlot lru.c_item_num).toNat ≠ (tableSlot i).toNat := fun he =>
          hil (table_inj h0 hi.1 (hblk.trans hp) he.symm)
        rw [if_neg hil, Block.inode_setInode_ne _ _ _ _ hne (tableSlot_lt h0), hblk]
    · have hil : i ≠ lru.c_item_num := fun he => hblk (by rw [he, hp])
      rw [if_neg hblk, if_neg hil, hview]
  · exact fun x hx hne => (marked_assign_b ha hm hb x hx hne).imp_right fun he => he.imp_right And.left

/-- What the write-back of an evicted inode leaves. -/
theorem writeBack_spec {g : Geometry} {s t : Store} {lru : CacheItem Inode} {p : Ptr}
    {item : CacheItem Block} {q q' : CacheQueue Block} (hi : g.isInode lru.c_item_num) (hb : BlocksOk t)
    (hp : p.num = tableBlock lru.c_item_num) (hitem : item.data = logicalBlock s p.num)
    (hview : ∀ b, logicalBlock t b = logicalBlock s b)
    (ha : assign t.cache_b_queue p (item.data.setInode (tableSlot lru.c_item_num).toNat lru.data) = some q)
    (hd : markDirty q p.num = some q') :
    BlocksOk { t with cache_b_queue := q' } ∧
      (∀ b, b ≠ p.num → logicalBlock { t with cache_b_queue := q' } b = logicalBlock s b) ∧
      (∀ i, 0 ≤ i → logicalSlot { t with cache_b_queue := q' } i =
        if i = lru.c_item_num then lru.data else logicalSlot s i) ∧
      ∀ exempt, MarkedBlocks t exempt → MarkedBlocks { t with cache_b_queue := q' } exempt := by
  obtain ⟨hok, hother, hslots, hmark⟩ := writeSlot_spec hi hb hp hitem hview ha
  have hlb := logicalBlock_markDirty (s := { t with cache_b_queue := q }) hd
  refine ⟨hok.of_nums (markDirty_nums hd), fun b hne => (hlb b).trans (hother b hne), fun i h0 => ?_, fun exempt hm => ?_⟩
  · rw [← hslots i h0, logicalSlot, logicalSlot, hlb]
  · intro x hx hne
    have := marked_markDirty_b (s := { t with cache_b_queue := q }) hd (hmark exempt hm) x hx hne
    rcases this with h | ⟨h1, h2 | h2⟩
    · exact Or.inl h
    · exact Or.inr h2
    · exact absurd h2 h1

theorem evict_i_step {g : Geometry} {s s' : Store} (hb : BlocksOk s) (hi : InodesOk g s)
    (he : evict_i s = some s') :
    InodeStep g s s' ∧ s'.cache_i_queue.length < INODE_CACHESIZE ∧
      ∀ item ∈ s'.cache_i_queue, item ∈ s.cache_i_queue := by
  unfold evict_i at he
  split at he
  case h_1 => cases he
  case h_2 lru rest hq =>
    have hd : Distinct CacheItem.c_item_num (lru :: rest) := hq ▸ hi.distinct
    have hlru : g.isInode lru.c_item_num := hi.range lru (by simp [hq])
    have hin : ∀ x ∈ rest, x ∈ s.cache_i_queue := fun x hx => by simp [hq, hx]
    have hsize := hi.size
    rw [hq, List.length_cons] at hsize
    have hne : ∀ x ∈ rest, x.c_item_num ≠ lru.c_item_num := by
      simp only [Distinct, List.map_cons, List.nodup_cons, List.mem_map, not_exists, not_and] at hd
      exact hd.1
    have hrest : BlocksOk { s with cache_i_queue := rest } := ⟨hb.distinct, hb.range, hb.size⟩
    obtain ⟨⟨p, t⟩, hg, he⟩ := Option.bind_eq_some_iff.mp he
    obtain ⟨item, hitem, he⟩ := Option.bind_eq_some_iff.mp he
    obtain ⟨slot, hslot, he⟩ := Option.bind_eq_some_iff.mp he
    obtain ⟨q, ha, he⟩ := Option.bind_eq_some_iff.mp he
    obtain ⟨q', hm, he⟩ := Option.bind_eq_some_iff.mp he
    obtain rfl := Option.some.inj he
    obtain ⟨hp, _, hstep, item', hitem', hdata⟩ := get_b_spec hrest hg
    rw [hitem] at hitem'
    obtain rfl := Option.some.inj hitem'
    rw [slotOf_eq hlru.1] at hslot
    obtain rfl := Option.some.inj hslot
    have hview : ∀ b, logicalBlock t b = logicalBlock s b := hstep.view
    have hdata' : item.data = logicalBlock s p.num := by rw [hdata, hp]; rfl
    obtain ⟨hok, hother, hslots, hmark⟩ := writeBack_spec hlru hstep.ok hp hdata' hview ha (hp ▸ hm)
    have hqi : t.cache_i_queue = rest := hstep.inodes
    have hcached : logicalInode s lru.c_item_num = lru.data := logicalInode_cached hi (by simp [hq])
    refine ⟨⟨hok, ⟨?_, ?_, ?_⟩, hstep.sectors, ?_, ?_, ?_, ?_, ?_⟩, ?_, ?_⟩
    · simp only [hqi]; exact hd.tail
    · simp only [hqi]; exact fun x hx => hi.range x (hin x hx)
    · simp only [hqi]; omega
    · intro b hbt
      refine hother b fun hbp => hbt ?_
      rw [hbp, hp]
      exact Geometry.isTable_tableBlock hlru
    · intro i hii
      have hs := hslots i hii.1
      have hqr : query_ht rest i = if lru.c_item_num = i then none else query_ht s.cache_i_queue i := by
        rw [hq]; exact lookup_tail hd
      simp only [hqi] at hs
      simp only [logicalInode, hqi, hqr, hs]
      by_cases hil : lru.c_item_num = i
      · have hsome : query_ht s.cache_i_queue i = some lru := by
          rw [hq, query_ht, ← hil]; exact lookup_of_mem hd List.mem_cons_self
        simp [hsome, hil]
      · simp [hil, Ne.symm hil]
    · intro i hii
      have hs := hslots i hii.1
      split at hs
      case isTrue he => exact Or.inr (by rw [hs, he, hcached])
      case isFalse => exact Or.inl hs
    · exact fun exempt hx => hmark exempt (hstep.marked _ fun x hxm => hx x hxm)
    · intro exempt hx x hxm hxne
      simp only [hqi] at hxm
      have hxi := hi.range x (hin x hxm)
      rw [hslots _ hxi.1, if_neg (hne x hxm)] at hxne
      exact hx x (hin x hxm) hxne
    · simp only [hqi]; omega
    · simp only [hqi]; exact hin

theorem touch_i_step {g : Geometry} {s : Store} (hb : BlocksOk s) (hi : InodesOk g s) {item : CacheItem Inode}
    (hm : item ∈ s.cache_i_queue) :
    InodeStep g s { s with cache_i_queue := right_enqueue item (right_dequeue s.cache_i_queue item) } := by
  have hmem : ∀ x, x ∈ touch CacheItem.c_item_num s.cache_i_queue item ↔ x ∈ s.cache_i_queue :=
    fun x => mem_touch hi.distinct hm
  refine ⟨⟨hb.distinct, hb.range, hb.size⟩, ⟨hi.distinct.touch, fun x hx => hi.range x ((hmem x).mp hx), ?_⟩,
    rfl, fun _ _ => rfl, ?_, fun _ _ => Or.inl rfl, fun _ hx => hx, fun _ hx x hxm => hx x ((hmem x).mp hxm)⟩
  · exact Nat.le_trans (Nat.le_of_eq (length_touch hi.distinct hm)) hi.size
  · intro i _
    have hq : query_ht (right_enqueue item (right_dequeue s.cache_i_queue item)) i =
        query_ht s.cache_i_queue i := lookup_touch hi.distinct hm
    simp only [logicalInode, hq]
    rfl

theorem insert_i_step {g : Geometry} {s : Store} (hb : BlocksOk s) (hi : InodesOk g s) (i : Int)
    (hii : g.isInode i) (hlen : s.cache_i_queue.length < INODE_CACHESIZE)
    (hq : query_ht s.cache_i_queue i = none) (id n : Nat) (d : Bool) :
    InodeStep g s { s with cache_i_queue := right_enqueue ⟨id, i, d, logicalSlot s i⟩ s.cache_i_queue,
                           next_id := n } := by
  have hne : ∀ y ∈ s.cache_i_queue, y.c_item_num ≠ (⟨id, i, d, logicalSlot s i⟩ : CacheItem Inode).c_item_num :=
    lookup_none hq
  refine ⟨⟨hb.distinct, hb.range, hb.size⟩,
    ⟨hi.distinct.append_new hne, ?_, by simp [right_enqueue]; omega⟩, rfl, fun _ _ => rfl, ?_,
    fun _ _ => Or.inl rfl, fun _ hx => hx, ?_⟩
  · intro x hx
    rcases List.mem_append.mp hx with hx | hx
    · exact hi.range x hx
    · rw [List.mem_singleton.mp hx]; exact hii
  · intro c _
    have happ := lookup_append_new (k := c) hne
    simp only [query_ht] at hq
    simp only [logicalInode, query_ht, right_enqueue, happ]
    by_cases hc : i = c
    · subst hc; simp [hq]
    · simp only [hc, if_false]; rfl
  · intro exempt hx x hxm
    rcases List.mem_append.mp hxm with hxm | hxm
    · exact hx x hxm
    · rw [List.mem_singleton.mp hxm]; intro hf; exact absurd rfl hf

theorem InodeStep.refl {g : Geometry} {s : Store} (hb : BlocksOk s) (hi : InodesOk g s) : InodeStep g s s :=
  ⟨hb, hi, rfl, fun _ _ => rfl, fun _ _ => rfl, fun _ _ => Or.inl rfl, fun _ h => h, fun _ h => h⟩

theorem makeRoom_i_step {g : Geometry} {s t : Store} (hb : BlocksOk s) (hi : InodesOk g s)
    (hr : makeRoom_i s = some t) :
    InodeStep g s t ∧ t.cache_i_queue.length < INODE_CACHESIZE ∧
      ∀ item ∈ t.cache_i_queue, item ∈ s.cache_i_queue := by
  unfold makeRoom_i at hr
  split at hr
  case isTrue => exact evict_i_step hb hi hr
  case isFalse hfull =>
    obtain rfl := Option.some.inj hr
    exact ⟨.refl hb hi, Nat.lt_of_le_of_ne hi.size hfull, fun _ hx => hx⟩

/-- What `get_i` returns: the inode, as the logical view has it. -/
theorem get_i_spec {g : Geometry} {s s' : Store} {i : Int} {p : Ptr} (hb : BlocksOk s) (hi : InodesOk g s)
    (hii : g.isInode i) (hg : get_i i s = some (p, s')) :
    p.num = i ∧ InodeStep g s s' ∧
      ∃ item, deref s'.cache_i_queue p = some item ∧ item.data = logicalInode s i := by
  unfold get_i at hg
  split at hg
  case h_1 item hq =>
    obtain ⟨rfl, rfl⟩ := Prod.mk.inj (Option.some.inj hg)
    obtain ⟨hm, rfl⟩ := lookup_mem hq
    have hq' : query_ht (right_enqueue item (right_dequeue s.cache_i_queue item)) item.c_item_num = some item :=
      (lookup_touch hi.distinct hm).trans hq
    exact ⟨rfl, touch_i_step hb hi hm, item, by simp [deref, hq'], (logicalInode_cached hi hm).symm⟩
  case h_2 hq =>
    obtain ⟨t, ht, hg⟩ := Option.bind_eq_some_iff.mp hg
    obtain ⟨hst, hlen, hsub⟩ := makeRoom_i_step hb hi ht
    obtain ⟨⟨pb, u⟩, hgb, hg⟩ := Option.bind_eq_some_iff.mp hg
    obtain ⟨item, hitem, hg⟩ := Option.bind_eq_some_iff.mp hg
    obtain ⟨slot, hslot, hg⟩ := Option.bind_eq_some_iff.mp hg
    obtain ⟨rfl, rfl⟩ := Prod.mk.inj (Option.some.inj hg)
    obtain ⟨_, _, hstep, item', hitem', hdata⟩ := get_b_spec hst.blocks hgb
    rw [hitem] at hitem'
    obtain rfl := Option.some.inj hitem'
    rw [slotOf_eq hii.1] at hslot
    obtain rfl := Option.some.inj hslot
    have hlog : item.data.inode (tableSlot i).toNat = logicalSlot u i := by
      rw [hdata, hstep.slot, logicalSlot]
    have hnone : query_ht t.cache_i_queue i = none := by
      have hne := lookup_none hq
      simp only [query_ht, lookup, List.find?_eq_none, decide_eq_true_eq]
      exact fun x hx => hne x (hsub x hx)
    have hnone' : query_ht u.cache_i_queue i = none := by rw [hstep.inodes]; exact hnone
    have hstep' := (hst.trans (hstep.inodeStep hst.inodes))
    refine ⟨rfl, ?_, _, deref_insert _ ⟨_, i, _, _⟩ hnone', ?_⟩
    · rw [hlog]
      exact hstep'.trans (insert_i_step hstep.ok hstep'.inodes i hii (by rw [hstep.inodes]; exact hlen) hnone' _ _ _)
    · rw [hlog, hstep.slot, ← hst.view_i i hii, logicalInode, hnone]

/-! ## The calls return -/

theorem assign_total {α : Type} {q : CacheQueue α} {p : Ptr} {item : CacheItem α} (h : deref q p = some item)
    (v : α) : ∃ q', assign q p v = some q' := ⟨_, by rw [assign, h]; rfl⟩

theorem markDirty_total {α : Type} {q : CacheQueue α} {num : Int} {item : CacheItem α}
    (h : query_ht q num = some item) : ∃ q', markDirty q num = some q' := ⟨_, by rw [markDirty, h]; rfl⟩

theorem evict_i_total {g : Geometry} {s : Store} (hb : BlocksOk s) (hi : InodesOk g s)
    (hs : s.num_sectors = g.sectors) (hne : s.cache_i_queue ≠ []) : ∃ t, evict_i s = some t := by
  unfold evict_i
  split
  case h_1 hq => exact absurd hq hne
  case h_2 lru rest hq =>
    have hlru : g.isInode lru.c_item_num := hi.range lru (by simp [hq])
    have hrest : BlocksOk { s with cache_i_queue := rest } := ⟨hb.distinct, hb.range, hb.size⟩
    have htable := Geometry.isTable_tableBlock hlru
    have hsec : ({ s with cache_i_queue := rest } : Store).isSector (tableBlock lru.c_item_num) := by
      have := g.table_fits
      exact ⟨by have := htable.1; omega, by have := htable.2; simp only [hs]; omega⟩
    obtain ⟨p, t, hg⟩ := get_b_total hrest hsec
    obtain ⟨hp, _, _, item, hitem, _⟩ := get_b_spec hrest hg
    obtain ⟨q, hq1⟩ := assign_total hitem (item.data.setInode (tableSlot lru.c_item_num).toNat lru.data)
    have hq2 : query_ht q p.num = some { item with data := item.data.setInode (tableSlot lru.c_item_num).toNat lru.data } := by
      rw [query_assign hq1, if_pos rfl, deref_query hitem]
      rfl
    obtain ⟨q', hq'⟩ := markDirty_total hq2
    rw [hp] at hq'
    refine ⟨{ t with cache_b_queue := q' }, ?_⟩
    simp only [hg, hitem, slotOf_eq hlru.1, Option.bind_eq_bind, Option.bind_some, hq1, hq']

/-- In the inode table `get_i` always returns. -/
theorem get_i_total {g : Geometry} {s : Store} {i : Int} (hb : BlocksOk s) (hi : InodesOk g s)
    (hs : s.num_sectors = g.sectors) (hii : g.isInode i) : ∃ p s', get_i i s = some (p, s') := by
  unfold get_i
  split
  · exact ⟨_, _, rfl⟩
  · have hroom : ∃ t, makeRoom_i s = some t := by
      unfold makeRoom_i
      split
      case isTrue hfull =>
        refine evict_i_total hb hi hs ?_
        intro hnil
        rw [hnil] at hfull
        cases hfull
      case isFalse => exact ⟨_, rfl⟩
    obtain ⟨t, ht⟩ := hroom
    have hst := (makeRoom_i_step hb hi ht).1
    have htable := Geometry.isTable_tableBlock hii
    have hsec : t.isSector (tableBlock i) := by
      have := g.table_fits
      exact ⟨by have := htable.1; omega, by have := htable.2; rw [hst.sectors, hs]; omega⟩
    obtain ⟨p, u, hg⟩ := get_b_total hst.blocks hsec
    obtain ⟨_, _, _, item, hitem, _⟩ := get_b_spec hst.blocks hg
    exact ⟨_, _, by simp only [ht, hg, hitem, slotOf_eq hii.1, Option.bind_eq_bind, Option.bind_some]; exact rfl⟩

end Yfs
