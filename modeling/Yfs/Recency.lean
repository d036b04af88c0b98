import Yfs.StoreProofs

/-! # Which pointers outlive a lookup

An item is evicted once as many others have been used as its cache has places.
-/

namespace Yfs

open Cache Queue

/-- `p` points into its item, and the items used since are in `R`. -/
def Live {α : Type} (q : CacheQueue α) (p : Ptr) (R : Finset Int) : Prop :=
  Held CacheItem.c_item_num q p.num (fun item => item.id = p.id) R

namespace Live

variable {α : Type} {q q' : CacheQueue α} {p : Ptr} {R R' : Finset Int}

theorem deref (h : Live q p R) (hd : Distinct CacheItem.c_item_num q) : ∃ item, deref q p = some item := by
  obtain ⟨x, hx, hid⟩ := h.lookup hd
  exact ⟨x, by rw [Yfs.deref, query_ht, hx, Option.filter_some, if_pos (decide_eq_true hid)]⟩

theorem query (h : Live q p R) (hd : Distinct CacheItem.c_item_num q) : ∃ item, query_ht q p.num = some item := by
  obtain ⟨item, hitem⟩ := h.deref hd
  exact ⟨item, deref_query hitem⟩

theorem mono (h : Live q p R) (hR : R ⊆ R') : Live q p R' := Held.mono h hR

theorem assign {ptr : Ptr} {v : α} (h : Live q p R) (ha : assign q ptr v = some q') : Live q' p R := by
  obtain ⟨_, _, rfl⟩ := Option.map_eq_some_iff.mp ha
  exact Held.map h (fun x => by split <;> rfl) fun x hx => by split <;> exact hx

theorem markDirty {num : Int} (h : Live q p R) (hm : markDirty q num = some q') : Live q' p R := by
  obtain ⟨_, _, rfl⟩ := Option.map_eq_some_iff.mp hm
  exact Held.map h (fun x => by split <;> rfl) fun x hx => by split <;> exact hx

end Live

/-- From `s` to `s'` at most the inodes `I` and the blocks `B` have been looked up: older items go first. -/
structure Used (s s' : Store) (I B : Finset Int) : Prop where
  inodes : ∀ p R, Live s.cache_i_queue p R → (I.Nonempty → ((R ∪ I).erase p.num).card < INODE_CACHESIZE) →
    Live s'.cache_i_queue p (R ∪ I)
  blocks : ∀ p R, Live s.cache_b_queue p R → (B.Nonempty → ((R ∪ B).erase p.num).card < BLOCK_CACHESIZE) →
    Live s'.cache_b_queue p (R ∪ B)

variable {s t u : Store} {g : Geometry} {i b : Int} {p : Ptr} {I I' B B' : Finset Int}

namespace Used

theorem refl (s : Store) : Used s s I B :=
  ⟨fun _ _ h _ => h.mono Finset.subset_union_left, fun _ _ h _ => h.mono Finset.subset_union_left⟩

theorem trans (h : Used s t I B) (h' : Used t u I' B') : Used s u (I ∪ I') (B ∪ B') := by
  refine ⟨fun p R hp hc => ?_, fun p R hp hc => ?_⟩
  · rw [← Finset.union_assoc] at hc ⊢
    exact h'.inodes p _ (h.inodes p R hp fun hI => Nat.lt_of_le_of_lt
      (Finset.card_le_card (Finset.erase_subset_erase _ Finset.subset_union_left)) (hc (hI.inl))) fun hI => hc hI.inr
  · rw [← Finset.union_assoc] at hc ⊢
    exact h'.blocks p _ (h.blocks p R hp fun hB => Nat.lt_of_le_of_lt
      (Finset.card_le_card (Finset.erase_subset_erase _ Finset.subset_union_left)) (hc (hB.inl))) fun hB => hc hB.inr

theorem mono (h : Used s t I B) (hI : I ⊆ I') (hB : B ⊆ B') : Used s t I' B' := by
  refine ⟨fun p R hp hc => ?_, fun p R hp hc => ?_⟩
  · have hsub := Finset.union_subset_union_right (s := R) hI
    exact (h.inodes p R hp fun hn => Nat.lt_of_le_of_lt (Finset.card_le_card (Finset.erase_subset_erase _ hsub))
      (hc (hn.mono hI))).mono hsub
  · have hsub := Finset.union_subset_union_right (s := R) hB
    exact (h.blocks p R hp fun hn => Nat.lt_of_le_of_lt (Finset.card_le_card (Finset.erase_subset_erase _ hsub))
      (hc (hn.mono hB))).mono hsub

/-- Stores and marks look nothing up. -/
theorem assign_b {ptr : Ptr} {v : Block} {q : CacheQueue Block} (h : assign s.cache_b_queue ptr v = some q) :
    Used s { s with cache_b_queue := q } I B :=
  ⟨fun _ _ hp _ => hp.mono Finset.subset_union_left, fun _ _ hp _ => (hp.assign h).mono Finset.subset_union_left⟩

theorem assign_i {ptr : Ptr} {v : Inode} {q : CacheQueue Inode} (h : assign s.cache_i_queue ptr v = some q) :
    Used s { s with cache_i_queue := q } I B :=
  ⟨fun _ _ hp _ => (hp.assign h).mono Finset.subset_union_left, fun _ _ hp _ => hp.mono Finset.subset_union_left⟩

theorem markDirty_b {num : Int} {q : CacheQueue Block} (h : markDirty s.cache_b_queue num = some q) :
    Used s { s with cache_b_queue := q } I B :=
  ⟨fun _ _ hp _ => hp.mono Finset.subset_union_left, fun _ _ hp _ => (hp.markDirty h).mono Finset.subset_union_left⟩

theorem markDirty_i {num : Int} {q : CacheQueue Inode} (h : markDirty s.cache_i_queue num = some q) :
    Used s { s with cache_i_queue := q } I B :=
  ⟨fun _ _ hp _ => (hp.markDirty h).mono Finset.subset_union_left, fun _ _ hp _ => hp.mono Finset.subset_union_left⟩

end Used

/-- A new item at the end of a queue that made room for it. -/
theorem live_enqueue {α : Type} {q q' : CacheQueue α} {item : CacheItem α} {p : Ptr} {R : Finset Int} {size : Nat}
    (hd : Distinct CacheItem.c_item_num q) (hnew : query_ht q item.c_item_num = none)
    (hroom : q' = q ∧ q.length ≠ size ∨ q.length = size ∧ q' = q.tail) (h : Live q p R)
    (hc : ((insert item.c_item_num R).erase p.num).card < size) :
    Live (right_enqueue item q') p (insert item.c_item_num R) := by
  refine Held.append ?_ item
  rcases hroom with ⟨rfl, _⟩ | ⟨hlen, rfl⟩
  · exact h
  · cases q with
    | nil => exact h
    | cons x q =>
      refine Held.tail h hd (fun y hy => Queue.lookup_none hnew y hy) ?_
      rw [List.length_cons] at hlen
      rw [List.tail_cons]
      omega

theorem makeRoom_b_queue (h : makeRoom_b s = some t) :
    t.cache_i_queue = s.cache_i_queue ∧ (t.cache_b_queue = s.cache_b_queue ∧ s.cache_b_queue.length ≠ BLOCK_CACHESIZE ∨
      s.cache_b_queue.length = BLOCK_CACHESIZE ∧ t.cache_b_queue = s.cache_b_queue.tail) := by
  unfold makeRoom_b at h
  split at h
  case isTrue hlen =>
    unfold evict_b at h
    split at h
    case h_1 => cases h
    case h_2 lru rest hq =>
      obtain rfl := Option.some.inj h
      refine ⟨?_, .inr ⟨hlen, by rw [hq]; rfl⟩⟩
      unfold WriteSector
      split <;> rfl
  case isFalse hlen =>
    obtain rfl := Option.some.inj h
    exact ⟨rfl, .inl ⟨rfl, hlen⟩⟩

/-- A block lookup. -/
theorem get_b_used (hb : BlocksOk s) (hg : Cache.get_b b s = some (p, t)) : Used s t ∅ {b} ∧ Live t.cache_b_queue p ∅ := by
  have hi := (get_b_spec hb hg).2.2.1.inodes
  have hused : (∀ p R, Live s.cache_b_queue p R → ((insert b R).erase p.num).card < BLOCK_CACHESIZE →
      Live t.cache_b_queue p (insert b R)) → Used s t ∅ {b} := by
    refine fun h => ⟨fun p R hp _ => ?_, fun p R hp hc => ?_⟩
    · rw [hi]
      exact hp.mono Finset.subset_union_left
    · rw [Finset.union_comm, ← Finset.insert_eq] at hc ⊢
      exact h p R hp (hc (Finset.singleton_nonempty b))
  unfold Cache.get_b at hg
  split at hg
  case h_1 item hq =>
    obtain ⟨rfl, rfl⟩ := Prod.mk.inj (Option.some.inj hg)
    obtain ⟨hm, rfl⟩ := lookup_mem hq
    exact ⟨hused fun p R hp _ => Held.touch hp hb.distinct hm, Held.last rfl⟩
  case h_2 hq =>
    obtain ⟨r, hr, hg⟩ := Option.bind_eq_some_iff.mp hg
    obtain ⟨block, _, hg⟩ := Option.bind_eq_some_iff.mp hg
    obtain ⟨rfl, rfl⟩ := Prod.mk.inj (Option.some.inj hg)
    exact ⟨hused fun p R hp hc => live_enqueue hb.distinct hq (makeRoom_b_queue hr).2 hp hc, Held.last rfl⟩

/-- The cached blocks are on the disk, the cached inodes have slots, and no cache holds a number twice. -/
structure Store.Tidy (s : Store) : Prop where
  blocks : BlocksOk s
  inodes : Distinct CacheItem.c_item_num s.cache_i_queue
  slots : ∀ item ∈ s.cache_i_queue, slotOf item.c_item_num ≠ none

/-- Another list of inodes with the same numbers. -/
theorem Store.Tidy.of_nums {q : CacheQueue Inode} (h : s.Tidy)
    (hn : q.map CacheItem.c_item_num = s.cache_i_queue.map CacheItem.c_item_num) :
    Store.Tidy { s with cache_i_queue := q } := by
  refine ⟨⟨h.blocks.distinct, h.blocks.range, h.blocks.size⟩, distinct_of_nums hn h.inodes, fun item hm => ?_⟩
  obtain ⟨y, hy, he⟩ := mem_of_nums hn hm
  rw [← he]
  exact h.slots y hy

/-- The oldest inode goes. -/
theorem Store.Tidy.rest {lru : CacheItem Inode} {rest : CacheQueue Inode} (h : s.Tidy) (hq : s.cache_i_queue = lru :: rest) :
    Store.Tidy { s with cache_i_queue := rest } := by
  refine ⟨⟨h.blocks.distinct, h.blocks.range, h.blocks.size⟩, Distinct.tail (hq ▸ h.inodes), fun item hm => h.slots item ?_⟩
  rw [hq]
  exact List.mem_cons_of_mem lru hm

theorem get_b_tidy (h : s.Tidy) (hg : Cache.get_b b s = some (p, t)) : t.Tidy ∧ t.cache_i_queue = s.cache_i_queue := by
  have hstep := (get_b_spec h.blocks hg).2.2.1
  exact ⟨⟨hstep.ok, hstep.inodes ▸ h.inodes, hstep.inodes ▸ h.slots⟩, hstep.inodes⟩

theorem makeRoom_i_used (h : s.Tidy) (hr : makeRoom_i s = some t) :
    t.Tidy ∧ (∃ B : Finset Int, B.card ≤ 1 ∧ ∀ p R, Live s.cache_b_queue p R →
      (B.Nonempty → ((R ∪ B).erase p.num).card < BLOCK_CACHESIZE) → Live t.cache_b_queue p (R ∪ B)) ∧
    (t.cache_i_queue = s.cache_i_queue ∧ s.cache_i_queue.length ≠ INODE_CACHESIZE ∨
      s.cache_i_queue.length = INODE_CACHESIZE ∧ t.cache_i_queue = s.cache_i_queue.tail) := by
  unfold makeRoom_i at hr
  split at hr
  case isTrue hlen =>
    unfold evict_i at hr
    split at hr
    case h_1 => cases hr
    case h_2 lru rest hq =>
      obtain ⟨⟨ptr, u⟩, hg, hr⟩ := Option.bind_eq_some_iff.mp hr
      obtain ⟨block, _, hr⟩ := Option.bind_eq_some_iff.mp hr
      obtain ⟨slot, _, hr⟩ := Option.bind_eq_some_iff.mp hr
      obtain ⟨q, ha, hr⟩ := Option.bind_eq_some_iff.mp hr
      obtain ⟨q', hd, hr⟩ := Option.bind_eq_some_iff.mp hr
      obtain rfl := Option.some.inj hr
      have htidy := h.rest hq
      have hu := (get_b_used htidy.blocks hg).1
      obtain ⟨hu_tidy, hinodes⟩ := get_b_tidy htidy hg
      have hwritten : BlocksOk { u with cache_b_queue := q } := hu_tidy.blocks.of_nums (assign_nums ha)
      refine ⟨⟨hwritten.of_nums (markDirty_nums hd), hu_tidy.inodes, hu_tidy.slots⟩, ⟨{tableBlock lru.c_item_num}, by simp, fun p R hp hc =>
        ((hu.blocks p R hp hc).assign ha).markDirty hd⟩, .inr ⟨hlen, ?_⟩⟩
      rw [hq]
      exact hinodes
  case isFalse hlen =>
    obtain rfl := Option.some.inj hr
    exact ⟨h, ⟨∅, by simp, fun p R hp _ => hp.mono Finset.subset_union_left⟩, .inl ⟨rfl, hlen⟩⟩

/-- An inode lookup uses at most two blocks: that of the inode that goes and its own. -/
theorem get_i_used (h : s.Tidy) (hg : Cache.get_i i s = some (p, t)) :
    t.Tidy ∧ (p.num = i ∧ slotOf i ≠ none) ∧ (∃ B : Finset Int, B.card ≤ 2 ∧ Used s t {i} B) ∧ Live t.cache_i_queue p ∅ := by
  unfold Cache.get_i at hg
  split at hg
  case h_1 item hq =>
    obtain ⟨rfl, rfl⟩ := Prod.mk.inj (Option.some.inj hg)
    obtain ⟨hm, rfl⟩ := lookup_mem hq
    have hmem : ∀ x ∈ right_enqueue item (right_dequeue s.cache_i_queue item), x ∈ s.cache_i_queue :=
      fun x hx => (mem_touch h.inodes hm).mp hx
    refine ⟨⟨⟨h.blocks.distinct, h.blocks.range, h.blocks.size⟩, h.inodes.touch, fun x hx => h.slots x (hmem x hx)⟩,
      ⟨rfl, h.slots item hm⟩, ⟨∅, by simp, fun p R hp _ => ?_, fun p R hp _ => hp.mono Finset.subset_union_left⟩, Held.last rfl⟩
    rw [Finset.union_comm, ← Finset.insert_eq]
    exact Held.touch hp h.inodes hm
  case h_2 hq =>
    obtain ⟨r, hr, hg⟩ := Option.bind_eq_some_iff.mp hg
    obtain ⟨⟨ptr, u⟩, hgb, hg⟩ := Option.bind_eq_some_iff.mp hg
    obtain ⟨block, _, hg⟩ := Option.bind_eq_some_iff.mp hg
    obtain ⟨slot, hslot, hg⟩ := Option.bind_eq_some_iff.mp hg
    obtain ⟨rfl, rfl⟩ := Prod.mk.inj (Option.some.inj hg)
    have hsome : slotOf i ≠ none := fun hn => by rw [hn] at hslot; cases hslot
    obtain ⟨hr_tidy, ⟨B, hB, hblocks⟩, hqueue⟩ := makeRoom_i_used h hr
    have hu := (get_b_used hr_tidy.blocks hgb).1
    obtain ⟨hu_tidy, hinodes⟩ := get_b_tidy hr_tidy hgb
    rw [← hinodes] at hqueue
    have hnew : ∀ y ∈ u.cache_i_queue, y.c_item_num ≠ i := by
      have hold := Queue.lookup_none hq
      rcases hqueue with ⟨he, _⟩ | ⟨_, he⟩
      · exact he ▸ hold
      · exact he ▸ fun y hy => hold y (List.mem_of_mem_tail hy)
    have hslots : ∀ x ∈ right_enqueue ⟨u.next_id, i, u.fresh_dirty u.next_id, block.data.inode slot⟩ u.cache_i_queue,
        slotOf x.c_item_num ≠ none := by
      intro x hx
      rcases List.mem_append.mp hx with hx | hx
      · exact hu_tidy.slots x hx
      · rw [List.mem_singleton.mp hx]
        exact hsome
    refine ⟨⟨⟨hu_tidy.blocks.distinct, hu_tidy.blocks.range, hu_tidy.blocks.size⟩, hu_tidy.inodes.append_new hnew, hslots⟩,
      ⟨rfl, hsome⟩, ⟨B ∪ {tableBlock i}, (Finset.card_union_le _ _).trans (by simp; omega), fun p R hp hc => ?_, fun p R hp hc => ?_⟩,
      Held.last rfl⟩
    · rw [Finset.union_comm, ← Finset.insert_eq] at hc ⊢
      exact live_enqueue h.inodes hq hqueue hp (hc (Finset.singleton_nonempty i))
    · rw [← Finset.union_assoc] at hc ⊢
      exact hu.blocks p _ (hblocks p R hp fun hB => Nat.lt_of_le_of_lt
        (Finset.card_le_card (Finset.erase_subset_erase _ Finset.subset_union_left)) (hc hB.inl)) fun hb => hc hb.inr

end Yfs
