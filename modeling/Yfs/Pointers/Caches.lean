import Yfs.Pointers.Queues
import Yfs.Pointers.Tables
import Yfs.Lib.Recent

/-! # The caches hold what was asked for last -/

namespace Yfs.Pointers

open Recent

variable {items items' : Heap CacheItem} {cache : LinkedCache} {name : QueueName} {a item elem x : Addr} {it : CacheItem} {l : List Addr}
  {num : Int} {nums : List Int}

def numOf (items : Heap CacheItem) (a : Addr) : Option Int := (contentOf items a).map Prod.fst

theorem numOf_lookup (h : items.lookup a = some it) : numOf items a = some it.c_item_num := by
  rw [numOf, contentOf, h]
  rfl

theorem Relinked.numOf {S : List Addr} (h : Relinked items items' S) : numOf items' x = numOf items x := by
  rw [Pointers.numOf, Pointers.numOf, h.content]

/-- The queue, the table and the counter agree: the items in `l` have the numbers `nums`. -/
structure Holds (items : Heap CacheItem) (cache : LinkedCache) (l : List Addr) (nums : List Int) : Prop where
  queued : Queued items cache.queue l
  numbers : l.map (numOf items) = nums.map some
  distinct : nums.Nodup
  table : ∃ m chains, Stores cache.ht m chains ∧ ∀ k a, m.lookup k = some a ↔ a ∈ l ∧ numOf items a = some k
  size : cache.size = l.length

namespace Holds

variable (h : Holds items cache l nums)
include h

theorem length_eq : l.length = nums.length := by
  have := congrArg List.length h.numbers
  rwa [List.length_map, List.length_map] at this

theorem mem_nums : num ∈ nums ↔ ∃ a ∈ l, numOf items a = some num := by
  have hm : some num ∈ l.map (numOf items) ↔ num ∈ nums := by rw [h.numbers]; simp
  rw [← hm, List.mem_map]

/-- An item is the only one of its number. -/
theorem numOf_inj {b : Addr} (ha : a ∈ l) (hb : b ∈ l) (he : numOf items a = numOf items b) : a = b := by
  have hnd : (l.map (numOf items)).Nodup := by
    rw [h.numbers]
    exact h.distinct.map (Option.some_injective _)
  exact List.inj_on_of_nodup_map hnd ha hb he

/-- Other items do not matter. -/
theorem congr (hsame : ∀ x ∈ l, items'.lookup x = items.lookup x) : Holds items' cache l nums := by
  have hnum : ∀ x ∈ l, numOf items' x = numOf items x := fun x hx => by rw [numOf, contentOf, hsame x hx, numOf, contentOf]
  obtain ⟨m, chains, hs, hm⟩ := h.table
  refine ⟨h.queued.congr hsame, by rw [← h.numbers]; exact List.map_congr_left hnum, h.distinct, ⟨m, chains, hs, fun k a => ?_⟩, h.size⟩
  rw [hm]
  exact and_congr_right fun ha => by rw [hnum a ha]

/-- A query finds the item. -/
theorem query_some (ha : a ∈ l) (hn : numOf items a = some num) : query_ht cache.ht num = some (some a) := by
  obtain ⟨m, chains, hs, hm⟩ := h.table
  rw [hs.query, (hm num a).mpr ⟨ha, hn⟩]

theorem query_none (hn : num ∉ nums) : query_ht cache.ht num = some none := by
  obtain ⟨m, chains, hs, hm⟩ := h.table
  rw [hs.query]
  cases hl : m.lookup num with
  | none => rfl
  | some a => exact absurd (h.mem_nums.mpr ⟨a, (hm num a).mp hl⟩) hn

end Holds

/-! ## The parts of `get_b` and `get_i` -/

theorem Holds.erase (h : Holds items cache l nums) (ha : a ∈ l) (hn : numOf items a = some num) :
    (l.erase a).map (numOf items) = (nums.erase num).map some := by
  have hnd := h.queued.linked.nodup
  have hnum := h.numbers
  have hnn := h.distinct
  obtain ⟨xs, ys, rfl⟩ := List.append_of_mem ha
  rw [List.map_append, List.map_cons, hn, eq_comm, List.map_eq_append_iff] at hnum
  obtain ⟨us, vs, rfl, hus, hvs⟩ := hnum
  obtain ⟨w, ws, rfl, hw, hws⟩ := List.map_eq_cons_iff.mp hvs
  obtain rfl : num = w := (Option.some.inj hw).symm
  have ha' : a ∉ xs := fun hm => (List.nodup_append.mp hnd).2.2 a hm a List.mem_cons_self rfl
  have hu : num ∉ us := fun hm => (List.nodup_append.mp hnn).2.2 num hm num List.mem_cons_self rfl
  rw [List.erase_append_right _ ha', List.erase_cons_head, List.erase_append_right _ hu, List.erase_cons_head, List.map_append,
    List.map_append, hus, hws]

/-- The item moves to the end. -/
theorem LinkedCache.renew_spec (name : QueueName) (h : Holds items cache l nums) (ha : a ∈ l) (hn : numOf items a = some num) :
    ∃ queue' items', cache.renew name a items = some ({ cache with queue := queue' }, items') ∧
      Holds items' { cache with queue := queue' } (l.erase a ++ [a]) (nums.erase num ++ [num]) ∧ Relinked items items' l := by
  obtain ⟨queue₁, items₁, queue', items', hrun, hrun', hq, hrel⟩ := touch_spec h.queued ha
  have hnd := h.queued.linked.nodup
  have hperm : ∀ b, b ∈ l.erase a ++ [a] ↔ b ∈ l := by
    intro b
    rw [List.mem_append, hnd.mem_erase_iff, List.mem_singleton]
    by_cases hb : b = a
    · simp [hb, ha]
    · simp [hb]
  refine ⟨queue', items', ?_, ⟨hq, ?_, ?_, ?_, ?_⟩, hrel⟩
  · rw [renew, hrun, Option.bind_eq_bind, Option.bind_some]
    dsimp only
    rw [hrun']
    rfl
  · have hsame : numOf items' = numOf items := funext fun x => hrel.numOf
    rw [hsame, List.map_append, h.erase ha hn, List.map_singleton, hn, List.map_append, List.map_singleton]
  · exact List.nodup_append.mpr ⟨h.distinct.erase num, List.nodup_singleton num, fun x hx y hy he =>
      (h.distinct.mem_erase_iff.mp hx).1 (he.trans (List.mem_singleton.mp hy))⟩
  · obtain ⟨m, chains, hs, hm⟩ := h.table
    refine ⟨m, chains, hs, fun k b => ?_⟩
    rw [hm, hperm, hrel.numOf]
  · rw [List.length_append, List.length_erase_of_mem ha, List.length_singleton]
    have := List.length_pos_of_mem ha
    have := h.size
    dsimp only
    omega

/-- The oldest item leaves. -/
theorem LinkedCache.drop_spec (h : Holds items cache (a :: l) (num :: nums)) :
    ∃ cache' items', cache.drop items = some (a, cache', items') ∧ Holds items' cache' l nums ∧ Relinked items items' (a :: l) ∧
      cache'.asked = cache.asked := by
  obtain ⟨queue', items', hrun, hq, hrel, _⟩ := left_dequeue_spec h.queued
  obtain ⟨ha, hl⟩ := List.cons.inj h.numbers
  obtain ⟨it, hit, hn⟩ : ∃ it, items'.lookup a = some it ∧ it.c_item_num = num := by
    rw [← hrel.numOf, numOf, contentOf, Option.map_map] at ha
    exact Option.map_eq_some_iff.mp ha
  obtain ⟨m, chains, hs, hm⟩ := h.table
  obtain ⟨ht', hevict, _, hs'⟩ := hs.evict num
  refine ⟨{ cache with queue := queue', ht := ht', size := cache.size - 1 }, items', ?_,
    ⟨hq, ?_, (List.nodup_cons.mp h.distinct).2, ⟨_, _, hs', fun k b => ?_⟩, ?_⟩, hrel, rfl⟩
  · rw [drop, hrun]
    simp only [Option.bind_eq_bind, Option.bind_some, hit, hn, hevict]
  · rw [← hl]
    exact List.map_congr_left fun x _ => hrel.numOf
  · rw [hrel.numOf]
    by_cases hk : k = num
    · subst hk
      rw [AList.lookup_erase]
      refine iff_of_false (Option.some_ne_none b).symm ?_
      rintro ⟨hb, hbn⟩
      have hab := h.numOf_inj (List.mem_cons_of_mem a hb) List.mem_cons_self (hbn.trans ha.symm)
      exact (List.nodup_cons.mp h.queued.linked.nodup).1 (hab ▸ hb)
    · rw [AList.lookup_erase_ne hk, hm]
      refine and_congr_left fun hbn => ?_
      rw [List.mem_cons, or_iff_right fun he => hk (Option.some.inj ((he ▸ hbn).symm.trans ha))]
  · have := h.size
    rw [List.length_cons] at this
    dsimp only
    omega

/-- A new item comes. -/
theorem LinkedCache.add_spec (name : QueueName) (elem : Addr) (it : CacheItem) (h : Holds items cache l nums) (hitem : item ∉ items) (helem : elem ∉ cache.ht.nodes) (hnum : it.c_item_num ∉ nums)
    (hclean : it.next_c_item = none) :
    ∃ cache' items', cache.add name item elem it items = some (cache', items') ∧ Holds items' cache' (l ++ [item]) (nums ++ [it.c_item_num]) ∧
      Relinked (items.insert item it) items' (l ++ [item]) ∧ cache'.asked = cache.asked := by
  have hne : ∀ x ∈ l, x ≠ item := by
    rintro x hx rfl
    obtain ⟨it, hit⟩ := h.queued.lookup_mem hx
    exact hitem (AList.lookup_isSome.mp (by rw [hit]; rfl))
  have hgone : item ∉ l := fun hm => hne item hm rfl
  have h' : Holds (items.insert item it) cache l nums := h.congr fun x hx => AList.lookup_insert_ne (hne x hx)
  have hclean' : name = .cache_i_queue → l = [] → it.next_c_item = none := fun _ _ => hclean
  obtain ⟨queue', items', hrun, hq, hrel⟩ := right_enqueue_spec h'.queued hgone (AList.lookup_insert _) hclean'
  obtain ⟨m, chains, hs, hm⟩ := h'.table
  have habsent : it.c_item_num ∉ m := by
    intro hk
    obtain ⟨b, hb⟩ := Option.isSome_iff_exists.mp (AList.lookup_isSome.mpr hk)
    exact hnum (h'.mem_nums.mpr ⟨b, (hm _ b).mp hb⟩)
  obtain ⟨hins, hs'⟩ := hs.insert (v := item) habsent helem
  have hnew : numOf (items.insert item it) item = some it.c_item_num := numOf_lookup (AList.lookup_insert _)
  refine ⟨{ cache with queue := queue', ht := cache.ht.push it.c_item_num item elem, size := cache.size + 1 }, items', ?_,
    ⟨hq, ?_, ?_, ⟨_, _, hs', fun k b => ?_⟩, ?_⟩, hrel, rfl⟩
  · rw [add, hrun]
    simp only [Option.bind_eq_bind, Option.bind_some, hins]
  · rw [List.map_append, List.map_append, ← h'.numbers, List.map_singleton, List.map_singleton, hrel.numOf, hnew]
    exact congrArg (· ++ _) (List.map_congr_left fun x _ => hrel.numOf)
  · exact List.nodup_append.mpr ⟨h.distinct, List.nodup_singleton _, fun x hx y hy he => hnum ((List.mem_singleton.mp hy) ▸ he ▸ hx)⟩
  · rw [hrel.numOf, List.mem_append, List.mem_singleton]
    by_cases hk : k = it.c_item_num
    · subst hk
      rw [AList.lookup_insert]
      constructor
      · intro he
        obtain rfl := Option.some.inj he
        exact ⟨.inr rfl, hnew⟩
      · rintro ⟨hb | rfl, hbn⟩
        · exact absurd (h'.mem_nums.mpr ⟨b, hb, hbn⟩) hnum
        · rfl
    · rw [AList.lookup_insert_ne hk, hm]
      refine and_congr_left fun hbn => ?_
      rw [or_iff_left fun he => hk (Option.some.inj ((he ▸ hbn).symm.trans hnew))]
  · have := h.size
    rw [List.length_append, List.length_singleton]
    dsimp only
    omega

/-! ## Blocks -/

variable {m : Malloc} {c : Caches} {lb li : List Addr} {b_num i_num : Int}

/-- What else is allocated stays as it is. -/
def Frame (c c' : Caches) (l l' : List Addr) : Prop := ∀ x ∈ c.items, x ∉ l → x ∉ l' ∧ c'.items.lookup x = c.items.lookup x

theorem Holds.asked {asked : List Int} (h : Holds items cache l nums) : Holds items { cache with asked := asked } l nums :=
  ⟨h.queued, h.numbers, h.distinct, h.table, h.size⟩

theorem evict_b_spec (h : Holds c.items c.b (a :: l) (num :: nums)) : ∃ c', evict_b c = some c' ∧ Holds c'.items c'.b l nums ∧
    c'.b.asked = c.b.asked ∧ c'.i = c.i ∧ Frame c c' (a :: l) l := by
  obtain ⟨b, items', hdrop, hb, hrel, hasked⟩ := LinkedCache.drop_spec h
  have hgone := (List.nodup_cons.mp h.queued.linked.nodup).1
  refine ⟨{ c with b := b, items := items'.erase a }, by rw [evict_b, hdrop]; rfl, hb.congr fun x hx => ?_, hasked, rfl, fun x _ hxl => ?_⟩
  · exact AList.lookup_erase_ne fun he => hgone (he ▸ hx)
  · have hxa : x ≠ a := fun he => hxl (he ▸ List.mem_cons_self)
    exact ⟨fun hm => hxl (List.mem_cons_of_mem a hm), (AList.lookup_erase_ne hxa).trans (hrel.outside x hxl)⟩

/-- Room for one more. -/
theorem makeRoom_b_spec (h : Holds c.items c.b lb nums) (hlen : nums.length ≤ BLOCK_CACHESIZE) :
    ∃ c' lb', makeRoom_b c = some c' ∧ Holds c'.items c'.b lb' (if nums.length = BLOCK_CACHESIZE then nums.tail else nums) ∧
      c'.b.asked = c.b.asked ∧ c'.i = c.i ∧ Frame c c' lb lb' := by
  unfold makeRoom_b
  have hsize := h.size
  rw [h.length_eq] at hsize
  by_cases hfull : nums.length = BLOCK_CACHESIZE
  · rw [if_pos (by omega), if_pos hfull]
    cases nums with
    | nil => cases hfull
    | cons num nums =>
      cases lb with
      | nil => exact absurd h.length_eq (by simp)
      | cons a l =>
        obtain ⟨c', hrun, h'⟩ := evict_b_spec h
        exact ⟨c', l, hrun, h'⟩
  · rw [if_neg (by omega), if_neg hfull]
    exact ⟨c, lb, rfl, h, rfl, rfl, fun _ _ hx => ⟨hx, rfl⟩⟩

theorem Malloc.place_item (n : Nat) : m.place n c.used ∉ c.items := fun hm =>
  m.fresh n c.used (List.mem_append_left _ (List.mem_append_left _ hm))

theorem Malloc.place_node {n : Nat} {p : Addr} : m.place n (p :: c.used) ∉ c.b.ht.nodes ∧ m.place n (p :: c.used) ∉ c.i.ht.nodes :=
  ⟨fun hm => m.fresh n (p :: c.used) (List.mem_cons_of_mem p (List.mem_append_left _ (List.mem_append_right _ hm))),
    fun hm => m.fresh n (p :: c.used) (List.mem_cons_of_mem p (List.mem_append_right _ hm))⟩

theorem mem_items_of_lookup {x : Addr} (h : items'.lookup x = items.lookup x) (hx : x ∈ items) : x ∈ items' := by
  rw [← AList.lookup_isSome] at hx ⊢
  rwa [h]

theorem get_b_spec (b_num : Int) (hnull : ∀ n, (m.leftover n).next_c_item = none) (h : Holds c.items c.b lb (recent BLOCK_CACHESIZE c.b.asked)) :
    ∃ p c' lb', get_b m b_num c = some (p, c') ∧ Holds c'.items c'.b lb' (recent BLOCK_CACHESIZE c'.b.asked) ∧
      c'.b.asked = c.b.asked ++ [b_num] ∧ c'.i = c.i ∧ p ∈ lb' ∧ numOf c'.items p = some b_num ∧ Frame c c' lb lb' := by
  have hnext : request BLOCK_CACHESIZE (recent BLOCK_CACHESIZE c.b.asked) b_num = _ := request_recent (by decide)
  have h₀ : Holds c.items { c.b with asked := c.b.asked ++ [b_num] } lb (recent BLOCK_CACHESIZE c.b.asked) := h.asked
  rw [request] at hnext
  unfold get_b
  dsimp only
  by_cases hk : b_num ∈ recent BLOCK_CACHESIZE c.b.asked
  · obtain ⟨a, ha, hn⟩ := h₀.mem_nums.mp hk
    obtain ⟨queue', items', hrun, hholds, hrel⟩ := LinkedCache.renew_spec .cache_b_queue h₀ ha hn
    rw [if_pos hk] at hnext
    rw [hnext] at hholds
    have hsame : numOf items' a = some b_num := hrel.numOf.trans hn
    rw [h₀.query_some ha hn, Option.bind_eq_bind, Option.bind_some]
    dsimp only
    rw [hrun]
    refine ⟨a, _, _, rfl, hholds, rfl, rfl, by simp, hsame, fun x _ hx => ⟨fun hm => ?_, hrel.outside x hx⟩⟩
    rcases List.mem_append.mp hm with hm | hm
    · exact hx (List.mem_of_mem_erase hm)
    · exact hx (List.mem_singleton.mp hm ▸ ha)
  · obtain ⟨c₁, lb₁, hroom, h₁, hasked, hi, hframe⟩ :=
      makeRoom_b_spec (c := { c with b := { c.b with asked := c.b.asked ++ [b_num] } }) h₀ recent_length
    rw [if_neg hk] at hnext
    have hout : b_num ∉ if (recent BLOCK_CACHESIZE c.b.asked).length = BLOCK_CACHESIZE then (recent BLOCK_CACHESIZE c.b.asked).tail
        else recent BLOCK_CACHESIZE c.b.asked := by
      split
      · exact fun hm => hk (List.mem_of_mem_tail hm)
      · exact hk
    obtain ⟨b, items', hadd, hholds, hrel, hasked'⟩ := LinkedCache.add_spec .cache_b_queue (m.place (c₁.mallocs + 1) (m.place c₁.mallocs c₁.used :: c₁.used))
      { m.leftover c₁.mallocs with c_item_num := b_num, dirty := false } h₁ (m.place_item c₁.mallocs) m.place_node.1 hout (hnull _)
    have hb : b.asked = c.b.asked ++ [b_num] := hasked'.trans hasked
    rw [h₀.query_none hk, Option.bind_eq_bind, Option.bind_some]
    dsimp only at hroom ⊢
    rw [hroom, Option.bind_eq_bind, Option.bind_some, hadd]
    rw [hnext, ← hb] at hholds
    refine ⟨_, _, _, rfl, hholds, hb, hi, by simp, ?_, fun x hx hxl => ?_⟩
    · exact hrel.numOf.trans (numOf_lookup (AList.lookup_insert _))
    · obtain ⟨hx₁, hsame⟩ := hframe x hx hxl
      have hne : x ≠ m.place c₁.mallocs c₁.used := fun he => m.place_item (c := c₁) _ (he ▸ mem_items_of_lookup hsame hx)
      have hnew : x ∉ lb₁ ++ [m.place c₁.mallocs c₁.used] := by simp [hx₁, hne]
      exact ⟨hnew, (hrel.outside x hnew).trans ((AList.lookup_insert_ne hne).trans hsame)⟩

/-! ## Inodes -/

/-- `dirty` is neither a link nor a number. -/
theorem Holds.dirty (h : Holds items cache l nums) (hit : items.lookup a = some it) :
    Holds (items.insert a { it with dirty := true }) cache l nums := by
  have hlinks : linksOf (items.insert a { it with dirty := true }) = linksOf items := by
    funext x
    rw [linksOf_insert]
    split
    case isTrue hx => rw [hx, linksOf, hit, Option.map_some]
    case isFalse => rfl
  have hnum : ∀ x, numOf (items.insert a { it with dirty := true }) x = numOf items x := by
    intro x
    rw [numOf, contentOf_insert]
    split
    case isTrue hx => rw [hx, numOf_lookup hit, Option.map_some, CacheItem.content]
    case isFalse => rfl
  obtain ⟨m, chains, hs, hm⟩ := h.table
  refine ⟨⟨h.queued.first, h.queued.last, hlinks ▸ h.queued.linked⟩, ?_, h.distinct, ⟨m, chains, hs, fun k b => ?_⟩, h.size⟩
  · rw [← h.numbers]
    exact List.map_congr_left fun x _ => hnum x
  · rw [hm, hnum]

/-- Both caches hold what they should, each its own items. -/
structure Both (c : Caches) (lb li : List Addr) (nums : List Int) : Prop where
  b : Holds c.items c.b lb (recent BLOCK_CACHESIZE c.b.asked)
  i : Holds c.items c.i li nums
  apart : ∀ x ∈ li, x ∉ lb

theorem Holds.mem_items (h : Holds items cache l nums) (hx : x ∈ l) : x ∈ items := by
  obtain ⟨it, hit⟩ := h.queued.lookup_mem hx
  exact AList.lookup_isSome.mp (by rw [hit]; rfl)

/-- A look at a block leaves the inodes alone. -/
theorem Both.get_b (h : Both c lb li nums) (b_num : Int) (hnull : ∀ n, (m.leftover n).next_c_item = none) : ∃ p c' lb', Pointers.get_b m b_num c = some (p, c') ∧
    Both c' lb' li nums ∧ c'.b.asked = c.b.asked ++ [b_num] ∧ c'.i = c.i ∧ p ∈ lb' ∧ numOf c'.items p = some b_num ∧ Frame c c' lb lb' := by
  obtain ⟨p, c', lb', hrun, hb, hasked, hi, hp, hn, hframe⟩ := get_b_spec b_num hnull h.b
  have hli : ∀ x ∈ li, x ∉ lb' ∧ c'.items.lookup x = c.items.lookup x := fun x hx => hframe x (h.i.mem_items hx) (h.apart x hx)
  exact ⟨p, c', lb', hrun, ⟨hb, hi ▸ h.i.congr fun x hx => (hli x hx).2, fun x hx => (hli x hx).1⟩, hasked, hi, hp, hn, hframe⟩

theorem evict_i_spec (hnull : ∀ n, (m.leftover n).next_c_item = none) (h : Both c lb (a :: l) (num :: nums)) : ∃ c' lb', evict_i m c = some c' ∧
    Both c' lb' l nums ∧ c'.b.asked = c.b.asked ++ [tableBlock num] ∧ c'.i.asked = c.i.asked := by
  obtain ⟨i, items', hdrop, hi, hrel, hasked⟩ := LinkedCache.drop_spec h.i
  have hgone := (List.nodup_cons.mp h.i.queued.linked.nodup).1
  have hlb : ∀ x ∈ lb, x ∉ a :: l := fun x hx hm => h.apart x hm hx
  have h₁ : Both { c with i := i, items := items' } lb l nums :=
    ⟨h.b.congr fun x hx => hrel.outside x (hlb x hx), hi, fun x hx => h.apart x (List.mem_cons_of_mem a hx)⟩
  obtain ⟨it, hit, hn⟩ : ∃ it, items'.lookup a = some it ∧ it.c_item_num = num := by
    have hnum := (List.cons.inj h.i.numbers).1
    rw [← hrel.numOf, numOf, contentOf, Option.map_map] at hnum
    exact Option.map_eq_some_iff.mp hnum
  obtain ⟨p, c₂, lb₂, hrun, h₂, hasked₂, hi₂, hp, hpn, hframe⟩ := h₁.get_b (tableBlock num) hnull
  obtain ⟨block, hblock⟩ := h₂.b.queued.lookup_mem hp
  have ha : a ∉ lb₂ := (hframe a (AList.lookup_isSome.mp (by rw [hit]; rfl)) (h.apart a List.mem_cons_self)).1
  have herase : ∀ x, x ≠ a → ((c₂.items.insert p { block with dirty := true }).erase a).lookup x =
      (c₂.items.insert p { block with dirty := true }).lookup x := fun x hx => AList.lookup_erase_ne hx
  refine ⟨{ c₂ with items := (c₂.items.insert p { block with dirty := true }).erase a }, lb₂, ?_, ⟨?_, ?_, h₂.apart⟩, hasked₂, ?_⟩
  · rw [evict_i, hdrop]
    simp only [Option.bind_eq_bind, Option.bind_some, hit, hn, hrun, h₂.b.query_some hp hpn, hblock]
  · exact (h₂.b.dirty hblock).congr fun x hx => herase x fun he => ha (he ▸ hx)
  · exact (h₂.i.dirty hblock).congr fun x hx => herase x fun he => hgone (he ▸ hx)
  · exact (congrArg LinkedCache.asked hi₂).trans hasked

/-- The table block that the oldest inode goes back to when the cache is full. -/
def writtenBack (nums : List Int) : List Int := if nums.length = INODE_CACHESIZE then (nums.take 1).map tableBlock else []

/-- Room for one more. -/
theorem makeRoom_i_spec (hnull : ∀ n, (m.leftover n).next_c_item = none) (h : Both c lb li nums) (hlen : nums.length ≤ INODE_CACHESIZE) :
    ∃ c' lb' li', makeRoom_i m c = some c' ∧ Both c' lb' li' (if nums.length = INODE_CACHESIZE then nums.tail else nums) ∧
      c'.b.asked = c.b.asked ++ writtenBack nums ∧ c'.i.asked = c.i.asked := by
  unfold makeRoom_i
  have hsize := h.i.size
  rw [h.i.length_eq] at hsize
  by_cases hfull : nums.length = INODE_CACHESIZE
  · rw [if_pos (by omega), if_pos hfull]
    cases nums with
    | nil => cases hfull
    | cons num nums =>
      cases li with
      | nil => exact absurd h.i.length_eq (by simp)
      | cons a l =>
        obtain ⟨c', lb', hrun, h', hasked, hasked'⟩ := evict_i_spec hnull h
        exact ⟨c', lb', l, hrun, h', by rw [hasked, writtenBack, if_pos hfull]; rfl, hasked'⟩
  · rw [if_neg (by omega), if_neg hfull]
    exact ⟨c, lb, li, rfl, h, by rw [writtenBack, if_neg hfull, List.append_nil], rfl⟩

/-- The blocks that `get_i` asks for, when `nums` are cached. -/
def askedFor (nums : List Int) (i_num : Int) : List Int := if i_num ∈ nums then [] else writtenBack nums ++ [tableBlock i_num]

theorem get_i_spec (i_num : Int) (hnull : ∀ n, (m.leftover n).next_c_item = none) (h : Both c lb li (recent INODE_CACHESIZE c.i.asked)) :
    ∃ p c' lb' li', get_i m i_num c = some (p, c') ∧ Both c' lb' li' (recent INODE_CACHESIZE c'.i.asked) ∧
      c'.b.asked = c.b.asked ++ askedFor (recent INODE_CACHESIZE c.i.asked) i_num ∧ c'.i.asked = c.i.asked ++ [i_num] := by
  have hnext : request INODE_CACHESIZE (recent INODE_CACHESIZE c.i.asked) i_num = _ := request_recent (by decide)
  have h₀ : Both { c with i := { c.i with asked := c.i.asked ++ [i_num] } } lb li (recent INODE_CACHESIZE c.i.asked) :=
    ⟨h.b, h.i.asked, h.apart⟩
  rw [request] at hnext
  unfold get_i
  dsimp only
  by_cases hk : i_num ∈ recent INODE_CACHESIZE c.i.asked
  · obtain ⟨a, ha, hn⟩ := h₀.i.mem_nums.mp hk
    obtain ⟨queue', items', hrun, hholds, hrel⟩ := LinkedCache.renew_spec .cache_i_queue h₀.i ha hn
    rw [if_pos hk] at hnext
    rw [hnext] at hholds
    rw [h₀.i.query_some ha hn, Option.bind_eq_bind, Option.bind_some]
    dsimp only
    rw [hrun]
    refine ⟨a, _, lb, _, rfl, ⟨h.b.congr fun x hx => hrel.outside x fun hm => h.apart x hm hx, hholds, fun x hx => ?_⟩,
      by rw [askedFor, if_pos hk, List.append_nil], rfl⟩
    rcases List.mem_append.mp hx with hx | hx
    · exact h.apart x (List.mem_of_mem_erase hx)
    · exact h.apart x (List.mem_singleton.mp hx ▸ ha)
  · obtain ⟨c₁, lb₁, li₁, hroom, h₁, hblocks₁, hasked₁⟩ := makeRoom_i_spec hnull h₀ recent_length
    obtain ⟨_, c₂, lb₂, hrun, h₂, hblocks₂, hi₂, _⟩ := h₁.get_b (tableBlock i_num) hnull
    rw [if_neg hk] at hnext
    have hout : i_num ∉ if (recent INODE_CACHESIZE c.i.asked).length = INODE_CACHESIZE then (recent INODE_CACHESIZE c.i.asked).tail
        else recent INODE_CACHESIZE c.i.asked := by
      split
      · exact fun hm => hk (List.mem_of_mem_tail hm)
      · exact hk
    obtain ⟨i, items', hadd, hholds, hrel, hasked'⟩ := LinkedCache.add_spec .cache_i_queue
      (m.place (c₂.mallocs + 1) (m.place c₂.mallocs c₂.used :: c₂.used)) { m.leftover c₂.mallocs with c_item_num := i_num }
      h₂.i (m.place_item c₂.mallocs) m.place_node.2 hout (hnull _)
    have hi : i.asked = c.i.asked ++ [i_num] := hasked'.trans ((congrArg LinkedCache.asked hi₂).trans hasked₁)
    rw [hnext, ← hi] at hholds
    have hlb : ∀ x ∈ lb₂, x ≠ m.place c₂.mallocs c₂.used := fun x hx he => m.place_item (c := c₂) _ (he ▸ h₂.b.mem_items hx)
    have hapart : ∀ x ∈ li₁ ++ [m.place c₂.mallocs c₂.used], x ∉ lb₂ := by
      intro x hx hm
      rcases List.mem_append.mp hx with hx | hx
      · exact h₂.apart x hx hm
      · exact hlb x hm (List.mem_singleton.mp hx)
    rw [h₀.i.query_none hk, Option.bind_eq_bind, Option.bind_some]
    dsimp only at hroom ⊢
    rw [hroom, Option.bind_eq_bind, Option.bind_some, hrun, Option.bind_eq_bind, Option.bind_some]
    dsimp only
    rw [hadd]
    refine ⟨_, _, lb₂, _, rfl, ⟨h₂.b.congr fun x hx => ?_, hholds, hapart⟩,
      by rw [askedFor, if_neg hk, ← List.append_assoc]; exact hblocks₂.trans (congrArg (· ++ _) hblocks₁), hi⟩
    exact (hrel.outside x fun hm => hapart x hm hx).trans (AList.lookup_insert_ne (hlb x hx))

end Yfs.Pointers
