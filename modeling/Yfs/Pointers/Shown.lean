import Yfs.Logical.Lookups
import Yfs.Pointers.Lru

/-! # The caches of the store are those of the pointers

What the lists of the store hold after some lookups is what the linked queues hold.
-/

namespace Yfs

open Cache Queue Recent Pointers

variable {α : Type} {q q' : CacheQueue α} {item : CacheItem α} {s t : Store} {p : Ptr} {b i k : Int} {cap : Nat}

def Queue.nums (q : CacheQueue α) : List Int := q.map CacheItem.c_item_num

theorem Queue.mem_nums : k ∈ nums q ↔ ∃ item ∈ q, item.c_item_num = k := List.mem_map

theorem Queue.touch_nums (hd : Distinct CacheItem.c_item_num q) :
    nums (touch CacheItem.c_item_num q item) = (nums q).erase item.c_item_num ++ [item.c_item_num] := by
  unfold touch nums remove
  rw [List.map_append, List.Nodup.erase_eq_filter hd, List.filter_map]
  congr 3
  funext x
  exact decide_not

/-- A lookup that finds its number, or makes room for it. -/
theorem Queue.nums_request (hd : Distinct CacheItem.c_item_num q)
    (h : (∃ item ∈ q, item.c_item_num = k ∧ q' = touch CacheItem.c_item_num q item) ∨
      ∃ r item, (∀ y ∈ q, y.c_item_num ≠ k) ∧ (r = q ∧ q.length ≠ cap ∨ q.length = cap ∧ r = q.tail) ∧ q' = r ++ [item] ∧
        item.c_item_num = k) : nums q' = request cap (nums q) k := by
  rw [request]
  rcases h with ⟨item, hm, rfl, rfl⟩ | ⟨r, item, habsent, hroom, rfl, rfl⟩
  · rw [if_pos (mem_nums.mpr ⟨item, hm, rfl⟩), touch_nums hd]
  · have hout : item.c_item_num ∉ nums q := fun hm => by
      obtain ⟨y, hy, he⟩ := mem_nums.mp hm
      exact habsent y hy he
    have hlen : (nums q).length = q.length := List.length_map _
    rw [if_neg hout, hlen]
    rcases hroom with ⟨rfl, hne⟩ | ⟨hfull, rfl⟩
    · rw [if_neg hne]
      exact List.map_append
    · rw [if_pos hfull, nums, nums, List.map_append, List.map_tail]
      rfl

/-! ## One lookup -/

theorem Cache.get_b_nums (h : s.Tidy) (hg : Cache.get_b b s = some (p, t)) :
    nums t.cache_b_queue = request BLOCK_CACHESIZE (nums s.cache_b_queue) b := by
  refine nums_request h.blocks.distinct ?_
  unfold Cache.get_b at hg
  split at hg
  case h_1 item hq =>
    obtain ⟨rfl, rfl⟩ := Prod.mk.inj (Option.some.inj hg)
    obtain ⟨hm, hnum⟩ := lookup_mem hq
    exact .inl ⟨item, hm, hnum, rfl⟩
  case h_2 hq =>
    obtain ⟨r, hr, hg⟩ := Option.bind_eq_some_iff.mp hg
    obtain ⟨block, _, hg⟩ := Option.bind_eq_some_iff.mp hg
    obtain ⟨rfl, rfl⟩ := Prod.mk.inj (Option.some.inj hg)
    exact .inr ⟨_, _, Queue.lookup_none hq, (makeRoom_b_queue hr).2, rfl, rfl⟩

theorem Cache.get_i_nums (h : s.Tidy) (hg : Cache.get_i i s = some (p, t)) :
    nums t.cache_i_queue = request INODE_CACHESIZE (nums s.cache_i_queue) i := by
  refine nums_request h.inodes ?_
  rcases get_i_queue h hg with ⟨item, hm, hnum, _, hq, _⟩ | ⟨r, item, habsent, hroom, hq, hnum, _⟩
  · exact .inl ⟨item, hm, hnum, hq⟩
  · exact .inr ⟨r, item, habsent, hroom, hq, hnum⟩

theorem Cache.makeRoom_i_blocks (h : s.Tidy) (hr : makeRoom_i s = some t) : nums t.cache_b_queue =
    (writtenBack (nums s.cache_i_queue)).foldl (request BLOCK_CACHESIZE) (nums s.cache_b_queue) := by
  have hlen : (nums s.cache_i_queue).length = s.cache_i_queue.length := List.length_map _
  rw [writtenBack, hlen]
  unfold makeRoom_i at hr
  split at hr
  case isTrue hfull =>
    rw [if_pos hfull]
    unfold evict_i at hr
    split at hr
    case h_1 => cases hr
    case h_2 lru rest hqueue =>
      obtain ⟨⟨ptr, u⟩, hgu, hr⟩ := Option.bind_eq_some_iff.mp hr
      obtain ⟨block, _, hr⟩ := Option.bind_eq_some_iff.mp hr
      obtain ⟨slot, _, hr⟩ := Option.bind_eq_some_iff.mp hr
      obtain ⟨q, ha, hr⟩ := Option.bind_eq_some_iff.mp hr
      obtain ⟨q', hd, hr⟩ := Option.bind_eq_some_iff.mp hr
      obtain rfl := Option.some.inj hr
      have hu := get_b_nums (h.rest hqueue) hgu
      rw [hqueue]
      exact (markDirty_nums hd).trans ((assign_nums ha).trans hu)
  case isFalse hroom =>
    obtain rfl := Option.some.inj hr
    rw [if_neg hroom, List.foldl_nil]

/-- The blocks that an inode lookup asks for. -/
theorem Cache.get_i_blocks (h : s.Tidy) (hg : Cache.get_i i s = some (p, t)) : nums t.cache_b_queue =
    (askedFor (nums s.cache_i_queue) i).foldl (request BLOCK_CACHESIZE) (nums s.cache_b_queue) := by
  unfold Cache.get_i at hg
  split at hg
  case h_1 item hq =>
    obtain ⟨rfl, rfl⟩ := Prod.mk.inj (Option.some.inj hg)
    obtain ⟨hm, hnum⟩ := lookup_mem hq
    rw [askedFor, if_pos (mem_nums.mpr ⟨item, hm, hnum⟩), List.foldl_nil]
  case h_2 hq =>
    obtain ⟨r, hr, hg⟩ := Option.bind_eq_some_iff.mp hg
    obtain ⟨⟨ptr, u⟩, hgb, hg⟩ := Option.bind_eq_some_iff.mp hg
    obtain ⟨block, _, hg⟩ := Option.bind_eq_some_iff.mp hg
    obtain ⟨slot, _, hg⟩ := Option.bind_eq_some_iff.mp hg
    obtain ⟨rfl, rfl⟩ := Prod.mk.inj (Option.some.inj hg)
    have hout : i ∉ nums s.cache_i_queue := fun hm => by
      obtain ⟨y, hy, he⟩ := mem_nums.mp hm
      exact Queue.lookup_none hq y hy he
    have hown := get_b_nums (makeRoom_i_used h hr).1 hgb
    rw [askedFor, if_neg hout, List.foldl_append, ← makeRoom_i_blocks h hr]
    exact hown

/-! ## Runs -/

namespace Pointers

def Lookup.onStore : Lookup → Store → Option Store
  | .get_b b_num, s => (Cache.get_b b_num s).map Prod.snd
  | .get_i i_num, s => (Cache.get_i i_num s).map Prod.snd

/-- The caches hold what was asked for last. -/
structure Shows (s : Store) (asked : Asked) : Prop where
  tidy : s.Tidy
  b : nums s.cache_b_queue = recent BLOCK_CACHESIZE asked.b
  i : nums s.cache_i_queue = recent INODE_CACHESIZE asked.i

variable {asked : Asked} {call : Lookup} {m : Malloc}

theorem Shows.step (h : Shows s asked) (hrun : call.onStore s = some t) : Shows t (call.ask asked) := by
  cases call with
  | get_b b_num =>
    obtain ⟨⟨p, u⟩, hg, rfl⟩ := Option.map_eq_some_iff.mp hrun
    obtain ⟨htidy, hi⟩ := get_b_tidy h.tidy hg
    refine ⟨htidy, ?_, (congrArg nums hi).trans h.i⟩
    rw [Cache.get_b_nums h.tidy hg, h.b]
    exact request_recent (by decide)
  | get_i i_num =>
    obtain ⟨⟨p, u⟩, hg, rfl⟩ := Option.map_eq_some_iff.mp hrun
    refine ⟨(get_i_used h.tidy hg).1, ?_, ?_⟩
    · rw [Cache.get_i_blocks h.tidy hg, h.b, h.i]
      exact requests_recent (by decide)
    · rw [Cache.get_i_nums h.tidy hg, h.i]
      exact request_recent (by decide)

theorem Shows.run {calls : List Lookup} (h : Shows s asked) (hrun : calls.foldlM (fun s call => call.onStore s) s = some t) :
    Shows t (Lookup.asks calls asked) := by
  induction calls generalizing s asked with
  | nil =>
    obtain rfl := Option.some.inj hrun
    exact h
  | cons call calls ih =>
    obtain ⟨u, hu, hrest⟩ := Option.bind_eq_some_iff.mp hrun
    exact ih (h.step hu) hrest

theorem shows_emptyCaches {n : Int} {sectors : Int → Block} {fresh : Nat → Bool} : Shows (emptyCaches n sectors fresh) ⟨[], []⟩ :=
  ⟨⟨⟨List.nodup_nil, fun _ hx => (nomatch hx), Nat.zero_le _⟩, List.nodup_nil, fun _ hx => nomatch hx⟩, rfl, rfl⟩

/-- The same lookups leave the same numbers in the lists of the store and in the linked queues, in the same order. -/
theorem store_shows_queues {calls : List Lookup} {n : Int} {sectors : Int → Block} {fresh : Nat → Bool}
    (hnull : ∀ n, (m.leftover n).next_c_item = none)
    (hrun : calls.foldlM (fun s call => call.onStore s) (emptyCaches n sectors fresh) = some s) :
    ∃ c lb li, Lookup.execs m calls noCaches = some c ∧
      Proper (c.b.queue, c.items) lb ∧ lb.map (numOf c.items) = (nums s.cache_b_queue).map some ∧
      Proper (c.i.queue, c.items) li ∧ li.map (numOf c.items) = (nums s.cache_i_queue).map some := by
  obtain ⟨c, lb, li, hexec, h, hasked⟩ := Lookup.execs_spec hnull calls noCaches_both
  have hshows := shows_emptyCaches.run hrun
  have hb : c.b.asked = (Lookup.asks calls ⟨[], []⟩).b := congrArg Asked.b hasked
  have hi : c.i.asked = (Lookup.asks calls ⟨[], []⟩).i := congrArg Asked.i hasked
  exact ⟨c, lb, li, hexec, h.b.queued.proper, by rw [hshows.b, ← hb]; exact h.b.numbers,
    h.i.queued.proper, by rw [hshows.i, ← hi]; exact h.i.numbers⟩

end Pointers

end Yfs
