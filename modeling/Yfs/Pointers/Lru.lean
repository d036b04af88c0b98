import Yfs.Pointers.Caches

/-! # Both caches are exact LRU caches -/

namespace Yfs.Pointers

open Recent

/-- A call of `get_b` or of `get_i`. -/
inductive Lookup where
  | get_b (b_num : Int)
  | get_i (i_num : Int)

/-- The numbers asked for, of blocks and of inodes. -/
structure Asked where
  b : List Int
  i : List Int

namespace Lookup

def exec (m : Malloc) : Lookup → Caches → Option Caches
  | .get_b b_num, c => (Pointers.get_b m b_num c).map Prod.snd
  | .get_i i_num, c => (Pointers.get_i m i_num c).map Prod.snd

/-- `get_i` asks for blocks itself. -/
def ask (q : Asked) : Lookup → Asked
  | .get_b b_num => { q with b := q.b ++ [b_num] }
  | .get_i i_num => { b := q.b ++ askedFor (recent INODE_CACHESIZE q.i) i_num, i := q.i ++ [i_num] }

def execs (m : Malloc) (calls : List Lookup) (c : Caches) : Option Caches := calls.foldlM (fun c call => call.exec m c) c

def asks (calls : List Lookup) (q : Asked) : Asked := calls.foldl ask q

end Lookup

variable {m : Malloc} {c : Caches} {lb li l : List Addr} {items : Heap CacheItem} {cache : LinkedCache} {cap : Nat} {asked : List Int}

/-- The cache is the list `l` of its items, and they are those asked for last, oldest first. -/
structure ExactLru (items : Heap CacheItem) (cache : LinkedCache) (cap : Nat) (asked : List Int) (l : List Addr) : Prop where
  proper : Proper (cache.queue, items) l
  numbers : l.map (numOf items) = (recent cap asked).map some
  distinct : (recent cap asked).Nodup
  mapped : ∀ k a, query_ht cache.ht k = some (some a) ↔ a ∈ l ∧ numOf items a = some k
  unmapped : ∀ k, query_ht cache.ht k = some none ↔ k ∉ recent cap asked
  size : cache.size = l.length
  within : l.length ≤ cap

theorem Holds.exactLru (h : Holds items cache l (recent cap asked)) : ExactLru items cache cap asked l := by
  obtain ⟨f, chains, hs, hf⟩ := h.table
  refine ⟨h.queued.proper, h.numbers, h.distinct, fun k a => ?_, fun k => ?_, h.size, h.length_eq ▸ recent_length⟩
  · rw [hs.query, Option.some_inj]
    exact hf k a
  · refine ⟨fun hq hk => ?_, h.query_none⟩
    obtain ⟨a, ha, hn⟩ := h.mem_nums.mp hk
    rw [h.query_some ha hn] at hq
    cases hq

/-- A call keeps both caches exact. -/
theorem Lookup.exec_spec (hnull : ∀ n, (m.leftover n).next_c_item = none) (h : Both c lb li (recent INODE_CACHESIZE c.i.asked))
    (call : Lookup) : ∃ c' lb' li', call.exec m c = some c' ∧ Both c' lb' li' (recent INODE_CACHESIZE c'.i.asked) ∧
      ⟨c'.b.asked, c'.i.asked⟩ = call.ask ⟨c.b.asked, c.i.asked⟩ := by
  cases call with
  | get_b b_num =>
    obtain ⟨p, c', lb', hrun, h', hasked, hi, _⟩ := h.get_b b_num hnull
    refine ⟨c', lb', li, by rw [exec, hrun]; rfl, hi ▸ h', by rw [hasked, hi]; rfl⟩
  | get_i i_num =>
    obtain ⟨p, c', lb', li', hrun, h', hb, hi⟩ := get_i_spec i_num hnull h
    exact ⟨c', lb', li', by rw [exec, hrun]; rfl, h', by rw [hb, hi]; rfl⟩

theorem Lookup.execs_spec (hnull : ∀ n, (m.leftover n).next_c_item = none) (calls : List Lookup)
    (h : Both c lb li (recent INODE_CACHESIZE c.i.asked)) : ∃ c' lb' li', execs m calls c = some c' ∧
      Both c' lb' li' (recent INODE_CACHESIZE c'.i.asked) ∧ ⟨c'.b.asked, c'.i.asked⟩ = asks calls ⟨c.b.asked, c.i.asked⟩ := by
  induction calls generalizing c lb li with
  | nil => exact ⟨c, lb, li, rfl, h, rfl⟩
  | cons call calls ih =>
    obtain ⟨c₁, lb₁, li₁, hrun, h₁, hask⟩ := exec_spec hnull h call
    obtain ⟨c', lb', li', hruns, h', hasks⟩ := ih h₁
    refine ⟨c', lb', li', ?_, h', ?_⟩
    · rw [execs, List.foldlM_cons, hrun]
      exact hruns
    · rw [hasks, hask]
      rfl

theorem noCaches_both : Both noCaches [] [] (recent INODE_CACHESIZE noCaches.i.asked) :=
  ⟨⟨.empty, rfl, List.nodup_nil, ⟨∅, _, .empty, fun k a => by simp⟩, rfl⟩,
    ⟨.empty, rfl, List.nodup_nil, ⟨∅, _, .empty, fun k a => by simp⟩, rfl⟩, fun _ hx => nomatch hx⟩

/-- **Both caches are exact LRU caches.** Whatever is looked up from empty caches, no assertion fails, and each cache holds the
numbers that were asked for last, oldest first. -/
theorem caches_exact (hnull : ∀ n, (m.leftover n).next_c_item = none) (calls : List Lookup) :
    ∃ c lb li, Lookup.execs m calls noCaches = some c ∧ ExactLru c.items c.b BLOCK_CACHESIZE (Lookup.asks calls ⟨[], []⟩).b lb ∧
      ExactLru c.items c.i INODE_CACHESIZE (Lookup.asks calls ⟨[], []⟩).i li := by
  obtain ⟨c, lb, li, hrun, h, hasked⟩ := Lookup.execs_spec hnull calls noCaches_both
  have hb : c.b.asked = (Lookup.asks calls ⟨[], []⟩).b := congrArg Asked.b hasked
  have hi : c.i.asked = (Lookup.asks calls ⟨[], []⟩).i := congrArg Asked.i hasked
  exact ⟨c, lb, li, hrun, hb ▸ h.b.exactLru, hi ▸ h.i.exactLru⟩

/-- Things go behind what is there, into zeroed memory. -/
def zeroedMemory : Malloc :=
  { place := fun _ used => used.sum + 1
    fresh := fun _ used hm => absurd (List.single_le_sum (fun _ _ => Nat.zero_le _) _ hm) (by omega)
    leftover := fun _ => { c_item_num := 0, dirty := false, prev_c_item := none, next_c_item := none } }

theorem caches_exact_zeroed :
    ∃ c lb li, Lookup.execs zeroedMemory [.get_i 1, .get_b 4, .get_i 9, .get_i 1] noCaches = some c ∧
      ExactLru c.items c.b BLOCK_CACHESIZE [1, 4, 2] lb ∧ ExactLru c.items c.i INODE_CACHESIZE [1, 9, 1] li :=
  caches_exact (m := zeroedMemory) (fun _ => rfl) [.get_i 1, .get_b 4, .get_i 9, .get_i 1]

end Yfs.Pointers
