import Yfs.Code.Pointers
import Yfs.Lib.Links

/-! # The queues are the lists that their links spell -/

namespace Yfs.Pointers

open Links

variable {items items' : Heap CacheItem} {queue : ItemQueue} {name : QueueName} {a x : Addr} {it : CacheItem} {l xs ys : List Addr} {S T : List Addr}

def linksOf (items : Heap CacheItem) (a : Addr) : Option (Pair Addr) := (items.lookup a).map fun it => ⟨it.prev_c_item, it.next_c_item⟩

/-- What is no link. -/
def CacheItem.content (it : CacheItem) : Int × Bool := (it.c_item_num, it.dirty)

def contentOf (items : Heap CacheItem) (a : Addr) : Option (Int × Bool) := (items.lookup a).map CacheItem.content

theorem linksOf_insert : linksOf (items.insert a it) x = if x = a then some ⟨it.prev_c_item, it.next_c_item⟩ else linksOf items x := by
  unfold linksOf
  split
  case isTrue h => rw [h, AList.lookup_insert, Option.map_some]
  case isFalse h => rw [AList.lookup_insert_ne h]

theorem contentOf_insert : contentOf (items.insert a it) x = if x = a then some it.content else contentOf items x := by
  unfold contentOf
  split
  case isTrue h => rw [h, AList.lookup_insert, Option.map_some]
  case isFalse h => rw [AList.lookup_insert_ne h]

theorem linksOf_eq_some {q : Pair Addr} (h : linksOf items a = some q) :
    ∃ it, items.lookup a = some it ∧ it.prev_c_item = q.prev ∧ it.next_c_item = q.next := by
  obtain ⟨it, hit, rfl⟩ := Option.map_eq_some_iff.mp h
  exact ⟨it, hit, rfl, rfl⟩

def nextOf (items : Heap CacheItem) (a : Addr) : Option Addr := (items.lookup a).bind CacheItem.next_c_item

theorem nextOf_insert {old : CacheItem} (hold : items.lookup a = some old) (hn : it.next_c_item = old.next_c_item) :
    nextOf (items.insert a it) a = nextOf items a := by
  rw [nextOf, AList.lookup_insert, nextOf, hold, Option.bind_some, Option.bind_some, hn]

theorem nextOf_insert_ne (hx : x ≠ a) : nextOf (items.insert a it) x = nextOf items x := by
  rw [nextOf, AList.lookup_insert_ne hx, nextOf]

/-- Links of `S` have changed, and nothing else. -/
structure Relinked (items items' : Heap CacheItem) (S : List Addr) : Prop where
  content : ∀ x, contentOf items' x = contentOf items x
  outside : ∀ x, x ∉ S → items'.lookup x = items.lookup x

theorem Relinked.trans {items'' : Heap CacheItem} (h : Relinked items items' S) (h' : Relinked items' items'' S) : Relinked items items'' S :=
  ⟨fun x => (h'.content x).trans (h.content x), fun x hx => (h'.outside x hx).trans (h.outside x hx)⟩

theorem Relinked.mono (h : Relinked items items' S) (hS : ∀ x ∈ S, x ∈ T) : Relinked items items' T :=
  ⟨h.content, fun x hx => h.outside x fun hs => hx (hS x hs)⟩

theorem Relinked.refl : Relinked items items S := ⟨fun _ => rfl, fun _ _ => rfl⟩

theorem Relinked.insert {old : CacheItem} (hold : items.lookup a = some old) (hc : it.content = old.content) (ha : a ∈ S) :
    Relinked items (items.insert a it) S := by
  constructor
  · intro x
    rw [contentOf_insert]
    split
    case isTrue h => rw [h, contentOf, hold, hc, Option.map_some]
    case isFalse => rfl
  · intro x hx
    exact AList.lookup_insert_ne fun he => hx (he ▸ ha)

/-- The queue is the list `l`. -/
structure Queued (items : Heap CacheItem) (queue : ItemQueue) (l : List Addr) : Prop where
  first : queue.q_first = l.head?
  last : queue.q_last = l.getLast?
  linked : Linked (linksOf items) l

theorem Queued.empty : Queued items { q_first := none, q_last := none } [] := ⟨rfl, rfl, .nil⟩

/-- Other items do not matter. -/
theorem Queued.congr (h : Queued items queue l) (hsame : ∀ x ∈ l, items'.lookup x = items.lookup x) : Queued items' queue l :=
  ⟨h.first, h.last, h.linked.congr fun x hx => by rw [linksOf, hsame x hx, linksOf]⟩

/-- The neighbours of a queued item. -/
theorem Queued.lookup (h : Queued items queue (xs ++ a :: ys)) :
    ∃ it, items.lookup a = some it ∧ it.prev_c_item = xs.getLast? ∧ it.next_c_item = ys.head? :=
  linksOf_eq_some h.linked.neighbours

theorem Queued.lookup_mem (h : Queued items queue l) (ha : a ∈ l) : ∃ it, items.lookup a = some it := by
  obtain ⟨xs, ys, rfl⟩ := List.append_of_mem ha
  obtain ⟨it, hit, _⟩ := h.lookup
  exact ⟨it, hit⟩

/-! ## Taking the first item -/

theorem left_dequeue_spec (h : Queued items queue (a :: l)) : ∃ queue' items', left_dequeue queue items = some (some a, queue', items') ∧
    Queued items' queue' l ∧ Relinked items items' (a :: l) ∧ nextOf items' a = nextOf items a := by
  obtain ⟨⟨num, dirty, prev, _⟩, hfirst, _, rfl⟩ := Queued.lookup (show Queued items queue ([] ++ a :: l) from h)
  have hnd := List.nodup_cons.mp h.linked.nodup
  unfold left_dequeue
  rw [h.first, List.head?_cons]
  dsimp only
  rw [hfirst, Option.bind_eq_bind, Option.bind_some]
  cases l with
  | nil => exact ⟨_, _, rfl, .empty, .insert hfirst rfl List.mem_cons_self, nextOf_insert hfirst rfl⟩
  | cons b l =>
    have hba : b ≠ a := fun he => hnd.1 (he ▸ List.mem_cons_self)
    obtain ⟨second, hsecond, _, _⟩ := Queued.lookup (show Queued items queue ([a] ++ b :: l) from h)
    have hsecond' : (items.insert a ⟨num, dirty, none, some b⟩).lookup b = some second := (AList.lookup_insert_ne hba).trans hsecond
    dsimp only [List.head?_cons]
    rw [hsecond', Option.bind_some]
    refine ⟨_, _, rfl, ⟨rfl, h.last.trans List.getLast?_cons_cons, ?_⟩, ?_, ?_⟩
    · have hlinked : Linked (linksOf items) ([] ++ a :: b :: l) := h.linked
      refine hlinked.remove (fun z hz => nomatch hz) (fun z hz q hq => ?_) fun x hx _ hne => ?_
      · obtain rfl := Option.some.inj hz
        obtain ⟨it, hit, rfl, rfl⟩ := Option.map_eq_some_iff.mp hq
        obtain rfl := Option.some.inj (hsecond.symm.trans hit)
        rw [linksOf_insert, if_pos rfl]
        rfl
      · rw [linksOf_insert, if_neg fun he : x = b => hne (congrArg some he.symm), linksOf_insert, if_neg fun he : x = a => hnd.1 (he ▸ hx)]
    · have hone : Relinked items (items.insert a ⟨num, dirty, none, some b⟩) (a :: b :: l) := .insert hfirst rfl List.mem_cons_self
      exact hone.trans (.insert hsecond' rfl (List.mem_cons_of_mem _ List.mem_cons_self))
    · exact (nextOf_insert_ne hba.symm).trans (nextOf_insert hfirst rfl)

/-! ## Taking any item -/

theorem right_dequeue_spec (h : Queued items queue l) (ha : a ∈ l) : ∃ queue' items', right_dequeue queue a items = some (queue', items') ∧
    Queued items' queue' (l.erase a) ∧ Relinked items items' l ∧ nextOf items' a = nextOf items a := by
  obtain ⟨xs, ys, rfl⟩ := List.append_of_mem ha
  have hnd := h.linked.nodup
  rw [List.nodup_middle, List.nodup_cons, List.mem_append, not_or] at hnd
  obtain ⟨⟨hx, hy⟩, hnd⟩ := hnd
  obtain ⟨⟨num, dirty, _, _⟩, hit, rfl, rfl⟩ := h.lookup
  have herase : (xs ++ a :: ys).erase a = xs ++ ys := by rw [List.erase_append_right _ hx, List.erase_cons_head]
  rw [herase]
  unfold right_dequeue
  rw [hit, Option.bind_eq_bind, Option.bind_some]
  dsimp only
  rcases List.eq_nil_or_concat xs with rfl | ⟨us, z, rfl⟩
  · obtain ⟨queue', items', hrun, hq, hrel, hnext⟩ := left_dequeue_spec h
    exact ⟨queue', items', by dsimp only [List.getLast?_nil]; rw [hrun]; rfl, hq, hrel, hnext⟩
  · rw [List.concat_eq_append] at *
    have hfirst : queue.q_first = (us ++ [z] ++ ys).head? := by rw [h.first]; simp
    obtain ⟨before, hbefore, _, hz⟩ := Queued.lookup (show Queued items queue (us ++ z :: a :: ys) by simpa using h)
    have hza : z ≠ a := fun he => hx (he ▸ List.mem_concat_self)
    rw [List.getLast?_concat]
    dsimp only
    rw [hbefore, Option.bind_some]
    have hone : Relinked items (items.insert z { before with next_c_item := ys.head? }) (us ++ [z] ++ a :: ys) :=
      .insert hbefore rfl (by simp)
    have hlinks : ∀ q, linksOf items z = some q → q = ⟨before.prev_c_item, before.next_c_item⟩ := by
      intro q hq
      rw [linksOf, hbefore] at hq
      exact (Option.some.inj hq).symm
    cases ys with
    | nil =>
      refine ⟨_, _, rfl, ⟨hfirst, by simp, ?_⟩, hone, nextOf_insert_ne hza.symm⟩
      refine h.linked.remove (fun w hw q hq => ?_) (fun w hw => nomatch hw) fun x _ hne _ => ?_
      · rw [List.getLast?_concat] at hw
        obtain rfl := Option.some.inj hw
        rw [linksOf_insert, if_pos rfl, hlinks q hq]
      · rw [linksOf_insert, if_neg fun he => hne (by rw [List.getLast?_concat, he])]
    | cons b vs =>
      obtain ⟨after, hafter, _, _⟩ := Queued.lookup (show Queued items queue (us ++ [z] ++ [a] ++ b :: vs) by simpa using h)
      have hbz : b ≠ z := fun he => (List.nodup_append.mp hnd).2.2 z List.mem_concat_self b List.mem_cons_self he.symm
      have hba : b ≠ a := fun he => hy (he ▸ List.mem_cons_self)
      have hafter' : (items.insert z { before with next_c_item := some b }).lookup b = some after :=
        (AList.lookup_insert_ne hbz).trans hafter
      dsimp only [List.head?_cons]
      rw [hafter', Option.bind_some]
      refine ⟨_, _, rfl, ⟨hfirst, h.last.trans (by simp), ?_⟩, hone.trans (.insert hafter' rfl (by simp)),
        (nextOf_insert_ne hba.symm).trans (nextOf_insert_ne hza.symm)⟩
      refine h.linked.remove (fun w hw q hq => ?_) (fun w hw q hq => ?_) fun x _ hne hne' => ?_
      · rw [List.getLast?_concat] at hw
        obtain rfl := Option.some.inj hw
        rw [linksOf_insert, if_neg hbz.symm, linksOf_insert, if_pos rfl, hlinks q hq]
        rfl
      · obtain rfl := Option.some.inj hw
        rw [linksOf, hafter] at hq
        obtain rfl := Option.some.inj hq
        rw [linksOf_insert, if_pos rfl, List.getLast?_concat]
      · rw [linksOf_insert, if_neg fun he => hne' (by rw [he]; rfl), linksOf_insert,
          if_neg fun he => hne (by rw [List.getLast?_concat, he])]

/-! ## Adding an item at the end -/

theorem right_enqueue_spec (h : Queued items queue l) (ha : a ∉ l) (hit : items.lookup a = some it)
    (hclean : name = .cache_i_queue → l = [] → it.next_c_item = none) :
    ∃ queue' items', right_enqueue a name queue items = some (queue', items') ∧ Queued items' queue' (l ++ [a]) ∧
      Relinked items items' (l ++ [a]) := by
  unfold right_enqueue
  rw [h.first]
  rcases List.eq_nil_or_concat l with rfl | ⟨xs, z, rfl⟩
  · dsimp only [List.head?_nil]
    rw [hit, Option.bind_eq_bind, Option.bind_some]
    refine ⟨_, _, rfl, ⟨rfl, rfl, h.linked.concat ha ?_ (fun z hz => nomatch hz) fun x hx => nomatch hx⟩, ?_⟩
    · rw [linksOf_insert, if_pos rfl]
      split
      case isTrue => rfl
      case isFalse hn =>
        have hname : name = .cache_i_queue := by cases name <;> first | rfl | exact absurd rfl hn
        rw [hclean hname rfl]
        rfl
    · refine .insert hit ?_ (by simp)
      split <;> rfl
  · rw [List.concat_eq_append] at *
    obtain ⟨before, hbefore, _⟩ := h.lookup
    have haz : a ≠ z := fun he => ha (he ▸ List.mem_concat_self)
    have hsome : ∃ f, (xs ++ [z]).head? = some f := by cases xs <;> exact ⟨_, rfl⟩
    obtain ⟨f, hf⟩ := hsome
    have hit' : (items.insert z { before with next_c_item := some a }).lookup a = some it := (AList.lookup_insert_ne haz).trans hit
    have hone : Relinked items (items.insert z { before with next_c_item := some a }) (xs ++ [z] ++ [a]) := .insert hbefore rfl (by simp)
    rw [hf]
    dsimp only
    rw [h.last, List.getLast?_concat]
    simp only [Option.bind_eq_bind, Option.bind_some, hbefore, hit']
    refine ⟨_, _, rfl, ⟨by rw [List.head?_append, hf]; rfl, by rw [List.getLast?_concat], ?_⟩,
      hone.trans (.insert hit' rfl (by simp))⟩
    refine h.linked.concat ha ?_ (fun w hw q hq => ?_) fun x hx hne => ?_
    · rw [linksOf_insert, if_pos rfl, List.getLast?_concat]
    · rw [List.getLast?_concat] at hw
      obtain rfl := Option.some.inj hw
      rw [linksOf, hbefore] at hq
      obtain rfl := Option.some.inj hq
      rw [linksOf_insert, if_neg haz.symm, linksOf_insert, if_pos rfl]
    · rw [linksOf_insert, if_neg fun he : x = a => ha (he ▸ hx), linksOf_insert, if_neg fun he => hne (by rw [List.getLast?_concat, he])]

/-! ## Moving an item to the end -/

theorem touch_spec (h : Queued items queue l) (ha : a ∈ l) :
    ∃ queue₁ items₁ queue' items', right_dequeue queue a items = some (queue₁, items₁) ∧
      right_enqueue a name queue₁ items₁ = some (queue', items') ∧ Queued items' queue' (l.erase a ++ [a]) ∧ Relinked items items' l := by
  obtain ⟨queue₁, items₁, hrun, hq, hrel, hnext⟩ := right_dequeue_spec h ha
  obtain ⟨it₁, hit₁⟩ : ∃ it₁, items₁.lookup a = some it₁ := by
    obtain ⟨it, hit⟩ := h.lookup_mem ha
    have hc := hrel.content a
    rw [contentOf, contentOf, hit, Option.map_some] at hc
    obtain ⟨it₁, hit₁, _⟩ := Option.map_eq_some_iff.mp hc
    exact ⟨it₁, hit₁⟩
  have hgone : a ∉ l.erase a := fun hm => (h.linked.nodup.mem_erase_iff.mp hm).1 rfl
  -- The only item of a queue has a null link already.
  have hclean : name = .cache_i_queue → l.erase a = [] → it₁.next_c_item = none := by
    intro _ hnone
    obtain ⟨xs, ys, rfl⟩ := List.append_of_mem ha
    obtain ⟨it, hit, _, hn⟩ := h.lookup
    have hlen := congrArg List.length hnone
    rw [List.length_erase_of_mem ha] at hlen
    simp only [List.length_append, List.length_cons, List.length_nil] at hlen
    obtain rfl := List.length_eq_zero_iff.mp (by omega : ys.length = 0)
    rw [nextOf, nextOf, hit, hit₁, Option.bind_some, Option.bind_some, hn] at hnext
    exact hnext
  obtain ⟨queue', items', hrun', hq', hrel'⟩ := right_enqueue_spec hq hgone hit₁ hclean
  refine ⟨queue₁, items₁, queue', items', hrun, hrun', hq', hrel.trans (hrel'.mono fun x hx => ?_)⟩
  rcases List.mem_append.mp hx with hx | hx
  · exact List.mem_of_mem_erase hx
  · rwa [List.mem_singleton.mp hx]

/-! ## Runs -/

/-- A queue, and the items in memory. -/
abbrev QueueState : Type := ItemQueue × Heap CacheItem

/-- What the caches do to a queue. `malloc` gives a new item with `leftover` in it. -/
inductive QueueOp where
  | enqueue (item : Addr) (leftover : CacheItem)
  | touch (item : Addr)
  | dequeue

namespace QueueOp

def exec (name : QueueName) : QueueOp → QueueState → Option QueueState
  | .enqueue item leftover, (queue, items) => right_enqueue item name queue (items.insert item leftover)
  | .touch item, (queue, items) => do
    let (queue, items) ← right_dequeue queue item items
    right_enqueue item name queue items
  | .dequeue, (queue, items) => do
    let (_, queue, items) ← left_dequeue queue items
    some (queue, items)

/-- What it does to a list. -/
def apply : QueueOp → List Addr → List Addr
  | .enqueue item _, l => l ++ [item]
  | .touch item, l => l.erase item ++ [item]
  | .dequeue, l => l.tail

/-- New items are new, and others are queued. -/
def Fits (l : List Addr) : QueueOp → Prop
  | .enqueue item _ => item ∉ l
  | .touch item => item ∈ l
  | .dequeue => True

/-- An item that is alone in `cache_i_queue` came with a null link. -/
def Clean (name : QueueName) (l : List Addr) : QueueOp → Prop
  | .enqueue _ leftover => name = .cache_i_queue → l = [] → leftover.next_c_item = none
  | _ => True

def execs (name : QueueName) (ops : List QueueOp) (s : QueueState) : Option QueueState := ops.foldlM (fun s op => op.exec name s) s

def applies (ops : List QueueOp) (l : List Addr) : List Addr := ops.foldl (fun l op => op.apply l) l

/-- Each operation meets `P` on the list that it finds. -/
def Along (P : List Addr → QueueOp → Prop) : List QueueOp → List Addr → Prop
  | [], _ => True
  | op :: ops, l => P l op ∧ Along P ops (op.apply l)

end QueueOp

/-- The queue is the list `l`, whose cells the forward links lead through. -/
structure Proper (s : QueueState) (l : List Addr) : Prop extends Queued s.2 s.1 l where
  forward : Links.forward (linksOf s.2) l.length s.1.q_first = some l

theorem Queued.proper (h : Queued items queue l) : Proper (queue, items) l :=
  ⟨h, by rw [h.first]; exact h.linked.segment.forward (Nat.le_refl _)⟩

section

variable {op : QueueOp} {ops : List QueueOp} {s : QueueState}

/-- A step on a clean item. -/
theorem QueueOp.exec_spec (h : Queued s.2 s.1 l) (hfits : op.Fits l) (hclean : op.Clean name l) :
    ∃ s', op.exec name s = some s' ∧ Queued s'.2 s'.1 (op.apply l) := by
  obtain ⟨queue, items⟩ := s
  cases op with
  | enqueue a leftover =>
    have h' : Queued (items.insert a leftover) queue l := h.congr fun x hx => AList.lookup_insert_ne fun he => hfits (he ▸ hx)
    obtain ⟨queue', items', hrun, hq, _⟩ := right_enqueue_spec h' hfits (AList.lookup_insert _) hclean
    exact ⟨(queue', items'), hrun, hq⟩
  | touch a =>
    obtain ⟨queue₁, items₁, queue', items', hrun, hrun', hq, _⟩ := touch_spec h hfits
    refine ⟨(queue', items'), ?_, hq⟩
    show (do let (queue, items) ← right_dequeue queue a items; right_enqueue a name queue items) = _
    rw [hrun]
    exact hrun'
  | dequeue =>
    cases l with
    | nil =>
      refine ⟨(queue, items), ?_, h⟩
      show (do let (_, queue, items) ← left_dequeue queue items; some (queue, items)) = _
      rw [left_dequeue, h.first]
      rfl
    | cons a l =>
      obtain ⟨queue', items', hrun, hq, _⟩ := left_dequeue_spec h
      refine ⟨(queue', items'), ?_, hq⟩
      show (do let (_, queue, items) ← left_dequeue queue items; some (queue, items)) = _
      rw [hrun]
      rfl

/-- The first item of `cache_i_queue` keeps the link that it came with. -/
theorem QueueOp.clean_of_queued {s' : QueueState} (h : Queued s.2 s.1 l) (hrun : op.exec name s = some s')
    (hq : Queued s'.2 s'.1 (op.apply l)) : op.Clean name l := by
  cases op with
  | enqueue a leftover =>
    rintro rfl rfl
    obtain ⟨queue, items⟩ := s
    have hfirst : queue.q_first = none := h.first
    have hone : right_enqueue a .cache_i_queue queue (items.insert a leftover) = some s' := hrun
    rw [right_enqueue, hfirst, AList.lookup_insert] at hone
    obtain rfl := Option.some.inj hone
    have hlinked : Linked _ ([] ++ a :: []) := hq.linked
    have hlinks : linksOf _ a = _ := hlinked.neighbours
    rw [linksOf_insert, if_pos rfl] at hlinks
    exact congrArg Pair.next (Option.some.inj hlinks)
  | touch => trivial
  | dequeue => trivial

theorem QueueOp.proper_iff (h : Queued s.2 s.1 l) (hfits : Along (fun l op => op.Fits l) ops l) :
    (∀ pre, pre <+: ops → ∃ s', execs name pre s = some s' ∧ Proper s' (applies pre l)) ↔ Along (fun l op => op.Clean name l) ops l := by
  induction ops generalizing s l with
  | nil =>
    refine ⟨fun _ => trivial, fun _ pre hpre => ?_⟩
    obtain rfl := List.prefix_nil.mp hpre
    exact ⟨s, rfl, h.proper⟩
  | cons op ops ih =>
    constructor
    · intro hall
      obtain ⟨s₁, hrun, hq⟩ := hall [op] ⟨ops, rfl⟩
      have hexec : op.exec name s = some s₁ := by simpa [execs] using hrun
      refine ⟨clean_of_queued h hexec hq.toQueued, (ih hq.toQueued hfits.2).mp fun pre hpre => ?_⟩
      obtain ⟨s', hrun', hq'⟩ := hall (op :: pre) (List.cons_prefix_cons.mpr ⟨rfl, hpre⟩)
      rw [execs, List.foldlM_cons, hexec] at hrun'
      exact ⟨s', hrun', hq'⟩
    · rintro ⟨hclean, hrest⟩ pre hpre
      obtain ⟨s₁, hexec, hq⟩ := exec_spec h hfits.1 hclean
      cases pre with
      | nil => exact ⟨s, rfl, h.proper⟩
      | cons op' pre =>
        obtain ⟨rfl, hshort⟩ := List.cons_prefix_cons.mp hpre
        obtain ⟨s', hrun', hq'⟩ := (ih hq hfits.2).mpr hrest pre hshort
        exact ⟨s', by rw [execs, List.foldlM_cons, hexec]; exact hrun', hq'⟩

end

/-- As `make_free_lists` sets a queue up. -/
def emptyQueue : QueueState := ({ q_first := none, q_last := none }, ∅)

/-- **The queues are lists.** After every step of a run the queue is the null-terminated list of its items, if and only if no item
that enters the empty `cache_i_queue` came with a link. -/
theorem queues_proper {ops : List QueueOp} (hfits : QueueOp.Along (fun l op => op.Fits l) ops []) :
    (∀ pre, pre <+: ops → ∃ s, QueueOp.execs name pre emptyQueue = some s ∧ Proper s (QueueOp.applies pre [])) ↔
      QueueOp.Along (fun l op => op.Clean name l) ops [] :=
  QueueOp.proper_iff .empty hfits

/-- An item that was last used in front of another. -/
def linkedItem : CacheItem := { c_item_num := 1, dirty := false, prev_c_item := none, next_c_item := some 7 }

theorem queues_proper_two : (∀ pre, pre <+: [.enqueue 0 { linkedItem with next_c_item := none }, .enqueue 1 linkedItem, .touch 0, .dequeue] →
      ∃ s, QueueOp.execs .cache_i_queue pre emptyQueue = some s ∧ Proper s (QueueOp.applies pre [])) ↔
    QueueOp.Along (fun l op => op.Clean .cache_i_queue l)
      [.enqueue 0 { linkedItem with next_c_item := none }, .enqueue 1 linkedItem, .touch 0, .dequeue] [] :=
  queues_proper ⟨List.not_mem_nil, show (1 : Addr) ∉ [0] by decide, show (0 : Addr) ∈ [0, 1] by decide, trivial, trivial⟩

/-- `right_enqueue` clears the link of an only item for `cache_b_queue` alone. -/
theorem enqueue_keeps_link : QueueOp.Along (fun l op => op.Fits l) [.enqueue 0 linkedItem] [] ∧
    ∃ s, QueueOp.execs .cache_i_queue [.enqueue 0 linkedItem] emptyQueue = some s ∧ ¬ Proper s (QueueOp.applies [.enqueue 0 linkedItem] []) := by
  refine ⟨⟨List.not_mem_nil, trivial⟩, _, rfl, fun h => ?_⟩
  have hlinked : Linked _ ([] ++ (0 : Addr) :: []) := h.linked
  have hlinks : linksOf _ 0 = _ := hlinked.neighbours
  cases hlinks

end Yfs.Pointers
