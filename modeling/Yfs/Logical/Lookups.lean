import Yfs.Logical

/-! # Which lookups cost an inode its place

A pointer outlives a program exactly if the lookups of the program leave it few enough others.
-/

namespace Yfs

open Cache Queue

variable {g : Geometry} {s t : Store} {sv sv' : Server} {σ : FS} {p : Ptr} {i b : Int} {R : Finset Int} {T : List Int}

/-- Looking up `T`, with `R` used since `i`, leaves `i` in its cache all along. -/
def Lasts (i : Int) : Finset Int → List Int → Prop
  | _, [] => True
  | R, j :: T => if j = i then Lasts i ∅ T else (insert j R).card < INODE_CACHESIZE ∧ Lasts i (insert j R) T

/-! ## One lookup -/

/-- Every cached inode has been allocated. -/
def Store.Issued (s : Store) : Prop := ∀ item ∈ s.cache_i_queue, item.id < s.next_id

theorem makeRoom_b_next_id (h : makeRoom_b s = some t) : t.next_id = s.next_id := by
  unfold makeRoom_b at h
  split at h
  case isTrue =>
    unfold evict_b at h
    split at h
    case h_1 => cases h
    case h_2 =>
      obtain rfl := Option.some.inj h
      unfold WriteSector
      split <;> rfl
  case isFalse =>
    obtain rfl := Option.some.inj h
    rfl

theorem get_b_next_id (hg : Cache.get_b b s = some (p, t)) : s.next_id ≤ t.next_id := by
  unfold Cache.get_b at hg
  split at hg
  case h_1 =>
    obtain ⟨rfl, rfl⟩ := Prod.mk.inj (Option.some.inj hg)
    exact le_rfl
  case h_2 =>
    obtain ⟨r, hr, hg⟩ := Option.bind_eq_some_iff.mp hg
    obtain ⟨block, _, hg⟩ := Option.bind_eq_some_iff.mp hg
    obtain ⟨rfl, rfl⟩ := Prod.mk.inj (Option.some.inj hg)
    rw [← makeRoom_b_next_id hr]
    exact Nat.le_succ _

theorem get_b_inodes (hg : Cache.get_b b s = some (p, t)) : t.cache_i_queue = s.cache_i_queue := by
  unfold Cache.get_b at hg
  split at hg
  case h_1 =>
    obtain ⟨rfl, rfl⟩ := Prod.mk.inj (Option.some.inj hg)
    rfl
  case h_2 =>
    obtain ⟨r, hr, hg⟩ := Option.bind_eq_some_iff.mp hg
    obtain ⟨block, _, hg⟩ := Option.bind_eq_some_iff.mp hg
    obtain ⟨rfl, rfl⟩ := Prod.mk.inj (Option.some.inj hg)
    exact (makeRoom_b_queue hr).1

theorem makeRoom_i_next_id (h : makeRoom_i s = some t) : s.next_id ≤ t.next_id := by
  unfold makeRoom_i at h
  split at h
  case isTrue =>
    unfold evict_i at h
    split at h
    case h_1 => cases h
    case h_2 lru rest _ =>
      obtain ⟨⟨ptr, u⟩, hg, h⟩ := Option.bind_eq_some_iff.mp h
      obtain ⟨block, _, h⟩ := Option.bind_eq_some_iff.mp h
      obtain ⟨slot, _, h⟩ := Option.bind_eq_some_iff.mp h
      obtain ⟨q, _, h⟩ := Option.bind_eq_some_iff.mp h
      obtain ⟨q', _, h⟩ := Option.bind_eq_some_iff.mp h
      obtain rfl := Option.some.inj h
      have := get_b_next_id hg
      exact this
  case isFalse =>
    obtain rfl := Option.some.inj h
    exact le_rfl

/-- What a lookup does to the queue: it puts the item at the back, or makes room and appends a new one. -/
theorem get_i_queue (h : s.Tidy) (hg : Cache.get_i i s = some (p, t)) :
    (∃ item ∈ s.cache_i_queue, item.c_item_num = i ∧ p.id = item.id ∧
      t.cache_i_queue = touch CacheItem.c_item_num s.cache_i_queue item ∧ t.next_id = s.next_id) ∨
    ∃ q item, (∀ y ∈ s.cache_i_queue, y.c_item_num ≠ i) ∧ (q = s.cache_i_queue ∧ s.cache_i_queue.length ≠ INODE_CACHESIZE ∨
      s.cache_i_queue.length = INODE_CACHESIZE ∧ q = s.cache_i_queue.tail) ∧ t.cache_i_queue = q ++ [item] ∧
      item.c_item_num = i ∧ p.id = item.id ∧ s.next_id ≤ item.id ∧ item.id < t.next_id := by
  unfold Cache.get_i at hg
  split at hg
  case h_1 item hq =>
    obtain ⟨rfl, rfl⟩ := Prod.mk.inj (Option.some.inj hg)
    obtain ⟨hm, hnum⟩ := lookup_mem hq
    exact .inl ⟨item, hm, hnum, rfl, rfl, rfl⟩
  case h_2 hq =>
    obtain ⟨r, hr, hg⟩ := Option.bind_eq_some_iff.mp hg
    obtain ⟨⟨ptr, u⟩, hgb, hg⟩ := Option.bind_eq_some_iff.mp hg
    obtain ⟨block, _, hg⟩ := Option.bind_eq_some_iff.mp hg
    obtain ⟨slot, _, hg⟩ := Option.bind_eq_some_iff.mp hg
    obtain ⟨rfl, rfl⟩ := Prod.mk.inj (Option.some.inj hg)
    obtain ⟨hr_tidy, _, hqueue⟩ := makeRoom_i_used h hr
    have hinodes := (get_b_tidy hr_tidy hgb).2
    rw [← hinodes] at hqueue
    exact .inr ⟨u.cache_i_queue, _, Queue.lookup_none hq, hqueue, rfl, rfl, rfl,
      (makeRoom_i_next_id hr).trans (get_b_next_id hgb), Nat.lt_succ_self _⟩

theorem get_i_issued (h : s.Tidy) (hs : s.Issued) (hg : Cache.get_i i s = some (p, t)) : t.Issued ∧ s.next_id ≤ t.next_id ∧ p.id < t.next_id := by
  rcases get_i_queue h hg with ⟨item, hm, rfl, hp, hq, hnext⟩ | ⟨q, item, _, hroom, hq, _, hp, hle, hlt⟩
  · refine ⟨fun x hx => ?_, hnext.ge, ?_⟩
    · rw [hq] at hx
      rw [hnext]
      exact hs x ((mem_touch h.inodes hm).mp hx)
    · rw [hp, hnext]
      exact hs item hm
  · have hsub : ∀ x ∈ q, x ∈ s.cache_i_queue := by
      rcases hroom with ⟨rfl, _⟩ | ⟨_, rfl⟩
      · exact fun x hx => hx
      · exact fun x hx => List.mem_of_mem_tail hx
    refine ⟨fun x hx => ?_, by omega, hp ▸ hlt⟩
    rw [hq] at hx
    rcases List.mem_append.mp hx with hx | hx
    · have := hs x (hsub x hx)
      omega
    · rw [List.mem_singleton.mp hx]
      exact hlt

/-- The item that `p` points into is gone. -/
def Gone (s : Store) (p : Ptr) : Prop := ∀ item ∈ s.cache_i_queue, item.c_item_num = p.num → item.id ≠ p.id

/-- Every item that `p` points into is older than the inodes `R`. -/
def Older (s : Store) (p : Ptr) (R : Finset Int) : Prop :=
  Aged CacheItem.c_item_num s.cache_i_queue p.num (fun item => item.id = p.id) R

theorem Gone.get_i {ptr : Ptr} (hgone : Gone s p) (h : s.Tidy) (hp : p.id < s.next_id) (hg : Cache.get_i i s = some (ptr, t)) :
    Gone t p := by
  rcases get_i_queue h hg with ⟨item, hm, rfl, _, hq, _⟩ | ⟨q, item, _, hroom, hq, _, _, hle, _⟩
  · intro x hx
    rw [hq] at hx
    exact hgone x ((mem_touch h.inodes hm).mp hx)
  · intro x hx
    rw [hq] at hx
    rcases List.mem_append.mp hx with hx | hx
    · rcases hroom with ⟨rfl, _⟩ | ⟨_, rfl⟩
      · exact hgone x hx
      · exact hgone x (List.mem_of_mem_tail hx)
    · rw [List.mem_singleton.mp hx]
      intro _
      omega

theorem Older.get_i {ptr : Ptr} (ho : Older s p R) (h : s.Tidy) (hg : Cache.get_i i s = some (ptr, t)) (hne : i ≠ p.num) :
    Older t p (insert i R) := by
  unfold Older
  rcases get_i_queue h hg with ⟨item, hm, rfl, _, hq, _⟩ | ⟨q, item, _, hroom, hq, rfl, _, _, _⟩
  · rw [hq]
    exact Aged.touch ho hne
  · rw [hq]
    refine Aged.append ?_ fun he => absurd he hne
    rcases hroom with ⟨rfl, _⟩ | ⟨_, rfl⟩
    · exact ho
    · exact Aged.tail ho

theorem Live.get_i {ptr : Ptr} (hp : Live s.cache_i_queue p R) (h : s.Tidy) (hg : Cache.get_i i s = some (ptr, t))
    (hc : (insert i R).card < INODE_CACHESIZE) : Live t.cache_i_queue p (insert i R) := by
  obtain ⟨_, _, ⟨B, _, hused⟩, _⟩ := get_i_used h hg
  rw [Finset.insert_eq, Finset.union_comm]
  refine hused.inodes p R hp fun _ => lt_of_le_of_lt (Finset.card_le_card (Finset.erase_subset _ _)) ?_
  rwa [Finset.union_comm, ← Finset.insert_eq]

/-- Looking an item up makes it the newest. -/
theorem Live.get_i_self {ptr : Ptr} (hp : Live s.cache_i_queue p R) (h : s.Tidy)
    (hg : Cache.get_i p.num s = some (ptr, t)) : Live t.cache_i_queue p ∅ := by
  obtain ⟨x, hx, hid⟩ := Held.lookup hp h.inodes
  obtain ⟨hm, hnum⟩ := lookup_mem hx
  rcases get_i_queue h hg with ⟨item, hitem, hi, _, hq, _⟩ | ⟨q, item, hnone, _⟩
  · have hsame := lookup_of_mem h.inodes hitem
    rw [hi, hx] at hsame
    obtain rfl := Option.some.inj hsame
    rw [hq, Live, ← hi]
    exact Held.last hid
  · exact absurd hnum (hnone x hm)

/-! ## The lookups of a program -/

/-- Other commands leave the queue of inodes as it is, but for the contents. -/
theorem exec_inodes {c : Cmd} {r : c.Ret} (hc : ∀ i, c ≠ .get_i i) (he : exec sv c = some (r, sv')) :
    sv.store.next_id ≤ sv'.store.next_id ∧ ∃ f : CacheItem Inode → CacheItem Inode,
      (∀ x, (f x).c_item_num = x.c_item_num ∧ (f x).id = x.id) ∧ sv'.store.cache_i_queue = sv.store.cache_i_queue.map f := by
  have hsame : sv'.store.cache_i_queue = sv.store.cache_i_queue → ∃ f : CacheItem Inode → CacheItem Inode,
      (∀ x, (f x).c_item_num = x.c_item_num ∧ (f x).id = x.id) ∧ sv'.store.cache_i_queue = sv.store.cache_i_queue.map f :=
    fun h => ⟨id, fun _ => ⟨rfl, rfl⟩, by rw [List.map_id, h]⟩
  cases c with
  | get_b b =>
    obtain ⟨⟨ptr, t⟩, hg, he⟩ := Option.map_eq_some_iff.mp he
    obtain ⟨rfl, rfl⟩ := Prod.mk.inj he
    exact ⟨get_b_next_id hg, hsame (get_b_inodes hg)⟩
  | get_i i => exact absurd rfl (hc i)
  | readBlock p =>
    obtain ⟨item, _, he⟩ := Option.map_eq_some_iff.mp he
    obtain ⟨rfl, rfl⟩ := Prod.mk.inj he
    exact ⟨le_rfl, hsame rfl⟩
  | readInode p =>
    obtain ⟨item, _, he⟩ := Option.map_eq_some_iff.mp he
    obtain ⟨rfl, rfl⟩ := Prod.mk.inj he
    exact ⟨le_rfl, hsame rfl⟩
  | writeBlock p v =>
    obtain ⟨q, hq, he⟩ := Option.map_eq_some_iff.mp he
    obtain ⟨rfl, rfl⟩ := Prod.mk.inj he
    exact ⟨le_rfl, hsame rfl⟩
  | writeInode p v =>
    obtain ⟨q, hq, he⟩ := Option.map_eq_some_iff.mp he
    obtain ⟨rfl, rfl⟩ := Prod.mk.inj he
    obtain ⟨_, _, rfl⟩ := Option.map_eq_some_iff.mp hq
    exact ⟨le_rfl, _, fun x => by split <;> exact ⟨rfl, rfl⟩, rfl⟩
  | dirtyBlock b =>
    obtain ⟨q, hq, he⟩ := Option.map_eq_some_iff.mp he
    obtain ⟨rfl, rfl⟩ := Prod.mk.inj he
    exact ⟨le_rfl, hsame rfl⟩
  | dirtyInode i =>
    obtain ⟨q, hq, he⟩ := Option.map_eq_some_iff.mp he
    obtain ⟨rfl, rfl⟩ := Prod.mk.inj he
    obtain ⟨_, _, rfl⟩ := Option.map_eq_some_iff.mp hq
    exact ⟨le_rfl, _, fun x => by split <;> exact ⟨rfl, rfl⟩, rfl⟩
  | globals =>
    obtain ⟨rfl, rfl⟩ := Prod.mk.inj (Option.some.inj he)
    exact ⟨le_rfl, hsame rfl⟩
  | setGlobals v =>
    obtain ⟨rfl, rfl⟩ := Prod.mk.inj (Option.some.inj he)
    exact ⟨le_rfl, hsame rfl⟩

theorem Store.Issued.of_map {f : CacheItem Inode → CacheItem Inode} (h : s.Issued) (hnext : s.next_id ≤ t.next_id)
    (hf : ∀ x, (f x).c_item_num = x.c_item_num ∧ (f x).id = x.id) (hq : t.cache_i_queue = s.cache_i_queue.map f) : t.Issued := by
  intro x hx
  rw [hq] at hx
  obtain ⟨y, hy, rfl⟩ := List.mem_map.mp hx
  rw [(hf y).2]
  exact lt_of_lt_of_le (h y hy) hnext

theorem exec_issued {c : Cmd} {r : c.Ret} (hc : sv.store.Tidy) (hs : sv.store.Issued) (he : exec sv c = some (r, sv')) :
    sv'.store.Issued := by
  cases c with
  | get_i i =>
    obtain ⟨⟨ptr, t⟩, hg, he⟩ := Option.map_eq_some_iff.mp he
    obtain ⟨rfl, rfl⟩ := Prod.mk.inj he
    exact (get_i_issued hc hs hg).1
  | _ =>
    obtain ⟨hnext, f, hf, hq⟩ := exec_inodes (fun _ he => by cases he) he
    exact hs.of_map hnext hf hq

section

variable {α β : Type} {Q : α → β → Prop} {prog : Prog α} {q : Prog β} {a : α} {b : β} {l : Logical}

/-- What each lookup does to `K`, the lookups of the program do. -/
theorem Alike.traced {K : List Int → Server → Prop}
    (hget : ∀ i T sv ptr t, sv.CachesOk g → K (i :: T) sv → Cache.get_i i sv.store = some (ptr, t) →
      t.cache_i_queue.length ≤ INODE_CACHESIZE → K T { sv with store := t })
    (hother : ∀ c r T sv sv', (∀ i, c ≠ .get_i i) → K T sv → exec sv c = some (r, sv') → K T sv')
    (h : Alike Q prog q) (hrel : Rel g sv σ) (he : eval g q σ.logical = some (b, l)) (hrun : run prog sv = some (a, sv'))
    (hK : K (lookups g q σ.logical) sv) : K [] sv' := by
  induction prog generalizing q sv σ with
  | ret a =>
    cases h
    obtain ⟨rfl, rfl⟩ := Prod.mk.inj (Option.some.inj hrun)
    exact hK
  | undef => cases hrun
  | call c k ih =>
    unfold run at hrun
    split at hrun
    case h_1 => cases hrun
    case h_2 r sv₁ hx =>
      obtain ⟨q', σ₁, h₁, hrel₁, he₁, hlook⟩ := (h.step hrel he).2 r sv₁ hx
      refine ih r h₁ hrel₁ he₁ hrun ?_
      rw [hlook] at hK
      cases c with
      | get_i i =>
        obtain ⟨⟨ptr, t⟩, hg, hx⟩ := Option.map_eq_some_iff.mp hx
        obtain ⟨rfl, rfl⟩ := Prod.mk.inj hx
        exact hget i _ sv ptr t hrel.cachesOk hK hg hrel₁.inodes.size
      | _ => exact hother _ r _ sv sv₁ (fun _ => nofun) hK hx

/-- Few lookups leave the item in its place. -/
theorem Alike.lasts (h : Alike Q prog q) (hrel : Rel g sv σ) (he : eval g q σ.logical = some (b, l))
    (hrun : run prog sv = some (a, sv')) (hp : Live sv.store.cache_i_queue p ∅)
    (hlasts : Lasts p.num ∅ (lookups g q σ.logical)) : ∃ R, Live sv'.store.cache_i_queue p R := by
  refine (h.traced (K := fun T sv => ∃ R, Live sv.store.cache_i_queue p R ∧ Lasts p.num R T) ?_ ?_ hrel he hrun
    ⟨∅, hp, hlasts⟩).imp fun R hR => hR.1
  · rintro i T sv ptr t hok ⟨R, hlive, hl⟩ hg _
    rw [Lasts] at hl
    split at hl
    case isTrue hi => exact ⟨∅, hlive.get_i_self hok.tidy (hi ▸ hg), hl⟩
    case isFalse hi => exact ⟨insert i R, hlive.get_i hok.tidy hg hl.1, hl.2⟩
  · rintro c r T sv sv' hc ⟨R, hlive, hl⟩ hx
    obtain ⟨_, f, hf, hq⟩ := exec_inodes hc hx
    refine ⟨R, ?_, hl⟩
    rw [hq]
    exact Held.map hlive (fun x => (hf x).1) fun x hx => (hf x).2.trans hx

/-- If the item is still there, the lookups were few. -/
theorem Alike.lasted (h : Alike Q prog q) (hrel : Rel g sv σ) (he : eval g q σ.logical = some (b, l))
    (hrun : run prog sv = some (a, sv')) (hs : sv.store.Issued) (hp : p.id < sv.store.next_id) {item : CacheItem Inode}
    (hitem : deref sv'.store.cache_i_queue p = some item) : Lasts p.num ∅ (lookups g q σ.logical) := by
  by_contra hnot
  obtain ⟨hm, hnum⟩ := deref_mem hitem
  suffices hend : sv'.store.Issued ∧ p.id < sv'.store.next_id ∧
      (Gone sv'.store p ∨ ∃ R, Older sv'.store p R ∧ ¬ Lasts p.num R []) by
    obtain ⟨_, _, hgone | ⟨_, _, hl⟩⟩ := hend
    · exact hgone item hm hnum (deref_id hitem)
    · exact hl trivial
  refine h.traced (K := fun T sv => sv.store.Issued ∧ p.id < sv.store.next_id ∧
    (Gone sv.store p ∨ ∃ R, Older sv.store p R ∧ ¬ Lasts p.num R T)) ?_ ?_ hrel he hrun ⟨hs, hp, .inr ⟨∅, Aged.empty, hnot⟩⟩
  · rintro i T sv ptr t hok ⟨hs, hp, hgone⟩ hg hlen
    obtain ⟨hs', hnext, _⟩ := get_i_issued hok.tidy hs hg
    refine ⟨hs', lt_of_lt_of_le hp hnext, ?_⟩
    rcases hgone with hgone | ⟨R, ho, hl⟩
    · exact .inl (hgone.get_i hok.tidy hp hg)
    · rw [Lasts] at hl
      split at hl
      case isTrue => exact .inr ⟨∅, Aged.empty, hl⟩
      case isFalse hi =>
        have ho' := ho.get_i hok.tidy hg hi
        by_cases hc : (insert i R).card < INODE_CACHESIZE
        · exact .inr ⟨insert i R, ho', fun h => hl ⟨hc, h⟩⟩
        · exact .inl (Aged.gone ho' (hlen.trans (not_lt.mp hc)))
  · rintro c r T sv sv' hc ⟨hs, hp, hgone⟩ hx
    obtain ⟨hnext, f, hf, hq⟩ := exec_inodes hc hx
    refine ⟨hs.of_map hnext hf hq, lt_of_lt_of_le hp hnext,
      hgone.imp (fun hgone x hx hnum => ?_) fun ⟨R, ho, hl⟩ => ⟨R, ?_, hl⟩⟩
    · rw [hq] at hx
      obtain ⟨y, hy, rfl⟩ := List.mem_map.mp hx
      rw [(hf y).2]
      exact hgone y hy ((hf y).1.symm.trans hnum)
    · unfold Older
      rw [hq]
      exact Aged.map ho (fun x => (hf x).1) fun x hx => (hf x).2.symm.trans hx

end

end Yfs
