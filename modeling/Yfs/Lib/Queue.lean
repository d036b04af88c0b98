import Mathlib

/-! # Queues of keyed items

A list whose items are found by key, as an LRU queue uses it: the front is the oldest.
-/

namespace Yfs.Queue

variable {ι κ : Type} [DecidableEq κ] (key : ι → κ)

/-- The item with key `k`. -/
def lookup (q : List ι) (k : κ) : Option ι := q.find? fun x => decide (key x = k)

def remove (q : List ι) (k : κ) : List ι := q.filter fun x => decide (key x ≠ k)

/-- Take `x` out and put it at the back. -/
def touch (q : List ι) (x : ι) : List ι := remove key q (key x) ++ [x]

/-- Change the item with key `k`. -/
def modify (q : List ι) (k : κ) (f : ι → ι) : List ι := q.map fun x => if key x = k then f x else x

/-- No two items share a key. -/
def Distinct (q : List ι) : Prop := (q.map key).Nodup

variable {key} {q : List ι} {k : κ} {x y : ι}

/-! ## Looking up -/

theorem lookup_mem (h : lookup key q k = some x) : x ∈ q ∧ key x = k :=
  ⟨List.mem_of_find?_eq_some h, by simpa using List.find?_some h⟩

theorem lookup_none (h : lookup key q k = none) : ∀ y ∈ q, key y ≠ k := by
  simpa [lookup] using h

theorem lookup_of_mem (hd : Distinct key q) (hx : x ∈ q) : lookup key q (key x) = some x := by
  induction q with
  | nil => simp at hx
  | cons y q ih =>
    simp only [Distinct, List.map_cons, List.nodup_cons, List.mem_map, not_exists, not_and] at hd
    rcases List.mem_cons.mp hx with rfl | hx
    · simp [lookup]
    · have hne : key y ≠ key x := fun he => hd.1 x hx he.symm
      simp only [lookup, List.find?_cons, hne, decide_false]
      exact ih hd.2 hx

theorem lookup_iff (hd : Distinct key q) : lookup key q k = some x ↔ x ∈ q ∧ key x = k := by
  constructor
  · exact lookup_mem
  · rintro ⟨hx, rfl⟩
    exact lookup_of_mem hd hx

theorem lookup_cons : lookup key (x :: q) k = if key x = k then some x else lookup key q k := by
  by_cases h : key x = k
  · rw [if_pos h, lookup, List.find?_cons_of_pos (by simpa using h)]
  · rw [if_neg h, lookup, List.find?_cons_of_neg (by simpa using h), lookup]

/-- Two queues with the same items answer alike. -/
theorem lookup_congr {q' : List ι} (hd : Distinct key q) (hd' : Distinct key q')
    (h : ∀ x, x ∈ q' ↔ x ∈ q) : lookup key q' k = lookup key q k := by
  apply Option.ext
  intro x
  rw [lookup_iff hd, lookup_iff hd', h]

/-! ## Removing and touching -/

theorem mem_remove : x ∈ remove key q k ↔ x ∈ q ∧ key x ≠ k := by simp [remove]

theorem remove_absent (h : ∀ y ∈ q, key y ≠ k) : remove key q k = q :=
  List.filter_eq_self.mpr fun y hy => decide_eq_true (h y hy)

theorem remove_middle {p q : List ι} (hd : Distinct key (p ++ x :: q)) : remove key (p ++ x :: q) (key x) = p ++ q := by
  have hp : ∀ y ∈ p, key y ≠ key x := by
    intro y hy he
    rw [Distinct, List.map_append, List.nodup_append] at hd
    exact hd.2.2 (key y) (List.mem_map_of_mem hy) (key x) (List.mem_map_of_mem List.mem_cons_self) he
  have hq : ∀ y ∈ q, key y ≠ key x := by
    intro y hy he
    rw [Distinct, List.map_append, List.nodup_append, List.map_cons, List.nodup_cons] at hd
    exact hd.2.1.1 (List.mem_map.mpr ⟨y, hy, he⟩)
  have hx : remove key (x :: q) (key x) = remove key q (key x) := List.filter_cons_of_neg (by simp)
  rw [remove, List.filter_append]
  exact congrArg₂ (· ++ ·) (remove_absent hp) (hx.trans (remove_absent hq))

theorem lookup_remove (j : κ) : lookup key (remove key q k) j = if j = k then none else lookup key q j := by
  induction q with
  | nil => simp [lookup, remove]
  | cons x q ih =>
    by_cases hx : key x = k
    · have hgone : remove key (x :: q) k = remove key q k := List.filter_cons_of_neg (by simpa using hx)
      rw [hgone, ih, lookup_cons, hx]
      by_cases hj : j = k
      · rw [if_pos hj, if_pos hj]
      · rw [if_neg hj, if_neg hj, if_neg fun he => hj he.symm]
    · have hkept : remove key (x :: q) k = x :: remove key q k := List.filter_cons_of_pos (by simpa using hx)
      rw [hkept, lookup_cons, lookup_cons, ih]
      by_cases hxj : key x = j
      · rw [if_pos hxj, if_pos hxj, if_neg fun he => hx (hxj.trans he)]
      · rw [if_neg hxj, if_neg hxj]

theorem Distinct.remove (hd : Distinct key q) : Distinct key (remove key q k) :=
  List.Nodup.sublist (List.Sublist.map key List.filter_sublist) hd

omit [DecidableEq κ] in
theorem Distinct.append_new (hd : Distinct key q) (hx : ∀ y ∈ q, key y ≠ key x) :
    Distinct key (q ++ [x]) := by
  simp only [Distinct, List.map_append, List.map_cons, List.map_nil]
  refine List.Nodup.append hd (List.nodup_singleton _) ?_
  simpa [List.disjoint_singleton] using hx

theorem Distinct.touch (hd : Distinct key q) : Distinct key (touch key q x) :=
  hd.remove.append_new fun _ hy => (mem_remove.mp hy).2

theorem mem_touch (hd : Distinct key q) (hx : x ∈ q) : y ∈ touch key q x ↔ y ∈ q := by
  simp only [Queue.touch, List.mem_append, mem_remove, List.mem_singleton]
  constructor
  · rintro (⟨h, _⟩ | rfl)
    · exact h
    · exact hx
  · intro hy
    by_cases hk : key y = key x
    · right
      have h1 := lookup_of_mem hd hy
      rw [hk, lookup_of_mem hd hx] at h1
      exact (Option.some.inj h1).symm
    · exact Or.inl ⟨hy, hk⟩

theorem lookup_touch (hd : Distinct key q) (hx : x ∈ q) :
    lookup key (touch key q x) k = lookup key q k :=
  lookup_congr hd hd.touch fun _ => mem_touch hd hx

theorem length_touch (hd : Distinct key q) (hx : x ∈ q) : (touch key q x).length = q.length := by
  have hmem : ∀ y, y ∈ touch key q x ↔ y ∈ q := fun _ => mem_touch hd hx
  have h1 : (touch key q x).Nodup := hd.touch.of_map
  exact ((List.perm_ext_iff_of_nodup h1 hd.of_map).mpr hmem).length_eq

/-! ## Adding and dropping -/

theorem lookup_append_new (hx : ∀ y ∈ q, key y ≠ key x) :
    lookup key (q ++ [x]) k = if key x = k then some x else lookup key q k := by
  rw [lookup, List.find?_append]
  split
  case isTrue h =>
    have : lookup key q k = none := by
      simp only [lookup, List.find?_eq_none, decide_eq_true_eq]
      intro y hy; rw [← h]; exact hx y hy
    rw [← lookup, this]
    simp [h]
  case isFalse h => simp [h, lookup]

theorem lookup_tail (hd : Distinct key (x :: q)) :
    lookup key q k = if key x = k then none else lookup key (x :: q) k := by
  split
  case isTrue h =>
    simp only [Distinct, List.map_cons, List.nodup_cons, List.mem_map, not_exists, not_and] at hd
    simp only [lookup, List.find?_eq_none, decide_eq_true_eq]
    intro y hy he
    exact hd.1 y hy (he.trans h.symm)
  case isFalse h => simp [lookup, h]

omit [DecidableEq κ] in
theorem Distinct.tail (hd : Distinct key (x :: q)) : Distinct key q := by
  simp only [Distinct, List.map_cons, List.nodup_cons] at hd
  exact hd.2

/-! ## Changing an item -/

section Modify

variable {f : ι → ι}

theorem mem_modify : y ∈ modify key q k f ↔ ∃ x ∈ q, y = if key x = k then f x else x := by
  simp [modify, eq_comm]

theorem map_key_modify (hf : ∀ x, key (f x) = key x) : (modify key q k f).map key = q.map key := by
  simp only [modify, List.map_map]
  apply List.map_congr_left
  intro x _
  simp only [Function.comp_apply]
  split
  · exact hf x
  · rfl

theorem Distinct.modify (hd : Distinct key q) (hf : ∀ x, key (f x) = key x) :
    Distinct key (modify key q k f) := by
  rw [Distinct, map_key_modify hf]; exact hd

theorem length_modify : (modify key q k f).length = q.length := by simp [modify]

theorem lookup_modify (hf : ∀ x, key (f x) = key x) (j : κ) :
    lookup key (modify key q k f) j =
      if j = k then (lookup key q j).map f else lookup key q j := by
  induction q with
  | nil => simp [lookup, modify]
  | cons x q ih =>
    simp only [lookup, modify, List.map_cons, List.find?_cons] at ih ⊢
    by_cases hx : key x = k
    · simp only [hx, if_true, hf]
      by_cases hj : k = j
      · simp [hj]
      · simpa [hj] using ih
    · simp only [hx, if_false]
      by_cases hj : key x = j
      · have : ¬ j = k := fun h => hx (hj.trans h)
        simp [hj, this]
      · simpa [hj] using ih

end Modify

/-! ## How old an item is -/

/-- An item with key `k` and property `P` is in the queue, and the keys of all newer ones are in `R`. -/
def Held (key : ι → κ) (q : List ι) (k : κ) (P : ι → Prop) (R : Finset κ) : Prop :=
  ∃ older x newer, q = older ++ x :: newer ∧ key x = k ∧ P x ∧ ∀ y ∈ newer, key y ∈ R

namespace Held

variable {P : ι → Prop} {R R' : Finset κ} {b : κ}

theorem lookup (h : Held key q k P R) (hd : Distinct key q) : ∃ x, Queue.lookup key q k = some x ∧ P x := by
  obtain ⟨older, x, newer, rfl, rfl, hP, _⟩ := h
  exact ⟨x, lookup_of_mem hd (by simp), hP⟩

omit [DecidableEq κ] in
theorem mono (h : Held key q k P R) (hR : R ⊆ R') : Held key q k P R' := by
  obtain ⟨older, x, newer, hq, hk, hP, hnew⟩ := h
  exact ⟨older, x, newer, hq, hk, hP, fun y hy => hR (hnew y hy)⟩

omit [DecidableEq κ] in
theorem map {f : ι → ι} (h : Held key q k P R) (hf : ∀ x, key (f x) = key x) (hP : ∀ x, P x → P (f x)) :
    Held key (q.map f) k P R := by
  obtain ⟨older, x, newer, rfl, hk, hx, hnew⟩ := h
  refine ⟨older.map f, f x, newer.map f, by simp, (hf x).trans hk, hP x hx, fun y hy => ?_⟩
  obtain ⟨z, hz, rfl⟩ := List.mem_map.mp hy
  rw [hf]
  exact hnew z hz

omit [DecidableEq κ] in
/-- The newest item. -/
theorem last (hP : P x) : Held key (q ++ [x]) (key x) P R := ⟨q, x, [], rfl, rfl, hP, fun _ hy => by cases hy⟩

theorem append (h : Held key q k P R) (x : ι) : Held key (q ++ [x]) k P (insert (key x) R) := by
  obtain ⟨older, z, newer, rfl, hk, hP, hnew⟩ := h
  refine ⟨older, z, newer ++ [x], by simp, hk, hP, fun y hy => ?_⟩
  rcases List.mem_append.mp hy with hy | hy
  · exact Finset.mem_insert_of_mem (hnew y hy)
  · rw [List.mem_singleton.mp hy]
    exact Finset.mem_insert_self _ _

theorem remove (h : Held key q k P R) (hb : b ≠ k) : Held key (Queue.remove key q b) k P R := by
  obtain ⟨older, x, newer, rfl, rfl, hP, hnew⟩ := h
  refine ⟨Queue.remove key older b, x, Queue.remove key newer b, ?_, rfl, hP, fun y hy => hnew y (mem_remove.mp hy).1⟩
  simp [Queue.remove, hb.symm]

theorem touch (h : Held key q k P R) (hd : Distinct key q) (hx : x ∈ q) : Held key (touch key q x) k P (insert (key x) R) := by
  by_cases he : key x = k
  · obtain ⟨z, hz, hP⟩ := h.lookup hd
    rw [← he, lookup_of_mem hd hx] at hz
    obtain rfl := Option.some.inj hz
    rw [← he]
    exact last hP
  · exact (h.remove he).append x

/-- The oldest item is another if few are newer. -/
theorem tail (h : Held key (x :: q) k P R) (hd : Distinct key (x :: q)) (hb : ∀ y ∈ x :: q, key y ≠ b)
    (hroom : ((insert b R).erase k).card ≤ q.length) : Held key q k P R := by
  obtain ⟨older, z, newer, hq, hk, hP, hnew⟩ := h
  cases older with
  | cons y older =>
    obtain ⟨rfl, rfl⟩ := List.cons.inj hq
    exact ⟨older, z, newer, rfl, hk, hP, hnew⟩
  | nil =>
    obtain ⟨rfl, rfl⟩ := List.cons.inj hq
    rw [Distinct, List.map_cons, List.nodup_cons] at hd
    have hsub : insert b (q.map key).toFinset ⊆ (insert b R).erase k := by
      intro c hc
      rcases Finset.mem_insert.mp hc with rfl | hc
      · exact Finset.mem_erase.mpr ⟨fun he => hb x List.mem_cons_self (hk.trans he.symm), Finset.mem_insert_self _ _⟩
      · obtain ⟨y, hy, rfl⟩ := List.mem_map.mp (List.mem_toFinset.mp hc)
        refine Finset.mem_erase.mpr ⟨fun he => hd.1 (List.mem_map.mpr ⟨y, hy, he.trans hk.symm⟩), ?_⟩
        exact Finset.mem_insert_of_mem (hnew y hy)
    have hnot : b ∉ (q.map key).toFinset := by
      rw [List.mem_toFinset]
      rintro hc
      obtain ⟨y, hy, he⟩ := List.mem_map.mp hc
      exact hb y (List.mem_cons_of_mem x hy) he
    have hcard := Finset.card_le_card hsub
    rw [Finset.card_insert_of_notMem hnot, List.toFinset_card_of_nodup hd.2, List.length_map] at hcard
    omega

end Held

/-- Every item with key `k` and property `P` has newer items with all the keys of `R`. -/
def Aged (key : ι → κ) (q : List ι) (k : κ) (P : ι → Prop) (R : Finset κ) : Prop :=
  ∀ older x newer, q = older ++ x :: newer → key x = k → P x → R ⊆ (newer.map key).toFinset

namespace Aged

variable {P : ι → Prop} {R : Finset κ} {b : κ}

theorem empty : Aged key q k P ∅ := fun _ _ _ _ _ _ => Finset.empty_subset _

theorem map {f : ι → ι} (h : Aged key q k P R) (hf : ∀ x, key (f x) = key x) (hP : ∀ x, P (f x) → P x) :
    Aged key (q.map f) k P R := by
  intro older x newer hq hk hx
  obtain ⟨older, rest, rfl, rfl, hrest⟩ := List.map_eq_append_iff.mp hq
  obtain ⟨y, newer, rfl, rfl, rfl⟩ := List.map_eq_cons_iff.mp hrest
  have hkeys : (newer.map f).map key = newer.map key := by
    rw [List.map_map]
    exact List.map_congr_left fun z _ => hf z
  rw [hkeys]
  exact h older y newer rfl ((hf y).symm.trans hk) (hP y hx)

theorem append (h : Aged key q k P R) (hx : key x = k → ¬ P x) : Aged key (q ++ [x]) k P (insert (key x) R) := by
  intro older z newer hq hk hz
  rcases List.eq_nil_or_concat newer with rfl | ⟨init, y, rfl⟩
  · obtain ⟨rfl, he⟩ := List.append_inj' hq rfl
    obtain rfl := List.singleton_inj.mp he
    exact absurd hz (hx hk)
  · rw [List.concat_eq_append, ← List.cons_append, ← List.append_assoc] at hq
    obtain ⟨rfl, he⟩ := List.append_inj' hq rfl
    obtain rfl := List.singleton_inj.mp he
    rw [List.concat_eq_append, List.map_append, List.toFinset_append]
    refine Finset.insert_subset (Finset.mem_union_right _ (by simp)) ?_
    exact (h older z init rfl hk hz).trans Finset.subset_union_left

theorem remove (h : Aged key q k P R) (b : κ) : Aged key (Queue.remove key q b) k P (R.erase b) := by
  intro older z newer hq hk hz
  obtain ⟨before, rest, rfl, rfl, hrest⟩ := List.filter_eq_append_iff.mp hq
  obtain ⟨skipped, after, rfl, hskipped, _, rfl⟩ := List.filter_eq_cons_iff.mp hrest
  intro c hc
  obtain ⟨hne, hc⟩ := Finset.mem_erase.mp hc
  have hmem := h (before ++ skipped) z after (by simp) hk hz hc
  obtain ⟨y, hy, rfl⟩ := List.mem_map.mp (List.mem_toFinset.mp hmem)
  exact List.mem_toFinset.mpr (List.mem_map.mpr ⟨y, List.mem_filter.mpr ⟨hy, decide_eq_true hne⟩, rfl⟩)

/-- An item that is taken out and put at the back. -/
theorem touch (h : Aged key q k P R) (hb : key x ≠ k) : Aged key (touch key q x) k P (insert (key x) R) := by
  intro older z newer hq hk hz
  have hsub := (h.remove (key x)).append (x := x) (fun he => absurd he hb) older z newer hq hk hz
  exact Finset.insert_subset (hsub (Finset.mem_insert_self _ _)) ((Finset.insert_erase_subset _ _).trans hsub)

theorem tail (h : Aged key q k P R) : Aged key q.tail k P R := by
  cases q with
  | nil => exact h
  | cons x q =>
    intro older z newer hq hk hz
    exact h (x :: older) z newer (congrArg (x :: ·) hq) hk hz

/-- More than a queue of this length holds. -/
theorem gone (h : Aged key q k P R) (hlen : q.length ≤ R.card) : ∀ x ∈ q, key x = k → ¬ P x := by
  intro x hx hk hP
  obtain ⟨older, newer, rfl⟩ := List.append_of_mem hx
  have h₁ := Finset.card_le_card (h older x newer rfl hk hP)
  have h₂ := List.toFinset_card_le (newer.map key)
  rw [List.length_map] at h₂
  rw [List.length_append, List.length_cons] at hlen
  omega

end Aged

end Yfs.Queue
