import Mathlib

/-! # Linked lists in memory

What the links of a heap spell. A change of a few links is stated by what it does to the cells of the list, so that it may do anything
elsewhere.
-/

namespace Yfs.Links

variable {A : Type}

/-! ## Two links -/

/-- Where a cell of a doubly linked list points. -/
structure Pair (A : Type) where
  prev : Option A
  next : Option A

variable {links links' : A → Option (Pair A)} {p p' n n' : Option A} {a z : A} {l xs ys : List A}

/-- From `p` to `n` through the cells of the list. -/
def Segment (links : A → Option (Pair A)) : Option A → List A → Option A → Prop
  | _, [], _ => True
  | p, a :: l, n => links a = some ⟨p, l.head?.or n⟩ ∧ Segment links (some a) l n

theorem segment_cons : Segment links p (a :: l) n ↔ links a = some ⟨p, l.head?.or n⟩ ∧ Segment links (some a) l n := Iff.rfl

theorem segment_append : Segment links p (xs ++ ys) n ↔ Segment links p xs (ys.head?.or n) ∧ Segment links (xs.getLast?.or p) ys n := by
  induction xs generalizing p with
  | nil => simp [Segment]
  | cons a xs ih =>
    have hhead : (xs ++ ys).head?.or n = xs.head?.or (ys.head?.or n) := by
      rw [List.head?_append, Option.or_assoc]
    have hlast : (a :: xs).getLast?.or p = xs.getLast?.or (some a) := by
      rw [List.getLast?_cons]
      cases xs.getLast? <;> rfl
    rw [List.cons_append, segment_cons, segment_cons, ih, hhead, hlast, and_assoc]

/-- A segment is a matter of its own cells. -/
theorem Segment.congr (h : Segment links p l n) (hsame : ∀ x ∈ l, links' x = links x) : Segment links' p l n := by
  induction l generalizing p with
  | nil => trivial
  | cons a l ih =>
    obtain ⟨ha, hl⟩ := h
    exact ⟨(hsame a List.mem_cons_self).trans ha, ih hl fun x hx => hsame x (List.mem_cons_of_mem a hx)⟩

theorem Segment.live (h : Segment links p l n) (ha : a ∈ l) : links a ≠ none := by
  induction l generalizing p with
  | nil => cases ha
  | cons b l ih =>
    rcases List.mem_cons.mp ha with rfl | ha
    · rw [h.1]
      exact Option.some_ne_none _
    · exact ih h.2 ha

/-- The last cell points elsewhere. -/
theorem Segment.setNext (h : Segment links p (xs ++ [z]) n) (hz : ∀ q, links z = some q → links' z = some { q with next := n' })
    (hsame : ∀ x ∈ xs, links' x = links x) : Segment links' p (xs ++ [z]) n' := by
  rw [segment_append] at h ⊢
  obtain ⟨hxs, hlink, _⟩ := h
  exact ⟨hxs.congr hsame, hz _ hlink, trivial⟩

/-- The first cell points back elsewhere. -/
theorem Segment.setPrev (h : Segment links p (a :: l) n) (ha : ∀ q, links a = some q → links' a = some { q with prev := p' })
    (hsame : ∀ x ∈ l, links' x = links x) : Segment links' p' (a :: l) n :=
  ⟨ha _ h.1, h.2.congr hsame⟩

/-! ## Whole lists -/

/-- A null-terminated list of different cells. -/
structure Linked (links : A → Option (Pair A)) (l : List A) : Prop where
  nodup : l.Nodup
  segment : Segment links none l none

theorem Linked.nil : Linked links [] := ⟨List.nodup_nil, trivial⟩

/-- The links of each cell are its neighbours. -/
theorem Linked.neighbours (h : Linked links (xs ++ a :: ys)) : links a = some ⟨xs.getLast?, ys.head?⟩ := by
  obtain ⟨_, ha, _⟩ := segment_append.mp h.segment
  rw [ha, Option.or_none, Option.or_none]

theorem Linked.congr (h : Linked links l) (hsame : ∀ x ∈ l, links' x = links x) : Linked links' l := ⟨h.nodup, h.segment.congr hsame⟩

/-- A new cell at the end. -/
theorem Linked.concat (h : Linked links l) (ha : a ∉ l) (hnew : links' a = some ⟨l.getLast?, none⟩)
    (hlast : ∀ z, l.getLast? = some z → ∀ q, links z = some q → links' z = some { q with next := some a })
    (hsame : ∀ x ∈ l, l.getLast? ≠ some x → links' x = links x) : Linked links' (l ++ [a]) := by
  refine ⟨List.nodup_append.mpr ⟨h.nodup, List.nodup_singleton a, fun x hx y hy he => ha (List.mem_singleton.mp hy ▸ he ▸ hx)⟩, ?_⟩
  refine segment_append.mpr ⟨?_, by rw [Option.or_none]; exact hnew, trivial⟩
  rcases List.eq_nil_or_concat l with rfl | ⟨xs, z, rfl⟩
  · trivial
  · rw [List.concat_eq_append] at *
    refine h.segment.setNext (hlast z List.getLast?_concat) fun x hx => hsame x (List.mem_append_left _ hx) fun he => ?_
    rw [List.getLast?_concat] at he
    obtain rfl := Option.some.inj he
    exact (List.nodup_append.mp h.nodup).2.2 _ hx _ List.mem_cons_self rfl

/-- A cell goes: its neighbours point to each other. -/
theorem Linked.remove (h : Linked links (xs ++ a :: ys))
    (hprev : ∀ z, xs.getLast? = some z → ∀ q, links z = some q → links' z = some { q with next := ys.head? })
    (hnext : ∀ z, ys.head? = some z → ∀ q, links z = some q → links' z = some { q with prev := xs.getLast? })
    (hsame : ∀ x ∈ xs ++ ys, xs.getLast? ≠ some x → ys.head? ≠ some x → links' x = links x) : Linked links' (xs ++ ys) := by
  have hnd := h.nodup
  rw [List.nodup_middle, List.nodup_cons, List.nodup_append] at hnd
  obtain ⟨_, hndx, hndy, hapart⟩ := hnd
  obtain ⟨hx, hseg⟩ := segment_append.mp h.segment
  have hy := hseg.2
  refine ⟨List.nodup_append.mpr ⟨hndx, hndy, hapart⟩, segment_append.mpr ⟨?_, ?_⟩⟩
  · rw [Option.or_none]
    rcases List.eq_nil_or_concat xs with rfl | ⟨us, z, rfl⟩
    · trivial
    · rw [List.concat_eq_append] at *
      refine hx.setNext (hprev z List.getLast?_concat) fun x hxm => hsame x (by simp [hxm]) (fun he => ?_) fun he => ?_
      · rw [List.getLast?_concat] at he
        obtain rfl := Option.some.inj he
        exact (List.nodup_append.mp hndx).2.2 _ hxm _ List.mem_cons_self rfl
      · exact hapart x (List.mem_append_left _ hxm) x (List.mem_of_head? he) rfl
  · rw [Option.or_none]
    cases ys with
    | nil => trivial
    | cons z vs =>
      refine hy.setPrev (hnext z rfl) fun x hxm => hsame x (by simp [hxm]) (fun he => ?_) fun he => ?_
      · exact hapart x (List.mem_of_getLast? he) x (List.mem_cons_of_mem _ hxm) rfl
      · obtain rfl := Option.some.inj he
        exact (List.nodup_cons.mp hndy).1 hxm

/-- The cells that the forward links lead through, at most as many as the fuel. -/
def forward (links : A → Option (Pair A)) : Nat → Option A → Option (List A)
  | _, none => some []
  | 0, some _ => none
  | fuel + 1, some a => (links a).bind fun q => (forward links fuel q.next).map (a :: ·)

theorem Segment.forward (h : Segment links p l none) {fuel : Nat} (hf : l.length ≤ fuel) : forward links fuel l.head? = some l := by
  induction l generalizing p fuel with
  | nil => cases fuel <;> rfl
  | cons a l ih =>
    cases fuel with
    | zero => exact absurd hf (by simp)
    | succ fuel =>
      rw [List.length_cons] at hf
      have hrest := ih h.2 (by omega : l.length ≤ fuel)
      rw [List.head?_cons, Links.forward, h.1, Option.bind_some, Option.or_none, hrest, Option.map_some]

/-! ## One link -/

section

variable {C : Type} {cells cells' : A → Option (C × Option A)} {q : Option A} {c : C} {us vs : List (A × C)}

/-- From `p` to `n` through cells with these contents. -/
def Chain (cells : A → Option (C × Option A)) : Option A → List (A × C) → Option A → Prop
  | p, [], n => p = n
  | p, x :: l, n => p = some x.1 ∧ ∃ next, cells x.1 = some (x.2, next) ∧ Chain cells next l n

theorem chain_append : Chain cells p (us ++ vs) n ↔ ∃ q, Chain cells p us q ∧ Chain cells q vs n := by
  induction us generalizing p with
  | nil => simp [Chain]
  | cons x us ih =>
    simp only [List.cons_append, Chain, ih]
    constructor
    · rintro ⟨hp, next, hx, q, hus, hvs⟩
      exact ⟨q, ⟨hp, next, hx, hus⟩, hvs⟩
    · rintro ⟨q, ⟨hp, next, hx, hus⟩, hvs⟩
      exact ⟨hp, next, hx, q, hus, hvs⟩

theorem Chain.congr (h : Chain cells p us n) (hsame : ∀ x ∈ us, cells' x.1 = cells x.1) : Chain cells' p us n := by
  induction us generalizing p with
  | nil => exact h
  | cons x us ih =>
    obtain ⟨hp, next, hx, h⟩ := h
    exact ⟨hp, next, (hsame x List.mem_cons_self).trans hx, ih h fun y hy => hsame y (List.mem_cons_of_mem x hy)⟩

theorem Chain.content {x : A × C} (h : Chain cells p us n) (hx : x ∈ us) : ∃ next, cells x.1 = some (x.2, next) := by
  induction us generalizing p with
  | nil => cases hx
  | cons y us ih =>
    obtain ⟨_, next, hy, h⟩ := h
    rcases List.mem_cons.mp hx with rfl | hx
    · exact ⟨next, hy⟩
    · exact ih h hx

/-- The last cell leads elsewhere. -/
theorem Chain.redirect (h : Chain cells p (us ++ [(z, c)]) n) (hz : ∀ m, cells z = some (c, m) → cells' z = some (c, n'))
    (hsame : ∀ x ∈ us, cells' x.1 = cells x.1) : Chain cells' p (us ++ [(z, c)]) n' := by
  obtain ⟨q, hus, hq, m, hlast, _⟩ := chain_append.mp h
  exact chain_append.mpr ⟨q, hus.congr hsame, hq, n', hz m hlast, rfl⟩

end

end Yfs.Links
