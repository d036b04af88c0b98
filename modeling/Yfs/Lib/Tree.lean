import Mathlib

/-! # Trees of directories

Entry 0 of a directory leads to itself and entry 1 to its parent. The others lead to children and to files, which may have many names.
-/

namespace Yfs.Tree

variable {N C : Type}

/-- Nodes with numbered entries, and the number of names that each file is said to have. -/
structure Nodes (N C : Type) where
  entries : N → Nat → Option (N × C)
  used : N → Prop
  dir : N → Prop
  file : N → Prop
  links : N → Int

/-- What entries lead to from `r`. -/
inductive Reached (E : N → Nat → Option (N × C)) (r : N) : N → Prop where
  | root : Reached E r r
  | next {n m : N} {l : Nat} {c : C} (h : Reached E r n) (he : E n l = some (m, c)) : Reached E r m

/-- What entries past the first two lead to from `r`. -/
inductive Below (E : N → Nat → Option (N × C)) (r : N) : N → Prop where
  | root : Below E r r
  | next {n m : N} {l : Nat} {c : C} (h : Below E r n) (hl : 2 ≤ l) (he : E n l = some (m, c)) : Below E r m

/-- Every directory hangs from one entry of the parent, and all hang from `r`. -/
structure Rooted (T : Nodes N C) (r : N) : Prop where
  used : ∀ n, T.dir n → T.used n
  source : ∀ {n l m c}, T.entries n l = some (m, c) → T.dir n
  target : ∀ {n l m c}, T.entries n l = some (m, c) → T.used m
  reached : ∀ n, T.dir n → Reached T.entries r n
  root : T.dir r
  self : ∀ n, T.dir n → ∃ c, T.entries n 0 = some (n, c)
  top : ∃ c, T.entries r 1 = some (r, c)
  parent : ∀ {p l n c}, T.entries p l = some (n, c) → 2 ≤ l → T.dir n → n ≠ r ∧ ∃ b, T.entries n 1 = some (p, b)
  once : ∀ {p k l n b c}, T.entries p k = some (n, b) → T.entries p l = some (n, c) → 2 ≤ k → 2 ≤ l → T.dir n → k = l

/-- The entries that name `m`. -/
def into (E : N → Nat → Option (N × C)) (m : N) : Set (N × Nat) := {p | ∃ c, E p.1 p.2 = some (m, c)}

/-- Files have as many names as they are said to have. -/
structure Counted (T : Nodes N C) : Prop where
  used : ∀ m, T.file m → T.used m
  links : ∀ m, T.file m → T.links m = (into T.entries m).ncard

/-- The names of the entries, by their numbers. -/
def Signed (E : N → Nat → Option (N × C)) (isSelf isUp isName : C → Prop) : Prop :=
  ∀ n l m c, E n l = some (m, c) → (l = 0 → isSelf c) ∧ (l = 1 → isUp c) ∧ (2 ≤ l → isName c)

/-! ## Changes -/

variable {E E' : N → Nat → Option (N × C)} {T T' : Nodes N C} {r n m p q : N} {k l : Nat} {b c : C} {isSelf isUp isName : C → Prop} {fits : Prop}

/-- Entry `l` of `n`, which was free, leads to `m`. -/
structure Put (E E' : N → Nat → Option (N × C)) (n : N) (l : Nat) (m : N) (c : C) : Prop where
  free : E n l = none
  new : E' n l = some (m, c)
  others : ∀ p k, ¬ (p = n ∧ k = l) → E' p k = E p k

/-- Entry `l` of `n`, which led to `m`, is free. -/
structure Take (E E' : N → Nat → Option (N × C)) (n : N) (l : Nat) (m : N) (c : C) : Prop where
  old : E n l = some (m, c)
  free : E' n l = none
  others : ∀ p k, ¬ (p = n ∧ k = l) → E' p k = E p k

/-- Entry `l` of `n`, which was free, leads to `m`, which has its first two entries. -/
structure Grow (E E' : N → Nat → Option (N × C)) (n : N) (l : Nat) (m : N) (c : C) (isSelf isUp : C → Prop) : Prop where
  free : E n l = none
  new : E' n l = some (m, c)
  self : ∃ b, E' m 0 = some (m, b) ∧ isSelf b
  up : ∃ b, E' m 1 = some (n, b) ∧ isUp b
  bare : ∀ k, 2 ≤ k → E' m k = none
  others : ∀ p k, p ≠ m → ¬ (p = n ∧ k = l) → E' p k = E p k

/-- Entry `l` of `n`, which led to `m`, is free, and so is every entry of `m`. -/
structure Prune (E E' : N → Nat → Option (N × C)) (n : N) (l : Nat) (m : N) : Prop where
  old : ∃ c, E n l = some (m, c)
  bare : ∀ k, 2 ≤ k → E m k = none
  free : E' n l = none
  gone : ∀ k, E' m k = none
  others : ∀ p k, p ≠ m → ¬ (p = n ∧ k = l) → E' p k = E p k

/-- What an operation on the tree does. Links are counted right where they fit. -/
inductive Step (fits : Prop) (isSelf isUp isName : C → Prop) (r : N) (T T' : Nodes N C) : Prop where
  | same (hE : T'.entries = T.entries) (hused : ∀ p, T'.used p ↔ T.used p) (hdir : ∀ p, T'.dir p ↔ T.dir p)
    (hfile : ∀ p, T'.file p → T.file p ∧ T'.links p = T.links p)
  | create {n m : N} {l : Nat} {c : C} (hE : Put T.entries T'.entries n l m c) (hname : isName c) (hn : T.dir n) (hm : ¬ T.used m)
    (hused : ∀ p, T'.used p ↔ T.used p ∨ p = m) (hdir : ∀ p, T'.dir p ↔ T.dir p) (hone : T'.links m = 1)
    (hfile : ∀ p, T'.file p → p ≠ m → T.file p ∧ T'.links p = T.links p)
  | link {n m : N} {l : Nat} {c : C} (hE : Put T.entries T'.entries n l m c) (hname : isName c) (hn : T.dir n) (hm : T.used m) (hleaf : ¬ T.dir m)
    (hused : ∀ p, T'.used p ↔ T.used p) (hdir : ∀ p, T'.dir p ↔ T.dir p) (hmore : fits → T'.links m = T.links m + 1)
    (hfile : ∀ p, T'.file p → T.file p ∧ (p ≠ m → T'.links p = T.links p))
  | unlink {n m : N} {l : Nat} {c : C} (hE : Take T.entries T'.entries n l m c) (hleaf : ¬ T.dir m)
    (hused : ∀ p, T'.used p ↔ T.used p) (hdir : ∀ p, T'.dir p ↔ T.dir p) (hless : 0 < T.links m → T'.links m = T.links m - 1)
    (hfile : ∀ p, T'.file p → T.file p ∧ (p ≠ m → T'.links p = T.links p))
  | mkdir {n m : N} {l : Nat} {c : C} (hE : Grow T.entries T'.entries n l m c isSelf isUp) (hname : isName c) (hn : T.dir n) (hm : ¬ T.used m)
    (hused : ∀ p, T'.used p ↔ T.used p ∨ p = m) (hdir : ∀ p, T'.dir p ↔ T.dir p ∨ p = m)
    (hfile : ∀ p, T'.file p → ¬ T'.dir p ∧ T.file p ∧ T'.links p = T.links p)
  | rmdir {n m : N} {l : Nat} (hE : Prune T.entries T'.entries n l m) (hne : n ≠ m) (hm : T.dir m) (hroot : m ≠ r)
    (hused : ∀ p, T'.used p ↔ T.used p ∧ p ≠ m) (hdir : ∀ p, T'.dir p ↔ T.dir p ∧ p ≠ m)
    (hfile : ∀ p, T'.file p → ¬ T.dir p ∧ T.file p ∧ T'.links p = T.links p)

/-! ## The shape of the tree -/

namespace Rooted

variable (h : Rooted T r)
include h

/-- Every directory hangs from `r` by entries past the first two. -/
theorem below (hn : T.dir n) : Below T.entries r n := by
  have hall : ∀ n, Reached T.entries r n → T.dir n → Below T.entries r n := by
    intro n hr
    induction hr with
    | root => exact fun _ => .root
    | @next n m l c _ he ih =>
      intro hm
      have hbelow := ih (h.source he)
      obtain rfl | rfl | hl : l = 0 ∨ l = 1 ∨ 2 ≤ l := by omega
      · obtain ⟨b, hself⟩ := h.self n (h.source he)
        obtain rfl := (Prod.mk.inj (Option.some.inj (hself.symm.trans he))).1
        exact hbelow
      · -- Up to the parent, where the way down came from.
        cases hbelow with
        | root =>
          obtain ⟨b, htop⟩ := h.top
          obtain rfl := (Prod.mk.inj (Option.some.inj (htop.symm.trans he))).1
          exact .root
        | next hp hk hn =>
          obtain ⟨_, b, hup⟩ := h.parent hn hk (h.source he)
          obtain rfl := (Prod.mk.inj (Option.some.inj (hup.symm.trans he))).1
          exact hp
      · exact hbelow.next hl he
  exact hall n (h.reached n hn) hn

theorem hangs (hn : T.dir n) (hne : n ≠ r) : ∃ p l c, 2 ≤ l ∧ T.entries p l = some (n, c) := by
  cases h.below hn with
  | root => exact absurd rfl hne
  | next _ hl he => exact ⟨_, _, _, hl, he⟩

theorem up (hn : T.dir n) : ∃ p c, T.entries n 1 = some (p, c) := by
  by_cases hne : n = r
  · subst hne
    exact ⟨n, h.top⟩
  · obtain ⟨p, l, c, hl, he⟩ := h.hangs hn hne
    exact ⟨p, (h.parent he hl hn).2⟩

/-- An entry that is free is past the first two. -/
theorem free_past (hn : T.dir n) (hfree : T.entries n l = none) : 2 ≤ l := by
  by_contra hl
  obtain rfl | rfl : l = 0 ∨ l = 1 := by omega
  · obtain ⟨c, hself⟩ := h.self n hn
    rw [hself] at hfree
    cases hfree
  · obtain ⟨p, c, hup⟩ := h.up hn
    rw [hup] at hfree
    cases hfree

/-- So is one that leads to a file. -/
theorem file_past (he : T.entries n l = some (m, c)) (hm : ¬ T.dir m) : 2 ≤ l := by
  have hn := h.source he
  by_contra hl
  obtain rfl | rfl : l = 0 ∨ l = 1 := by omega
  · obtain ⟨b, hself⟩ := h.self n hn
    obtain rfl := (Prod.mk.inj (Option.some.inj (hself.symm.trans he))).1
    exact hm hn
  · by_cases hne : n = r
    · subst hne
      obtain ⟨b, htop⟩ := h.top
      obtain rfl := (Prod.mk.inj (Option.some.inj (htop.symm.trans he))).1
      exact hm hn
    · obtain ⟨p, l, b, hl, hp⟩ := h.hangs hn hne
      obtain ⟨_, b', hup⟩ := h.parent hp hl hn
      obtain rfl := (Prod.mk.inj (Option.some.inj (hup.symm.trans he))).1
      exact hm (h.source hp)

/-- What leads to a directory without children, from elsewhere, is past the first two. -/
theorem childless_past (hbare : ∀ k, 2 ≤ k → T.entries m k = none) (hroot : m ≠ r) (he : T.entries p k = some (m, c)) (hne : p ≠ m) : 2 ≤ k := by
  have hp := h.source he
  by_contra hk
  obtain rfl | rfl : k = 0 ∨ k = 1 := by omega
  · obtain ⟨b, hself⟩ := h.self p hp
    exact hne (Prod.mk.inj (Option.some.inj (hself.symm.trans he))).1
  · by_cases hpr : p = r
    · subst hpr
      obtain ⟨b, htop⟩ := h.top
      exact hne (Prod.mk.inj (Option.some.inj (htop.symm.trans he))).1
    · obtain ⟨q, l, a, hl, hq⟩ := h.hangs hp hpr
      obtain ⟨_, b, hup⟩ := h.parent hq hl hp
      obtain ⟨rfl, _⟩ := Prod.mk.inj (Option.some.inj (hup.symm.trans he))
      rw [hbare l hl] at hq
      cases hq

end Rooted

/-! ## What a step keeps -/

theorem Put.eq_some (h : Put E E' n l m c) (he : E' p k = some (q, b)) : E p k = some (q, b) ∨ p = n ∧ k = l ∧ q = m ∧ b = c := by
  by_cases hpl : p = n ∧ k = l
  · obtain ⟨rfl, rfl⟩ := hpl
    obtain ⟨rfl, rfl⟩ := Prod.mk.inj (Option.some.inj (h.new.symm.trans he))
    exact .inr ⟨rfl, rfl, rfl, rfl⟩
  · exact .inl ((h.others p k hpl).symm.trans he)

theorem Put.keeps (h : Put E E' n l m c) (he : E p k = some (q, b)) : E' p k = some (q, b) := by
  refine (h.others p k ?_).trans he
  rintro ⟨rfl, rfl⟩
  rw [h.free] at he
  cases he

theorem Take.eq_some (h : Take E E' n l m c) (he : E' p k = some (q, b)) : E p k = some (q, b) ∧ ¬ (p = n ∧ k = l) := by
  by_cases hpl : p = n ∧ k = l
  · obtain ⟨rfl, rfl⟩ := hpl
    rw [h.free] at he
    cases he
  · exact ⟨(h.others p k hpl).symm.trans he, hpl⟩

theorem Grow.eq_some (h : Grow E E' n l m c isSelf isUp) (he : E' p k = some (q, b)) :
    p ≠ m ∧ E p k = some (q, b) ∨ p = n ∧ k = l ∧ q = m ∧ b = c ∨ p = m ∧ (k = 0 ∧ q = m ∧ isSelf b ∨ k = 1 ∧ q = n ∧ isUp b) := by
  by_cases hpm : p = m
  · subst hpm
    obtain rfl | rfl | hk : k = 0 ∨ k = 1 ∨ 2 ≤ k := by omega
    · obtain ⟨a, hself, ha⟩ := h.self
      obtain ⟨rfl, rfl⟩ := Prod.mk.inj (Option.some.inj (hself.symm.trans he))
      exact .inr (.inr ⟨rfl, .inl ⟨rfl, rfl, ha⟩⟩)
    · obtain ⟨a, hup, ha⟩ := h.up
      obtain ⟨rfl, rfl⟩ := Prod.mk.inj (Option.some.inj (hup.symm.trans he))
      exact .inr (.inr ⟨rfl, .inr ⟨rfl, rfl, ha⟩⟩)
    · rw [h.bare k hk] at he
      cases he
  · by_cases hpl : p = n ∧ k = l
    · obtain ⟨rfl, rfl⟩ := hpl
      obtain ⟨rfl, rfl⟩ := Prod.mk.inj (Option.some.inj (h.new.symm.trans he))
      exact .inr (.inl ⟨rfl, rfl, rfl, rfl⟩)
    · exact .inl ⟨hpm, (h.others p k hpm hpl).symm.trans he⟩

theorem Grow.keeps (h : Grow E E' n l m c isSelf isUp) (hpm : p ≠ m) (he : E p k = some (q, b)) : E' p k = some (q, b) := by
  refine (h.others p k hpm ?_).trans he
  rintro ⟨rfl, rfl⟩
  rw [h.free] at he
  cases he

theorem Prune.eq_some (h : Prune E E' n l m) (he : E' p k = some (q, b)) : p ≠ m ∧ ¬ (p = n ∧ k = l) ∧ E p k = some (q, b) := by
  by_cases hpm : p = m
  · subst hpm
    rw [h.gone k] at he
    cases he
  · by_cases hpl : p = n ∧ k = l
    · obtain ⟨rfl, rfl⟩ := hpl
      rw [h.free] at he
      cases he
    · exact ⟨hpm, hpl, (h.others p k hpm hpl).symm.trans he⟩

/-! ## The tree after a step -/

section

variable (h : Rooted T r)
include h

theorem Rooted.same (hE : T'.entries = T.entries) (hused : ∀ p, T'.used p ↔ T.used p) (hdir : ∀ p, T'.dir p ↔ T.dir p) : Rooted T' r := by
  refine ⟨fun n hn => (hused n).mpr (h.used n ((hdir n).mp hn)), fun he => ?_, fun he => ?_, fun n hn => ?_, (hdir r).mpr h.root, fun n hn => ?_,
    ?_, fun he hl hn => ?_, fun hk hl => ?_⟩ <;> simp only [hE] at *
  · exact (hdir _).mpr (h.source he)
  · exact (hused _).mpr (h.target he)
  · exact h.reached n ((hdir n).mp hn)
  · exact h.self n ((hdir n).mp hn)
  · exact h.top
  · exact h.parent he hl ((hdir _).mp hn)
  · exact fun h2 h2' hn => h.once hk hl h2 h2' ((hdir _).mp hn)

/-- A new name of a file. -/
theorem Rooted.put (hE : Put T.entries T'.entries n l m c) (hn : T.dir n) (hm : ¬ T.dir m) (hused : ∀ p, T'.used p ↔ T.used p ∨ p = m)
    (hdir : ∀ p, T'.dir p ↔ T.dir p) : Rooted T' r := by
  have hreached : ∀ p, Reached T.entries r p → Reached T'.entries r p := fun p hp => by
    induction hp with
    | root => exact .root
    | next _ he ih => exact ih.next (hE.keeps he)
  refine ⟨fun p hp => (hused p).mpr (.inl (h.used p ((hdir p).mp hp))), fun he => ?_, fun he => ?_, fun p hp => hreached p (h.reached p ((hdir p).mp hp)),
    (hdir r).mpr h.root, fun p hp => ?_, ?_, fun he hl hp => ?_, fun hk hl h2 h2' hp => ?_⟩
  · rcases hE.eq_some he with hold | ⟨rfl, _⟩
    · exact (hdir _).mpr (h.source hold)
    · exact (hdir _).mpr hn
  · rcases hE.eq_some he with hold | ⟨_, _, rfl, _⟩
    · exact (hused _).mpr (.inl (h.target hold))
    · exact (hused _).mpr (.inr rfl)
  · obtain ⟨b, hself⟩ := h.self p ((hdir p).mp hp)
    exact ⟨b, hE.keeps hself⟩
  · obtain ⟨b, htop⟩ := h.top
    exact ⟨b, hE.keeps htop⟩
  · have hp' := (hdir _).mp hp
    rcases hE.eq_some he with hold | ⟨_, _, rfl, _⟩
    · obtain ⟨hne, b, hup⟩ := h.parent hold hl hp'
      exact ⟨hne, b, hE.keeps hup⟩
    · exact absurd hp' hm
  · have hp' := (hdir _).mp hp
    rcases hE.eq_some hk with hk | ⟨_, _, rfl, _⟩
    · rcases hE.eq_some hl with hl | ⟨_, _, rfl, _⟩
      · exact h.once hk hl h2 h2' hp'
      · exact absurd hp' hm
    · exact absurd hp' hm

/-- A name of a file less. -/
theorem Rooted.take (hE : Take T.entries T'.entries n l m c) (hm : ¬ T.dir m) (hused : ∀ p, T'.used p ↔ T.used p)
    (hdir : ∀ p, T'.dir p ↔ T.dir p) : Rooted T' r := by
  have hkeeps : ∀ {p k q b}, T.dir q → T.entries p k = some (q, b) → T'.entries p k = some (q, b) := by
    intro p k q b hq he
    refine (hE.others p k ?_).trans he
    rintro ⟨rfl, rfl⟩
    obtain ⟨rfl, _⟩ := Prod.mk.inj (Option.some.inj (hE.old.symm.trans he))
    exact hm hq
  have hreached : ∀ p, Reached T.entries r p → T.dir p → Reached T'.entries r p := fun p hp => by
    induction hp with
    | root => exact fun _ => .root
    | next _ he ih => exact fun hp => (ih (h.source he)).next (hkeeps hp he)
  refine ⟨fun p hp => (hused p).mpr (h.used p ((hdir p).mp hp)), fun he => (hdir _).mpr (h.source (hE.eq_some he).1),
    fun he => (hused _).mpr (h.target (hE.eq_some he).1), fun p hp => hreached p (h.reached p ((hdir p).mp hp)) ((hdir p).mp hp),
    (hdir r).mpr h.root, fun p hp => ?_, ?_, fun he hl hp => ?_, fun hk hl h2 h2' hp => ?_⟩
  · have hp' := (hdir p).mp hp
    obtain ⟨b, hself⟩ := h.self p hp'
    exact ⟨b, hkeeps hp' hself⟩
  · obtain ⟨b, htop⟩ := h.top
    exact ⟨b, hkeeps h.root htop⟩
  · have hold := (hE.eq_some he).1
    obtain ⟨hne, b, hup⟩ := h.parent hold hl ((hdir _).mp hp)
    exact ⟨hne, b, hkeeps (h.source hold) hup⟩
  · exact h.once (hE.eq_some hk).1 (hE.eq_some hl).1 h2 h2' ((hdir _).mp hp)

/-- A new directory. -/
theorem Rooted.grow (hE : Grow T.entries T'.entries n l m c isSelf isUp) (hn : T.dir n) (hm : ¬ T.used m)
    (hused : ∀ p, T'.used p ↔ T.used p ∨ p = m) (hdir : ∀ p, T'.dir p ↔ T.dir p ∨ p = m) : Rooted T' r := by
  have hne : ∀ {p}, T.dir p → p ≠ m := by
    rintro p hp rfl
    exact hm (h.used p hp)
  have hnm : ∀ {p k q b}, T.entries p k = some (q, b) → q ≠ m := by
    rintro p k q b he rfl
    exact hm (h.target he)
  have hkeeps : ∀ {p k q b}, T.entries p k = some (q, b) → T'.entries p k = some (q, b) := fun he => hE.keeps (hne (h.source he)) he
  have hreached : ∀ p, Reached T.entries r p → Reached T'.entries r p := fun p hp => by
    induction hp with
    | root => exact .root
    | next _ he ih => exact ih.next (hkeeps he)
  have hpast := h.free_past hn hE.free
  refine ⟨fun p hp => ?_, fun he => ?_, fun he => ?_, fun p hp => ?_, (hdir r).mpr (.inl h.root), fun p hp => ?_, ?_, fun he hl hp => ?_,
    fun hk hl h2 h2' hp => ?_⟩
  · exact (hused p).mpr (((hdir p).mp hp).imp_left (h.used p))
  · rcases hE.eq_some he with ⟨_, hold⟩ | ⟨rfl, _⟩ | ⟨rfl, _⟩
    · exact (hdir _).mpr (.inl (h.source hold))
    · exact (hdir _).mpr (.inl hn)
    · exact (hdir _).mpr (.inr rfl)
  · rcases hE.eq_some he with ⟨_, hold⟩ | ⟨_, _, rfl, _⟩ | ⟨_, ⟨_, rfl, _⟩ | ⟨_, rfl, _⟩⟩
    · exact (hused _).mpr (.inl (h.target hold))
    · exact (hused _).mpr (.inr rfl)
    · exact (hused _).mpr (.inr rfl)
    · exact (hused _).mpr (.inl (h.used _ hn))
  · rcases (hdir p).mp hp with hold | rfl
    · exact hreached p (h.reached p hold)
    · exact (hreached n (h.reached n hn)).next hE.new
  · rcases (hdir p).mp hp with hold | rfl
    · obtain ⟨b, hself⟩ := h.self p hold
      exact ⟨b, hkeeps hself⟩
    · obtain ⟨b, hself, _⟩ := hE.self
      exact ⟨b, hself⟩
  · obtain ⟨b, htop⟩ := h.top
    exact ⟨b, hkeeps htop⟩
  · rcases hE.eq_some he with ⟨_, hold⟩ | ⟨rfl, rfl, rfl, _⟩ | ⟨_, ⟨rfl, _⟩ | ⟨rfl, _⟩⟩
    · obtain ⟨hroot, b, hup⟩ := h.parent hold hl (((hdir _).mp hp).resolve_right (hnm hold))
      exact ⟨hroot, b, hkeeps hup⟩
    · obtain ⟨b, hup, _⟩ := hE.up
      exact ⟨(hne h.root).symm, b, hup⟩
    · omega
    · omega
  · rcases hE.eq_some hk with ⟨_, hk⟩ | ⟨rfl, rfl, rfl, _⟩ | ⟨_, ⟨rfl, _⟩ | ⟨rfl, _⟩⟩
    · rcases hE.eq_some hl with ⟨_, hl⟩ | ⟨_, _, rfl, _⟩ | ⟨_, ⟨rfl, _⟩ | ⟨rfl, _⟩⟩
      · exact h.once hk hl h2 h2' (((hdir _).mp hp).resolve_right (hnm hk))
      · exact absurd rfl (hnm hk)
      · omega
      · omega
    · rcases hE.eq_some hl with ⟨_, hl⟩ | ⟨_, rfl, _⟩ | ⟨_, ⟨rfl, _⟩ | ⟨rfl, _⟩⟩
      · exact absurd rfl (hnm hl)
      · rfl
      · omega
      · omega
    · omega
    · omega

/-- A directory without children goes. -/
theorem Rooted.prune (hE : Prune T.entries T'.entries n l m) (hne : n ≠ m) (hm : T.dir m) (hroot : m ≠ r)
    (hused : ∀ p, T'.used p ↔ T.used p ∧ p ≠ m) (hdir : ∀ p, T'.dir p ↔ T.dir p ∧ p ≠ m) : Rooted T' r := by
  obtain ⟨c, hold⟩ := hE.old
  have hpast := h.childless_past hE.bare hroot hold hne
  obtain ⟨_, b, hup⟩ := h.parent hold hpast hm
  have honly : ∀ {p k a}, T.entries p k = some (m, a) → p ≠ m → p = n ∧ k = l := by
    intro p k a he hpm
    have hk := h.childless_past hE.bare hroot he hpm
    obtain ⟨_, _, hup'⟩ := h.parent he hk hm
    obtain ⟨rfl, _⟩ := Prod.mk.inj (Option.some.inj (hup'.symm.trans hup))
    exact ⟨rfl, h.once he hold hk hpast hm⟩
  have hkeeps : ∀ {p k q a}, p ≠ m → q ≠ m → T.entries p k = some (q, a) → T'.entries p k = some (q, a) := by
    intro p k q a hpm hqm he
    refine (hE.others p k hpm ?_).trans he
    rintro ⟨rfl, rfl⟩
    exact hqm (Prod.mk.inj (Option.some.inj (he.symm.trans hold))).1
  -- What was reached through the directory is itself or the parent.
  have hreached : ∀ p, Reached T.entries r p → (p ≠ m → Reached T'.entries r p) ∧ (p = m → Reached T'.entries r n) := fun p hp => by
    induction hp with
    | root => exact ⟨fun _ => .root, fun he => absurd he.symm hroot⟩
    | @next e q k a _ he ih =>
      by_cases hem : e = m
      · subst hem
        have hn := ih.2 rfl
        obtain rfl | rfl | hk : k = 0 ∨ k = 1 ∨ 2 ≤ k := by omega
        · obtain ⟨_, hself⟩ := h.self e hm
          obtain ⟨rfl, _⟩ := Prod.mk.inj (Option.some.inj (hself.symm.trans he))
          exact ⟨fun hq => absurd rfl hq, fun _ => hn⟩
        · obtain ⟨rfl, _⟩ := Prod.mk.inj (Option.some.inj (hup.symm.trans he))
          exact ⟨fun _ => hn, fun _ => hn⟩
        · rw [hE.bare k hk] at he
          cases he
      · refine ⟨fun hq => (ih.1 hem).next (hkeeps hem hq he), ?_⟩
        rintro rfl
        obtain ⟨rfl, _⟩ := honly he hem
        exact ih.1 hem
  refine ⟨fun p hp => ?_, fun he => ?_, fun he => ?_, fun p hp => ?_, (hdir r).mpr ⟨h.root, hroot.symm⟩, fun p hp => ?_, ?_, fun he hl hp => ?_,
    fun hk hl h2 h2' hp => ?_⟩
  · exact (hused p).mpr (((hdir p).mp hp).imp_left (h.used p))
  · obtain ⟨hpm, _, he⟩ := hE.eq_some he
    exact (hdir _).mpr ⟨h.source he, hpm⟩
  · obtain ⟨hpm, hother, he⟩ := hE.eq_some he
    refine (hused _).mpr ⟨h.target he, ?_⟩
    rintro rfl
    exact hother (honly he hpm)
  · obtain ⟨hp, hpm⟩ := (hdir p).mp hp
    exact (hreached p (h.reached p hp)).1 hpm
  · obtain ⟨hp, hpm⟩ := (hdir p).mp hp
    obtain ⟨a, hself⟩ := h.self p hp
    exact ⟨a, hkeeps hpm hpm hself⟩
  · obtain ⟨a, htop⟩ := h.top
    exact ⟨a, hkeeps hroot.symm hroot.symm htop⟩
  · obtain ⟨hp, hpm⟩ := (hdir _).mp hp
    obtain ⟨hem, _, he⟩ := hE.eq_some he
    obtain ⟨hne, a, hup⟩ := h.parent he hl hp
    exact ⟨hne, a, hkeeps hpm hem hup⟩
  · exact h.once (hE.eq_some hk).2.2 (hE.eq_some hl).2.2 h2 h2' ((hdir _).mp hp).1

end

/-- A step keeps the tree. -/
theorem Step.rooted (h : Step fits isSelf isUp isName r T T') (hr : Rooted T r) : Rooted T' r := by
  cases h with
  | same hE hused hdir => exact hr.same hE hused hdir
  | create hE _ hn hm hused hdir => exact hr.put hE hn (fun hd => hm (hr.used _ hd)) hused hdir
  | link hE _ hn hm hleaf hused hdir =>
    refine hr.put hE hn hleaf (fun p => ?_) hdir
    rw [hused]
    exact ⟨.inl, fun hp => hp.elim id fun he => he ▸ hm⟩
  | unlink hE hleaf hused hdir => exact hr.take hE hleaf hused hdir
  | mkdir hE _ hn hm hused hdir => exact hr.grow hE hn hm hused hdir
  | rmdir hE hne hm hroot hused hdir => exact hr.prune hE hne hm hroot hused hdir

/-! ## The names of files after a step -/

theorem into_eq (h : ∀ n l c, E' n l = some (m, c) ↔ E n l = some (m, c)) : into E' m = into E m := by
  ext ⟨n, l⟩
  exact exists_congr fun c => h n l c

theorem Put.into_self (h : Put E E' n l m c) : into E' m = insert (n, l) (into E m) := by
  ext ⟨p, k⟩
  constructor
  · rintro ⟨b, he⟩
    rcases h.eq_some he with hold | ⟨rfl, rfl, _⟩
    · exact .inr ⟨b, hold⟩
    · exact .inl rfl
  · rintro (he | ⟨b, he⟩)
    · obtain ⟨rfl, rfl⟩ := Prod.mk.inj he
      exact ⟨c, h.new⟩
    · exact ⟨b, h.keeps he⟩

theorem Put.into_other (h : Put E E' n l m c) (hp : p ≠ m) : into E' p = into E p := by
  refine into_eq fun q k b => ⟨fun he => ?_, h.keeps⟩
  exact (h.eq_some he).resolve_right fun hm => hp hm.2.2.1

theorem Put.notMem (h : Put E E' n l m c) : (n, l) ∉ into E p := by
  rintro ⟨b, he⟩
  exact absurd (h.free.symm.trans he) (by simp)

theorem Take.into_self (h : Take E E' n l m c) : into E' m = into E m \ {(n, l)} := by
  ext ⟨p, k⟩
  constructor
  · rintro ⟨b, he⟩
    obtain ⟨hold, hne⟩ := h.eq_some he
    exact ⟨⟨b, hold⟩, fun heq => hne (Prod.mk.inj heq)⟩
  · rintro ⟨⟨b, he⟩, hne⟩
    exact ⟨b, (h.others p k fun heq => hne (Prod.ext heq.1 heq.2)).trans he⟩

theorem Take.into_other (h : Take E E' n l m c) (hp : p ≠ m) : into E' p = into E p := by
  refine into_eq fun q k b => ⟨fun he => (h.eq_some he).1, fun he => (h.others q k ?_).trans he⟩
  rintro ⟨rfl, rfl⟩
  exact hp (Prod.mk.inj (Option.some.inj (he.symm.trans h.old))).1

theorem Take.mem (h : Take E E' n l m c) : (n, l) ∈ into E m := ⟨c, h.old⟩

theorem Grow.into_other (h : Grow E E' n l m c isSelf isUp) (hp : p ≠ m) (hn : p ≠ n) (hnone : ∀ k q a, E m k ≠ some (q, a)) :
    into E' p = into E p := by
  refine into_eq fun q k b => ⟨fun he => ?_, fun he => h.keeps ?_ he⟩
  · rcases h.eq_some he with ⟨_, hold⟩ | ⟨_, _, hm, _⟩ | ⟨_, ⟨_, hm, _⟩ | ⟨_, hup, _⟩⟩
    · exact hold
    · exact absurd hm hp
    · exact absurd hm hp
    · exact absurd hup hn
  · rintro rfl
    exact hnone _ _ _ he

theorem Prune.into_other (h : Prune E E' n l m) (hp : p ≠ m) (hnone : ∀ k a, E m k ≠ some (p, a)) : into E' p = into E p := by
  refine into_eq fun q k b => ⟨fun he => (h.eq_some he).2.2, fun he => (h.others q k ?_ ?_).trans he⟩
  · rintro rfl
    exact hnone _ _ he
  · rintro ⟨rfl, rfl⟩
    obtain ⟨c, hold⟩ := h.old
    exact hp (Prod.mk.inj (Option.some.inj (he.symm.trans hold))).1

/-- A step keeps the counts. -/
theorem Step.counted (h : Step fits isSelf isUp isName r T T') (hr : Rooted T r) (hc : Counted T) (hfits : fits)
    (hfin : ∀ m, (into T.entries m).Finite) : Counted T' := by
  have hempty : ∀ {m}, ¬ T.used m → into T.entries m = ∅ := fun hm => by
    rw [Set.eq_empty_iff_forall_notMem]
    rintro ⟨p, k⟩ ⟨b, he⟩
    exact hm (hr.target he)
  cases h with
  | same hE hused _ hfile =>
    refine ⟨fun p hp => (hused p).mpr (hc.used p (hfile p hp).1), fun p hp => ?_⟩
    rw [hE, (hfile p hp).2, hc.links p (hfile p hp).1]
  | @create n m l c hE _ hn hm hused _ hone hfile =>
    refine ⟨fun p hp => ?_, fun p hp => ?_⟩
    · by_cases hpm : p = m
      · exact (hused p).mpr (.inr hpm)
      · exact (hused p).mpr (.inl (hc.used p (hfile p hp hpm).1))
    · by_cases hpm : p = m
      · subst hpm
        rw [hone, hE.into_self, hempty hm, insert_empty_eq, Set.ncard_singleton]
        rfl
      · rw [(hfile p hp hpm).2, hE.into_other hpm, hc.links p (hfile p hp hpm).1]
  | @link n m l c hE _ _ _ _ hused _ hmore hfile =>
    refine ⟨fun p hp => (hused p).mpr (hc.used p (hfile p hp).1), fun p hp => ?_⟩
    obtain ⟨hold, hsame⟩ := hfile p hp
    by_cases hpm : p = m
    · subst hpm
      rw [hmore hfits, hE.into_self, Set.ncard_insert_of_notMem hE.notMem (hfin p), hc.links p hold]
      rfl
    · rw [hsame hpm, hE.into_other hpm, hc.links p hold]
  | @unlink n m l c hE _ hused _ hless hfile =>
    refine ⟨fun p hp => (hused p).mpr (hc.used p (hfile p hp).1), fun p hp => ?_⟩
    obtain ⟨hold, hsame⟩ := hfile p hp
    by_cases hpm : p = m
    · subst hpm
      have hpos : 0 < (into T.entries p).ncard := (Set.ncard_pos (hfin p)).mpr ⟨_, hE.mem⟩
      have hlinks := hc.links p hold
      rw [hless (by omega), hE.into_self, Set.ncard_sdiff_singleton_of_mem hE.mem, hlinks]
      omega
    · rw [hsame hpm, hE.into_other hpm, hc.links p hold]
  | @mkdir n m l c hE _ hn hm hused hdir hfile =>
    refine ⟨fun p hp => (hused p).mpr (.inl (hc.used p (hfile p hp).2.1)), fun p hp => ?_⟩
    obtain ⟨hleaf, hold, hsame⟩ := hfile p hp
    rw [hdir, not_or] at hleaf
    have hpn : p ≠ n := by
      rintro rfl
      exact hleaf.1 hn
    rw [hsame, hE.into_other hleaf.2 hpn fun k q a he => hm (hr.used m (hr.source he)), hc.links p hold]
  | @rmdir n m l hE hne hm hroot hused hdir hfile =>
    have hpm : ∀ p, T'.file p → p ≠ m := by
      rintro p hp rfl
      exact (hfile p hp).1 hm
    refine ⟨fun p hp => (hused p).mpr ⟨hc.used p (hfile p hp).2.1, hpm p hp⟩, fun p hp => ?_⟩
    obtain ⟨hleaf, hold, hsame⟩ := hfile p hp
    rw [hsame, hE.into_other (hpm p hp) fun k a he => ?_, hc.links p hold]
    rw [hE.bare k (hr.file_past he hleaf)] at he
    cases he

/-- A step keeps the names. -/
theorem Step.signed (h : Step fits isSelf isUp isName r T T') (hr : Rooted T r) (hs : Signed T.entries isSelf isUp isName) :
    Signed T'.entries isSelf isUp isName := by
  have hput : ∀ {n l m c}, T.dir n → Put T.entries T'.entries n l m c → isName c → Signed T'.entries isSelf isUp isName := by
    intro n l m c hn hE hname p k q b he
    rcases hE.eq_some he with hold | ⟨rfl, rfl, _, rfl⟩
    · exact hs p k q b hold
    · have hpast := hr.free_past hn hE.free
      exact ⟨fun h0 => by omega, fun h1 => by omega, fun _ => hname⟩
  cases h with
  | same hE => rwa [hE]
  | create hE hname hn => exact hput hn hE hname
  | link hE hname hn => exact hput hn hE hname
  | unlink hE => exact fun p k q b he => hs p k q b (hE.eq_some he).1
  | mkdir hE hname hn =>
    intro p k q b he
    rcases hE.eq_some he with ⟨_, hold⟩ | ⟨rfl, rfl, _, rfl⟩ | ⟨_, ⟨rfl, _, hself⟩ | ⟨rfl, _, hup⟩⟩
    · exact hs p k q b hold
    · have hpast := hr.free_past hn hE.free
      exact ⟨fun h0 => by omega, fun h1 => by omega, fun _ => hname⟩
    · exact ⟨fun _ => hself, fun h1 => by omega, fun h2 => by omega⟩
    · exact ⟨fun h0 => by omega, fun _ => hup, fun h2 => by omega⟩
  | rmdir hE => exact fun p k q b he => hs p k q b (hE.eq_some he).2.2

theorem Step.mono {isSelf' isUp' isName' : C → Prop} (h : Step fits isSelf isUp isName r T T') (hself : ∀ c, isSelf c → isSelf' c)
    (hup : ∀ c, isUp c → isUp' c) (hname : ∀ c, isName c → isName' c) : Step fits isSelf' isUp' isName' r T T' := by
  cases h with
  | same hE hused hdir hfile => exact .same hE hused hdir hfile
  | create hE hc hn hm hused hdir hone hfile => exact .create hE (hname _ hc) hn hm hused hdir hone hfile
  | link hE hc hn hm hleaf hused hdir hmore hfile => exact .link hE (hname _ hc) hn hm hleaf hused hdir hmore hfile
  | unlink hE hleaf hused hdir hless hfile => exact .unlink hE hleaf hused hdir hless hfile
  | mkdir hE hc hn hm hused hdir hfile =>
    obtain ⟨b, h0, hb⟩ := hE.self
    obtain ⟨a, h1, ha⟩ := hE.up
    exact .mkdir ⟨hE.free, hE.new, ⟨b, h0, hself b hb⟩, ⟨a, h1, hup a ha⟩, hE.bare, hE.others⟩ (hname _ hc) hn hm hused hdir hfile
  | rmdir hE hne hm hroot hused hdir hfile => exact .rmdir hE hne hm hroot hused hdir hfile

end Yfs.Tree
