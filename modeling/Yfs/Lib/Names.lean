import Mathlib

/-! # Walks along names

A node has at most one edge of each name. Edges come and go one at a time.
-/

namespace Yfs.Names

variable {N C : Type} {G G' : N → C → Option N} {P : N → Prop} {n m d i : N} {c : C} {cs ds : List C}

/-- Take the edges of `G` that are named one by one. -/
def follow (G : N → C → Option N) : N → List C → Option N
  | n, [] => some n
  | n, c :: cs => (G n c).bind fun m => follow G m cs

theorem follow_append : follow G n (cs ++ ds) = (follow G n cs).bind fun m => follow G m ds := by
  induction cs generalizing n with
  | nil => rfl
  | cons c cs ih =>
    rw [List.cons_append, follow, follow, Option.bind_assoc]
    congr
    funext m
    exact ih

theorem follow_concat : follow G n (cs ++ [c]) = (follow G n cs).bind fun m => G m c := by
  simp [follow_append, follow]

/-- What the edges keep, a walk keeps. -/
theorem follow_mem (hn : P n) (hG : ∀ n c m, P n → G n c = some m → P m) (h : follow G n cs = some m) : P m := by
  induction cs generalizing n with
  | nil =>
    obtain rfl := Option.some.inj h
    exact hn
  | cons c cs ih =>
    obtain ⟨k, hk, h⟩ := Option.bind_eq_some_iff.mp h
    exact ih (hG n c k hn hk) h

/-- More edges from the nodes in `P`, where the walk stays, leave it as it is. -/
theorem follow_mono (hn : P n) (hG : ∀ n c m, P n → G n c = some m → P m)
    (hle : ∀ n c m, P n → G n c = some m → G' n c = some m) (h : follow G n cs = some m) : follow G' n cs = some m := by
  induction cs generalizing n with
  | nil => exact h
  | cons c cs ih =>
    obtain ⟨k, hk, h⟩ := Option.bind_eq_some_iff.mp h
    rw [follow, hle n c k hn hk, Option.bind_some]
    exact ih (hG n c k hn hk) h

/-- Walks along other names for the same edges. -/
theorem follow_map {D : Type} {H : N → D → Option N} {f : C → D} (hn : P n) (hG : ∀ n c m, P n → G n c = some m → P m)
    (hsame : ∀ n c, P n → H n (f c) = G n c) : follow H n (cs.map f) = follow G n cs := by
  induction cs generalizing n with
  | nil => rfl
  | cons c cs ih =>
    rw [List.map_cons, follow, follow, hsame n c hn]
    cases hc : G n c with
    | none => rfl
    | some m => exact ih (hG n c m hn hc)

/-- A new edge ends the walks along it. -/
theorem follow_new (hn : P n) (hG : ∀ n c m, P n → G n c = some m → P m) (hle : ∀ n c m, P n → G n c = some m → G' n c = some m)
    (hd : follow G n cs = some d) (hnew : G' d c = some i) : follow G' n (cs ++ [c]) = some i := by
  rw [follow_concat, follow_mono hn hG hle hd, Option.bind_some, hnew]

/-! ## Walks around a node -/

/-- No edge of the walk leaves `i`. -/
def Avoids (G : N → C → Option N) (n : N) (cs : List C) (i : N) : Prop := ∀ k, k < cs.length → follow G n (cs.take k) ≠ some i

theorem avoids_cons (h : G n c = some m) : Avoids G n (c :: cs) i ↔ n ≠ i ∧ Avoids G m cs i := by
  constructor
  · intro hall
    refine ⟨fun he => hall 0 (Nat.zero_lt_succ _) (congrArg some he), fun k hk => ?_⟩
    have hstep := hall (k + 1) (Nat.succ_lt_succ hk)
    rwa [List.take_succ_cons, follow, h, Option.bind_some] at hstep
  · rintro ⟨hne, hrest⟩ k hk
    cases k with
    | zero => exact fun he => hne (Option.some.inj he)
    | succ k =>
      rw [List.take_succ_cons, follow, h, Option.bind_some]
      exact hrest k (Nat.lt_of_succ_lt_succ hk)

theorem avoids_concat (h : follow G n cs = some m) : Avoids G n (cs ++ [c]) i ↔ Avoids G n cs i ∧ m ≠ i := by
  constructor
  · intro hall
    refine ⟨fun k hk => ?_, fun he => ?_⟩
    · have hstep := hall k (by rw [List.length_append]; omega)
      rwa [List.take_append_of_le_length (Nat.le_of_lt hk)] at hstep
    · refine hall cs.length (by simp) ?_
      rw [List.take_left, h, he]
  · rintro ⟨hrest, hne⟩ k hk
    rw [List.length_append, List.length_singleton] at hk
    rcases Nat.lt_succ_iff_lt_or_eq.mp hk with hlt | rfl
    · rw [List.take_append_of_le_length (Nat.le_of_lt hlt)]
      exact hrest k hlt
    · rw [List.take_left, h]
      exact fun he => hne (Option.some.inj he)

/-- Without the edges of `i`, the walks that avoid `i` are left. -/
theorem follow_cut (hn : P n) (hG : ∀ n c m, P n → G n c = some m → P m) (hcut : ∀ c, G' i c = none)
    (hsame : ∀ n c, P n → n ≠ i → G' n c = G n c) : follow G' n cs = some m ↔ follow G n cs = some m ∧ Avoids G n cs i := by
  induction cs generalizing n with
  | nil =>
    have hnone : Avoids G n [] i := fun k hk => absurd hk (Nat.not_lt_zero k)
    simp only [follow, hnone, and_true]
  | cons c cs ih =>
    by_cases hni : n = i
    · subst hni
      have hout : ¬ Avoids G n (c :: cs) n := fun h => h 0 (Nat.zero_lt_succ _) rfl
      simp [follow, hcut, hout]
    · rw [follow, follow, hsame n c hn hni]
      cases hc : G n c with
      | none => simp
      | some k => rw [Option.bind_some, Option.bind_some, ih (hG n c k hn hc), avoids_cons hc, and_iff_right hni]

end Yfs.Names
