import Mathlib

/-! # Least recently used

A cache of `cap` keys that drops the one asked for longest ago holds the last `cap` different keys.
-/

namespace Yfs.Recent

variable {K : Type} [DecidableEq K] {cap n : Nat} {k : K} {ks xs ys : List K}

/-- What a request does to the cached keys, oldest first. -/
def request (cap : Nat) (l : List K) (k : K) : List K :=
  if k ∈ l then l.erase k ++ [k] else (if l.length = cap then l.tail else l) ++ [k]

/-- The last `cap` different keys, in the order in which they were last asked for. -/
def recent (cap : Nat) (ks : List K) : List K := ks.dedup.rtake cap

theorem dedup_concat : (ks ++ [k]).dedup = ks.dedup.erase k ++ [k] := by
  induction ks with
  | nil => rfl
  | cons a ks ih =>
    rw [List.cons_append]
    by_cases ha : a = k
    · subst ha
      rw [List.dedup_cons_of_mem (by simp), ih]
      by_cases hm : a ∈ ks
      · rw [List.dedup_cons_of_mem hm]
      · rw [List.dedup_cons_of_notMem hm, List.erase_cons_head, List.erase_of_not_mem (by simpa using hm)]
    · by_cases hm : a ∈ ks
      · rw [List.dedup_cons_of_mem (by simp [hm]), List.dedup_cons_of_mem hm, ih]
      · rw [List.dedup_cons_of_notMem (by simp [hm, ha]), List.dedup_cons_of_notMem hm, ih, List.erase_cons_tail (by simpa using ha),
          List.cons_append]

omit [DecidableEq K] in
theorem rtake_append_length : (xs ++ ys).rtake ys.length = ys := by simp [List.rtake]

omit [DecidableEq K] in
theorem rtake_append_le (h : n ≤ ys.length) : (xs ++ ys).rtake n = ys.rtake n := by
  rw [List.rtake, List.rtake, List.length_append, List.drop_append, List.drop_eq_nil_of_le (by omega), List.nil_append]
  congr 1
  omega

omit [DecidableEq K] in
theorem rtake_all (h : xs.length ≤ n) : xs.rtake n = xs := by rw [List.rtake, Nat.sub_eq_zero_of_le h, List.drop_zero]

/-- All keys are recent, or as many as fit, behind older ones. -/
theorem recent_split (cap : Nat) (ks : List K) : (∃ old, ks.dedup = old ++ recent cap ks ∧ (recent cap ks).length = cap) ∨
    ks.dedup = recent cap ks ∧ (recent cap ks).length < cap := by
  by_cases h : cap ≤ ks.dedup.length
  · refine .inl ⟨_, (List.take_append_drop (ks.dedup.length - cap) ks.dedup).symm, ?_⟩
    rw [recent, List.rtake, List.length_drop]
    omega
  · have hall : recent cap ks = ks.dedup := rtake_all (by omega)
    refine .inr ⟨hall.symm, ?_⟩
    rw [hall]
    omega

theorem recent_length : (recent cap ks).length ≤ cap := by
  rcases recent_split cap ks with ⟨_, _, h⟩ | ⟨_, h⟩ <;> omega

theorem recent_nodup : (recent cap ks).Nodup := (List.nodup_dedup ks).sublist (List.drop_sublist _ _)

theorem recent_nil : recent cap ([] : List K) = [] := by simp [recent]

/-- The last keys are cached. -/
theorem request_recent (hcap : 0 < cap) : request cap (recent cap ks) k = recent cap (ks ++ [k]) := by
  obtain ⟨n, rfl⟩ := Nat.exists_eq_succ_of_ne_zero (Nat.ne_of_gt hcap)
  have hlast : recent (n + 1) (ks ++ [k]) = (ks.dedup.erase k).rtake n ++ [k] := by
    rw [recent, dedup_concat, List.rtake_concat_succ]
  have hnd : ks.dedup.Nodup := List.nodup_dedup ks
  rw [hlast, request]
  rcases recent_split (n + 1) ks with ⟨old, hsplit, hlen⟩ | ⟨hall, hlen⟩
  · rw [hsplit] at hnd ⊢
    generalize recent (n + 1) ks = l at hlen hnd ⊢
    by_cases hk : k ∈ l
    · have hold : k ∉ old := fun hm => (List.nodup_append.mp hnd).2.2 k hm k hk rfl
      have hshort : (l.erase k).length = n := by rw [List.length_erase_of_mem hk, hlen, Nat.add_sub_cancel]
      rw [if_pos hk, List.erase_append_right _ hold, ← hshort, rtake_append_length]
    · rw [if_neg hk, if_pos hlen, ← List.drop_one]
      have hkeep : (old ++ l).erase k = old.erase k ++ l := by
        by_cases hm : k ∈ old
        · exact List.erase_append_left _ hm
        · rw [List.erase_of_not_mem hm, List.erase_of_not_mem (by simp [hm, hk])]
      rw [hkeep, rtake_append_le (by omega), List.rtake, hlen, Nat.add_sub_cancel_left]
  · rw [hall]
    generalize recent (n + 1) ks = l at hlen ⊢
    by_cases hk : k ∈ l
    · have hshort : (l.erase k).length ≤ n := by rw [List.length_erase_of_mem hk]; omega
      rw [if_pos hk, rtake_all hshort]
    · rw [if_neg hk, if_neg (by omega), List.erase_of_not_mem hk, rtake_all (by omega)]

theorem requests_recent (hcap : 0 < cap) : xs.foldl (request cap) (recent cap ks) = recent cap (ks ++ xs) := by
  induction xs generalizing ks with
  | nil => rw [List.foldl_nil, List.append_nil]
  | cons x xs ih => rw [List.foldl_cons, request_recent hcap, ih, List.append_assoc, List.singleton_append]

end Yfs.Recent
