import Mathlib

/-! # Lists that are overwritten, and lists in pages -/

namespace Yfs

namespace Splice

variable {α : Type} {s c c' : List α} {pos m q r k w : Nat} {a : α}

/-- `s` with `c` written over it from `pos` on. -/
def splice (s : List α) (pos : Nat) (c : List α) : List α := s.take pos ++ c ++ s.drop (pos + c.length)

theorem splice_nil : splice s pos [] = s := by simp [splice]

theorem splice_end : splice s s.length c = s ++ c := by simp [splice]

theorem length_splice (h : pos ≤ s.length) : (splice s pos c).length = max s.length (pos + c.length) := by
  simp only [splice, List.length_append, List.length_take, List.length_drop]
  omega

theorem getD_splice (h : pos ≤ s.length) :
    (splice s pos c).getD m a = if pos ≤ m ∧ m < pos + c.length then c.getD (m - pos) a else s.getD m a := by
  have htake : (s.take pos).length = pos := by
    rw [List.length_take]
    omega
  rw [splice, List.append_assoc]
  split
  case isTrue hin => rw [List.getD_append_right _ _ _ _ (by omega), List.getD_append _ _ _ _ (by omega), htake]
  case isFalse hout =>
    by_cases hm : m < pos
    · rw [List.getD_append _ _ _ _ (by omega), List.getD_eq_getElem?_getD, List.getElem?_take_of_lt hm, ← List.getD_eq_getElem?_getD]
    · rw [List.getD_append_right _ _ _ _ (by omega), List.getD_append_right _ _ _ _ (by omega), htake, List.getD_eq_getElem?_getD,
        List.getElem?_drop, ← List.getD_eq_getElem?_getD]
      congr 1
      omega

/-- One write after the other is one write. -/
theorem splice_splice (h : pos ≤ s.length) : splice (splice s pos c) (pos + c.length) c' = splice s pos (c ++ c') := by
  have htake : (s.take pos ++ c).length = pos + c.length := by
    rw [List.length_append, List.length_take]
    omega
  have hfirst : (splice s pos c).take (pos + c.length) = s.take pos ++ c := by
    rw [splice, ← htake, List.take_left]
  have hrest : (splice s pos c).drop (pos + c.length + c'.length) = s.drop (pos + (c ++ c').length) := by
    rw [splice, ← List.drop_drop, ← htake, List.drop_left, List.drop_drop, htake, List.length_append, Nat.add_assoc]
  rw [splice, hfirst, hrest, splice, List.append_assoc (s.take pos)]

/-- What has been written is there. -/
theorem take_drop_splice (h : pos ≤ s.length) : ((splice s pos c).drop pos).take c.length = c := by
  have htake : (s.take pos).length = pos := by
    rw [List.length_take]
    omega
  rw [splice, List.append_assoc, List.drop_append_of_le_length (by omega), List.drop_of_length_le (by omega), List.nil_append, List.take_left]

/-! ## Pages -/

variable {f : Nat → List α}

theorem length_pages (h : ∀ n, (f n).length = w) : ((List.range k).flatMap f).length = w * k := by
  induction k with
  | zero => rfl
  | succ k ih => rw [List.range_succ, List.flatMap_append, List.length_append, ih, List.flatMap_singleton, h, Nat.mul_succ]

/-- What is in page `q`. -/
theorem getD_pages (h : ∀ n, (f n).length = w) (hq : q < k) (hr : r < w) :
    ((List.range k).flatMap f).getD (w * q + r) a = (f q).getD r a := by
  induction k with
  | zero => omega
  | succ k ih =>
    have hlen := length_pages (k := k) h
    rw [List.range_succ, List.flatMap_append, List.flatMap_singleton]
    rcases Nat.lt_succ_iff_lt_or_eq.mp hq with hq | rfl
    · have hpage : w * (q + 1) ≤ w * k := Nat.mul_le_mul_left w hq
      rw [Nat.mul_succ] at hpage
      rw [List.getD_append _ _ _ _ (by omega)]
      exact ih hq
    · rw [List.getD_append_right _ _ _ _ (by omega), hlen, Nat.add_sub_cancel_left]

end Splice

end Yfs
