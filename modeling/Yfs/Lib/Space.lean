import Mathlib

/-! # Address spaces

Bytes with permissions, the copies that a kernel makes for another process, and strings that end with a zero.
-/

namespace Yfs

/-- The memory of a process: its bytes, and which of them may be read and written. -/
structure Space where
  byte : Nat → UInt8
  readable : Nat → Bool
  writable : Nat → Bool

namespace Space

variable {s : Space} {a n : Nat} {bs p : List UInt8}

/-- Whether the `len` bytes at `a` have permission `ok`. -/
def allows (ok : Nat → Bool) (a len : Nat) : Bool := (List.range len).all fun j => ok (a + j)

/-- The `len` bytes at `a`, if they may be read. -/
def load (s : Space) (a len : Nat) : Option (List UInt8) :=
  if allows s.readable a len then some ((List.range len).map fun j => s.byte (a + j)) else none

/-- Write `bs` from `a` on. -/
def store (s : Space) (a : Nat) (bs : List UInt8) : Space :=
  { s with byte := fun k => if a ≤ k ∧ k < a + bs.length then bs.getD (k - a) 0 else s.byte k }

/-- The bytes at `a` before a zero, at most `n` of them. `none`: one of them may not be read. -/
def string (s : Space) (a : Nat) : Nat → Option (List UInt8)
  | 0 => some []
  | n + 1 =>
    if s.readable a = false then none
    else if s.byte a = 0 then some []
    else (s.string (a + 1) n).map (s.byte a :: ·)

theorem store_nil : s.store a [] = s := by
  have hbyte : (fun k => if a ≤ k ∧ k < a + ([] : List UInt8).length then ([] : List UInt8).getD (k - a) 0 else s.byte k) = s.byte :=
    funext fun k => if_neg (by rw [List.length_nil]; omega)
  rw [store, hbyte]

theorem add_succ_eq (a : Nat) : (fun j => a + (j + 1)) = fun j => a + 1 + j := funext fun j => by omega

theorem allows_succ {ok : Nat → Bool} : allows ok a (n + 1) = (ok a && allows ok (a + 1) n) := by
  rw [allows, List.range_succ_eq_map, List.all_cons, List.all_map, Nat.add_zero, allows]
  exact congrArg (fun f : Nat → Nat => ok a && (List.range n).all fun j => ok (f j)) (add_succ_eq a)

theorem load_succ : s.load a (n + 1) = if s.readable a then (s.load (a + 1) n).map (s.byte a :: ·) else none := by
  have hbytes : (List.range (n + 1)).map (fun j => s.byte (a + j)) = s.byte a :: (List.range n).map fun j => s.byte (a + 1 + j) := by
    rw [List.range_succ_eq_map, List.map_cons, List.map_map, Nat.add_zero]
    exact congrArg (fun f : Nat → Nat => s.byte a :: (List.range n).map fun j => s.byte (f j)) (add_succ_eq a)
  rw [load, load, allows_succ, hbytes]
  cases s.readable a with
  | false => rfl
  | true =>
    rw [Bool.true_and, if_pos rfl]
    split <;> rfl

/-! ## Strings -/

theorem string_length (h : s.string a n = some p) : p.length ≤ n := by
  induction n generalizing a p with
  | zero =>
    obtain rfl := Option.some.inj h
    exact Nat.le_refl 0
  | succ n ih =>
    rw [string] at h
    split at h
    · cases h
    split at h
    · obtain rfl := Option.some.inj h
      exact Nat.zero_le _
    · obtain ⟨q, hq, rfl⟩ := Option.map_eq_some_iff.mp h
      exact Nat.succ_le_succ (ih hq)

theorem string_zero (h : s.string a n = some p) : 0 ∉ p := by
  induction n generalizing a p with
  | zero =>
    obtain rfl := Option.some.inj h
    exact List.not_mem_nil
  | succ n ih =>
    rw [string] at h
    split at h
    · cases h
    split at h
    · obtain rfl := Option.some.inj h
      exact List.not_mem_nil
    case isFalse hne =>
      obtain ⟨q, hq, rfl⟩ := Option.map_eq_some_iff.mp h
      exact List.not_mem_cons_of_ne_of_not_mem (Ne.symm hne) (ih hq)

/-- A string that has ended can be copied with its zero. -/
theorem load_string (h : s.string a n = some p) (hlt : p.length < n) : s.load a (p.length + 1) = some (p ++ [0]) := by
  induction n generalizing a p with
  | zero => exact absurd hlt (Nat.not_lt_zero _)
  | succ n ih =>
    rw [string] at h
    split at h
    · cases h
    case isFalse hread =>
      rw [Bool.not_eq_false] at hread
      split at h
      case isTrue hzero =>
        obtain rfl := Option.some.inj h
        simp [load, allows, hread, hzero]
      case isFalse =>
        obtain ⟨q, hq, rfl⟩ := Option.map_eq_some_iff.mp h
        rw [List.length_cons, load_succ, if_pos hread, ih hq (Nat.lt_of_succ_lt_succ hlt), Option.map_some, List.cons_append]

end Space

/-- What comes before the first zero. -/
theorem takeWhile_zero {p : List UInt8} (h : 0 ∉ p) : (p ++ [0]).takeWhile (· ≠ 0) = p := by
  rw [List.takeWhile_append_of_pos fun b hb => by simpa using fun hz : b = 0 => h (hz ▸ hb)]
  simp

end Yfs
