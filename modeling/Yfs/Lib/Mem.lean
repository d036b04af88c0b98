import Mathlib

/-! # Byte memories

A memory of `n` bytes with signed little-endian words, and copies between memories.
-/

namespace Yfs

/-- `n` bytes of memory. -/
def Mem (n : Nat) : Type := Fin n → UInt8

namespace Mem

variable {n m : Nat}

@[ext]
theorem ext {a b : Mem n} (h : ∀ k, a k = b k) : a = b := funext h

def zero : Mem n := fun _ => 0

/-- The byte at `k`. -/
def get (a : Mem n) (k : Nat) : UInt8 := if h : k < n then a ⟨k, h⟩ else 0

/-- The `len` bytes from `off` on. -/
def load (a : Mem n) (off len : Nat) : List UInt8 := (List.range len).map fun j => a.get (off + j)

/-- Write `bs` from `off` on. -/
def store (a : Mem n) (off : Nat) (bs : List UInt8) : Mem n :=
  fun k => if off ≤ k.val ∧ k.val < off + bs.length then bs.getD (k.val - off) 0 else a k

/-- The `m` bytes at `off`, as a memory of their own. -/
def sub (a : Mem n) (off m : Nat) : Mem m := fun j => a.get (off + j.val)

/-- Copy all of `b` to `off`. -/
def blit (a : Mem n) (off : Nat) (b : Mem m) : Mem n :=
  fun k => if off ≤ k.val ∧ k.val < off + m then b.get (k.val - off) else a k

/-! ## Bytes -/

theorem get_eq (a : Mem n) (k : Nat) (h : k < n) : a.get k = a ⟨k, h⟩ := dif_pos h

theorem ext_get {a b : Mem n} (h : ∀ k, k < n → a.get k = b.get k) : a = b := by
  refine Mem.ext fun k => ?_
  have := h k.val k.isLt
  rwa [get_eq _ _ k.isLt, get_eq _ _ k.isLt] at this

@[simp]
theorem get_zero (k : Nat) : (zero : Mem n).get k = 0 := by simp [get, zero]

theorem get_store (a : Mem n) (off k : Nat) (bs : List UInt8) (h : k < n) :
    (a.store off bs).get k = if off ≤ k ∧ k < off + bs.length then bs.getD (k - off) 0 else a.get k := by
  simp only [get_eq _ _ h, store]

theorem get_store_out (a : Mem n) (off k : Nat) (bs : List UInt8) (h : k < off ∨ off + bs.length ≤ k) :
    (a.store off bs).get k = a.get k := by
  by_cases hk : k < n
  · rw [get_store _ _ _ _ hk, if_neg (by omega)]
  · simp only [get, dif_neg hk]

theorem get_sub (a : Mem n) (off m k : Nat) (h : k < m) : (a.sub off m).get k = a.get (off + k) := by
  rw [get_eq _ _ h, sub]

theorem get_blit (a : Mem n) (off k : Nat) (b : Mem m) (h : k < n) :
    (a.blit off b).get k = if off ≤ k ∧ k < off + m then b.get (k - off) else a.get k := by
  simp only [get_eq _ _ h, blit]

/-! ## Copies -/

@[simp]
theorem sub_blit_same (a : Mem n) (off : Nat) (b : Mem m) (h : off + m ≤ n) :
    (a.blit off b).sub off m = b := by
  apply ext_get
  intro k hk
  rw [get_sub _ _ _ _ hk, get_blit _ _ _ _ (by omega), if_pos (by omega)]
  congr 1
  omega

theorem sub_blit_ne (a : Mem n) (off off' : Nat) (b : Mem m) (h : off' + m ≤ off ∨ off + m ≤ off')
    (hn : off' + m ≤ n) : (a.blit off b).sub off' m = a.sub off' m := by
  apply ext_get
  intro k hk
  rw [get_sub _ _ _ _ hk, get_sub _ _ _ _ hk, get_blit _ _ _ _ (by omega), if_neg (by omega)]

/-- Copying back what is there changes nothing. -/
theorem blit_sub (a : Mem n) (off : Nat) : a.blit off (a.sub off m) = a := by
  apply ext_get
  intro k hk
  rw [get_blit _ _ _ _ hk]
  split
  · rw [get_sub _ _ _ _ (by omega)]
    congr 1
    omega
  · rfl

theorem blit_blit (a : Mem n) (off : Nat) (b c : Mem m) : (a.blit off b).blit off c = a.blit off c := by
  apply ext_get
  intro k hk
  simp only [get_blit _ _ _ _ hk]
  split <;> rfl

/-! ## Runs of bytes -/

@[simp]
theorem length_load (a : Mem n) (off len : Nat) : (a.load off len).length = len := by simp [load]

theorem load_succ (a : Mem n) (off len : Nat) : a.load off (len + 1) = a.get off :: a.load (off + 1) len := by
  rw [load, List.range_succ_eq_map, List.map_cons, List.map_map, Nat.add_zero, load]
  congr 1
  exact List.map_congr_left fun j _ => congrArg a.get (by rw [Nat.succ_eq_add_one]; omega)

theorem load_store_same (a : Mem n) (off : Nat) (bs : List UInt8) (h : off + bs.length ≤ n) :
    (a.store off bs).load off bs.length = bs := by
  apply List.ext_getElem (by simp)
  intro j h1 h2
  simp only [load, List.getElem_map, List.getElem_range]
  rw [get_store _ _ _ _ (by omega), if_pos (by omega), Nat.add_sub_cancel_left]
  simp [List.getD_eq_getElem?_getD, List.getElem?_eq_getElem h2]

/-- Bytes over zeros. -/
theorem load_store_replicate (a : Mem n) (off m : Nat) (bs : List UInt8) (h : bs.length ≤ m) (hn : off + m ≤ n) :
    ((a.store off (List.replicate m 0)).store off bs).load off m = bs ++ List.replicate (m - bs.length) 0 := by
  apply List.ext_getElem (by simp; omega)
  intro j h1 h2
  rw [length_load] at h1
  simp only [load, List.getElem_map, List.getElem_range, List.getElem_append]
  rw [get_store _ _ _ _ (by omega), Nat.add_sub_cancel_left]
  split
  case isTrue hj => simp [List.getD_eq_getElem?_getD, show j < bs.length by omega]
  case isFalse hj =>
    rw [dif_neg (by omega), get_store _ _ _ _ (by omega), if_pos (by rw [List.length_replicate]; omega), Nat.add_sub_cancel_left]
    simp [List.getD_eq_getElem?_getD, h1]

theorem load_store_ne (a : Mem n) (off off' len : Nat) (bs : List UInt8)
    (h : off' + len ≤ off ∨ off + bs.length ≤ off') : (a.store off bs).load off' len = a.load off' len := by
  apply List.map_congr_left
  intro j hj
  rw [List.mem_range] at hj
  exact get_store_out _ _ _ _ (by omega)

theorem load_blit_ne (a : Mem n) (off off' len : Nat) (b : Mem m) (h : off' + len ≤ off) :
    (a.blit off b).load off' len = a.load off' len := by
  refine List.map_congr_left fun j hj => ?_
  rw [List.mem_range] at hj
  by_cases hn : off' + j < n
  · rw [get_blit _ _ _ _ hn, if_neg (by omega)]
  · rw [get, get, dif_neg hn, dif_neg hn]

theorem load_sub (a : Mem n) (off m off' len : Nat) (h : off' + len ≤ m) : (a.sub off m).load off' len = a.load (off + off') len := by
  refine List.map_congr_left fun j hj => ?_
  rw [List.mem_range] at hj
  rw [get_sub _ _ _ _ (by omega), Nat.add_assoc]

@[simp]
theorem sub_zero (off m : Nat) : (zero : Mem n).sub off m = zero := ext_get fun k hk => by
  rw [get_sub _ _ _ _ hk, get_zero, get_zero]

/-! ## Words -/

/-- The number that little-endian bytes spell. -/
def leNat : List UInt8 → Nat
  | [] => 0
  | b :: bs => b.toNat + 256 * leNat bs

/-- The `w` low bytes of `v`, little-endian. -/
def leBytes : Nat → Nat → List UInt8
  | 0, _ => []
  | w + 1, v => UInt8.ofNat v :: leBytes w (v / 256)

@[simp]
theorem length_leBytes (w v : Nat) : (leBytes w v).length = w := by
  induction w generalizing v with
  | zero => rfl
  | succ w ih => simp [leBytes, ih]

theorem leNat_leBytes (w v : Nat) : leNat (leBytes w v) = v % 256 ^ w := by
  induction w generalizing v with
  | zero => simp [leBytes, leNat, Nat.mod_one]
  | succ w ih =>
    have hv : (UInt8.ofNat v).toNat = v % 256 := by simp
    rw [leBytes, leNat, ih, hv, Nat.pow_succ, Nat.mul_comm (256 ^ w), Nat.mod_mul]

/-- A two's complement number of `w` bytes. -/
def wrap (w : Nat) (v : Int) : Int := (BitVec.ofInt (8 * w) v).toInt

theorem wrap_eq (w : Nat) (v : Int) : wrap w v = Int.bmod v (256 ^ w) := by
  rw [wrap, BitVec.toInt_ofInt, Nat.pow_mul]

/-- The signed word of `w` bytes at `off`. -/
def loadInt (w : Nat) (a : Mem n) (off : Nat) : Int := wrap w (leNat (a.load off w))

/-- Write `v` as a word of `w` bytes at `off`. -/
def storeInt (w : Nat) (a : Mem n) (off : Nat) (v : Int) : Mem n :=
  a.store off (leBytes w (v % 256 ^ w).toNat)

theorem loadInt_eq (w : Nat) (a : Mem n) (off : Nat) : loadInt w a off = wrap w (leNat (a.load off w)) := rfl

theorem wrap_short (v : Int) (h1 : -2 ^ 15 ≤ v) (h2 : v < 2 ^ 15) : wrap 2 v = v := by
  simp only [wrap_eq, Int.bmod]; omega

theorem wrap_int (v : Int) (h1 : -2 ^ 31 ≤ v) (h2 : v < 2 ^ 31) : wrap 4 v = v := by
  simp only [wrap_eq, Int.bmod]; omega

theorem wrap_short_range (v : Int) : -2 ^ 15 ≤ wrap 2 v ∧ wrap 2 v < 2 ^ 15 := by
  simp only [wrap_eq, Int.bmod]; omega

theorem wrap_int_range (v : Int) : -2 ^ 31 ≤ wrap 4 v ∧ wrap 4 v < 2 ^ 31 := by
  simp only [wrap_eq, Int.bmod]; omega

theorem loadInt_storeInt_same (w : Nat) (a : Mem n) (off : Nat) (v : Int) (h : off + w ≤ n) :
    loadInt w (storeInt w a off v) off = wrap w v := by
  have hcast : ((256 ^ w : Nat) : Int) = 256 ^ w := Int.natCast_pow 256 w
  have hpos : (0 : Int) < 256 ^ w := Int.pow_pos (by omega)
  have hload := load_store_same a off (leBytes w (v % 256 ^ w).toNat) (by simpa using h)
  rw [length_leBytes] at hload
  have hnn : 0 ≤ v % 256 ^ w := Int.emod_nonneg _ (by omega)
  have hlt : v % 256 ^ w < 256 ^ w := Int.emod_lt_of_pos _ hpos
  rw [loadInt, storeInt, hload, leNat_leBytes, wrap_eq, wrap_eq]
  have : (((v % 256 ^ w).toNat % 256 ^ w : Nat) : Int) = v % 256 ^ w := by
    rw [Int.natCast_emod, Int.toNat_of_nonneg hnn, hcast]
    exact Int.emod_eq_of_lt hnn hlt
  rw [this, ← hcast, Int.emod_bmod]

theorem leNat_lt (l : List UInt8) : leNat l < 256 ^ l.length := by
  induction l with
  | nil => simp [leNat]
  | cons b l ih =>
    have := b.toNat_lt
    rw [leNat, List.length_cons, Nat.pow_succ]
    omega

theorem leBytes_leNat (l : List UInt8) : leBytes l.length (leNat l) = l := by
  induction l with
  | nil => rfl
  | cons b l ih =>
    have hb := b.toNat_lt
    have hlow : UInt8.ofNat (b.toNat + 256 * leNat l) = b := by
      refine UInt8.toNat_inj.mp ?_
      rw [UInt8.toNat_ofNat']
      omega
    rw [List.length_cons, leBytes, leNat, hlow, show (b.toNat + 256 * leNat l) / 256 = leNat l by omega, ih]

theorem store_load (a : Mem n) (off len : Nat) : a.store off (a.load off len) = a := by
  refine ext_get fun k hk => ?_
  rw [get_store _ _ _ _ hk]
  split
  case isTrue h =>
    rw [length_load] at h
    rw [List.getD_eq_getElem?_getD, List.getElem?_eq_getElem (by rw [length_load]; omega), Option.getD_some]
    simp only [load, List.getElem_map, List.getElem_range]
    rw [show off + (k - off) = k by omega]
  case isFalse => rfl

/-- Storing back what is there changes nothing. -/
theorem storeInt_loadInt (w : Nat) (a : Mem n) (off : Nat) : storeInt w a off (loadInt w a off) = a := by
  have hcast : ((256 ^ w : Nat) : Int) = 256 ^ w := Int.natCast_pow 256 w
  have hlt := leNat_lt (a.load off w)
  have hback := leBytes_leNat (a.load off w)
  rw [length_load] at hlt hback
  rw [storeInt, loadInt, wrap_eq, ← hcast, Int.bmod_emod, ← Int.natCast_emod, Int.toNat_natCast, Nat.mod_eq_of_lt hlt, hback,
    store_load]

theorem loadInt_storeInt_ne (w w' : Nat) (a : Mem n) (off off' : Nat) (v : Int)
    (h : off' + w' ≤ off ∨ off + w ≤ off') : loadInt w' (storeInt w a off v) off' = loadInt w' a off' := by
  rw [loadInt, storeInt, load_store_ne _ _ _ _ _ (by simpa using h), ← loadInt]

theorem get_storeInt_out (w : Nat) (a : Mem n) (off k : Nat) (v : Int) (h : k < off ∨ off + w ≤ k) :
    (storeInt w a off v).get k = a.get k := by
  rw [storeInt, get_store_out _ _ _ _ (by simpa using h)]

/-- What is stored does not depend on what was there. -/
theorem get_storeInt_in (w : Nat) (a b : Mem n) (off k : Nat) {v : Int} (hk : k < n) (h : off ≤ k ∧ k < off + w) :
    (storeInt w a off v).get k = (storeInt w b off v).get k := by
  rw [storeInt, storeInt, get_store _ _ _ _ hk, get_store _ _ _ _ hk, length_leBytes, if_pos h, if_pos h]

theorem get_of_load {a b : Mem n} {off len k : Nat} (h : a.load off len = b.load off len) (hk : off ≤ k ∧ k < off + len) : a.get k = b.get k := by
  have hget := congrArg (fun l => l[k - off]?) h
  simpa [load, List.getElem?_map, List.getElem?_range, show k - off < len by omega, show off + (k - off) = k by omega] using hget

theorem get_of_loadInt {w : Nat} {a b : Mem n} {off k : Nat} (h : loadInt w a off = loadInt w b off) (hn : k < n) (hk : off ≤ k ∧ k < off + w) :
    a.get k = b.get k := by
  rw [← storeInt_loadInt w a off, ← storeInt_loadInt w b off, h]
  exact get_storeInt_in w a b off k hn hk

theorem load_storeInt_ne (w : Nat) (a : Mem n) (off off' len : Nat) (v : Int)
    (h : off' + len ≤ off ∨ off + w ≤ off') : (storeInt w a off v).load off' len = a.load off' len := by
  rw [storeInt, load_store_ne _ _ _ _ _ (by simpa using h)]

theorem loadInt_store_ne (w : Nat) (a : Mem n) (off off' : Nat) (bs : List UInt8)
    (h : off' + w ≤ off ∨ off + bs.length ≤ off') : loadInt w (a.store off bs) off' = loadInt w a off' := by
  rw [loadInt, load_store_ne _ _ _ _ _ h, ← loadInt]

theorem loadInt_blit_ne (w : Nat) (a : Mem n) (off off' : Nat) (b : Mem m) (h : off' + w ≤ off) :
    loadInt w (a.blit off b) off' = loadInt w a off' := by
  rw [loadInt, load_blit_ne _ _ _ _ _ h, ← loadInt]

theorem loadInt_sub (w : Nat) (a : Mem n) (off m off' : Nat) (h : off' + w ≤ m) :
    loadInt w (a.sub off m) off' = loadInt w a (off + off') := by
  rw [loadInt, load_sub _ _ _ _ _ h, ← loadInt]

theorem loadInt_zero (w off : Nat) : loadInt w (zero : Mem n) off = 0 := by
  have hz : ∀ l : Nat, leNat ((zero : Mem n).load off l) = 0 := by
    intro l
    rw [load]
    simp only [get_zero, List.map_const', List.length_range]
    induction l with
    | zero => rfl
    | succ l ih => simp [List.replicate_succ, leNat, ih]
  simp [loadInt, hz, wrap_eq]

/-! ## Addresses -/

/-- The address at `off`: an unsigned word of 8 bytes. -/
def loadAddr (a : Mem n) (off : Nat) : UInt64 := UInt64.ofNat (leNat (a.load off 8))

/-- Write `v` as a word of 8 bytes at `off`. -/
def storeAddr (a : Mem n) (off : Nat) (v : UInt64) : Mem n := a.store off (leBytes 8 v.toNat)

theorem loadAddr_storeAddr_same (a : Mem n) (off : Nat) (v : UInt64) (h : off + 8 ≤ n) : loadAddr (storeAddr a off v) off = v := by
  have hload := load_store_same a off (leBytes 8 v.toNat) (by simpa using h)
  rw [length_leBytes] at hload
  have hlt : v.toNat % 256 ^ 8 = v.toNat := Nat.mod_eq_of_lt v.toNat_lt
  rw [loadAddr, storeAddr, hload, leNat_leBytes, hlt, UInt64.ofNat_toNat]

theorem loadAddr_storeAddr_ne (a : Mem n) (off off' : Nat) (v : UInt64) (h : off' + 8 ≤ off ∨ off + 8 ≤ off') :
    loadAddr (storeAddr a off v) off' = loadAddr a off' := by
  rw [loadAddr, storeAddr, load_store_ne _ _ _ _ _ (by simpa using h), ← loadAddr]

theorem loadAddr_storeInt_ne (w : Nat) (a : Mem n) (off off' : Nat) (v : Int) (h : off' + 8 ≤ off ∨ off + w ≤ off') :
    loadAddr (storeInt w a off v) off' = loadAddr a off' := by
  rw [loadAddr, load_storeInt_ne _ _ _ _ _ _ h, ← loadAddr]

theorem loadInt_storeAddr_ne (w : Nat) (a : Mem n) (off off' : Nat) (v : UInt64) (h : off' + w ≤ off ∨ off + 8 ≤ off') :
    loadInt w (storeAddr a off v) off' = loadInt w a off' := by
  rw [storeAddr, loadInt_store_ne _ _ _ _ _ (by simpa using h)]

attribute [irreducible] loadInt storeInt wrap loadAddr storeAddr

end Mem

end Yfs
