import Yfs.Dirs.Proofs

/-! # What a step leaves alone -/

namespace Yfs

open Ledger

namespace View

/-- File `i` is in `w` as in `v`: its type, its size, its pointers and the bytes of its blocks. -/
structure Same (v w : View) (i : Int) : Prop where
  type : w.type i = v.type i
  size : w.size i = v.size i
  indirect : w.indirect i = v.indirect i
  pointer : ∀ n, v.covers i n → w.pointer i n = v.pointer i n
  data : ∀ n, v.covers i n → w.block (v.pointer i n) = v.block (v.pointer i n)

variable {v w u : View} {g : Geometry} {i : Int} {n k : Nat} {path : CStr}

namespace Same

theorem refl (v : View) (i : Int) : Same v v i := ⟨rfl, rfl, rfl, fun _ _ => rfl, fun _ _ => rfl⟩

theorem isDir (h : Same v w i) : w.isDir i ↔ v.isDir i := by rw [View.isDir, View.isDir, h.type]

theorem covers (h : Same v w i) : w.covers i n ↔ v.covers i n := covers_congr h.size

theorem blocks (h : Same v w i) : w.blocks i = v.blocks i := by rw [View.blocks, View.blocks, h.size]

theorem slots (h : Same v w i) : w.slots i = v.slots i := by rw [View.slots, View.slots, h.size]

theorem trans (h : Same v w i) (h' : Same w u i) : Same v u i := by
  refine ⟨h'.type.trans h.type, h'.size.trans h.size, h'.indirect.trans h.indirect, fun n hc => ?_, fun n hc => ?_⟩
  · rw [h'.pointer n (h.covers.mpr hc), h.pointer n hc]
  · rw [← h.data n hc, ← h.pointer n hc]
    exact h'.data n (h.covers.mpr hc)

theorem nthBlock (h : Same v w i) : w.nthBlock i n = v.nthBlock i n := by
  by_cases hc : v.covers i n
  · simp only [View.nthBlock, h.covers, h.pointer n hc]
  · rw [nthBlock_of_not_covers hc, nthBlock_of_not_covers (mt h.covers.mp hc)]

theorem ledger (h : Same v w i) (o : Option Nat) : w.ledger g (i, o) = v.ledger g (i, o) := by
  cases o with
  | none => simp only [View.ledger, h.covers, h.indirect]
  | some n => simp only [View.ledger, h.covers, h.nthBlock]

theorem mapped (h : Same v w i) (hm : v.Mapped g i) : w.Mapped g i := by
  refine ⟨fun n hc => hm.index n (h.covers.mp hc), fun n hc => ?_, fun n hc => ?_, fun hc => ?_⟩
  · rw [h.pointer n (h.covers.mp hc)]; exact hm.nonzero n (h.covers.mp hc)
  · rw [h.pointer n (h.covers.mp hc)]; exact hm.data n (h.covers.mp hc)
  · rw [h.indirect]; exact hm.indirect (h.covers.mp hc)

theorem slotBlock (h : Same v w i) (hk : k < v.slots i) : w.slotBlock i k = v.slotBlock i k :=
  h.pointer _ (covers_of_slot hk)

theorem slotInum (h : Same v w i) (hk : k < v.slots i) : w.slotInum i k = v.slotInum i k := by
  rw [View.slotInum, View.slotInum, h.slotBlock hk, View.slotBlock, h.data _ (covers_of_slot hk)]

theorem slotName (h : Same v w i) (hk : k < v.slots i) : w.slotName i k = v.slotName i k := by
  rw [View.slotName, View.slotName, h.slotBlock hk, View.slotBlock, h.data _ (covers_of_slot hk)]

end Same

end View

/-- A view that differs from `v` in table blocks only shows `i` the same. -/
theorem View.Mapped.same {g : Geometry} {v w : View} {i : Int} (hm : v.Mapped g i) (hinode : w.inode i = v.inode i)
    (hblock : ∀ b, ¬ g.isTable b → w.block b = v.block b) : v.Same w i :=
  ⟨by rw [View.type, hinode], by rw [View.size, hinode], by rw [View.indirect, hinode],
    fun _ hc => View.pointer_congr hinode fun h12 => hblock _ (hm.indirect (hc.lt h12)),
    fun n hc => hblock _ (hm.data n hc)⟩

/-- A step that leaves `i`, and changes only blocks that are not `i`'s, shows `i` the same. -/
theorem WellFormed.same {g : Geometry} {σ : FS} {w : View} {i : Int} (hw : WellFormed g σ) (hi : g.isInode i)
    (hinode : w.inode i = σ.inode i)
    (hblock : ∀ b, w.block b ≠ σ.block b → ∀ o, σ.ledger g (i, o) ≠ some b) : σ.Same w i := by
  refine ⟨by rw [View.type, hinode], by rw [View.size, hinode], by rw [View.indirect, hinode], fun n hc => ?_,
    fun n hc => ?_⟩
  · refine View.pointer_congr hinode fun h12 => ?_
    by_contra h
    exact hblock _ h none (View.ledger_indirect hi (hc.lt h12))
  · by_contra h
    exact hblock _ h (some n) (View.ledger_data (hw.mapped i hi) hi hc)

theorem ledger_of_same {g : Geometry} {v w : View} {i : Int} {k : Int × Option Nat}
    (hsame : ∀ j, g.isInode j → j ≠ i → v.Same w j) (hk : k.1 ≠ i) : w.ledger g k = v.ledger g k := by
  obtain ⟨j, o⟩ := k
  by_cases hj : g.isInode j
  · exact (hsame j hj hk).ledger o
  · cases o <;> simp only [View.ledger, hj, false_and, if_false]

/-- A step that shows all inodes but `i` the same keeps the state well formed if it does right by `i`. -/
theorem WellFormed.step {g : Geometry} {σ σ' : FS} (hw : WellFormed g σ) (i : Int)
    (hsame : ∀ j, g.isInode j → j ≠ i → σ.Same σ'.toView j) (hex : Exclusive (σ'.ledger g) σ'.b_head)
    (hmapped : g.isInode i → σ'.Mapped g i)
    (hfree : ∀ b ∈ σ'.b_head, b ≠ 0 ∧ -2 ^ 31 ≤ b ∧ b < 2 ^ 31)
    (hdir : g.isInode i → σ'.isDir i → (0 ≤ σ'.size i ∧ σ'.size i % 32 = 0) ∧
      ∀ k, k < σ'.slots i → g.isInode (σ'.slotInum i k))
    (hinodes : ∀ j ∈ σ'.i_head, g.isInode j) : WellFormed g σ' := by
  refine ⟨hex, fun j hj => ?_, hfree, fun d hd hdd => ?_, fun d k hd hdd hk => ?_, hinodes⟩
  · by_cases hji : j = i
    · subst hji; exact hmapped hj
    · exact (hsame j hj hji).mapped (hw.mapped j hj)
  · by_cases hdi : d = i
    · subst hdi; exact (hdir hd hdd).1
    · have hs := hsame d hd hdi
      rw [hs.size]
      exact hw.sizes d hd (hs.isDir.mp hdd)
  · by_cases hdi : d = i
    · subst hdi; exact (hdir hd hdd).2 k hk
    · have hs := hsame d hd hdi
      rw [hs.slots] at hk
      rw [hs.slotInum hk]
      exact hw.entries d k hd (hs.isDir.mp hdd) hk

/-- A step that shows every inode the same. -/
theorem WellFormed.keep {g : Geometry} {σ σ' : FS} (hw : WellFormed g σ)
    (hsame : ∀ j, g.isInode j → σ.Same σ'.toView j) (hfree : σ'.b_head.Sublist σ.b_head)
    (hinodes : ∀ j ∈ σ'.i_head, g.isInode j) : WellFormed g σ' := by
  have hledger : ∀ k, σ'.ledger g k = σ.ledger g k :=
    fun k => ledger_of_same (i := k.1 + 1) (fun j hj _ => hsame j hj) (by omega)
  refine ⟨?_, fun j hj => (hsame j hj).mapped (hw.mapped j hj), fun b hb => hw.free b (hfree.subset hb),
    fun d hd hdd => ?_, fun d k hd hdd hk => ?_, hinodes⟩
  · exact hw.exclusive.shrink hfree fun k b hk => (hledger k).symm.trans hk
  · rw [(hsame d hd).size]
    exact hw.sizes d hd ((hsame d hd).isDir.mp hdd)
  · rw [(hsame d hd).slots] at hk
    rw [(hsame d hd).slotInum hk]
    exact hw.entries d k hd ((hsame d hd).isDir.mp hdd) hk

end Yfs
