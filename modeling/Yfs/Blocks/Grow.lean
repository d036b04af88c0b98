import Yfs.Blocks.Frame

/-! # Growing and truncating a file -/

namespace Yfs

open Ledger

variable {g : Geometry} {σ σ' : FS} {i j : Int} {n m : Nat}

/-- `i` has taken the next free block as its last one. -/
structure Appended (σ σ' : FS) (i : Int) : Prop where
  inode : ∀ j, j ≠ i → σ'.inode j = σ.inode j
  type : σ'.type i = σ.type i
  indirect : σ'.indirect i = σ.indirect i
  covers : ∀ m, σ'.covers i m ↔ m ≤ σ.blocks i
  old : ∀ m, σ.covers i m → σ'.pointer i m = σ.pointer i m
  new : σ'.pointer i (σ.blocks i) = σ.next
  block : ∀ b, b ≠ σ.next → (12 ≤ σ.blocks i → b ≠ σ.indirect i) → σ'.block b = σ.block b
  b_head : σ'.b_head = σ.b_head.tail
  i_head : σ'.i_head = σ.i_head

namespace Appended

theorem cases (h : Appended σ σ' i) (hc : σ'.covers i m) : σ.covers i m ∨ m = σ.blocks i := by
  rw [h.covers] at hc
  rw [View.covers_iff]
  omega

theorem free (h : Appended σ σ' i) (hw : WellFormed g σ) (b : Int) (hb : b ∈ σ'.b_head) :
    b ≠ 0 ∧ -2 ^ 31 ≤ b ∧ b < 2 ^ 31 := by
  rw [h.b_head] at hb
  exact hw.free b (List.mem_of_mem_tail hb)

variable (h : Appended σ σ' i) (hw : WellFormed g σ) (hg : σ.CanGrow g i)
include h hw hg

theorem same (hj : g.isInode j) (hne : j ≠ i) : σ.Same σ'.toView j := by
  refine hw.same hj (h.inode j hne) fun b hb o hk => hb (h.block b ?_ fun h12 => ?_)
  · rintro rfl
    exact hw.exclusive.apart _ _ hk (next_mem hg.free)
  · rintro rfl
    exact hne (congrArg Prod.fst ((hg.indirect h12).key _ hk))

theorem mapped (hi : g.isInode i) : σ'.Mapped g i := by
  have hnext := hw.free _ (next_mem hg.free)
  have hm := hw.mapped i hi
  refine ⟨fun m hc => ?_, fun m hc => ?_, fun m hc => ?_, fun hc => ?_⟩
  · have := hg.index
    have := (h.covers m).mp hc
    omega
  · rcases h.cases hc with hc | rfl
    · rw [h.old m hc]; exact hm.nonzero m hc
    · rw [h.new]; exact hnext.1
  · rcases h.cases hc with hc | rfl
    · rw [h.old m hc]; exact hm.data m hc
    · rw [h.new]; exact hg.data
  · rw [h.indirect]
    exact (hg.indirect ((h.covers 12).mp hc)).data

/-- What `i` holds now: what it held, the next free block, or its indirect block. -/
theorem holds (hi : g.isInode i) {o : Option Nat} {b : Int} (hk : σ'.ledger g (i, o) = some b) :
    σ.ledger g (i, o) = some b ∨ o = some (σ.blocks i) ∧ b = σ.next ∨
      o = none ∧ b = σ.indirect i ∧ 12 ≤ σ.blocks i := by
  cases o with
  | none =>
    have hc : σ'.covers i 12 := by
      by_contra hc
      simp only [View.ledger, hc, and_false, if_false, reduceCtorEq] at hk
    rw [View.ledger_indirect hi hc, h.indirect] at hk
    exact Or.inr (Or.inr ⟨rfl, (Option.some.inj hk).symm, (h.covers 12).mp hc⟩)
  | some m =>
    have hc : σ'.covers i m := by
      by_contra hc
      simp only [View.ledger, hc, and_false, if_false, reduceCtorEq] at hk
    rw [View.ledger_data (h.mapped hw hg hi) hi hc] at hk
    rcases h.cases hc with hold | rfl
    · rw [h.old m hold] at hk
      exact Or.inl ((View.ledger_data (hw.mapped i hi) hi hold).trans hk)
    · rw [h.new] at hk
      exact Or.inr (Or.inl ⟨rfl, (Option.some.inj hk).symm⟩)

theorem exclusive (hi : g.isInode i) : Exclusive (σ'.ledger g) σ'.b_head := by
  have hother : ∀ k : Int × Option Nat, k.1 ≠ i → σ'.ledger g k = σ.ledger g k :=
    fun k hk => ledger_of_same (fun j hj hne => h.same hw hg hj hne) hk
  have hnext := next_mem hg.free
  have hrest : σ.next ∉ σ'.b_head := by
    have := hw.exclusive.nodup
    rw [b_head_eq hg.free] at this
    rw [h.b_head]
    exact (List.nodup_cons.mp this).1
  have hsub : ∀ b, b ∉ σ.b_head → b ∉ σ'.b_head := by
    intro b hb hb'
    rw [h.b_head] at hb'
    exact hb (List.mem_of_mem_tail hb')
  refine hw.exclusive.extend (h.b_head ▸ List.tail_sublist _) ?_ ?_
  · rintro ⟨j, o⟩ b hk
    by_cases hj : j = i
    · subst hj
      rcases h.holds hw hg hi hk with hold | ⟨_, rfl⟩ | ⟨rfl, rfl, h12⟩
      · exact Or.inl hold
      · exact Or.inr ⟨hw.exclusive.loose_of_free hnext, hrest⟩
      · have hown := hg.indirect h12
        by_cases hc : σ.covers j 12
        · exact Or.inl (View.ledger_indirect hi hc)
        · refine Or.inr ⟨fun k hk' => ?_, hsub _ hown.free⟩
          rw [hown.key k hk'] at hk'
          simp only [View.ledger, hc, and_false, if_false, reduceCtorEq] at hk'
    · exact Or.inl ((hother (j, o) hj).symm.trans hk)
  · rintro ⟨j, o⟩ ⟨j', o'⟩ b hl hk hk'
    have hji : j = i := by
      by_contra hne
      exact hl _ ((hother (j, o) hne).symm.trans hk)
    have hji' : j' = i := by
      by_contra hne
      exact hl _ ((hother (j', o') hne).symm.trans hk')
    subst hji hji'
    rcases h.holds hw hg hi hk with hold | ⟨rfl, hb⟩ | ⟨rfl, hb, h12⟩
    · exact absurd hold (hl _)
    all_goals
      rcases h.holds hw hg hi hk' with hold | ⟨rfl, hb'⟩ | ⟨rfl, hb', h12'⟩
    · exact absurd hold (hl _)
    · rfl
    · exact absurd (hb'.symm.trans hb ▸ hnext) (hg.indirect h12').free
    · exact absurd hold (hl _)
    · exact absurd (hb.symm.trans hb' ▸ hnext) (hg.indirect h12).free
    · rfl

/-- The blocks that `i` had keep their bytes. -/
theorem data (hi : g.isInode i) (hc : σ.covers i m) : σ'.block (σ.pointer i m) = σ.block (σ.pointer i m) := by
  have hk := View.ledger_data (hw.mapped i hi) hi hc
  refine h.block _ (fun he => ?_) fun h12 he => ?_
  · rw [he] at hk
    exact hw.exclusive.apart _ _ hk (next_mem hg.free)
  · rw [he] at hk
    cases (hg.indirect h12).key _ hk

end Appended

/-- Allocating at the end, then growing the size into the new block. -/
theorem FS.alloc_appended {s : Int} (hw : WellFormed g σ) (hg : σ.CanGrow g i)
    (hinode : ∀ j, j ≠ i → σ'.inode j = σ.inode j)
    (hself : ∀ f, f ≠ .size → (σ'.inode i).get f = ((σ.alloc i (σ.blocks i)).inode i).get f) (hsize : σ'.size i = s)
    (hblock : ∀ b, b ≠ σ.next → σ'.block b = (σ.alloc i (σ.blocks i)).block b)
    (hb_head : σ'.b_head = σ.b_head.tail) (hi_head : σ'.i_head = σ.i_head) (hlo : σ.blocks i * 512 < s)
    (hhi : s ≤ (σ.blocks i + 1) * 512) :
    Appended σ σ' i := by
  have hn := hg.index
  have hind : σ'.indirect i = σ.indirect i := (hself .indirect (by simp)).trans FS.indirect_alloc
  have hptr : ∀ m, m ≤ σ.blocks i → σ'.pointer i m = (σ.alloc i (σ.blocks i)).pointer i m := by
    intro m hm
    unfold View.pointer
    split
    case isTrue => exact hself _ (by simp)
    case isFalse h12 =>
      have hne : σ.indirect i ≠ σ.next := fun he =>
        (hg.indirect (by omega)).free (he.symm ▸ next_mem hg.free)
      rw [hind, FS.indirect_alloc, hblock _ hne]
  refine ⟨hinode, ?_, hind, fun m => ?_, fun m hc => ?_, ?_, fun b hb h12 => ?_, hb_head, hi_head⟩
  · exact (hself .type (by simp)).trans (FS.alloc_get fun _ _ => by simp)
  · rw [View.covers, hsize, BLOCKSIZE]
    omega
  · have hm := View.covers_iff.mp hc
    rw [hptr m (by omega), FS.pointer_alloc_ne (by omega)]
  · rw [hptr _ (Nat.le_refl _), FS.pointer_alloc_self hn, hw.wrap_next]
  · rw [hblock b hb, FS.alloc_block_ne h12]

/-- `i` keeps its blocks; their bytes and the size within the last block may change. -/
structure Rewritten (σ σ' : FS) (i : Int) : Prop where
  inode : ∀ j, j ≠ i → σ'.inode j = σ.inode j
  type : σ'.type i = σ.type i
  indirect : σ'.indirect i = σ.indirect i
  covers : ∀ m, σ'.covers i m ↔ σ.covers i m
  pointer : ∀ m, σ.covers i m → σ'.pointer i m = σ.pointer i m
  block : ∀ b, (∀ m, σ.covers i m → b ≠ σ.pointer i m) → σ'.block b = σ.block b
  b_head : σ'.b_head = σ.b_head
  i_head : σ'.i_head = σ.i_head

namespace Rewritten

variable (h : Rewritten σ σ' i) (hw : WellFormed g σ)
include h hw

theorem same (hi : g.isInode i) (hj : g.isInode j) (hne : j ≠ i) : σ.Same σ'.toView j := by
  refine hw.same hj (h.inode j hne) fun b hb o hk => hb (h.block b fun m hc => ?_)
  rintro rfl
  exact hne (congrArg Prod.fst (hw.exclusive.inj _ _ _ hk (View.ledger_data (hw.mapped i hi) hi hc)))

theorem mapped (hi : g.isInode i) : σ'.Mapped g i := by
  have hm := hw.mapped i hi
  refine ⟨fun m hc => hm.index m ((h.covers m).mp hc), fun m hc => ?_, fun m hc => ?_, fun hc => ?_⟩
  · rw [h.pointer m ((h.covers m).mp hc)]; exact hm.nonzero m ((h.covers m).mp hc)
  · rw [h.pointer m ((h.covers m).mp hc)]; exact hm.data m ((h.covers m).mp hc)
  · rw [h.indirect]; exact hm.indirect ((h.covers 12).mp hc)

theorem ledger (hi : g.isInode i) (k : Int × Option Nat) : σ'.ledger g k = σ.ledger g k := by
  obtain ⟨j, o⟩ := k
  by_cases hj : j = i
  · subst hj
    cases o with
    | none => simp only [View.ledger, h.covers, h.indirect]
    | some m =>
      by_cases hc : σ.covers j m
      · rw [View.ledger_data (hw.mapped j hi) hi hc, View.ledger_data (h.mapped hw hi) hi ((h.covers m).mpr hc),
          h.pointer m hc]
      · simp only [View.ledger, h.covers, hc, and_false, if_false]
  · exact ledger_of_same (k := (j, o)) (fun j hj hne => h.same hw hi hj hne) hj

theorem wellFormed (hi : g.isInode i)
    (hdir : σ.isDir i → (0 ≤ σ'.size i ∧ σ'.size i % 32 = 0) ∧ ∀ k, k < σ'.slots i → g.isInode (σ'.slotInum i k)) :
    WellFormed g σ' := by
  refine hw.step i (fun j hj hne => h.same hw hi hj hne) ?_ (h.mapped hw) (h.b_head ▸ hw.free) (fun _ hd => hdir ?_)
    (h.i_head ▸ hw.inodes)
  · rw [h.b_head]
    exact hw.exclusive.congr (h.ledger hw hi)
  · rwa [View.isDir, h.type] at hd

end Rewritten

theorem Appended.wellFormed (h : Appended σ σ' i) (hw : WellFormed g σ) (hg : σ.CanGrow g i) (hi : g.isInode i)
    (hdir : σ.isDir i → (0 ≤ σ'.size i ∧ σ'.size i % 32 = 0) ∧ ∀ k, k < σ'.slots i → g.isInode (σ'.slotInum i k)) :
    WellFormed g σ' := by
  refine hw.step i (fun j hj hne => h.same hw hg hj hne) (h.exclusive hw hg hi) (h.mapped hw hg) (h.free hw)
    (fun _ hd => hdir ?_) (h.i_head ▸ hw.inodes)
  rwa [View.isDir, h.type] at hd

/-- `i` has no blocks any more; those of `freed` are free. -/
structure Emptied (σ σ' : FS) (i : Int) (freed : List Int) : Prop where
  inode : ∀ j, j ≠ i → σ'.inode j = σ.inode j
  size : σ'.size i = 0
  block : σ'.block = σ.block
  b_head : σ'.b_head = freed ++ σ.b_head
  nodup : freed.Nodup
  held : ∀ b ∈ freed, ∃ m, σ.covers i m ∧ σ.pointer i m = b

namespace Emptied

variable {freed : List Int} (h : Emptied σ σ' i freed)
include h

theorem not_covers (m : Nat) : ¬ σ'.covers i m := by
  rw [View.not_covers, h.size, BLOCKSIZE]
  omega

theorem ledger_none (o : Option Nat) : σ'.ledger g (i, o) = none := by
  cases o <;> simp only [View.ledger, h.not_covers, and_false, if_false]

theorem same (hw : WellFormed g σ) (hj : g.isInode j) (hne : j ≠ i) : σ.Same σ'.toView j :=
  hw.same hj (h.inode j hne) fun b hb => absurd (congrFun h.block b) hb

theorem wellFormed (hw : WellFormed g σ) (hi : g.isInode i) (hinodes : ∀ j ∈ σ'.i_head, g.isInode j) :
    WellFormed g σ' := by
  have hm := hw.mapped i hi
  refine hw.step i (fun j hj hne => h.same hw hj hne) ?_ (fun _ => ?_) ?_ (fun _ _ => ⟨?_, fun k hk => ?_⟩) hinodes
  · rw [h.b_head]
    refine hw.exclusive.release h.nodup (fun b hb => ?_) fun k b hk => ?_
    · obtain ⟨m, hc, rfl⟩ := h.held b hb
      exact ⟨(i, some m), View.ledger_data hm hi hc, h.ledger_none _⟩
    · by_cases hk1 : k.1 = i
      · obtain ⟨j, o⟩ := k
        cases hk1
        rw [h.ledger_none o] at hk
        cases hk
      · exact (ledger_of_same (fun j hj hne => h.same hw hj hne) hk1).symm.trans hk
  · exact ⟨fun m hc => absurd hc (h.not_covers m), fun m hc => absurd hc (h.not_covers m),
      fun m hc => absurd hc (h.not_covers m), fun hc => absurd hc (h.not_covers 12)⟩
  · intro b hb
    rw [h.b_head, List.mem_append] at hb
    rcases hb with hb | hb
    · obtain ⟨m, hc, rfl⟩ := h.held b hb
      exact ⟨hm.nonzero m hc, View.pointer_range⟩
    · exact hw.free b hb
  · rw [h.size]; omega
  · rw [View.slots, h.size] at hk
    simp at hk

end Emptied

theorem truncate_size : (σ.truncate i).size i = 0 := by
  rw [FS.truncate, FS.setInode_view, View.size_setInode_self]
  exact Inode.size_set_size _ 0 (by decide) (by decide)

theorem truncate_emptied (hw : WellFormed g σ) (hi : g.isInode i) :
    Emptied σ (σ.truncate i) i (σ.fileBlocks i).reverse := by
  have hm := hw.mapped i hi
  refine ⟨fun j hj => View.setInode_inode_ne hj, ?_, rfl, rfl, ?_, fun b hb => ?_⟩
  · exact truncate_size
  · rw [List.nodup_reverse, View.fileBlocks]
    refine List.Nodup.map_on ?_ List.nodup_range
    intro m hmem n hn he
    rw [List.mem_range, ← View.covers_iff] at hmem hn
    have hk := View.ledger_data hm hi hmem
    rw [he] at hk
    exact Option.some.inj (congrArg Prod.snd (hw.exclusive.inj _ _ _ hk (View.ledger_data hm hi hn)))
  · rw [List.mem_reverse, View.fileBlocks, List.mem_map] at hb
    obtain ⟨m, hmem, rfl⟩ := hb
    exact ⟨m, View.covers_iff.mpr (List.mem_range.mp hmem), rfl⟩

end Yfs
