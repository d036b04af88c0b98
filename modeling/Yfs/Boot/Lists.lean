import Yfs.Boot.Format

/-! # Which free lists boot rebuilds exactly -/

namespace Yfs

variable {d : Disk} {num_inodes i b : Int} {n : Nat}

theorem Image.boot (h : Image d num_inodes) {P : Server → Prop} :
    (∃ sv, boot d = some sv ∧ P sv) ↔ BootOk d num_inodes ∧ ∀ sv, Booted h.geometry d num_inodes sv → boot d = some sv → P sv := by
  obtain ⟨hok, hundef⟩ := boot_spec h
  constructor
  · rintro ⟨sv, hsv, hp⟩
    by_cases hb : BootOk d num_inodes
    · refine ⟨hb, fun sv' _ hsv' => ?_⟩
      obtain rfl := Option.some.inj (hsv.symm.trans hsv')
      exact hp
    · rw [hundef hb] at hsv
      cases hsv
  · rintro ⟨hb, hp⟩
    obtain ⟨sv, hsv, hbooted⟩ := hok hb
    exact ⟨sv, hsv, hp sv hbooted hsv⟩

/-! ## Free inodes -/

/-- Boot succeeds, and `i_head` holds the free inodes of the disk, each once. -/
def FreeInodesExact (d : Disk) (num_inodes : Int) : Prop :=
  ∃ sv, boot d = some sv ∧ sv.i_head.Nodup ∧
    ∀ i, i ∈ sv.i_head ↔ (1 ≤ i ∧ i ≤ num_inodes) ∧ d.view.isFree i = true

/-- The scan ends right after the last inode, or misses only one in use. -/
def ScanFits (d : Disk) (num_inodes : Int) : Prop :=
  num_inodes % 8 = 7 ∨ num_inodes % 8 = 0 ∧ d.view.isFree num_inodes = false ∨
    num_inodes = 1 ∧ d.view.isFree 1 = false

theorem Image.isFree_padding (h : Image d num_inodes) (hi : num_inodes < i) (ht : i < 8 * tableBlocks num_inodes) :
    d.view.isFree i = true := by
  rw [View.isFree, View.type, h.padding i hi ht]
  simp [INODE_FREE]

theorem Image.scanFits_iff (h : Image d num_inodes) :
    (∀ i, i ∈ scannedInodes num_inodes ∧ d.view.isFree i = true ↔
      (1 ≤ i ∧ i ≤ num_inodes) ∧ d.view.isFree i = true) ↔ ScanFits d num_inodes := by
  have hpos := h.pos
  have ht := tableBlocks_eq num_inodes
  have hpad : ∀ i, num_inodes < i → i < 8 * tableBlocks num_inodes → d.view.isFree i = true := fun i => h.isFree_padding
  simp only [mem_scannedInodes]
  unfold scanEnd ScanFits
  constructor
  · intro hiff
    by_cases h1 : num_inodes ≤ 1
    · obtain rfl : num_inodes = 1 := by omega
      refine .inr (.inr ⟨rfl, Bool.eq_false_iff.mpr fun hf => ?_⟩)
      have := ((hiff 1).mpr ⟨by omega, hf⟩).1
      rw [if_pos h1] at this
      omega
    · simp only [if_neg h1] at hiff
      by_cases h0 : num_inodes % 8 = 0
      · refine .inr (.inl ⟨h0, Bool.eq_false_iff.mpr fun hf => ?_⟩)
        have := ((hiff num_inodes).mpr ⟨by omega, hf⟩).1
        omega
      · refine .inl (by_contra fun h7 => ?_)
        have := ((hiff (num_inodes + 1)).mp ⟨by omega, hpad _ (by omega) (by omega)⟩).1
        omega
  · rintro (h7 | ⟨h0, hf⟩ | ⟨rfl, hf⟩) i
    · rw [if_neg (by omega)]
      exact and_congr_left' (by omega)
    · rw [if_neg (by omega)]
      by_cases hi : i = num_inodes
      · subst hi
        simp [hf]
      · exact and_congr_left' (by omega)
    · rw [if_pos (by omega)]
      by_cases hi : i = 1
      · subst hi
        simp [hf]
      · exact and_congr_left' (by omega)

theorem Image.scanned_of_exact (h : Image d num_inodes) (hex : FreeInodesExact d num_inodes) (i : Int) :
    i ∈ scannedInodes num_inodes ∧ d.view.isFree i = true ↔ (1 ≤ i ∧ i ≤ num_inodes) ∧ d.view.isFree i = true := by
  obtain ⟨hok, hall⟩ := h.boot.mp hex
  obtain ⟨sv, hsv, hb⟩ := (boot_spec h).1 hok
  exact hb.mem_i_head.symm.trans ((hall sv hb hsv).2 i)

/-- **The free inodes after boot.** `i_head` is exact when every inode can be scanned and the table is full, or ends
with an inode in use that starts a block, or has one inode and that is in use. -/
theorem free_inodes_exact (h : Image d num_inodes) :
    FreeInodesExact d num_inodes ↔ BootOk d num_inodes ∧ ScanFits d num_inodes := by
  rw [← h.scanFits_iff]
  refine ⟨fun hex => ⟨(h.boot.mp hex).1, h.scanned_of_exact hex⟩, fun ⟨hok, hiff⟩ => h.boot.mpr ⟨hok, fun sv hb _ => ?_⟩⟩
  exact ⟨hb.nodup_i_head, fun i => hb.mem_i_head.trans (hiff i)⟩

/-- A fresh disk whose table is full. -/
theorem free_inodes_exact_fifteen : FreeInodesExact (mkyfs 100 15 fun _ => false) 15 :=
  (free_inodes_exact (mkyfs_image (by decide) (by decide) (by decide) (by decide))).mpr
    ⟨mkyfs_bootOk (by decide) (by decide) (by decide), .inl (by decide)⟩

/-- With eight inodes the scan stops before the last one. -/
theorem eight_inodes_inexact :
    Image (mkyfs 100 8 fun _ => false) 8 ∧ ¬ FreeInodesExact (mkyfs 100 8 fun _ => false) 8 := by
  have h : Image (mkyfs 100 8 fun _ => false) 8 := mkyfs_image (by decide) (by decide) (by decide) (by decide)
  refine ⟨h, fun hex => ?_⟩
  have hfits := h.scanFits_iff.mp (h.scanned_of_exact hex)
  have hfree : (mkyfs 100 8 fun _ => false).view.isFree 8 = true := (mkyfs_isFree (by decide) (by decide)).mpr (by decide)
  rcases hfits with h7 | ⟨_, hf⟩ | ⟨h1, _⟩
  · exact absurd h7 (by decide)
  · rw [hfree] at hf
    cases hf
  · exact absurd h1 (by decide)

/-! ## Free blocks -/

namespace View

variable (v : View) (num_inodes : Int)

/-- `b` is a block of an inode in use, at an index below its size. -/
def DataBlock (b : Int) : Prop :=
  ∃ i n, (1 ≤ i ∧ i ≤ num_inodes) ∧ v.isFree i = false ∧ v.covers i n ∧ v.pointer i n = b

/-- `b` is the indirect block of an inode in use that has more than `NUM_DIRECT` blocks. -/
def IndirectBlock (b : Int) : Prop :=
  ∃ i, (1 ≤ i ∧ i ≤ num_inodes) ∧ v.isFree i = false ∧ v.covers i 12 ∧ v.indirect i = b

def InUse (b : Int) : Prop :=
  (1 ≤ b ∧ b ≤ tableBlocks num_inodes) ∨ v.DataBlock num_inodes b ∨ v.IndirectBlock num_inodes b

end View

/-- Boot succeeds, and `b_head` holds the blocks of the disk that nothing uses, each once. -/
def FreeBlocksExact (d : Disk) (num_inodes : Int) : Prop :=
  ∃ sv, boot d = some sv ∧ sv.b_head.Nodup ∧
    ∀ b, b ∈ sv.b_head ↔ (1 ≤ b ∧ b < d.num_sectors) ∧ ¬ d.view.InUse num_inodes b

/-- The pointers that the scan follows make up for what it does not look at. -/
structure ScanMatches (d : Disk) (num_inodes : Int) : Prop where
  table : ∀ b, 1 ≤ b → b ≤ tableBlocks num_inodes → d.view.Marked (scannedInodes num_inodes) b
  indirect : ∀ b, b ≠ 0 → d.view.IndirectBlock num_inodes b → d.view.Marked (scannedInodes num_inodes) b
  /-- An inode that the scan does not get to. -/
  missed : ∀ i n, 1 ≤ i → i ≤ num_inodes → i ∉ scannedInodes num_inodes → d.view.isFree i = false → d.view.covers i n →
    d.view.Marked (scannedInodes num_inodes) (d.view.pointer i n)
  /-- A pointer past the size, with no zero before it. -/
  stale : ∀ i n, i ∈ scannedInodes num_inodes → d.view.isFree i = false → ¬ d.view.covers i n → n < 140 →
    (∀ m, m ≤ n → d.view.pointer i m ≠ 0) → d.view.InUse num_inodes (d.view.pointer i n)

theorem mem_chain {v : View} {k : Nat} : b ∈ v.chain i k ↔
    ∃ n, k ≤ n ∧ n < 140 ∧ (∀ m, k ≤ m → m ≤ n → v.pointer i m ≠ 0) ∧ v.pointer i n = b := by
  by_cases hk : k < 140
  · by_cases h0 : v.pointer i k = 0
    · rw [chain_zero h0]
      exact iff_of_false List.not_mem_nil fun ⟨n, hn, _, hne, _⟩ => hne k (Nat.le_refl k) hn h0
    · rw [chain_cons hk h0, List.mem_cons, mem_chain]
      constructor
      · rintro (rfl | ⟨n, hn, h140, hne, rfl⟩)
        · exact ⟨k, Nat.le_refl k, hk, fun m h1 h2 => by rwa [Nat.le_antisymm h2 h1], rfl⟩
        · refine ⟨n, by omega, h140, fun m h1 h2 => ?_, rfl⟩
          by_cases hm : m = k
          · rwa [hm]
          · exact hne m (by omega) h2
      · rintro ⟨n, hn, h140, hne, rfl⟩
        by_cases hnk : n = k
        · exact .inl (by rw [hnk])
        · exact .inr ⟨n, by omega, h140, fun m h1 h2 => hne m (by omega) h2, rfl⟩
  · have : v.chain i k = [] := by rw [View.chain, show 140 - k = 0 by omega]; rfl
    rw [this]
    exact iff_of_false List.not_mem_nil fun ⟨n, hn, h140, _⟩ => by omega
termination_by 140 - k

theorem Image.marked (h : Image d num_inodes) (hi : i ∈ scannedInodes num_inodes) (hle : i ≤ num_inodes)
    (hf : d.view.isFree i = false) (hc : d.view.covers i n) :
    d.view.Marked (scannedInodes num_inodes) (d.view.pointer i n) := by
  have hp := h.pointers i (mem_scannedInodes.mp hi).1 hle hf
  exact ⟨i, hi, hf, mem_chain.mpr ⟨n, n.zero_le, (hp n hc).1, fun m _ hm => (hp m (hc.lt hm)).2.1, rfl⟩⟩

theorem Image.le_of_used (h : Image d num_inodes) (hi : i ∈ scannedInodes num_inodes) (hf : d.view.isFree i = false) :
    i ≤ num_inodes := by
  by_contra hgt
  rw [h.isFree_padding (Int.not_le.mp hgt) (scannedInodes_lt hi).2] at hf
  cases hf

theorem Image.scanMatches_iff (h : Image d num_inodes) (hok : BootOk d num_inodes) : (∀ b, 1 ≤ b ∧ b < d.num_sectors →
    (d.view.InUse num_inodes b ↔ d.view.Marked (scannedInodes num_inodes) b)) ↔ ScanMatches d num_inodes := by
  have hfits := h.fits
  constructor
  · intro hiff
    refine ⟨fun b h1 hb => (hiff b (by omega)).mp (.inl ⟨h1, hb⟩), fun b h0 hb => ?_, fun i n h1 hi hns hf hc => ?_,
      fun i n hi hf hc h140 hne => ?_⟩
    · obtain ⟨i, hi, hf, hc, rfl⟩ := hb
      have := h.indirect i hi.1 hi.2 hf hc
      exact (hiff _ (by omega)).mp (.inr (.inr ⟨i, hi, hf, hc, rfl⟩))
    · obtain ⟨_, h0, hr⟩ := h.pointers i h1 hi hf n hc
      exact (hiff _ (by omega)).mp (.inr (.inl ⟨i, n, ⟨h1, hi⟩, hf, hc, rfl⟩))
    · have hmem : d.view.pointer i n ∈ d.view.chain i 0 := mem_chain.mpr ⟨n, n.zero_le, h140, fun m _ => hne m, rfl⟩
      have hr := (hok i hi hf).range _ hmem
      have h0 := hne n (Nat.le_refl n)
      exact (hiff _ (by omega)).mpr ⟨i, hi, hf, hmem⟩
  · rintro hm b ⟨h1, hb⟩
    constructor
    · rintro (ht | ⟨i, n, hi, hf, hc, rfl⟩ | hind)
      · exact hm.table b ht.1 ht.2
      · by_cases hs : i ∈ scannedInodes num_inodes
        · exact h.marked hs hi.2 hf hc
        · exact hm.missed i n hi.1 hi.2 hs hf hc
      · exact hm.indirect b (by omega) hind
    · rintro ⟨i, hi, hf, hmem⟩
      obtain ⟨n, _, h140, hne, rfl⟩ := mem_chain.mp hmem
      by_cases hc : d.view.covers i n
      · exact .inr (.inl ⟨i, n, ⟨(mem_scannedInodes.mp hi).1, h.le_of_used hi hf⟩, hf, hc, rfl⟩)
      · exact hm.stale i n hi hf hc h140 fun m => hne m m.zero_le

theorem Image.marked_of_exact (h : Image d num_inodes) (hex : FreeBlocksExact d num_inodes) :
    ∀ b, 1 ≤ b ∧ b < d.num_sectors → (d.view.InUse num_inodes b ↔ d.view.Marked (scannedInodes num_inodes) b) := by
  obtain ⟨hok, hall⟩ := h.boot.mp hex
  obtain ⟨sv, hsv, hb⟩ := (boot_spec h).1 hok
  intro b hr
  have hiff := (hb.b_head b).symm.trans ((hall sv hb hsv).2 b)
  rw [and_iff_right (show 0 < b ∧ b < d.num_sectors by omega), and_iff_right hr, not_iff_not] at hiff
  exact hiff.symm

/-- **The free blocks after boot.** `b_head` is exact when every inode can be scanned, and the pointers of the
scanned inodes name every table block, every indirect block in use and every block of an inode that the scan
misses, and past the sizes nothing that is free. -/
theorem free_blocks_exact (h : Image d num_inodes) :
    FreeBlocksExact d num_inodes ↔ BootOk d num_inodes ∧ ScanMatches d num_inodes := by
  refine ⟨fun hex => ?_, fun ⟨hok, hm⟩ => h.boot.mpr ⟨hok, fun sv hb _ => ⟨hb.nodup, fun b => ?_⟩⟩⟩
  · have hok := (h.boot.mp hex).1
    exact ⟨hok, (h.scanMatches_iff hok).mp (h.marked_of_exact hex)⟩
  · rw [hb.b_head]
    refine and_congr_right fun hr => not_congr ?_
    exact ((h.scanMatches_iff hok).mpr hm b hr).symm

theorem free_blocks_exact_fifteen : FreeBlocksExact (mkyfs 100 15 fun _ => false) 15 ↔
    BootOk (mkyfs 100 15 fun _ => false) 15 ∧ ScanMatches (mkyfs 100 15 fun _ => false) 15 :=
  free_blocks_exact (mkyfs_image (by decide) (by decide) (by decide) (by decide))

/-- On a fresh disk the table block is on the free list. -/
theorem fresh_blocks_inexact :
    Image (mkyfs 100 15 fun _ => false) 15 ∧ ¬ FreeBlocksExact (mkyfs 100 15 fun _ => false) 15 := by
  have h : Image (mkyfs 100 15 fun _ => false) 15 := mkyfs_image (by decide) (by decide) (by decide) (by decide)
  refine ⟨h, fun hex => ?_⟩
  have hm := (h.marked_of_exact hex 1 ⟨by decide, by decide⟩).mp (.inl ⟨by decide, by decide⟩)
  exact absurd ((mkyfs_marked (by decide) (by decide)).mp hm) (by decide)

end Yfs
