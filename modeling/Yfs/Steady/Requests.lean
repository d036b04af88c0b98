import Yfs.Steady.Dirs
import Yfs.Sync

/-! # No request but `link` uses a stale pointer -/

namespace Yfs

open Cache Queue

variable {sv sv₀ : Server} {R : Finset Int} {i d cur new : Int} {path name : CStr} {block : Ptr} {off : Nat}

/-! ## Creating -/

theorem make_file_steady (hc : sv.store.Tidy) (hb : Live sv.store.cache_b_queue block R) (hR : R.card ≤ 20) :
    Steady (make_file name block off new) sv fun _ sv' =>
      ∃ I B : Finset Int, B.card ≤ 4 ∧ Moved sv sv' I B ∧ (new ≠ -1 → I = ∅) := by
  unfold make_file
  refine (modifyBlock_steady hc hb).bind fun _ sv₁ h₁ => ?_
  have hb₁ := h₁.live_b_empty hb
  split
  case isFalse hnew =>
    refine (modifyBlock_steady h₁.tidy hb₁).bind fun _ sv₂ h₂ => .ret ⟨∅, ∅, by simp, h₁.next h₂, fun _ => rfl⟩
  case isTrue hnew =>
    refine (get_next_inum_free_steady h₁.tidy).bind ?_
    rintro i sv₂ ⟨I₂, B₂, hB₂, h₂⟩
    have hcard := Finset.card_union_le R B₂
    have hb₂ := h₂.live_b hb₁ (by simp only [BLOCK_CACHESIZE]; omega)
    refine (modifyBlock_steady h₂.tidy hb₂).bind fun _ sv₃ h₃ => ?_
    refine Steady.bind_iff.mpr (get_i_steady h₃.tidy fun p sv₄ B₄ hat hB₄ h₄ hp => ?_)
    refine (modifyInode_steady h₄.tidy hp).bind fun _ sv₅ h₅ => ?_
    refine Steady.bind_iff.mpr (dirtyInode_steady h₅.tidy (h₅.live_i hp) hat.1 fun sv₆ h₆ => .ret ?_)
    have hmoved := ((((h₁.trans h₂).next h₃).trans h₄).next h₅).next h₆
    rw [Finset.empty_union, Finset.empty_union] at hmoved
    have := Finset.card_union_le B₂ B₄
    exact ⟨_, _, by omega, hmoved, fun h => absurd hnew h⟩

theorem get_create_file_steady (hc : sv.store.Tidy) : Steady (get_create_file name d new) sv fun _ sv' =>
    ∃ I B, Moved sv sv' I B ∧ (new ≠ -1 → I = {d}) := by
  unfold get_create_file
  refine (get_dir_entry_steady hc).bind ?_
  rintro ⟨off, b⟩ sv₁ ⟨B, h₁⟩
  refine Steady.bind_iff.mpr (get_b_steady h₁.tidy fun block sv₂ hnum h₂ _ hb => ?_)
  have h₁₂ : Moved sv sv₂ {d} (B ∪ {b}) := (h₁.trans h₂).mono (by simp) (Finset.Subset.refl _)
  refine Steady.bind_iff.mpr (readBlock_steady h₂.tidy hb fun blk => ?_)
  dsimp only
  split
  · split
    case isTrue => exact .ret ⟨_, _, h₁₂, fun _ => rfl⟩
    case isFalse hnew =>
      refine (zero_file_steady h₂.tidy).bind ?_
      rintro _ sv₃ ⟨B₃, hB₃, h₃⟩
      have hb₃ := h₃.live_b hb (by rw [Finset.empty_union]; simp only [BLOCK_CACHESIZE]; omega)
      refine Steady.bind_iff.mpr (dirtyBlock_steady h₃.tidy hb₃ hnum fun sv₄ h₄ => .ret ?_)
      exact ⟨_, _, (h₁₂.trans h₃).next h₄, fun h => absurd h hnew⟩
  · refine (make_file_steady h₂.tidy hb (by simp)).bind ?_
    rintro i sv₃ ⟨I₃, B₃, hB₃, h₃, hI₃⟩
    have hb₃ := h₃.live_b hb (by rw [Finset.empty_union]; simp only [BLOCK_CACHESIZE]; omega)
    refine Steady.bind_iff.mpr (dirtyBlock_steady h₃.tidy hb₃ hnum fun sv₄ h₄ => .ret ?_)
    refine ⟨_, _, (h₁₂.trans h₃).next h₄, fun h => ?_⟩
    rw [hI₃ h, Finset.union_empty]

/-- `J` bounds what looking for the directory touches. -/
theorem handle_create_steady {P : Finset Int → Prop} (hc : sv.store.Tidy)
    (hsup : Steady (get_super_dir path cur) sv fun r sv' => ∃ I B, Moved sv sv' I B ∧ (r.1 ≠ ERROR → P (insert r.1 I))) :
    Steady (handle_create (some path) cur new) sv fun r sv' => ∃ I B, Moved sv sv' I B ∧ (new ≠ -1 → r ≠ ERROR → P I) := by
  unfold handle_create
  dsimp only
  split
  · exact .ret ⟨∅, ∅, .refl hc, fun _ h => absurd rfl h⟩
  refine hsup.bind ?_
  rintro ⟨dir, name⟩ sv₁ ⟨I, B, h₁, hP⟩
  dsimp only at hP ⊢
  split
  · exact .ret ⟨I, B, h₁, fun _ h => absurd rfl h⟩
  case isFalse hdir =>
  refine Steady.bind_iff.mpr (get_i_steady h₁.tidy fun p sv₂ B₂ _ _ h₂ hp => ?_)
  refine Steady.bind_iff.mpr (readInode_steady h₂.tidy hp fun item _ => ?_)
  split
  · exact .ret ⟨_, _, h₁.trans h₂, fun _ h => absurd rfl h⟩
  refine (get_create_file_steady h₂.tidy).bind ?_
  rintro r sv₃ ⟨I₃, B₃, h₃, hI₃⟩
  have hmoved := (h₁.trans h₂).trans h₃
  split
  · exact .ret ⟨_, _, hmoved, fun _ h => absurd rfl h⟩
  · refine .ret ⟨_, _, hmoved, fun hnew _ => ?_⟩
    rw [hI₃ hnew, Finset.union_assoc, Finset.union_self, Finset.union_comm, ← Finset.insert_eq]
    exact hP hdir

theorem handle_create_runs (hc : sv.store.Tidy) : Steady (handle_create (some path) cur new) sv fun _ _ => True := by
  have hsup : Steady (get_super_dir path cur) sv fun r sv' => ∃ I B, Moved sv sv' I B ∧ (r.1 ≠ ERROR → True) :=
    (get_super_dir_steady hc).mono fun _ _ ⟨I, B, h, _⟩ => ⟨I, B, h, fun _ => trivial⟩
  exact (handle_create_steady (P := fun _ => True) hc hsup).mono fun _ _ _ => trivial

/-! ## Linking -/

/-- Looking up the inodes `I` leaves inode `i` in its cache. -/
def Few (i : Int) (I : Finset Int) : Prop := (I.erase i).card < INODE_CACHESIZE

theorem Few.mono {I J : Finset Int} (h : Few i J) (hI : I ⊆ J) : Few i I :=
  Nat.lt_of_le_of_lt (Finset.card_le_card (Finset.erase_subset_erase i hI)) h

/-- `handle_link` once it has seen that the old name is a file. -/
theorem link_end_steady {p : Ptr} (hnum : p.num = i)
    (hcreate : Steady (handle_create (some path) cur i) sv fun r sv' =>
      sv'.store.Tidy ∧ (r ≠ ERROR → ∃ R, Live sv'.store.cache_i_queue p R)) :
    Steady (do
      let ret ← handle_create (some path) cur i
      if ret = ERROR then return ERROR
      modifyInode p fun ino => ino.set .nlink (ino.nlink + 1)
      dirtyInode i
      return 0) sv fun _ _ => True := by
  refine hcreate.bind ?_
  rintro r sv₁ ⟨hc₁, hlive⟩
  split
  · exact .ret trivial
  case isFalse hr =>
  obtain ⟨R, hlive⟩ := hlive hr
  refine (modifyInode_steady hc₁ hlive).bind fun _ sv₂ h₂ => ?_
  exact Steady.bind_iff.mpr (dirtyInode_steady h₂.tidy (h₂.live_i hlive) hnum fun _ _ => .ret trivial)

/-- `handle_link` once it has the inode of the old name. -/
theorem link_rest_steady {p : Ptr} (hc : sv.store.Tidy) (hp : Live sv.store.cache_i_queue p ∅) (hnum : p.num = i)
    (hcreate : Steady (handle_create (some path) cur i) sv fun r sv' =>
      sv'.store.Tidy ∧ (r ≠ ERROR → ∃ R, Live sv'.store.cache_i_queue p R)) :
    Steady (do
      let ino ← readInode p
      if ino.type = INODE_DIRECTORY ∨ i = 0 then return ERROR
      let ret ← handle_create (some path) cur i
      if ret = ERROR then return ERROR
      modifyInode p fun ino => ino.set .nlink (ino.nlink + 1)
      dirtyInode i
      return 0) sv fun _ _ => True := by
  refine Steady.bind_iff.mpr (readInode_steady hc hp fun item _ => ?_)
  split
  · exact .ret trivial
  · exact link_end_steady hnum hcreate

/-- Few lookups leave the item in its place. -/
theorem Moved.few {sv' : Server} {p : Ptr} {I B : Finset Int} (h : Moved sv sv' I B) (hp : Live sv.store.cache_i_queue p ∅) (hfew : Few p.num I) :
    ∃ R, Live sv'.store.cache_i_queue p R :=
  ⟨_, h.used.inodes p ∅ hp fun _ => by rwa [Finset.empty_union]⟩

/-- A name that is taken cannot be linked. -/
theorem handle_create_taken {g : Geometry} {σ : FS} (hw : WellFormed g σ) (hcur : g.isInode cur) (hnew : new ≠ -1)
    (htaken : σ.lookup (σ.superDir path cur).1 (σ.superDir path cur).2 ≠ 0) :
    wp g (handle_create (some path) cur new) σ fun r _ => r = ERROR := by
  refine handle_create_spec hw g.isInode_root hcur ?_ ?_
  · rintro d name hsup _ ⟨hnone, _⟩ _
    rw [hsup] at htaken
    exact absurd (lookup_none hnone) htaken
  rintro r σ' (_ | ⟨_, hsup, _, _, h⟩)
  · rfl
  rw [hsup] at htaken
  cases h with
  | taken => rfl
  | truncated _ _ hn => exact absurd hn hnew
  | made _ _ hn => exact absurd hn hnew
  | linked hp h0 =>
    cases hp with
    | found hk => exact absurd h0 (lookup_some hk ▸ htaken)
    | free hk => exact absurd (lookup_none hk) htaken
    | new hfull => exact absurd (lookup_none hfull.1) htaken

/-- Finding the directory of the new name leaves the linked inode in its cache: its path is short, or walks over few
inodes, or the name is taken. -/
def LinkNear (g : Geometry) (sv : Server) (old_name new_name : CStr) (cur : Int) : Prop :=
  let old := adj_path_i old_name cur
  let new := adj_path_i new_name old.2
  dirParts new.1 new.2 + 1 < INODE_CACHESIZE ∨
    sv.CachesOk g ∧ WellFormed g sv.fs ∧ g.isInode cur ∧
      (sv.fs.lookup (sv.fs.superDir new.1 new.2).1 (sv.fs.superDir new.1 new.2).2 = 0 →
        Few (sv.fs.resolve old.1 old.2) (sv.fs.superTrail new.1 new.2))

theorem slotOf_ne {i : Int} (h : Cache.slotOf i ≠ none) : i ≠ -1 := by
  rintro rfl
  exact h rfl

theorem handle_link_steady {g : Geometry} {old_name new_name : CStr} (hc : sv.store.Tidy)
    (hnear : LinkNear g sv old_name new_name cur) :
    Steady (handle_link (some old_name) (some new_name) cur) sv fun _ _ => True := by
  unfold handle_link
  dsimp only
  split
  · exact .ret trivial
  rcases hnear with hshort | ⟨hok, hw, hcur, hfew⟩
  · refine (path_walk_steady hc).bind ?_
    rintro i sv₁ ⟨I₁, B₁, h₁, _⟩
    refine Steady.bind_iff.mpr (get_i_steady h₁.tidy fun p sv₂ B hat _ h₂ hp => ?_)
    obtain ⟨hnum, hslot⟩ := hat
    refine link_rest_steady h₂.tidy hp hnum ?_
    have hsup : Steady (get_super_dir (adj_path_i new_name (adj_path_i old_name cur).2).1
        (adj_path_i new_name (adj_path_i old_name cur).2).2) sv₂ fun r sv' =>
          ∃ I B, Moved sv₂ sv' I B ∧ (r.1 ≠ ERROR → Few i (insert r.1 I)) := by
      refine (get_super_dir_steady h₂.tidy).mono ?_
      rintro r sv₃ ⟨I, B, h₃, hcard⟩
      refine ⟨I, B, h₃, fun hr => ?_⟩
      have := Finset.card_le_card (Finset.erase_subset i (insert r.1 I))
      have := hcard hr
      rw [Few]
      omega
    refine (handle_create_steady h₂.tidy hsup).mono ?_
    rintro _ _ ⟨_, _, h, hP⟩
    exact ⟨h.tidy, fun hr => h.few hp (hnum ▸ hP (slotOf_ne hslot) hr)⟩
  · have hold := adj_path_i_isInode old_name g.isInode_root hcur
    have hnew := adj_path_i_isInode new_name g.isInode_root hold
    have hwalk : wp g (get_path_i_num (adj_path_i old_name cur).1 (adj_path_i old_name cur).2) sv.fs fun r σ =>
        r = sv.fs.resolve (adj_path_i old_name cur).1 (adj_path_i old_name cur).2 ∧ σ = sv.fs :=
      get_path_i_num_spec hw hold ⟨rfl, rfl⟩
    have hlook : Steady (get_path_i_num (adj_path_i old_name cur).1 (adj_path_i old_name cur).2) sv fun _ sv' =>
        ∃ I B, Moved sv sv' I B := by
      refine (path_walk_steady hc).mono ?_
      rintro _ _ ⟨I, B, h, _⟩
      exact ⟨I, B, h⟩
    refine (hlook.and_wp hok.rel hwalk).bind ?_
    rintro _ sv₁ ⟨⟨I₁, B₁, h₁⟩, σ₁, ⟨rfl, he₁⟩, hrel₁⟩
    rw [he₁] at hrel₁
    have hi : g.isInode (sv.fs.resolve (adj_path_i old_name cur).1 (adj_path_i old_name cur).2) := hw.resolve_isInode hold
    generalize sv.fs.resolve (adj_path_i old_name cur).1 (adj_path_i old_name cur).2 = i at hi hfew ⊢
    have hget : wp g (get_i i) sv.fs fun _ σ => σ = sv.fs := by
      simp only [wp_get_i]
      exact fun _ => ⟨hi, fun _ => trivial⟩
    have hptr : Steady (get_i i) sv₁ fun p sv' => (p.num = i ∧ i ≠ -1) ∧ sv'.store.Tidy ∧ Live sv'.store.cache_i_queue p ∅ :=
      get_i_steady h₁.tidy fun p sv' B hat _ h hp => ⟨⟨hat.1, slotOf_ne hat.2⟩, h.tidy, hp⟩
    refine (hptr.and_wp hrel₁ hget).bind ?_
    rintro p sv₂ ⟨⟨⟨hnum, hne⟩, hc₂, hp⟩, σ₂, he₂, hrel₂⟩
    rw [he₂] at hrel₂
    refine link_rest_steady hc₂ hp hnum ?_
    by_cases h0 : sv.fs.lookup (sv.fs.superDir (adj_path_i new_name (adj_path_i old_name cur).2).1
        (adj_path_i new_name (adj_path_i old_name cur).2).2).1 (sv.fs.superDir (adj_path_i new_name
        (adj_path_i old_name cur).2).1 (adj_path_i new_name (adj_path_i old_name cur).2).2).2 = 0
    · have hsup : Steady (get_super_dir (adj_path_i new_name (adj_path_i old_name cur).2).1
          (adj_path_i new_name (adj_path_i old_name cur).2).2) sv₂ fun r sv' =>
            ∃ I B, Moved sv₂ sv' I B ∧ (r.1 ≠ ERROR → Few i (insert r.1 I)) := by
        refine (get_super_dir_trail hc₂ hrel₂ hw hnew).mono ?_
        rintro r sv₃ ⟨I, B, h₃, hI⟩
        exact ⟨I, B, h₃, fun hr => (hfew h0).mono (hI hr)⟩
      refine (handle_create_steady hc₂ hsup).mono ?_
      rintro _ _ ⟨_, _, h, hP⟩
      exact ⟨h.tidy, fun hr => h.few hp (hnum ▸ hP hne hr)⟩
    · have hany : Steady (get_super_dir (adj_path_i new_name (adj_path_i old_name cur).2).1
          (adj_path_i new_name (adj_path_i old_name cur).2).2) sv₂ fun r sv' => ∃ I B, Moved sv₂ sv' I B ∧ (r.1 ≠ ERROR → True) := by
        refine (get_super_dir_steady hc₂).mono ?_
        rintro _ _ ⟨I, B, h, _⟩
        exact ⟨I, B, h, fun _ => trivial⟩
      refine ((handle_create_steady (P := fun _ => True) hc₂ hany).and_wp hrel₂ (handle_create_taken hw hnew hne h0)).mono ?_
      rintro r sv₃ ⟨⟨_, _, h₃, _⟩, _, hr, _⟩
      exact ⟨h₃.tidy, fun hn => absurd hr hn⟩

/-! ## The other requests -/

theorem handle_unlink_steady (hc : sv.store.Tidy) : Steady (handle_unlink (some path) cur) sv fun _ _ => True := by
  unfold handle_unlink
  dsimp only
  split
  · exact .ret trivial
  refine (get_super_dir_steady hc).bind ?_
  rintro ⟨dir, name⟩ sv₁ ⟨_, _, h₁, _⟩
  refine Steady.bind_iff.mpr (get_i_steady h₁.tidy fun p sv₂ _ _ _ h₂ hp => ?_)
  refine Steady.bind_iff.mpr (readInode_steady h₂.tidy hp fun item _ => ?_)
  split
  · exact .ret trivial
  refine (get_dir_entry_steady h₂.tidy).bind ?_
  rintro ⟨off, b⟩ sv₃ ⟨_, h₃⟩
  dsimp only
  split
  · exact .ret trivial
  refine Steady.bind_iff.mpr (get_b_steady h₃.tidy fun block sv₄ hbnum h₄ _ hb => ?_)
  refine Steady.bind_iff.mpr (readBlock_steady h₄.tidy hb fun blk => ?_)
  refine Steady.bind_iff.mpr (get_i_steady h₄.tidy fun ptr sv₅ B₅ ⟨hnum, _⟩ hB₅ h₅ hp => ?_)
  have hb₅ := h₅.live_b hb (by rw [Finset.empty_union]; simp only [BLOCK_CACHESIZE]; omega)
  rw [Finset.empty_union] at hb₅
  refine (modifyInode_steady h₅.tidy hp).bind fun _ sv₆ h₆ => ?_
  have hp₆ := h₆.live_i hp
  have hb₆ := h₆.live_b_empty hb₅
  refine Steady.bind_iff.mpr (readInode_steady h₆.tidy hp₆ fun item _ => ?_)
  have hrest : ∀ sv₇, sv₇.store.Tidy → Live sv₇.store.cache_i_queue ptr ∅ → (∃ R, Live sv₇.store.cache_b_queue block R) →
      Steady (do
        dirtyInode (blk.inum off.toNat)
        modifyBlock block fun blk => blk.setInum off.toNat 0
        dirtyBlock b
        return (0 : Int)) sv₇ fun _ _ => True := by
    rintro sv₇ hc₇ hp₇ ⟨R, hb₇⟩
    refine Steady.bind_iff.mpr (dirtyInode_steady hc₇ hp₇ hnum fun sv₈ h₈ => ?_)
    have hb₈ := h₈.live_b_empty hb₇
    refine (modifyBlock_steady h₈.tidy hb₈).bind fun _ sv₉ h₉ => ?_
    exact Steady.bind_iff.mpr (dirtyBlock_steady h₉.tidy (h₉.live_b_empty hb₈) hbnum fun _ _ => .ret trivial)
  split
  · refine (clear_file_steady h₆.tidy hp₆).bind ?_
    rintro _ sv₇ ⟨x, h₇⟩
    have hcard := Finset.card_union_le B₅ {x}
    rw [Finset.card_singleton] at hcard
    have hb₇ := h₇.live_b hb₆ (by simp only [BLOCK_CACHESIZE]; omega)
    exact hrest sv₇ h₇.tidy (h₇.live_i hp₆) ⟨_, hb₇⟩
  · exact hrest sv₆ h₆.tidy hp₆ ⟨_, hb₆⟩

theorem update_dir_entry_steady (hc : sv.store.Tidy) (hb : Live sv.store.cache_b_queue block R) :
    Steady (update_dir_entry block off name i) sv fun _ sv' => Moved sv sv' ∅ ∅ := by
  unfold update_dir_entry
  split
  · exact .undef
  · exact modifyBlock_steady hc hb

theorem handle_mkdir_steady (hc : sv.store.Tidy) : Steady (handle_mkdir (some path) cur) sv fun _ _ => True := by
  unfold handle_mkdir
  dsimp only
  split
  · exact .ret trivial
  refine (get_super_dir_steady hc).bind ?_
  rintro ⟨dir, name⟩ sv₁ ⟨_, _, h₁, _⟩
  refine (get_dir_entry_steady h₁.tidy).bind ?_
  rintro ⟨off, b⟩ sv₂ ⟨_, h₂⟩
  refine Steady.bind_iff.mpr (get_b_steady h₂.tidy fun block sv₃ hbnum h₃ _ hb => ?_)
  refine Steady.bind_iff.mpr (readBlock_steady h₃.tidy hb fun blk => ?_)
  split
  · exact .ret trivial
  refine (get_next_inum_free_steady h₃.tidy).bind ?_
  rintro i sv₄ ⟨I₄, B₄, hB₄, h₄⟩
  have hb₄ := h₄.live_b hb (by rw [Finset.empty_union]; simp only [BLOCK_CACHESIZE]; omega)
  refine (update_dir_entry_steady h₄.tidy hb₄).bind fun _ sv₅ h₅ => ?_
  refine Steady.bind_iff.mpr (dirtyBlock_steady h₅.tidy (h₅.live_b_empty hb₄) hbnum fun sv₆ h₆ => ?_)
  refine Steady.bind_iff.mpr (get_b_steady h₆.tidy fun _ sv₇ _ h₇ _ _ => ?_)
  refine Steady.bind_iff.mpr (get_i_steady h₇.tidy fun p sv₈ _ hat _ h₈ hp => ?_)
  refine (modifyInode_steady h₈.tidy hp).bind fun _ sv₉ h₉ => ?_
  have hp₉ := h₉.live_i hp
  refine (get_next_free_bnum_steady h₉.tidy).bind fun head sv₁₀ h₁₀ => ?_
  have hp₁₀ := h₁₀.live_i hp₉
  refine Steady.bind_iff.mpr (get_b_steady h₁₀.tidy fun head_b sv₁₁ hhead h₁₁ _ hb => ?_)
  have hp₁₁ := h₁₁.live_i hp₁₀
  refine (modifyInode_steady h₁₁.tidy hp₁₁).bind fun _ sv₁₂ h₁₂ => ?_
  have hb₁₂ := h₁₂.live_b_empty hb
  refine (modifyBlock_steady h₁₂.tidy hb₁₂).bind fun _ sv₁₃ h₁₃ => ?_
  refine Steady.bind_iff.mpr (dirtyBlock_steady h₁₃.tidy (h₁₃.live_b_empty hb₁₂) hhead fun sv₁₄ h₁₄ => ?_)
  have hp₁₄ := h₁₄.live_i (h₁₃.live_i (h₁₂.live_i hp₁₁))
  exact Steady.bind_iff.mpr (dirtyInode_steady h₁₄.tidy hp₁₄ hat.1 fun _ _ => .ret trivial)

theorem handle_rmdir_steady (hc : sv.store.Tidy) : Steady (handle_rmdir (some path) cur) sv fun _ _ => True := by
  unfold handle_rmdir
  dsimp only
  split
  · exact .ret trivial
  refine (path_walk_steady hc).bind ?_
  rintro i sv₁ ⟨_, _, h₁, _⟩
  split
  · exact .ret trivial
  refine Steady.bind_iff.mpr (get_i_steady h₁.tidy fun p sv₂ _ _ _ h₂ hp => ?_)
  refine Steady.bind_iff.mpr (readInode_steady h₂.tidy hp fun item _ => ?_)
  split
  · exact .ret trivial
  refine (clear_file_steady h₂.tidy hp).bind ?_
  rintro _ sv₃ ⟨_, h₃⟩
  refine (add_free_i_list_steady h₃.tidy).bind fun _ sv₄ h₄ => ?_
  refine (get_super_dir_steady h₄.tidy).bind ?_
  rintro ⟨dir, name⟩ sv₅ ⟨_, _, h₅, _⟩
  refine (get_dir_entry_steady h₅.tidy).bind ?_
  rintro ⟨off, b⟩ sv₆ ⟨_, h₆⟩
  refine Steady.bind_iff.mpr (get_b_steady h₆.tidy fun block sv₇ hbnum h₇ _ hb => ?_)
  refine (modifyBlock_steady h₇.tidy hb).bind fun _ sv₈ h₈ => ?_
  exact Steady.bind_iff.mpr (dirtyBlock_steady h₈.tidy (h₈.live_b_empty hb) hbnum fun _ _ => .ret trivial)

/-- `handle_open` and `handle_chdir` are one walk. -/
theorem handle_open_steady (hc : sv.store.Tidy) : Steady (handle_open (some path) cur) sv fun _ _ => True := by
  unfold handle_open
  dsimp only
  split
  · exact .ret trivial
  refine (path_walk_steady hc).bind fun r sv₁ _ => ?_
  split <;> exact .ret trivial

theorem handle_stat_steady {mapped : Bool} (hc : sv.store.Tidy) :
    Steady (handle_stat (some path) cur (some mapped)) sv fun _ _ => True := by
  unfold handle_stat
  dsimp only
  split
  · exact .ret trivial
  refine (path_walk_steady hc).bind ?_
  rintro i sv₁ ⟨_, _, h₁, _⟩
  split
  · exact .ret trivial
  refine Steady.bind_iff.mpr (get_i_steady h₁.tidy fun p sv₂ _ _ _ h₂ hp => ?_)
  refine Steady.bind_iff.mpr (readInode_steady h₂.tidy hp fun item _ => ?_)
  split <;> exact .ret trivial

end Yfs
