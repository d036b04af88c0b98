import Yfs.Steady.Files

/-! # The directory programs use no stale pointer -/

namespace Yfs

variable {sv : Server} {p : Ptr} {R : Finset Int} {d cur : Int} {path : CStr}

/-! ## `get_dir_entry` -/

/-- The block behind `cur_b` may still be used. -/
def Walk.Keeps (w : Walk) (sv : Server) : Prop :=
  ∀ ptr, w.cur_b = some ptr → ptr.num = w.curr_b_num ∧ ∃ x, Live sv.store.cache_b_queue ptr {x}

theorem scan_blocks_steady {fuel : Nat} {w : Walk} (hc : sv.store.Tidy) (hp : Live sv.store.cache_i_queue p R)
    (hw : w.Keeps sv) : Steady (scan_blocks path p fuel w) sv fun w' sv' =>
      (∃ B, Moved sv sv' ∅ B) ∧ (w'.search.found = true ∨ w'.Keeps sv') := by
  induction fuel generalizing sv w with
  | zero => exact .undef
  | succ fuel ih =>
    obtain ⟨x, hx⟩ := exists_pointsTo sv p
    unfold scan_blocks
    split
    · exact .ret ⟨⟨∅, .refl hc⟩, .inr hw⟩
    refine Steady.bind_iff.mpr (get_b_steady hc fun ptr sv₁ hnum h₁ hqueue hb => ?_)
    have hp₁ := h₁.live_i hp
    refine Steady.bind_iff.mpr (readInode_steady h₁.tidy hp₁ fun item _ => ?_)
    refine Steady.bind_iff.mpr (readBlock_steady h₁.tidy hb fun blk => ?_)
    dsimp only
    split
    case isTrue hfound => exact .ret ⟨⟨_, h₁⟩, .inl hfound⟩
    have hx₁ : PointsTo sv₁ p x := by
      rw [PointsTo, hqueue]
      exact hx
    refine (get_nth_b_steady h₁.tidy hp₁ hx₁).bind ?_
    rintro b sv₂ ⟨h₂, _⟩
    have hlive := h₂.live_b hb (by simp [BLOCK_CACHESIZE])
    rw [Finset.empty_union] at hlive
    refine (ih h₂.tidy (h₂.live_i hp₁) ?_).mono ?_
    · rintro ptr' hptr
      obtain rfl := Option.some.inj hptr
      exact ⟨hnum, x, hlive⟩
    · rintro w' sv₃ ⟨⟨B, h₃⟩, hw'⟩
      exact ⟨⟨_, ((h₁.trans h₂).trans h₃).mono (by simp) (Finset.Subset.refl _)⟩, hw'⟩

theorem get_dir_entry_steady {make : Bool} (hc : sv.store.Tidy) :
    Steady (get_dir_entry path d make) sv fun _ sv' => ∃ B, Moved sv sv' {d} B := by
  unfold get_dir_entry
  refine Steady.bind_iff.mpr (get_i_steady hc fun p sv₁ B ⟨hnum, _⟩ _ h₁ hp => ?_)
  obtain ⟨x, hx⟩ := exists_pointsTo sv₁ p
  refine (get_nth_b_steady h₁.tidy hp hx).bind ?_
  rintro b sv₂ ⟨h₂, _⟩
  have hp₂ := h₂.live_i hp
  refine (scan_blocks_steady h₂.tidy hp₂ fun _ hn => by cases hn).bind ?_
  rintro w sv₃ ⟨⟨B₃, h₃⟩, hw⟩
  have hp₃ := h₃.live_i hp₂
  have hmoved : Moved sv sv₃ {d} (B ∪ {x} ∪ B₃) := ((h₁.trans h₂).trans h₃).mono (by simp) (Finset.Subset.refl _)
  split
  · exact .ret ⟨_, hmoved⟩
  case isFalse hfound =>
  split
  · exact .ret ⟨_, hmoved⟩
  split
  · exact .ret ⟨_, hmoved⟩
  refine Steady.bind_iff.mpr (readInode_steady h₃.tidy hp₃ fun item _ => ?_)
  split
  · obtain ⟨y, hy⟩ := exists_pointsTo sv₃ p
    refine (get_nth_b_steady h₃.tidy hp₃ hy).bind ?_
    rintro b sv₄ ⟨h₄, _⟩
    have hp₄ := h₄.live_i hp₃
    refine Steady.bind_iff.mpr (get_b_steady h₄.tidy fun ptr sv₅ hbnum h₅ _ hb => ?_)
    have hp₅ := h₅.live_i hp₄
    refine (modifyInode_steady h₅.tidy hp₅).bind fun _ sv₆ h₆ => ?_
    have hb₆ := h₆.live_b_empty hb
    refine (modifyBlock_steady h₆.tidy hb₆).bind fun _ sv₇ h₇ => ?_
    refine Steady.bind_iff.mpr (dirtyBlock_steady h₇.tidy (h₇.live_b_empty hb₆) hbnum fun sv₈ h₈ => ?_)
    have hp₈ := h₈.live_i (h₇.live_i (h₆.live_i hp₅))
    refine Steady.bind_iff.mpr (dirtyInode_steady h₈.tidy hp₈ hnum fun sv₉ h₉ => .ret ⟨B ∪ {x} ∪ B₃ ∪ {y} ∪ {b}, ?_⟩)
    exact ((((((hmoved.trans h₄).trans h₅).next h₆).next h₇).next h₈).next h₉).mono (by simp) (Finset.Subset.refl _)
  · refine (modifyInode_steady h₃.tidy hp₃).bind fun _ sv₄ h₄ => ?_
    refine Steady.bind_iff.mpr (dirtyInode_steady h₄.tidy (h₄.live_i hp₃) hnum fun sv₅ h₅ => ?_)
    split
    case h_1 => exact .undef
    case h_2 cur_b hcur =>
      split
      · exact .undef
      obtain ⟨hcurr, y, hb⟩ := hw.resolve_left hfound cur_b hcur
      have hb₅ := h₅.live_b_empty (h₄.live_b_empty hb)
      refine (modifyBlock_steady h₅.tidy hb₅).bind fun _ sv₆ h₆ => ?_
      have hb₆ := h₆.live_b_empty hb₅
      refine Steady.bind_iff.mpr (dirtyBlock_steady h₆.tidy hb₆ hcurr fun sv₇ h₇ => ?_)
      refine Steady.bind_iff.mpr (dirtyBlock_steady h₇.tidy (h₇.live_b_empty hb₆) hcurr fun sv₈ h₈ => .ret ⟨B ∪ {x} ∪ B₃, ?_⟩)
      exact ((((hmoved.next h₄).next h₅).next h₆).next h₇).next h₈

/-! ## Paths -/

theorem lookup_part_steady (hc : sv.store.Tidy) :
    Steady (lookup_part path d) sv fun _ sv' => ∃ B, Moved sv sv' {d} B := by
  unfold lookup_part
  refine (get_dir_entry_steady hc).bind ?_
  rintro ⟨off, b⟩ sv₁ ⟨B, h₁⟩
  dsimp only
  split
  · exact .ret ⟨B, h₁⟩
  · refine Steady.bind_iff.mpr (get_b_steady h₁.tidy fun ptr sv₂ _ h₂ _ hb => ?_)
    refine Steady.bind_iff.mpr (readBlock_steady h₂.tidy hb fun _ => .ret ⟨B ∪ {b}, ?_⟩)
    exact (h₁.trans h₂).mono (by simp) (Finset.Subset.refl _)

/-- How many parts the walk looks up. -/
def parts : Nat → CStr → Nat
  | 0, _ => 0
  | fuel + 1, path => if get_next_path_part path = [] then 1 else parts fuel (get_next_path_part path) + 1

theorem path_walk_steady {fuel : Nat} (hc : sv.store.Tidy) : Steady (path_walk fuel path d) sv fun r sv' =>
    ∃ I B, Moved sv sv' I B ∧ (r = 0 ∨ r ∈ I) ∧ I.card ≤ parts fuel path + 1 := by
  induction fuel generalizing sv path d with
  | zero => exact .undef
  | succ fuel ih =>
    unfold path_walk parts
    refine Steady.bind_iff.mpr (get_i_steady hc fun p sv₁ B _ _ h₁ hp => ?_)
    refine Steady.bind_iff.mpr (readInode_steady h₁.tidy hp fun item _ => ?_)
    split
    case isFalse => exact .ret ⟨{d}, B, h₁, .inl rfl, by simp⟩
    refine (lookup_part_steady h₁.tidy).bind ?_
    rintro next sv₂ ⟨B₂, h₂⟩
    dsimp only
    have h₁₂ : Moved sv sv₂ {d} (B ∪ B₂) := (h₁.trans h₂).mono (by simp) (Finset.Subset.refl _)
    split
    · refine Steady.bind_iff.mpr (get_i_steady h₂.tidy fun p sv₃ B₃ _ _ h₃ _ => .ret ⟨{d} ∪ {next}, _, h₁₂.trans h₃, .inr ?_, ?_⟩)
      · simp
      · exact Finset.card_union_le {d} {next}
    · refine (ih h₂.tidy).mono ?_
      rintro r sv₃ ⟨I, B₃, h₃, hr, hcard⟩
      refine ⟨{d} ∪ I, _, h₁₂.trans h₃, hr.imp_right fun h => Finset.mem_union_right _ h, ?_⟩
      have := Finset.card_union_le {d} I
      rw [Finset.card_singleton] at this
      omega

/-- The parts of the directory part of a path. -/
def dirParts (path : CStr) (cur : Int) : Nat :=
  let path := (from_root path cur).1
  let idx := last_slash path 0 0
  if idx = 0 then 0 else parts ((path.take idx).length + 1) (path.take idx)

theorem get_super_dir_steady (hc : sv.store.Tidy) : Steady (get_super_dir path cur) sv fun r sv' =>
    ∃ I B, Moved sv sv' I B ∧ (r.1 ≠ ERROR → (insert r.1 I).card ≤ dirParts path cur + 1) := by
  unfold get_super_dir dirParts
  split
  · exact .ret ⟨∅, ∅, .refl hc, fun h => absurd rfl h⟩
  dsimp only
  split
  case isTrue hidx =>
    refine (path_walk_steady hc).bind ?_
    rintro r sv₁ ⟨I, B, h₁, hr, hcard⟩
    split
    · exact .ret ⟨I, B, h₁, fun h => absurd rfl h⟩
    case isFalse h0 => exact .ret ⟨I, B, h₁, fun _ => by rwa [Finset.insert_eq_self.mpr (hr.resolve_left h0)]⟩
  case isFalse hidx => exact .ret ⟨∅, ∅, .refl hc, fun _ => by simp⟩

/-! ## In a well-formed state -/

/-- The inodes that the walk touches. -/
def View.trail (v : View) : Nat → CStr → Int → Finset Int
  | 0, _, _ => ∅
  | fuel + 1, path, d =>
    insert d (if (v.inode d).type = INODE_DIRECTORY then
      if get_next_path_part path = [] then {v.lookup d path}
      else v.trail fuel (get_next_path_part path) (v.lookup d path)
    else ∅)

/-- The inodes that looking for the directory of a path touches, and that directory. -/
def View.superTrail (v : View) (path : CStr) (cur : Int) : Finset Int :=
  let start := from_root path cur
  let idx := last_slash start.1 0 0
  insert (v.superDir path cur).1
    (if idx = 0 then ∅ else v.trail ((start.1.take idx).length + 1) (start.1.take idx) start.2)

section

variable {g : Geometry} {σ : FS}

theorem path_walk_trail {fuel : Nat} (hc : sv.store.Tidy) (hrel : Rel g sv σ) (hw : WellFormed g σ) (hd : g.isInode d) :
    Steady (path_walk fuel path d) sv fun _ sv' => ∃ B, Moved sv sv' (σ.trail fuel path d) B := by
  induction fuel generalizing sv path d with
  | zero => exact .undef
  | succ fuel ih =>
    unfold path_walk View.trail
    have hget : wp g (get_i d) σ fun ptr σ' => ptr.num = d ∧ σ' = σ := by
      simp only [wp_get_i]
      exact fun _ => ⟨hd, fun _ => ⟨trivial, trivial⟩⟩
    have hlook : Steady (get_i d) sv fun ptr sv' => ∃ B, Moved sv sv' {d} B ∧ Live sv'.store.cache_i_queue ptr ∅ :=
      get_i_steady hc fun ptr sv' B _ _ h hp => ⟨B, h, hp⟩
    refine (hlook.and_wp hrel hget).bind ?_
    rintro p sv₁ ⟨⟨B, h₁, hp⟩, σ₁, ⟨hnum, he⟩, hrel₁⟩
    rw [he] at hrel₁
    refine Steady.bind_iff.mpr (readInode_steady h₁.tidy hp fun item hitem => ?_)
    obtain ⟨hm, hpos⟩ := deref_mem hitem
    have hdata : item.data = σ.inode d := by
      rw [← logicalInode_cached hrel₁.inodes hm, hpos, hnum, hrel₁.view_i d hd]
    rw [hdata]
    split
    case isFalse => exact .ret ⟨B, h₁.mono (by simp) (Finset.Subset.refl _)⟩
    case isTrue hdir =>
    have hwalk : wp g (lookup_part path d) σ fun r σ' => r = σ.lookup d path ∧ σ' = σ :=
      lookup_part_spec hw hd ⟨rfl, rfl⟩
    refine ((lookup_part_steady h₁.tidy).and_wp hrel₁ hwalk).bind ?_
    rintro _ sv₂ ⟨⟨B₂, h₂⟩, σ₂, ⟨rfl, he⟩, hrel₂⟩
    rw [he] at hrel₂
    dsimp only
    have h₁₂ : Moved sv sv₂ {d} (B ∪ B₂) := (h₁.trans h₂).mono (by simp) (Finset.Subset.refl _)
    split
    · exact Steady.bind_iff.mpr (get_i_steady h₂.tidy fun p sv₃ B₃ _ _ h₃ _ => .ret ⟨_, h₁₂.trans h₃⟩)
    · refine (ih h₂.tidy hrel₂ (hw.lookup_isInode hd hdir)).mono ?_
      rintro r sv₃ ⟨B₃, h₃⟩
      exact ⟨_, h₁₂.trans h₃⟩

theorem get_super_dir_trail (hc : sv.store.Tidy) (hrel : Rel g sv σ) (hw : WellFormed g σ) (hcur : g.isInode cur) :
    Steady (get_super_dir path cur) sv fun r sv' =>
      ∃ I B, Moved sv sv' I B ∧ (r.1 ≠ ERROR → insert r.1 I ⊆ σ.superTrail path cur) := by
  have hroot : g.isInode ROOTINODE := by
    have := g.inodes_pos
    simp only [Geometry.isInode, ROOTINODE]
    omega
  have hstart := from_root_isInode path hroot hcur
  have hwp : wp g (get_super_dir path cur) σ fun r _ => r = σ.superDir path cur := get_super_dir_spec hw hcur hroot rfl
  have hsteady : Steady (get_super_dir path cur) sv fun _ sv' => ∃ I B, Moved sv sv' I B ∧ I ⊆ σ.superTrail path cur := by
    unfold get_super_dir View.superTrail
    split
    · exact .ret ⟨∅, ∅, .refl hc, by simp⟩
    dsimp only
    split
    case isTrue hidx =>
      refine (path_walk_trail hc hrel hw hstart).bind ?_
      rintro r sv₁ ⟨B, h₁⟩
      split
      · exact .ret ⟨_, B, h₁, Finset.subset_insert _ _⟩
      · exact .ret ⟨_, B, h₁, Finset.subset_insert _ _⟩
    case isFalse => exact .ret ⟨∅, ∅, .refl hc, by simp⟩
  refine (hsteady.and_wp hrel hwp).mono ?_
  rintro _ sv' ⟨⟨I, B, h, hI⟩, _, rfl, _⟩
  refine ⟨I, B, h, fun _ => Finset.insert_subset ?_ hI⟩
  exact Finset.mem_insert_self _ _

end

end Yfs
