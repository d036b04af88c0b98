import Yfs.Steady

/-! # The file programs use no stale pointer -/

namespace Yfs

variable {sv : Server} {p : Ptr} {R : Finset Int} {b i n x : Int}

theorem modifyInode_steady {f : Inode → Inode} (hc : sv.store.Tidy) (hp : Live sv.store.cache_i_queue p R) :
    Steady (modifyInode p f) sv fun _ sv' => Moved sv sv' ∅ ∅ := by
  unfold modifyInode
  exact Steady.bind_iff.mpr (readInode_steady hc hp fun _ _ => writeInode_steady hc hp fun _ h => h)

theorem modifyBlock_steady {f : Block → Block} (hc : sv.store.Tidy) (hp : Live sv.store.cache_b_queue p R) :
    Steady (modifyBlock p f) sv fun _ sv' => Moved sv sv' ∅ ∅ := by
  unfold modifyBlock
  exact Steady.bind_iff.mpr (readBlock_steady hc hp fun _ => writeBlock_steady hc hp fun _ h => h)

theorem get_next_free_bnum_steady (hc : sv.store.Tidy) :
    Steady get_next_free_bnum sv fun _ sv' => Moved sv sv' ∅ ∅ := by
  unfold get_next_free_bnum
  refine Steady.bind_iff.mpr (globals_steady ?_)
  cases sv.b_head with
  | nil => exact .ret (.refl hc)
  | cons b rest => exact Steady.bind_iff.mpr (setGlobals_steady (.ret (.setGlobals hc _)))

theorem free_block_steady (hc : sv.store.Tidy) : Steady (free_block b) sv fun _ sv' =>
    Moved sv sv' ∅ ∅ ∧ sv'.store.cache_i_queue = sv.store.cache_i_queue := by
  unfold free_block
  exact Steady.bind_iff.mpr (globals_steady (setGlobals_steady ⟨.setGlobals hc _, rfl⟩))

theorem add_free_i_list_steady (hc : sv.store.Tidy) : Steady (add_free_i_list i) sv fun _ sv' => Moved sv sv' ∅ ∅ := by
  unfold add_free_i_list
  exact Steady.bind_iff.mpr (globals_steady (setGlobals_steady (.setGlobals hc _)))

/-- `get_next_inum_free` looks up the inode that it takes. -/
theorem get_next_inum_free_steady (hc : sv.store.Tidy) : Steady get_next_inum_free sv fun _ sv' =>
    ∃ I B : Finset Int, B.card ≤ 2 ∧ Moved sv sv' I B := by
  unfold get_next_inum_free
  refine Steady.bind_iff.mpr (globals_steady ?_)
  cases sv.i_head with
  | nil => exact .ret ⟨∅, ∅, by simp, .refl hc⟩
  | cons i rest =>
    refine Steady.bind_iff.mpr (get_i_steady hc fun ptr sv₁ B ⟨hnum, _⟩ hB h₁ hp => ?_)
    refine (modifyInode_steady h₁.tidy hp).bind fun _ sv₂ h₂ => ?_
    refine Steady.bind_iff.mpr (dirtyInode_steady h₂.tidy (h₂.live_i hp) hnum fun sv₃ h₃ => ?_)
    exact Steady.bind_iff.mpr (setGlobals_steady (.ret ⟨_, B, hB, ((h₁.next h₂).next h₃).next (.setGlobals h₃.tidy _)⟩))

/-! ## Block pointers -/

/-- The indirect block of the inode behind `p`. -/
def PointsTo (sv : Server) (p : Ptr) (x : Int) : Prop :=
  ∀ item, deref sv.store.cache_i_queue p = some item → item.data.indirect = x

theorem exists_pointsTo (sv : Server) (p : Ptr) : ∃ x, PointsTo sv p x := by
  unfold PointsTo
  cases deref sv.store.cache_i_queue p with
  | none => exact ⟨0, fun item h => by cases h⟩
  | some item =>
    refine ⟨item.data.indirect, fun item' h => ?_⟩
    obtain rfl := Option.some.inj h
    rfl

/-- It touches the indirect block, and the inode only when it adds a block. -/
theorem get_nth_b_steady {a : Bool} (hc : sv.store.Tidy) (hp : Live sv.store.cache_i_queue p R) (hx : PointsTo sv p x) :
    Steady (get_nth_b p n a) sv fun _ sv' =>
      Moved sv sv' ∅ {x} ∧ (a = false → sv'.store.cache_i_queue = sv.store.cache_i_queue) := by
  unfold get_nth_b
  split
  · exact .ret ⟨.refl hc, fun _ => rfl⟩
  refine Steady.bind_iff.mpr (readInode_steady hc hp fun item hitem => ?_)
  have hind : item.data.indirect = x := hx item hitem
  dsimp only
  split
  · exact .ret ⟨.refl hc, fun _ => rfl⟩
  case isFalse hlook =>
  split
  · split
    · exact .undef
    split
    case isTrue hfinish =>
      have ha : ¬ a = false := fun ha => hlook ⟨hfinish, ha⟩
      refine (get_next_free_bnum_steady hc).bind fun b sv₁ h₁ => (modifyInode_steady h₁.tidy (h₁.live_i hp)).bind fun _ sv₂ h₂ => ?_
      refine Steady.bind_iff.mpr (readInode_steady h₂.tidy (h₂.live_i (h₁.live_i hp)) fun _ _ => .ret ?_)
      exact ⟨(h₁.next h₂).mono (by simp) (by simp), fun h => absurd h ha⟩
    · exact Steady.bind_iff.mpr (readInode_steady hc hp fun _ _ => .ret ⟨.refl hc, fun _ => rfl⟩)
  · refine Steady.bind_iff.mpr (get_b_steady hc fun ptr sv₁ _ h₁ hqueue hb => ?_)
    rw [hind] at h₁
    split
    case isTrue hfinish =>
      have ha : ¬ a = false := fun ha => hlook ⟨hfinish, ha⟩
      refine (get_next_free_bnum_steady h₁.tidy).bind fun b sv₂ h₂ =>
        (modifyBlock_steady h₂.tidy (h₂.live_b_empty hb)).bind fun _ sv₃ h₃ => ?_
      refine Steady.bind_iff.mpr (readBlock_steady h₃.tidy (h₃.live_b_empty (h₂.live_b_empty hb)) fun _ => .ret ?_)
      exact ⟨(h₁.next h₂).next h₃, fun h => absurd h ha⟩
    · exact Steady.bind_iff.mpr (readBlock_steady h₁.tidy hb fun _ => .ret ⟨h₁, fun _ => hqueue⟩)

/-! ## Freeing -/

theorem free_blocks_steady {fuel : Nat} (hc : sv.store.Tidy) (hp : Live sv.store.cache_i_queue p R) (hx : PointsTo sv p x) :
    Steady (free_blocks p fuel n) sv fun _ sv' => Moved sv sv' ∅ {x} := by
  induction fuel generalizing sv n with
  | zero => exact .undef
  | succ fuel ih =>
    unfold free_blocks
    refine (get_nth_b_steady hc hp hx).bind ?_
    rintro b sv₁ ⟨h₁, hq₁⟩
    split
    · exact .ret h₁
    · refine (free_block_steady h₁.tidy).bind ?_
      rintro _ sv₂ ⟨h₂, hq₂⟩
      have hx₂ : PointsTo sv₂ p x := by
        rw [PointsTo, hq₂, hq₁ rfl]
        exact hx
      refine (ih h₂.tidy (h₂.live_i (h₁.live_i hp)) hx₂).mono fun _ sv₃ h₃ => ?_
      exact ((h₁.next h₂).trans h₃).mono (by simp) (by simp)

theorem clear_file_steady (hc : sv.store.Tidy) (hp : Live sv.store.cache_i_queue p R) :
    Steady (clear_file p) sv fun _ sv' => ∃ x, Moved sv sv' ∅ {x} := by
  obtain ⟨x, hx⟩ := exists_pointsTo sv p
  unfold clear_file
  refine (free_blocks_steady hc hp hx).bind fun _ sv₁ h₁ => ?_
  exact (modifyInode_steady h₁.tidy (h₁.live_i hp)).mono fun _ sv₂ h₂ => ⟨x, h₁.next h₂⟩

theorem zero_file_steady (hc : sv.store.Tidy) :
    Steady (zero_file i) sv fun _ sv' => ∃ B : Finset Int, B.card ≤ 3 ∧ Moved sv sv' {i} B := by
  unfold zero_file
  refine Steady.bind_iff.mpr (get_i_steady hc fun ptr sv₁ B ⟨hnum, _⟩ hB h₁ hp => ?_)
  refine (clear_file_steady h₁.tidy hp).bind ?_
  rintro _ sv₂ ⟨x, h₂⟩
  refine dirtyInode_steady h₂.tidy (h₂.live_i hp) hnum fun sv₃ h₃ => ⟨B ∪ {x}, ?_, ?_⟩
  · have := Finset.card_union_le B {x}
    rw [Finset.card_singleton] at this
    omega
  · exact ((h₁.trans h₂).next h₃).mono (by simp) (by simp)

/-! ## Reading and writing -/

section

variable {buf : UserBuf} {size byte_offset left off num ret : Int} {fuel : Nat}

theorem read_loop_steady {copied : List UInt8} (hc : sv.store.Tidy) (hp : Live sv.store.cache_i_queue p R) :
    Steady (read_loop p buf ret fuel n left off num copied) sv fun _ _ => True := by
  induction fuel generalizing sv n left off num copied with
  | zero => exact .undef
  | succ fuel ih =>
    obtain ⟨x, hx⟩ := exists_pointsTo sv p
    unfold read_loop
    split
    · exact .ret trivial
    refine (get_nth_b_steady hc hp hx).bind ?_
    rintro b sv₁ ⟨h₁, _⟩
    split
    · exact .ret trivial
    refine Steady.bind_iff.mpr (get_b_steady h₁.tidy fun ptr sv₂ _ h₂ _ hb => ?_)
    dsimp only
    generalize (if left < num then left else num) = chunk
    split
    · exact .undef
    split
    · exact .ret trivial
    · exact Steady.bind_iff.mpr (readBlock_steady h₂.tidy hb fun _ => ih h₂.tidy (h₂.live_i (h₁.live_i hp)))

theorem handle_read_steady (hc : sv.store.Tidy) :
    Steady (handle_read i buf size byte_offset) sv fun _ _ => True := by
  unfold handle_read
  split
  · exact .ret trivial
  refine Steady.bind_iff.mpr (get_i_steady hc fun ptr sv₁ B _ _ h₁ hp => ?_)
  refine Steady.bind_iff.mpr (readInode_steady h₁.tidy hp fun item _ => ?_)
  dsimp only
  split
  · exact .ret trivial
  · exact read_loop_steady h₁.tidy hp

theorem write_loop_steady (hc : sv.store.Tidy) (hp : Live sv.store.cache_i_queue p R) :
    Steady (write_loop p buf size byte_offset fuel n left off) sv fun _ sv' => ∃ B, Moved sv sv' ∅ B := by
  induction fuel generalizing sv n left off with
  | zero => exact .undef
  | succ fuel ih =>
    obtain ⟨x, hx⟩ := exists_pointsTo sv p
    unfold write_loop
    split
    · exact .ret ⟨∅, .refl hc⟩
    refine (get_nth_b_steady hc hp hx).bind ?_
    rintro b sv₁ ⟨h₁, _⟩
    split
    · exact .ret ⟨_, h₁⟩
    refine Steady.bind_iff.mpr (get_b_steady h₁.tidy fun ptr sv₂ hnum h₂ _ hb => ?_)
    have hp₂ := h₂.live_i (h₁.live_i hp)
    have h₁₂ : Moved sv sv₂ ∅ ({x} ∪ {b}) := (h₁.trans h₂).mono (by simp) (Finset.Subset.refl _)
    dsimp only
    split
    · exact .undef
    split
    · exact .ret ⟨_, h₁₂⟩
    · refine (modifyBlock_steady h₂.tidy hb).bind fun _ sv₃ h₃ => ?_
      refine Steady.bind_iff.mpr (dirtyBlock_steady h₃.tidy (h₃.live_b_empty hb) hnum fun sv₄ h₄ => ?_)
      refine (modifyInode_steady h₄.tidy (h₄.live_i (h₃.live_i hp₂))).bind fun _ sv₅ h₅ => ?_
      refine (ih h₅.tidy (h₅.live_i (h₄.live_i (h₃.live_i hp₂)))).mono ?_
      rintro _ sv₆ ⟨B, h₆⟩
      exact ⟨_, ((((h₁₂.next h₃).next h₄).next h₅).trans h₆).mono (by simp) (Finset.Subset.refl _)⟩

theorem handle_write_steady (hc : sv.store.Tidy) :
    Steady (handle_write i buf size byte_offset) sv fun _ _ => True := by
  unfold handle_write
  refine Steady.bind_iff.mpr (get_i_steady hc fun ptr sv₁ B ⟨hnum, _⟩ _ h₁ hp => ?_)
  refine Steady.bind_iff.mpr (readInode_steady h₁.tidy hp fun item _ => ?_)
  split
  · exact .ret trivial
  refine (write_loop_steady h₁.tidy hp).bind ?_
  rintro done sv₂ ⟨B', h₂⟩
  split
  · exact .ret trivial
  · exact Steady.bind_iff.mpr (dirtyInode_steady h₂.tidy (h₂.live_i hp) hnum fun _ _ => .ret trivial)

end

theorem handle_seek_steady {offset whence cur_pos : Int} (hc : sv.store.Tidy) :
    Steady (handle_seek i offset whence cur_pos) sv fun _ _ => True := by
  unfold handle_seek
  refine Steady.bind_iff.mpr (get_i_steady hc fun ptr sv₁ B _ _ h₁ hp => ?_)
  refine Steady.bind_iff.mpr (readInode_steady h₁.tidy hp fun item _ => ?_)
  dsimp only
  repeat' (first | split | dsimp only)
  all_goals exact Steady.ret trivial

end Yfs
