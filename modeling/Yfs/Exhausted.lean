import Yfs.Answers
import Yfs.Header

/-! # Running out of inodes and of blocks -/

namespace Yfs

variable {g : Geometry} {σ σ' : FS} {i d cur : Int} {n : Nat} {path name : CStr} {buf : UserBuf}
  {size byte_offset left off : Int}

/-- `i` cannot get another block. -/
def FS.Exhausted (σ : FS) (i : Int) : Prop := σ.b_head = [] ∨ (σ.blocks i : Int) = MAX_BLOCKS

/-- A new entry of `d` needs another block, and there is none. -/
def FS.NoRoom (σ : FS) (d : Int) (name : CStr) : Prop := σ.Full d name ∧ σ.size d % 512 = 0 ∧ σ.Exhausted d

/-- What has to fail for want of an inode or of a block. -/
def Request.Exhausts (σ : FS) : Request → Prop
  | .create (some path) cur => ∃ d name, σ.superDir path cur = (d, name) ∧ σ.isDir d ∧
    (σ.i_head = [] ∧ σ.lookup d name = 0 ∨ σ.NoRoom d name)
  | .link (some old_name) (some new_name) cur => ∃ d name,
    σ.superDir (adj_path_i new_name (adj_path_i old_name cur).2).1 (adj_path_i new_name (adj_path_i old_name cur).2).2 =
      (d, name) ∧ σ.isDir d ∧ σ.NoRoom d name
  | .mkdir (some path) cur => σ.i_head = [] ∨ σ.b_head = [] ∨ ∃ d name,
    σ.superDir (from_root path cur).1 (from_root path cur).2 = (d, name) ∧ d ≠ ERROR ∧ σ.NoRoom d name
  | .write i _ size offset => 0 < size ∧ 512 * (σ.blocks i : Int) < offset + size ∧ σ.Exhausted i
  | _ => False

theorem FS.RoomFor.not_noRoom (h : σ.RoomFor g d name) : ¬ σ.NoRoom d name := by
  rintro ⟨hfull, hsize, hfree | hmax⟩
  · exact (h hfull hsize).free hfree
  · have := (h hfull hsize).index
    rw [MAX_BLOCKS] at hmax
    omega

/-! ## Writes -/

/-- A write that runs to its end has had a block at every index. -/
theorem Writing.has_blocks (h : Writing i buf size byte_offset n left off σ true σ')
    (hs : Writable g σ i buf size byte_offset n left off) (hpos : 0 < left) {m : Nat} (hm : n ≤ m)
    (hend : 512 * (m : Int) < byte_offset + size) : m < 140 ∧ m < σ.blocks i + σ.b_head.length := by
  generalize hr : true = r at h
  induction h with
  | done => omega
  | limit => cases hr
  | stuck => cases hr
  | @chunk n left off σ σ' bytes r _ hn hb hbytes hrest ih =>
    have hround := hs.round hpos hn
    have hput := hround.put hs.wellFormed bytes hb
    have hroom := hput.room
    have hnext := hs.step hpos hn hb hbytes
    have hcopy := get_num_copy_bytes_eq left off
    have hposn := hs.position hpos
    have hoff := hs.offset
    rcases Nat.eq_or_lt_of_le hm with rfl | hlt
    · refine ⟨hn, ?_⟩
      have := hput.next
      omega
    · rw [← hroom]
      exact ih hnext (by omega) hlt hr

theorem Written.reports {ret : Int} (h : Written σ i buf size byte_offset ret σ') (hw : WellFormed g σ)
    (hok : σ.WriteOk g i buf size byte_offset) (hpos : 0 < size) (hgrow : 512 * (σ.blocks i : Int) < byte_offset + size)
    (hex : σ.Exhausted i) : ret = ERROR := by
  cases h with
  | failed => rfl
  | ended h =>
    exfalso
    have h0 := hok.offset
    have hgap := hok.gap hpos
    -- The last chunk needs an index that is not there.
    obtain ⟨hmax, hfree⟩ := h.has_blocks (hok.writable hw) hpos (show (byte_offset / 512).toNat ≤ σ.blocks i by omega) hgrow
    rcases hex with hb | hm
    · rw [hb, List.length_nil] at hfree
      omega
    · rw [MAX_BLOCKS] at hm
      omega

/-! ## Every request -/

theorem Placed.b_head_ne_nil {k : Nat} (hp : Placed σ d name k σ') (hroom : σ.RoomFor g d name) (h : σ'.b_head ≠ []) :
    σ.b_head ≠ [] ∧ ¬ σ.NoRoom d name := by
  refine ⟨?_, hroom.not_noRoom⟩
  cases hp with
  | found => exact h
  | free => exact h
  | new hfull =>
    intro hb
    by_cases hsize : σ.size d % 512 = 0
    · exact (hroom hfull hsize).free hb
    · refine h ?_
      rw [FS.grow, if_neg hsize]
      exact hb

/-- A safe request that does not take 0 for an inode fails when it runs out, and never creates inode 0. -/
theorem Effect.reports {req : Request} {ret : Int} (h : Effect σ req ret σ') (hw : WellFormed g σ) (hsafe : req.Safe g σ)
    (hs : req.SparesHeader σ) (h0 : 0 ∉ σ.i_head) :
    (req.Exhausts σ → ret = ERROR) ∧ ∀ pathname cur, req = .create pathname cur → ret ≠ 0 := by
  cases h with
  | looked hl =>
    refine ⟨fun he => ?_, fun _ _ he => by subst he; cases hl⟩
    cases req <;> first | exact he.elim | cases hl
  | refused => exact ⟨fun _ => rfl, fun _ _ _ => by decide⟩
  | create h =>
    cases h with
    | error => exact ⟨fun _ => rfl, fun _ _ _ => by decide⟩
    | done _ hsup _ hdir h =>
      have hroom := hsafe.2 _ _ hsup hdir
      cases h with
      | taken _ _ hn => exact absurd rfl hn
      | truncated hk hne =>
        refine ⟨?_, fun _ _ _ => hne⟩
        rintro ⟨d', name', hsup', _, h | h⟩
        · obtain ⟨rfl, rfl⟩ := Prod.mk.inj (hsup.symm.trans hsup')
          exact absurd ((lookup_some hk).symm.trans h.2) hne
        · obtain ⟨rfl, rfl⟩ := Prod.mk.inj (hsup.symm.trans hsup')
          exact absurd h hroom.not_noRoom
      | made hp hfree =>
        have hzero := hp.lookup_zero hfree
        have hne := hs _ _ hsup hdir hzero
        refine ⟨?_, fun _ _ _ he => h0 ?_⟩
        · rintro ⟨d', name', hsup', _, h | h⟩
          · exact absurd h.1 hne
          · obtain ⟨rfl, rfl⟩ := Prod.mk.inj (hsup.symm.trans hsup')
            exact absurd h hroom.not_noRoom
        · rw [← he, hp.nextInode]
          exact nextInode_mem hne
      | linked _ _ hn => exact absurd rfl hn
  | write h => exact ⟨fun he => h.reports hw hsafe he.1 he.2.1 he.2.2, fun _ _ he => by cases he⟩
  | link h =>
    refine ⟨?_, fun _ _ he => by cases he⟩
    cases h with
    | error => exact fun _ => rfl
    | done _ _ _ _ hsup _ hdir =>
      rintro ⟨d', name', hsup', _, h⟩
      obtain ⟨rfl, rfl⟩ := Prod.mk.inj (hsup.symm.trans hsup')
      exact absurd h (hsafe.2 _ _ hsup hdir).not_noRoom
  | unlink => exact ⟨fun he => he.elim, fun _ _ he => by cases he⟩
  | mkdir h =>
    refine ⟨?_, fun _ _ he => by cases he⟩
    cases h with
    | error => exact fun _ => rfl
    | done _ hsup hne _ hp hfree =>
      obtain ⟨hb, hroom⟩ := hp.b_head_ne_nil (hsafe.2.1 _ _ hsup hne).2 (hsafe.2.2 _ _ _ _ hsup hp hfree).2.1
      rintro (h | h | ⟨d', name', hsup', _, h⟩)
      · exact absurd h (hs _ _ hsup (hp.lookup_zero hfree))
      · exact absurd h hb
      · obtain ⟨rfl, rfl⟩ := Prod.mk.inj (hsup.symm.trans hsup')
        exact absurd h hroom
  | rmdir => exact ⟨fun he => he.elim, fun _ _ he => by cases he⟩

/-! ## Runs -/

end Yfs
