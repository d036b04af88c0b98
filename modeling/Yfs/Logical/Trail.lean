import Yfs.Logical.Eval
import Yfs.Paths

/-! # The inodes that looking for a name looks up -/

namespace Yfs

variable {g : Geometry} {sv sv' sv₁ : Server} {σ : FS} {i d cur new : Int} {path name : CStr} {T : List Int} {R : Finset Int} {p : Ptr} {l : Logical}

/-! ## Programs in parts -/

section

variable {α β : Type} {q : Prog α} {f : α → Prog β}

theorem lookups_bind : lookups g (q >>= f) l = lookups g q l ++ match eval g q l with
    | none => []
    | some (a, l') => lookups g (f a) l' := by
  induction q generalizing l with
  | ret a => rfl
  | undef => rfl
  | call c k ih =>
    rw [Prog.call_bind, lookups, lookups, eval]
    cases c.apply g l with
    | none => simp
    | some r => simp [ih]

theorem lookups_bind_some {a : α} {l' : Logical} (h : eval g q l = some (a, l')) :
    lookups g (q >>= f) l = lookups g q l ++ lookups g (f a) l' := by rw [lookups_bind, h]

/-- The program looks up no inode. -/
def Prog.Blind (q : Prog α) : Prop := ∀ g l, lookups g q l = []

theorem Prog.Blind.bind (h : q.Blind) (hf : ∀ a, (f a).Blind) : (q >>= f).Blind := by
  intro g l
  rw [lookups_bind, h g l, List.nil_append]
  cases eval g q l with
  | none => rfl
  | some r => exact hf r.1 g r.2

theorem Prog.Blind.ite {c : Prop} [Decidable c] {q q' : Prog α} (h : c → q.Blind) (h' : ¬ c → q'.Blind) : (if c then q else q').Blind := by
  split
  case isTrue hc => exact h hc
  case isFalse hc => exact h' hc

theorem Prog.Blind.ret (a : α) : (Pure.pure a : Prog α).Blind := fun _ _ => rfl

theorem Prog.Blind.undef : (Prog.undef : Prog α).Blind := fun _ _ => rfl

/-- Nothing after `q` looks up an inode. -/
theorem lookups_then (hf : ∀ a, (f a).Blind) : lookups g (q >>= f) l = lookups g q l := by
  rw [lookups_bind]
  cases eval g q l with
  | none => exact List.append_nil _
  | some r => exact (congrArg (lookups g q l ++ ·) (hf r.1 g r.2)).trans (List.append_nil _)

theorem get_i_lookups : lookups g (get_i i) l = [i] := by
  rw [get_i, Prog.cmd, lookups]
  cases (Cmd.get_i i).apply g l <;> rfl

theorem lookups_get_i {f : Ptr → Prog β} (hf : ∀ p, (f p).Blind) : lookups g (get_i i >>= f) l = [i] := by
  rw [lookups_then hf, get_i_lookups]

end
/-! ## Reaching a block -/

theorem get_b_blind {b : Int} : (get_b b).Blind := fun g l => by
  rw [get_b, Prog.cmd, lookups]
  cases (Cmd.get_b b).apply g l <;> rfl

theorem readInode_blind : (readInode p).Blind := fun _ _ => rfl

theorem readBlock_blind : (readBlock p).Blind := fun g l => by
  rw [readBlock, Prog.cmd, lookups]
  cases (Cmd.readBlock p).apply g l <;> rfl

theorem writeBlock_blind {b : Block} : (writeBlock p b).Blind := fun g l => by
  rw [writeBlock, Prog.cmd, lookups]
  cases (Cmd.writeBlock p b).apply g l <;> rfl

theorem modifyBlock_blind {f : Block → Block} : (modifyBlock p f).Blind := readBlock_blind.bind fun _ => writeBlock_blind

theorem modifyInode_blind {f : Inode → Inode} : (modifyInode p f).Blind := fun _ _ => rfl

theorem dirtyBlock_blind {b : Int} : (dirtyBlock b).Blind := fun _ _ => rfl

theorem dirtyInode_blind : (dirtyInode i).Blind := fun _ _ => rfl

theorem get_next_free_bnum_blind : get_next_free_bnum.Blind := by
  unfold get_next_free_bnum
  refine .bind (fun _ _ => rfl) fun v => ?_
  cases v.b_head with
  | nil => exact .ret 0
  | cons b rest => exact .bind (fun _ _ => rfl) fun _ => .ret b

theorem get_nth_b_blind {n : Int} {make : Bool} : (get_nth_b p n make).Blind := by
  unfold get_nth_b
  refine .ite (fun _ => .ret 0) fun _ => readInode_blind.bind fun ino => .ite (fun _ => .ret 0) fun _ => .ite (fun _ => ?_) fun _ => ?_
  · cases directField n with
    | none => exact .undef
    | some f =>
      have hread : (readInode p >>= fun ino => Pure.pure (ino.get f)).Blind := readInode_blind.bind fun ino => .ret (ino.get f)
      exact .ite (fun _ => get_next_free_bnum_blind.bind fun _ => modifyInode_blind.bind fun _ => hread) fun _ => hread
  · refine get_b_blind.bind fun q => ?_
    have hread : (readBlock q >>= fun blk => Pure.pure (blk.pointer (n - NUM_DIRECT).toNat)).Blind :=
      readBlock_blind.bind fun blk => .ret _
    exact .ite (fun _ => get_next_free_bnum_blind.bind fun _ => modifyBlock_blind.bind fun _ => hread) fun _ => hread

/-! ## Directories -/

theorem scan_blocks_blind {fuel : Nat} {w : Walk} : (scan_blocks path p fuel w).Blind := by
  induction fuel generalizing w with
  | zero => exact .undef
  | succ fuel ih =>
    unfold scan_blocks
    refine .ite (fun _ => .ret w) fun _ => get_b_blind.bind fun _ => readInode_blind.bind fun _ => readBlock_blind.bind fun _ => ?_
    exact .ite (fun _ => .ret _) fun _ => get_nth_b_blind.bind fun _ => ih

theorem get_dir_entry_lookups {make : Bool} : lookups g (get_dir_entry path d make) l = [d] := by
  refine lookups_get_i fun p => get_nth_b_blind.bind fun _ => scan_blocks_blind.bind fun w => ?_
  refine .ite (fun _ => .ret _) fun _ => .ite (fun _ => .ret _) fun _ => .ite (fun _ => .ret _) fun _ => readInode_blind.bind fun ino => ?_
  refine .ite (fun _ => ?_) fun _ => ?_
  · exact get_nth_b_blind.bind fun _ => get_b_blind.bind fun _ => modifyInode_blind.bind fun _ => modifyBlock_blind.bind fun _ =>
      dirtyBlock_blind.bind fun _ => dirtyInode_blind.bind fun _ => .ret _
  · refine modifyInode_blind.bind fun _ => dirtyInode_blind.bind fun _ => ?_
    cases w.cur_b with
    | none => exact .undef
    | some r =>
      exact .ite (fun _ => .undef) fun _ => modifyBlock_blind.bind fun _ => dirtyBlock_blind.bind fun _ => dirtyBlock_blind.bind fun _ => .ret _

theorem lookup_part_lookups : lookups g (lookup_part path d) l = [d] := by
  unfold lookup_part
  rw [lookups_then, get_dir_entry_lookups]
  rintro ⟨off, b⟩
  exact .ite (fun _ => .ret 0) fun _ => get_b_blind.bind fun _ => readBlock_blind.bind fun _ => .ret _

theorem get_create_file_lookups (hnew : new ≠ -1) : lookups g (get_create_file name d new) l = [d] := by
  unfold get_create_file
  rw [lookups_then, get_dir_entry_lookups]
  rintro ⟨off, b⟩
  refine get_b_blind.bind fun q => readBlock_blind.bind fun blk => .ite (fun _ => ?_) fun _ => ?_
  · rw [if_pos hnew]
    exact .ret ERROR
  · unfold make_file
    rw [if_neg hnew]
    exact (modifyBlock_blind.bind fun _ => modifyBlock_blind.bind fun _ => .ret new).bind fun _ => dirtyBlock_blind.bind fun _ => .ret _

/-! ## Paths -/

section

variable (hw : WellFormed g σ) (hr : InRange g σ)
include hw hr

theorem path_walk_lookups {fuel : Nat} (hd : g.isInode d) : (lookups g (path_walk fuel path d) σ.logical).toFinset = σ.trail fuel path d := by
  induction fuel generalizing path d with
  | zero => rfl
  | succ fuel ih =>
    have hget : eval g (get_i d) σ.logical = some (⟨d, 0⟩, σ.logical) := eval_get_i hd
    unfold path_walk View.trail
    rw [lookups_bind_some hget, get_i_lookups, lookups_bind_some eval_readInode, readInode_blind g _, List.nil_append, List.singleton_append,
      List.toFinset_cons]
    dsimp only
    rw [FS.logical_inode]
    split
    case isFalse => rfl
    case isTrue hdir =>
      have ht : twp g (lookup_part path d) σ fun _ _ => True := lookup_part_total hd (hw.mapped d hd) hr
      have hspec : wp g (lookup_part path d) σ fun r σ' => r = σ.lookup d path ∧ σ' = σ := lookup_part_spec hw hd ⟨rfl, rfl⟩
      obtain ⟨_, σ', he, rfl, rfl⟩ := eval_spec ht hspec
      rw [lookups_bind_some he, lookup_part_lookups, List.singleton_append, List.toFinset_cons, Finset.insert_idem]
      split
      · rw [lookups_get_i fun _ => .ret _]
        rfl
      · rw [ih (hw.lookup_isInode hd hdir)]

theorem get_super_dir_lookups (hcur : g.isInode cur) (hlen : path.length < MAXPATHNAMELEN) :
    insert (σ.superDir path cur).1 (lookups g (get_super_dir path cur) σ.logical).toFinset = σ.superTrail path cur := by
  have hstart := from_root_isInode path g.isInode_root hcur
  unfold get_super_dir View.superTrail
  rw [if_neg (by omega)]
  dsimp only
  congr 1
  by_cases hidx : last_slash (from_root path cur).1 0 0 = 0
  · rw [if_pos hidx, if_neg (not_not.mpr hidx)]
    rfl
  · rw [if_neg hidx, if_pos hidx, lookups_then, get_path_i_num, path_walk_lookups hw hr hstart]
    exact fun i => .ite (fun _ => .ret _) fun _ => .ret _

/-- What `handle_create` looks up where it makes an entry for an old inode. -/
theorem handle_create_lookups (hcur : g.isInode cur) (hpos : 0 < cur) (hvalid : isPathnameValid path = true) (hlen : path.length < MAXPATHNAMELEN)
    (hnew : new ≠ -1) (hsup : σ.superDir path cur = (d, name)) (hd : g.isInode d) (hdir : σ.isDir d) :
    (lookups g (handle_create (some path) cur new) σ.logical).toFinset = σ.superTrail path cur := by
  have ht : twp g (get_super_dir path cur) σ fun _ _ => True := get_super_dir_total hw hr hcur
  have hspec : wp g (get_super_dir path cur) σ fun r σ' => r = σ.superDir path cur ∧ σ' = σ :=
    get_super_dir_spec hw hcur g.isInode_root ⟨rfl, rfl⟩
  obtain ⟨_, σ', he, rfl, rfl⟩ := eval_spec ht hspec
  have hget : eval g (get_i d) σ'.logical = some (⟨d, 0⟩, σ'.logical) := eval_get_i hd
  have hne : d ≠ ERROR := by
    have := hd.1
    rw [ERROR]
    omega
  have htype : (σ'.inode d).type = INODE_DIRECTORY := hdir
  have hend : lookups g (get_create_file name d new >>= fun i_num => if i_num = ERROR then Pure.pure ERROR else Pure.pure i_num) σ'.logical = [d] := by
    rw [lookups_then, get_create_file_lookups hnew]
    exact fun i => .ite (fun _ => .ret _) fun _ => .ret _
  rw [← get_super_dir_lookups hw hr hcur hlen]
  unfold handle_create
  dsimp only
  rw [if_neg (by simp [hvalid]; omega), lookups_bind_some he, hsup]
  dsimp only
  rw [if_neg hne, lookups_bind_some hget, get_i_lookups, lookups_bind_some eval_readInode, readInode_blind g _, List.nil_append]
  dsimp only
  rw [FS.logical_inode, if_neg (not_not.mpr htype), hend]
  ext x
  simp

end

/-! ## How few -/

theorem lasts_iff (hi : i ∉ T) (hR : R.card < INODE_CACHESIZE) : Lasts i R T ↔ (R ∪ T.toFinset).card < INODE_CACHESIZE := by
  induction T generalizing R with
  | nil => simpa [Lasts] using hR
  | cons j T ih =>
    rw [List.mem_cons, not_or] at hi
    obtain ⟨hj, hT⟩ := hi
    rw [Lasts, if_neg (Ne.symm hj), List.toFinset_cons, Finset.union_insert, ← Finset.insert_union]
    constructor
    · rintro ⟨hc, hl⟩
      exact (ih hT hc).mp hl
    · intro hc
      have hle : (insert j R).card < INODE_CACHESIZE := lt_of_le_of_lt (Finset.card_le_card Finset.subset_union_left) hc
      exact ⟨hle, (ih hT hle).mpr hc⟩

/-- A walk that arrives at a directory goes through directories. -/
theorem trail_isDir {v : View} {fuel : Nat} (h0 : v.walk fuel path d ≠ 0) (hdir : v.isDir (v.walk fuel path d)) :
    ∀ e ∈ v.trail fuel path d, v.isDir e := by
  induction fuel generalizing path d with
  | zero => exact absurd rfl h0
  | succ fuel ih =>
    rw [View.walk] at h0 hdir
    rw [View.trail]
    by_cases hd : (v.inode d).type = INODE_DIRECTORY
    · rw [if_pos hd] at h0 hdir ⊢
      intro e he
      rcases Finset.mem_insert.mp he with rfl | he
      · exact hd
      · by_cases hlast : get_next_path_part path = []
        · rw [if_pos hlast] at h0 hdir he
          rwa [Finset.mem_singleton.mp he]
        · rw [if_neg hlast] at h0 hdir he
          exact ih h0 hdir e he
    · rw [if_neg hd] at h0
      exact absurd rfl h0

theorem superTrail_isDir {v : View} (hsup : v.superDir path cur = (d, name)) (hne : d ≠ ERROR) (hdir : v.isDir d) :
    ∀ e ∈ v.superTrail path cur, v.isDir e := by
  intro e he
  rw [View.superTrail, hsup] at he
  rcases Finset.mem_insert.mp he with rfl | hm
  · exact hdir
  rw [View.superDir] at hsup
  split at hsup
  case isTrue => exact absurd (Prod.mk.inj hsup).1.symm hne
  case isFalse =>
    dsimp only at hsup
    split at hsup
    case isTrue hidx =>
      rw [if_pos hidx] at hm
      cases hm
    case isFalse hidx =>
      rw [if_neg hidx] at hm
      split at hsup
      case isTrue => exact absurd (Prod.mk.inj hsup).1.symm hne
      case isFalse h0 =>
        obtain ⟨rfl, _⟩ := Prod.mk.inj hsup
        exact trail_isDir h0 hdir e hm

/-- The lookups that make an entry for an old file are few if few directories are on the way. -/
theorem handle_create_lasts (hw : WellFormed g σ) (hr : InRange g σ) (hcur : g.isInode cur) (hpos : 0 < cur)
    (hvalid : isPathnameValid path = true) (hlen : path.length < MAXPATHNAMELEN) (hi : i ≠ -1) (hfile : ¬ σ.isDir i)
    (hsup : σ.superDir path cur = (d, name)) (hd : g.isInode d) (hdir : σ.isDir d) :
    Lasts i ∅ (lookups g (handle_create (some path) cur i) σ.logical) ↔ (σ.superTrail path cur).card < INODE_CACHESIZE := by
  have hlook := handle_create_lookups hw hr hcur hpos hvalid hlen hi hsup hd hdir
  have hne : d ≠ ERROR := by
    have := hd.1
    rw [ERROR]
    omega
  rw [lasts_iff, Finset.empty_union, hlook]
  · intro hm
    rw [← List.mem_toFinset, hlook] at hm
    exact hfile (superTrail_isDir hsup hne hdir i hm)
  · decide

end Yfs
