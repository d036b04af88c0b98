import Yfs.Total.Dirs
import Yfs.Requests.Step

/-! # The handlers return -/

namespace Yfs

variable {g : Geometry} {σ : FS} {d i cur new : Int} {k off id : Nat} {path name : CStr} {block : Ptr}

/-! ## Creating -/

theorem get_next_inum_free_total (hi : g.isInode σ.nextInode) : twp g get_next_inum_free σ fun _ _ => True := by
  unfold get_next_inum_free
  simp only [twp_bind, twp_globals]
  rw [FS.nextInode] at hi
  cases h : σ.i_head with
  | nil => simp
  | cons i rest =>
    rw [h, List.headD_cons] at hi
    simp [modifyInode, hi]

theorem make_file_total (hi : g.isInode σ.nextInode) : twp g (make_file name block off new) σ fun _ _ => True := by
  unfold make_file
  simp only [twp_bind, modifyBlock, twp_readBlock, twp_writeBlock, twp_ite, twp_get_i, modifyInode, twp_readInode,
    twp_writeInode, twp_dirtyInode, twp_ret, Prog.pure_eq, implies_true, and_true]
  intro _
  have hpop : wp g get_next_inum_free (σ.setBlock block.num ((σ.block block.num).store (off + 2) (strncpy DIRNAMELEN name)))
      fun i _ => i = σ.nextInode := get_next_inum_free_spec hi rfl
  refine twp_mono ?_ (twp_and (get_next_inum_free_total hi) hpop)
  rintro _ σ' ⟨_, rfl⟩
  exact hi

/-- The block of a slot is on the disk. -/
theorem Placed.inRange {σ' : FS} (hp : Placed σ d name k σ') (hw : WellFormed g σ) (hd : g.isInode d) (hdir : σ.isDir d)
    (hroom : σ.RoomFor g d name) (hr : InRange g σ) : 0 ≤ σ'.slotBlock d k ∧ σ'.slotBlock d k < g.sectors := by
  have hw' := hp.wellFormed hw hd hdir hroom
  exact (hr.draws (hp.draws hw hd hdir hroom)).pointer (hw'.mapped d hd) hd (covers_of_slot (hp.lt hw hd hdir hroom))

theorem get_create_file_total (hw : WellFormed g σ) (hr : InRange g σ) (hd : g.isInode d) (hdir : σ.isDir d)
    (hroom : σ.RoomFor g d name) : twp g (get_create_file name d new) σ fun _ _ => True := by
  have hplace : wp g (get_dir_entry name d true) σ fun r σ' => ∃ k, Placed σ d name k σ' ∧
      r = ((slotOffset k : Int), σ'.slotBlock d k) := room_spec hw hd hdir hroom fun k σ' hp => ⟨k, hp, rfl⟩
  unfold get_create_file
  refine twp_then (room_total hw hd hdir hr hroom) hplace ?_
  rintro _ σ' ⟨k, hp, rfl⟩
  have hw' := hp.wellFormed hw hd hdir hroom
  have hr' := hr.draws (hp.draws hw hd hdir hroom)
  have hlt := hp.lt hw hd hdir hroom
  simp only [twp_bind, twp_get_b, twp_readBlock, twp_ite, twp_ret, Prog.pure_eq, twp_dirtyBlock, Int.toNat_natCast,
    implies_true, true_and]
  refine ⟨hp.inRange hw hd hdir hroom hr, fun id => ⟨fun h0 hn => ?_, fun h0 => make_file_total hw'.nextInode⟩⟩
  have hi := hw'.entries d k hd (hp.isDir hdir) hlt
  exact zero_file_total hi (hw'.mapped _ hi) fun _ => hr'.indirect hi

theorem handle_create_total (hw : WellFormed g σ) (hr : InRange g σ) (hcur : g.isInode cur)
    (hroom : ∀ d name, σ.superDir path cur = (d, name) → d ≠ ERROR → σ.isDir d → σ.RoomFor g d name) :
    twp g (handle_create (some path) cur new) σ fun _ _ => True := by
  unfold handle_create
  simp only [twp_ite, twp_ret, Prog.pure_eq]
  refine ⟨fun _ => trivial, fun _ => ?_⟩
  have hfind : wp g (get_super_dir path cur) σ fun r σ' => r = σ.superDir path cur ∧ σ' = σ :=
    get_super_dir_spec hw hcur g.isInode_root ⟨rfl, rfl⟩
  refine twp_then (get_super_dir_total hw hr hcur) hfind ?_
  rintro ⟨d, name⟩ σ' ⟨hsup, rfl⟩
  simp only [twp_ite, twp_ret, twp_bind, twp_get_i, twp_readInode]
  refine ⟨fun _ => trivial, fun hne => ?_⟩
  have hd := (hw.superDir_isInode g.isInode_root hcur hsup.symm).resolve_left hne
  simp only [implies_true, and_self, true_and]
  refine ⟨hd, fun _ hdir => ?_⟩
  have hdir : σ'.isDir d := not_not.mp hdir
  exact get_create_file_total hw hr hd hdir (hroom d name hsup.symm hne hdir)

/-! ## Linking and unlinking -/

theorem handle_link_total {old_name new_name : CStr} (hw : WellFormed g σ) (hr : InRange g σ) (hcur : g.isInode cur)
    (hroom : ∀ d name, σ.superDir (adj_path_i new_name (adj_path_i old_name cur).2).1 (adj_path_i new_name (adj_path_i old_name cur).2).2 =
      (d, name) → d ≠ ERROR → σ.isDir d → σ.RoomFor g d name) :
    twp g (handle_link (some old_name) (some new_name) cur) σ fun _ _ => True := by
  have hold := adj_path_i_isInode old_name g.isInode_root hcur
  have hnew := adj_path_i_isInode new_name g.isInode_root hold
  unfold handle_link
  simp only [twp_ite, twp_ret, Prog.pure_eq]
  refine ⟨fun _ => trivial, fun _ => ?_⟩
  have hfind : wp g (get_path_i_num (adj_path_i old_name cur).1 (adj_path_i old_name cur).2) σ fun r σ' =>
      r = σ.resolve (adj_path_i old_name cur).1 (adj_path_i old_name cur).2 ∧ σ' = σ := get_path_i_num_spec hw hold ⟨rfl, rfl⟩
  refine twp_then (get_path_i_num_total hw hr hold) hfind ?_
  rintro _ σ' ⟨rfl, rfl⟩
  simp only [twp_ite, twp_ret, twp_bind, twp_get_i, twp_readInode, modifyInode, twp_writeInode, twp_dirtyInode,
    implies_true, true_and, and_self]
  exact ⟨hw.resolve_isInode hold, fun _ _ => handle_create_total hw hr hnew hroom⟩

theorem handle_unlink_total (hw : WellFormed g σ) (hr : InRange g σ) (hcur : g.isInode cur)
    (hparent : 0 < cur → (σ.superDir path cur).1 ≠ ERROR) : twp g (handle_unlink (some path) cur) σ fun _ _ => True := by
  unfold handle_unlink
  simp only [twp_ite, twp_ret, Prog.pure_eq]
  refine ⟨fun _ => trivial, fun hpos => ?_⟩
  have hfind : wp g (get_super_dir path cur) σ fun r σ' => r = σ.superDir path cur ∧ σ' = σ :=
    get_super_dir_spec hw hcur g.isInode_root ⟨rfl, rfl⟩
  refine twp_then (get_super_dir_total hw hr hcur) hfind ?_
  rintro ⟨d, name⟩ σ' ⟨hsup, rfl⟩
  have hne : d ≠ ERROR := by
    have := hparent (Int.not_le.mp hpos)
    rwa [← hsup] at this
  have hd := (hw.superDir_isInode g.isInode_root hcur hsup.symm).resolve_left hne
  have hm := hw.mapped d hd
  simp only [twp_bind, twp_get_i, twp_readInode, twp_ite, twp_ret]
  refine ⟨hd, fun _ => ⟨fun _ => trivial, fun hdir => ?_⟩⟩
  have hdir : σ'.isDir d := not_not.mp hdir
  have hentry : wp g (get_dir_entry name d false) σ' fun r τ => τ = σ' ∧
      (r.1 = -1 ∨ ∃ k, σ'.findSlot d name = some k ∧ r = ((slotOffset k : Int), σ'.slotBlock d k)) :=
    get_dir_entry_spec hd hm (fun k hk => ⟨rfl, .inr ⟨k, hk, rfl⟩⟩) fun _ => ⟨rfl, .inl rfl⟩
  refine twp_mono ?_ (twp_and (get_dir_entry_total hd hm hr) hentry)
  rintro r τ ⟨_, rfl, hfound⟩
  simp only [twp_bind, twp_get_b, twp_readBlock, modifyInode, twp_readInode, twp_writeInode,
    twp_dirtyInode, modifyBlock, twp_writeBlock, twp_dirtyBlock, implies_true, and_true, true_and]
  intro hoff
  obtain ⟨k, hk, rfl⟩ := hfound.resolve_left hoff
  have hlt := findSlot_lt hk
  have hi : g.isInode (τ.slotInum d k) := hw.entries d k hd hdir hlt
  refine ⟨hr.pointer hm hd (covers_of_slot hlt), fun _ => ⟨by rw [Int.toNat_natCast]; exact hi, fun _ _ => ?_⟩⟩
  rw [Int.toNat_natCast, Int.sub_eq_add_neg]
  have hind : (τ.addLinks (τ.slotInum d k) (-1)).indirect (τ.slotInum d k) = τ.indirect (τ.slotInum d k) := by simp [FS.addLinks]
  exact clear_file_total (addLinks_mapped (hw.mapped _ hi)) fun _ => hind ▸ hr.indirect hi

/-! ## Making and removing directories -/

theorem tableBlock_inRange (hi : g.isInode i) : 0 ≤ tableBlock i ∧ tableBlock i < g.sectors := by
  have := Geometry.isTable_tableBlock hi
  have := g.table_fits
  simp only [Geometry.isTable] at *
  omega

/-- An entry that is there is refused, whatever it is in. -/
theorem handle_mkdir_taken_total (hw : WellFormed g σ) (hr : InRange g σ) (hcur : g.isInode cur)
    (hsup : σ.superDir (from_root path cur).1 (from_root path cur).2 = (d, name)) (hne : d ≠ ERROR) (hlive : σ.lookup d name ≠ 0) :
    twp g (handle_mkdir (some path) cur) σ fun _ _ => True := by
  have hstart := from_root_isInode path g.isInode_root hcur
  have hd := (hw.superDir_isInode g.isInode_root hstart hsup).resolve_left hne
  have hm := hw.mapped d hd
  obtain ⟨k, hk⟩ : ∃ k, σ.findSlot d name = some k := Option.ne_none_iff_exists'.mp fun hnone => hlive (lookup_none hnone)
  unfold handle_mkdir
  simp only [twp_ite, twp_ret, Prog.pure_eq]
  refine ⟨fun _ => trivial, fun _ => ?_⟩
  have hfind : wp g (get_super_dir (from_root path cur).1 (from_root path cur).2) σ fun r σ' => r = (d, name) ∧ σ' = σ :=
    get_super_dir_spec hw hstart g.isInode_root ⟨hsup, rfl⟩
  refine twp_then (get_super_dir_total hw hr hstart) hfind ?_
  rintro _ σ' ⟨rfl, rfl⟩
  have hplace : wp g (get_dir_entry name d true) σ' fun r τ => r = ((slotOffset k : Int), σ'.slotBlock d k) ∧ τ = σ' :=
    get_dir_entry_any_spec hw hd (fun hfull => absurd (hk.symm.trans hfull.1) (by simp))
      (fun l hl => by rw [Option.some.inj (hk.symm.trans hl)]; exact ⟨rfl, rfl⟩) (fun hnone => absurd (hk.symm.trans hnone) (by simp))
      fun hfull => absurd (hk.symm.trans hfull.1) (by simp)
  refine twp_then (get_dir_entry_found_total hd hm hr hk) hplace ?_
  rintro _ τ ⟨rfl, rfl⟩
  simp only [twp_bind, twp_get_b, twp_readBlock, twp_ite, twp_ret, Int.toNat_natCast]
  exact ⟨hr.pointer hm hd (covers_of_slot (findSlot_lt hk)), fun _ => ⟨fun _ => trivial, fun h0 => absurd (lookup_some hk ▸ not_not.mp h0) hlive⟩⟩

theorem handle_mkdir_total (hw : WellFormed g σ) (hr : InRange g σ) (hcur : g.isInode cur)
    (hdir : σ.DirAt g (from_root path cur).1 (from_root path cur).2)
    (hnew : σ.NewDirAt g (from_root path cur).1 (from_root path cur).2)
    (hparent : 0 < cur → (σ.superDir (from_root path cur).1 (from_root path cur).2).1 ≠ ERROR) :
    twp g (handle_mkdir (some path) cur) σ fun _ _ => True := by
  have hstart := from_root_isInode path g.isInode_root hcur
  unfold handle_mkdir
  simp only [twp_ite, twp_ret, Prog.pure_eq]
  refine ⟨fun _ => trivial, fun hpos => ?_⟩
  have hfind : wp g (get_super_dir (from_root path cur).1 (from_root path cur).2) σ fun r σ' =>
      r = σ.superDir (from_root path cur).1 (from_root path cur).2 ∧ σ' = σ :=
    get_super_dir_spec hw hstart g.isInode_root ⟨rfl, rfl⟩
  refine twp_then (get_super_dir_total hw hr hstart) hfind ?_
  rintro ⟨d, name⟩ σ' ⟨hsup, rfl⟩
  have hne : d ≠ ERROR := by
    have := hparent (Int.not_le.mp hpos)
    rwa [← hsup] at this
  have hd := (hw.superDir_isInode g.isInode_root hstart hsup.symm).resolve_left hne
  obtain ⟨hdir, hroom⟩ := hdir d name hsup.symm hne
  have hplace : wp g (get_dir_entry name d true) σ' fun r τ => ∃ k, Placed σ' d name k τ ∧
      r = ((slotOffset k : Int), τ.slotBlock d k) := room_spec hw hd hdir hroom fun k τ hp => ⟨k, hp, rfl⟩
  refine twp_then (room_total hw hd hdir hr hroom) hplace ?_
  rintro _ τ ⟨k, hp, rfl⟩
  have hw₁ := hp.wellFormed hw hd hdir hroom
  have hr₁ := hr.draws (hp.draws hw hd hdir hroom)
  simp only [twp_bind, twp_get_b, twp_readBlock, twp_ite, twp_ret, Int.toNat_natCast]
  refine ⟨hp.inRange hw hd hdir hroom hr, fun _ => ⟨fun _ => trivial, fun h0 => ?_⟩⟩
  obtain ⟨hname, _, _⟩ := hnew d name k τ hsup.symm hp (not_not.mp h0)
  have hpop : wp g get_next_inum_free τ fun i υ => i = τ.nextInode ∧ υ = τ.popInode :=
    get_next_inum_free_spec hw₁.nextInode ⟨rfl, rfl⟩
  refine twp_mono ?_ (twp_and (get_next_inum_free_total hw₁.nextInode) hpop)
  rintro _ υ ⟨_, rfl, rfl⟩
  have hlen : ¬ 512 < slotOffset k + 2 + name.length := by
    simp only [slotOffset]
    omega
  unfold update_dir_entry
  simp only [if_neg hlen, modifyBlock, modifyInode, twp_bind, twp_readBlock, twp_writeBlock, twp_dirtyBlock, twp_get_i,
    twp_readInode, twp_writeInode]
  refine ⟨tableBlock_inRange hw₁.nextInode, fun _ => ⟨hw₁.nextInode, fun _ => ?_⟩⟩
  generalize hρ : FS.setInode _ _ _ = ρ
  have hfree : ρ.next = τ.next := by
    rw [← hρ]
    exact congrArg (List.headD · 0) FS.popInode_b_head
  have hnext : wp g get_next_free_bnum ρ fun b _ => b = τ.next := get_next_free_bnum_spec hfree
  refine twp_mono ?_ (twp_and get_next_free_bnum_total hnext)
  rintro _ _ ⟨_, rfl⟩
  simp only [twp_dirtyInode, implies_true, and_true]
  exact hr₁.next

theorem handle_rmdir_total (hw : WellFormed g σ) (hr : InRange g σ) (hcur : g.isInode cur)
    (hdir : σ.size (σ.resolve (from_root path cur).1 (from_root path cur).2) ≤ 64 →
      (σ.dropDir (σ.resolve (from_root path cur).1 (from_root path cur).2)).DirAt g (from_root path cur).1 (from_root path cur).2)
    (hparent : 0 < cur → σ.size (σ.resolve (from_root path cur).1 (from_root path cur).2) ≤ 64 →
      ((σ.dropDir (σ.resolve (from_root path cur).1 (from_root path cur).2)).superDir (from_root path cur).1
        (from_root path cur).2).1 ≠ ERROR) :
    twp g (handle_rmdir (some path) cur) σ fun _ _ => True := by
  have hstart := from_root_isInode path g.isInode_root hcur
  unfold handle_rmdir
  simp only [twp_ite, twp_ret, Prog.pure_eq]
  refine ⟨fun _ => trivial, fun hpos => ?_⟩
  have hfind : wp g (get_path_i_num (from_root path cur).1 (from_root path cur).2) σ fun r σ' =>
      r = σ.resolve (from_root path cur).1 (from_root path cur).2 ∧ σ' = σ := get_path_i_num_spec hw hstart ⟨rfl, rfl⟩
  refine twp_then (get_path_i_num_total hw hr hstart) hfind ?_
  rintro _ σ' ⟨rfl, rfl⟩
  have hi : g.isInode (σ'.resolve (from_root path cur).1 (from_root path cur).2) := hw.resolve_isInode hstart
  generalize σ'.resolve (from_root path cur).1 (from_root path cur).2 = i at hi hdir hparent ⊢
  simp only [twp_bind, twp_get_i, twp_readInode, twp_ite, twp_ret]
  refine ⟨fun _ => trivial, fun _ => ⟨hi, fun id => ⟨fun _ => trivial, fun hsize => ?_⟩⟩⟩
  have hsize : σ'.size i ≤ 64 := by
    simp only [DIRENTSIZE, View.size] at hsize ⊢
    omega
  have hw₁ := dropDir_wellFormed hw hi
  have hclear : wp g (clear_file ⟨i, id⟩) σ' fun _ τ => τ = σ'.truncate i := clear_file_spec (hw.mapped i hi) rfl
  refine twp_mono ?_ (twp_and (clear_file_total (p := ⟨i, id⟩) (hw.mapped i hi) fun _ => hr.indirect hi) hclear)
  rintro _ τ ⟨_, rfl⟩
  unfold add_free_i_list
  simp only [twp_bind, twp_globals, twp_setGlobals]
  change twp g _ (σ'.dropDir i) _
  have hr₁ : InRange g (σ'.dropDir i) := hr.draws (dropDir_draws hw hi)
  have hsuper : wp g (get_super_dir (from_root path cur).1 (from_root path cur).2) (σ'.dropDir i) fun r τ =>
      r = (σ'.dropDir i).superDir (from_root path cur).1 (from_root path cur).2 ∧ τ = σ'.dropDir i :=
    get_super_dir_spec hw₁ hstart g.isInode_root ⟨rfl, rfl⟩
  refine twp_mono ?_ (twp_and (get_super_dir_total hw₁ hr₁ hstart) hsuper)
  rintro ⟨d, name⟩ τ ⟨_, hsup, rfl⟩
  have hne : d ≠ ERROR := by
    have := hparent (Int.not_le.mp hpos) hsize
    rwa [← hsup] at this
  have hd := (hw₁.superDir_isInode g.isInode_root hstart hsup.symm).resolve_left hne
  obtain ⟨hdir, hroom⟩ := hdir hsize d name hsup.symm hne
  have hplace : wp g (get_dir_entry name d true) (σ'.dropDir i) fun r υ => ∃ k, Placed (σ'.dropDir i) d name k υ ∧
      r = ((slotOffset k : Int), υ.slotBlock d k) := room_spec hw₁ hd hdir hroom fun k υ hp => ⟨k, hp, rfl⟩
  refine twp_mono ?_ (twp_and (room_total hw₁ hd hdir hr₁ hroom) hplace)
  rintro _ υ ⟨_, k, hp, rfl⟩
  simp only [twp_get_b, modifyBlock, twp_bind, twp_readBlock, twp_writeBlock, twp_dirtyBlock, implies_true, and_true]
  exact hp.inRange hw₁ hd hdir hroom hr₁

/-! ## Looking -/

theorem handle_open_total (hw : WellFormed g σ) (hr : InRange g σ) (hcur : g.isInode cur) :
    twp g (handle_open (some path) cur) σ fun _ _ => True := by
  unfold handle_open
  simp only [twp_ite, twp_ret, Prog.pure_eq, twp_bind, implies_true, and_self, true_and]
  exact fun _ => get_path_i_num_total hw hr (from_root_isInode path g.isInode_root hcur)

theorem handle_stat_total {mapped : Bool} (hw : WellFormed g σ) (hr : InRange g σ) (hcur : g.isInode cur) :
    twp g (handle_stat (some path) cur (some mapped)) σ fun _ _ => True := by
  have hstart := from_root_isInode path g.isInode_root hcur
  unfold handle_stat
  simp only [twp_ite, twp_ret, Prog.pure_eq]
  refine ⟨fun _ => trivial, fun _ => ?_⟩
  have hfind : wp g (get_path_i_num (from_root path cur).1 (from_root path cur).2) σ fun r _ =>
      r = σ.resolve (from_root path cur).1 (from_root path cur).2 := get_path_i_num_spec hw hstart rfl
  refine twp_then (get_path_i_num_total hw hr hstart) hfind ?_
  rintro _ _ rfl
  simp only [twp_ite, twp_ret, twp_bind, twp_get_i, twp_readInode, implies_true, and_self, true_and, and_true]
  exact fun _ => hw.resolve_isInode hstart

/-! ## All of them -/

/-- What the handlers do not check: that `unlink`, `mkdir` and `rmdir` find the parent directory, and that a read does not
start before its file. -/
def Request.Defined (σ : FS) : Request → Prop
  | .read _ _ _ offset => 0 ≤ offset
  | .unlink (some path) cur => 0 < cur → (σ.superDir path cur).1 ≠ ERROR
  | .mkdir (some path) cur => 0 < cur → (σ.superDir (from_root path cur).1 (from_root path cur).2).1 ≠ ERROR
  | .rmdir (some path) cur => 0 < cur → σ.size (σ.resolve (from_root path cur).1 (from_root path cur).2) ≤ 64 →
    ((σ.dropDir (σ.resolve (from_root path cur).1 (from_root path cur).2)).superDir (from_root path cur).1
      (from_root path cur).2).1 ≠ ERROR
  | _ => True

theorem twp_reply {α : Type} {p : Prog α} {f : α → Response} (h : twp g p σ fun _ _ => True) :
    twp g (p >>= fun a => pure (f a)) σ fun _ _ => True := by
  simp only [twp_bind, Prog.pure_eq, twp_ret]
  exact h

theorem handler_total {req : Request} (hw : WellFormed g σ) (hr : InRange g σ) (hsafe : req.Safe g σ) (hdef : req.Defined σ) :
    twp g req.handler σ fun _ _ => True := by
  have hrefused : ∀ resp : Response, twp g (pure resp) σ fun _ _ => True := fun resp => (twp_ret resp).mpr trivial
  cases req with
  | «open» pathname cur =>
    cases pathname with
    | none => exact hrefused _
    | some path => exact twp_reply (handle_open_total hw hr hsafe)
  | create pathname cur =>
    cases pathname with
    | none => exact hrefused _
    | some path => exact twp_reply (handle_create_total hw hr hsafe.1 fun d name hsup _ => hsafe.2 d name hsup)
  | read i buf size offset => exact twp_reply (handle_read_total hsafe (hw.mapped i hsafe) hr hdef)
  | write i buf size offset => exact twp_reply (handle_write_total hw hsafe hr)
  | seek i offset whence cur_pos => exact twp_reply (handle_seek_total hsafe)
  | link old_name new_name cur =>
    cases old_name with
    | none => exact hrefused _
    | some old_name =>
      cases new_name with
      | none => exact hrefused _
      | some new_name => exact twp_reply (handle_link_total hw hr hsafe.1 fun d name hsup _ => hsafe.2 d name hsup)
  | unlink pathname cur =>
    cases pathname with
    | none => exact hrefused _
    | some path => exact twp_reply (handle_unlink_total hw hr hsafe hdef)
  | mkdir pathname cur =>
    cases pathname with
    | none => exact hrefused _
    | some path => exact twp_reply (handle_mkdir_total hw hr hsafe.1 hsafe.2.1 hsafe.2.2 hdef)
  | rmdir pathname cur =>
    cases pathname with
    | none => exact hrefused _
    | some path => exact twp_reply (handle_rmdir_total hw hr hsafe.1 hsafe.2 hdef)
  | chdir pathname cur =>
    cases pathname with
    | none => exact hrefused _
    | some path => exact twp_reply (handle_open_total hw hr hsafe)
  | stat pathname cur stat_buffer =>
    cases pathname with
    | none => exact hrefused _
    | some path =>
      cases stat_buffer with
      | none => exact hrefused _
      | some mapped => exact twp_reply (handle_stat_total hw hr hsafe)
  | sync => exact hrefused _

end Yfs
