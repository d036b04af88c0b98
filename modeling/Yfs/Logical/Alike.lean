import Yfs.Logical
import Yfs.Code.Server

/-! # The handlers do not look at the names of pointers -/

namespace Yfs

variable {α β : Type} {R : α → β → Prop} {p p' : Ptr} {i b d cur : Int} {path name : CStr}

/-- Pointers to the same item. -/
def SamePtr (p p' : Ptr) : Prop := p.num = p'.num

theorem Alike.ite {c : Prop} [Decidable c] {a a' : Prog α} {q q' : Prog β} (h : c → Alike R a q) (h' : ¬ c → Alike R a' q') :
    Alike R (if c then a else a') (if c then q else q') := by
  split
  case isTrue hc => exact h hc
  case isFalse hc => exact h' hc

theorem Alike.pure {a : α} {x : β} (h : R a x) : Alike R (Pure.pure a : Prog α) (Pure.pure x) := .ret h

/-! ## Commands -/

theorem get_b_alike : Alike SamePtr (get_b b) (get_b b) := .get_b fun _ _ => .ret rfl

theorem get_i_alike : Alike SamePtr (get_i i) (get_i i) := .get_i fun _ _ => .ret rfl

theorem dirtyBlock_alike : Alike Eq (dirtyBlock b) (dirtyBlock b) := .dirtyBlock fun _ => .ret rfl

theorem dirtyInode_alike : Alike Eq (dirtyInode i) (dirtyInode i) := .dirtyInode fun _ => .ret rfl

theorem globals_alike : Alike Eq globals globals := .globals fun _ => .ret rfl

theorem setGlobals_alike {v : Globals} : Alike Eq (setGlobals v) (setGlobals v) := .setGlobals fun _ => .ret rfl

section

variable (hp : SamePtr p p')
include hp

theorem readBlock_alike : Alike Eq (readBlock p) (readBlock p') := .readBlock hp fun _ => .ret rfl

theorem readInode_alike : Alike Eq (readInode p) (readInode p') := .readInode hp fun _ => .ret rfl

theorem modifyBlock_alike {f : Block → Block} : Alike Eq (modifyBlock p f) (modifyBlock p' f) :=
  (readBlock_alike hp).bind fun _ _ he => by subst he; exact .writeBlock hp fun _ => .ret rfl

theorem modifyInode_alike {f : Inode → Inode} : Alike Eq (modifyInode p f) (modifyInode p' f) :=
  (readInode_alike hp).bind fun _ _ he => by subst he; exact .writeInode hp fun _ => .ret rfl

end

/-! ## Files -/

theorem get_next_inum_free_alike : Alike Eq get_next_inum_free get_next_inum_free := by
  unfold get_next_inum_free
  refine globals_alike.bind ?_
  rintro v _ rfl
  split
  · exact .pure rfl
  · refine get_i_alike.bind fun ptr ptr' hp => (modifyInode_alike hp).bind ?_
    rintro _ _ rfl
    refine dirtyInode_alike.bind ?_
    rintro _ _ rfl
    refine setGlobals_alike.bind ?_
    rintro _ _ rfl
    exact .pure rfl

theorem add_free_i_list_alike : Alike Eq (add_free_i_list i) (add_free_i_list i) := by
  refine globals_alike.bind ?_
  rintro v _ rfl
  exact setGlobals_alike

theorem get_next_free_bnum_alike : Alike Eq get_next_free_bnum get_next_free_bnum := by
  unfold get_next_free_bnum
  refine globals_alike.bind ?_
  rintro v _ rfl
  split
  · exact .pure rfl
  · refine setGlobals_alike.bind ?_
    rintro _ _ rfl
    exact .pure rfl

theorem free_block_alike : Alike Eq (free_block b) (free_block b) := by
  refine globals_alike.bind ?_
  rintro v _ rfl
  exact setGlobals_alike

theorem get_nth_b_alike {n : Int} {a : Bool} (hp : SamePtr p p') : Alike Eq (get_nth_b p n a) (get_nth_b p' n a) := by
  unfold get_nth_b
  refine .ite (fun _ => .pure rfl) fun _ => (readInode_alike hp).bind ?_
  rintro ino _ rfl
  dsimp only
  refine .ite (fun _ => .pure rfl) fun _ => .ite (fun _ => ?_) fun _ => ?_
  · split
    · exact .undef
    · have hread : ∀ f, Alike Eq (readInode p >>= fun ino => Pure.pure (ino.get f)) (readInode p' >>= fun ino => Pure.pure (ino.get f)) := by
        refine fun f => (readInode_alike hp).bind ?_
        rintro _ _ rfl
        exact .pure rfl
      refine .ite (fun _ => get_next_free_bnum_alike.bind ?_) fun _ => hread _
      rintro _ _ rfl
      exact (modifyInode_alike hp).bind fun _ _ _ => hread _
  · refine get_b_alike.bind fun q q' hq => ?_
    have hread : ∀ k, Alike Eq (readBlock q >>= fun blk => Pure.pure (blk.pointer k)) (readBlock q' >>= fun blk => Pure.pure (blk.pointer k)) := by
      refine fun k => (readBlock_alike hq).bind ?_
      rintro _ _ rfl
      exact .pure rfl
    refine .ite (fun _ => get_next_free_bnum_alike.bind ?_) fun _ => hread _
    rintro _ _ rfl
    exact (modifyBlock_alike hq).bind fun _ _ _ => hread _

theorem free_blocks_alike {fuel : Nat} {n : Int} (hp : SamePtr p p') : Alike Eq (free_blocks p fuel n) (free_blocks p' fuel n) := by
  induction fuel generalizing n with
  | zero => exact .undef
  | succ fuel ih =>
    unfold free_blocks
    refine (get_nth_b_alike hp).bind ?_
    rintro b_num _ rfl
    refine .ite (fun _ => .pure rfl) fun _ => free_block_alike.bind ?_
    rintro _ _ rfl
    exact ih

theorem clear_file_alike (hp : SamePtr p p') : Alike Eq (clear_file p) (clear_file p') :=
  (free_blocks_alike hp).bind fun _ _ _ => modifyInode_alike hp

theorem zero_file_alike : Alike Eq (zero_file i) (zero_file i) :=
  get_i_alike.bind fun _ _ hp => (clear_file_alike hp).bind fun _ _ _ => dirtyInode_alike

theorem read_loop_alike {buf : UserBuf} {ret k left off len : Int} {copied : List UInt8} {fuel : Nat} (hp : SamePtr p p') :
    Alike Eq (read_loop p buf ret fuel k left off len copied) (read_loop p' buf ret fuel k left off len copied) := by
  induction fuel generalizing k left off len copied with
  | zero => exact .undef
  | succ fuel ih =>
    unfold read_loop
    refine .ite (fun _ => .pure rfl) fun _ => (get_nth_b_alike hp).bind ?_
    rintro b_num _ rfl
    refine .ite (fun _ => .pure rfl) fun _ => get_b_alike.bind fun q q' hq => ?_
    dsimp only
    refine .ite (fun _ => .undef) fun _ => .ite (fun _ => .pure rfl) fun _ => (readBlock_alike hq).bind ?_
    rintro blk _ rfl
    exact ih

theorem handle_read_alike {buf : UserBuf} {size offset : Int} :
    Alike Eq (handle_read i buf size offset) (handle_read i buf size offset) := by
  unfold handle_read
  refine .ite (fun _ => .pure rfl) fun _ => get_i_alike.bind fun q q' hq => (readInode_alike hq).bind ?_
  rintro ino _ rfl
  exact .ite (fun _ => .pure rfl) fun _ => read_loop_alike hq

theorem write_loop_alike {buf : UserBuf} {size offset k left off : Int} {fuel : Nat} (hp : SamePtr p p') :
    Alike Eq (write_loop p buf size offset fuel k left off) (write_loop p' buf size offset fuel k left off) := by
  induction fuel generalizing k left off with
  | zero => exact .undef
  | succ fuel ih =>
    unfold write_loop
    refine .ite (fun _ => .pure rfl) fun _ => (get_nth_b_alike hp).bind ?_
    rintro b_num _ rfl
    refine .ite (fun _ => .pure rfl) fun _ => get_b_alike.bind fun q q' hq => ?_
    dsimp only
    refine .ite (fun _ => .undef) fun _ => ?_
    split
    · exact .pure rfl
    · refine (modifyBlock_alike hq).bind fun _ _ _ => dirtyBlock_alike.bind fun _ _ _ => (modifyInode_alike hp).bind fun _ _ _ => ih

theorem handle_write_alike {buf : UserBuf} {size offset : Int} :
    Alike Eq (handle_write i buf size offset) (handle_write i buf size offset) := by
  unfold handle_write
  refine get_i_alike.bind fun q q' hq => (readInode_alike hq).bind ?_
  rintro ino _ rfl
  refine .ite (fun _ => .pure rfl) fun _ => (write_loop_alike hq).bind ?_
  rintro done _ rfl
  exact .ite (fun _ => .pure rfl) fun _ => dirtyInode_alike.bind fun _ _ _ => .pure rfl

theorem handle_seek_alike {offset whence cur_pos : Int} :
    Alike Eq (handle_seek i offset whence cur_pos) (handle_seek i offset whence cur_pos) := by
  unfold handle_seek
  refine get_i_alike.bind fun q q' hq => (readInode_alike hq).bind ?_
  rintro ino _ rfl
  dsimp only
  exact .ite (fun _ => .pure rfl) fun _ => .ite (fun _ => .ite (fun _ => .pure rfl) fun _ => .pure rfl) fun _ =>
    .ite (fun _ => .ite (fun _ => .pure rfl) fun _ => .pure rfl) fun _ =>
      .ite (fun _ => .ite (fun _ => .pure rfl) fun _ => .pure rfl) fun _ => .pure rfl

/-! ## Directories and paths -/

/-- The same walk, through pointers to the same items. -/
structure SameWalk (w w' : Walk) : Prop where
  i : w.i = w'.i
  b_num : w.b_num = w'.b_num
  curr_b_num : w.curr_b_num = w'.curr_b_num
  cur_b : w.cur_b.map Ptr.num = w'.cur_b.map Ptr.num
  search : w.search = w'.search

theorem scan_blocks_alike {fuel : Nat} {w w' : Walk} (hp : SamePtr p p') (hw : SameWalk w w') :
    Alike SameWalk (scan_blocks path p fuel w) (scan_blocks path p' fuel w') := by
  induction fuel generalizing w w' with
  | zero => exact .undef
  | succ fuel ih =>
    unfold scan_blocks
    rw [← hw.b_num, ← hw.search, ← hw.i]
    refine .ite (fun _ => .pure hw) fun _ => get_b_alike.bind fun q q' hq => (readInode_alike hp).bind ?_
    rintro ino _ rfl
    refine (readBlock_alike hq).bind ?_
    rintro blk _ rfl
    have hcur : (some q).map Ptr.num = (some q').map Ptr.num := congrArg some hq
    refine .ite (fun _ => .pure ⟨rfl, rfl, hw.curr_b_num, hcur, rfl⟩) fun _ => (get_nth_b_alike hp).bind ?_
    rintro b_num _ rfl
    exact ih ⟨rfl, rfl, rfl, hcur, rfl⟩

theorem get_dir_entry_alike {make : Bool} : Alike Eq (get_dir_entry path d make) (get_dir_entry path d make) := by
  unfold get_dir_entry
  refine get_i_alike.bind fun q q' hq => (get_nth_b_alike hq).bind ?_
  rintro b_num _ rfl
  refine (scan_blocks_alike hq ⟨rfl, rfl, rfl, rfl, rfl⟩).bind fun w w' hw => ?_
  rw [← hw.i, ← hw.b_num, ← hw.curr_b_num, ← hw.search]
  refine .ite (fun _ => .pure rfl) fun _ => .ite (fun _ => .pure rfl) fun _ => .ite (fun _ => .pure rfl) fun _ =>
    (readInode_alike hq).bind ?_
  rintro ino _ rfl
  refine .ite (fun _ => (get_nth_b_alike hq).bind ?_) fun _ => ?_
  · rintro b_num _ rfl
    exact get_b_alike.bind fun r r' hr => (modifyInode_alike hq).bind fun _ _ _ => (modifyBlock_alike hr).bind fun _ _ _ =>
      dirtyBlock_alike.bind fun _ _ _ => dirtyInode_alike.bind fun _ _ _ => .pure rfl
  · refine (modifyInode_alike hq).bind fun _ _ _ => dirtyInode_alike.bind fun _ _ _ => ?_
    have hcur := hw.cur_b
    cases hc : w.cur_b with
    | none =>
      rw [hc] at hcur
      rw [Option.map_eq_none_iff.mp hcur.symm]
      exact .undef
    | some r =>
      rw [hc] at hcur
      obtain ⟨r', hr', hr⟩ := Option.map_eq_some_iff.mp hcur.symm
      rw [hr']
      exact .ite (fun _ => .undef) fun _ => (modifyBlock_alike hr.symm).bind fun _ _ _ => dirtyBlock_alike.bind fun _ _ _ =>
        dirtyBlock_alike.bind fun _ _ _ => .pure rfl

theorem lookup_part_alike : Alike Eq (lookup_part path d) (lookup_part path d) := by
  unfold lookup_part
  refine get_dir_entry_alike.bind ?_
  rintro ⟨offset, b_num⟩ _ rfl
  refine .ite (fun _ => .pure rfl) fun _ => get_b_alike.bind fun q q' hq => (readBlock_alike hq).bind ?_
  rintro blk _ rfl
  exact .pure rfl

theorem path_walk_alike {fuel : Nat} : Alike Eq (path_walk fuel path d) (path_walk fuel path d) := by
  induction fuel generalizing path d with
  | zero => exact .undef
  | succ fuel ih =>
    unfold path_walk
    refine get_i_alike.bind fun q q' hq => (readInode_alike hq).bind ?_
    rintro ino _ rfl
    refine .ite (fun _ => lookup_part_alike.bind ?_) fun _ => .pure rfl
    rintro next _ rfl
    exact .ite (fun _ => get_i_alike.bind fun _ _ _ => .pure rfl) fun _ => ih

theorem get_super_dir_alike : Alike Eq (get_super_dir path cur) (get_super_dir path cur) := by
  unfold get_super_dir
  refine .ite (fun _ => .pure rfl) fun _ => ?_
  dsimp only
  refine .ite (fun _ => path_walk_alike.bind ?_) fun _ => .pure rfl
  rintro dir_i_num _ rfl
  exact .ite (fun _ => .pure rfl) fun _ => .pure rfl

/-! ## Handlers -/

theorem handle_open_alike {pathname : Option CStr} : Alike Eq (handle_open pathname cur) (handle_open pathname cur) := by
  unfold handle_open
  split
  · exact .pure rfl
  · refine .ite (fun _ => .pure rfl) fun _ => path_walk_alike.bind ?_
    rintro i_num _ rfl
    exact .ite (fun _ => .pure rfl) fun _ => .pure rfl

theorem handle_stat_alike {pathname : Option CStr} {stat_buffer : Option Bool} :
    Alike Eq (handle_stat pathname cur stat_buffer) (handle_stat pathname cur stat_buffer) := by
  unfold handle_stat
  split
  · refine .ite (fun _ => .pure rfl) fun _ => path_walk_alike.bind ?_
    rintro i_num _ rfl
    refine .ite (fun _ => .pure rfl) fun _ => get_i_alike.bind fun q q' hq => (readInode_alike hq).bind ?_
    rintro ino _ rfl
    exact .ite (fun _ => .pure rfl) fun _ => .pure rfl
  · exact .pure rfl

theorem make_file_alike {offset : Nat} {new : Int} (hp : SamePtr p p') :
    Alike Eq (make_file name p offset new) (make_file name p' offset new) := by
  unfold make_file
  refine (modifyBlock_alike hp).bind fun _ _ _ => .ite (fun _ => get_next_inum_free_alike.bind ?_) fun _ =>
    (modifyBlock_alike hp).bind fun _ _ _ => .pure rfl
  rintro i_num _ rfl
  exact (modifyBlock_alike hp).bind fun _ _ _ => get_i_alike.bind fun q q' hq => (modifyInode_alike hq).bind fun _ _ _ =>
    dirtyInode_alike.bind fun _ _ _ => .pure rfl

theorem get_create_file_alike {new : Int} : Alike Eq (get_create_file name d new) (get_create_file name d new) := by
  unfold get_create_file
  refine get_dir_entry_alike.bind ?_
  rintro ⟨offset, b_num⟩ _ rfl
  refine get_b_alike.bind fun q q' hq => (readBlock_alike hq).bind ?_
  rintro blk _ rfl
  refine .ite (fun _ => .ite (fun _ => .pure rfl) fun _ => zero_file_alike.bind fun _ _ _ => dirtyBlock_alike.bind fun _ _ _ =>
    .pure rfl) fun _ => (make_file_alike hq).bind ?_
  rintro i_num _ rfl
  exact dirtyBlock_alike.bind fun _ _ _ => .pure rfl

theorem handle_create_alike {pathname : Option CStr} {new : Int} :
    Alike Eq (handle_create pathname cur new) (handle_create pathname cur new) := by
  unfold handle_create
  split
  · exact .pure rfl
  · refine .ite (fun _ => .pure rfl) fun _ => get_super_dir_alike.bind ?_
    rintro ⟨dir_i_num, filename⟩ _ rfl
    refine .ite (fun _ => .pure rfl) fun _ => get_i_alike.bind fun q q' hq => (readInode_alike hq).bind ?_
    rintro ino _ rfl
    refine .ite (fun _ => .pure rfl) fun _ => get_create_file_alike.bind ?_
    rintro i_num _ rfl
    exact .ite (fun _ => .pure rfl) fun _ => .pure rfl

theorem handle_link_alike {old_name new_name : Option CStr} :
    Alike Eq (handle_link old_name new_name cur) (handle_link old_name new_name cur) := by
  unfold handle_link
  split
  · refine .ite (fun _ => .pure rfl) fun _ => path_walk_alike.bind ?_
    rintro old_i_name _ rfl
    refine get_i_alike.bind fun q q' hq => (readInode_alike hq).bind ?_
    rintro ino _ rfl
    refine .ite (fun _ => .pure rfl) fun _ => handle_create_alike.bind ?_
    rintro ret _ rfl
    exact .ite (fun _ => .pure rfl) fun _ => (modifyInode_alike hq).bind fun _ _ _ => dirtyInode_alike.bind fun _ _ _ => .pure rfl
  · exact .pure rfl

theorem handle_unlink_alike {pathname : Option CStr} : Alike Eq (handle_unlink pathname cur) (handle_unlink pathname cur) := by
  unfold handle_unlink
  split
  · exact .pure rfl
  · refine .ite (fun _ => .pure rfl) fun _ => get_super_dir_alike.bind ?_
    rintro ⟨dir_i_num, filename⟩ _ rfl
    refine get_i_alike.bind fun q q' hq => (readInode_alike hq).bind ?_
    rintro ino _ rfl
    refine .ite (fun _ => .pure rfl) fun _ => get_dir_entry_alike.bind ?_
    rintro ⟨offset, b_num⟩ _ rfl
    refine .ite (fun _ => .pure rfl) fun _ => get_b_alike.bind fun r r' hr => (readBlock_alike hr).bind ?_
    rintro blk _ rfl
    dsimp only
    refine get_i_alike.bind fun t t' ht => (modifyInode_alike ht).bind fun _ _ _ => (readInode_alike ht).bind ?_
    rintro ino _ rfl
    have hrest : ∀ j c off, Alike Eq (dirtyInode j >>= fun _ => modifyBlock r (fun blk => blk.setInum off 0) >>= fun _ =>
        dirtyBlock c >>= fun _ => Pure.pure (0 : Int)) (dirtyInode j >>= fun _ => modifyBlock r' (fun blk => blk.setInum off 0) >>=
          fun _ => dirtyBlock c >>= fun _ => Pure.pure 0) := fun _ _ _ =>
      dirtyInode_alike.bind fun _ _ _ => (modifyBlock_alike hr).bind fun _ _ _ => dirtyBlock_alike.bind fun _ _ _ => .pure rfl
    exact .ite (fun _ => (clear_file_alike ht).bind fun _ _ _ => hrest _ _ _) fun _ => hrest _ _ _

theorem update_dir_entry_alike {offset : Nat} (hp : SamePtr p p') :
    Alike Eq (update_dir_entry p offset name i) (update_dir_entry p' offset name i) :=
  .ite (fun _ => .undef) fun _ => modifyBlock_alike hp

theorem handle_mkdir_alike {pathname : Option CStr} : Alike Eq (handle_mkdir pathname cur) (handle_mkdir pathname cur) := by
  unfold handle_mkdir
  split
  · exact .pure rfl
  · refine .ite (fun _ => .pure rfl) fun _ => get_super_dir_alike.bind ?_
    rintro ⟨dir_i_num, filename⟩ _ rfl
    refine get_dir_entry_alike.bind ?_
    rintro ⟨offset, b_num⟩ _ rfl
    refine get_b_alike.bind fun q q' hq => (readBlock_alike hq).bind ?_
    rintro blk _ rfl
    refine .ite (fun _ => .pure rfl) fun _ => get_next_inum_free_alike.bind ?_
    rintro i_num _ rfl
    refine (update_dir_entry_alike hq).bind fun _ _ _ => dirtyBlock_alike.bind fun _ _ _ => get_b_alike.bind fun _ _ _ =>
      get_i_alike.bind fun r r' hr => (modifyInode_alike hr).bind fun _ _ _ => get_next_free_bnum_alike.bind ?_
    rintro head_dir_b_num _ rfl
    exact get_b_alike.bind fun t t' ht => (modifyInode_alike hr).bind fun _ _ _ => (modifyBlock_alike ht).bind fun _ _ _ =>
      dirtyBlock_alike.bind fun _ _ _ => dirtyInode_alike.bind fun _ _ _ => .pure rfl

theorem handle_rmdir_alike {pathname : Option CStr} : Alike Eq (handle_rmdir pathname cur) (handle_rmdir pathname cur) := by
  unfold handle_rmdir
  split
  · exact .pure rfl
  · refine .ite (fun _ => .pure rfl) fun _ => path_walk_alike.bind ?_
    rintro i_num _ rfl
    refine .ite (fun _ => .pure rfl) fun _ => get_i_alike.bind fun q q' hq => (readInode_alike hq).bind ?_
    rintro ino _ rfl
    refine .ite (fun _ => .pure rfl) fun _ => (clear_file_alike hq).bind fun _ _ _ => add_free_i_list_alike.bind fun _ _ _ =>
      get_super_dir_alike.bind ?_
    rintro ⟨dir_i_num, filename⟩ _ rfl
    refine get_dir_entry_alike.bind ?_
    rintro ⟨offset, b_num⟩ _ rfl
    exact get_b_alike.bind fun r r' hr => (modifyBlock_alike hr).bind fun _ _ _ => dirtyBlock_alike.bind fun _ _ _ => .pure rfl

theorem Request.handler_alike (req : Request) : Alike Eq req.handler req.handler := by
  have hreply : ∀ {α : Type} {f : α → Response} {prog : Prog α}, Alike Eq prog prog →
      Alike Eq (prog >>= fun a => Pure.pure (f a)) (prog >>= fun a => Pure.pure (f a)) := by
    intro α f prog h
    refine h.bind ?_
    rintro a _ rfl
    exact .pure rfl
  cases req with
  | «open» => exact hreply handle_open_alike
  | create => exact hreply handle_create_alike
  | read => exact hreply handle_read_alike
  | write => exact hreply handle_write_alike
  | seek => exact hreply handle_seek_alike
  | link => exact hreply handle_link_alike
  | unlink => exact hreply handle_unlink_alike
  | mkdir => exact hreply handle_mkdir_alike
  | rmdir => exact hreply handle_rmdir_alike
  | chdir => exact hreply handle_open_alike
  | stat => exact hreply handle_stat_alike
  | sync => exact .pure rfl

end Yfs
