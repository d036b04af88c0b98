import Yfs.Files.Proofs
import Yfs.Files.Read
import Yfs.Requests.Proofs
import Yfs.Sync

/-! # One round of the server -/

namespace Yfs

/-! ## The state behind the caches -/

/-- What `sv` shows. A cached item that differs from the disk and is not dirty is unmarked. -/
def Server.fs (sv : Server) : FS where
  toGlobals := sv.toGlobals
  inode := logicalInode sv.store
  block := logicalBlock sv.store
  unmarked_i i := ∃ item ∈ sv.store.cache_i_queue,
    item.c_item_num = i ∧ item.data ≠ logicalSlot sv.store i ∧ item.dirty = false
  unmarked_b b := ∃ item ∈ sv.store.cache_b_queue,
    item.c_item_num = b ∧ item.data ≠ sv.store.sectors b ∧ item.dirty = false

/-- The caches are in order. -/
structure Server.CachesOk (g : Geometry) (sv : Server) : Prop where
  blocks : BlocksOk sv.store
  inodes : InodesOk g sv.store
  sectors : sv.store.num_sectors = g.sectors

theorem Server.CachesOk.rel {g : Geometry} {sv : Server} (h : sv.CachesOk g) : Rel g sv sv.fs := by
  refine ⟨h.blocks, h.inodes, h.sectors, rfl, fun _ _ => rfl, fun _ _ => rfl, fun item hm hne => ?_, fun item hm hne => ?_⟩
  · cases hd : item.dirty
    · exact Or.inr ⟨item, hm, rfl, hne, hd⟩
    · exact Or.inl hd
  · cases hd : item.dirty
    · exact Or.inr ⟨item, hm, rfl, hne, hd⟩
    · exact Or.inl rfl

/-- `σ` and `τ` differ at most in the raw bytes of the table and in inodes that have no slot. -/
structure FS.Agrees (g : Geometry) (σ τ : FS) : Prop where
  globals : τ.toGlobals = σ.toGlobals
  inode : ∀ i, g.isInode i → τ.inode i = σ.inode i
  block : ∀ b, ¬ g.isTable b → τ.block b = σ.block b
  unmarked_i : ∀ i, τ.unmarked_i i → σ.unmarked_i i
  unmarked_b : ∀ b, τ.unmarked_b b → σ.unmarked_b b

theorem Rel.cachesOk {g : Geometry} {sv : Server} {σ : FS} (h : Rel g sv σ) : sv.CachesOk g :=
  ⟨h.blocks, h.inodes, h.sectors⟩

theorem Rel.agrees {g : Geometry} {sv : Server} {σ : FS} (h : Rel g sv σ) : σ.Agrees g sv.fs := by
  refine ⟨h.globals, h.view_i, h.view_b, fun i hi => ?_, fun b hb => ?_⟩
  · obtain ⟨item, hm, rfl, hne, hd⟩ := hi
    exact (h.marked_i item hm hne).resolve_left (by simp [hd])
  · obtain ⟨item, hm, rfl, hne, hd⟩ := hb
    exact (h.marked_b item hm hne).resolve_left (by simp [hd])

namespace FS.Agrees

variable {g : Geometry} {σ τ : FS} {i : Int} (h : σ.Agrees g τ)
include h

theorem same (hw : WellFormed g σ) (hi : g.isInode i) : σ.Same τ.toView i :=
  (hw.mapped i hi).same (h.inode i hi) h.block

theorem wellFormed (hw : WellFormed g σ) : WellFormed g τ := by
  refine hw.keep (fun j hj => h.same hw hj) ?_ ?_
  · rw [h.globals]
  · rw [h.globals]
    exact hw.inodes

end FS.Agrees

/-! ## What a request does -/

/-- The requests that only look. -/
def Request.looks : Request → Bool
  | .open .. | .read .. | .seek .. | .chdir .. | .stat .. | .sync => true
  | _ => false

/-- What the server has done when it answers `ret`. -/
inductive Effect (σ : FS) : Request → Int → FS → Prop where
  | looked {req : Request} {ret : Int} (h : req.looks = true) : Effect σ req ret σ
  /-- A null pointer. -/
  | refused {req : Request} : Effect σ req ERROR σ
  | create {path : CStr} {cur ret : Int} {σ' : FS} (h : Created σ path cur (-1) ret σ') :
    Effect σ (.create (some path) cur) ret σ'
  | write {i size offset ret : Int} {buf : UserBuf} {σ' : FS} (h : Written σ i buf size offset ret σ') :
    Effect σ (.write i buf size offset) ret σ'
  | link {old_name new_name : CStr} {cur ret : Int} {σ' : FS} (h : Linked σ old_name new_name cur ret σ') :
    Effect σ (.link (some old_name) (some new_name) cur) ret σ'
  | unlink {path : CStr} {cur ret : Int} {σ' : FS} (h : Unlinked σ path cur ret σ') :
    Effect σ (.unlink (some path) cur) ret σ'
  | mkdir {path : CStr} {cur ret : Int} {σ' : FS} (h : MadeDir σ path cur ret σ') :
    Effect σ (.mkdir (some path) cur) ret σ'
  | rmdir {path : CStr} {cur ret : Int} {σ' : FS} (h : RemovedDir σ path cur ret σ') :
    Effect σ (.rmdir (some path) cur) ret σ'

/-! ## Safe requests -/

/-- A new entry never needs a block that is not there. -/
def FS.RoomAt (σ : FS) (g : Geometry) (path : CStr) (cur : Int) : Prop :=
  ∀ d name, σ.superDir path cur = (d, name) → σ.isDir d → σ.RoomFor g d name

/-- `path` leaves from a directory that has room. -/
def FS.DirAt (σ : FS) (g : Geometry) (path : CStr) (cur : Int) : Prop :=
  ∀ d name, σ.superDir path cur = (d, name) → d ≠ ERROR → σ.isDir d ∧ σ.RoomFor g d name

/-- The slot that `handle_mkdir` takes can hold the name, and there is a block for the directory. -/
def FS.NewDirAt (σ : FS) (g : Geometry) (path : CStr) (cur : Int) : Prop :=
  ∀ d name k σ', σ.superDir path cur = (d, name) → Placed σ d name k σ' → σ'.slotInum d k = 0 →
    name.length ≤ 30 ∧ σ'.b_head ≠ [] ∧ ¬ g.isTable σ'.next

/-- The condition on a request and the state before it: what the handlers rely on and do not check. -/
def Request.Safe (g : Geometry) (σ : FS) : Request → Prop
  | .open _ cur => g.isInode cur
  | .create (some path) cur => g.isInode cur ∧ σ.RoomAt g path cur
  | .read i _ _ _ => g.isInode i
  | .write i buf size offset => σ.WriteOk g i buf size offset
  | .seek i _ _ _ => g.isInode i
  | .link (some old_name) (some new_name) cur => g.isInode cur ∧
    σ.RoomAt g (adj_path_i new_name (adj_path_i old_name cur).2).1 (adj_path_i new_name (adj_path_i old_name cur).2).2
  | .unlink (some _) cur => g.isInode cur
  | .mkdir (some path) cur => g.isInode cur ∧ σ.DirAt g (from_root path cur).1 (from_root path cur).2 ∧
    σ.NewDirAt g (from_root path cur).1 (from_root path cur).2
  | .rmdir (some path) cur => g.isInode cur ∧
    (σ.size (σ.resolve (from_root path cur).1 (from_root path cur).2) ≤ 64 →
      (σ.dropDir (σ.resolve (from_root path cur).1 (from_root path cur).2)).DirAt g (from_root path cur).1
        (from_root path cur).2)
  | .chdir _ cur => g.isInode cur
  | .stat _ cur _ => g.isInode cur
  | _ => True

variable {g : Geometry} {σ : FS} {req : Request} {cur : Int} {path : CStr}

theorem Effect.of_looks {τ : FS} {ret : Int} (h : Effect σ req ret τ) (hlooks : req.looks = true) : τ = σ := by
  cases h <;> first | rfl | cases hlooks

section Looking

variable {Q : Int → FS → Prop} (hw : WellFormed g σ) (hroot : g.isInode ROOTINODE)
include hw hroot

theorem handle_open_spec {pathname : Option CStr} (hcur : g.isInode cur) (hQ : ∀ r, Q r σ) :
    wp g (handle_open pathname cur) σ Q := by
  unfold handle_open
  cases pathname with
  | none => exact wp_ret _ |>.mpr (hQ _)
  | some path =>
    simp only [wp_ite, wp_bind, wp_ret, Prog.pure_eq]
    exact ⟨fun _ => hQ _, fun _ => get_path_i_num_spec hw (from_root_isInode _ hroot hcur) ⟨fun _ => hQ _, fun _ => hQ _⟩⟩

theorem handle_chdir_spec {pathname : Option CStr} (hcur : g.isInode cur) (hQ : ∀ r, Q r σ) :
    wp g (handle_chdir pathname cur) σ Q := by
  unfold handle_chdir
  cases pathname with
  | none => exact wp_ret _ |>.mpr (hQ _)
  | some path =>
    simp only [wp_ite, wp_bind, wp_ret, Prog.pure_eq]
    exact ⟨fun _ => hQ _, fun _ => get_path_i_num_spec hw (from_root_isInode _ hroot hcur) ⟨fun _ => hQ _, fun _ => hQ _⟩⟩

theorem handle_stat_spec {Q : Int × Option Stat → FS → Prop} {pathname : Option CStr} {stat_buffer : Option Bool}
    (hcur : g.isInode cur) (hQ : ∀ r, Q r σ) : wp g (handle_stat pathname cur stat_buffer) σ Q := by
  unfold handle_stat
  cases pathname with
  | none => exact wp_ret _ |>.mpr (hQ _)
  | some path =>
    cases stat_buffer with
    | none => exact wp_ret _ |>.mpr (hQ _)
    | some mapped =>
      simp only [wp_ite, wp_bind, wp_ret, Prog.pure_eq, wp_get_i, wp_readInode]
      have hstart := from_root_isInode path hroot hcur
      exact ⟨fun _ => hQ _, fun _ => get_path_i_num_spec hw hstart
        ⟨fun _ => hQ _, fun _ _ => ⟨hw.resolve_isInode hstart, fun _ => ⟨fun _ => hQ _, fun _ => hQ _⟩⟩⟩⟩

omit hw hroot in
theorem handle_seek_spec {i offset whence cur_pos : Int} (hi : g.isInode i) (hQ : ∀ r, Q r σ) :
    wp g (handle_seek i offset whence cur_pos) σ Q := by
  unfold handle_seek
  simp only [wp_bind, wp_ite, wp_ret, Prog.pure_eq, wp_get_i, wp_readInode]
  exact fun _ => ⟨hi, fun _ => by simp [hQ]⟩

end Looking

theorem wp_pure {α : Type} {a : α} {Q : α → FS → Prop} (h : Q a σ) : wp g (pure a) σ Q := (wp_ret a).mpr h

theorem handler_spec (hw : WellFormed g σ) (hroot : g.isInode ROOTINODE) (hsafe : req.Safe g σ) :
    wp g req.handler σ fun resp σ' => Effect σ req resp.ret σ' := by
  cases req with
  | «open» pathname cur => exact wp_bind.mpr (handle_open_spec hw hroot hsafe fun _ => wp_pure (.looked rfl))
  | create pathname cur =>
    cases pathname with
    | none => exact wp_pure .refused
    | some path => exact wp_bind.mpr (handle_create_spec hw hroot hsafe.1 hsafe.2 fun _ _ h => wp_pure (.create h))
  | read i buf size offset =>
    exact wp_bind.mpr (handle_read_spec hsafe (hw.mapped i hsafe) fun _ => wp_pure (.looked rfl))
  | write i buf size offset => exact wp_bind.mpr (handle_write_spec hw hsafe fun _ _ h => wp_pure (.write h))
  | seek i offset whence cur_pos => exact wp_bind.mpr (handle_seek_spec hsafe fun _ => wp_pure (.looked rfl))
  | link old_name new_name cur =>
    cases old_name with
    | none => exact wp_pure .refused
    | some old_name =>
      cases new_name with
      | none => exact wp_pure .refused
      | some new_name => exact wp_bind.mpr (handle_link_spec hw hroot hsafe.1 hsafe.2 fun _ _ h => wp_pure (.link h))
  | unlink pathname cur =>
    cases pathname with
    | none => exact wp_pure .refused
    | some path => exact wp_bind.mpr (handle_unlink_spec hw hroot hsafe fun _ _ h => wp_pure (.unlink h))
  | mkdir pathname cur =>
    cases pathname with
    | none => exact wp_pure .refused
    | some path => exact wp_bind.mpr (handle_mkdir_spec hw hroot hsafe.1 hsafe.2.1
      (fun _ _ _ _ hsup hp h0 => (hsafe.2.2 _ _ _ _ hsup hp h0).2.2) fun _ _ h => wp_pure (.mkdir h))
  | rmdir pathname cur =>
    cases pathname with
    | none => exact wp_pure .refused
    | some path =>
      refine wp_bind.mpr (handle_rmdir_spec hw hroot hsafe.1 ?_ fun _ _ h => wp_pure (.rmdir h))
      rintro i d name rfl hsize hsup hd
      exact hsafe.2 hsize d name hsup hd
  | chdir pathname cur => exact wp_bind.mpr (handle_chdir_spec hw hroot hsafe fun _ => wp_pure (.looked rfl))
  | stat pathname cur stat_buffer => exact wp_bind.mpr (handle_stat_spec hw hroot hsafe fun _ => wp_pure (.looked rfl))
  | sync => exact wp_pure (.looked rfl)

/-- A round of the server does what its request says. -/
theorem serve_spec {sv sv' : Server} {resp : Response} (h : Rel g sv σ) (hw : WellFormed g σ)
    (hroot : g.isInode ROOTINODE) (hsafe : req.Safe g σ) (hs : serve sv req = some (resp, sv')) :
    ∃ σ', Effect σ req resp.ret σ' ∧ Rel g sv' σ' := by
  have hrun : req ≠ .sync → run req.handler sv = some (resp, sv') := by
    intro hne
    cases req <;> first | exact hs | exact absurd rfl hne
  by_cases hne : req = .sync
  · subst hne
    obtain ⟨⟨ret, sv₁⟩, hsync, he⟩ := Option.map_eq_some_iff.mp hs
    obtain ⟨rfl, rfl⟩ := Prod.mk.inj he
    exact ⟨σ, .looked rfl, (handle_sync_spec h hsync).2⟩
  · obtain ⟨σ', heff, hrel⟩ := run_sound h (handler_spec hw hroot hsafe) (hrun hne)
    exact ⟨σ', heff, hrel⟩

/-! ## Safe requests keep the state well formed -/

theorem Placed.slotAt {d : Int} {k : Nat} {σ' : FS} (h : Placed σ d path k σ') (hw : WellFormed g σ) (hd : g.isInode d)
    (hdir : σ.isDir d) (hroom : σ.RoomFor g d path) : SlotAt g σ' d k (σ'.slotBlock d k) :=
  ⟨h.wellFormed hw hd hdir hroom, hd, h.isDir hdir, h.lt hw hd hdir hroom, rfl⟩

theorem CreatedIn.wellFormed {d new ret : Int} {name : CStr} {σ' : FS} (h : CreatedIn σ d name new ret σ')
    (hw : WellFormed g σ) (hshort : 8 * g.table ≤ 2 ^ 15) (hd : g.isInode d) (hdir : σ.isDir d)
    (hroom : σ.RoomFor g d name) (hnew : new ≠ -1 → g.isInode new) : WellFormed g σ' := by
  cases h with
  | taken => exact hw
  | truncated hk h0 _ =>
    have hi := hw.entries d _ hd hdir (findSlot_lt hk)
    exact ((truncate_emptied hw hi).wellFormed hw hi hw.inodes).markInode.markBlock
  | made hp => exact (hp.slotAt hw hd hdir hroom).newFile hshort name
  | linked hp _ hn => exact (hp.slotAt hw hd hdir hroom).newLink hshort name (hnew hn)

theorem Effect.wellFormed {ret : Int} {σ' : FS} (h : Effect σ req ret σ') (hw : WellFormed g σ)
    (hroot : g.isInode ROOTINODE) (hshort : 8 * g.table ≤ 2 ^ 15) (hsafe : req.Safe g σ) : WellFormed g σ' := by
  cases h with
  | looked => exact hw
  | refused => exact hw
  | create h =>
    cases h with
    | error => exact hw
    | done _ hsup hne hdir h =>
      have hd := (hw.superDir_isInode hroot hsafe.1 hsup).resolve_left hne
      exact h.wellFormed hw hshort hd hdir (hsafe.2 _ _ hsup hdir) fun hn => absurd rfl hn
  | write h => exact (h.kept hw hsafe).wellFormed
  | link h =>
    cases h with
    | error => exact hw
    | done _ hi h0 hfile hsup hne hdir hp hfree =>
      have hold (path : CStr) := adj_path_i_isInode path hroot hsafe.1
      have hd := (hw.superDir_isInode hroot (adj_path_i_isInode _ hroot (hold _)) hsup).resolve_left hne
      have hi' := hi ▸ hw.resolve_isInode (hold _)
      exact ((hp.slotAt hw hd hdir (hsafe.2 _ _ hsup hdir)).newLink hshort _ hi').addLinks.markInode
  | unlink h =>
    cases h with
    | error => exact hw
    | done _ hsup hne hdir hk =>
      have hd := (hw.superDir_isInode hroot hsafe hsup).resolve_left hne
      exact SlotAt.removeEntry ⟨hw, hd, hdir, findSlot_lt hk, rfl⟩
  | mkdir h =>
    cases h with
    | error => exact hw
    | done _ hsup hne hdir hp h0 hfits =>
      have hd := (hw.superDir_isInode hroot (from_root_isInode _ hroot hsafe.1) hsup).resolve_left hne
      obtain ⟨hname, hfree, hdata⟩ := hsafe.2.2 _ _ _ _ hsup hp h0
      exact (hp.slotAt hw hd hdir (hsafe.2.1 _ _ hsup hne).2).newDir hshort hname hfree hdata
  | rmdir h =>
    cases h with
    | error => exact hw
    | done _ hi hsize hsup hne hdir hp =>
      have hstart (path : CStr) := from_root_isInode path hroot hsafe.1
      have hi' := hi ▸ hw.resolve_isInode (hstart _)
      have hw₁ := dropDir_wellFormed hw hi'
      have hd := (hw₁.superDir_isInode hroot (hstart _) hsup).resolve_left hne
      subst hi
      exact (hp.slotAt hw₁ hd hdir (hsafe.2 hsize _ _ hsup hne).2).clearEntry

end Yfs
