import Yfs.Boot.Fresh
import Yfs.Steady.Requests

/-! # No cached item is used after its eviction -/

namespace Yfs

open Cache Queue

variable {g : Geometry} {sv sv₀ sv' : Server} {req : Request} {reqs : List Request}

/-! ## Requests -/

/-- The second loop of `handle_sync` loses a block that it writes to. -/
def Store.SyncLoses (s : Store) : Prop :=
  ∃ before item after t, s.cache_i_queue = before ++ item :: after ∧ before.foldlM syncInode s = some t ∧
    item.dirty = true ∧ t.Loses (tableBlock item.c_item_num)

/-- Answering the request uses an item that is gone. -/
def Request.UsesStale (sv : Server) : Request → Prop
  | .sync => (syncBlocks sv.store).SyncLoses
  | req => Yfs.UsesStale req.handler sv

/-- The condition on a request: it concerns `link` only. -/
def Request.Near (g : Geometry) (sv : Server) : Request → Prop
  | .link (some old_name) (some new_name) cur => LinkNear g sv old_name new_name cur
  | _ => True

theorem handler_steady (hc : sv.store.Tidy) (hnear : req.Near g sv) : Steady req.handler sv fun _ _ => True := by
  cases req with
  | «open» pathname cur =>
    cases pathname with
    | none => exact .ret trivial
    | some path => exact (handle_open_steady hc).bind fun _ _ _ => .ret trivial
  | create pathname cur =>
    cases pathname with
    | none => exact .ret trivial
    | some path => exact (handle_create_runs hc).bind fun _ _ _ => .ret trivial
  | read i buf size offset => exact (handle_read_steady hc).bind fun _ _ _ => .ret trivial
  | write i buf size offset => exact (handle_write_steady hc).bind fun _ _ _ => .ret trivial
  | seek i offset whence cur_pos => exact (handle_seek_steady hc).bind fun _ _ _ => .ret trivial
  | link old_name new_name cur =>
    cases old_name with
    | none => exact .ret trivial
    | some old_name =>
      cases new_name with
      | none => exact .ret trivial
      | some new_name => exact (handle_link_steady hc hnear).bind fun _ _ _ => .ret trivial
  | unlink pathname cur =>
    cases pathname with
    | none => exact .ret trivial
    | some path => exact (handle_unlink_steady hc).bind fun _ _ _ => .ret trivial
  | mkdir pathname cur =>
    cases pathname with
    | none => exact .ret trivial
    | some path => exact (handle_mkdir_steady hc).bind fun _ _ _ => .ret trivial
  | rmdir pathname cur =>
    cases pathname with
    | none => exact .ret trivial
    | some path => exact (handle_rmdir_steady hc).bind fun _ _ _ => .ret trivial
  | chdir pathname cur =>
    cases pathname with
    | none => exact .ret trivial
    | some path => exact (handle_open_steady hc).bind fun _ _ _ => .ret trivial
  | stat pathname cur stat_buffer =>
    cases pathname with
    | none => exact .ret trivial
    | some path =>
      cases stat_buffer with
      | none => exact .ret trivial
      | some mapped => exact (handle_stat_steady hc).bind fun _ _ _ => .ret trivial
  | sync => exact .ret trivial

/-! ## Flushing -/

theorem syncBlocks_tidy {s : Store} (h : s.Tidy) : (syncBlocks s).Tidy := by
  have hstep := syncBlocks_step h.blocks
  exact ⟨hstep.ok, hstep.inodes ▸ h.inodes, hstep.inodes ▸ h.slots⟩

theorem syncInode_tidy {s s' : Store} {item : CacheItem Inode} (h : s.Tidy) (hs : syncInode s item = some s') : s'.Tidy := by
  unfold syncInode at hs
  split at hs
  case isFalse =>
    obtain rfl := Option.some.inj hs
    exact h
  case isTrue =>
    obtain ⟨⟨p, t⟩, hg, hs⟩ := Option.bind_eq_some_iff.mp hs
    obtain ⟨block, _, hs⟩ := Option.bind_eq_some_iff.mp hs
    obtain ⟨slot, _, hs⟩ := Option.bind_eq_some_iff.mp hs
    obtain ⟨q, ha, hs⟩ := Option.bind_eq_some_iff.mp hs
    obtain rfl := Option.some.inj hs
    have ht := (get_b_tidy h hg).1
    have hwritten : BlocksOk { t with cache_b_queue := q } := ht.blocks.of_nums (assign_nums ha)
    unfold WriteSector
    split
    · exact ⟨⟨hwritten.distinct, hwritten.range, hwritten.size⟩, ht.inodes, ht.slots⟩
    · exact ⟨hwritten, ht.inodes, ht.slots⟩

theorem syncInodes_tidy {s s' : Store} {l : List (CacheItem Inode)} (h : s.Tidy) (hs : l.foldlM syncInode s = some s') :
    s'.Tidy := by
  induction l generalizing s with
  | nil =>
    obtain rfl := Option.some.inj hs
    exact h
  | cons item l ih =>
    rw [List.foldlM_cons] at hs
    obtain ⟨t, ht, hs⟩ := Option.bind_eq_some_iff.mp hs
    exact ih (syncInode_tidy h ht) hs

theorem serve_tidy {resp : Response} (h : sv.store.Tidy) (hs : serve sv req = some (resp, sv')) : sv'.store.Tidy := by
  by_cases hsync : req = .sync
  · subst hsync
    obtain ⟨⟨ret, sv₁⟩, hrun, he⟩ := Option.map_eq_some_iff.mp hs
    obtain ⟨rfl, rfl⟩ := Prod.mk.inj he
    obtain ⟨s, hsync, he⟩ := Option.map_eq_some_iff.mp hrun
    obtain ⟨rfl, rfl⟩ := Prod.mk.inj he
    exact syncInodes_tidy (syncBlocks_tidy h) hsync
  · have hrun : run req.handler sv = some (resp, sv') := by
      cases req <;> first | exact hs | exact absurd rfl hsync
    exact run_tidy h hrun

theorem serves_tidy (h : sv.store.Tidy) (hrun : serves sv reqs = some sv') : sv'.store.Tidy := by
  induction reqs generalizing sv with
  | nil =>
    obtain rfl := Option.some.inj hrun
    exact h
  | cons req reqs ih =>
    rw [serves] at hrun
    split at hrun
    case h_1 => cases hrun
    case h_2 resp sv₁ hs => exact ih (serve_tidy h hs) hrun

theorem Disk.server_tidy (d : Disk) : d.server.store.Tidy :=
  ⟨⟨List.nodup_nil, fun _ hm => (by cases hm), Nat.zero_le _⟩, List.nodup_nil, fun _ hm => (by cases hm)⟩

theorem boot_tidy {d : Disk} (hboot : boot d = some sv) : sv.store.Tidy := by
  obtain ⟨⟨_, sv₁⟩, hrun, rfl⟩ := Option.map_eq_some_iff.mp hboot
  exact run_tidy d.server_tidy hrun

/-! ## Every run -/

/-- **No cached item is used after its eviction.** After any run from boot, no request uses an item that is gone, but a `link`
whose new name lies deep. -/
theorem no_stale_use {d : Disk} (hboot : boot d = some sv₀) (hrun : serves sv₀ reqs = some sv) (hnear : req.Near g sv) :
    ¬ req.UsesStale sv := by
  have hc := serves_tidy (boot_tidy hboot) hrun
  cases req with
  | sync =>
    rintro ⟨before, item, after, t, _, ht, _, hloses⟩
    exact (syncInodes_tidy (syncBlocks_tidy hc) ht).not_loses _ hloses
  | _ => exact (handler_steady hc hnear).not_stale

theorem no_stale_use_link : ∃ sv, (mkyfs 100 31 fun _ => false).serves [.create (some [SLASH, 97]) 1] = some sv ∧
    ¬ Request.UsesStale sv (.link (some [SLASH, 97]) (some [SLASH, 98]) 1) := by
  obtain ⟨sv, hrun, _⟩ := Option.map_eq_some_iff.mp (show ((mkyfs 100 31 fun _ => false).serves
    [.create (some [SLASH, 97]) 1]).map (fun _ => ()) = some () by decide +kernel)
  obtain ⟨sv₀, hboot, hrun₀⟩ := Disk.serves_eq hrun
  exact ⟨sv, hrun, no_stale_use (g := smallDisk.geometry) hboot hrun₀ (.inl (by decide))⟩

/-- Fifteen directories, one inside the other, and a file next to the first. -/
def deepDirs : List Request :=
  (List.range 15).map (fun k => .mkdir (some [97]) (if k = 0 then 1 else 32 - k)) ++ [.create (some [SLASH, 102]) 1]

/-- A name in the last one. -/
def deepName : CStr := (List.range 15).flatMap (fun _ => [97, SLASH]) ++ [103]

/-- Walking to the new name evicts the inode of the old one. -/
theorem deep_link_uses_stale : ∃ sv, (mkyfs 100 31 fun _ => false).serves deepDirs = some sv ∧
    Request.UsesStale sv (.link (some [SLASH, 102]) (some deepName) 1) := by
  obtain ⟨sv, hrun, h⟩ := Option.map_eq_some_iff.mp (show ((mkyfs 100 31 fun _ => false).serves deepDirs).map (fun sv =>
    decide (UsesStale (Request.link (some [SLASH, 102]) (some deepName) 1).handler sv)) = some true by decide +kernel)
  refine ⟨sv, hrun, ?_⟩
  unfold Request.UsesStale
  exact of_decide_eq_true h

end Yfs
