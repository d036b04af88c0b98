import Yfs.Bounds
import Yfs.Evicted

/-! # Requests that are answered -/

namespace Yfs

open Cache

variable {g : Geometry} {sv : Server} {req : Request} {s : Store}

/-! ## Flushing -/

theorem syncInode_total {item : CacheItem Inode} (hb : BlocksOk s) (hi : InodesOk g s) (hs : s.num_sectors = g.sectors)
    (hm : item ∈ s.cache_i_queue) : ∃ s', syncInode s item = some s' := by
  unfold syncInode
  split
  case isFalse => exact ⟨s, rfl⟩
  case isTrue =>
    have hitem := hi.range item hm
    have htable := Geometry.isTable_tableBlock hitem
    have hfits := g.table_fits
    obtain ⟨p, t, hg⟩ := get_b_total hb (b := tableBlock item.c_item_num) (by
      rw [Store.isSector, hs]
      exact ⟨by have := htable.1; omega, by have := htable.2; omega⟩)
    obtain ⟨_, _, _, block, hblock, _⟩ := get_b_spec hb hg
    obtain ⟨q, hq⟩ := assign_total hblock (block.data.setInode (tableSlot item.c_item_num).toNat item.data)
    simp only [hg, hblock, slotOf_eq hitem.1, hq, Option.bind_eq_bind, Option.bind_some]
    exact ⟨_, rfl⟩

theorem syncInodes_total (hb : BlocksOk s) (hi : InodesOk g s) (hs : s.num_sectors = g.sectors) :
    ∃ s', syncInodes s = some s' := by
  have hloop : ∀ (l : List (CacheItem Inode)) (t : Store), InodeStep g s t → t.cache_i_queue = s.cache_i_queue →
      (∀ x ∈ l, x ∈ s.cache_i_queue) → ∃ s', l.foldlM syncInode t = some s' := by
    intro l
    induction l with
    | nil => exact fun t _ _ _ => ⟨t, rfl⟩
    | cons x l ih =>
      intro t ht hq hl
      have hx : x ∈ t.cache_i_queue := hq ▸ hl x List.mem_cons_self
      obtain ⟨u, hu⟩ := syncInode_total ht.blocks ht.inodes (ht.sectors.trans hs) hx
      obtain ⟨hstep, hqueue, _⟩ := syncInode_step ht.blocks ht.inodes hx hu
      obtain ⟨s', hs'⟩ := ih u (ht.trans hstep) (hqueue.trans hq) fun y hy => hl y (List.mem_cons_of_mem x hy)
      exact ⟨s', by rw [List.foldlM_cons, hu]; exact hs'⟩
  exact hloop _ s (.refl hb hi) rfl fun _ hx => hx

theorem handle_sync_total (h : sv.CachesOk g) : ∃ sv', handle_sync sv = some (0, sv') := by
  have hstep := (syncBlocks_step h.blocks).inodeStep h.inodes
  obtain ⟨s', hs'⟩ := syncInodes_total hstep.blocks hstep.inodes (hstep.sectors.trans h.sectors)
  exact ⟨{ sv with store := s' }, by simp [handle_sync, hs']⟩

/-! ## Requests -/

/-- The request runs into nothing undefined and uses no item that is gone. -/
structure Request.Answerable (g : Geometry) (sv : Server) (req : Request) : Prop where
  safe : req.Safe g sv.fs
  parents : req.Defined sv.fs
  near : req.Near g sv

theorem serve_handler {req : Request} (hne : req ≠ .sync) : serve sv req = run req.handler sv := by
  cases req <;> first | rfl | exact absurd rfl hne

/-- **Answers.** An answerable request is answered. -/
theorem OnDisk.answers (h : OnDisk g sv) (hreq : req.Answerable g sv) : ∃ resp sv', serve sv req = some (resp, sv') := by
  by_cases hsync : req = .sync
  · subst hsync
    obtain ⟨sv', hs⟩ := handle_sync_total h.caches
    exact ⟨{ ret := 0 }, sv', by simp [serve, hs]⟩
  · obtain ⟨resp, sv', _, hrun, _⟩ := run_total h.caches.rel (handler_steady h.caches.tidy hreq.near).not_stale
      (handler_total h.wellFormed h.inRange hreq.safe hreq.parents) (handler_spec h.wellFormed g.isInode_root hreq.safe)
    exact ⟨resp, sv', (serve_handler hsync).trans hrun⟩

/-- What the handler does, the server does. -/
theorem OnDisk.serves_to {Q : Response → FS → Prop} (h : OnDisk g sv) (hreq : req.Answerable g sv) (hne : req ≠ .sync)
    (hw : wp g req.handler sv.fs Q) : ∃ resp sv' σ', serve sv req = some (resp, sv') ∧ Q resp σ' ∧ Rel g sv' σ' := by
  obtain ⟨resp, sv', σ', hrun, hQ, hrel⟩ := run_total h.caches.rel (handler_steady h.caches.tidy hreq.near).not_stale
    (handler_total h.wellFormed h.inRange hreq.safe hreq.parents) hw
  exact ⟨resp, sv', σ', (serve_handler hne).trans hrun, hQ, hrel⟩

/-- A handler that can only run into something undefined. -/
theorem OnDisk.unanswered (h : OnDisk g sv) (hne : req ≠ .sync) (hw : wp g req.handler sv.fs fun _ _ => False) : serve sv req = none := by
  rw [serve_handler hne]
  cases hrun : run req.handler sv with
  | none => rfl
  | some r =>
    obtain ⟨_, hfalse, _⟩ := run_sound h.caches.rel hw hrun
    exact hfalse.elim

/-- What the handler does if it returns, the server does if it answers. -/
theorem OnDisk.answered {Q : Response → FS → Prop} {resp : Response} {sv' : Server} (h : OnDisk g sv) (hne : req ≠ .sync)
    (hw : wp g req.handler sv.fs Q) (hserve : serve sv req = some (resp, sv')) : ∃ σ', Q resp σ' ∧ Rel g sv' σ' := by
  rw [serve_handler hne] at hserve
  exact run_sound h.caches.rel hw hserve

/-- A handler that is not the whole of a request. -/
theorem OnDisk.returns {α : Type} {p : Prog α} {R : α → Server → Prop} {Q : α → FS → Prop} (h : OnDisk g sv)
    (hs : Steady p sv R) (ht : twp g p sv.fs fun _ _ => True) (hw : wp g p sv.fs Q) :
    ∃ a sv' σ', run p sv = some (a, sv') ∧ Q a σ' ∧ Rel g sv' σ' := run_total h.caches.rel hs.not_stale ht hw

end Yfs
