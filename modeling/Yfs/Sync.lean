import Yfs.Code.Server

/-! # `handle_sync` changes nothing that a reader sees -/

namespace Yfs

open Cache Queue

theorem logicalBlock_WriteSector {s : Store} (h : BlocksOk s) {item : CacheItem Block}
    (hm : item ∈ s.cache_b_queue) (b : Int) :
    logicalBlock (WriteSector s item.c_item_num item.data) b = logicalBlock s b := by
  rw [WriteSector, if_pos (h.range item hm)]
  simp only [logicalBlock]
  cases hq : query_ht s.cache_b_queue b with
  | some x => rfl
  | none =>
    refine Function.update_of_ne (fun he => ?_) _ _
    rw [he, query_ht, lookup_of_mem h.distinct hm] at hq
    cases hq

/-- Writing a cached block to its sector. -/
theorem flush_b_step {s : Store} (h : BlocksOk s) {item : CacheItem Block} (hm : item ∈ s.cache_b_queue) :
    BlockStep s (WriteSector s item.c_item_num item.data) ∧
      (WriteSector s item.c_item_num item.data).cache_b_queue = s.cache_b_queue ∧
      ∀ P, BlocksDiffer s P → BlocksDiffer (WriteSector s item.c_item_num item.data) fun x => x ≠ item ∧ P x := by
  have hview := logicalBlock_WriteSector h hm
  have hmark : ∀ P, BlocksDiffer s P →
      BlocksDiffer (WriteSector s item.c_item_num item.data) fun x => x ≠ item ∧ P x := by
    intro P hmk x hx hne
    rw [WriteSector, if_pos (h.range item hm)] at hx hne
    by_cases he : x.c_item_num = item.c_item_num
    · have hq := lookup_of_mem h.distinct hm
      rw [← he, lookup_of_mem h.distinct hx] at hq
      simp [Option.some.inj hq] at hne
    · simp only [Function.update_of_ne he] at hne
      exact ⟨fun hxi => he (by rw [hxi]), hmk x hx hne⟩
  rw [WriteSector, if_pos (h.range item hm)] at hview hmark ⊢
  exact ⟨⟨⟨h.distinct, h.range, h.size⟩, rfl, rfl, rfl, hview, fun P hmk x hx hne =>
    (hmark P hmk x hx hne).2⟩, rfl, hmark⟩

theorem syncBlocks_step {s : Store} (h : BlocksOk s) : BlockStep s (syncBlocks s) := by
  have hloop : ∀ (l : List (CacheItem Block)) (t : Store), BlockStep s t → t.cache_b_queue = s.cache_b_queue →
      (∀ x ∈ l, x ∈ s.cache_b_queue) →
      BlockStep s (l.foldl (fun s item => if item.dirty then WriteSector s item.c_item_num item.data else s) t) := by
    intro l
    induction l with
    | nil => exact fun t ht _ _ => ht
    | cons x l ih =>
      intro t ht hq hl
      have hx : x ∈ t.cache_b_queue := hq ▸ hl x List.mem_cons_self
      have hl' : ∀ y ∈ l, y ∈ s.cache_b_queue := fun y hy => hl y (List.mem_cons_of_mem x hy)
      rw [List.foldl_cons]
      split
      · obtain ⟨hstep, hq', _⟩ := flush_b_step ht.ok hx
        exact ih _ (ht.trans hstep) (hq'.trans hq) hl'
      · exact ih _ ht hq hl'
  exact hloop _ s (.refl h) rfl fun _ hx => hx

/-- Every cached block is as its sector. -/
def Synced (s : Store) : Prop := ∀ b, logicalBlock s b = s.sectors b

theorem synced_iff {s : Store} (h : BlocksOk s) : Synced s ↔ BlocksDiffer s fun _ => False := by
  constructor
  · intro hs x hx hne
    exact hne ((logicalBlock_cached h hx).symm.trans (hs _))
  · intro hd b
    unfold logicalBlock
    cases hq : query_ht s.cache_b_queue b with
    | none => rfl
    | some x =>
      obtain ⟨hx, rfl⟩ := lookup_mem hq
      exact by_contra fun hne => hd x hx hne

theorem BlockStep.synced {s s' : Store} (h : BlockStep s s') (hs : Synced s) (hb : BlocksOk s) : Synced s' :=
  (synced_iff h.ok).mpr (h.marked _ ((synced_iff hb).mp hs))

/-- The first loop writes the dirty blocks. -/
theorem syncBlocks_differ {s : Store} (h : BlocksOk s) (hm : MarkedBlocks s fun _ => False) : Synced (syncBlocks s) := by
  have hloop : ∀ (l : List (CacheItem Block)) (t : Store), BlockStep s t → t.cache_b_queue = s.cache_b_queue →
      (∀ x ∈ l, x ∈ s.cache_b_queue) → BlocksDiffer t (fun x => x.dirty = true ∧ x ∈ l) →
      BlocksDiffer (l.foldl (fun s item => if item.dirty then WriteSector s item.c_item_num item.data else s) t)
        fun _ => False := by
    intro l
    induction l with
    | nil => exact fun t _ _ _ hd x hx hne => by cases (hd x hx hne).2
    | cons x l ih =>
      intro t ht hq hl hd
      have hx : x ∈ t.cache_b_queue := hq ▸ hl x List.mem_cons_self
      have hl' : ∀ y ∈ l, y ∈ s.cache_b_queue := fun y hy => hl y (List.mem_cons_of_mem x hy)
      rw [List.foldl_cons]
      split
      case isTrue =>
        obtain ⟨hstep, hq', hd'⟩ := flush_b_step ht.ok hx
        refine ih _ (ht.trans hstep) (hq'.trans hq) hl' fun y hy hne => ?_
        obtain ⟨hyx, hdirty, hmem⟩ := hd' _ hd y hy hne
        exact ⟨hdirty, (List.mem_cons.mp hmem).resolve_left hyx⟩
      case isFalse hclean =>
        refine ih _ ht hq hl' fun y hy hne => ?_
        obtain ⟨hdirty, hmem⟩ := hd y hy hne
        exact ⟨hdirty, (List.mem_cons.mp hmem).resolve_left fun he => hclean (he ▸ hdirty)⟩
  refine (synced_iff (syncBlocks_step h).ok).mpr (hloop _ s (.refl h) rfl (fun _ hx => hx) fun x hx hne => ?_)
  exact ⟨(hm x hx hne).resolve_right id, hx⟩

theorem assign_cached {α : Type} {q q' : CacheQueue α} {p : Ptr} {v : α} (h : assign q p v = some q') :
    ∃ x ∈ q', x.c_item_num = p.num ∧ x.data = v := by
  obtain ⟨item, hitem⟩ := assign_deref h
  have hq := query_assign h p.num
  rw [if_pos rfl, deref_query hitem] at hq
  obtain ⟨hm, hn⟩ := lookup_mem hq
  exact ⟨_, hm, hn, rfl⟩

theorem syncInode_step {g : Geometry} {s s' : Store} {item : CacheItem Inode} (hb : BlocksOk s) (hi : InodesOk g s)
    (hm : item ∈ s.cache_i_queue) (hs : syncInode s item = some s') :
    InodeStep g s s' ∧ s'.cache_i_queue = s.cache_i_queue ∧ (Synced s → Synced s') ∧
      (item.dirty = true → logicalSlot s' item.c_item_num = item.data) := by
  unfold syncInode at hs
  split at hs
  case isFalse =>
    obtain rfl := Option.some.inj hs
    exact ⟨.refl hb hi, rfl, id, fun hd => absurd hd ‹_›⟩
  case isTrue =>
    have hitem := hi.range item hm
    obtain ⟨⟨p, t⟩, hg, hs⟩ := Option.bind_eq_some_iff.mp hs
    obtain ⟨block, hblock, hs⟩ := Option.bind_eq_some_iff.mp hs
    obtain ⟨slot, hslot, hs⟩ := Option.bind_eq_some_iff.mp hs
    obtain ⟨q, ha, hs⟩ := Option.bind_eq_some_iff.mp hs
    obtain rfl := Option.some.inj hs
    obtain ⟨hp, _, hstep, block', hblock', hdata⟩ := get_b_spec hb hg
    rw [hblock] at hblock'
    obtain rfl := Option.some.inj hblock'
    rw [slotOf_eq hitem.1] at hslot
    obtain rfl := Option.some.inj hslot
    obtain ⟨hok, hother, hslots, hmark⟩ := writeSlot_spec hitem hstep.ok hp (hdata.trans (by rw [hp])) hstep.view ha
    obtain ⟨x, hx, hxn, hxd⟩ := assign_cached ha
    obtain ⟨hflush, hqb, hclean⟩ := flush_b_step hok hx
    rw [hxn, hxd, hp] at hflush hclean hqb
    have hqi : ({ t with cache_b_queue := q } : Store).cache_i_queue = s.cache_i_queue := hstep.inodes
    have hslot : ∀ i, 0 ≤ i → logicalSlot (WriteSector { t with cache_b_queue := q } (tableBlock item.c_item_num)
        (block.data.setInode (tableSlot item.c_item_num).toNat item.data)) i =
          if i = item.c_item_num then item.data else logicalSlot s i :=
      fun i h0 => (hflush.slot i).trans (hslots i h0)
    refine ⟨⟨hflush.ok, hflush.inodesOk ⟨hqi ▸ hi.distinct, hqi ▸ hi.range, hqi ▸ hi.size⟩, hflush.sectors.trans hstep.sectors,
      fun b hbt => ?_, fun i hii => ?_, fun i hii => ?_, fun exempt hmk => ?_, fun exempt hmk => ?_⟩,
      hflush.inodes.trans hqi, fun hsync b => ?_, fun _ => (hslot _ hitem.1).trans (if_pos rfl)⟩
    · refine (hflush.view b).trans (hother b fun he => hbt ?_)
      rw [he, hp]
      exact Geometry.isTable_tableBlock hitem
    · rw [logicalInode, logicalInode, hslot i hii.1, hflush.inodes, hqi]
      by_cases he : i = item.c_item_num
      · rw [he, query_ht, lookup_of_mem hi.distinct hm]
      · rw [if_neg he]
    · have hs := hslot i hii.1
      split at hs
      case isTrue he => exact Or.inr (by rw [hs, he, logicalInode_cached hi hm])
      case isFalse => exact Or.inl hs
    · intro y hy hne
      obtain ⟨hyx, h | h | h⟩ := hclean _ (hmark exempt (hstep.marked _ hmk)) y hy hne
      · exact Or.inl h
      · exact Or.inr h
      · -- The table block has just been written.
        have hq := lookup_of_mem hok.distinct hx
        rw [hqb] at hy
        rw [hxn, ← h, lookup_of_mem hok.distinct hy] at hq
        exact absurd (Option.some.inj hq) hyx
    · intro y hy hne
      rw [hflush.inodes, hqi] at hy
      have hyi := hi.range y hy
      rw [hslot _ hyi.1] at hne
      split at hne
      case isTrue he =>
        have hq := lookup_of_mem hi.distinct hm
        rw [← he, lookup_of_mem hi.distinct hy] at hq
        exact absurd (congrArg CacheItem.data (Option.some.inj hq)) hne
      case isFalse => exact hmk y hy hne
    · have ht := hstep.synced hsync hb b
      have hsec : ({ t with cache_b_queue := q } : Store).isSector (tableBlock item.c_item_num) := by
        rw [← hp, ← hxn]
        exact hok.range x hx
      rw [hflush.view, logicalBlock_assign ha, hp, WriteSector, if_pos hsec, ht]
      simp only [Function.update_apply]

theorem syncInodes_step {g : Geometry} {s s' : Store} (hb : BlocksOk s) (hi : InodesOk g s)
    (hs : syncInodes s = some s') : InodeStep g s s' := by
  have hloop : ∀ (l : List (CacheItem Inode)) (t : Store), InodeStep g s t → t.cache_i_queue = s.cache_i_queue →
      (∀ x ∈ l, x ∈ s.cache_i_queue) → l.foldlM syncInode t = some s' → InodeStep g s s' := by
    intro l
    induction l with
    | nil =>
      intro t ht _ _ hs
      obtain rfl := Option.some.inj hs
      exact ht
    | cons x l ih =>
      intro t ht hq hl hs
      rw [List.foldlM_cons] at hs
      obtain ⟨u, hu, hs⟩ := Option.bind_eq_some_iff.mp hs
      obtain ⟨hstep, hq'⟩ := syncInode_step ht.blocks ht.inodes (hq ▸ hl x List.mem_cons_self) hu
      exact ih u (ht.trans hstep) (hq'.1.trans hq) (fun y hy => hl y (List.mem_cons_of_mem x hy)) hs
  exact hloop _ s (.refl hb hi) rfl (fun _ hx => hx) hs

/-- Its second loop writes the dirty inodes. -/
theorem syncInodes_synced {g : Geometry} {s s' : Store} (hb : BlocksOk s) (hi : InodesOk g s) (hsync : Synced s)
    (hm : MarkedInodes s fun _ => False) (hs : syncInodes s = some s') :
    Synced s' ∧ ∀ i, g.isInode i → logicalSlot s' i = logicalInode s' i := by
  have hloop : ∀ (l : List (CacheItem Inode)) (t : Store), InodeStep g s t → t.cache_i_queue = s.cache_i_queue →
      (∀ x ∈ l, x ∈ s.cache_i_queue) → Synced t →
      (∀ x ∈ t.cache_i_queue, x.data ≠ logicalSlot t x.c_item_num → x.dirty = true ∧ x ∈ l) → l.foldlM syncInode t = some s' →
      InodeStep g s s' ∧ Synced s' ∧ ∀ x ∈ s'.cache_i_queue, x.data = logicalSlot s' x.c_item_num := by
    intro l
    induction l with
    | nil =>
      intro t ht _ _ hsync hd hs
      obtain rfl := Option.some.inj hs
      exact ⟨ht, hsync, fun x hx => by_contra fun hne => by cases (hd x hx hne).2⟩
    | cons x l ih =>
      intro t ht hq hl hsync hd hs
      rw [List.foldlM_cons] at hs
      obtain ⟨u, hu, hs⟩ := Option.bind_eq_some_iff.mp hs
      obtain ⟨hstep, hq', hsync', hslot⟩ := syncInode_step ht.blocks ht.inodes (hq ▸ hl x List.mem_cons_self) hu
      refine ih u (ht.trans hstep) (hq'.trans hq) (fun y hy => hl y (List.mem_cons_of_mem x hy)) (hsync' hsync) (fun y hy hne => ?_) hs
      rw [hq'] at hy
      -- A slot that is right stays right.
      have hold : y.data ≠ logicalSlot t y.c_item_num := by
        intro he
        rcases hstep.slot _ (ht.inodes.range y hy) with h | h
        · exact hne (he.trans h.symm)
        · exact hne ((logicalInode_cached ht.inodes hy).symm.trans h.symm)
      obtain ⟨hdirty, hmem⟩ := hd y hy hold
      refine ⟨hdirty, (List.mem_cons.mp hmem).resolve_left fun he => hne ?_⟩
      subst he
      exact (hslot hdirty).symm
  obtain ⟨hstep, hsync', hall⟩ := hloop _ s (.refl hb hi) rfl (fun _ hx => hx) hsync
    (fun x hx hne => ⟨(hm x hx hne).resolve_right id, hx⟩) hs
  refine ⟨hsync', fun i hi => ?_⟩
  unfold logicalInode
  cases hq : query_ht s'.cache_i_queue i with
  | none => rfl
  | some x =>
    obtain ⟨hx, rfl⟩ := lookup_mem hq
    exact (hall x hx).symm

/-- Where the flags are sound, both loops leave nothing to write. -/
theorem handle_sync_synced {g : Geometry} {sv sv' : Server} {r : Int} (hb : BlocksOk sv.store) (hi : InodesOk g sv.store)
    (hmb : MarkedBlocks sv.store fun _ => False) (hmi : MarkedInodes sv.store fun _ => False) (hs : handle_sync sv = some (r, sv')) :
    InodeStep g sv.store sv'.store ∧ Synced sv'.store ∧ ∀ i, g.isInode i → logicalSlot sv'.store i = logicalInode sv'.store i := by
  obtain ⟨s, hsync, he⟩ := Option.map_eq_some_iff.mp hs
  obtain ⟨rfl, rfl⟩ := Prod.mk.inj he
  have hstep := (syncBlocks_step hb).inodeStep hi
  exact ⟨hstep.trans (syncInodes_step hstep.blocks hstep.inodes hsync),
    syncInodes_synced hstep.blocks hstep.inodes (syncBlocks_differ hb hmb) (hstep.marked_i _ hmi) hsync⟩

/-- `handle_sync` keeps what the server shows. -/
theorem handle_sync_spec {g : Geometry} {sv sv' : Server} {σ : FS} {r : Int} (h : Rel g sv σ)
    (hs : handle_sync sv = some (r, sv')) : r = 0 ∧ Rel g sv' σ := by
  obtain ⟨s, hsync, he⟩ := Option.map_eq_some_iff.mp hs
  obtain ⟨rfl, rfl⟩ := Prod.mk.inj he
  have hb := syncBlocks_step h.blocks
  have hstep := hb.inodeStep h.inodes
  exact ⟨rfl, h.step (hstep.trans (syncInodes_step hstep.blocks hstep.inodes hsync))⟩

end Yfs
