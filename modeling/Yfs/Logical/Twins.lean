import Yfs.Answers
import Yfs.Logical.Alike
import Yfs.Logical.Lookups
import Yfs.Outcome

/-! # Two servers that show the same

What the caches hold beyond that decides neither an answer nor whether an item is used after its eviction.
-/

namespace Yfs

variable {g : Geometry} {sv sv' sv₁ : Server} {σ τ : FS} {i cur : Int} {path old_name new_name : CStr} {req : Request} {l l₁ : Logical}

/-! ## Programs in parts -/

section

variable {α β γ : Type} {R : α → β → Prop} {p : Prog α} {q : Prog β} {a : α} {b : β}

theorem eval_bind (q : Prog β) (f : β → Prog γ) (l : Logical) :
    eval g (q >>= f) l = (eval g q l).bind fun r => eval g (f r.1) r.2 := by
  induction q generalizing l with
  | ret a => rfl
  | undef => rfl
  | call c k ih =>
    rw [Prog.call_bind, eval, eval]
    cases c.apply g l with
    | none => rfl
    | some r => exact ih r.1 r.2

theorem eval_bind_some {f : β → Prog γ} {c : γ} (h : eval g (q >>= f) l = some (c, l₁)) :
    ∃ b l', eval g q l = some (b, l') ∧ eval g (f b) l' = some (c, l₁) := by
  rw [eval_bind] at h
  obtain ⟨⟨b, l'⟩, hb, hc⟩ := Option.bind_eq_some_iff.mp h
  exact ⟨b, l', hb, hc⟩

theorem run_bind_some {f : α → Prog γ} {c : γ} (h : run (p >>= f) sv = some (c, sv₁)) :
    ∃ a sv', run p sv = some (a, sv') ∧ run (f a) sv' = some (c, sv₁) := by
  rw [run_bind] at h
  obtain ⟨⟨a, sv'⟩, ha, hc⟩ := Option.bind_eq_some_iff.mp h
  exact ⟨a, sv', ha, hc⟩

theorem exec_of_run {c : Cmd} {r : c.Ret} (h : run (Prog.cmd c) sv = some (r, sv₁)) : exec sv c = some (r, sv₁) := by
  unfold Prog.cmd run at h
  split at h
  case h_1 => cases h
  case h_2 r sv' he =>
    obtain ⟨rfl, rfl⟩ := Prod.mk.inj (Option.some.inj h)
    exact he

theorem run_readInode {p : Ptr} {ino : Inode} (h : run (readInode p) sv = some (ino, sv₁)) : sv₁ = sv := by
  obtain ⟨item, _, he⟩ := Option.map_eq_some_iff.mp (exec_of_run h)
  exact (Prod.mk.inj he).2.symm

theorem run_get_i {p : Ptr} (hc : sv.store.Tidy) (hs : sv.store.Issued) (h : run (get_i i) sv = some (p, sv₁)) :
    sv₁.store.Issued ∧ p.id < sv₁.store.next_id := by
  obtain ⟨⟨ptr, t⟩, hg, he⟩ := Option.map_eq_some_iff.mp (exec_of_run h)
  obtain ⟨rfl, rfl⟩ := Prod.mk.inj he
  obtain ⟨ht, _, hp⟩ := get_i_issued hc hs hg
  exact ⟨ht, hp⟩

/-- What the server returns, the logical program has returned. -/
theorem Alike.run_sound (h : Alike R p q) (hrel : Rel g sv σ) (he : eval g q σ.logical = some (b, l))
    (hrun : run p sv = some (a, sv₁)) : R a b ∧ ∃ σ₁, Rel g sv₁ σ₁ ∧ σ₁.logical = l := by
  induction p generalizing q sv σ with
  | ret a =>
    cases h with
    | ret h =>
      obtain ⟨rfl, rfl⟩ := Prod.mk.inj (Option.some.inj he)
      obtain ⟨rfl, rfl⟩ := Prod.mk.inj (Option.some.inj hrun)
      exact ⟨h, σ, hrel, rfl⟩
  | undef => cases hrun
  | call c k ih =>
    unfold run at hrun
    split at hrun
    case h_1 => cases hrun
    case h_2 r sv' hx =>
      obtain ⟨q', σ₁, h₁, hrel₁, he₁, _⟩ := (h.step hrel he).2 r sv' hx
      exact ih r h₁ hrel₁ he₁ hrun

theorem Steady.and_run {Q : α → Server → Prop} (h : Steady p sv Q) :
    Steady p sv fun a sv' => Q a sv' ∧ run p sv = some (a, sv') := by
  have hand : ∀ (p : Prog α) (sv : Server), Steady p sv Q → ∀ P : α → Server → Prop,
      (∀ a sv', run p sv = some (a, sv') → P a sv') → Steady p sv fun a sv' => Q a sv' ∧ P a sv' := by
    intro p
    induction p with
    | ret a => exact fun sv h P hP => ⟨h, hP a sv rfl⟩
    | undef => exact fun _ _ _ _ => trivial
    | call c k ih =>
      intro sv h P hP
      refine ⟨h.1, fun r sv' hx => ih r sv' (h.2 r sv' hx) P fun a sv'' hr => hP a sv'' ?_⟩
      rw [run, hx]
      exact hr
  exact hand p sv h _ fun _ _ hr => hr

theorem exec_not_stale {c : Cmd} {r : c.Ret} (hc : sv.store.Tidy) (he : exec sv c = some (r, sv₁)) : ¬ c.Stale sv := by
  have hitem : ∀ {α : Type} {x : Option (CacheItem α)} {f : CacheItem α → c.Ret × Server}, x.map f = some (r, sv₁) → ¬ x = none := by
    rintro α _ f he rfl
    cases he
  cases c with
  | get_i i =>
    rintro ⟨_, hs | hs⟩
    · exact hc.not_evictLoses hs
    · split at hs
      case h_1 => exact hs
      case h_2 t ht => exact (makeRoom_i_used hc ht).1.not_loses _ hs
  | readBlock p => exact hitem he
  | readInode p => exact hitem he
  | writeBlock p v =>
    intro hs
    simp [exec, assign, show deref sv.store.cache_b_queue p = none from hs] at he
  | writeInode p v =>
    intro hs
    simp [exec, assign, show deref sv.store.cache_i_queue p = none from hs] at he
  | dirtyBlock b =>
    intro hs
    simp [exec, markDirty, show query_ht sv.store.cache_b_queue b = none from hs] at he
  | dirtyInode i =>
    intro hs
    simp [exec, markDirty, show query_ht sv.store.cache_i_queue i = none from hs] at he
  | _ => exact id

theorem run_not_stale (hc : sv.store.Tidy) (hrun : run p sv = some (a, sv₁)) : ¬ UsesStale p sv := by
  induction p generalizing sv with
  | ret a => exact id
  | undef => exact id
  | call c k ih =>
    unfold run at hrun
    split at hrun
    case h_1 => cases hrun
    case h_2 r sv' hx =>
      rw [UsesStale, hx, not_or]
      exact ⟨exec_not_stale hc hx, ih r (exec_tidy hc hx) hrun⟩

theorem run_issued (hc : sv.store.Tidy) (hs : sv.store.Issued) (hrun : run p sv = some (a, sv₁)) : sv₁.store.Issued := by
  induction p generalizing sv with
  | ret b =>
    obtain ⟨rfl, rfl⟩ := Prod.mk.inj (Option.some.inj hrun)
    exact hs
  | undef => cases hrun
  | call c k ih =>
    unfold run at hrun
    split at hrun
    case h_1 => cases hrun
    case h_2 r sv' hx => exact ih r (exec_tidy hc hx) (exec_issued hc hs hx) hrun

end

/-! ## Linking -/

/-- Few lookups of `handle_create` leave the inode of `p` in its place. -/
theorem handle_create_lives {p : Ptr} {b new : Int} (hc : sv.store.Tidy) (hp : Live sv.store.cache_i_queue p ∅) (hrel : Rel g sv σ)
    (he : eval g (handle_create (some path) cur new) σ.logical = some (b, l))
    (hlasts : b ≠ ERROR → Lasts p.num ∅ (lookups g (handle_create (some path) cur new) σ.logical)) :
    Steady (handle_create (some path) cur new) sv fun r sv' =>
      sv'.store.Tidy ∧ (r ≠ ERROR → ∃ R, Live sv'.store.cache_i_queue p R) := by
  refine (handle_create_runs hc).and_run.mono ?_
  rintro r sv₂ ⟨_, hcreate⟩
  obtain ⟨rfl, _⟩ := handle_create_alike.run_sound hrel he hcreate
  exact ⟨run_tidy hc hcreate, fun hr => handle_create_alike.lasts hrel he hcreate hp (hlasts hr)⟩

/-- The end of `handle_link` finds its inode only if the lookups were few. -/
theorem link_rest_lasted {p : Ptr} {a b : Int} (hs : sv.store.Issued) (hid : p.id < sv.store.next_id) (hrel : Rel g sv σ)
    (he : eval g (handle_create (some path) cur p.num) σ.logical = some (b, l)) (hb : b ≠ ERROR)
    (hrun : run (do
      let ret ← handle_create (some path) cur p.num
      if ret = ERROR then return ERROR
      modifyInode p fun ino => ino.set .nlink (ino.nlink + 1)
      dirtyInode p.num
      return 0) sv = some (a, sv₁)) :
    Lasts p.num ∅ (lookups g (handle_create (some path) cur p.num) σ.logical) := by
  obtain ⟨r, sv₂, hcreate, hrest⟩ := run_bind_some hrun
  obtain ⟨rfl, _⟩ := handle_create_alike.run_sound hrel he hcreate
  rw [if_neg hb] at hrest
  obtain ⟨_, sv₃, hmodify, _⟩ := run_bind_some hrest
  obtain ⟨ino, sv₄, hread, _⟩ := run_bind_some hmodify
  cases hd : deref sv₂.store.cache_i_queue p with
  | none => simp [readInode, Prog.cmd, run, exec, hd] at hread
  | some item => exact handle_create_alike.lasted hrel he hcreate hs hid hd

/-- The end of `handle_link` finds its inode in the one server if it does in the other. -/
theorem link_rest_twin {p p' : Ptr} {a : Int} (hc : sv'.store.Tidy) (hp : Live sv'.store.cache_i_queue p' ∅) (hnum : p'.num = p.num)
    (hs : sv.store.Issued) (hid : p.id < sv.store.next_id) (hrel : Rel g sv σ) (hrel' : Rel g sv' τ) (hlog : τ.logical = σ.logical)
    {b : Int} (he : eval g (handle_create (some path) cur p.num) σ.logical = some (b, l))
    (hrun : run (do
      let ret ← handle_create (some path) cur p.num
      if ret = ERROR then return ERROR
      modifyInode p fun ino => ino.set .nlink (ino.nlink + 1)
      dirtyInode p.num
      return 0) sv = some (a, sv₁)) :
    Steady (handle_create (some path) cur p.num) sv' fun r sv'' =>
      sv''.store.Tidy ∧ (r ≠ ERROR → ∃ R, Live sv''.store.cache_i_queue p' R) := by
  refine handle_create_lives hc hp hrel' (hlog ▸ he) fun hb => ?_
  rw [hnum, hlog]
  exact link_rest_lasted hs hid hrel he hb hrun

theorem handle_link_twin {a b : Int} (hrel : Rel g sv σ) (hrel' : Rel g sv' τ) (hlog : τ.logical = σ.logical) (hs : sv.store.Issued)
    (he : eval g (handle_link (some old_name) (some new_name) cur) σ.logical = some (b, l))
    (hrun : run (handle_link (some old_name) (some new_name) cur) sv = some (a, sv₁)) :
    Steady (handle_link (some old_name) (some new_name) cur) sv' fun _ _ => True := by
  have hc := hrel.cachesOk.tidy
  have hc' := hrel'.cachesOk.tidy
  unfold handle_link at he hrun ⊢
  dsimp only at he hrun ⊢
  split
  · exact .ret trivial
  case isFalse hcur =>
  rw [if_neg hcur] at he hrun
  obtain ⟨i, l₂, hwalk, he⟩ := eval_bind_some he
  obtain ⟨i', sv₂, hwalk₁, hrun⟩ := run_bind_some hrun
  have hwalk_alike : Alike Eq (get_path_i_num (adj_path_i old_name cur).1 (adj_path_i old_name cur).2)
      (get_path_i_num (adj_path_i old_name cur).1 (adj_path_i old_name cur).2) := path_walk_alike
  obtain ⟨rfl, σ₂, hrel₂, rfl⟩ := hwalk_alike.run_sound hrel hwalk hwalk₁
  refine (path_walk_steady hc').and_run.bind ?_
  rintro i sv₂' ⟨⟨_, _, h₂, _⟩, hwalk₂⟩
  obtain ⟨rfl, τ₂, hrel₂', hlog₂⟩ := hwalk_alike.run_sound hrel' (hlog ▸ hwalk) hwalk₂
  have hs₂ := run_issued hc hs hwalk₁
  obtain ⟨q, l₃, hget, he⟩ := eval_bind_some he
  obtain ⟨p, sv₃, hget₁, hrun⟩ := run_bind_some hrun
  obtain ⟨hq, σ₃, hrel₃, rfl⟩ := get_i_alike.run_sound hrel₂ hget hget₁
  refine Steady.bind_iff.mpr ((get_i_steady (Q := fun p sv => p.num = i ∧ Live sv.store.cache_i_queue p ∅) hrel₂'.cachesOk.tidy
    fun p sv B hp _ h hlive => ⟨hp.1, hlive⟩).and_run.mono ?_)
  rintro p' sv₃' ⟨⟨hnum', hlive⟩, hget₂⟩
  obtain ⟨hq', τ₃, hrel₃', hlog₃⟩ := get_i_alike.run_sound hrel₂' (hlog₂ ▸ hget) hget₂
  have hnum : p.num = i := hq.trans (hq'.symm.trans hnum')
  obtain ⟨hs₃, hid⟩ := run_get_i hrel₂.cachesOk.tidy hs₂ hget₁
  have hc₃' := hrel₃'.cachesOk.tidy
  obtain ⟨ino, l₄, hread, he⟩ := eval_bind_some he
  obtain ⟨_, sv₄, hread₁, hrun⟩ := run_bind_some hrun
  obtain ⟨rfl, σ₄, hrel₄, rfl⟩ := (readInode_alike hq).run_sound hrel₃ hread hread₁
  obtain rfl := run_readInode hread₁
  refine Steady.bind_iff.mpr ((readInode_steady (Q := fun _ sv => sv = sv₃') hc₃' hlive fun _ _ => rfl).and_run.mono ?_)
  rintro ino' _ ⟨rfl, hread₂⟩
  obtain ⟨rfl, τ₄, hrel₄', hlog₄⟩ := (readInode_alike hq').run_sound hrel₃' (hlog₃ ▸ hread) hread₂
  split
  · exact .ret trivial
  case isFalse hfile =>
  rw [if_neg hfile] at he hrun
  obtain ⟨r, l₅, hcreate, _⟩ := eval_bind_some he
  subst hnum
  exact link_end_steady hnum' (link_rest_twin hc₃' hlive hnum' hs₃ hid hrel₄ hrel₄' hlog₄ hcreate hrun)

/-! ## Requests -/

/-- `sv'` shows what `sv` shows. -/
structure Twins (g : Geometry) (sv sv' : Server) : Prop where
  caches : sv.CachesOk g
  shows : ∃ τ, Rel g sv' τ ∧ τ.logical = sv.fs.logical

theorem Server.CachesOk.twins (h : sv.CachesOk g) : Twins g sv sv := ⟨h, sv.fs, h.rel, rfl⟩

/-- What the raw table bytes and the inodes without a slot are does not matter. -/
theorem Rel.show_as (h : Rel g sv τ) (hglobals : τ.toGlobals = σ.toGlobals) (hinode : ∀ i, g.isInode i → τ.inode i = σ.inode i)
    (hblock : ∀ b, ¬ g.isTable b → τ.block b = σ.block b) :
    Rel g sv { σ with unmarked_i := τ.unmarked_i, unmarked_b := τ.unmarked_b } :=
  ⟨h.blocks, h.inodes, h.sectors, h.globals.trans hglobals, fun b hb => (h.view_b b hb).trans (hblock b hb),
    fun i hi => (h.view_i i hi).trans (hinode i hi), h.marked_b, h.marked_i⟩

theorem Rel.twins (h : Rel g sv σ) (h' : Rel g sv' τ) (hlog : τ.logical = σ.logical) : Twins g sv sv' := by
  have hglobals : τ.toGlobals = σ.toGlobals := congrArg Logical.toGlobals hlog
  have hview : τ.toView = σ.toView := congrArg Logical.toView hlog
  refine ⟨h.cachesOk, _, h'.show_as (σ := sv.fs) ?_ (fun i hi => ?_) (fun b hb => ?_), rfl⟩
  · exact hglobals.trans h.globals.symm
  · rw [hview]
    exact (h.view_i i hi).symm
  · rw [hview]
    exact (h.view_b b hb).symm

theorem Twins.trans {sv₂ : Server} (h : Twins g sv sv₁) (h' : Twins g sv₁ sv₂) : Twins g sv sv₂ := by
  obtain ⟨τ, hrel, hlog⟩ := h.shows
  obtain ⟨τ', hrel', hlog'⟩ := h'.shows
  have hglobals : τ'.toGlobals = sv₁.toGlobals := congrArg Logical.toGlobals hlog'
  have hview : τ'.toView = sv₁.fs.toView := congrArg Logical.toView hlog'
  refine ⟨h.caches, _, hrel'.show_as (σ := τ) (hglobals.trans hrel.globals) (fun i hi => ?_) (fun b hb => ?_), hlog⟩
  · rw [hview]
    exact hrel.view_i i hi
  · rw [hview]
    exact hrel.view_b b hb

/-- The request stays on the disk and out of the raw inode table. -/
def Request.Contained (g : Geometry) (sv : Server) (req : Request) : Prop := (eval g req.handler sv.fs.logical).isSome

/-- Where `sv` answers a request, `sv'` uses nothing stale. -/
theorem Twins.steady {resp : Response} (h : Twins g sv sv') (hs : sv.store.Issued) (hreq : req.Contained g sv)
    (hrun : run req.handler sv = some (resp, sv₁)) : Steady req.handler sv' fun _ _ => True := by
  obtain ⟨τ, hrel', hlog⟩ := h.shows
  have hnear : req.Near g sv' → Steady req.handler sv' fun _ _ => True := handler_steady hrel'.cachesOk.tidy
  cases req with
  | link old_name new_name cur =>
    cases old_name with
    | none => exact hnear trivial
    | some old_name =>
      cases new_name with
      | none => exact hnear trivial
      | some new_name =>
        obtain ⟨⟨resp', l⟩, he⟩ := Option.isSome_iff_exists.mp hreq
        obtain ⟨ret, l', he, _⟩ := eval_bind_some he
        obtain ⟨ret', sv₂, hrun, _⟩ := run_bind_some hrun
        exact (handle_link_twin h.caches.rel hrel' hlog hs he hrun).bind fun _ _ _ => .ret trivial
  | _ => exact hnear trivial

/-- Twins give the same answers and stay twins. -/
theorem Twins.serve {resp : Response} (h : Twins g sv sv') (hs : sv.store.Issued) (hreq : req.Contained g sv)
    (hserve : serve sv req = some (resp, sv₁)) : ∃ sv₁', Yfs.serve sv' req = some (resp, sv₁') ∧ Twins g sv₁ sv₁' := by
  obtain ⟨τ, hrel', hlog⟩ := h.shows
  by_cases hsync : req = .sync
  · subst hsync
    obtain ⟨⟨ret, sv₂⟩, hs₁, he⟩ := Option.map_eq_some_iff.mp hserve
    obtain ⟨rfl, rfl⟩ := Prod.mk.inj he
    obtain ⟨sv₁', hs₂⟩ := handle_sync_total hrel'.cachesOk
    obtain ⟨rfl, hrel₁⟩ := handle_sync_spec h.caches.rel hs₁
    obtain ⟨_, hrel₂⟩ := handle_sync_spec hrel' hs₂
    exact ⟨sv₁', by simp [Yfs.serve, hs₂], hrel₁.twins hrel₂ hlog⟩
  · rw [serve_handler hsync] at hserve ⊢
    obtain ⟨⟨resp', l⟩, he⟩ := Option.isSome_iff_exists.mp hreq
    obtain ⟨rfl, σ₁, hrel₁, rfl⟩ := (Request.handler_alike _).run_sound h.caches.rel he hserve
    obtain ⟨_, sv₁', σ₁', hrun, rfl, hrel₁', hlog₁⟩ :=
      (Request.handler_alike _).run_eq hrel' (hlog ▸ he) (h.steady hs hreq hserve).not_stale
    exact ⟨sv₁', hrun, hrel₁.twins hrel₁' hlog₁⟩

end Yfs
