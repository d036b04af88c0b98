import Yfs.Atomic
import Yfs.Marks
import Yfs.Logical.Twins

/-! # Requests that only look -/

namespace Yfs

open Cache

variable {g : Geometry} {sv sv₀ sv' sv₁ : Server} {σ τ : FS} {req : Request} {reqs : List Request} {resp : Response}

/-! ## Allocated inodes -/

theorem syncInode_issued {s t : Store} {item : CacheItem Inode} (h : s.Issued) (hs : syncInode s item = some t) : t.Issued := by
  unfold syncInode at hs
  split at hs
  case isFalse =>
    obtain rfl := Option.some.inj hs
    exact h
  case isTrue =>
    obtain ⟨⟨p, u⟩, hg, hs⟩ := Option.bind_eq_some_iff.mp hs
    obtain ⟨block, _, hs⟩ := Option.bind_eq_some_iff.mp hs
    obtain ⟨slot, _, hs⟩ := Option.bind_eq_some_iff.mp hs
    obtain ⟨q, _, hs⟩ := Option.bind_eq_some_iff.mp hs
    obtain rfl := Option.some.inj hs
    have hu : u.Issued := fun x hx => lt_of_lt_of_le (h x (get_b_inodes hg ▸ hx)) (get_b_next_id hg)
    unfold WriteSector
    split <;> exact hu

theorem syncInodes_issued {s t : Store} {l : List (CacheItem Inode)} (h : s.Issued) (hs : l.foldlM syncInode s = some t) :
    t.Issued := by
  induction l generalizing s with
  | nil =>
    obtain rfl := Option.some.inj hs
    exact h
  | cons item l ih =>
    rw [List.foldlM_cons] at hs
    obtain ⟨u, hu, hs⟩ := Option.bind_eq_some_iff.mp hs
    exact ih (syncInode_issued h hu) hs

theorem syncBlocks_issued {s : Store} (h : s.Issued) : (syncBlocks s).Issued := by
  unfold syncBlocks
  refine List.foldlRecOn _ _ h fun t ht item _ => ?_
  split
  · unfold WriteSector
    split <;> exact ht
  · exact ht

theorem serve_issued (hc : sv.store.Tidy) (h : sv.store.Issued) (hs : serve sv req = some (resp, sv')) : sv'.store.Issued := by
  by_cases hsync : req = .sync
  · subst hsync
    obtain ⟨⟨ret, sv₁⟩, hrun, he⟩ := Option.map_eq_some_iff.mp hs
    obtain ⟨rfl, rfl⟩ := Prod.mk.inj he
    obtain ⟨s, hsync, he⟩ := Option.map_eq_some_iff.mp hrun
    obtain ⟨rfl, rfl⟩ := Prod.mk.inj he
    exact syncInodes_issued (syncBlocks_issued h) hsync
  · exact run_issued hc h (serve_handler hsync ▸ hs)

/-- Every cached inode of a server that has booted has been allocated. -/
theorem reachable_issued {d : Disk} (hboot : boot d = some sv₀) (hrun : serves sv₀ reqs = some sv) : sv.store.Issued := by
  obtain ⟨⟨_, sv₁⟩, hstart, rfl⟩ := Option.map_eq_some_iff.mp hboot
  have hc := run_tidy d.server_tidy hstart
  have hs : sv₁.store.Issued := run_issued d.server_tidy (fun _ hm => by cases hm) hstart
  clear hboot hstart
  induction reqs generalizing sv₁ with
  | nil =>
    obtain rfl := Option.some.inj hrun
    exact hs
  | cons req reqs ih =>
    rw [serves] at hrun
    split at hrun
    case h_1 => cases hrun
    case h_2 resp sv₂ hserve => exact ih sv₂ hrun (serve_tidy hc hserve) (serve_issued hc hs hserve)

/-! ## One request -/

/-- The request only looks, from an inode and not before the start of a file. -/
def Request.ReadOnly (g : Geometry) : Request → Prop
  | .open _ cur | .chdir _ cur | .stat _ cur _ => g.isInode cur
  | .read i _ _ offset => g.isInode i ∧ 0 ≤ offset
  | .seek i _ _ _ => g.isInode i
  | .sync => True
  | _ => False

namespace Request.ReadOnly

theorem looks (h : req.ReadOnly g) : req.looks = true := by cases req <;> first | rfl | exact h.elim

theorem answerable (h : req.ReadOnly g) : req.Answerable g sv := by
  cases req with
  | «open» => exact ⟨h, trivial, trivial⟩
  | chdir => exact ⟨h, trivial, trivial⟩
  | stat => exact ⟨h, trivial, trivial⟩
  | read => exact ⟨h.1, h.2, trivial⟩
  | seek => exact ⟨h, trivial, trivial⟩
  | sync => exact ⟨trivial, trivial, trivial⟩
  | _ => exact h.elim

end Request.ReadOnly

theorem FS.Unchanged.wellFormed (h : σ.Unchanged g τ) (hw : WellFormed g σ) : WellFormed g τ := by
  refine hw.keep (fun i hi => (hw.mapped i hi).same (h.inode i hi) h.block) ?_ ?_
  · rw [h.b_head]
  · rw [h.i_head]
    exact hw.inodes

theorem Twins.unchanged (h : Twins g sv sv') : sv.fs.Unchanged g sv'.fs := by
  obtain ⟨σ, hrel, hlog⟩ := h.shows
  have hglobals : σ.toGlobals = sv.fs.toGlobals := congrArg Logical.toGlobals hlog
  have hview : σ.toView = sv.fs.toView := congrArg Logical.toView hlog
  have h₁ := hrel.agrees.unchanged
  refine ⟨h₁.i_head.trans (congrArg Globals.i_head hglobals), h₁.b_head.trans (congrArg Globals.b_head hglobals),
    fun i hi => (h₁.inode i hi).trans ?_, fun b hb => (h₁.block b hb).trans ?_⟩
  · rw [hview]
  · rw [hview]

theorem Twins.onDisk (h : Twins g sv sv') (hd : OnDisk g sv) : OnDisk g sv' := by
  obtain ⟨σ, hrel, _⟩ := h.shows
  have hu := h.unchanged
  refine ⟨⟨hrel.cachesOk, hu.wellFormed hd.wellFormed⟩, ?_⟩
  refine hd.inRange.draws (.keep (fun i hi => (hd.wellFormed.mapped i hi).same (hu.inode i hi) hu.block) ?_)
  rw [hu.b_head]
  exact List.Subset.refl _

/-- A request that only looks is answered, and the server shows what it showed. -/
theorem OnDisk.looked (h : OnDisk g sv) (hreq : req.ReadOnly g) :
    ∃ resp sv', serve sv req = some (resp, sv') ∧ Twins g sv sv' := by
  obtain ⟨resp, sv', hserve⟩ := h.answers hreq.answerable
  obtain ⟨σ, heff, hrel⟩ := serve_spec h.caches.rel h.wellFormed g.isInode_root (show req.Answerable g sv from hreq.answerable).safe hserve
  obtain rfl := heff.of_looks hreq.looks
  exact ⟨resp, sv', hserve, h.caches.rel.twins hrel rfl⟩

/-! ## Requests between others -/

/-- The answers to the requests that are not inserted, and the server after all of them. -/
def answers (sv : Server) : List (Bool × Request) → Option (List Response × Server)
  | [] => some ([], sv)
  | (inserted, req) :: l => do
    let (resp, sv) ← serve sv req
    let (resps, sv) ← answers sv l
    some (if inserted then resps else resp :: resps, sv)

/-- In the run without the inserted requests, the state is well formed where they go, and the others are contained. -/
def Server.Admits (g : Geometry) (sv : Server) : List (Bool × Request) → Prop
  | [] => True
  | (true, req) :: l => OnDisk g sv ∧ req.ReadOnly g ∧ sv.Admits g l
  | (false, req) :: l => req.Contained g sv ∧ ∀ resp sv', serve sv req = some (resp, sv') → sv'.Admits g l

/-- A safe request is contained. -/
theorem OnDisk.contained (h : OnDisk g sv) (hsafe : req.Safe g sv.fs) (hdef : req.Defined sv.fs) : req.Contained g sv := by
  obtain ⟨resp, l, he⟩ := eval_total (handler_total h.wellFormed h.inRange hsafe hdef) (handler_spec h.wellFormed g.isInode_root hsafe)
  exact Option.isSome_iff_exists.mpr ⟨_, he⟩

/-- The original run from `sv`, the run with the insertions from its twin `sv'`. -/
theorem Twins.answers {l : List (Bool × Request)} {resps : List Response} (h : Twins g sv sv') (hs : sv.store.Issued)
    (hl : sv.Admits g l) (hrun : answers sv (l.filter fun r => !r.1) = some (resps, sv₁)) :
    ∃ sv₁', Yfs.answers sv' l = some (resps, sv₁') ∧ Twins g sv₁ sv₁' := by
  induction l generalizing sv sv' resps with
  | nil =>
    obtain ⟨rfl, rfl⟩ := Prod.mk.inj (Option.some.inj hrun)
    exact ⟨sv', rfl, h⟩
  | cons r l ih =>
    obtain ⟨inserted, req⟩ := r
    cases inserted with
    | true =>
      obtain ⟨hd, hreq, hl⟩ := hl
      obtain ⟨resp, sv₂', hserve, htwins⟩ := (h.onDisk hd).looked hreq
      obtain ⟨sv₁', hrun', hend⟩ := ih (h.trans htwins) hs hl hrun
      exact ⟨sv₁', by simp [Yfs.answers, hserve, hrun'], hend⟩
    | false =>
      obtain ⟨⟨resp, sv₂⟩, hserve, hrun⟩ := Option.bind_eq_some_iff.mp hrun
      obtain ⟨⟨resps', sv₃⟩, hrest, he⟩ := Option.bind_eq_some_iff.mp hrun
      obtain ⟨rfl, rfl⟩ := Prod.mk.inj (Option.some.inj he)
      obtain ⟨sv₂', hserve', htwins⟩ := h.serve hs hl.1 hserve
      obtain ⟨sv₁', hrun', hend⟩ := ih htwins (serve_issued h.caches.tidy hs hserve) (hl.2 _ _ hserve) hrest
      exact ⟨sv₁', by simp [Yfs.answers, hserve', hrun'], hend⟩

/-- **Looking changes nothing.** In every well-formed state that a server reaches, a request that only looks is answered and
leaves the logical file system as it was. However many are inserted into a run, they change neither the answers to the other
requests nor the state in the end. -/
theorem looking_is_pure {d : Disk} (hboot : boot d = some sv₀) (hreach : serves sv₀ reqs = some sv) (h : OnDisk g sv) :
    (∀ req : Request, req.ReadOnly g → ∃ resp sv', serve sv req = some (resp, sv') ∧ sv.fs.Unchanged g sv'.fs) ∧
    ∀ (l : List (Bool × Request)) (resps : List Response) (sv₁ : Server), sv.Admits g l →
      answers sv (l.filter fun r => !r.1) = some (resps, sv₁) →
        ∃ sv₁', answers sv l = some (resps, sv₁') ∧ sv₁.fs.Unchanged g sv₁'.fs := by
  constructor
  · intro req hreq
    obtain ⟨resp, sv', hserve, htwins⟩ := h.looked hreq
    exact ⟨resp, sv', hserve, htwins.unchanged⟩
  · intro l resps sv₁ hl hrun
    obtain ⟨sv₁', hrun', hend⟩ := h.caches.twins.answers (reachable_issued hboot hreach) hl hrun
    exact ⟨sv₁', hrun', hend.unchanged⟩

theorem smallDisk_onDisk (hboot : boot (smallDisk.disk fun _ => false) = some sv) : OnDisk smallDisk.geometry sv := by
  have hstart := DiskFormat.started hboot
  have hb := (smallDisk.image fun _ => false).booted hboot
  have hheader : sv.fs.inode 0 = ((smallDisk.disk fun _ => false).sectors 1).inode 0 := hb.mirrors.view_i 0 ⟨by decide, by decide⟩
  refine ⟨hstart.sound, hstart.fresh.inRange (by decide) (by decide) rfl (by decide) ?_ fun b hb => ?_⟩
  · unfold View.indirect
    rw [hheader]
    decide +kernel
  · exact ((hstart.b_head b).mp hb).1.2

/-- A flush before a create and an open after it change nothing. -/
theorem looking_is_pure_create : ∃ sv₀ sv₁ sv₁' resp, boot (smallDisk.disk fun _ => false) = some sv₀ ∧
    answers sv₀ [(false, .create (some [SLASH, 97]) 1)] = some ([resp], sv₁) ∧
    answers sv₀ [(true, .sync), (false, .create (some [SLASH, 97]) 1), (true, .open (some [SLASH, 97]) 1)] = some ([resp], sv₁') ∧
    sv₁.fs.Unchanged smallDisk.geometry sv₁'.fs := by
  obtain ⟨sv, hrun, _⟩ := Option.map_eq_some_iff.mp (show ((smallDisk.disk fun _ => false).serves
    [.create (some [SLASH, 97]) 1]).map (fun _ => ()) = some () by decide +kernel)
  obtain ⟨sv₀, hboot, hrun⟩ := Disk.serves_eq hrun
  rw [serves] at hrun
  split at hrun
  case h_1 => cases hrun
  case h_2 resp sv₁ hserve =>
  have hstart := smallDisk_onDisk hboot
  have hsafe : Request.Safe smallDisk.geometry sv₀.fs (.create (some [SLASH, 97]) 1) :=
    (DiskFormat.started hboot).fresh.safe_create (by decide)
  have hadmits : sv₀.Admits smallDisk.geometry
      [(true, .sync), (false, .create (some [SLASH, 97]) 1), (true, .open (some [SLASH, 97]) 1)] := by
    refine ⟨hstart, trivial, hstart.contained hsafe trivial, fun resp' sv' hs => ?_⟩
    exact ⟨hstart.step (by decide) hsafe hs, ⟨by decide, by decide⟩, trivial⟩
  have hcreate : answers sv₀ [(false, .create (some [SLASH, 97]) 1)] = some ([resp], sv₁) := by simp [answers, hserve]
  have hreach : serves sv₀ [] = some sv₀ := rfl
  obtain ⟨sv₁', hrun', hsame⟩ := (looking_is_pure hboot hreach hstart).2 _ _ _ hadmits hcreate
  exact ⟨sv₀, sv₁, sv₁', resp, hboot, hcreate, hrun', hsame⟩

end Yfs
