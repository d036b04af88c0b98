import Yfs.Requests.Step

/-! # Runs of the server -/

namespace Yfs

/-- Every request of the run meets `P` in the state before it. -/
def Server.meets (P : FS → Request → Prop) (sv : Server) : List Request → Prop
  | [] => True
  | req :: reqs => P sv.fs req ∧ ∀ resp sv', serve sv req = some (resp, sv') → sv'.meets P reqs

variable {P : FS → Request → Prop} {sv sv' : Server} {reqs : List Request} {g : Geometry}

theorem Server.meets.mono {P' : FS → Request → Prop} (h : sv.meets P reqs) (hp : ∀ σ req, P σ req → P' σ req) :
    sv.meets P' reqs := by
  induction reqs generalizing sv with
  | nil => trivial
  | cons req reqs ih => exact ⟨hp _ _ h.1, fun resp sv' hs => ih (h.2 resp sv' hs)⟩

/-- What one round preserves holds after every run. -/
theorem serves_induction {I : Server → Prop} (h : I sv) (hmeets : sv.meets P reqs) (hrun : serves sv reqs = some sv')
    (hstep : ∀ sv req resp sv', I sv → P sv.fs req → serve sv req = some (resp, sv') → I sv') : I sv' := by
  induction reqs generalizing sv with
  | nil =>
    obtain rfl := Option.some.inj hrun
    exact h
  | cons req reqs ih =>
    rw [serves] at hrun
    split at hrun
    case h_1 => cases hrun
    case h_2 resp sv₁ hs => exact ih (hstep _ _ _ _ h hmeets.1 hs) (hmeets.2 _ _ hs) hrun

theorem Geometry.isInode_root (g : Geometry) : g.isInode ROOTINODE := by
  have := g.inodes_pos
  simp only [isInode, ROOTINODE]
  omega

/-- The caches are in order and the state behind them is well formed. -/
structure Sound (g : Geometry) (sv : Server) : Prop where
  caches : sv.CachesOk g
  wellFormed : WellFormed g sv.fs

/-- A safe request keeps the server sound, and what it has done shows. -/
theorem Sound.step {req : Request} {resp : Response} (h : Sound g sv) (hshort : 8 * g.table ≤ 2 ^ 15)
    (hsafe : req.Safe g sv.fs) (hs : serve sv req = some (resp, sv')) :
    Sound g sv' ∧ ∃ σ', Effect sv.fs req resp.ret σ' ∧ WellFormed g σ' ∧ σ'.Agrees g sv'.fs := by
  obtain ⟨σ', heff, hrel⟩ := serve_spec h.caches.rel h.wellFormed g.isInode_root hsafe hs
  have hw := heff.wellFormed h.wellFormed g.isInode_root hshort hsafe
  exact ⟨⟨hrel.cachesOk, hrel.agrees.wellFormed hw⟩, σ', heff, hw, hrel.agrees⟩

end Yfs
