import Yfs.Boot.Fresh

/-! # Writing to one file leaves the others alone -/

namespace Yfs

/-- The answer to a read, if the handler returns. -/
def Server.reads (sv : Server) (i : Int) (buf : UserBuf) (size offset : Int) : Option Response :=
  (serve sv (.read i buf size offset)).map Prod.fst

variable {g : Geometry} {sv sv' : Server} {i j : Int}

/-- A read answers what the state shows. -/
theorem Sound.reads (h : Sound g sv) (hj : g.isInode j) (buf : UserBuf) (size offset : Int) :
    sv.reads j buf size offset =
      (sv.fs.readFile g.sectors j buf size offset).map fun r => { ret := r.ret, copied := r.copied } := by
  have hv : (run (handle_read j buf size offset) sv).map Prod.fst = sv.fs.readFile g.sectors j buf size offset :=
    (handle_read_outcome h.caches.blocks h.caches.inodes h.caches.sectors hj (h.wellFormed.mapped j hj) (fun _ => rfl) rfl).value
  have hs : serve sv (.read j buf size offset) = run (Request.read j buf size offset).handler sv := rfl
  rw [← hv, Server.reads, hs, Request.handler, run_bind]
  cases run (handle_read j buf size offset) sv <;> rfl

/-- A safe write shows every other file the same. -/
theorem Sound.write_same {buf : UserBuf} {size offset : Int} {resp : Response} (h : Sound g sv) (hshort : 8 * g.table ≤ 2 ^ 15)
    (hok : sv.fs.WriteOk g i buf size offset) (hs : serve sv (.write i buf size offset) = some (resp, sv')) (hj : g.isInode j)
    (hne : j ≠ i) : Sound g sv' ∧ sv.fs.Same sv'.fs.toView j := by
  obtain ⟨hsound, σ', heff, hw, hagree⟩ := h.step hshort (show Request.Safe g sv.fs (.write i buf size offset) from hok) hs
  refine ⟨hsound, ?_⟩
  generalize resp.ret = ret at heff
  cases heff with
  | looked h => cases h
  | refused => exact hagree.same hw hj
  | write hwr => exact ((hwr.kept h.wellFormed hok).same j hj hne).trans (hagree.same hw hj)

end Yfs
