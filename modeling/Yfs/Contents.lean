import Yfs.Chunks

/-! # Reads slice, writes splice -/

namespace Yfs

open Splice

variable {g : Geometry} {σ : FS} {sv : Server} {i size offset : Int} {buf : UserBuf} {d : List UInt8}

/-! ## Reading -/

/-- **Reads slice.** From inside a file or directory `handle_read` copies its bytes from the offset on, up to the size or to the end, and
nothing else. Past the end it fails. -/
theorem handle_read_slices (hrel : Rel g sv σ) (h : σ.Laid g i) (h0 : 0 ≤ σ.size i) (hoffset : 0 ≤ offset) (hsize : 0 ≤ size)
    (hbuf : offset ≤ (σ.content i).length → buf.Covers (min size ((σ.content i).length - offset)).toNat) :
    ∃ reply sv' σ', run (handle_read i buf size offset) sv = some (reply, sv') ∧ Rel g sv' σ' ∧ σ'.logical = σ.logical ∧
      if offset > (σ.content i).length then reply.ret = ERROR ∧ reply.copied = []
      else reply.ret = min size ((σ.content i).length - offset) ∧
        reply.copied = ((σ.content i).drop offset.toNat).take (min size ((σ.content i).length - offset)).toNat := by
  have hholds := h.holds h0
  have hlen := View.length_content h0
  obtain ⟨reply, he, hreply⟩ : ∃ reply, eval g (handle_read i buf size offset) σ.logical = some (reply, σ.logical) ∧
      if offset > (σ.content i).length then reply.ret = ERROR ∧ reply.copied = []
      else reply.ret = min size ((σ.content i).length - offset) ∧
        reply.copied = ((σ.content i).drop offset.toNat).take (min size ((σ.content i).length - offset)).toNat := by
    by_cases hpast : offset > (σ.content i).length
    · exact ⟨⟨ERROR, []⟩, handle_read_past h.inode (by omega), by rw [if_pos hpast]; exact ⟨rfl, rfl⟩⟩
    · have hmin : (min size ((σ.content i).length - offset)).toNat = min size.toNat ((σ.content i).length - offset.toNat) := by omega
      have hcovers := hbuf (by omega)
      rw [hmin] at hcovers
      have he := handle_read_copies hholds hcovers (by omega)
      rw [Int.toNat_of_nonneg hsize, Int.toNat_of_nonneg hoffset] at he
      refine ⟨_, he, ?_⟩
      rw [if_neg hpast, hmin]
      exact ⟨by dsimp only; omega, rfl⟩
  obtain ⟨_, sv', σ', hrun, rfl, hrel', hlog⟩ := handle_read_alike.run_eq hrel he (handle_read_steady hrel.cachesOk.tidy).not_stale
  exact ⟨_, sv', σ', hrun, hrel', hlog, hreply⟩

/-- The root's first entry. -/
theorem handle_read_slices_root : ∃ reply sv', run (handle_read ROOTINODE (filledBuf 0) 32 0) smallStart = some (reply, sv') ∧
    reply.ret = 32 ∧ reply.copied = (smallStart.fs.content ROOTINODE).take 32 := by
  have hstart := smallStart_onDisk
  have hsize : smallStart.fs.size ROOTINODE = 64 := by decide +kernel
  have hlen := View.length_content (v := smallStart.fs.toView) (i := ROOTINODE) (by omega)
  have hlaid := hstart.wellFormed.laid hstart.inRange (Geometry.isInode_root _)
  obtain ⟨reply, sv', _, hrun, _, _, hreply⟩ := handle_read_slices hstart.caches.rel hlaid (by omega) (Int.le_refl 0)
    (show (0 : Int) ≤ 32 by decide) fun _ => (filledBuf_reachable 0 _).2
  rw [if_neg (by omega), hlen, hsize] at hreply
  exact ⟨reply, sv', hrun, hreply.1, hreply.2⟩

/-! ## Writing -/

/-- A regular file in blocks of its own, and a free list without repeats. -/
structure FS.FileOk (g : Geometry) (σ : FS) (i : Int) : Prop extends σ.OwnBlocks g i where
  file : σ.type i = INODE_REGULAR
  size : 0 ≤ σ.size i
  nodup : σ.b_head.Nodup

/-- The blocks that a file of `n` bytes needs. -/
def blocksFor (n : Nat) : Nat := (n + 511) / 512

end Yfs
