import Yfs.Files.Proofs

/-! # How a write ends -/

namespace Yfs

variable {g : Geometry} {σ σ' : FS} {i j : Int} {m n : Nat} {buf : UserBuf} {size byte_offset left off : Int} {r : Bool}

/-- Only bytes of blocks have changed, and those blocks are marked. -/
structure Poked (σ σ' : FS) : Prop where
  globals : σ'.toGlobals = σ.toGlobals
  inode : σ'.inode = σ.inode
  unmarked_i : ∀ j, σ'.unmarked_i j → σ.unmarked_i j
  unmarked_b : ∀ b, σ'.unmarked_b b → σ.unmarked_b b

namespace Poked

theorem refl (σ : FS) : Poked σ σ := ⟨rfl, rfl, fun _ => id, fun _ => id⟩

theorem trans {τ : FS} (h : Poked σ σ') (h' : Poked σ' τ) : Poked σ τ :=
  ⟨h'.globals.trans h.globals, h'.inode.trans h.inode, fun j hj => h.unmarked_i j (h'.unmarked_i j hj),
    fun b hb => h.unmarked_b b (h'.unmarked_b b hb)⟩

theorem size_eq (h : Poked σ σ') : σ'.size i = σ.size i := by rw [View.size, View.size, h.inode]

end Poked

/-- A round that ends within the size. -/
theorem Round.poked (h : Round g σ i n size byte_offset left off) (bytes : List UInt8)
    (hsize : 512 * n + off + get_num_copy_bytes left off ≤ σ.size i) :
    Poked σ (σ.putChunk i n off.toNat bytes size byte_offset (left - get_num_copy_bytes left off)) := by
  obtain ⟨hpos, hend, hs⟩ := h.bounds
  have hn := h.index
  have ho := h.offset
  have hup := update_i_size_eq (σ.inode i) hs (by omega) (by omega)
  rw [if_neg (show ¬ _ > (σ.inode i).size from Int.not_lt.mpr hsize)] at hup
  have hsame : σ.inode i = update_i_size (σ.inode i) size byte_offset (left - get_num_copy_bytes left off) := hup.symm
  refine ⟨rfl, ?_, fun j hj => ?_, fun b hb => ?_⟩
  · simp only [FS.putChunk, FS.setInode_view, View.setInode, FS.markBlock_view, FS.setBlock_view, View.setBlock_inode, hup]
    exact Function.update_eq_self i σ.inode
  · rcases hj with hj | ⟨_, hne⟩
    · exact hj
    · exact absurd hsame hne
  · obtain ⟨hne, hb | hb⟩ := hb
    · exact hb
    · exact absurd hb.1 hne

/-- A write that stops at index `K`, within the size, has changed bytes only. -/
theorem Writing.poked {K : Nat} (h : Writing i buf size byte_offset n left off σ r σ')
    (hs : Writable g σ i buf size byte_offset n left off) (hn : 0 < left → n ≤ K) (hsize : 512 * (K : Int) ≤ σ.size i)
    (hstop : K = 140 ∨ σ.covers i K ∧ ¬ chunkMapped buf size byte_offset K) : Poked σ σ' := by
  induction h with
  | done => exact .refl _
  | limit => exact .refl _
  | @stuck n left off σ hpos hidx hfail =>
    have hc : σ.covers i n := by
      have := hn hpos
      by_cases hK : n = K
      · subst hK
        exact (hstop.resolve_left (by omega)).1
      · rw [View.covers, BLOCKSIZE]
        omega
    rw [FS.reach, if_pos hc]
    exact .refl _
  | @chunk n left off σ σ' bytes r hpos hidx hb hbytes hrest ih =>
    have hle := hn hpos
    have hround := hs.round hpos hidx
    have hne : n ≠ K := by
      rintro rfl
      refine (hstop.resolve_left (by omega)).2 ((hs.chunkMapped hpos).mpr ?_)
      by_contra hm
      rw [CopyFrom, if_neg hm] at hbytes
      cases hbytes
    have hc : σ.covers i n := by
      rw [View.covers, BLOCKSIZE]
      omega
    have hreach : σ.reach i n = σ := if_pos hc
    have hstep := hs.step hpos hidx hb hbytes
    rw [hreach] at ih hstep
    obtain ⟨_, hend, _⟩ := hround.bounds
    have hpoke := hround.poked bytes (by omega)
    refine hpoke.trans (ih hstep (fun _ => by omega) (by rw [hpoke.size_eq]; exact hsize) ?_)
    refine hstop.imp_right fun h => ⟨?_, h.2⟩
    rw [View.covers, hpoke.size_eq]
    exact h.1

/-- A write that can copy every chunk and has the blocks runs to its end. -/
theorem Writing.succeeds (h : Writing i buf size byte_offset n left off σ r σ')
    (hs : Writable g σ i buf size byte_offset n left off)
    (hmapped : ∀ m : Nat, n ≤ m → 512 * (m : Int) < byte_offset + size → m < 140 ∧ chunkMapped buf size byte_offset m)
    (hfree : newBlocks σ i size byte_offset ≤ σ.b_head.length) : r = true := by
  induction h with
  | done => rfl
  | @limit n left off σ hpos hidx =>
    have hposn := hs.position hpos
    have hoff := hs.offset
    have := (hmapped n (Nat.le_refl n) (by omega)).1
    omega
  | @stuck n left off σ hpos hidx hfail =>
    exfalso
    have hposn := hs.position hpos
    have hoff := hs.offset
    have hround := hs.round hpos hidx
    have hm := (hs.chunkMapped hpos).mp (hmapped n (Nat.le_refl n) (by omega)).2
    rcases hfail with h0 | hcopy
    · unfold FS.reach at h0
      by_cases hc : σ.covers i n
      · rw [if_pos hc] at h0
        exact (hs.wellFormed.mapped i hs.inode).nonzero n hc h0
      · rw [if_neg hc, FS.pointer_alloc_self hidx, hs.wellFormed.wrap_next] at h0
        have hne : σ.b_head ≠ [] := by
          rw [View.covers_iff] at hc
          refine List.ne_nil_of_length_pos ?_
          simp only [newBlocks] at hfree
          omega
        exact (hs.wellFormed.free _ (next_mem hne)).1 h0
    · rw [CopyFrom, if_pos hm] at hcopy
      cases hcopy
  | @chunk n left off σ σ' bytes r hpos hidx hb hbytes hrest ih =>
    have hput := (hs.round hpos hidx).put hs.wellFormed bytes hb
    have hroom := hput.room
    refine ih (hs.step hpos hidx hb hbytes) (fun m hm => hmapped m (by omega)) ?_
    have hblocks : σ.blocks i ≤ ((σ.reach i n).putChunk i n off.toNat bytes size byte_offset
        (left - get_num_copy_bytes left off)).blocks i := by
      by_contra hlt
      have := hput.covers (View.covers_iff.mpr (Nat.not_le.mp hlt))
      rw [View.covers_iff] at this
      omega
    simp only [newBlocks] at hfree ⊢
    omega

end Yfs
