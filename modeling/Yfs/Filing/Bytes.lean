import Yfs.Contents
import Yfs.Create

/-! # What a write leaves of a file

Round by round, whether the write comes to its end or not.
-/

namespace Yfs

open Splice

variable {g : Geometry} {σ σ' : FS} {i : Int} {n m : Nat} {size byte_offset left off ret : Int} {bytes : List UInt8} {buf : UserBuf} {r : Bool}

section

variable (hw : WellFormed g σ) (h : Round g σ i n size byte_offset left off) (hb : (σ.reach i n).pointer i n ≠ 0)
include hw h hb

/-- The block of the round. -/
theorem Round.pointer_self (bytes : List UInt8) : ((σ.reach i n).putChunk i n off.toNat bytes size byte_offset
    (left - get_num_copy_bytes left off)).pointer i n = (σ.reach i n).pointer i n := by
  unfold FS.reach at hb ⊢
  by_cases hc : σ.covers i n
  · simp only [if_pos hc]
    exact (h.rewritten hw bytes hc).pointer n hc
  · rw [if_neg hc] at hb
    obtain ⟨_, happ⟩ := h.appended hw bytes hc hb
    have hnext := h.next
    have hn : n = σ.blocks i := by
      rw [View.covers_iff] at hc
      omega
    simp only [if_neg hc]
    rw [FS.pointer_alloc_self h.index, hw.wrap_next]
    have hnew := happ.new
    rwa [← hn] at hnew

/-- The other blocks. -/
theorem Round.page_other (bytes : List UInt8) (hm : σ.covers i m) (hne : m ≠ n) :
    ((σ.reach i n).putChunk i n off.toNat bytes size byte_offset (left - get_num_copy_bytes left off)).pointer i m = σ.pointer i m ∧
      ((σ.reach i n).putChunk i n off.toNat bytes size byte_offset (left - get_num_copy_bytes left off)).block (σ.pointer i m) =
        σ.block (σ.pointer i m) := by
  have hkey := View.ledger_data (hw.mapped i h.inode) h.inode hm
  unfold FS.reach at hb ⊢
  by_cases hc : σ.covers i n
  · simp only [if_pos hc]
    refine ⟨(h.rewritten hw bytes hc).pointer m hm, View.setBlock_block_ne fun he => hne ?_⟩
    have hkey' := View.ledger_data (hw.mapped i h.inode) h.inode hc
    rw [← he] at hkey'
    exact Option.some.inj (Prod.mk.inj (hw.exclusive.inj _ _ _ hkey hkey')).2
  · rw [if_neg hc] at hb
    obtain ⟨hg, happ⟩ := h.appended hw bytes hc hb
    simp only [if_neg hc]
    refine ⟨happ.old m hm, happ.block _ (fun he => ?_) fun h12 he => ?_⟩
    · exact hw.exclusive.apart _ _ hkey (he.symm ▸ next_mem hg.free)
    · rw [he] at hkey
      cases (hg.indirect h12).key _ hkey

/-- A round that starts inside the file. -/
theorem Round.splices (hlen : bytes.length = (get_num_copy_bytes left off).toNat) (hin : 512 * n + off ≤ σ.size i) :
    ((σ.reach i n).putChunk i n off.toNat bytes size byte_offset (left - get_num_copy_bytes left off)).size i =
        max (σ.size i) (512 * n + off + bytes.length) ∧
      ((σ.reach i n).putChunk i n off.toNat bytes size byte_offset (left - get_num_copy_bytes left off)).content i =
        splice (σ.content i) (512 * n + off).toNat bytes := by
  obtain ⟨hpos, hend, hs⟩ := h.bounds
  have hn := h.index
  have hoff := h.offset
  have hself := h.pointer_self hw hb bytes
  have hother := fun m => h.page_other (m := m) hw hb bytes
  have hold : ((σ.reach i n).inode i).size = σ.size i := FS.reach_get (by simp)
  have hup := update_i_size_eq ((σ.reach i n).inode i) hs (by omega) (by omega)
  rw [hold] at hup
  generalize hτ : (σ.reach i n).putChunk i n off.toNat bytes size byte_offset (left - get_num_copy_bytes left off) = τ at hself hother
  have hsize : τ.size i = max (σ.size i) (512 * n + off + bytes.length) := by
    rw [← hτ]
    simp only [FS.putChunk, FS.setInode_view, View.size_setInode_self, hup]
    split
    · rw [Inode.size_set_size _ _ (by omega) (by omega)]
      omega
    · rw [hold]
      omega
  have hblock : τ.block ((σ.reach i n).pointer i n) = ((σ.reach i n).block ((σ.reach i n).pointer i n)).store off.toNat bytes := by
    rw [← hτ]
    exact View.setBlock_block_self
  have hlength := View.length_content (v := σ.toView) (i := i) (by omega)
  have hlength' := View.length_content (v := τ.toView) (i := i) (by omega)
  have hsplice : (splice (σ.content i) (512 * n + off).toNat bytes).length = _ := length_splice (by omega)
  refine ⟨hsize, List.ext_getElem (by omega) fun m hm hm' => ?_⟩
  rw [← List.getD_eq_getElem _ 0, ← List.getD_eq_getElem _ 0, View.getD_content (by omega), getD_splice (by omega)]
  by_cases hq : m / 512 = n
  · rw [View.byte, hq, hself, hblock, Mem.get_store _ _ _ _ (by omega)]
    by_cases hchunk : (512 * n + off).toNat ≤ m ∧ m < (512 * n + off).toNat + bytes.length
    · rw [if_pos (by omega), if_pos hchunk]
      congr 1
      omega
    · have hc : σ.covers i n := by
        rw [View.covers, BLOCKSIZE]
        omega
      rw [if_neg (by omega), if_neg hchunk, View.getD_content (by omega), View.byte, hq]
      unfold FS.reach
      rw [if_pos hc]
  · have hc : σ.covers i (m / 512) := by
      rw [View.covers, BLOCKSIZE]
      omega
    obtain ⟨hptr, hpage⟩ := hother _ hc hq
    rw [View.byte, hptr, hpage, if_neg (by omega), View.getD_content (by omega), View.byte]

end

/-- The loop of `handle_write` from a position inside the file: it has put the first `m` of the bytes that were left. -/
theorem Writing.splices (h : Writing i buf size byte_offset n left off σ r σ') (hs : Writable g σ i buf size byte_offset n left off)
    (hin : 0 < left → byte_offset + (size - left) ≤ σ.size i) : ∃ m : Nat, m ≤ left.toNat ∧ (r = true → m = left.toNat) ∧
      σ.size i ≤ σ'.size i ∧ σ'.content i = splice (σ.content i) (byte_offset + (size - left)).toNat (buf.slice (size - left).toNat m) := by
  induction h with
  | done h => exact ⟨0, Nat.zero_le _, fun _ => by omega, le_rfl, (splice_nil).symm⟩
  | limit => exact ⟨0, Nat.zero_le _, fun h => Bool.noConfusion h, le_rfl, (splice_nil).symm⟩
  | @stuck n left off σ hpos hn =>
    have hsame : σ.Same (σ.reach i n).toView i := by
      unfold FS.reach
      by_cases hc : σ.covers i n
      · rw [if_pos hc]
        exact .refl _ _
      · rw [if_neg hc]
        exact alloc_same hs.wellFormed hs.inode hc ((hs.round hpos hn).indirect hc) hs.inode
    exact ⟨0, Nat.zero_le _, fun h => Bool.noConfusion h, hsame.size.ge, hsame.content.trans splice_nil.symm⟩
  | @chunk n left off σ σ' bytes r hpos hn hb hbytes hrest ih =>
    have hround := hs.round hpos hn
    have hposn := hs.position hpos
    obtain ⟨hcopy, _, _⟩ := hround.bounds
    have hnum := get_num_copy_bytes_eq left off
    have hoff := hs.offset
    have hstart := hs.start
    have hleft := hs.left
    have hslice : bytes = buf.slice (size - left).toNat (get_num_copy_bytes left off).toNat := by
      unfold CopyFrom at hbytes
      split at hbytes
      · exact (Option.some.inj hbytes).symm
      · cases hbytes
    have hlen : bytes.length = (get_num_copy_bytes left off).toNat := by rw [hslice, UserBuf.length_slice]
    have hinside := hin hpos
    obtain ⟨hsize, hcontent⟩ := hround.splices hs.wellFormed hb hlen (by omega)
    obtain ⟨m, hm, hall, hgrown, hdone⟩ := ih (hs.step hpos hn hb hbytes) fun _ => by omega
    have hlength := View.length_content (v := σ.toView) (i := i) (by omega)
    refine ⟨(get_num_copy_bytes left off).toNat + m, by omega, fun hr => ?_, by omega, hdone.trans ?_⟩
    · have := hall hr
      omega
    · have hat : (byte_offset + (size - (left - get_num_copy_bytes left off))).toNat = (512 * n + off).toNat + bytes.length := by omega
      rw [hcontent, hat, splice_splice (by omega), hslice,
        show (size - (left - get_num_copy_bytes left off)).toNat = (size - left).toNat + (get_num_copy_bytes left off).toNat by omega,
        UserBuf.slice_append, show (512 * n + off).toNat = (byte_offset + (size - left)).toNat by omega]

/-- `handle_write` from a position inside the file. -/
theorem Written.splices (h : Written σ i buf size byte_offset ret σ') (hw : WellFormed g σ) (hok : σ.WriteOk g i buf size byte_offset)
    (hin : byte_offset ≤ σ.size i) : ∃ m : Nat, m ≤ size.toNat ∧ (ret ≠ ERROR → m = size.toNat) ∧
      σ.size i ≤ σ'.size i ∧ σ'.content i = splice (σ.content i) byte_offset.toNat (buf.slice 0 m) := by
  have hs := hok.writable hw
  cases h with
  | ended h =>
    obtain ⟨m, hm, hall, hgrown, hcontent⟩ := h.splices hs fun _ => by omega
    rw [Int.sub_self, Int.add_zero] at hcontent
    exact ⟨m, hm, fun _ => hall rfl, hgrown, hcontent⟩
  | failed h =>
    obtain ⟨m, hm, _, hgrown, hcontent⟩ := h.splices hs fun _ => by omega
    rw [Int.sub_self, Int.add_zero] at hcontent
    exact ⟨m, hm, fun hr => absurd rfl hr, hgrown, hcontent⟩

end Yfs
