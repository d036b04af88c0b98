import Yfs.Files.Read
import Yfs.Lib.Splice
import Yfs.Logical.Eval

/-! # What files hold

What the read loop and the write loop compute on a file that shares no block with the free list.
-/

namespace Yfs

open Splice

/-- The byte of file `i` at position `m`. -/
def View.byte (v : View) (i : Int) (m : Nat) : UInt8 := Mem.get (v.block (v.pointer i (m / 512))) (m % 512)

/-- The blocks of `i` one after the other, cut to its size. -/
def View.content (v : View) (i : Int) : List UInt8 :=
  ((List.range (v.blocks i)).flatMap fun n => (v.block (v.pointer i n)).load 0 512).take (v.size i).toNat

/-- File `i` holds `s`. -/
structure View.Holds (v : View) (g : Geometry) (i : Int) (s : List UInt8) : Prop extends v.Laid g i where
  size : v.size i = s.length
  bytes : ∀ m, m < s.length → v.byte i m = s.getD m 0

/-- File `i` holds `s`, in blocks that are not free, and can grow to `total` bytes. -/
structure FS.Grows (g : Geometry) (σ : FS) (i : Int) (s : List UInt8) (total : Nat) : Prop where
  inode : g.isInode i
  file : σ.type i = INODE_REGULAR
  size : σ.size i = s.length
  bytes : ∀ m, m < s.length → σ.byte i m = s.getD m 0
  nodup : σ.b_head.Nodup
  free : ∀ b ∈ σ.b_head, b ≠ 0 ∧ b < 2 ^ 31 ∧ g.IsData b
  own : ∀ n, σ.covers i n → σ.pointer i n ≠ 0 ∧ g.IsData (σ.pointer i n) ∧ σ.pointer i n ∉ σ.b_head
  apart : ∀ n m, σ.covers i n → σ.covers i m → σ.pointer i n = σ.pointer i m → n = m
  indirect : 12 * 512 < total → g.IsData (σ.indirect i) ∧ σ.indirect i ∉ σ.b_head ∧ ∀ n, σ.covers i n → σ.pointer i n ≠ σ.indirect i
  room : total ≤ 512 * (σ.blocks i + σ.b_head.length)
  fits : s.length ≤ total ∧ total ≤ 140 * 512

variable {g : Geometry} {σ σ₁ : FS} {v : View} {i : Int} {s c : List UInt8} {n pos total : Nat} {p : Ptr}

/-! ## Contents -/

theorem View.length_content (h0 : 0 ≤ v.size i) : (v.content i).length = v.size i := by
  rw [content, List.length_take, length_pages fun _ => Mem.length_load _ _ _, View.blocks]
  omega

theorem View.getD_content {m : Nat} (hm : (m : Int) < v.size i) : (v.content i).getD m 0 = v.byte i m := by
  have hpage : m / 512 < v.blocks i := by
    rw [View.blocks]
    omega
  have hsplit : 512 * (m / 512) + m % 512 = m := Nat.div_add_mod m 512
  rw [content, List.getD_eq_getElem?_getD, List.getElem?_take_of_lt (by omega), ← List.getD_eq_getElem?_getD]
  conv_lhs => rw [← hsplit]
  rw [getD_pages (fun _ => Mem.length_load _ _ _) hpage (Nat.mod_lt _ (by decide)), View.byte]
  simp [Mem.load, Nat.mod_lt m]

theorem View.Laid.holds (h : v.Laid g i) (h0 : 0 ≤ v.size i) : v.Holds g i (v.content i) := by
  have hlen := View.length_content h0
  exact ⟨h, hlen.symm, fun m hm => (View.getD_content (by omega)).symm⟩

namespace View.Holds

variable (h : v.Holds g i s)
include h

theorem content : v.content i = s := by
  have h0 : 0 ≤ v.size i := by
    rw [h.size]
    omega
  have hlen := View.length_content h0
  rw [h.size] at hlen
  refine List.ext_getElem (by omega) fun m hm hs => ?_
  have hlt : (m : Int) < v.size i := by
    rw [h.size]
    omega
  rw [← List.getD_eq_getElem _ 0, ← List.getD_eq_getElem _ 0, View.getD_content hlt, h.bytes m hs]

theorem covers_iff {m : Nat} : v.covers i m ↔ 512 * m < s.length := by
  rw [View.covers, h.size, BLOCKSIZE]
  omega

theorem length_le : s.length ≤ 140 * 512 := by
  by_contra hlt
  have := h.index 140 (h.covers_iff.mpr (by omega))
  omega

/-- The part of block `n` that the file has. -/
theorem load {off len : Nat} (hfit : off + len ≤ 512) (hlen : 512 * n + off + len ≤ s.length) :
    (v.block (v.pointer i n)).load off len = (s.drop (512 * n + off)).take len := by
  refine List.ext_getElem (by simp; omega) fun j hj _ => ?_
  rw [Mem.length_load] at hj
  have hbyte := h.bytes (512 * n + off + j) (by omega)
  rw [View.byte, show (512 * n + off + j) / 512 = n by omega, show (512 * n + off + j) % 512 = off + j by omega] at hbyte
  rw [List.getElem_take, List.getElem_drop, ← List.getD_eq_getElem s 0, ← hbyte]
  simp [Mem.load]

end View.Holds

theorem FS.Grows.holds (h : σ.Grows g i s total) : σ.Holds g i s := by
  have hfits := h.fits
  have hlt : ∀ n, σ.covers i n → 512 * n < s.length := by
    intro n hc
    rw [View.covers, h.size, BLOCKSIZE] at hc
    omega
  refine ⟨⟨h.inode, fun n hc => ?_, fun n hc => ⟨(h.own n hc).1, (h.own n hc).2.1⟩, fun hc => ?_⟩, h.size, h.bytes⟩
  · have := hlt n hc
    omega
  · have := hlt 12 hc
    exact (h.indirect (by omega)).1

/-! ## One round of a write -/

/-- `σ'` is `σ` with `c` at `pos` in file `i`, which holds `s`, in its block `n`. -/
structure Spliced (σ σ' : FS) (i : Int) (n pos : Nat) (s c : List UInt8) : Prop where
  get : ∀ f, f ≠ .size → (∀ k, f ≠ .direct k) → (σ'.inode i).get f = (σ.inode i).get f
  size : σ'.size i = (splice s pos c).length
  pointer : ∀ m, σ'.covers i m → σ'.pointer i m = (σ.reach i n).pointer i m
  block : ∀ b, b ≠ (σ.reach i n).pointer i n → (12 ≤ n → b ≠ σ.indirect i) → σ'.block b = σ.block b
  self : σ'.block ((σ.reach i n).pointer i n) = (σ.block ((σ.reach i n).pointer i n)).store (pos % 512) c
  b_head : σ'.b_head = if σ.covers i n then σ.b_head else σ.b_head.tail

namespace FS.Grows

variable (h : σ.Grows g i s total)
include h

theorem covers_iff {m : Nat} : σ.covers i m ↔ 512 * m < s.length := h.holds.covers_iff

theorem blocks : σ.blocks i = (s.length + 511) / 512 := by
  rw [View.blocks, h.size]
  omega

section

variable (hpos : pos ≤ s.length) (hlt : pos < total) (hn : n = pos / 512)
include hpos hlt hn

theorem next_mem (hc : ¬ σ.covers i n) : σ.b_head = σ.next :: σ.b_head.tail := by
  have hroom := h.room
  rw [h.blocks] at hroom
  rw [h.covers_iff] at hc
  refine b_head_eq fun he => ?_
  rw [he, List.length_nil] at hroom
  omega

/-- The block of that position. -/
theorem reach_pointer : (σ.reach i n).pointer i n ≠ 0 ∧ g.IsData ((σ.reach i n).pointer i n) ∧
    (σ.reach i n).pointer i n ∉ (σ.reach i n).b_head ∧ (12 * 512 < total → (σ.reach i n).pointer i n ≠ σ.indirect i) ∧
    ∀ m, σ.covers i m → m ≠ n → σ.pointer i m ≠ (σ.reach i n).pointer i n := by
  have hfits := h.fits
  by_cases hc : σ.covers i n
  · unfold FS.reach
    rw [if_pos hc]
    obtain ⟨h0, hdata, hfree⟩ := h.own n hc
    exact ⟨h0, hdata, hfree, fun ht => (h.indirect ht).2.2 n hc, fun m hm hne he => hne (h.apart m n hm hc he)⟩
  · have hhead := h.next_mem hpos hlt hn hc
    have hmem : σ.next ∈ σ.b_head := hhead ▸ List.mem_cons_self
    obtain ⟨h0, hint, hdata⟩ := h.free _ hmem
    have hwrap : Mem.wrap 4 σ.next = σ.next := Mem.wrap_int _ (by have := hdata.range; omega) hint
    rw [FS.reach_b_head, if_neg hc]
    unfold FS.reach
    rw [if_neg hc, FS.pointer_alloc_self (by omega), hwrap]
    refine ⟨h0, hdata, ?_, fun ht he => (h.indirect ht).2.1 (he ▸ hmem), fun m hm _ he => (h.own m hm).2.2 (he ▸ hmem)⟩
    have := h.nodup
    rw [hhead, List.nodup_cons] at this
    exact this.1

theorem spliced {size byte_offset left : Int} (htotal : pos + c.length ≤ total) (hsize : size - left + byte_offset = (pos + c.length : Nat)) :
    Spliced σ ((σ.reach i n).putChunk i n (pos % 512) c size byte_offset left) i n pos s c := by
  have hfits := h.fits
  obtain ⟨-, -, -, hbind, -⟩ := h.reach_pointer hpos hlt hn
  have hold : ((σ.reach i n).inode i).size = s.length := (FS.reach_get (by simp)).trans h.size
  have hup := update_i_size_eq ((σ.reach i n).inode i) hsize (by omega) (by omega)
  rw [hold] at hup
  generalize hσ' : (σ.reach i n).putChunk i n (pos % 512) c size byte_offset left = σ'
  have hinode : σ'.inode i = if ((pos + c.length : Nat) : Int) > s.length
      then ((σ.reach i n).inode i).set .size ((pos + c.length : Nat) : Int) else (σ.reach i n).inode i := by
    subst hσ'
    simp only [FS.putChunk, FS.setInode_view, View.setInode_inode_self, hup]
  have hget : ∀ f, f ≠ .size → (σ'.inode i).get f = ((σ.reach i n).inode i).get f := by
    intro f hf
    rw [hinode]
    split
    · rw [Inode.get_set, if_neg hf.symm]
    · rfl
  have hsz : σ'.size i = (splice s pos c).length := by
    rw [View.size, hinode, length_splice hpos]
    split
    · rw [Inode.size_set_size _ _ (by omega) (by omega)]
      omega
    · rw [hold]
      omega
  refine ⟨fun f hf hd => (hget f hf).trans (FS.reach_get hd), hsz, fun m hm => ?_, fun x hx hind => ?_, ?_, ?_⟩
  · rw [View.covers, hsz, BLOCKSIZE, length_splice hpos] at hm
    unfold View.pointer
    split
    case isTrue => rw [hget _ (by simp)]
    case isFalse h12 =>
      have hind : σ'.indirect i = (σ.reach i n).indirect i := hget _ (by simp)
      have hne : (σ.reach i n).indirect i ≠ (σ.reach i n).pointer i n := fun he =>
        hbind (by omega) (he.symm.trans (FS.reach_get (by simp)))
      subst hσ'
      rw [hind]
      exact congrArg (fun blk : Block => blk.pointer (m - 12)) (View.setBlock_block_ne hne)
  · subst hσ'
    exact (View.setBlock_block_ne hx).trans (FS.reach_block_ne hind)
  · rw [← FS.reach_block_ne (σ := σ) (i := i) (n := n) fun h12 => hbind (by omega)]
    subst hσ'
    exact View.setBlock_block_self
  · subst hσ'
    exact FS.reach_b_head

/-- A round that puts `c`. -/
theorem splice {σ' : FS} (hc : 0 < c.length) (hfit : pos % 512 + c.length ≤ 512) (htotal : pos + c.length ≤ total)
    (hσ' : Spliced σ σ' i n pos s c) : σ'.Grows g i (Splice.splice s pos c) total := by
  have hfits := h.fits
  have hlen := length_splice (c := c) hpos
  obtain ⟨hb0, hbdata, hbfree, hbind, hbapart⟩ := h.reach_pointer hpos hlt hn
  have hcov : ∀ m, σ'.covers i m ↔ σ.covers i m ∨ m = n := by
    intro m
    rw [View.covers, hσ'.size, h.covers_iff, BLOCKSIZE, hlen]
    omega
  have hhead : ∀ x, x ∈ σ'.b_head → x ∈ σ.b_head := by
    intro x hx
    rw [hσ'.b_head] at hx
    split at hx
    · exact hx
    · exact List.mem_of_mem_tail hx
  have hself : σ'.pointer i n = (σ.reach i n).pointer i n := hσ'.pointer n ((hcov n).mpr (.inr rfl))
  have hold : ∀ m, σ.covers i m → m ≠ n → σ'.pointer i m = σ.pointer i m := fun m hm hne =>
    (hσ'.pointer m ((hcov m).mpr (.inl hm))).trans (FS.reach_pointer_ne hne)
  refine ⟨h.inode, (hσ'.get _ (by simp) (by simp)).trans h.file, hσ'.size, fun m hm => ?_, ?_,
    fun x hx => h.free x (hhead x hx), fun m hm => ?_, fun m k hm hk he => ?_, fun ht => ?_, ?_, ?_⟩
  · rw [hlen] at hm
    rw [getD_splice hpos]
    by_cases hq : m / 512 = n
    · rw [View.byte, hq, hself, hσ'.self, Mem.get_store _ _ _ _ (by omega)]
      by_cases hin : pos ≤ m ∧ m < pos + c.length
      · rw [if_pos (by omega), if_pos hin]
        congr 1
        omega
      · have hcn : σ.covers i n := h.covers_iff.mpr (by omega)
        rw [if_neg (by omega), if_neg hin, ← h.bytes m (by omega), View.byte, hq]
        unfold FS.reach
        rw [if_pos hcn]
    · have hm' : σ.covers i (m / 512) := h.covers_iff.mpr (by omega)
      rw [if_neg (by omega), View.byte, hold _ hm' hq, hσ'.block _ (hbapart _ hm' hq) fun h12 => (h.indirect (by omega)).2.2 _ hm',
        ← h.bytes m (by omega), View.byte]
  · rw [hσ'.b_head]
    split
    · exact h.nodup
    · exact h.nodup.sublist (List.tail_sublist _)
  · by_cases hmn : m = n
    · subst hmn
      rw [hself, hσ'.b_head, ← FS.reach_b_head]
      exact ⟨hb0, hbdata, hbfree⟩
    · have hm := ((hcov m).mp hm).resolve_right hmn
      obtain ⟨h0, hdata, hfree⟩ := h.own m hm
      rw [hold m hm hmn]
      exact ⟨h0, hdata, fun hx => hfree (hhead _ hx)⟩
  · by_cases hmn : m = n
    · subst hmn
      refine Decidable.byContradiction fun hkn => ?_
      have hk := ((hcov k).mp hk).resolve_right (Ne.symm hkn)
      rw [hself, hold k hk (Ne.symm hkn)] at he
      exact hbapart k hk (Ne.symm hkn) he.symm
    · have hm := ((hcov m).mp hm).resolve_right hmn
      rw [hold m hm hmn] at he
      by_cases hkn : k = n
      · subst hkn
        rw [hself] at he
        exact absurd he (hbapart m hm hmn)
      · have hk := ((hcov k).mp hk).resolve_right hkn
        rw [hold k hk hkn] at he
        exact h.apart m k hm hk he
  · have hind : σ'.indirect i = σ.indirect i := hσ'.get _ (by simp) (by simp)
    obtain ⟨hdata, hfree, hne⟩ := h.indirect ht
    rw [hind]
    refine ⟨hdata, fun hx => hfree (hhead _ hx), fun m hm => ?_⟩
    by_cases hmn : m = n
    · subst hmn
      rw [hself]
      exact hbind ht
    · have hm := ((hcov m).mp hm).resolve_right hmn
      rw [hold m hm hmn]
      exact hne m hm
  · have hroom := h.room
    have hblocks : σ'.blocks i = ((Splice.splice s pos c).length + 511) / 512 := by
      rw [View.blocks, hσ'.size]
      omega
    rw [h.blocks] at hroom
    rw [hblocks, hσ'.b_head, hlen]
    split
    · omega
    case isFalse hcn =>
      rw [h.covers_iff] at hcn
      rw [List.length_tail]
      omega
  · rw [hlen]
    omega

omit hlt in
/-- A round takes the block that it adds. -/
theorem spliced_free {σ' : FS} (hc : 0 < c.length) (hfit : pos % 512 + c.length ≤ 512) (hσ' : Spliced σ σ' i n pos s c) :
    σ.blocks i ≤ σ'.blocks i ∧ σ'.b_head = σ.b_head.drop (σ'.blocks i - σ.blocks i) := by
  have hblocks : σ'.blocks i = (max s.length (pos + c.length) + 511) / 512 := by
    rw [View.blocks, hσ'.size, length_splice hpos]
    omega
  have hold := h.blocks
  rw [hσ'.b_head]
  split
  case isTrue hcn =>
    rw [h.covers_iff] at hcn
    obtain he : σ'.blocks i = σ.blocks i := by omega
    exact ⟨he.ge, by rw [he, Nat.sub_self, List.drop_zero]⟩
  case isFalse hcn =>
    rw [h.covers_iff] at hcn
    obtain he : σ'.blocks i = σ.blocks i + 1 := by omega
    exact ⟨by omega, by rw [he, Nat.add_sub_cancel_left, List.drop_one]⟩

end

end FS.Grows

/-! ## Writing -/

/-- The `len` bytes at `pos` of the sender's buffer. -/
def UserBuf.slice (buf : UserBuf) (pos len : Nat) : List UInt8 := (List.range len).map fun j => buf.bytes (pos + j)

/-- `CopyFrom` and `CopyTo` reach the first `size` bytes. -/
def UserBuf.Covers (buf : UserBuf) (size : Nat) : Prop := ∀ pos len, pos + len ≤ size → buf.mapped pos len = true

/-- Any part of the first `size` bytes can be copied. -/
structure UserBuf.Reachable (buf : UserBuf) (size : Nat) : Prop where
  null : buf.null = false
  mapped : ∀ pos len, pos + len ≤ size → buf.mapped pos len = true

section

variable {buf : UserBuf}

@[simp]
theorem UserBuf.length_slice {pos len : Nat} : (buf.slice pos len).length = len := by simp [slice]

theorem UserBuf.slice_append {pos a b : Nat} : buf.slice pos a ++ buf.slice (pos + a) b = buf.slice pos (a + b) := by
  simp [slice, List.range_add, Nat.add_assoc]

/-- The loop of `handle_write`. -/
theorem write_loop_splices {size : Nat} {byte_offset k left off : Int} {fuel : Nat} (h : σ.Grows g p.num s total)
    (hbuf : buf.Covers size) (hk : k = n) (hn : n ≤ 140 ∧ (0 < left → n = pos / 512 ∧ off = (pos % 512 : Nat)))
    (hleft : 0 ≤ left ∧ left ≤ size) (hat : byte_offset + (size - left) = pos) (hpos : pos ≤ s.length) (htotal : pos + left ≤ total)
    (hfuel : 140 < n + fuel) :
    ∃ σ' : FS, eval g (write_loop p buf size byte_offset fuel k left off) σ.logical = some (true, σ'.logical) ∧
      σ'.Grows g p.num (splice s pos (buf.slice (size - left).toNat left.toNat)) total ∧
      σ.blocks p.num ≤ σ'.blocks p.num ∧ σ'.b_head = σ.b_head.drop (σ'.blocks p.num - σ.blocks p.num) := by
  induction fuel generalizing σ s n k left off pos with
  | zero => omega
  | succ fuel ih =>
    have hfits := h.fits
    unfold write_loop
    by_cases hdone : left ≤ 0
    · obtain rfl : left = 0 := by omega
      rw [if_pos hdone]
      exact ⟨σ, rfl, by simpa [UserBuf.slice, splice_nil] using h, Nat.le_refl _, by rw [Nat.sub_self, List.drop_zero]⟩
    obtain ⟨hn', rfl⟩ := hn.2 (by omega)
    have hlt : pos < total := by omega
    have hb := h.reach_pointer hpos hlt hn'
    rw [if_neg hdone, eval_bind, get_nth_b_reach hk (by omega) fun h12 => (h.indirect (by omega)).1, Option.bind_some, if_neg hb.1, eval_bind,
      eval_get_b hb.2.1.range, Option.bind_some]
    dsimp only
    rw [if_neg (by omega), get_num_copy_bytes_eq]
    generalize hnum : min left (512 - ((pos % 512 : Nat) : Int)) = num
    generalize hc : buf.slice (size - left).toNat num.toNat = c
    have hlen : c.length = num.toNat := hc ▸ UserBuf.length_slice
    have hcopy : CopyFrom buf (size - left).toNat num.toNat = some c := hc ▸ if_pos (hbuf _ _ (by omega))
    rw [hcopy]
    dsimp only
    rw [eval_bind, eval_modifyBlock hb.2.1.table, Option.bind_some, eval_bind, eval_dirtyBlock, Option.bind_some, eval_bind,
      eval_modifyInode, Option.bind_some]
    have hround : Spliced σ ((σ.reach p.num n).putChunk p.num n (pos % 512) c size byte_offset (left - num)) p.num n pos s c :=
      h.spliced hpos hlt hn' (by omega) (by omega)
    have hlen' := length_splice (c := c) hpos
    have hnext : n + 1 ≤ 140 ∧ (0 < left - num → n + 1 = (pos + c.length) / 512 ∧ (0 : Int) = ((pos + c.length) % 512 : Nat)) := by omega
    obtain ⟨hle, hfree⟩ := h.spliced_free hpos hn' (by omega) (by omega) hround
    obtain ⟨σ', he, hσ', hle', hfree'⟩ := ih (n := n + 1) (k := k + 1) (h.splice hpos hlt hn' (by omega) (by omega) (by omega) hround)
      (by omega) hnext (by omega) (by omega) (by omega) (by omega) (by omega)
    refine ⟨σ', he, ?_, hle.trans hle', ?_⟩
    · rw [splice_splice hpos, ← hc, show (size - (left - num)).toNat = (size - left).toNat + num.toNat by omega, UserBuf.slice_append,
        show num.toNat + (left - num).toNat = left.toNat by omega] at hσ'
      exact hσ'
    · rw [hfree', hfree, List.drop_drop]
      congr 1
      omega

/-- A write that starts inside the file. -/
theorem handle_write_splices {size : Nat} (h : σ.Grows g i s total) (hbuf : buf.Covers size) (hpos : pos ≤ s.length)
    (htotal : pos + size ≤ total) :
    ∃ σ' : FS, eval g (handle_write i buf size pos) σ.logical = some ((size : Int), σ'.logical) ∧
      σ'.Grows g i (splice s pos (buf.slice 0 size)) total ∧
      σ.blocks i ≤ σ'.blocks i ∧ σ'.b_head = σ.b_head.drop (σ'.blocks i - σ.blocks i) := by
  have hfits := h.fits
  have hdiv : Int.tdiv pos BLOCKSIZE = (pos / 512 : Nat) := Int.tdiv_eq_ediv_of_nonneg (by omega)
  have hmod : Int.tmod pos BLOCKSIZE = (pos % 512 : Nat) := Int.tmod_eq_emod_of_nonneg (by omega)
  obtain ⟨σ', he, hσ', hfree⟩ := write_loop_splices (p := ⟨i, 0⟩) (k := (pos / 512 : Nat)) h hbuf rfl ⟨by omega, fun _ => ⟨rfl, rfl⟩⟩
    (show (0 : Int) ≤ (size : Int) ∧ (size : Int) ≤ size by omega) (show (pos : Int) + (size - size) = pos by omega) hpos (by omega)
    (show 140 < pos / 512 + loopFuel by rw [loopFuel]; omega)
  refine ⟨σ', ?_, by simpa using hσ', hfree⟩
  have hvalid : is_valid_i (σ.inode i) ≠ ERROR := by
    unfold is_valid_i
    split <;> decide
  unfold handle_write
  rw [eval_bind, eval_get_i h.inode, Option.bind_some, eval_bind, eval_readInode, Option.bind_some, FS.logical_inode, if_neg hvalid,
    eval_bind, hdiv, hmod, he, Option.bind_some, if_neg (by simp), eval_bind, eval_dirtyInode, Option.bind_some]
  rfl

/-- A write at the end of the file. -/
theorem handle_write_appends {size : Nat} (h : σ.Grows g i s total) (hbuf : buf.Reachable size) (htotal : s.length + size ≤ total) :
    ∃ σ' : FS, eval g (handle_write i buf size s.length) σ.logical = some ((size : Int), σ'.logical) ∧
      σ'.Grows g i (s ++ buf.slice 0 size) total := by
  obtain ⟨σ', he, hσ', -⟩ := handle_write_splices h hbuf.mapped (Nat.le_refl _) htotal
  exact ⟨σ', he, splice_end ▸ hσ'⟩

/-! ## Reading -/

/-- The loop of `handle_read` inside the file. -/
theorem read_loop_copies {size off start left : Nat} {ret k : Int} {copied : List UInt8} {fuel : Nat} (h : σ.Holds g p.num s)
    (hbuf : buf.Covers size) (hk : k = n) (hoff : off < 512) (hpos : 0 < left → start + copied.length = 512 * n + off)
    (hleft : start + copied.length + left ≤ s.length) (hsize : copied.length + left ≤ size) (hn : n ≤ 140) (hfuel : 140 < n + fuel) :
    eval g (read_loop p buf ret fuel k left off (512 - off) copied) σ.logical =
      some (⟨ret, copied ++ (s.drop (start + copied.length)).take left⟩, σ.logical) := by
  induction fuel generalizing n k left off copied with
  | zero => omega
  | succ fuel ih =>
    have hfits := h.length_le
    unfold read_loop
    by_cases hdone : left = 0
    · subst hdone
      rw [if_pos (by omega)]
      simp
    have hpos := hpos (by omega)
    have hc : σ.covers p.num n := h.covers_iff.mpr (by omega)
    have hb := h.own n hc
    rw [if_neg (by omega), eval_bind, get_nth_b_covered hk (by omega) hc fun h12 => h.indirect (hc.lt h12), Option.bind_some, if_neg hb.1,
      eval_bind, eval_get_b hb.2.range, Option.bind_some]
    dsimp only
    have hnum : (if (left : Int) < 512 - (off : Int) then (left : Int) else 512 - (off : Int)) = (min left (512 - off) : Nat) := by
      split <;> omega
    rw [hnum]
    generalize hmin : min left (512 - off) = num
    have hmapped := hbuf copied.length num (by omega)
    rw [if_neg (by simp only [BLOCKSIZE]; omega), Int.toNat_natCast, if_neg (by simp [hmapped]), eval_bind, eval_readBlock hb.2.table,
      Option.bind_some, Int.toNat_natCast, FS.logical_block]
    dsimp only
    rw [h.load (by omega) (by omega), ← hpos, show (left : Int) - (num : Nat) = (left - num : Nat) by omega]
    generalize hchunk : (s.drop (start + copied.length)).take num = c
    have hlen : c.length = num := by
      rw [← hchunk, List.length_take, List.length_drop]
      omega
    refine (ih (n := n + 1) (k := k + 1) (by omega) (show 0 < 512 by decide) (fun _ => ?_) ?_ ?_ (by omega) (by omega)).trans ?_
    · rw [List.length_append]
      omega
    · rw [List.length_append]
      omega
    · rw [List.length_append]
      omega
    · rw [List.length_append, hlen, List.append_assoc, ← hchunk]
      congr 3
      have hdrop : s.drop (start + (copied.length + num)) = (s.drop (start + copied.length)).drop num := by
        rw [List.drop_drop, Nat.add_assoc]
      rw [hdrop, ← List.take_add, show num + (left - num) = left by omega]

/-- The validators return 0 or 1. -/
theorem is_valid_inputs_ne {size byte_offset : Int} : is_valid_inputs i buf size byte_offset ≠ ERROR := by
  unfold is_valid_inputs
  split <;> decide

/-- A read from inside the file. -/
theorem handle_read_copies {size : Nat} (h : σ.Holds g i s) (hbuf : buf.Covers (min size (s.length - pos))) (hpos : pos ≤ s.length) :
    eval g (handle_read i buf size pos) σ.logical =
      some (⟨(min size (s.length - pos) : Nat), (s.drop pos).take (min size (s.length - pos))⟩, σ.logical) := by
  have hfits := h.length_le
  have hdiv : Int.tdiv pos BLOCKSIZE = (pos / 512 : Nat) := Int.tdiv_eq_ediv_of_nonneg (by omega)
  have hmod : Int.tmod pos BLOCKSIZE = (pos % 512 : Nat) := Int.tmod_eq_emod_of_nonneg (by omega)
  have hsize : (σ.inode i).size = s.length := h.size
  have hleft : get_num_bytes_left pos size (σ.inode i) = (min size (s.length - pos) : Nat) := by
    rw [get_num_bytes_left, hsize, Mem.wrap_int _ (by omega) (by omega)]
    split <;> omega
  have hpast : ¬ (pos : Int) > (σ.inode i).size := by omega
  unfold handle_read
  rw [if_neg is_valid_inputs_ne, eval_bind, eval_get_i h.inode, Option.bind_some, eval_bind, eval_readInode, Option.bind_some,
    FS.logical_inode, if_neg hpast]
  dsimp only
  rw [hleft, hdiv, hmod]
  exact read_loop_copies (p := ⟨i, 0⟩) (n := pos / 512) h hbuf rfl (by omega) (fun _ => by rw [List.length_nil]; omega)
    (show pos + [].length + min size (s.length - pos) ≤ s.length by rw [List.length_nil]; omega)
    (by rw [List.length_nil]; omega) (by omega) (by rw [loopFuel]; omega)

/-- A read from past the end. -/
theorem handle_read_past {size byte_offset : Int} (hi : g.isInode i) (h : byte_offset > σ.size i) :
    eval g (handle_read i buf size byte_offset) σ.logical = some (⟨ERROR, []⟩, σ.logical) := by
  unfold handle_read
  rw [if_neg is_valid_inputs_ne, eval_bind, eval_get_i hi, Option.bind_some, eval_bind, eval_readInode, Option.bind_some,
    FS.logical_inode, if_pos h]
  rfl

end

end Yfs
