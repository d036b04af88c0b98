import Yfs.Files.Spec

/-! # `handle_write` does what the specification says -/

namespace Yfs

open Ledger

variable {g : Geometry} {σ σ' : FS} {i j : Int} {n m : Nat}

/-! ## Reaching a block -/

/-- A new pointer past the end changes nobody's blocks. -/
theorem alloc_same (hw : WellFormed g σ) (hi : g.isInode i) (hc : ¬ σ.covers i n)
    (hind : 12 ≤ n → σ.OwnIndirect g i) (hj : g.isInode j) : σ.Same (σ.alloc i n).toView j := by
  by_cases hji : j = i
  · subst hji
    refine ⟨FS.alloc_get fun _ _ => by simp, FS.size_alloc, FS.indirect_alloc,
      fun m hm => FS.pointer_alloc_ne fun h => hc (h ▸ hm), fun m hm => FS.alloc_block_ne fun h12 he => ?_⟩
    have hk := View.ledger_data (hw.mapped j hj) hj hm
    rw [he] at hk
    cases (hind h12).key _ hk
  · refine hw.same hj (FS.alloc_inode_ne hji) fun b hb o hk => hb (FS.alloc_block_ne fun h12 => ?_)
    rintro rfl
    exact hji (congrArg Prod.fst ((hind h12).key _ hk))

theorem alloc_wellFormed (hw : WellFormed g σ) (hi : g.isInode i) (hc : ¬ σ.covers i n)
    (hind : 12 ≤ n → σ.OwnIndirect g i) : WellFormed g (σ.alloc i n) := by
  have hglob := FS.alloc_globals (σ := σ) (i := i) (n := n)
  refine hw.keep (fun j hj => alloc_same hw hi hc hind hj) ?_ fun j hj => hw.inodes j ?_
  · rw [hglob]
    exact List.tail_sublist _
  · rwa [hglob] at hj

/-! ## One round -/

/-- A round of the loop: block `n` is the next one at most, and can be reached. -/
structure Round (g : Geometry) (σ : FS) (i : Int) (n : Nat) (size byte_offset left off : Int) : Prop where
  inode : g.isInode i
  file : ¬ σ.isDir i
  next : n ≤ σ.blocks i
  offset : 0 ≤ off ∧ off < 512
  position : 512 * n + off = byte_offset + (size - left)
  first : off = 0 ∨ left = size
  start : 0 ≤ byte_offset
  index : n < 140
  left : 0 < left
  indirect : ¬ σ.covers i n → 12 ≤ n → σ.OwnIndirect g i
  fresh : ¬ σ.covers i n → ¬ g.isTable σ.next

theorem get_num_copy_bytes_eq (left off : Int) : get_num_copy_bytes left off = min left (512 - off) := by
  rw [get_num_copy_bytes, BLOCKSIZE]
  split <;> omega

/-- Where the round ends in the file. -/
theorem Round.bounds {size byte_offset left off : Int} (h : Round g σ i n size byte_offset left off) :
    0 < get_num_copy_bytes left off ∧ off + get_num_copy_bytes left off ≤ 512 ∧
      size - (left - get_num_copy_bytes left off) + byte_offset = 512 * n + off + get_num_copy_bytes left off := by
  have := h.offset
  have := h.left
  have := h.position
  rw [get_num_copy_bytes_eq]
  omega

theorem update_i_size_eq (ino : Inode) {size byte_offset left s : Int} (hs : size - left + byte_offset = s)
    (h0 : 0 ≤ s) (h1 : s ≤ 140 * 512) :
    update_i_size ino size byte_offset left = if s > ino.size then ino.set .size s else ino := by
  rw [update_i_size, hs, Mem.wrap_int s (by omega) (by omega)]

theorem blocks_of_covers {w : View} (h : ∀ m, w.covers i m ↔ m < n) : w.blocks i = n := by
  have h1 := h (w.blocks i)
  have h2 := h n
  rw [View.covers_iff] at h1 h2
  omega

section

variable {size byte_offset left off : Int} (hw : WellFormed g σ)
  (h : Round g σ i n size byte_offset left off)
include hw h

/-- What a round does to a block that the file has. -/
theorem Round.rewritten (bytes : List UInt8) (hc : σ.covers i n) :
    Rewritten σ (σ.putChunk i n off.toNat bytes size byte_offset (left - get_num_copy_bytes left off)) i := by
  obtain ⟨hpos, hend, hs⟩ := h.bounds
  have hn := h.index
  have ho := h.offset
  have hup := update_i_size_eq (σ.inode i) hs (by omega) (by omega)
  have hinode : ∀ f, f ≠ Field.size → ((σ.putChunk i n off.toNat bytes size byte_offset
      (left - get_num_copy_bytes left off)).inode i).get f = (σ.inode i).get f := by
    intro f hf
    simp only [FS.putChunk, FS.setInode_view, View.setInode_inode_self, hup]
    split
    · rw [Inode.get_set, if_neg hf.symm]
    · rfl
  have hblock : ∀ b, b ≠ σ.pointer i n → (σ.putChunk i n off.toNat bytes size byte_offset
      (left - get_num_copy_bytes left off)).block b = σ.block b :=
    fun b hb => View.setBlock_block_ne hb
  refine ⟨fun j hj => View.setInode_inode_ne hj, hinode _ (by simp), hinode _ (by simp), fun m => ?_, fun m hm => ?_,
    fun b hb => hblock b (hb n hc), rfl, rfl⟩
  · rw [View.covers, View.covers, View.size, View.size]
    simp only [FS.putChunk, FS.setInode_view, View.setInode_inode_self, hup, BLOCKSIZE]
    rw [View.covers, View.size, BLOCKSIZE] at hc
    split
    · rw [Inode.size_set_size _ _ (by omega) (by omega)]
      omega
    · rfl
  · unfold View.pointer
    split
    case isTrue h12 => exact hinode _ (by simp)
    case isFalse h12 =>
      have hind := hinode .indirect (by simp)
      rw [View.indirect, Inode.indirect, hind,
        hblock _ (hw.pointer_ne_indirect h.inode hc (hm.lt (by omega))).symm]

/-- What a round does that takes a new block. -/
theorem Round.appended (bytes : List UInt8) (hc : ¬ σ.covers i n) (hb : (σ.alloc i n).pointer i n ≠ 0) : σ.CanGrow g i ∧
    Appended σ ((σ.alloc i n).putChunk i n off.toNat bytes size byte_offset (left - get_num_copy_bytes left off)) i := by
  obtain ⟨hpos, hend, hs⟩ := h.bounds
  have hn := h.index
  have ho := h.offset
  have hup := update_i_size_eq ((σ.alloc i n).inode i) hs (by omega) (by omega)
  have hnext := h.next
  rw [View.covers_iff] at hc
  obtain rfl : n = σ.blocks i := by omega
  rw [FS.pointer_alloc_self hn, hw.wrap_next] at hb
  have hg : σ.CanGrow g i := by
    refine ⟨hn, fun he => hb ?_, h.fresh View.not_covers_blocks, h.indirect View.not_covers_blocks⟩
    rw [FS.next, he]
    rfl
  have hsize : σ.size i ≤ 512 * σ.blocks i := by
    simp only [View.blocks]
    omega
  have hsz : ((σ.alloc i (σ.blocks i)).inode i).size = σ.size i := FS.size_alloc
  rw [if_pos (by omega)] at hup
  have hglob : ((σ.alloc i (σ.blocks i)).putChunk i (σ.blocks i) off.toNat bytes size byte_offset
      (left - get_num_copy_bytes left off)).toGlobals = σ.pop.toGlobals := FS.alloc_globals
  refine ⟨hg, FS.alloc_appended (s := 512 * σ.blocks i + off + get_num_copy_bytes left off) hw hg (fun j hj => ?_)
    (fun f hf => ?_) ?_ (fun b hb => ?_) ?_ ?_ (by omega) (by omega)⟩
  · exact (View.setInode_inode_ne hj).trans (FS.alloc_inode_ne hj)
  · simp only [FS.putChunk, FS.setInode_view, View.setInode_inode_self, hup]
    rw [Inode.get_set, if_neg hf.symm]
  · simp only [FS.putChunk, FS.setInode_view, View.size_setInode_self, hup]
    exact Inode.size_set_size _ _ (by omega) (by omega)
  · rw [← hw.wrap_next, ← FS.pointer_alloc_self (i := i) hn] at hb
    exact View.setBlock_block_ne hb
  · rw [hglob]; rfl
  · rw [hglob]; rfl

end

theorem Rewritten.ownIndirect (h : Rewritten σ σ' i) (hw : WellFormed g σ) (hi : g.isInode i)
    (ho : σ.OwnIndirect g i) : σ'.OwnIndirect g i := by
  refine ⟨h.indirect.symm ▸ ho.data, ?_, fun k hk => ho.key k ?_⟩
  · rw [h.indirect, h.b_head]; exact ho.free
  · rwa [h.ledger hw hi, h.indirect] at hk

theorem Appended.ownIndirect (h : Appended σ σ' i) (hw : WellFormed g σ) (hg : σ.CanGrow g i) (hi : g.isInode i)
    (ho : σ.OwnIndirect g i) : σ'.OwnIndirect g i := by
  refine ⟨h.indirect.symm ▸ ho.data, ?_, ?_⟩
  · rw [h.indirect, h.b_head]
    exact fun hb => ho.free (List.mem_of_mem_tail hb)
  · rintro ⟨j, o⟩ hk
    rw [h.indirect] at hk
    by_cases hj : j = i
    · subst hj
      rcases h.holds hw hg hi hk with hold | ⟨_, he⟩ | ⟨rfl, _, _⟩
      · exact ho.key _ hold
      · exact absurd (he ▸ next_mem hg.free) ho.free
      · rfl
    · exact ho.key _ ((ledger_of_same (k := (j, o)) (fun j hj hne => h.same hw hg hj hne) hj).symm.trans hk)

/-- A round fills a block that `i` has, or its next one. -/
inductive Put (g : Geometry) (σ σ' : FS) (i : Int) (n : Nat) : Prop where
  | inside (hc : σ.covers i n) (h : Rewritten σ σ' i)
  | atEnd (hn : n = σ.blocks i) (hg : σ.CanGrow g i) (h : Appended σ σ' i)

namespace Put

variable (h : Put g σ σ' i n)
include h

theorem inode (hne : j ≠ i) : σ'.inode j = σ.inode j := by
  cases h with
  | inside _ h => exact h.inode j hne
  | atEnd _ _ h => exact h.inode j hne

theorem type : σ'.type i = σ.type i := by
  cases h with
  | inside _ h => exact h.type
  | atEnd _ _ h => exact h.type

theorem i_head : σ'.i_head = σ.i_head := by
  cases h with
  | inside _ h => exact h.i_head
  | atEnd _ _ h => exact h.i_head

theorem next : n + 1 ≤ σ'.blocks i := by
  cases h with
  | inside hc h => exact View.covers_iff.mp ((h.covers n).mpr hc)
  | atEnd hn _ h => exact View.covers_iff.mp ((h.covers n).mpr (Nat.le_of_eq hn))

/-- Each new block is one free block less. -/
theorem room : σ'.blocks i + σ'.b_head.length = σ.blocks i + σ.b_head.length := by
  cases h with
  | inside _ h => rw [h.b_head, blocks_of_covers fun m => (h.covers m).trans View.covers_iff]
  | atEnd _ hg h =>
    rw [h.b_head, blocks_of_covers fun m => (h.covers m).trans Nat.lt_succ_iff.symm, List.length_tail]
    have := List.length_pos_of_ne_nil hg.free
    omega

/-- The blocks still to come were to come before. -/
theorem fresh {size byte_offset b : Int} (hb : b ∈ σ'.b_head.take (newBlocks σ' i size byte_offset)) :
    b ∈ σ.b_head.take (newBlocks σ i size byte_offset) := by
  cases h with
  | inside _ h =>
    have hblocks : σ'.blocks i = σ.blocks i := blocks_of_covers fun m => (h.covers m).trans View.covers_iff
    rwa [newBlocks, hblocks, h.b_head] at hb
  | atEnd _ hg h =>
    have hblocks : σ'.blocks i = σ.blocks i + 1 := blocks_of_covers fun m => (h.covers m).trans Nat.lt_succ_iff.symm
    rw [newBlocks, hblocks, h.b_head] at hb
    rw [newBlocks]
    generalize min 140 ((byte_offset + size + 511) / 512).toNat = k at hb ⊢
    by_cases hk : σ.blocks i < k
    · rw [show k - σ.blocks i = k - (σ.blocks i + 1) + 1 by omega, b_head_eq hg.free, List.take_succ_cons]
      exact List.mem_cons_of_mem _ hb
    · rw [show k - (σ.blocks i + 1) = 0 by omega, List.take_zero] at hb
      cases hb

theorem covers (hc : σ.covers i m) : σ'.covers i m := by
  cases h with
  | inside _ h => exact (h.covers m).mpr hc
  | atEnd _ _ h => exact (h.covers m).mpr (Nat.le_of_lt (View.covers_iff.mp hc))

variable (hw : WellFormed g σ) (hi : g.isInode i)
include hw hi

theorem same (hj : g.isInode j) (hne : j ≠ i) : σ.Same σ'.toView j := by
  cases h with
  | inside _ h => exact h.same hw hi hj hne
  | atEnd _ hg h => exact h.same hw hg hj hne

theorem wellFormed (hfile : ¬ σ.isDir i) : WellFormed g σ' := by
  cases h with
  | inside _ h => exact h.wellFormed hw hi fun hd => absurd hd hfile
  | atEnd _ hg h => exact h.wellFormed hw hg hi fun hd => absurd hd hfile

theorem ownIndirect (ho : σ.OwnIndirect g i) : σ'.OwnIndirect g i := by
  cases h with
  | inside _ h => exact h.ownIndirect hw hi ho
  | atEnd _ hg h => exact h.ownIndirect hw hg hi ho

end Put

theorem Round.put {size byte_offset left off : Int} (hw : WellFormed g σ)
    (h : Round g σ i n size byte_offset left off) (bytes : List UInt8) (hb : (σ.reach i n).pointer i n ≠ 0) :
    Put g σ ((σ.reach i n).putChunk i n off.toNat bytes size byte_offset (left - get_num_copy_bytes left off)) i n := by
  unfold FS.reach at hb ⊢
  by_cases hc : σ.covers i n
  · rw [if_pos hc]
    exact .inside hc (h.rewritten hw bytes hc)
  · rw [if_neg hc] at hb ⊢
    obtain ⟨hg, happ⟩ := h.appended hw bytes hc hb
    have hnext := h.next
    rw [View.covers_iff] at hc
    exact .atEnd (by omega) hg happ

/-! ## The loop -/

/-- The state before a round. -/
structure Writable (g : Geometry) (σ : FS) (i : Int) (buf : UserBuf) (size byte_offset : Int) (n : Nat)
    (left off : Int) : Prop where
  wellFormed : WellFormed g σ
  inode : g.isInode i
  file : ¬ σ.isDir i
  next : 0 < left → n ≤ σ.blocks i
  offset : 0 ≤ off ∧ off < 512
  position : 0 < left → 512 * n + off = byte_offset + (size - left)
  first : off = 0 ∨ left = size
  start : 0 ≤ byte_offset
  left : left ≤ size
  indirect : ¬ σ.covers i 12 → Reaches σ i buf size byte_offset n → σ.OwnIndirect g i
  fresh : ∀ b ∈ σ.b_head.take (newBlocks σ i size byte_offset), ¬ g.isTable b

namespace Writable

variable {buf : UserBuf} {size byte_offset left off : Int} (h : Writable g σ i buf size byte_offset n left off)
include h

theorem round (hpos : 0 < left) (hn : n < 140) : Round g σ i n size byte_offset left off := by
  have hnext := h.next hpos
  have hposn := h.position hpos
  have hoff := h.offset
  refine ⟨h.inode, h.file, hnext, hoff, hposn, h.first, h.start, hn, hpos, fun _ h12 => ?_, fun hc => ?_⟩
  · by_cases hc : σ.covers i 12
    · exact h.wellFormed.ownIndirect h.inode hc
    · exact h.indirect hc ⟨by omega, by omega, fun m h1 h2 => by omega⟩
  · by_cases hb : σ.b_head = []
    · rw [FS.next, hb]
      exact fun ht => absurd ht.1 (by simp)
    · refine h.fresh _ ?_
      have hnew : 0 < newBlocks σ i size byte_offset := by
        rw [View.covers_iff] at hc
        simp only [newBlocks]
        omega
      rw [b_head_eq hb, List.take_cons hnew]
      exact List.mem_cons_self

theorem chunkMapped (hpos : 0 < left) : chunkMapped buf size byte_offset n ↔
    buf.mapped (size - left).toNat (get_num_copy_bytes left off).toNat = true := by
  have hposn := h.position hpos
  have hoff := h.offset
  have hfirst := h.first
  have hleft := h.left
  have h1 : max byte_offset (512 * n) = 512 * n + off := by omega
  have h2 : 512 * (n : Int) + off - byte_offset = size - left := by omega
  have h3 : min (byte_offset + size) (512 * (n + 1)) - (512 * n + off) = min left (512 - off) := by omega
  rw [Yfs.chunkMapped, h1, h2, h3, get_num_copy_bytes_eq]

/-- A round leads to the next one. -/
theorem step {bytes : List UInt8} (hpos : 0 < left) (hn : n < 140) (hb : (σ.reach i n).pointer i n ≠ 0)
    (hbytes : CopyFrom buf (size - left).toNat (get_num_copy_bytes left off).toNat = some bytes) :
    Writable g ((σ.reach i n).putChunk i n off.toNat bytes size byte_offset (left - get_num_copy_bytes left off)) i buf
      size byte_offset (n + 1) (left - get_num_copy_bytes left off) 0 := by
  have hround := h.round hpos hn
  have hput := hround.put h.wellFormed bytes hb
  have hcopy := get_num_copy_bytes_eq left off
  have hposn := h.position hpos
  have hleft := h.left
  have hoff := h.offset
  have hw' := hput.wellFormed h.wellFormed h.inode h.file
  have hmapped : Yfs.chunkMapped buf size byte_offset n := (h.chunkMapped hpos).mpr (by
    by_contra hm
    rw [CopyFrom, if_neg hm] at hbytes
    cases hbytes)
  refine ⟨hw', h.inode, ?_, fun _ => hput.next, by omega, fun _ => by omega, Or.inl rfl, h.start, by omega, ?_,
    fun b hb => h.fresh b (hput.fresh hb)⟩
  · rw [View.isDir, hput.type]; exact h.file
  · intro hc hr
    refine hput.ownIndirect h.wellFormed h.inode (h.indirect (fun hc' => hc (hput.covers hc')) ⟨hr.far, ?_, ?_⟩)
    · rw [← hput.room]; exact hr.free
    · intro m h1 h2
      by_cases hm : m = n
      · rw [hm]; exact hmapped
      · exact hr.mapped m (by omega) h2

end Writable

theorem reach_not_table (hw : WellFormed g σ) (hi : g.isInode i) (hn : n < 140)
    (hfresh : ¬ σ.covers i n → ¬ g.isTable σ.next) :
    ¬ g.isTable ((σ.reach i n).pointer i n) := by
  unfold FS.reach
  by_cases hc : σ.covers i n
  · rw [if_pos hc]
    exact (hw.mapped i hi).data n hc
  · rw [if_neg hc, FS.pointer_alloc_self hn, hw.wrap_next]
    exact hfresh hc

theorem get_nth_b_reach_spec {Q : Int → FS → Prop} {p : Ptr} {k : Int} (hw : WellFormed g σ) (hk : k = n)
    (hi : g.isInode p.num) (hind : n < 140 → ¬ σ.covers p.num n → 12 ≤ n → σ.OwnIndirect g p.num)
    (hmax : 140 ≤ n → Q 0 σ) (hQ : n < 140 → Q ((σ.reach p.num n).pointer p.num n) (σ.reach p.num n)) :
    wp g (get_nth_b p k true) σ Q := by
  unfold FS.reach at hQ
  by_cases hc : σ.covers p.num n
  · have hm := hw.mapped _ hi
    simp only [if_pos hc] at hQ
    refine get_nth_b_spec hk (fun _ => hc) hm.indirect ?_
    rw [hm.nthBlock hc]
    exact hQ (hm.index n hc)
  · simp only [if_neg hc] at hQ
    refine get_nth_b_alloc_spec hk hc (fun h12 hn => (hind hn hc h12).data) hmax fun hn => ?_
    rw [← FS.pointer_alloc_self hn]
    exact hQ hn

theorem write_loop_spec {Q : Bool → FS → Prop} {p : Ptr} {buf : UserBuf} {size byte_offset k left off : Int} {fuel : Nat}
    (h : Writable g σ p.num buf size byte_offset n left off) (hk : k = n) (hfuel : 140 < n + fuel)
    (hQ : ∀ r σ', Writing p.num buf size byte_offset n left off σ r σ' → Q r σ') :
    wp g (write_loop p buf size byte_offset fuel k left off) σ Q := by
  induction fuel generalizing σ n k left off with
  | zero => simp only [write_loop, wp_undef]
  | succ fuel ih =>
    unfold write_loop
    simp only [wp_bind, wp_ite, wp_ret, Prog.pure_eq, wp_get_b, wp_undef]
    refine ⟨fun hpos => hQ _ _ (.done hpos), fun hpos => ?_⟩
    have hpos : 0 < left := by omega
    refine get_nth_b_reach_spec h.wellFormed hk h.inode (fun hn hc h12 => (h.round hpos hn).indirect hc h12)
      (fun hn => ⟨fun _ => hQ _ _ (.limit hpos hn), fun h0 => absurd rfl h0⟩) fun hn => ?_
    refine ⟨fun h0 => hQ _ _ (.stuck hpos hn (Or.inl h0)), fun hb _ _ id => ⟨fun _ => trivial, fun _ => ?_⟩⟩
    cases hbytes : CopyFrom buf (size - left).toNat (get_num_copy_bytes left off).toNat with
    | none =>
      simp only [wp_ret]
      exact hQ _ _ (.stuck hpos hn (Or.inr hbytes))
    | some bytes =>
      simp only [wp_bind, modifyBlock, modifyInode, wp_readBlock, wp_writeBlock, wp_dirtyBlock, wp_readInode, wp_writeInode]
      have htab := reach_not_table h.wellFormed h.inode hn (h.round hpos hn).fresh
      refine ⟨htab, htab, ih (h.step hpos hn hb hbytes) (by omega) (by omega) fun r σ' hr => ?_⟩
      exact hQ _ _ (.chunk hpos hn hb hbytes hr)

theorem FS.WriteOk.writable {buf : UserBuf} {size byte_offset : Int} (hw : WellFormed g σ)
    (h : σ.WriteOk g i buf size byte_offset) :
    Writable g σ i buf size byte_offset (byte_offset / 512).toNat size (byte_offset % 512) := by
  have h0 := h.offset
  refine ⟨hw, h.inode, h.file, fun hs => ?_, by omega, fun _ => by omega, Or.inr rfl, h0, Int.le_refl _, h.indirect, h.fresh⟩
  have := h.gap hs
  omega

theorem handle_write_spec {Q : Int → FS → Prop} {buf : UserBuf} {size byte_offset : Int} (hw : WellFormed g σ)
    (h : σ.WriteOk g i buf size byte_offset) (hQ : ∀ r σ', Written σ i buf size byte_offset r σ' → Q r σ') :
    wp g (handle_write i buf size byte_offset) σ Q := by
  have h0 := h.offset
  have hdiv : Int.tdiv byte_offset BLOCKSIZE = byte_offset / 512 := Int.tdiv_eq_ediv_of_nonneg h0
  have hmod : Int.tmod byte_offset BLOCKSIZE = byte_offset % 512 := Int.tmod_eq_emod_of_nonneg h0
  unfold handle_write
  simp only [wp_bind, wp_ite, wp_ret, Prog.pure_eq, wp_get_i, wp_readInode, wp_dirtyInode, hdiv, hmod]
  refine fun _ => ⟨h.inode, fun id => ⟨fun he => ?_, fun _ => ?_⟩⟩
  · unfold is_valid_i at he
    split at he <;> cases he
  · refine write_loop_spec (h.writable hw) (by omega) (by simp only [loopFuel]; omega) fun r σ' hr => ⟨fun he => ?_, fun he => ?_⟩
    · subst he
      exact hQ _ _ (.failed hr)
    · rw [Bool.not_eq_false] at he
      subst he
      exact hQ _ _ (.ended hr)

/-! ## What a write leaves alone -/

/-- Only file `i` has changed. -/
structure Kept (g : Geometry) (σ σ' : FS) (i : Int) : Prop where
  wellFormed : WellFormed g σ'
  inode : ∀ j, j ≠ i → σ'.inode j = σ.inode j
  same : ∀ j, g.isInode j → j ≠ i → σ.Same σ'.toView j
  type : σ'.type i = σ.type i
  i_head : σ'.i_head = σ.i_head

namespace Kept

theorem refl (hw : WellFormed g σ) : Kept g σ σ i :=
  ⟨hw, fun _ _ => rfl, fun _ _ _ => View.Same.refl _ _, rfl, rfl⟩

theorem trans {τ : FS} (h : Kept g σ σ' i) (h' : Kept g σ' τ i) : Kept g σ τ i :=
  ⟨h'.wellFormed, fun j hj => (h'.inode j hj).trans (h.inode j hj),
    fun j hj hne => (h.same j hj hne).trans (h'.same j hj hne), h'.type.trans h.type, h'.i_head.trans h.i_head⟩

theorem markInode {j : Int} (h : Kept g σ σ' i) : Kept g σ (σ'.markInode j) i :=
  ⟨h.wellFormed.keep (fun _ _ => View.Same.refl _ _) (List.Sublist.refl _) h.wellFormed.inodes, h.inode, h.same, h.type,
    h.i_head⟩

end Kept

theorem Put.kept (h : Put g σ σ' i n) (hw : WellFormed g σ) (hi : g.isInode i) (hfile : ¬ σ.isDir i) : Kept g σ σ' i :=
  ⟨h.wellFormed hw hi hfile, fun _ hj => h.inode hj, fun _ hj hne => h.same hw hi hj hne, h.type, h.i_head⟩

theorem reach_kept (hw : WellFormed g σ) (hi : g.isInode i) (hind : ¬ σ.covers i n → 12 ≤ n → σ.OwnIndirect g i) :
    Kept g σ (σ.reach i n) i := by
  unfold FS.reach
  by_cases hc : σ.covers i n
  · rw [if_pos hc]
    exact .refl hw
  · rw [if_neg hc]
    refine ⟨alloc_wellFormed hw hi hc (hind hc), fun j hj => FS.alloc_inode_ne hj,
      fun j hj _ => alloc_same hw hi hc (hind hc) hj, FS.alloc_get fun _ _ => by simp, ?_⟩
    rw [FS.alloc_globals]
    rfl

theorem Writing.kept {buf : UserBuf} {size byte_offset left off : Int} {r : Bool}
    (h : Writing i buf size byte_offset n left off σ r σ') (hs : Writable g σ i buf size byte_offset n left off) :
    Kept g σ σ' i := by
  induction h with
  | done => exact .refl hs.wellFormed
  | limit => exact .refl hs.wellFormed
  | stuck hpos hn => exact reach_kept hs.wellFormed hs.inode (hs.round hpos hn).indirect
  | chunk hpos hn hb hbytes _ ih =>
    have hround := hs.round hpos hn
    exact ((hround.put hs.wellFormed _ hb).kept hs.wellFormed hs.inode hs.file).trans (ih (hs.step hpos hn hb hbytes))

/-- A write changes nothing but its file. -/
theorem Written.kept {buf : UserBuf} {size byte_offset r : Int} (h : Written σ i buf size byte_offset r σ')
    (hw : WellFormed g σ) (hs : σ.WriteOk g i buf size byte_offset) : Kept g σ σ' i := by
  cases h with
  | ended h => exact (h.kept (hs.writable hw)).markInode
  | failed h => exact h.kept (hs.writable hw)

end Yfs
