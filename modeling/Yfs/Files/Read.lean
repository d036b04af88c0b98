import Yfs.Blocks.Frame
import Yfs.Outcome

/-! # What `handle_read` copies -/

namespace Yfs

namespace View

variable (v : View) (sectors : Int)

/-- `read_loop`, on the view of a disk of `sectors` sectors. `none` is undefined behaviour. -/
def readLoop (j : Int) (buf : UserBuf) (ret : Int) : Nat → (i left off num : Int) → List UInt8 → Option Reply
  | 0, _, _, _, _, _ => none
  | fuel + 1, i, left, off, num, copied =>
    if left ≤ 0 then some ⟨ret, copied⟩
    else if i < 0 ∧ i * BLOCKSIZE < v.size j then none
    else if (v.covers j i.toNat ∧ 12 ≤ i ∧ i < 140) ∧ ¬ (0 ≤ v.indirect j ∧ v.indirect j < sectors) then none
    else if v.nthBlock j i.toNat = 0 then some ⟨ERROR, copied⟩
    else if ¬ (0 ≤ v.nthBlock j i.toNat ∧ v.nthBlock j i.toNat < sectors) then none
    else
      let num := if left < num then left else num
      if off < 0 ∨ BLOCKSIZE < off + num then none
      else if buf.mapped copied.length num.toNat = false then some ⟨ERROR, copied⟩
      else readLoop j buf ret fuel (i + 1) (left - num) 0 BLOCKSIZE
        (copied ++ (v.block (v.nthBlock j i.toNat)).load off.toNat num.toNat)

/-- `handle_read`, on the view. -/
def readFile (j : Int) (buf : UserBuf) (size byte_offset : Int) : Option Reply :=
  if byte_offset > v.size j then some ⟨ERROR, []⟩
  else
    let left := get_num_bytes_left byte_offset size (v.inode j)
    let off := Int.tmod byte_offset BLOCKSIZE
    v.readLoop sectors j buf left loopFuel (Int.tdiv byte_offset BLOCKSIZE) left off (BLOCKSIZE - off) []

variable {v sectors} {w : View} {j : Int}

theorem Same.readLoop (h : Same v w j) {buf : UserBuf} {ret i left off num : Int} {fuel : Nat} {copied : List UInt8} :
    w.readLoop sectors j buf ret fuel i left off num copied = v.readLoop sectors j buf ret fuel i left off num copied := by
  induction fuel generalizing i left off num copied with
  | zero => rfl
  | succ fuel ih =>
    unfold View.readLoop
    rw [h.size, h.nthBlock, h.indirect]
    simp only [h.covers]
    by_cases hc : v.covers j i.toNat ∧ i.toNat < 140
    · have hdata := h.data i.toNat hc.1
      rw [← nthBlock_of_lt hc.1 hc.2] at hdata
      simp only [hdata, ih]
    · have h0 : v.nthBlock j i.toNat = 0 := if_neg hc
      simp only [h0, if_true]

/-- A file that is the same reads the same. -/
theorem Same.readFile (h : Same v w j) {buf : UserBuf} {size byte_offset : Int} :
    w.readFile sectors j buf size byte_offset = v.readFile sectors j buf size byte_offset := by
  have hleft : get_num_bytes_left byte_offset size (w.inode j) = get_num_bytes_left byte_offset size (v.inode j) := by
    have hs : (w.inode j).size = (v.inode j).size := h.size
    rw [get_num_bytes_left, get_num_bytes_left, hs]
  rw [View.readFile, View.readFile, h.size, hleft]
  simp only [h.readLoop]

end View

/-! ## Reading changes nothing -/

section

variable {g : Geometry} {σ : FS} {i : Int} {buf : UserBuf} {Q : Reply → FS → Prop}

/-- Below index 0 there is no pointer, and a file with a size that low has no block. -/
theorem get_nth_b_negative {p : Ptr} {Q : Int → FS → Prop} (hi : i < 0) (hQ : Q 0 σ) : wp g (get_nth_b p i false) σ Q := by
  unfold get_nth_b
  simp only [wp_bind, wp_ite, wp_ret, Prog.pure_eq, wp_readInode, decide_eq_true_eq]
  refine ⟨fun h => absurd h (by simp only [MAX_BLOCKS]; omega), fun _ => ⟨fun _ => hQ, fun _ => ⟨fun _ => ?_, fun h => absurd h ?_⟩⟩⟩
  · rw [directField, dif_neg (by omega)]
    simp only [wp_undef]
  · simp only [NUM_DIRECT]
    omega

theorem read_loop_spec {p : Ptr} {ret k left off num : Int} {fuel : Nat} {copied : List UInt8}
    (hm : σ.Mapped g p.num) (hQ : ∀ r, Q r σ) : wp g (read_loop p buf ret fuel k left off num copied) σ Q := by
  induction fuel generalizing k left off num copied with
  | zero => simp only [read_loop, wp_undef]
  | succ fuel ih =>
    unfold read_loop
    simp only [wp_bind, wp_ite, wp_ret, Prog.pure_eq, wp_get_b, wp_undef, wp_readBlock]
    refine ⟨fun _ => hQ _, fun _ => ?_⟩
    by_cases hneg : k < 0
    · exact get_nth_b_negative hneg ⟨fun _ => hQ _, fun h => absurd rfl h⟩
    · refine get_nth_b_spec (n := k.toNat) (by omega) (fun h => by cases h) hm.indirect ⟨fun _ => hQ _, fun h0 _ _ id => ?_⟩
      have hc : σ.covers p.num k.toNat := Decidable.byContradiction fun hc => h0 (View.nthBlock_of_not_covers hc)
      have htab : ¬ g.isTable (σ.nthBlock p.num k.toNat) := by
        rw [hm.nthBlock hc]
        exact hm.data _ hc
      exact ⟨fun _ => trivial, fun _ => ⟨fun _ => hQ _, fun _ => ⟨htab, ih⟩⟩⟩

theorem handle_read_spec {size byte_offset : Int} (hi : g.isInode i) (hm : σ.Mapped g i) (hQ : ∀ r, Q r σ) :
    wp g (handle_read i buf size byte_offset) σ Q := by
  unfold handle_read
  simp only [wp_bind, wp_ite, wp_ret, Prog.pure_eq, wp_get_i, wp_readInode]
  exact ⟨fun _ => hQ _, fun _ _ => ⟨hi, fun id => ⟨fun _ => hQ _, fun _ => read_loop_spec hm hQ⟩⟩⟩

end

/-! ## What reading returns -/

section

variable {v : View} {sv : Server} {p : Ptr} {item : CacheItem Inode} {j : Int} {buf : UserBuf}

/-- The pointer `p` and the store show what `v` shows of file `j`. -/
structure Reading (v : View) (j : Int) (p : Ptr) (s : Store) : Prop where
  blocks : BlocksOk s
  view : ∀ b, logicalBlock s b = v.block b
  inode : ∃ item, deref s.cache_i_queue p = some item ∧ item.data = v.inode j

theorem Reading.step {s s' : Store} (h : Reading v j p s) (hs : BlockStep s s') : Reading v j p s' :=
  ⟨hs.ok, fun b => (hs.view b).trans (h.view b), by rw [hs.inodes]; exact h.inode⟩

theorem get_nth_b_outcome {i : Int} (h : Reading v j p sv.store) :
    Outcome (get_nth_b p i false) sv (¬ (i < 0 ∧ i * BLOCKSIZE < v.size j) ∧
        ((v.covers j i.toNat ∧ 12 ≤ i ∧ i < 140) → 0 ≤ v.indirect j ∧ v.indirect j < sv.store.num_sectors))
      fun b sv' => b = v.nthBlock j i.toNat ∧ BlockStep sv.store sv'.store := by
  obtain ⟨item, hitem, hdata⟩ := h.inode
  unfold get_nth_b
  by_cases hmax : 140 ≤ i
  · rw [if_pos (show i ≥ MAX_BLOCKS from hmax)]
    refine .of_iff (iff_true_intro ⟨fun hn => by omega, fun hc => by omega⟩) (.ret ⟨?_, .refl h.blocks⟩)
    exact (View.nthBlock_of_ge (by omega)).symm
  rw [if_neg (show ¬ i ≥ MAX_BLOCKS from hmax)]
  refine (Outcome.readInode hitem).bind_ok trivial ?_
  rintro ino sv' ⟨rfl, rfl⟩
  rw [hdata]
  by_cases hfin : i * BLOCKSIZE ≥ v.size j
  · -- At or past the end.
    have hc : ¬ v.covers j i.toNat := by
      rw [View.covers]
      simp only [BLOCKSIZE] at hfin ⊢
      omega
    rw [if_pos ⟨decide_eq_true hfin, rfl⟩]
    refine .of_iff (iff_true_intro ⟨fun hn => by omega, fun hn => absurd hn.1 hc⟩) (.ret ⟨?_, .refl h.blocks⟩)
    exact (View.nthBlock_of_not_covers hc).symm
  rw [if_neg fun hn => hfin (of_decide_eq_true hn.1)]
  by_cases hneg : i < 0
  · rw [if_pos (show i < NUM_DIRECT by simp only [NUM_DIRECT]; omega), directField, dif_neg (by omega)]
    exact .of_iff (iff_false_intro fun hok => hok.1 ⟨hneg, Int.not_le.mp hfin⟩) .undefined
  have hc : v.covers j i.toNat := by
    rw [View.covers]
    simp only [BLOCKSIZE] at hfin ⊢
    omega
  have hnth := View.nthBlock_of_lt hc (show i.toNat < 140 by omega)
  rw [View.pointer] at hnth
  by_cases h12 : i < 12
  · rw [if_pos (show i < NUM_DIRECT from h12), show directField i = some (.direct ⟨i.toNat, by omega⟩) from dif_pos ⟨by omega, h12⟩]
    simp only [decide_eq_true_eq, hfin, if_false]
    refine (Outcome.readInode hitem).bind_ok trivial ?_
    rintro ino sv' ⟨rfl, rfl⟩
    refine .of_iff (iff_true_intro ⟨fun hn => by omega, fun hn => by omega⟩) (.ret ⟨?_, .refl h.blocks⟩)
    rw [hnth, dif_pos (by omega), hdata]
  · rw [if_neg (show ¬ i < NUM_DIRECT from h12)]
    refine .of_iff (show _ ↔ (0 ≤ v.indirect j ∧ v.indirect j < sv'.store.num_sectors) ∧ True from
      ⟨fun hok => ⟨hok.2 ⟨hc, by omega, by omega⟩, trivial⟩, fun hr => ⟨fun hn => by omega, fun _ => hr.1⟩⟩)
      ((Outcome.get_b h.blocks).bind fun q sv₁ hgot => ?_)
    obtain ⟨⟨blk, hq, hblk⟩, hstep, _⟩ := hgot
    simp only [decide_eq_true_eq, hfin, if_false]
    refine (Outcome.readBlock hq).bind_ok trivial ?_
    rintro b sv₂ ⟨rfl, rfl⟩
    refine .ret ⟨?_, hstep⟩
    rw [hnth, dif_neg (by omega), hblk, h.view, show (i - NUM_DIRECT).toNat = i.toNat - 12 by simp only [NUM_DIRECT]; omega]

theorem read_loop_outcome {ret i left off num : Int} {fuel : Nat} {copied : List UInt8} (h : Reading v j p sv.store) :
    Outcome (read_loop p buf ret fuel i left off num copied) sv
      (v.readLoop sv.store.num_sectors j buf ret fuel i left off num copied).isSome
      fun r _ => v.readLoop sv.store.num_sectors j buf ret fuel i left off num copied = some r := by
  induction fuel generalizing sv i left off num copied with
  | zero => exact .of_iff (by simp [View.readLoop]) .undefined
  | succ fuel ih =>
    unfold read_loop View.readLoop
    by_cases hleft : left ≤ 0
    · simp only [if_pos hleft]
      exact .of_iff (by simp) (.ret rfl)
    simp only [if_neg hleft]
    have hget := get_nth_b_outcome (i := i) h
    by_cases hneg : i < 0 ∧ i * BLOCKSIZE < v.size j
    · simp only [if_pos hneg]
      exact .of_iff (by simp) (hget.bind_undef fun hok => hok.1 hneg)
    simp only [if_neg hneg]
    by_cases hind : (v.covers j i.toNat ∧ 12 ≤ i ∧ i < 140) ∧ ¬ (0 ≤ v.indirect j ∧ v.indirect j < sv.store.num_sectors)
    · simp only [if_pos hind]
      exact .of_iff (by simp) (hget.bind_undef fun hok => hind.2 (hok.2 hind.1))
    simp only [if_neg hind]
    refine hget.bind_ok ⟨hneg, fun hc => Decidable.byContradiction fun hr => hind ⟨hc, hr⟩⟩ ?_
    rintro b sv₁ ⟨rfl, hstep⟩
    have h₁ := h.step hstep
    by_cases h0 : v.nthBlock j i.toNat = 0
    · simp only [if_pos h0]
      exact .of_iff (by simp) (.ret rfl)
    simp only [if_neg h0]
    have hgetb := Outcome.get_b (b := v.nthBlock j i.toNat) h₁.blocks
    rw [hstep.sectors] at hgetb
    by_cases hr : 0 ≤ v.nthBlock j i.toNat ∧ v.nthBlock j i.toNat < sv.store.num_sectors
    case neg =>
      simp only [hr, not_false_eq_true, if_true]
      exact .of_iff (by simp) (hgetb.bind_undef hr)
    simp only [hr]
    refine hgetb.bind_ok hr fun q sv₂ ⟨⟨blk, hq, hblk⟩, hstep₂, _⟩ => ?_
    by_cases hoff : off < 0 ∨ BLOCKSIZE < off + if left < num then left else num
    · simp only [if_pos hoff]
      exact .of_iff (by simp) .undefined
    simp only [if_neg hoff]
    by_cases hmap : buf.mapped copied.length (if left < num then left else num).toNat = false
    · simp only [if_pos hmap]
      exact .of_iff (by simp) (.ret rfl)
    simp only [if_neg hmap]
    refine (Outcome.readBlock hq).bind_ok trivial ?_
    rintro data sv₃ ⟨rfl, rfl⟩
    rw [hblk, h₁.view, ← hstep.sectors, ← hstep₂.sectors]
    exact ih (h₁.step hstep₂)

/-- `handle_read` returns what the view has, and exactly when the view has something. -/
theorem handle_read_outcome {g : Geometry} {size byte_offset : Int} (hb : BlocksOk sv.store) (hi : InodesOk g sv.store)
    (hs : sv.store.num_sectors = g.sectors) (hj : g.isInode j) (hm : v.Mapped g j)
    (hview : ∀ b, logicalBlock sv.store b = v.block b) (hinode : logicalInode sv.store j = v.inode j) :
    Outcome (handle_read j buf size byte_offset) sv (v.readFile g.sectors j buf size byte_offset).isSome
      fun r _ => v.readFile g.sectors j buf size byte_offset = some r := by
  have hvalid : is_valid_inputs j buf size byte_offset ≠ ERROR := by
    unfold is_valid_inputs
    split <;> decide
  unfold handle_read
  rw [if_neg hvalid]
  refine (Outcome.get_i hb hi hs hj).bind_ok trivial fun p sv₁ ⟨⟨item, hitem, hdata⟩, hstep, _⟩ => ?_
  -- The call may have flushed an inode into the table, where no block of the file is.
  obtain ⟨w, hsame, hr, hw⟩ : ∃ w : View, v.Same w j ∧ Reading w j p sv₁.store ∧ w.inode j = v.inode j :=
    ⟨{ v with block := logicalBlock sv₁.store }, hm.same rfl fun b ht => (hstep.view_b b ht).trans (hview b),
      ⟨hstep.blocks, fun _ => rfl, item, hitem, hdata.trans hinode⟩, rfl⟩
  rw [← hsame.readFile]
  refine (Outcome.readInode hitem).bind_ok trivial ?_
  rintro ino sv₂ ⟨rfl, rfl⟩
  rw [hdata.trans hinode, ← hw]
  by_cases hpast : byte_offset > w.size j
  · have hread : w.readFile g.sectors j buf size byte_offset = some ⟨ERROR, []⟩ := if_pos hpast
    rw [if_pos hpast, hread]
    exact .of_iff (by simp) (.ret rfl)
  · have hread : w.readFile g.sectors j buf size byte_offset = w.readLoop g.sectors j buf
        (get_num_bytes_left byte_offset size (w.inode j)) loopFuel (Int.tdiv byte_offset BLOCKSIZE) _ _ _ [] := if_neg hpast
    rw [if_neg hpast, hread, ← hs, ← hstep.sectors]
    exact read_loop_outcome hr

end

end Yfs
