import Yfs.Contents

/-! # Malformed reads and writes -/

namespace Yfs

variable {g : Geometry} {σ : FS} {sv sv₀ : Server} {reqs : List Request} {req : Request} {i size offset : Int} {buf : UserBuf} {p : Ptr}

/-! ## The loops with their assertions -/

/-- The bytes that a round copies are in the block. -/
def InBlock (b_offset num_bytes : Int) : Prop := 0 ≤ b_offset ∧ 0 < num_bytes ∧ b_offset + num_bytes ≤ BLOCKSIZE

instance (b_offset num_bytes : Int) : Decidable (InBlock b_offset num_bytes) := inferInstanceAs (Decidable (_ ∧ _))

/-- `read_loop`: `none` as soon as the index is negative or a byte out of the block. -/
def read_loop_checked (inode : Ptr) (buf : UserBuf) (ret : Int) :
    Nat → (i leftover_bytes b_offset num_bytes : Int) → List UInt8 → Prog (Option Reply)
  | 0, _, _, _, _, _ => .undef
  | fuel + 1, i, leftover_bytes, b_offset, num_bytes, copied => do
    if leftover_bytes ≤ 0 then return some ⟨ret, copied⟩
    if i < 0 then return none
    let b_num ← get_nth_b inode i false
    if b_num = 0 then return some ⟨ERROR, copied⟩
    let cur_b ← get_b b_num
    let num_bytes := if leftover_bytes < num_bytes then leftover_bytes else num_bytes
    if ¬ InBlock b_offset num_bytes then return none
    if buf.mapped copied.length num_bytes.toNat = false then return some ⟨ERROR, copied⟩
    let blk ← readBlock cur_b
    read_loop_checked inode buf ret fuel (i + 1) (leftover_bytes - num_bytes) 0 BLOCKSIZE
      (copied ++ blk.load b_offset.toNat num_bytes.toNat)

def handle_read_checked (i_num : Int) (buf : UserBuf) (size byte_offset : Int) : Prog (Option Reply) := do
  if is_valid_inputs i_num buf size byte_offset = ERROR then return some ⟨ERROR, []⟩
  let inode ← get_i i_num
  let ino ← readInode inode
  if byte_offset > ino.size then return some ⟨ERROR, []⟩
  let leftover_bytes := get_num_bytes_left byte_offset size ino
  let b_offset := Int.tmod byte_offset BLOCKSIZE
  read_loop_checked inode buf leftover_bytes loopFuel (Int.tdiv byte_offset BLOCKSIZE) leftover_bytes b_offset
    (BLOCKSIZE - b_offset) []

/-- `write_loop`, in the same way. -/
def write_loop_checked (inode : Ptr) (buf : UserBuf) (size byte_offset : Int) :
    Nat → (i leftover_bytes b_offset : Int) → Prog (Option Bool)
  | 0, _, _, _ => .undef
  | fuel + 1, i, leftover_bytes, b_offset => do
    if leftover_bytes ≤ 0 then return some true
    if i < 0 then return none
    let b_num ← get_nth_b inode i true
    if b_num = 0 then return some false
    let cur_b ← get_b b_num
    let num_bytes := get_num_copy_bytes leftover_bytes b_offset
    if ¬ InBlock b_offset num_bytes then return none
    match CopyFrom buf (size - leftover_bytes).toNat num_bytes.toNat with
    | none => return some false
    | some bytes =>
      modifyBlock cur_b fun blk => blk.store b_offset.toNat bytes
      dirtyBlock b_num
      modifyInode inode fun ino => update_i_size ino size byte_offset (leftover_bytes - num_bytes)
      write_loop_checked inode buf size byte_offset fuel (i + 1) (leftover_bytes - num_bytes) 0

def handle_write_checked (i_num : Int) (buf : UserBuf) (size byte_offset : Int) : Prog (Option Int) := do
  let inode ← get_i i_num
  let ino ← readInode inode
  if is_valid_i ino = ERROR then return some ERROR
  let done ← write_loop_checked inode buf size byte_offset loopFuel (Int.tdiv byte_offset BLOCKSIZE) size
    (Int.tmod byte_offset BLOCKSIZE)
  match done with
  | none => return none
  | some done =>
    if done = false then return some ERROR
    dirtyInode i_num
    return some size

/-- No assertion fails: the checked program does what `p` does. -/
def Passes {α : Type} (checked : Prog (Option α)) (p : Prog α) : Prop := checked = p >>= fun a => pure (some a)

theorem bind_same {α β : Type} {p : Prog α} {f f' : α → Prog β} (h : ∀ a, f a = f' a) : (p >>= f) = (p >>= f') :=
  congrArg (fun f => p >>= f) (funext h)

theorem read_loop_passes {ret k left off num : Int} {copied : List UInt8} {fuel : Nat} (hk : 0 ≤ k) (hoff : 0 ≤ off ∧ off < 512)
    (hnum : num = 512 - off) :
    Passes (read_loop_checked p buf ret fuel k left off num copied) (read_loop p buf ret fuel k left off num copied) := by
  unfold Passes
  induction fuel generalizing k left off num copied with
  | zero => rfl
  | succ fuel ih =>
    unfold read_loop_checked read_loop
    by_cases hdone : left ≤ 0
    · rw [if_pos hdone, if_pos hdone]
      rfl
    rw [if_neg hdone, if_neg hdone, if_neg (by omega), Prog.bind_assoc]
    refine bind_same fun b_num => ?_
    by_cases hb : b_num = 0
    · rw [if_pos hb, if_pos hb]
      rfl
    rw [if_neg hb, if_neg hb, Prog.bind_assoc]
    refine bind_same fun cur_b => ?_
    dsimp only
    generalize hlen : (if left < num then left else num) = len
    have hpos : 0 < len ∧ len ≤ num := by
      rw [← hlen]
      split <;> omega
    rw [if_neg (not_not.mpr ⟨hoff.1, hpos.1, by rw [BLOCKSIZE]; omega⟩), if_neg (show ¬ (off < 0 ∨ BLOCKSIZE < off + len) by
      rw [BLOCKSIZE]; omega)]
    split
    case isTrue => rfl
    case isFalse =>
      rw [Prog.bind_assoc]
      exact bind_same fun blk => ih (by omega) ⟨by omega, by omega⟩ rfl

theorem handle_read_passes (hoffset : 0 ≤ offset) : Passes (handle_read_checked i buf size offset) (handle_read i buf size offset) := by
  have hdiv : 0 ≤ Int.tdiv offset BLOCKSIZE := Int.tdiv_nonneg hoffset (by decide)
  have hmod : Int.tmod offset BLOCKSIZE = offset % 512 := Int.tmod_eq_emod_of_nonneg hoffset
  unfold Passes handle_read_checked handle_read
  rw [if_neg is_valid_inputs_ne, if_neg is_valid_inputs_ne, Prog.bind_assoc]
  refine bind_same fun inode => ?_
  rw [Prog.bind_assoc]
  refine bind_same fun ino => ?_
  split
  case isTrue => rfl
  case isFalse => exact read_loop_passes hdiv (by rw [hmod]; omega) rfl

theorem write_loop_passes {k left off : Int} {fuel : Nat} (hk : 0 ≤ k) (hoff : 0 ≤ off ∧ off < 512) :
    Passes (write_loop_checked p buf size offset fuel k left off) (write_loop p buf size offset fuel k left off) := by
  unfold Passes
  induction fuel generalizing k left off with
  | zero => rfl
  | succ fuel ih =>
    unfold write_loop_checked write_loop
    by_cases hdone : left ≤ 0
    · rw [if_pos hdone, if_pos hdone]
      rfl
    rw [if_neg hdone, if_neg hdone, if_neg (by omega), Prog.bind_assoc]
    refine bind_same fun b_num => ?_
    by_cases hb : b_num = 0
    · rw [if_pos hb, if_pos hb]
      rfl
    rw [if_neg hb, if_neg hb, Prog.bind_assoc]
    refine bind_same fun cur_b => ?_
    have hlen := get_num_copy_bytes_eq left off
    dsimp only
    rw [if_neg (not_not.mpr ⟨hoff.1, by omega, by rw [BLOCKSIZE]; omega⟩), if_neg (by omega)]
    cases CopyFrom buf (size - left).toNat (get_num_copy_bytes left off).toNat with
    | none => rfl
    | some bytes =>
      dsimp only
      rw [Prog.bind_assoc]
      refine bind_same fun _ => ?_
      rw [Prog.bind_assoc]
      refine bind_same fun _ => ?_
      rw [Prog.bind_assoc]
      exact bind_same fun _ => ih (by omega) ⟨by omega, by omega⟩

theorem handle_write_passes (hoffset : 0 ≤ offset) : Passes (handle_write_checked i buf size offset) (handle_write i buf size offset) := by
  have hdiv : 0 ≤ Int.tdiv offset BLOCKSIZE := Int.tdiv_nonneg hoffset (by decide)
  have hmod : Int.tmod offset BLOCKSIZE = offset % 512 := Int.tmod_eq_emod_of_nonneg hoffset
  have hloop : ∀ p, write_loop_checked p buf size offset loopFuel (Int.tdiv offset BLOCKSIZE) size (Int.tmod offset BLOCKSIZE) = _ :=
    fun p => write_loop_passes hdiv (by rw [hmod]; omega)
  unfold Passes handle_write_checked handle_write
  rw [Prog.bind_assoc]
  refine bind_same fun inode => ?_
  rw [Prog.bind_assoc]
  refine bind_same fun ino => ?_
  split
  case isTrue => rfl
  case isFalse =>
    rw [hloop, Prog.bind_assoc, Prog.bind_assoc]
    refine bind_same fun done => ?_
    cases done <;> rfl

/-! ## Refusals by accident -/

/-- A read that fails although nothing checks it: it starts past the end, has -1 bytes to deliver, meets a chunk that cannot be copied, or
starts before an empty file. -/
def FS.ReadStopped (σ : FS) (i : Int) (buf : UserBuf) (size offset : Int) : Prop :=
  offset > σ.size i ∨ get_num_bytes_left offset size (σ.inode i) = ERROR ∨
    0 < get_num_bytes_left offset size (σ.inode i) ∧
      ((0 ≤ offset ∧ ∃ m : Nat, offset / 512 ≤ m ∧ 512 * (m : Int) < offset + get_num_bytes_left offset size (σ.inode i) ∧
        ¬ chunkMapped buf (get_num_bytes_left offset size (σ.inode i)) offset m) ∨
      -512 < offset ∧ offset < 0 ∧ σ.size i = 0)

/-- The loop of `handle_read` gets to a chunk that cannot be copied. -/
theorem read_loop_stops {s : List UInt8} {n m off start left total : Nat} {ret k : Int} {copied : List UInt8} {fuel : Nat}
    (h : σ.Holds g p.num s) (hk : k = n) (hoff : off < 512) (hpos : start + copied.length = 512 * n + off)
    (hfirst : off = max start (512 * n) - 512 * n) (htotal : copied.length + left = total) (hleft : 0 < left)
    (hend : start + total ≤ s.length) (hnm : n ≤ m) (hm : 512 * m < start + total) (hfuel : 140 < n + fuel)
    (hstop : ¬ chunkMapped buf total start m) :
    ∃ copied', eval g (read_loop p buf ret fuel k left off (512 - off) copied) σ.logical = some (⟨ERROR, copied'⟩, σ.logical) := by
  induction fuel generalizing n k left off copied with
  | zero =>
    have := h.length_le
    omega
  | succ fuel ih =>
    have hfits := h.length_le
    have hc : σ.covers p.num n := h.covers_iff.mpr (by omega)
    have hb := h.own n hc
    unfold read_loop
    rw [if_neg (by omega), eval_bind, get_nth_b_covered hk (by omega) hc fun h12 => h.indirect (hc.lt h12), Option.bind_some, if_neg hb.1,
      eval_bind, eval_get_b hb.2.range, Option.bind_some]
    dsimp only
    have hnum : (if (left : Int) < 512 - (off : Int) then (left : Int) else 512 - (off : Int)) = (min left (512 - off) : Nat) := by
      split <;> omega
    rw [hnum, if_neg (by simp only [BLOCKSIZE]; omega), Int.toNat_natCast]
    by_cases hmap : buf.mapped copied.length (min left (512 - off)) = true
    · have hne : n ≠ m := by
        rintro rfl
        refine hstop ?_
        unfold chunkMapped
        have h1 : (max (start : Int) (512 * (n : Int)) - start).toNat = copied.length := by omega
        have h2 : (min ((start : Int) + total) (512 * (n + 1)) - max (start : Int) (512 * n)).toNat = min left (512 - off) := by omega
        rw [h1, h2]
        exact hmap
      rw [if_neg (by simp [hmap]), eval_bind, eval_readBlock hb.2.table, Option.bind_some]
      dsimp only
      rw [Int.toNat_natCast, show (left : Int) - (min left (512 - off) : Nat) = (left - min left (512 - off) : Nat) by omega]
      generalize hc : (σ.logical.block (σ.pointer p.num n)).load off (min left (512 - off)) = c
      have hlen : (copied ++ c).length = copied.length + min left (512 - off) := by rw [← hc, List.length_append, Mem.length_load]
      have hnext : start + (copied ++ c).length = 512 * (n + 1) + 0 := by omega
      have hstart : 0 = max start (512 * (n + 1)) - 512 * (n + 1) := by omega
      exact ih (n := n + 1) (by omega) (by decide) hnext hstart (by omega) (by omega) (by omega) (by omega)
    · rw [if_pos (by simpa using hmap)]
      exact ⟨copied, rfl⟩

/-- Such a read returns `ERROR`. -/
theorem handle_read_stopped (h : σ.Laid g i) (hstop : σ.ReadStopped i buf size offset) :
    ∃ copied, eval g (handle_read i buf size offset) σ.logical = some (⟨ERROR, copied⟩, σ.logical) := by
  by_cases hpast : offset > σ.size i
  · exact ⟨[], handle_read_past h.inode hpast⟩
  have hpast' : ¬ offset > (σ.inode i).size := hpast
  have hstop := hstop.resolve_left hpast
  unfold handle_read
  rw [if_neg is_valid_inputs_ne, eval_bind, eval_get_i h.inode, Option.bind_some, eval_bind, eval_readInode, Option.bind_some,
    FS.logical_inode, if_neg hpast']
  dsimp only
  generalize hleft : get_num_bytes_left offset size (σ.inode i) = left at hstop ⊢
  rcases hstop with rfl | ⟨hpos, ⟨h0, m, hmin, hmax, hchunk⟩ | ⟨hlow, hneg, hempty⟩⟩
  · refine ⟨[], ?_⟩
    unfold loopFuel read_loop
    rw [if_pos (by decide)]
    rfl
  · have hsize : 0 ≤ σ.size i := by omega
    have hholds := h.holds hsize
    have hlen := View.length_content hsize
    have hfits := hholds.length_le
    have hle : left ≤ σ.size i - offset := by
      have hsz : (σ.inode i).size = σ.size i := rfl
      rw [← hleft, get_num_bytes_left, hsz, Mem.wrap_int _ (by omega) (by omega)]
      split <;> omega
    have hdiv : Int.tdiv offset BLOCKSIZE = (offset.toNat / 512 : Nat) := by
      rw [BLOCKSIZE, Int.tdiv_eq_ediv_of_nonneg h0]
      omega
    have hmod : Int.tmod offset BLOCKSIZE = (offset.toNat % 512 : Nat) := by
      rw [BLOCKSIZE, Int.tmod_eq_emod_of_nonneg h0]
      omega
    have hchunk' : ¬ chunkMapped buf left.toNat offset.toNat m := by rwa [Int.toNat_of_nonneg hpos.le, Int.toNat_of_nonneg h0]
    have hfrom : offset.toNat + ([] : List UInt8).length = 512 * (offset.toNat / 512) + offset.toNat % 512 := by rw [List.length_nil]; omega
    obtain ⟨copied, he⟩ := read_loop_stops (p := ⟨i, 0⟩) hholds rfl (by omega) hfrom (by omega) (List.length_nil ▸ Nat.zero_add left.toNat)
      (by omega) (by omega) (by omega) (by omega) (show 140 < _ + loopFuel by rw [loopFuel]; omega) hchunk'
    rw [Int.toNat_of_nonneg hpos.le] at he
    rw [hdiv, hmod]
    exact ⟨copied, he⟩
  · have hdiv : Int.tdiv offset BLOCKSIZE = (0 : Nat) := by
      rw [← Int.neg_neg offset, Int.neg_tdiv, BLOCKSIZE, Int.tdiv_eq_ediv_of_nonneg (by omega)]
      omega
    have hlook := get_nth_b_look (p := ⟨i, 0⟩) (k := (0 : Nat)) (n := 0) h rfl
    have hnone : σ.nthBlock i 0 = 0 := View.nthBlock_of_not_covers (by rw [View.covers, hempty, BLOCKSIZE]; omega)
    refine ⟨[], ?_⟩
    rw [hdiv]
    unfold loopFuel read_loop
    rw [if_neg (by omega), eval_bind, hlook, Option.bind_some, if_pos hnone]
    rfl

/-- A write that fails before its first change although nothing checks it. -/
def FS.WriteStopped (g : Geometry) (σ : FS) (i : Int) (buf : UserBuf) (size offset : Int) : Prop :=
  size = ERROR ∨ 0 < size ∧ -512 < offset ∧ (¬ σ.covers i (offset.toNat / 512) → 12 ≤ offset.toNat / 512 → g.IsData (σ.indirect i)) ∧
    σ.StopsFirst i buf size offset (offset.toNat / 512) ∧ (offset < 0 → ¬ σ.covers i 0)

theorem handle_write_stopped (h : σ.Laid g i) (hstop : σ.WriteStopped g i buf size offset) :
    ∃ τ : FS, eval g (handle_write i buf size offset) σ.logical = some (ERROR, τ.logical) ∧ σ.Unchanged g τ := by
  have hvalid : is_valid_i (σ.inode i) ≠ ERROR := by
    unfold is_valid_i
    split <;> decide
  unfold handle_write
  rw [eval_bind, eval_get_i h.inode, Option.bind_some, eval_bind, eval_readInode, Option.bind_some, FS.logical_inode, if_neg hvalid, eval_bind]
  rcases hstop with rfl | ⟨hpos, hlow, hind, hstop, hneg⟩
  · refine ⟨σ, ?_, .refl g σ⟩
    unfold loopFuel write_loop
    rw [if_pos (by decide)]
    rfl
  have hdiv : Int.tdiv offset BLOCKSIZE = (offset.toNat / 512 : Nat) := by
    by_cases h0 : 0 ≤ offset
    · rw [BLOCKSIZE, Int.tdiv_eq_ediv_of_nonneg h0]
      omega
    · rw [← Int.neg_neg offset, Int.neg_tdiv, BLOCKSIZE, Int.tdiv_eq_ediv_of_nonneg (by omega)]
      omega
  rw [hdiv]
  generalize hn : offset.toNat / 512 = n at *
  suffices hloop : ∃ τ : FS, eval g (write_loop ⟨i, 0⟩ buf size offset loopFuel n size (Int.tmod offset BLOCKSIZE)) σ.logical =
      some (false, τ.logical) ∧ σ.Unchanged g τ by
    obtain ⟨τ, he, hτ⟩ := hloop
    refine ⟨τ, ?_, hτ⟩
    rw [he, Option.bind_some, if_pos rfl]
    rfl
  unfold loopFuel write_loop
  rw [if_neg (by omega), eval_bind]
  rcases hstop with h140 | ⟨hc, hchunk⟩ | ⟨hc, hfree, hzero⟩
  · refine ⟨σ, ?_, .refl g σ⟩
    unfold get_nth_b
    rw [if_pos (by simp only [MAX_BLOCKS]; omega)]
    rfl
  · have h0 : 0 ≤ offset := by
      by_contra hlt
      exact hneg (by omega) (hc.lt (Nat.zero_le n))
    have hb := h.own n hc
    have hmod : Int.tmod offset BLOCKSIZE = offset % 512 := Int.tmod_eq_emod_of_nonneg h0
    have hcopy : CopyFrom buf (size - size).toNat (get_num_copy_bytes size (offset % 512)).toNat = none := by
      refine if_neg fun hmap => hchunk ?_
      unfold chunkMapped
      rw [get_num_copy_bytes_eq] at hmap
      have h1 : (max offset (512 * (n : Int)) - offset).toNat = (size - size).toNat := by omega
      have h2 : (min (offset + size) (512 * (n + 1)) - max offset (512 * n)).toNat = (min size (512 - offset % 512)).toNat := by omega
      rw [h1, h2]
      exact hmap
    refine ⟨σ, ?_, .refl g σ⟩
    rw [get_nth_b_covered (p := ⟨i, 0⟩) rfl (h.index n hc) hc fun h12 => h.indirect (hc.lt h12), Option.bind_some, if_neg hb.1, eval_bind,
      eval_get_b hb.2.range, Option.bind_some, hmod]
    dsimp only
    rw [if_neg (by omega), hcopy]
    rfl
  · by_cases h140 : n < 140
    · have hreach := get_nth_b_reach (g := g) (σ := σ) (p := ⟨i, 0⟩) (k := n) rfl h140 (hind hc)
      rw [FS.reach, if_neg hc, FS.pointer_alloc_self h140, FS.next, hfree] at hreach
      refine ⟨σ.alloc i n, ?_, alloc_unchanged hfree hzero⟩
      rw [List.headD_nil, Mem.wrap_int 0 (by decide) (by decide)] at hreach
      rw [hreach, Option.bind_some, if_pos rfl]
      rfl
    · refine ⟨σ, ?_, .refl g σ⟩
      unfold get_nth_b
      rw [if_pos (by simp only [MAX_BLOCKS]; omega)]
      rfl

/-! ## The claim -/

/-- A message to read or write that no client may send. -/
def Request.Malformed (σ : FS) : Request → Prop
  | .read i buf size offset => i ≤ 0 ∨ buf.null = true ∨ size < 0 ∨ offset < 0
  | .write i buf size offset => i ≤ 0 ∨ buf.null = true ∨ size < 0 ∨ offset < 0 ∨ σ.type i ≠ INODE_REGULAR
  | _ => False

/-- A message to read or write that fails before its first change, whatever the validators return. -/
def Request.Stopped (g : Geometry) (σ : FS) : Request → Prop
  | .read i buf size offset => g.isInode i ∧ σ.ReadStopped i buf size offset
  | .write i buf size offset => g.isInode i ∧ σ.WriteStopped g i buf size offset
  | _ => True

/-- The request returns `ERROR` and changes nothing. -/
def Refused (g : Geometry) (sv : Server) (req : Request) : Prop :=
  ∃ resp sv', serve sv req = some (resp, sv') ∧ resp.ret = ERROR ∧ sv.fs.Unchanged g sv'.fs

/-- No index of `get_nth_b` is negative, and no copy leaves its block. -/
def Request.InBounds : Request → Prop
  | .read i buf size offset => Passes (handle_read_checked i buf size offset) (handle_read i buf size offset)
  | .write i buf size offset => Passes (handle_write_checked i buf size offset) (handle_write i buf size offset)
  | _ => True

theorem Request.Stopped.refused (h : req.Stopped g sv.fs) (hbad : req.Malformed sv.fs) (hstart : OnDisk g sv) : Refused g sv req := by
  obtain ⟨resp, τ, hsync, hnear, hret, he, hτ⟩ : ∃ resp, ∃ τ : FS, req ≠ .sync ∧ req.Near g sv ∧ resp.ret = ERROR ∧
      eval g req.handler sv.fs.logical = some (resp, τ.logical) ∧ sv.fs.Unchanged g τ := by
    cases req with
    | read i buf size offset =>
      obtain ⟨copied, he⟩ := handle_read_stopped (hstart.wellFormed.laid hstart.inRange h.1) h.2
      exact ⟨{ ret := ERROR, copied := copied }, sv.fs, by simp, trivial, rfl, by rw [Request.handler, eval_bind, he]; rfl, .refl g sv.fs⟩
    | write i buf size offset =>
      obtain ⟨τ, he, hτ⟩ := handle_write_stopped (hstart.wellFormed.laid hstart.inRange h.1) h.2
      exact ⟨{ ret := ERROR }, τ, by simp, trivial, rfl, by rw [Request.handler, eval_bind, he]; rfl, hτ⟩
    | _ => exact hbad.elim
  obtain ⟨sv', σ', hserve, hrel', hlog⟩ := serve_eval hstart.caches.rel hsync hnear he
  have hsame : τ.Unchanged g σ' := by
    have hinode : σ'.inode = τ.inode := congrArg (fun l : Logical => l.inode) hlog
    have hblock : σ'.block = τ.block := congrArg (fun l : Logical => l.block) hlog
    exact ⟨congrArg (fun l : Logical => l.i_head) hlog, congrArg (fun l : Logical => l.b_head) hlog, fun i _ => congrFun hinode i,
      fun b _ => congrFun hblock b⟩
  exact ⟨resp, sv', hserve, hret, (hτ.trans hsame).trans hrel'.agrees.unchanged⟩

theorem Request.inBounds (h : ¬ req.Malformed σ) : req.InBounds := by
  cases req with
  | read i buf size offset => exact handle_read_passes (by simp only [Malformed, not_or] at h; omega)
  | write i buf size offset => exact handle_write_passes (by simp only [Malformed, not_or] at h; omega)
  | _ => trivial

/-- **Malformed reads and writes.** After any run of safe requests, a read or write that is malformed and stops by itself returns `ERROR`
and changes nothing, and one that is not malformed stays in bounds. -/
theorem malformed_io_refused (hshort : 8 * g.table ≤ 2 ^ 15) (hstart : OnDisk g sv₀) (hmeets : sv₀.meets (fun σ req => req.Safe g σ) reqs)
    (hrun : serves sv₀ reqs = some sv) (hstop : req.Malformed sv.fs → req.Stopped g sv.fs) :
    (req.Malformed sv.fs → Refused g sv req) ∧ (¬ req.Malformed sv.fs → req.InBounds) :=
  ⟨fun hbad => (hstop hbad).refused hbad (hstart.after hshort hmeets hrun), Request.inBounds⟩

/-- A read of -1 bytes. -/
theorem malformed_io_refused_read : ∃ sv, serves smallStart [.create (some [SLASH, 97]) 1] = some sv ∧
    Refused smallDisk.geometry sv (.read 1 (filledBuf 0) (-1) 0) := by
  obtain ⟨sv, hrun, hall⟩ := Option.map_eq_some_iff.mp (show (serves smallStart [.create (some [SLASH, 97]) 1]).map (fun sv =>
    decide (get_num_bytes_left 0 (-1) (sv.fs.inode 1) = ERROR)) = some true by decide +kernel)
  have hmeets : smallStart.meets (fun σ req => req.Safe smallDisk.geometry σ) [.create (some [SLASH, 97]) 1] :=
    ⟨smallStart_sound.2.safe_create (by decide), fun _ _ _ => trivial⟩
  have hbad : Request.Malformed sv.fs (.read 1 (filledBuf 0) (-1) 0) := .inr (.inr (.inl (by decide)))
  have hstop : Request.Stopped smallDisk.geometry sv.fs (.read 1 (filledBuf 0) (-1) 0) :=
    ⟨Geometry.isInode_root _, .inr (.inl (of_decide_eq_true hall))⟩
  exact ⟨sv, hrun, (malformed_io_refused (by decide) smallStart_onDisk hmeets hrun fun _ => hstop).1 hbad⟩

/-- A write to the root succeeds, and so does a read of -2 bytes. -/
theorem write_to_directory : OnDisk smallDisk.geometry smallStart ∧ smallStart.fs.type 1 = INODE_DIRECTORY ∧
    (serve smallStart (.write 1 (filledBuf 1) 10 0)).map (fun r => r.1.ret) = some 10 ∧
    (serve smallStart (.read 1 (filledBuf 1) (-2) 0)).map (fun r => r.1.ret) = some (-2) ∧
    ¬ Refused smallDisk.geometry smallStart (.write 1 (filledBuf 1) 10 0) := by
  have hwrite : (serve smallStart (.write 1 (filledBuf 1) 10 0)).map (fun r => r.1.ret) = some 10 := by decide +kernel
  refine ⟨smallStart_onDisk, by decide +kernel, hwrite, by decide +kernel, ?_⟩
  rintro ⟨resp, sv', hs, hret, _⟩
  rw [hs] at hwrite
  exact absurd (hret.symm.trans (Option.some.inj hwrite)) (by decide)

end Yfs
