import Yfs.Files.Ends
import Yfs.Ownership

/-! # Requests that fail -/

namespace Yfs

variable {g : Geometry} {σ σ' : FS} {i : Int} {n : Nat} {buf : UserBuf} {size byte_offset left off : Int} {r : Bool}

/-- The same inodes, blocks and free lists. -/
structure FS.Unchanged (g : Geometry) (σ τ : FS) : Prop where
  i_head : τ.i_head = σ.i_head
  b_head : τ.b_head = σ.b_head
  inode : ∀ i, g.isInode i → τ.inode i = σ.inode i
  block : ∀ b, ¬ g.isTable b → τ.block b = σ.block b

namespace FS.Unchanged

theorem refl (g : Geometry) (σ : FS) : σ.Unchanged g σ := ⟨rfl, rfl, fun _ _ => rfl, fun _ _ => rfl⟩

theorem trans {τ : FS} (h : σ.Unchanged g σ') (h' : σ'.Unchanged g τ) : σ.Unchanged g τ :=
  ⟨h'.i_head.trans h.i_head, h'.b_head.trans h.b_head, fun i hi => (h'.inode i hi).trans (h.inode i hi),
    fun b hb => (h'.block b hb).trans (h.block b hb)⟩

theorem symm (h : σ.Unchanged g σ') : σ'.Unchanged g σ :=
  ⟨h.i_head.symm, h.b_head.symm, fun i hi => (h.inode i hi).symm, fun b hb => (h.block b hb).symm⟩

theorem markInode {j : Int} (h : σ.Unchanged g σ') : σ.Unchanged g (σ'.markInode j) := h.trans ⟨rfl, rfl, fun _ _ => rfl, fun _ _ => rfl⟩

end FS.Unchanged

theorem FS.Agrees.unchanged {τ : FS} (h : σ.Agrees g τ) : σ.Unchanged g τ :=
  ⟨congrArg Globals.i_head h.globals, congrArg Globals.b_head h.globals, h.inode, h.block⟩

/-! ## Writes -/

/-- Every chunk can be copied, and every block is there or free. -/
def FS.Completes (σ : FS) (i : Int) (buf : UserBuf) (size byte_offset : Int) : Prop :=
  (∀ m : Nat, byte_offset / 512 ≤ m → 512 * (m : Int) < byte_offset + size → m < 140 ∧ chunkMapped buf size byte_offset m) ∧
    newBlocks σ i size byte_offset ≤ σ.b_head.length

/-- The first chunk does not get as far as a change: it is past the last index, it cannot be copied into a block that the file
has, or there is no block for it and no stale pointer in its place. -/
def FS.StopsFirst (σ : FS) (i : Int) (buf : UserBuf) (size byte_offset : Int) (n : Nat) : Prop :=
  140 ≤ n ∨ (σ.covers i n ∧ ¬ chunkMapped buf size byte_offset n) ∨
    (¬ σ.covers i n ∧ σ.b_head = [] ∧ σ.pointer i n = 0)

/-- Without a free block, and without a stale pointer, reaching changes nothing. -/
theorem alloc_unchanged (hfree : σ.b_head = []) (h0 : σ.pointer i n = 0) : σ.Unchanged g (σ.alloc i n) := by
  have hnext : σ.next = 0 := by rw [FS.next, hfree]; rfl
  have hpop : σ.b_head.tail = σ.b_head := by rw [hfree]; rfl
  unfold View.pointer at h0
  unfold FS.alloc
  split
  case isTrue h12 =>
    rw [dif_pos h12] at h0
    have hsame : (σ.inode i).set (.direct ⟨n, h12⟩) σ.next = σ.inode i := by
      rw [hnext]
      conv_lhs => rw [← h0]
      exact Inode.set_get _ _
    rw [hsame]
    refine ⟨rfl, hpop, fun j _ => ?_, fun _ _ => rfl⟩
    exact congrFun (Function.update_eq_self i σ.inode) j
  case isFalse h12 =>
    rw [dif_neg h12] at h0
    have hsame : (σ.block (σ.indirect i)).setPointer (n - 12) σ.next = σ.block (σ.indirect i) := by
      rw [hnext]
      conv_lhs => rw [← h0]
      exact Mem.storeInt_loadInt _ _ _
    rw [hsame]
    refine ⟨rfl, hpop, fun _ _ => rfl, fun b _ => ?_⟩
    exact congrFun (Function.update_eq_self (σ.indirect i) σ.block) b

theorem Writing.stopsFirst (h : Writing i buf size byte_offset n left off σ r σ')
    (hs : Writable g σ i buf size byte_offset n left off) (hpos : 0 < left) (hstop : σ.StopsFirst i buf size byte_offset n) :
    σ.Unchanged g σ' := by
  cases h with
  | done h => omega
  | limit => exact .refl g σ
  | stuck _ hn =>
    unfold FS.reach
    split
    case isTrue => exact .refl g σ
    case isFalse hc =>
      obtain h | ⟨hcov, _⟩ | ⟨_, hfree, h0⟩ := hstop
      · omega
      · exact absurd hcov hc
      · exact alloc_unchanged hfree h0
  | chunk _ hn hb hbytes =>
    exfalso
    obtain h | ⟨hcov, hnot⟩ | ⟨hc, hfree, h0⟩ := hstop
    · omega
    · refine hnot ((hs.chunkMapped hpos).mpr ?_)
      by_contra hm
      rw [CopyFrom, if_neg hm] at hbytes
      cases hbytes
    · refine hb ?_
      rw [FS.reach, if_neg hc, FS.pointer_alloc_self hn, hs.wellFormed.wrap_next, FS.next, hfree]
      rfl

/-- The condition on a request and the state before it: a write completes, or stops before its first change. -/
def Request.Whole (σ : FS) : Request → Prop
  | .write i buf size offset =>
    0 < size → σ.Completes i buf size offset ∨ σ.StopsFirst i buf size offset (offset / 512).toNat
  | _ => True

theorem Written.unchanged (h : Written σ i buf size byte_offset ERROR σ') (hw : WellFormed g σ)
    (hok : σ.WriteOk g i buf size byte_offset)
    (hwhole : 0 < size → σ.Completes i buf size byte_offset ∨ σ.StopsFirst i buf size byte_offset (byte_offset / 512).toNat) :
    σ.Unchanged g σ' := by
  have hs := hok.writable hw
  have h0 := hok.offset
  -- `ERROR` is also what a write of that size returns.
  generalize hret : ERROR = ret at h
  cases h with
  | ended h =>
    cases h with
    | done => exact (FS.Unchanged.refl g σ).markInode
    | chunk hpos =>
      rw [ERROR] at hret
      omega
  | failed h =>
    by_cases hpos : 0 < size
    · rcases hwhole hpos with hall | hstop
      · have := h.succeeds hs (fun m hm hlt => hall.1 m (by omega) hlt) hall.2
        cases this
      · exact h.stopsFirst hs hpos hstop
    · cases h <;> omega

/-! ## Every request -/

theorem Effect.unchanged {req : Request} (h : Effect σ req ERROR σ') (hw : WellFormed g σ) (hsafe : req.Safe g σ)
    (hwhole : req.Whole σ) : σ.Unchanged g σ' := by
  have hpos : ∀ {j : Int}, g.isInode j → ERROR ≠ j := by
    rintro j ⟨h0, _⟩ rfl
    exact absurd h0 (by decide)
  generalize hret : ERROR = ret at h
  cases h with
  | looked => exact .refl g σ
  | refused => exact .refl g σ
  | create h =>
    cases h with
    | error => exact .refl g σ
    | done _ hsup hne hdir h =>
      have hd := (hw.superDir_isInode g.isInode_root hsafe.1 hsup).resolve_left hne
      cases h with
      | taken => exact .refl g σ
      | truncated hk => exact absurd hret (hpos (hw.entries _ _ hd hdir (findSlot_lt hk)))
      | made hp => exact absurd hret (hpos (hp.wellFormed hw hd hdir (hsafe.2 _ _ hsup hdir)).nextInode)
      | linked _ _ hn => exact absurd rfl hn
  | write h => exact (hret ▸ h).unchanged hw hsafe hwhole
  | link h =>
    cases h with
    | error => exact .refl g σ
    | done => exact absurd hret (by decide)
  | unlink h =>
    cases h with
    | error => exact .refl g σ
    | done => exact absurd hret (by decide)
  | mkdir h =>
    cases h with
    | error => exact .refl g σ
    | done => exact absurd hret (by decide)
  | rmdir h =>
    cases h with
    | error => exact .refl g σ
    | done => exact absurd hret (by decide)

/-- **Failed requests are atomic.** After any run of safe requests, a safe request that fails has changed nothing, but a write
that stops after its first change. -/
theorem failed_request_unchanged {sv₀ sv sv' : Server} {reqs : List Request} {req : Request} {resp : Response}
    (hshort : 8 * g.table ≤ 2 ^ 15) (hstart : Sound g sv₀) (hmeets : sv₀.meets (fun σ req => req.Safe g σ) reqs)
    (hrun : serves sv₀ reqs = some sv) (hsafe : req.Safe g sv.fs) (hwhole : req.Whole sv.fs)
    (hs : serve sv req = some (resp, sv')) (hfail : resp.ret = ERROR) : sv.fs.Unchanged g sv'.fs := by
  have hsound : Sound g sv := serves_induction hstart hmeets hrun fun _ _ _ _ h hp hs => (h.step hshort hp hs).1
  obtain ⟨_, σ', heff, _, hagree⟩ := hsound.step hshort hsafe hs
  rw [hfail] at heff
  exact (heff.unchanged hsound.wellFormed hsafe hwhole).trans hagree.unchanged

theorem failed_unlink_unchanged : ∃ sv sv' resp, serves smallStart [.create (some [SLASH, 97]) 1] = some sv ∧
    serve sv (.unlink (some [SLASH, 98]) 1) = some (resp, sv') ∧ resp.ret = ERROR ∧
      sv.fs.Unchanged smallDisk.geometry sv'.fs := by
  obtain ⟨sv, hrun, h⟩ := Option.bind_eq_some_iff.mp (show ((serves smallStart [.create (some [SLASH, 97]) 1]).bind fun sv =>
    (serve sv (.unlink (some [SLASH, 98]) 1)).map fun r => r.1.ret) = some ERROR by decide +kernel)
  obtain ⟨⟨resp, sv'⟩, hs, hfail⟩ := Option.map_eq_some_iff.mp h
  have hmeets : smallStart.meets (fun σ req => req.Safe smallDisk.geometry σ) [.create (some [SLASH, 97]) 1] :=
    ⟨smallStart_sound.2.safe_create (by decide), fun _ _ _ => trivial⟩
  have hsafe : Request.Safe smallDisk.geometry sv.fs (.unlink (some [SLASH, 98]) 1) := Geometry.isInode_root _
  exact ⟨sv, sv', resp, hrun, hs, hfail, failed_request_unchanged (by decide) smallStart_sound.1 hmeets hrun hsafe trivial hs
    hfail⟩

/-- A buffer of which only the first chunk is mapped. -/
def shortBuf : UserBuf := { null := false, bytes := fun _ => 1, mapped := fun pos _ => decide (pos = 0) }

/-- A write that fails at its second chunk has left the first. -/
theorem failed_write_changes : ∃ sv sv' resp, serves smallStart [.create (some [SLASH, 97]) 1] = some sv ∧
    serve sv (.write 15 shortBuf 1000 0) = some (resp, sv') ∧ resp.ret = ERROR ∧
      ¬ sv.fs.Unchanged smallDisk.geometry sv'.fs := by
  obtain ⟨sv, hrun, h⟩ := Option.bind_eq_some_iff.mp (show ((serves smallStart [.create (some [SLASH, 97]) 1]).bind fun sv =>
    (serve sv (.write 15 shortBuf 1000 0)).map fun r => (r.1.ret, decide (r.2.fs.size 15 = sv.fs.size 15))) =
      some (ERROR, false) by decide +kernel)
  obtain ⟨⟨resp, sv'⟩, hs, h⟩ := Option.map_eq_some_iff.mp h
  obtain ⟨hfail, hsize⟩ := Prod.mk.inj h
  refine ⟨sv, sv', resp, hrun, hs, hfail, fun hsame => of_decide_eq_false hsize ?_⟩
  rw [View.size, View.size, hsame.inode 15 (by decide)]

end Yfs
