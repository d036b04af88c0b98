import Yfs.Descriptors
import Yfs.Logical.Splice
import Yfs.Looking

/-! # Writing in parts and reading in parts -/

namespace Yfs

variable {ι : Type} [DecidableEq ι] {g : Geometry} {w : World ι} {id : ι} {fd i : Int} {c : Client} {file : OpenedFile}
  {buf : UserBuf} {s : List UInt8} {total n pos : Nat} {σ τ : FS} {sv : Server}

/-! ## The file between requests -/

theorem FS.Grows.congr (h : σ.Grows g i s total) (hlog : τ.logical = σ.logical) : τ.Grows g i s total := by
  obtain ⟨tg, tv, _, _⟩ := τ
  obtain ⟨sg, sv, _, _⟩ := σ
  obtain ⟨rfl, rfl⟩ : tg = sg ∧ tv = sv := ⟨congrArg Logical.toGlobals hlog, congrArg Logical.toView hlog⟩
  exact ⟨h.inode, h.file, h.size, h.bytes, h.nodup, h.free, h.own, h.apart, h.indirect, h.room, h.fits⟩

theorem FS.Grows.unchanged (h : σ.Grows g i s total) (hu : σ.Unchanged g τ) : τ.Grows g i s total := by
  have hinode := hu.inode i h.inode
  have hsize : τ.size i = σ.size i := congrArg Inode.size hinode
  have hcov : ∀ m, τ.covers i m ↔ σ.covers i m := fun m => View.covers_congr hsize
  have hptr : ∀ m, σ.covers i m → τ.pointer i m = σ.pointer i m := by
    intro m hm
    have hfits := h.fits
    rw [h.covers_iff] at hm
    exact View.pointer_congr hinode fun h12 => hu.block _ (h.indirect (by omega)).1.table
  have hind : τ.indirect i = σ.indirect i := congrArg Inode.indirect hinode
  refine ⟨h.inode, (congrArg Inode.type hinode).trans h.file, hsize.trans h.size, fun m hm => ?_, ?_, ?_, fun m hm => ?_,
    fun m k hm hk he => ?_, fun ht => ?_, ?_, h.fits⟩
  · have hc : σ.covers i (m / 512) := h.covers_iff.mpr (by omega)
    rw [View.byte, hptr _ hc, hu.block _ (h.own _ hc).2.1.table]
    exact h.bytes m hm
  · rw [hu.b_head]
    exact h.nodup
  · rw [hu.b_head]
    exact h.free
  · rw [hcov] at hm
    rw [hptr m hm, hu.b_head]
    exact h.own m hm
  · rw [hcov] at hm hk
    rw [hptr m hm, hptr k hk] at he
    exact h.apart m k hm hk he
  · obtain ⟨hdata, hfree, hne⟩ := h.indirect ht
    rw [hind, hu.b_head]
    refine ⟨hdata, hfree, fun m hm => ?_⟩
    rw [hcov] at hm
    rw [hptr m hm]
    exact hne m hm
  · rw [hu.b_head, View.blocks, hsize]
    exact h.room

/-! ## One call -/

/-- The server answers what the logical program returns. -/
theorem serve_eval {req : Request} {resp : Response} (hrel : Rel g sv σ) (hsync : req ≠ .sync) (hnear : req.Near g sv)
    (he : eval g req.handler σ.logical = some (resp, τ.logical)) :
    ∃ sv' τ', serve sv req = some (resp, sv') ∧ Rel g sv' τ' ∧ τ'.logical = τ.logical := by
  obtain ⟨_, sv', τ', hrun, rfl, hrel', hlog⟩ :=
    (Request.handler_alike req).run_eq hrel he (handler_steady hrel.cachesOk.tidy hnear).not_stale
  exact ⟨sv', τ', (serve_handler hsync).trans hrun, hrel', hlog⟩

omit [DecidableEq ι] in
theorem transfer_sends (hfile : c.file fd = some file) (hnull : buf.null = false) :
    (Call.write fd buf n).talk c = .sends (.write file.i_num buf n file.pos) (fun bytes =>
      if bytes = ERROR then (ERROR, c) else (bytes, c.setPos fd file (Mem.wrap 4 (file.pos + bytes)))) ∧
    (Call.read fd buf n).talk c = .sends (.read file.i_num buf n file.pos) fun bytes =>
      if bytes = ERROR then (ERROR, c) else (bytes, c.setPos fd file (Mem.wrap 4 (file.pos + bytes))) := by
  constructor
  · simp only [Call.talk, Iolib.Write, hfile]
    exact if_neg (by simp [hnull])
  · simp only [Call.talk, Iolib.Read, hfile]
    exact if_neg (by simp [hnull])

/-- The descriptor of process `id` moves by what the server answers. -/
theorem step_transfer {call : Call} {req : Request} {resp : Response} {sv' : Server} {m : Nat} (hfile : (w.clients id).file fd = some ⟨i, pos⟩)
    (htalk : call.talk (w.clients id) = .sends req fun bytes => if bytes = ERROR then (ERROR, w.clients id) else
      (bytes, (w.clients id).setPos fd ⟨i, pos⟩ (Mem.wrap 4 (pos + bytes))))
    (hserve : serve w.server req = some (resp, sv')) (hret : resp.ret = m) (hpos : pos + m < 2 ^ 31) :
    ∃ w', w.step id call = some (resp, w') ∧ w'.server = sv' ∧ (w'.clients id).file fd = some ⟨i, (pos + m : Nat)⟩ := by
  have hne : resp.ret ≠ ERROR := by rw [hret, ERROR]; omega
  refine ⟨{ server := sv', clients := Function.update w.clients id ((w.clients id).setPos fd ⟨i, pos⟩ (Mem.wrap 4 (pos + resp.ret))) }, ?_,
    rfl, ?_⟩
  · unfold World.step
    rw [htalk]
    dsimp only
    rw [hserve, Option.map_some]
    simp only [if_neg hne]
  · dsimp only
    rw [Function.update_self, setPos_file hfile, if_pos rfl, hret, Mem.wrap_int _ (by omega) (by omega)]
    rfl

/-- A `Write` at the end of the file appends its buffer. -/
theorem write_appends (hrel : Rel g w.server σ) (h : σ.Grows g i s total) (hfile : (w.clients id).file fd = some ⟨i, s.length⟩)
    (hbuf : buf.Reachable n) (htotal : s.length + n ≤ total) :
    ∃ resp w' σ', w.step id (.write fd buf n) = some (resp, w') ∧ resp.ret = n ∧ Rel g w'.server σ' ∧
      σ'.Grows g i (s ++ buf.slice 0 n) total ∧ (w'.clients id).file fd = some ⟨i, (s ++ buf.slice 0 n).length⟩ := by
  have hfits := h.fits
  obtain ⟨τ, he, hτ⟩ := handle_write_appends h hbuf htotal
  have hhandler : eval g (Request.write i buf n s.length).handler σ.logical = some ({ ret := (n : Int) }, τ.logical) := by
    rw [Request.handler, eval_bind, he]
    rfl
  obtain ⟨sv', τ', hserve, hrel', hlog⟩ := serve_eval hrel (by simp) (show Request.Near g w.server (.write i buf n s.length) from trivial) hhandler
  obtain ⟨w', hstep, rfl, hfile'⟩ := step_transfer hfile (transfer_sends hfile hbuf.null).1 hserve rfl (by omega)
  exact ⟨_, w', τ', hstep, rfl, hrel', hτ.congr hlog, by rw [hfile', List.length_append, UserBuf.length_slice]⟩

/-- A `Read` inside the file delivers what comes next. -/
theorem read_delivers (hrel : Rel g w.server σ) (h : σ.Grows g i s total) (hfile : (w.clients id).file fd = some ⟨i, pos⟩)
    (hpos : pos ≤ s.length) (hbuf : buf.Reachable n) :
    ∃ resp w' σ', w.step id (.read fd buf n) = some (resp, w') ∧ resp.ret = (min n (s.length - pos) : Nat) ∧
      resp.copied = (s.drop pos).take (min n (s.length - pos)) ∧ Rel g w'.server σ' ∧ σ'.Grows g i s total ∧
      (w'.clients id).file fd = some ⟨i, (pos + min n (s.length - pos) : Nat)⟩ := by
  have hfits := h.fits
  have hhandler : eval g (Request.read i buf n pos).handler σ.logical =
      some ({ ret := (min n (s.length - pos) : Nat), copied := (s.drop pos).take (min n (s.length - pos)) }, σ.logical) := by
    rw [Request.handler, eval_bind, handle_read_copies h.holds (fun p l hl => hbuf.mapped p l (by omega)) hpos]
    rfl
  obtain ⟨sv', τ', hserve, hrel', hlog⟩ := serve_eval hrel (by simp) (show Request.Near g w.server (.read i buf n pos) from trivial) hhandler
  obtain ⟨w', hstep, rfl, hfile'⟩ := step_transfer hfile (transfer_sends hfile hbuf.null).2 hserve rfl (by omega)
  exact ⟨_, w', τ', hstep, rfl, rfl, hrel', h.congr hlog, hfile'⟩

/-! ## Calls in a row -/

/-- Calls of process `id` with no other request in between. -/
def World.calls (w : World ι) (id : ι) : List Call → Option (List Response × World ι)
  | [] => some ([], w)
  | call :: l => do
    let (resp, w) ← w.step id call
    let (resps, w) ← w.calls id l
    some (resp :: resps, w)

theorem World.calls_cons {call : Call} {calls : List Call} {resp : Response} {resps : List Response} {w₁ w₂ : World ι}
    (hstep : w.step id call = some (resp, w₁)) (hcalls : w₁.calls id calls = some (resps, w₂)) :
    w.calls id (call :: calls) = some (resp :: resps, w₂) := by simp [World.calls, hstep, hcalls]

/-- What a list of `Write`s sends. -/
def sent (chunks : List (UserBuf × Nat)) : List UInt8 := chunks.flatMap fun c => c.1.slice 0 c.2

theorem writes_append {chunks : List (UserBuf × Nat)} (hrel : Rel g w.server σ) (h : σ.Grows g i s total)
    (hfile : (w.clients id).file fd = some ⟨i, s.length⟩) (hchunks : ∀ c ∈ chunks, c.1.Reachable c.2)
    (htotal : s.length + (sent chunks).length ≤ total) :
    ∃ resps w' σ', w.calls id (chunks.map fun c => .write fd c.1 c.2) = some (resps, w') ∧
      resps.map Response.ret = chunks.map (fun c => (c.2 : Int)) ∧ Rel g w'.server σ' ∧ σ'.Grows g i (s ++ sent chunks) total := by
  induction chunks generalizing w σ s with
  | nil => exact ⟨[], w, σ, rfl, rfl, hrel, by simpa [sent] using h⟩
  | cons c chunks ih =>
    obtain ⟨buf, n⟩ := c
    have hsent : sent ((buf, n) :: chunks) = buf.slice 0 n ++ sent chunks := rfl
    rw [hsent, List.length_append, UserBuf.length_slice] at htotal
    obtain ⟨resp, w₁, σ₁, hstep, hret, hrel₁, h₁, hfile₁⟩ := write_appends hrel h hfile (hchunks _ List.mem_cons_self) (by omega)
    obtain ⟨resps, w₂, σ₂, hcalls, hrets, hrel₂, h₂⟩ := ih hrel₁ h₁ hfile₁ (fun c hc => hchunks c (List.mem_cons_of_mem _ hc))
      (by rw [List.length_append, UserBuf.length_slice]; omega)
    refine ⟨resp :: resps, w₂, σ₂, World.calls_cons hstep hcalls, ?_, hrel₂, by rwa [hsent, ← List.append_assoc]⟩
    rw [List.map_cons, List.map_cons, hret, hrets]

/-- Where the read after the first `k` starts. -/
def position (resps : List Response) (k : Nat) : Int := ((resps.take k).map Response.ret).sum

/-- The answers to reads of `sizes` bytes deliver `s`. -/
structure Delivers (s : List UInt8) (sizes : List Nat) (resps : List Response) : Prop where
  /-- Each read returns what it asks for, or what is left. -/
  ret : ∀ (k n : Nat) (r : Response), sizes[k]? = some n → resps[k]? = some r → r.ret = min (n : Int) (s.length - position resps k)
  /-- A read returns 0 at the end and nowhere else. -/
  ended : ∀ (k : Nat) (r : Response), resps[k]? = some r → (r.ret = 0 ↔ position resps k = s.length)
  /-- After that everything has been delivered. -/
  whole : ∀ r ∈ resps, r.ret = 0 → (resps.map Response.copied).flatten = s
  part : (resps.map Response.copied).flatten = s.take sizes.sum

theorem Delivers.nil : Delivers s [] [] := ⟨by simp, by simp, by simp, by simp⟩

theorem position_cons (r : Response) (resps : List Response) (k : Nat) : position (r :: resps) (k + 1) = r.ret + position resps k := by
  simp [position]

theorem Delivers.cons {sizes : List Nat} {resps : List Response} {r : Response} (hn : 0 < n) (hret : r.ret = (min n s.length : Nat))
    (hcopied : r.copied = s.take n) (h : Delivers (s.drop n) sizes resps) : Delivers s (n :: sizes) (r :: resps) := by
  have hlen : (s.drop n).length = s.length - n := List.length_drop
  refine ⟨fun k m r' hm hr => ?_, fun k r' hr => ?_, fun r' hr h0 => ?_, ?_⟩
  · cases k with
    | zero =>
      obtain rfl := Option.some.inj hm
      obtain rfl := Option.some.inj hr
      simp only [position, List.take_zero, List.map_nil, List.sum_nil]
      omega
    | succ k =>
      have := h.ret k m r' hm hr
      rw [position_cons]
      omega
  · cases k with
    | zero =>
      obtain rfl := Option.some.inj hr
      simp only [position, List.take_zero, List.map_nil, List.sum_nil]
      omega
    | succ k =>
      have := h.ended k r' hr
      rw [position_cons]
      omega
  · rw [List.map_cons, List.flatten_cons, hcopied]
    rcases List.mem_cons.mp hr with rfl | hr
    · obtain rfl : s = [] := List.eq_nil_of_length_eq_zero (by omega)
      rw [h.part]
      simp
    · rw [h.whole r' hr h0, List.take_append_drop]
  · rw [List.map_cons, List.flatten_cons, hcopied, h.part, List.sum_cons, List.take_add]

theorem reads_deliver {reads : List (UserBuf × Nat)} (hrel : Rel g w.server σ) (h : σ.Grows g i s total)
    (hfile : (w.clients id).file fd = some ⟨i, pos⟩) (hpos : pos ≤ s.length) (hreads : ∀ r ∈ reads, r.1.Reachable r.2 ∧ 0 < r.2) :
    ∃ resps w', w.calls id (reads.map fun r => .read fd r.1 r.2) = some (resps, w') ∧
      Delivers (s.drop pos) (reads.map Prod.snd) resps := by
  induction reads generalizing w σ pos with
  | nil => exact ⟨[], w, rfl, .nil⟩
  | cons r reads ih =>
    obtain ⟨buf, n⟩ := r
    obtain ⟨hbuf, hn⟩ := hreads _ List.mem_cons_self
    obtain ⟨resp, w₁, σ₁, hstep, hret, hcopied, hrel₁, h₁, hfile₁⟩ := read_delivers hrel h hfile hpos hbuf
    obtain ⟨resps, w₂, hcalls, hdel⟩ := ih hrel₁ h₁ hfile₁ (by omega) fun r hr => hreads r (List.mem_cons_of_mem _ hr)
    refine ⟨resp :: resps, w₂, World.calls_cons hstep hcalls, .cons hn ?_ ?_ ?_⟩
    · rw [hret, List.length_drop]
    · rw [hcopied, List.take_eq_take_min (l := s.drop pos) (i := n), List.length_drop]
    · have hdrop : (s.drop pos).drop n = s.drop (pos + min n (s.length - pos)) := by
        rw [List.drop_drop, List.drop_eq_drop_iff]
        omega
      rwa [hdrop]

/-! ## The claim -/

/-- Block 0, the inode table, the blocks of files and what inodes name as their indirect block. -/
def FS.InUse (g : Geometry) (σ : FS) (b : Int) : Prop :=
  b = 0 ∨ g.isTable b ∨ ∃ i, g.isInode i ∧ (b = σ.indirect i ∨ ∃ n, σ.covers i n ∧ b = σ.pointer i n)

/-- The free list has no repeats and no block in use. -/
structure FS.FreeListOk (g : Geometry) (σ : FS) : Prop where
  nodup : σ.b_head.Nodup
  range : ∀ b ∈ σ.b_head, 0 ≤ b ∧ b < g.sectors ∧ b < 2 ^ 31
  unused : ∀ b ∈ σ.b_head, ¬ σ.InUse g b

/-- An empty regular file. A file of more than 12 blocks uses the indirect block that its inode names. -/
structure FS.EmptyFile (g : Geometry) (σ : FS) (i : Int) (total : Nat) : Prop where
  inode : g.isInode i
  file : σ.type i = INODE_REGULAR
  size : σ.size i = 0
  indirect : 12 * 512 < total → g.IsData (σ.indirect i)

theorem FS.EmptyFile.grows (h : σ.EmptyFile g i total) (hfree : σ.FreeListOk g) (htotal : total ≤ 140 * 512)
    (hroom : total ≤ 512 * σ.b_head.length) : σ.Grows g i [] total := by
  have hcov : ∀ n, ¬ σ.covers i n := by
    intro n hc
    rw [View.covers, h.size, BLOCKSIZE] at hc
    omega
  refine ⟨h.inode, h.file, h.size, fun m hm => absurd hm (Nat.not_lt_zero m), hfree.nodup, fun b hb => ?_, fun n hc => absurd hc (hcov n),
    fun n _ hc => absurd hc (hcov n), fun ht => ⟨h.indirect ht, fun hb => ?_, fun n hc => absurd hc (hcov n)⟩, by omega, Nat.zero_le _,
    htotal⟩
  · obtain ⟨h0, h1, h2⟩ := hfree.range b hb
    have hunused := hfree.unused b hb
    exact ⟨fun he => hunused (.inl he), h2, ⟨h0, h1⟩, fun ht => hunused (.inr (.inl ht))⟩
  · exact hfree.unused _ hb (.inr (.inr ⟨i, h.inode, .inl rfl⟩))

/-- **Chunks do not matter.** However the bytes of a new file are split into `Write`s on its descriptor, each is written in full,
and however a new descriptor asks for them, the `Read`s deliver them in order and return 0 exactly at the end. -/
theorem chunks_do_not_matter {chunks : List (UserBuf × Nat)} (hcaches : w.server.CachesOk g)
    (hnew : w.server.fs.EmptyFile g i (sent chunks).length) (hfree : w.server.fs.FreeListOk g)
    (hlength : (sent chunks).length ≤ 140 * 512) (hroom : (sent chunks).length ≤ 512 * w.server.b_head.length)
    (hfile : (w.clients id).file fd = some { i_num := i, pos := 0 }) (hchunks : ∀ c ∈ chunks, c.1.Reachable c.2) :
    ∃ resps w₁, w.calls id (chunks.map fun c => .write fd c.1 c.2) = some (resps, w₁) ∧
      resps.map Response.ret = chunks.map (fun c => (c.2 : Int)) ∧ w₁.server.CachesOk g ∧
      ∀ (w₂ : World ι) (id₂ : ι) (fd₂ : Int) (reads : List (UserBuf × Nat)), w₂.server.CachesOk g →
        w₁.server.fs.Unchanged g w₂.server.fs → (w₂.clients id₂).file fd₂ = some { i_num := i, pos := 0 } →
        (∀ r ∈ reads, r.1.Reachable r.2 ∧ 0 < r.2) →
          ∃ resps₂ w₃, w₂.calls id₂ (reads.map fun r => .read fd₂ r.1 r.2) = some (resps₂, w₃) ∧
            Delivers (sent chunks) (reads.map Prod.snd) resps₂ := by
  obtain ⟨resps, w₁, σ₁, hcalls, hrets, hrel₁, hgrows⟩ :=
    writes_append hcaches.rel (hnew.grows hfree hlength hroom) hfile hchunks (by rw [List.length_nil]; omega)
  refine ⟨resps, w₁, hcalls, hrets, hrel₁.cachesOk, fun w₂ id₂ fd₂ reads hcaches₂ hsame hfile₂ hreads => ?_⟩
  have hgrows₂ := (hgrows.unchanged hrel₁.agrees.unchanged).unchanged hsame
  have hstart : 0 ≤ ([] ++ sent chunks).length := Nat.zero_le _
  obtain ⟨resps₂, w₃, hcalls₂, hdel⟩ := reads_deliver hcaches₂.rel hgrows₂ hfile₂ hstart hreads
  exact ⟨resps₂, w₃, hcalls₂, by simpa using hdel⟩

/-- Where blocks have one owner, the data blocks and the indirect blocks in use are not free. -/
theorem WellFormed.freeListOk (hw : WellFormed g σ) (hrange : ∀ b ∈ σ.b_head, g.table < b ∧ b < g.sectors)
    (hind : ∀ j, g.isInode j → σ.indirect j = 0) : σ.FreeListOk g := by
  have htable := g.table_pos
  refine ⟨hw.exclusive.nodup, fun b hb => ?_, fun b hb huse => ?_⟩
  · obtain ⟨h0, h1⟩ := hrange b hb
    exact ⟨by omega, h1, (hw.free b hb).2.2⟩
  · obtain ⟨h0, h1⟩ := hrange b hb
    rcases huse with rfl | ht | ⟨j, hj, rfl | ⟨n, hc, rfl⟩⟩
    · omega
    · exact absurd ht.2 (by omega)
    · rw [hind j hj] at h0
      omega
    · exact hw.exclusive.apart _ _ (View.ledger_data (hw.mapped j hj) hj hc) hb

theorem filledBuf_reachable (x : UInt8) (n : Nat) : (filledBuf x).Reachable n := ⟨rfl, fun _ _ _ => rfl⟩

/-- Safe calls keep the state well formed. -/
theorem World.sound {w' : World ι} {calls : List (ι × Call)} (hshort : 8 * g.table ≤ 2 ^ 15) (h : Sound g w.server)
    (hmeets : w.meets (fun w req => req.Safe g w.server.fs) calls) (hrun : w.after calls = some w') : Sound g w'.server := by
  refine World.after_induction (I := fun w => Sound g w.server) h hmeets hrun fun w id call resp w' _ h hp hs => ?_
  rcases World.step_cases hs with ⟨c, _, rfl⟩ | ⟨req, k, r, sv, htalk, hserve, _, rfl⟩
  · exact h
  · exact (h.step hshort (hp req (Call.message_of_sends htalk)) hserve).1

/-- Two writes, and three reads through another descriptor. -/
theorem chunks_do_not_matter_three : ∃ w w₁ resps w₃ resps₂, smallWorld.after [((), .create (some [SLASH, 97]))] = some w ∧
    w.calls () [.write 0 (filledBuf 1) 500, .write 0 (filledBuf 2) 30] = some (resps, w₁) ∧
    World.calls { w₁ with clients := fun _ => ((w.clients ()).install 15).2 } ()
      [.read 1 (filledBuf 0) 520, .read 1 (filledBuf 0) 520, .read 1 (filledBuf 0) 520] = some (resps₂, w₃) ∧
    Delivers (sent [(filledBuf 1, 500), (filledBuf 2, 30)]) [520, 520, 520] resps₂ := by
  have hall : (smallWorld.after [((), .create (some [SLASH, 97]))]).map (fun w => decide (
      ((w.clients ()).file 0).map (fun f => (f.i_num, f.pos)) = some (15, 0) ∧
      (((w.clients ()).install 15).2.file 1).map (fun f => (f.i_num, f.pos)) = some (15, 0) ∧
      w.server.fs.type 15 = INODE_REGULAR ∧ w.server.fs.size 15 = 0 ∧ w.server.b_head = ints 4 96 ∧
      ∀ j ∈ List.range 16, w.server.fs.indirect (j : Nat) = 0)) = some true := by decide +kernel
  obtain ⟨w, hrun, hall⟩ := Option.map_eq_some_iff.mp hall
  obtain ⟨hfile, hfile₂, htype, hsize, hfree, hind⟩ := of_decide_eq_true hall
  have hopened : ∀ {c : Client} {fd : Int}, (c.file fd).map (fun f => (f.i_num, f.pos)) = some (15, 0) →
      c.file fd = some { i_num := 15, pos := 0 } := by
    intro c fd h
    obtain ⟨⟨i, pos⟩, hfile, he⟩ := Option.map_eq_some_iff.mp h
    obtain ⟨rfl, rfl⟩ := Prod.mk.inj he
    exact hfile
  have hmeets : smallWorld.meets (fun w req => req.Safe smallDisk.geometry w.server.fs) [((), .create (some [SLASH, 97]))] := by
    refine ⟨fun req hreq => ?_, fun _ _ _ => trivial⟩
    obtain rfl := Option.some.inj hreq
    exact smallStart_sound.2.safe_create (by decide)
  have hsound : Sound smallDisk.geometry w.server := World.sound (by decide) smallStart_sound.1 hmeets hrun
  have hind' : ∀ j, smallDisk.geometry.isInode j → w.server.fs.indirect j = 0 := by
    intro j hj
    have hj16 : j < 16 := hj.2
    have hpos := hj.1
    have := hind j.toNat (List.mem_range.mpr (by omega))
    rwa [Int.toNat_of_nonneg hpos] at this
  have hlist : w.server.fs.FreeListOk smallDisk.geometry := by
    refine hsound.wellFormed.freeListOk (fun b hb => ?_) hind'
    rw [show w.server.fs.b_head = ints 4 96 from hfree] at hb
    have := mem_ints.mp hb
    have htable : smallDisk.geometry.table = 2 := rfl
    have hsectors : smallDisk.geometry.sectors = 100 := rfl
    omega
  have hchunks : ∀ c ∈ [(filledBuf 1, 500), (filledBuf 2, 30)], c.1.Reachable c.2 := by
    intro c hc
    rcases List.mem_cons.mp hc with rfl | hc
    · exact filledBuf_reachable 1 500
    · obtain rfl := List.mem_singleton.mp hc
      exact filledBuf_reachable 2 30
  have hlength : (sent [(filledBuf 1, 500), (filledBuf 2, 30)]).length = 530 := by simp [sent]
  obtain ⟨resps, w₁, hcalls, _, hcaches, hreads⟩ := chunks_do_not_matter hsound.caches ⟨by decide, htype, hsize, fun h => by omega⟩ hlist
    (by omega) (by rw [hlength, hfree]; decide) (hopened hfile) hchunks
  obtain ⟨resps₂, w₃, hcalls₂, hdel⟩ := hreads { w₁ with clients := fun _ => ((w.clients ()).install 15).2 } () 1
    (List.replicate 3 (filledBuf 0, 520)) hcaches (.refl _ _) (hopened hfile₂) (fun r hr => by
      obtain rfl := List.eq_of_mem_replicate hr
      exact ⟨filledBuf_reachable 0 520, by decide⟩)
  exact ⟨w, w₁, resps, w₃, resps₂, hrun, hcalls, hcalls₂, hdel⟩

end Yfs
