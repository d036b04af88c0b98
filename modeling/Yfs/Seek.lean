import Yfs.Answers
import Yfs.Descriptors

/-! # Seeking -/

namespace Yfs

variable {ι : Type} [DecidableEq ι] {g : Geometry} {σ : FS} {sv : Server} {w : World ι} {id : ι} {fd offset whence size pos i : Int}
  {file : OpenedFile}

/-- Where a seek starts. -/
def seekBase (whence size pos : Int) : Int :=
  if whence = SEEK_SET then 0 else if whence = SEEK_CUR then pos else size

/-- Where it leads, without bounds. -/
def seekTarget (offset whence size pos : Int) : Int := seekBase whence size pos + offset

/-- A position in the file, or at its end. -/
def InFile (p size : Int) : Prop := 0 ≤ p ∧ p ≤ size

instance {p size : Int} : Decidable (InFile p size) := inferInstanceAs (Decidable (_ ∧ _))

/-- What `lseek` means: the target if it is in the file. -/
def seekMeant (offset whence size pos : Int) : Int :=
  if InFile (seekTarget offset whence size pos) size then seekTarget offset whence size pos else ERROR

/-- The arguments are `int`s, and the file is no longer than a file can be. -/
structure SeekArgs (offset whence size pos : Int) : Prop where
  whence : whence = SEEK_SET ∨ whence = SEEK_CUR ∨ whence = SEEK_END
  offset : -2 ^ 31 ≤ offset ∧ offset < 2 ^ 31
  size : 0 ≤ size ∧ size ≤ MAX_BLOCKS * BLOCKSIZE
  pos : 0 ≤ pos ∧ pos < 2 ^ 31

/-! ## The handler -/

/-- A sum that wraps is negative, or not in the file. -/
theorem wrap_inFile {a : Int} (ha : 0 ≤ a ∧ a ≤ size) (hsize : size ≤ MAX_BLOCKS * BLOCKSIZE) (ho : -2 ^ 31 ≤ offset ∧ offset < 2 ^ 31) :
    (0 ≤ Mem.wrap 4 (a + offset) → Mem.wrap 4 (a + offset) = a + offset) ∧ (Mem.wrap 4 (a + offset) < 0 → ¬ InFile (a + offset) size) := by
  have hmax : MAX_BLOCKS * BLOCKSIZE = 71680 := by decide
  rw [hmax] at hsize
  by_cases hlt : a + offset < 2 ^ 31
  · rw [Mem.wrap_int _ (by omega) hlt]
    exact ⟨fun _ => rfl, fun hneg hin => absurd hin.1 (Int.not_le.mpr hneg)⟩
  · have hwrap : Mem.wrap 4 (a + offset) = a + offset - 2 ^ 32 := by
      rw [Mem.wrap_eq, Int.bmod_def]
      omega
    rw [hwrap]
    refine ⟨fun hpos => by omega, fun _ hin => ?_⟩
    have := hin.2
    omega

theorem handle_seek_cases (h : SeekArgs offset whence (σ.size i) pos) (hi : g.isInode i) :
    wp g (handle_seek i offset whence pos) σ fun r τ =>
      r = (if pos ≤ σ.size i then seekMeant offset whence (σ.size i) pos else ERROR) ∧ τ = σ := by
  have hsize := h.size
  have hpos := h.pos
  have hmeant : ∀ {base : Int}, seekBase whence (σ.size i) pos = base → seekMeant offset whence (σ.size i) pos =
      if InFile (base + offset) (σ.size i) then base + offset else ERROR := fun hb => by rw [seekMeant, seekTarget, hb]
  unfold handle_seek
  simp only [wp_bind, wp_get_i, wp_readInode, wp_ite, wp_ret, Prog.pure_eq, and_true]
  refine fun _ => ⟨hi, fun _ => ⟨fun hstale => ?_, fun hfresh => ?_⟩⟩
  · rw [if_neg]
    exact fun hle => absurd hstale (not_or.mpr ⟨Int.not_lt.mpr hle, by omega⟩)
  have hle : pos ≤ σ.size i := Int.not_lt.mp (not_or.mp hfresh).1
  rw [if_pos hle]
  rcases h.whence with rfl | rfl | rfl
  · rw [@hmeant 0 rfl, Int.zero_add]
    refine ⟨fun _ => ⟨fun hbad => ?_, fun hok => ?_⟩, fun hne => absurd rfl hne⟩
    · exact (if_neg fun hin => absurd hbad (not_or.mpr ⟨Int.not_lt.mpr hin.1, Int.not_lt.mpr hin.2⟩)).symm
    · exact (if_pos ⟨Int.not_lt.mp (not_or.mp hok).1, Int.not_lt.mp (not_or.mp hok).2⟩).symm
  · obtain ⟨hwrap, hneg⟩ := wrap_inFile ⟨hpos.1, hle⟩ hsize.2 h.offset
    rw [@hmeant pos rfl]
    refine ⟨fun he => absurd he (by decide), fun _ => ⟨fun _ => ⟨fun hbad => ?_, fun hok => ?_⟩, fun hne => absurd rfl hne⟩⟩
    · refine (if_neg fun hin => ?_).symm
      rcases hbad with hbig | hlt
      · rw [hwrap (by have := hsize.1; simp only [View.size] at this hbig ⊢; omega)] at hbig
        exact absurd hin.2 (Int.not_le.mpr hbig)
      · exact hneg hlt hin
    · obtain ⟨hsmall, hge⟩ := not_or.mp hok
      have heq := hwrap (Int.not_lt.mp hge)
      rw [heq] at hsmall hge ⊢
      exact (if_pos ⟨Int.not_lt.mp hge, Int.not_lt.mp hsmall⟩).symm
  · obtain ⟨hwrap, hneg⟩ := wrap_inFile ⟨hsize.1, le_rfl⟩ hsize.2 h.offset
    rw [@hmeant (σ.size i) rfl]
    refine ⟨fun he => absurd he (by decide), fun _ => ⟨fun he => absurd he (by decide), fun _ => ⟨fun _ => ⟨fun hbad => ?_, fun hok => ?_⟩,
      fun hne => absurd rfl hne⟩⟩⟩
    · refine (if_neg fun hin => ?_).symm
      rcases hbad with hbig | hlt
      · have := hin.2
        omega
      · exact hneg hlt hin
    · obtain ⟨hback, hge⟩ := not_or.mp hok
      have heq := hwrap (Int.not_lt.mp hge)
      change Mem.wrap 4 (σ.size i + offset) = _
      rw [heq]
      exact (if_pos ⟨by rw [← heq]; exact Int.not_lt.mp hge, by omega⟩).symm

/-! ## The call -/

/-- What a call of `Seek` that returns `ret` is for, in a file of `size` bytes. -/
structure World.Seeks (w : World ι) (id : ι) (fd offset whence : Int) (file : OpenedFile) (size ret : Int) (w' : World ι) : Prop where
  handled : (serve w.server (.seek file.i_num offset whence file.pos)).map (fun r => r.1.ret) = some (seekMeant offset whence size file.pos)
  meant : ret = seekMeant offset whence size file.pos
  moved : ret ≠ ERROR → w'.clients = Function.update w.clients id ((w.clients id).setPos fd file ret)
  unmoved : ret = ERROR → w'.clients = w.clients

theorem seekMeant_error (h : seekMeant offset whence size pos = ERROR) : ¬ InFile (seekTarget offset whence size pos) size := by
  intro hin
  rw [seekMeant, if_pos hin] at h
  have := hin.1
  rw [h, ERROR] at this
  omega

/-- **Seeking is exact.** A call does what it is for exactly if the descriptor's position is still in the file, or the target is not. -/
theorem seek_exact (hc : w.server.CachesOk g) (hfile : (w.clients id).file fd = some file) (hi : g.isInode file.i_num) (hpos : 0 < file.i_num)
    (h : SeekArgs offset whence (w.server.fs.size file.i_num) file.pos) : ∃ resp w', w.step id (.seek fd offset whence) = some (resp, w') ∧
      (w.Seeks id fd offset whence file (w.server.fs.size file.i_num) resp.ret w' ↔
        file.pos ≤ w.server.fs.size file.i_num ∨
          ¬ InFile (seekTarget offset whence (w.server.fs.size file.i_num) file.pos) (w.server.fs.size file.i_num)) := by
  obtain ⟨ret, sv', _, hrun, ⟨hret, _⟩, _⟩ := run_total hc.rel (handle_seek_steady hc.tidy).not_stale (handle_seek_total hi) (handle_seek_cases h hi)
  have hserve : serve w.server (.seek file.i_num offset whence file.pos) = some ({ ret := ret }, sv') := by
    rw [serve_handler (by simp), Request.handler, run_bind, hrun]
    rfl
  have hsend : Call.talk (w.clients id) (.seek fd offset whence) = .sends (.seek file.i_num offset whence file.pos) fun pos =>
      if pos = ERROR then (ERROR, w.clients id) else (pos, (w.clients id).setPos fd file pos) := by
    have hwhence : ¬ (whence ≠ SEEK_SET ∧ whence ≠ SEEK_CUR ∧ whence ≠ SEEK_END) := fun hn => by
      rcases h.whence with he | he | he
      · exact hn.1 he
      · exact hn.2.1 he
      · exact hn.2.2 he
    unfold Call.talk Iolib.Seek
    dsimp only
    rw [hfile]
    dsimp only
    rw [if_neg hwhence, if_neg (Int.not_le.mpr hpos)]
  have hstep : w.step id (.seek fd offset whence) = some ({ ret := ret },
      { server := sv'
        clients := Function.update w.clients id (if ret = ERROR then w.clients id else (w.clients id).setPos fd file ret) }) := by
    unfold World.step
    rw [hsend]
    dsimp only
    rw [hserve, Option.map_some]
    by_cases he : ret = ERROR
    · rw [if_pos he, if_pos he, he]
    · rw [if_neg he, if_neg he]
  refine ⟨_, _, hstep, ?_⟩
  by_cases hstale : file.pos ≤ w.server.fs.size file.i_num
  · rw [if_pos hstale] at hret
    refine ⟨fun _ => .inl hstale, fun _ => ⟨by rw [hserve, Option.map_some, hret], hret, fun hne => ?_, fun he => ?_⟩⟩
    · rw [if_neg hne]
    · dsimp only
      rw [if_pos he]
      exact Function.update_eq_self _ _
  · rw [if_neg hstale] at hret
    constructor
    · intro hdone
      exact .inr (seekMeant_error (hdone.meant.symm.trans hret))
    · intro hcond
      have hout := hcond.resolve_left hstale
      have hmeant : seekMeant offset whence (w.server.fs.size file.i_num) file.pos = ERROR := if_neg hout
      refine ⟨by rw [hserve, Option.map_some, hret, hmeant], hret.trans hmeant.symm, fun hne => absurd hret hne, fun _ => ?_⟩
      dsimp only
      rw [if_pos hret]
      exact Function.update_eq_self _ _

/-- A process that has opened the root. -/
def rootOpened : World Bool :=
  { server := smallStart, clients := fun _ => { opened_ft := [some { i_num := ROOTINODE, pos := 0 }], cur_i := ROOTINODE } }

/-- To the end of the root. -/
theorem seek_exact_end : ∃ resp w', rootOpened.step false (.seek 0 0 SEEK_END) = some (resp, w') ∧
    rootOpened.Seeks false 0 0 SEEK_END { i_num := ROOTINODE, pos := 0 } (smallStart.fs.size ROOTINODE) resp.ret w' := by
  have hsize : rootOpened.server.fs.size ROOTINODE = 64 := by decide +kernel
  have hfile : (rootOpened.clients false).file 0 = some { i_num := ROOTINODE, pos := 0 } := rfl
  have hargs : SeekArgs 0 SEEK_END (rootOpened.server.fs.size ROOTINODE) 0 := by
    rw [hsize]
    exact ⟨by decide, by decide, by decide, by decide⟩
  obtain ⟨resp, w', hstep, hiff⟩ := seek_exact smallStart_sound.1.caches hfile (Geometry.isInode_root smallDisk.geometry) (by decide) hargs
  refine ⟨resp, w', hstep, hiff.mpr (.inl ?_)⟩
  dsimp only
  rw [hsize]
  decide

/-- The file of a descriptor is emptied by another process: its next `Seek` fails, to the start of the file as well. -/
theorem seek_stale_fails : ∃ w resp w' file, twoClients.after [(true, .create (some [SLASH, 97])), (true, .write 0 (filledBuf 1) 1),
      (false, .create (some [SLASH, 97]))] = some w ∧ (w.clients true).file 0 = some file ∧
    w.step true (.seek 0 0 SEEK_SET) = some (resp, w') ∧ ¬ w.Seeks true 0 0 SEEK_SET file (w.server.fs.size file.i_num) resp.ret w' := by
  have hall : ((twoClients.after [(true, .create (some [SLASH, 97])), (true, .write 0 (filledBuf 1) 1),
      (false, .create (some [SLASH, 97]))]).bind fun w => ((w.clients true).file 0).bind fun file => (w.step true (.seek 0 0 SEEK_SET)).map fun r =>
    decide (r.1.ret = ERROR ∧ w.server.fs.size file.i_num = 0 ∧ file.pos = 1)) = some true := by decide +kernel
  obtain ⟨w, hrun, hall⟩ := Option.bind_eq_some_iff.mp hall
  obtain ⟨file, hfile, hall⟩ := Option.bind_eq_some_iff.mp hall
  obtain ⟨⟨resp, w'⟩, hstep, hdone⟩ := Option.map_eq_some_iff.mp hall
  obtain ⟨hret, hsize, _⟩ := of_decide_eq_true hdone
  refine ⟨w, resp, w', file, hrun, hfile, hstep, fun h => ?_⟩
  have hmeant := h.meant
  have hstart : seekTarget 0 SEEK_SET 0 file.pos = 0 := rfl
  rw [hret, hsize, seekMeant, hstart, if_pos (by decide)] at hmeant
  exact absurd hmeant (by decide)

end Yfs
