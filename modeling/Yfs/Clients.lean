import Yfs.Code.Iolib
import Yfs.Paths
import Yfs.Requests.InUse

/-! # Clients -/

namespace Yfs

variable {ι : Type} [DecidableEq ι] {g : Geometry} {w w' : World ι} {id : ι} {call : Call} {calls : List (ι × Call)} {c : Client}
  {resp : Response} {req : Request} {k : Int → Int × Client} {r : Int × Client}

/-! ## One call -/

/-- The message that a call sends. -/
def Call.message (c : Client) (call : Call) : Option Request :=
  match call.talk c with
  | .returns _ => none
  | .sends req _ => some req

theorem Call.message_of_sends (h : call.talk c = .sends req k) : call.message c = some req := by rw [Call.message, h]

/-- A call says its message, and the client goes on with the answer. -/
theorem World.step_cases (h : w.step id call = some (resp, w')) :
    (∃ c, call.talk (w.clients id) = .returns (resp.ret, c) ∧ w' = { w with clients := Function.update w.clients id c }) ∨
    ∃ req k r sv, call.talk (w.clients id) = .sends req k ∧ serve w.server req = some (r, sv) ∧
      resp = { r with ret := (k r.ret).1 } ∧ w' = { server := sv, clients := Function.update w.clients id (k r.ret).2 } := by
  unfold World.step at h
  split at h
  case h_1 r hr =>
    obtain ⟨rfl, rfl⟩ := Prod.mk.inj (Option.some.inj h)
    exact .inl ⟨r.2, hr, rfl⟩
  case h_2 req k hk =>
    obtain ⟨⟨r, sv⟩, hs, he⟩ := Option.map_eq_some_iff.mp h
    obtain ⟨rfl, rfl⟩ := Prod.mk.inj he
    exact .inr ⟨req, k, r, sv, hk, hs, rfl, rfl⟩

/-- Every message of the run meets `P` in the state before it. -/
def World.meets (P : World ι → Request → Prop) (w : World ι) : List (ι × Call) → Prop
  | [] => True
  | (id, call) :: l => (∀ req, call.message (w.clients id) = some req → P w req) ∧
    ∀ resp w', w.step id call = some (resp, w') → w'.meets P l

theorem World.meets.split {P : World ι → Request → Prop} {calls₁ calls₂ : List (ι × Call)} (h : w.meets P (calls₁ ++ calls₂))
    (hrun : w.after calls₁ = some w') : w.meets P calls₁ ∧ w'.meets P calls₂ := by
  induction calls₁ generalizing w with
  | nil =>
    obtain rfl := Option.some.inj hrun
    exact ⟨trivial, h⟩
  | cons call calls₁ ih =>
    obtain ⟨id, call⟩ := call
    rw [after] at hrun
    split at hrun
    case h_1 => cases hrun
    case h_2 resp w₁ hs =>
      refine ⟨⟨h.1, fun resp' w₁' hs' => ?_⟩, (ih (h.2 _ _ hs) hrun).2⟩
      obtain ⟨rfl, rfl⟩ := Prod.mk.inj (Option.some.inj (hs.symm.trans hs'))
      exact (ih (h.2 _ _ hs) hrun).1

/-- What one call preserves holds after every run. -/
theorem World.after_induction {P : World ι → Request → Prop} {I : World ι → Prop} (h : I w) (hmeets : w.meets P calls)
    (hrun : w.after calls = some w')
    (hstep : ∀ w id call resp w', (id, call) ∈ calls → I w → (∀ req, call.message (w.clients id) = some req → P w req) →
      w.step id call = some (resp, w') → I w') : I w' := by
  induction calls generalizing w with
  | nil =>
    obtain rfl := Option.some.inj hrun
    exact h
  | cons call calls ih =>
    obtain ⟨id, call⟩ := call
    rw [after] at hrun
    split at hrun
    case h_1 => cases hrun
    case h_2 resp w₁ hs =>
      exact ih (hstep _ _ _ _ _ List.mem_cons_self h hmeets.1 hs) (hmeets.2 _ _ hs) hrun
        fun _ _ _ _ _ hm => hstep _ _ _ _ _ (List.mem_cons_of_mem _ hm)

section

open Iolib

variable {operation : Option CStr → Int → Request} {transfer : Int → UserBuf → Int → Int → Request} {k₀ : Int → Int × Client}
  {pathname : Option CStr} {buf : UserBuf} {i_num size offset ret fd : Int} {file : OpenedFile}

theorem send_path_m_sends (h : send_path_m operation pathname c k₀ = .sends req k) : req = operation pathname c.cur_i ∧ k = k₀ := by
  unfold send_path_m at h
  split at h
  · cases h
  · obtain ⟨rfl, rfl⟩ := Talk.sends.inj h
    exact ⟨rfl, rfl⟩

theorem send_file_m_sends (h : send_file_m transfer i_num buf size offset k₀ = .sends req k) :
    req = transfer i_num buf size offset ∧ k = k₀ := by
  unfold send_file_m at h
  split at h
  · cases h
  · obtain ⟨rfl, rfl⟩ := Talk.sends.inj h
    exact ⟨rfl, rfl⟩

theorem send_path_m_returns (h : send_path_m operation pathname c k₀ = .returns r) : r = k₀ ERROR := by
  unfold send_path_m at h
  split at h
  · exact (Talk.returns.inj h).symm
  · cases h

theorem send_file_m_returns (h : send_file_m transfer i_num buf size offset k₀ = .returns r) : r = k₀ ERROR := by
  unfold send_file_m at h
  split at h
  · exact (Talk.returns.inj h).symm
  · cases h

/-- What a client makes of the answer to its message. -/
inductive Client.Goes (c : Client) : Request → Int → Client → Prop where
  | same {req : Request} {ret : Int} : Goes c req ret c
  | opened {req : Request} {ret : Int} (h : ∃ path, req = .open path c.cur_i ∨ req = .create path c.cur_i) (hne : ret ≠ ERROR) :
    Goes c req ret (c.install ret).2
  | moved {req : Request} {ret fd pos : Int} {file : OpenedFile} (hfile : c.file fd = some file) :
    Goes c req ret (c.setPos fd file pos)
  | entered {path : Option CStr} {ret : Int} (hne : ret ≠ ERROR) : Goes c (.chdir path c.cur_i) ret { c with cur_i := ret }

theorem Call.goes (h : call.talk c = .sends req k) (ret : Int) : c.Goes req ret (k ret).2 := by
  cases call with
  | «open» path | create path =>
    obtain ⟨rfl, rfl⟩ := send_path_m_sends h
    dsimp only
    split
    · exact .same
    case isFalse hne => exact .opened ⟨path, by simp⟩ hne
  | close =>
    simp only [Call.talk, Close] at h
    split at h <;> cases h
  | read | write =>
    simp only [Call.talk, Read, Write] at h
    split at h
    · cases h
    case h_2 hfile =>
      obtain ⟨rfl, rfl⟩ := send_file_m_sends h
      dsimp only
      split
      · exact .same
      · exact .moved hfile
  | seek =>
    simp only [Call.talk, Seek] at h
    split at h
    · cases h
    case h_2 hfile =>
      split at h
      · cases h
      split at h
      · cases h
      obtain ⟨rfl, rfl⟩ := Talk.sends.inj h
      dsimp only
      split
      · exact .same
      · exact .moved hfile
  | link =>
    simp only [Call.talk, Link] at h
    split at h
    · cases h
    split at h
    · cases h
    obtain ⟨rfl, rfl⟩ := Talk.sends.inj h
    exact .same
  | unlink | mkdir | rmdir =>
    obtain ⟨rfl, rfl⟩ := send_path_m_sends h
    exact .same
  | chdir path =>
    obtain ⟨rfl, rfl⟩ := send_path_m_sends h
    dsimp only
    split
    · exact .same
    case isFalse hne => exact .entered hne
  | stat =>
    simp only [Call.talk, Iolib.Stat] at h
    split at h
    · cases h
    split at h
    · cases h
    obtain ⟨rfl, rfl⟩ := Talk.sends.inj h
    exact .same
  | sync =>
    obtain ⟨rfl, rfl⟩ := Talk.sends.inj h
    exact .same

/-- Without a message a client at most closes a descriptor. -/
theorem Call.returns (h : call.talk c = .returns r) :
    r.2 = c ∨ ∃ fd, call = .close fd ∧ c.file fd ≠ none ∧ r.2 = { c with opened_ft := c.opened_ft.set fd.toNat none } := by
  have herror : ∀ {r' : Int × Client}, Talk.returns (ERROR, c) = .returns r' → r'.2 = c := by
    intro r' h
    rw [← Talk.returns.inj h]
  cases call with
  | «open» | create | unlink | mkdir | rmdir | chdir =>
    obtain rfl := send_path_m_returns h
    exact .inl rfl
  | close fd =>
    simp only [Call.talk, Close] at h
    split at h
    · exact .inl (herror h)
    case h_2 hfile =>
      obtain rfl := Talk.returns.inj h
      exact .inr ⟨fd, rfl, by rw [hfile]; simp, rfl⟩
  | read | write =>
    simp only [Call.talk, Read, Write] at h
    split at h
    · exact .inl (herror h)
    · obtain rfl := send_file_m_returns h
      exact .inl rfl
  | seek =>
    simp only [Call.talk, Seek] at h
    split at h
    · exact .inl (herror h)
    split at h
    · exact .inl (herror h)
    split at h
    · exact .inl (herror h)
    · cases h
  | link =>
    simp only [Call.talk, Link] at h
    split at h
    · exact .inl (herror h)
    split at h
    · exact .inl (herror h)
    · cases h
  | stat =>
    simp only [Call.talk, Iolib.Stat] at h
    split at h
    · exact .inl (herror h)
    split at h
    · exact .inl (herror h)
    · cases h
  | sync => cases h

theorem install_cur_i : (c.install i_num).2.cur_i = c.cur_i := by
  unfold Client.install
  split <;> rfl

end

/-! ## The current directory -/

/-- Only `ChDir` changes the current directory, to what the server answers. -/
theorem Client.Goes.cur_i {c' : Client} {ret : Int} (h : c.Goes req ret c') :
    c'.cur_i = c.cur_i ∨ (∃ path, req = .chdir path c.cur_i) ∧ ret ≠ ERROR ∧ c'.cur_i = ret := by
  cases h with
  | same => exact .inl rfl
  | opened => exact .inl install_cur_i
  | moved => exact .inl rfl
  | entered hne => exact .inr ⟨⟨_, rfl⟩, hne, rfl⟩

/-- What `chdir` answers. -/
theorem chdir_returns {sv sv' : Server} {path : CStr} {cur : Int} (h : Sound g sv) (hcur : g.isInode cur) (hpos : 0 < cur)
    (hs : serve sv (.chdir (some path) cur) = some (resp, sv')) :
    resp.ret = opens (sv.fs.resolve (from_root path cur).1 (from_root path cur).2) := by
  have hw : wp g (Request.chdir (some path) cur).handler sv.fs fun resp _ =>
      resp.ret = opens (sv.fs.resolve (from_root path cur).1 (from_root path cur).2) :=
    wp_bind.mpr (wp_mono (fun r _ hr => wp_pure hr) (handle_open_result h.wellFormed hcur hpos))
  obtain ⟨_, hr, _⟩ := run_sound h.caches.rel hw hs
  exact hr

/-- `i` is a directory, and not free. -/
structure Server.DirInUse (g : Geometry) (sv : Server) (i : Int) : Prop where
  range : 1 ≤ i ∧ i ≤ g.inodes - 1
  isDir : sv.fs.isDir i
  inUse : i ∉ sv.i_head

theorem Server.DirInUse.isInode {sv : Server} {i : Int} (h : sv.DirInUse g i) : g.isInode i := by
  obtain ⟨h1, h2⟩ := h.range
  exact ⟨by omega, by omega⟩

/-- A directory in use stays one, unless `rmdir` frees it. -/
theorem Server.DirInUse.step {sv sv' : Server} {i : Int} (h : sv.DirInUse g i) (hsound : Sound g sv) (hshort : 8 * g.table ≤ 2 ^ 15)
    (hsafe : req.Safe g sv.fs) (hs : serve sv req = some (resp, sv')) (hfrees : ¬ req.Frees sv.fs i) : sv'.DirInUse g i := by
  obtain ⟨_, σ', heff, _, hagree⟩ := hsound.step hshort hsafe hs
  have h1 := h.range.1
  refine ⟨h.range, ?_, fun hm => ?_⟩
  · unfold View.isDir View.type
    rw [hagree.inode i h.isInode]
    exact (heff.type h.inUse (by omega)).trans h.isDir
  · rw [show sv'.i_head = σ'.i_head from congrArg Globals.i_head hagree.globals] at hm
    exact (heff.frees hsound.wellFormed hsafe hm).elim h.inUse hfrees

/-- The condition on a message and the state before it: `chdir` finds a directory that is not free, and `rmdir` finds nobody's
current directory. -/
def World.KeepsDirs (w : World ι) : Request → Prop
  | .chdir (some path) cur => ∀ i, w.server.fs.resolve (from_root path cur).1 (from_root path cur).2 = i → i ≠ 0 →
    w.server.fs.isDir i ∧ i ∉ w.server.i_head
  | .rmdir pathname cur => ∀ id, ¬ (Request.rmdir pathname cur).Frees w.server.fs (w.clients id).cur_i
  | _ => True

omit [DecidableEq ι] in
theorem World.KeepsDirs.not_frees (h : w.KeepsDirs req) (id : ι) : ¬ req.Frees w.server.fs (w.clients id).cur_i := by
  cases req with
  | rmdir => exact h id
  | _ => exact not_false

/-- One call keeps the current directories. -/
theorem current_directory_step (hshort : 8 * g.table ≤ 2 ^ 15)
    (h : Sound g w.server ∧ ∀ id, w.server.DirInUse g (w.clients id).cur_i)
    (hmeets : ∀ req, call.message (w.clients id) = some req → req.Safe g w.server.fs ∧ w.KeepsDirs req)
    (hs : w.step id call = some (resp, w')) : Sound g w'.server ∧ ∀ id, w'.server.DirInUse g (w'.clients id).cur_i := by
  obtain ⟨hsound, hdirs⟩ := h
  rcases World.step_cases hs with ⟨c, htalk, rfl⟩ | ⟨req, k, r, sv, htalk, hserve, rfl, rfl⟩
  · refine ⟨hsound, fun id' => ?_⟩
    have hc : c.cur_i = (w.clients id).cur_i := by
      rcases Call.returns htalk with he | ⟨_, _, _, he⟩
      · exact congrArg Client.cur_i he
      · have := congrArg Client.cur_i he
        exact this
    dsimp only
    by_cases hid : id' = id
    · subst hid
      rw [Function.update_self, hc]
      exact hdirs id'
    · rw [Function.update_of_ne hid]
      exact hdirs id'
  · obtain ⟨hsafe, hkeeps⟩ := hmeets req (Call.message_of_sends htalk)
    have hstays : ∀ id', sv.DirInUse g (w.clients id').cur_i := fun id' =>
      (hdirs id').step hsound hshort hsafe hserve (hkeeps.not_frees id')
    refine ⟨(hsound.step hshort hsafe hserve).1, fun id' => ?_⟩
    dsimp only
    by_cases hid : id' = id
    case neg =>
      rw [Function.update_of_ne hid]
      exact hstays id'
    case pos =>
      subst hid
      rw [Function.update_self]
      rcases (Call.goes htalk r.ret).cur_i with he | ⟨⟨path, rfl⟩, hne, he⟩
      · rw [he]
        exact hstays id'
      · rw [he]
        cases path with
        | none =>
          obtain ⟨rfl, rfl⟩ := Prod.mk.inj (Option.some.inj hserve)
          exact absurd rfl hne
        | some path =>
          have hcur := hdirs id'
          have hret := chdir_returns hsound hcur.isInode (by have := hcur.range; omega) hserve
          unfold opens at hret
          split at hret
          · exact absurd hret hne
          case isFalse h0 =>
            obtain ⟨hdir, hfree⟩ := hkeeps _ rfl h0
            have hi : g.isInode (w.server.fs.resolve (from_root path (w.clients id').cur_i).1 (from_root path (w.clients id').cur_i).2) :=
              hsound.wellFormed.resolve_isInode (from_root_isInode path g.isInode_root hcur.isInode)
            rw [hret]
            refine Server.DirInUse.step ⟨?_, hdir, hfree⟩ hsound hshort hsafe hserve id
            have := hi.1
            have := hi.2
            omega

/-- **The current directory is a directory.** In a run of safe calls whose `ChDir`s find directories and whose `RmDir`s remove
nobody's current directory, every client stays in a directory that is not free. -/
theorem current_directory (hshort : 8 * g.table ≤ 2 ^ 15) (hstart : Sound g w.server) (hroot : w.server.fs.isDir ROOTINODE)
    (hfree : ROOTINODE ∉ w.server.i_head) (hcur : ∀ id, (w.clients id).cur_i = ROOTINODE)
    (hmeets : w.meets (fun w req => req.Safe g w.server.fs ∧ w.KeepsDirs req) calls) (hrun : w.after calls = some w') (id : ι) :
    w'.server.DirInUse g (w'.clients id).cur_i := by
  have hstart : Sound g w.server ∧ ∀ id, w.server.DirInUse g (w.clients id).cur_i := by
    refine ⟨hstart, fun id => ?_⟩
    rw [hcur id]
    have := g.inodes_pos
    exact ⟨⟨by decide, by rw [ROOTINODE]; omega⟩, hroot, hfree⟩
  exact (World.after_induction (I := fun w => Sound g w.server ∧ ∀ id, w.server.DirInUse g (w.clients id).cur_i) hstart hmeets hrun
    fun _ _ _ _ _ _ h hp hs => current_directory_step hshort h hp hs).2 id

/-- One process and the server that has just started. -/
def smallWorld : World Unit := { server := smallStart, clients := fun _ => Client.start 16 }

theorem current_directory_root : ∃ w, smallWorld.after [((), .create (some [SLASH, 97])), ((), .chdir (some [SLASH, DOT]))] = some w ∧
    w.server.DirInUse smallDisk.geometry (w.clients ()).cur_i := by
  obtain ⟨w, hrun, _⟩ := Option.map_eq_some_iff.mp (show (smallWorld.after [((), .create (some [SLASH, 97])),
    ((), .chdir (some [SLASH, DOT]))]).map (fun _ => ()) = some () by decide +kernel)
  have hmid : (smallWorld.step () (.create (some [SLASH, 97]))).map (fun r => decide ((r.2.clients ()).cur_i = 1 ∧
    r.2.server.fs.resolve [DOT] ROOTINODE = 1 ∧ r.2.server.fs.type 1 = INODE_DIRECTORY ∧ 1 ∉ r.2.server.i_head)) = some true := by
      decide +kernel
  refine ⟨w, hrun, current_directory (by decide) smallStart_sound.1 (by decide +kernel) (by decide) (fun _ => rfl) ?_ hrun ()⟩
  refine ⟨?_, fun resp w₁ hs => ⟨?_, fun _ _ _ => trivial⟩⟩
  · rintro req hreq
    obtain rfl := Option.some.inj hreq
    exact ⟨smallStart_sound.2.safe_create (by decide), trivial⟩
  · rintro req hreq
    rw [hs] at hmid
    obtain ⟨hcur, hres, hdir, hfree⟩ := of_decide_eq_true (Option.some.inj hmid)
    obtain rfl := Option.some.inj hreq
    rw [hcur]
    refine ⟨⟨by decide, by decide⟩, fun i hi _ => ?_⟩
    have hroot : from_root [SLASH, DOT] 1 = ([DOT], ROOTINODE) := by decide
    rw [hroot, hres] at hi
    subst hi
    exact ⟨hdir, hfree⟩

/-- `ChDir` goes into a file. -/
theorem chdir_into_file : Sound smallDisk.geometry smallStart ∧
    ∃ w, smallWorld.after [((), .create (some [SLASH, 97])), ((), .chdir (some [SLASH, 97]))] = some w ∧
      ¬ w.server.DirInUse smallDisk.geometry (w.clients ()).cur_i := by
  refine ⟨smallStart_sound.1, ?_⟩
  obtain ⟨w, hrun, h⟩ := Option.map_eq_some_iff.mp (show (smallWorld.after [((), .create (some [SLASH, 97])),
    ((), .chdir (some [SLASH, 97]))]).map (fun w => decide (w.server.fs.type (w.clients ()).cur_i = INODE_REGULAR)) = some true
      by decide +kernel)
  refine ⟨w, hrun, fun hd => ?_⟩
  have hdir : w.server.fs.type (w.clients ()).cur_i = INODE_DIRECTORY := hd.isDir
  rw [of_decide_eq_true h] at hdir
  exact absurd hdir (by decide)

end Yfs
