import Yfs.Clients

/-! # Descriptors and their files -/

namespace Yfs

variable {ι : Type} [DecidableEq ι] {g : Geometry} {w w' : World ι} {id : ι} {call : Call} {calls : List (ι × Call)}
  {c c' : Client} {resp : Response} {req : Request} {ret fd : Int} {file : OpenedFile}

/-! ## The table -/

theorem file_set (c : Client) (n : Nat) (x : Option OpenedFile) (fd : Int) :
    Client.file { c with opened_ft := c.opened_ft.set n x } fd =
      if fd = n ∧ n < c.opened_ft.length then x else c.file fd := by
  unfold Client.file
  rw [List.length_set]
  by_cases hout : fd < 0 ∨ fd ≥ c.opened_ft.length
  · rw [if_pos hout, if_pos hout, if_neg (by omega)]
  · rw [if_neg hout, if_neg hout, List.getElem?_set]
    split
    case isTrue h =>
      rw [if_pos (by omega), if_pos (by omega)]
      rfl
    case isFalse h => rw [if_neg (by omega)]

theorem file_range (h : c.file fd = some file) : 0 ≤ fd ∧ fd < c.opened_ft.length := by
  unfold Client.file at h
  split at h
  · cases h
  · omega

/-- `install` takes a place that is free. -/
theorem install_file (i : Int) : (c.install i).1 = ERROR ∧ (c.install i).2 = c ∨
    (c.install i).1 ≠ ERROR ∧ c.file (c.install i).1 = none ∧ ∀ fd, (c.install i).2.file fd =
      if fd = (c.install i).1 then some { i_num := i, pos := 0 } else c.file fd := by
  unfold Client.install
  split
  case h_1 => exact .inl ⟨rfl, rfl⟩
  case h_2 n hn =>
    obtain ⟨hlt, hnone, _⟩ := List.findIdx?_eq_some_iff_getElem.mp hn
    refine .inr ⟨by rw [ERROR]; omega, ?_, fun fd => ?_⟩
    · unfold Client.file
      rw [if_neg (by omega), Int.toNat_natCast, List.getElem?_eq_getElem hlt, Option.isNone_iff_eq_none.mp hnone]
      rfl
    · rw [file_set]
      simp [hlt]

theorem setPos_file {pos : Int} (h : c.file fd = some file) (fd' : Int) : (c.setPos fd file pos).file fd' =
    if fd' = fd then some { file with pos } else c.file fd' := by
  have hrange := file_range h
  unfold Client.setPos
  rw [file_set]
  by_cases hfd : fd' = fd
  · rw [if_pos (by omega), if_pos hfd]
  · rw [if_neg (by omega), if_neg hfd]

/-- A descriptor that is in use keeps its inode. -/
theorem Client.Goes.keeps (h : c.Goes req ret c') (hfile : c.file fd = some file) :
    ∃ file', c'.file fd = some file' ∧ file'.i_num = file.i_num := by
  cases h with
  | same => exact ⟨file, hfile, rfl⟩
  | opened =>
    rcases install_file (c := c) ret with ⟨_, he⟩ | ⟨_, hnone, he⟩
    · rw [he]
      exact ⟨file, hfile, rfl⟩
    · refine ⟨file, ?_, rfl⟩
      rw [he, if_neg, hfile]
      rintro rfl
      rw [hnone] at hfile
      cases hfile
  | moved hmoved =>
    rw [setPos_file hmoved]
    split
    case isTrue heq =>
      subst heq
      rw [hmoved] at hfile
      obtain rfl := Option.some.inj hfile
      exact ⟨_, rfl, rfl⟩
    case isFalse => exact ⟨file, hfile, rfl⟩
  | entered => exact ⟨file, hfile, rfl⟩

/-- A descriptor's inode is one that it had, or the one that the server has just named. -/
theorem Client.Goes.source (h : c.Goes req ret c') (hfile : c'.file fd = some file) :
    (∃ old, c.file fd = some old ∧ old.i_num = file.i_num) ∨
      (∃ path, req = .open path c.cur_i ∨ req = .create path c.cur_i) ∧ ret ≠ ERROR ∧ file.i_num = ret := by
  cases h with
  | same => exact .inl ⟨file, hfile, rfl⟩
  | opened h hne =>
    rcases install_file (c := c) ret with ⟨_, he⟩ | ⟨_, _, he⟩
    · rw [he] at hfile
      exact .inl ⟨file, hfile, rfl⟩
    · rw [he] at hfile
      split at hfile
      · obtain rfl := Option.some.inj hfile
        exact .inr ⟨h, hne, rfl⟩
      · exact .inl ⟨file, hfile, rfl⟩
  | moved hmoved =>
    rw [setPos_file hmoved] at hfile
    split at hfile
    case isTrue heq =>
      subst heq
      obtain rfl := Option.some.inj hfile
      exact .inl ⟨_, hmoved, rfl⟩
    case isFalse => exact .inl ⟨file, hfile, rfl⟩
  | entered => exact .inl ⟨file, hfile, rfl⟩

/-! ## What the server names -/

/-- What `open` answers. -/
theorem open_returns {sv sv' : Server} {path : CStr} {cur : Int} (h : Sound g sv) (hcur : g.isInode cur)
    (hs : serve sv (.open (some path) cur) = some (resp, sv')) (hne : resp.ret ≠ ERROR) :
    resp.ret ≠ 0 ∧ sv.fs.resolve (from_root path cur).1 (from_root path cur).2 = resp.ret := by
  by_cases hpos : 0 < cur
  · have hw : wp g (Request.open (some path) cur).handler sv.fs fun resp _ =>
        resp.ret = opens (sv.fs.resolve (from_root path cur).1 (from_root path cur).2) :=
      wp_bind.mpr (wp_mono (fun r _ hr => wp_pure hr) (handle_open_result h.wellFormed hcur hpos))
    obtain ⟨_, hr, _⟩ := run_sound h.caches.rel hw hs
    unfold opens at hr
    split at hr
    · exact absurd hr hne
    case isFalse h0 => exact ⟨hr ▸ h0, hr.symm⟩
  · have hw : wp g (Request.open (some path) cur).handler sv.fs fun resp _ => resp.ret = ERROR := by
      refine wp_bind.mpr ?_
      unfold handle_open
      dsimp only
      rw [if_pos (by omega)]
      exact wp_pure (wp_pure rfl)
    obtain ⟨_, hr, _⟩ := run_sound h.caches.rel hw hs
    exact absurd hr hne

/-- The condition on a message and the state before it: `open` and `create` find no inode that is free, `create` takes one that
is on the free list once, and `rmdir` frees none that a descriptor holds. -/
def World.KeepsFiles (w : World ι) : Request → Prop
  | .open (some path) cur => ∀ i, w.server.fs.resolve (from_root path cur).1 (from_root path cur).2 = i → i ≠ 0 →
    i ∉ w.server.i_head
  | .create (some path) cur => ∀ d name, w.server.fs.superDir path cur = (d, name) → w.server.fs.isDir d →
    (w.server.fs.lookup d name ≠ 0 → w.server.fs.lookup d name ∉ w.server.i_head) ∧
      (w.server.fs.lookup d name = 0 → w.server.fs.nextInode ∉ w.server.i_head.tail)
  | .rmdir pathname cur => ∀ id fd file, (w.clients id).file fd = some file →
    ¬ (Request.rmdir pathname cur).Frees w.server.fs file.i_num
  | _ => True

omit [DecidableEq ι] in
/-- The inode that the server names is not free. -/
theorem named_in_use {sv : Server} {pathname : Option CStr} {cur : Int} (hsound : Sound g w.server) (hsafe : req.Safe g w.server.fs)
    (hkeeps : w.KeepsFiles req) (hreq : req = .open pathname cur ∨ req = .create pathname cur)
    (hs : serve w.server req = some (resp, sv)) (hne : resp.ret ≠ ERROR) :
    g.isInode resp.ret ∧ resp.ret ∉ sv.i_head := by
  obtain ⟨σ', heff, hrel⟩ := serve_spec hsound.caches.rel hsound.wellFormed g.isInode_root hsafe hs
  rw [show sv.i_head = σ'.i_head from congrArg Globals.i_head hrel.globals]
  rcases hreq with rfl | rfl
  · obtain rfl := heff.of_looks rfl
    cases pathname with
    | none =>
      obtain ⟨rfl, rfl⟩ := Prod.mk.inj (Option.some.inj hs)
      exact absurd rfl hne
    | some path =>
      obtain ⟨h0, hres⟩ := open_returns hsound hsafe hs hne
      exact ⟨hres ▸ hsound.wellFormed.resolve_isInode (from_root_isInode path g.isInode_root hsafe), hkeeps _ hres h0⟩
  · generalize hret : resp.ret = ret at heff hne ⊢
    cases heff with
    | looked h => cases h
    | refused => exact absurd rfl hne
    | create h =>
      cases h with
      | error => exact absurd rfl hne
      | done _ hsup hd hdir h =>
        obtain ⟨hold, hnew⟩ := hkeeps _ _ hsup hdir
        have hd := (hsound.wellFormed.superDir_isInode g.isInode_root hsafe.1 hsup).resolve_left hd
        cases h with
        | taken => exact absurd rfl hne
        | truncated hk h0 =>
          rw [lookup_some hk] at hold
          exact ⟨hsound.wellFormed.entries _ _ hd hdir (findSlot_lt hk), hold h0⟩
        | made hp h0 =>
          rw [newFile_i_head, hp.i_head, hp.nextInode]
          exact ⟨hsound.wellFormed.nextInode, hnew (hp.lookup_zero h0)⟩
        | linked _ _ hn => exact absurd rfl hn

omit [DecidableEq ι] in
theorem World.KeepsFiles.not_frees (h : w.KeepsFiles req) (hfile : (w.clients id).file fd = some file) :
    ¬ req.Frees w.server.fs file.i_num := by
  cases req with
  | rmdir => exact h id fd file hfile
  | _ => exact not_false

/-! ## Runs -/

/-- Every descriptor names an inode that is not free. -/
def World.FilesInUse (g : Geometry) (w : World ι) : Prop :=
  ∀ id fd file, (w.clients id).file fd = some file → g.isInode file.i_num ∧ file.i_num ∉ w.server.i_head

theorem closed_file {n : Nat} (h : Client.file { c with opened_ft := c.opened_ft.set n none } fd = some file) :
    c.file fd = some file := by
  rw [file_set] at h
  split at h
  · cases h
  · exact h

/-- One call keeps the inodes of all descriptors in use. -/
theorem files_in_use_step (hshort : 8 * g.table ≤ 2 ^ 15) (h : Sound g w.server ∧ w.FilesInUse g)
    (hmeets : ∀ req, call.message (w.clients id) = some req → req.Safe g w.server.fs ∧ w.KeepsFiles req)
    (hs : w.step id call = some (resp, w')) : Sound g w'.server ∧ w'.FilesInUse g := by
  obtain ⟨hsound, hfiles⟩ := h
  rcases World.step_cases hs with ⟨c, htalk, rfl⟩ | ⟨req, k, r, sv, htalk, hserve, rfl, rfl⟩
  · refine ⟨hsound, fun id' fd file hfile => ?_⟩
    dsimp only at hfile ⊢
    by_cases hid : id' = id
    case neg =>
      rw [Function.update_of_ne hid] at hfile
      exact hfiles id' fd file hfile
    case pos =>
      subst hid
      rw [Function.update_self] at hfile
      rcases Call.returns htalk with he | ⟨_, _, _, he⟩
      · obtain rfl : c = w.clients id' := he
        exact hfiles id' fd file hfile
      · obtain rfl : c = _ := he
        exact hfiles id' fd file (closed_file hfile)
  · obtain ⟨hsafe, hkeeps⟩ := hmeets req (Call.message_of_sends htalk)
    obtain ⟨hsound', σ', heff, _, hagree⟩ := hsound.step hshort hsafe hserve
    have hstays : ∀ id' fd file, (w.clients id').file fd = some file → g.isInode file.i_num ∧ file.i_num ∉ sv.i_head := by
      intro id' fd file hfile
      obtain ⟨hi, hfree⟩ := hfiles id' fd file hfile
      refine ⟨hi, fun hm => ?_⟩
      rw [show sv.i_head = σ'.i_head from congrArg Globals.i_head hagree.globals] at hm
      exact (heff.frees hsound.wellFormed hsafe hm).elim hfree (hkeeps.not_frees hfile)
    refine ⟨hsound', fun id' fd file hfile => ?_⟩
    dsimp only at hfile ⊢
    by_cases hid : id' = id
    case neg =>
      rw [Function.update_of_ne hid] at hfile
      exact hstays id' fd file hfile
    case pos =>
      subst hid
      rw [Function.update_self] at hfile
      rcases (Call.goes htalk r.ret).source hfile with ⟨old, hold, he⟩ | ⟨⟨path, hreq⟩, hne, he⟩
      · rw [← he]
        exact hstays id' fd old hold
      · rw [he]
        exact named_in_use hsound hsafe hkeeps hreq hserve hne

/-- Descriptor `fd` is open on inode `i`, whose reuse counter is `reuse`. -/
structure World.Holds (w : World ι) (id : ι) (fd i reuse : Int) : Prop where
  file : ∃ file, (w.clients id).file fd = some file ∧ file.i_num = i
  reuse : (w.server.fs.inode i).reuse = reuse

/-- One call other than its `Close` leaves a descriptor on its inode, and the inode what it was. -/
theorem holds_step {id₀ : ι} {i reuse : Int} (hshort : 8 * g.table ≤ 2 ^ 15) (h : Sound g w.server ∧ w.FilesInUse g)
    (hheld : w.Holds id₀ fd i reuse) (hclose : (id, call) ≠ (id₀, .close fd))
    (hmeets : ∀ req, call.message (w.clients id) = some req → req.Safe g w.server.fs ∧ w.KeepsFiles req)
    (hs : w.step id call = some (resp, w')) : w'.Holds id₀ fd i reuse := by
  obtain ⟨hsound, hfiles⟩ := h
  obtain ⟨⟨file, hfile, rfl⟩, rfl⟩ := hheld
  rcases World.step_cases hs with ⟨c, htalk, rfl⟩ | ⟨req, k, r, sv, htalk, hserve, rfl, rfl⟩
  · refine ⟨?_, rfl⟩
    dsimp only
    by_cases hid : id₀ = id
    case neg =>
      rw [Function.update_of_ne hid]
      exact ⟨file, hfile, rfl⟩
    case pos =>
      subst hid
      rw [Function.update_self]
      rcases Call.returns htalk with he | ⟨fd', rfl, hopen, he⟩
      · obtain rfl : c = w.clients id₀ := he
        exact ⟨file, hfile, rfl⟩
      · obtain rfl : c = _ := he
        obtain ⟨file', hfile'⟩ := Option.ne_none_iff_exists'.mp hopen
        have h0 := (file_range hfile').1
        have hne : fd ≠ fd' := by
          rintro rfl
          exact hclose rfl
        refine ⟨file, ?_, rfl⟩
        rw [file_set, if_neg (by omega)]
        exact hfile
  · obtain ⟨hsafe, hkeeps⟩ := hmeets req (Call.message_of_sends htalk)
    obtain ⟨_, σ', heff, _, hagree⟩ := hsound.step hshort hsafe hserve
    obtain ⟨hi, hfree⟩ := hfiles id₀ fd file hfile
    refine ⟨?_, ?_⟩
    · dsimp only
      by_cases hid : id₀ = id
      case neg =>
        rw [Function.update_of_ne hid]
        exact ⟨file, hfile, rfl⟩
      case pos =>
        subst hid
        rw [Function.update_self]
        exact (Call.goes htalk r.ret).keeps hfile
    · dsimp only
      rw [hagree.inode _ hi]
      exact heff.reuse hfree

/-- The installed descriptor is on the inode that the server has named. -/
theorem opened_holds {path : Option CStr} (hopen : call = .open path ∨ call = .create path)
    (hs : w.step id call = some (resp, w')) (hne : resp.ret ≠ ERROR) :
    ∃ i, (w'.clients id).file resp.ret = some { i_num := i, pos := 0 } := by
  have htalk : ∃ operation : Option CStr → Int → Request, call.talk (w.clients id) =
      Iolib.send_path_m operation path (w.clients id) fun i_num =>
        if i_num = ERROR then (ERROR, w.clients id) else (w.clients id).install i_num := by
    rcases hopen with rfl | rfl
    · exact ⟨_, rfl⟩
    · exact ⟨_, rfl⟩
  obtain ⟨operation, htalk⟩ := htalk
  rcases World.step_cases hs with ⟨c, hret, rfl⟩ | ⟨req, k, r, sv, hsends, _, rfl, rfl⟩
  · have := congrArg Prod.fst (send_path_m_returns (htalk.symm.trans hret))
    exact absurd this hne
  · obtain ⟨_, rfl⟩ := send_path_m_sends (htalk.symm.trans hsends)
    dsimp only at hne ⊢
    rw [Function.update_self]
    by_cases hr : r.ret = ERROR
    · rw [if_pos hr] at hne
      exact absurd rfl hne
    · rw [if_neg hr] at hne ⊢
      rcases install_file (c := w.clients id) r.ret with ⟨he, _⟩ | ⟨_, _, he⟩
      · exact absurd he hne
      · exact ⟨r.ret, by rw [he, if_pos rfl]⟩

/-- A transfer names the inode of its descriptor. -/
theorem transfer_message {buf : UserBuf} {size : Int} (hfile : c.file fd = some file) :
    (∀ req, (Call.read fd buf size).message c = some req → req = .read file.i_num buf size file.pos) ∧
      ∀ req, (Call.write fd buf size).message c = some req → req = .write file.i_num buf size file.pos := by
  constructor
  all_goals
    intro req h
    unfold Call.message at h
    split at h
    case h_1 => cases h
    case h_2 req' k htalk =>
      obtain rfl := Option.some.inj h
      simp only [Call.talk, Iolib.Read, Iolib.Write, hfile] at htalk
      exact (send_file_m_sends htalk).1

/-- **A descriptor never changes files.** In a run of safe calls that find no free inode and remove none that a descriptor
holds, a descriptor stays on its inode until it is closed, the reuse counter of the inode stays what it was, and every `Read`
and `Write` through the descriptor acts on that inode. -/
theorem descriptor_keeps_file {w₀ w₁ w₂ w₃ : World ι} {calls₁ calls₂ : List (ι × Call)} {path : Option CStr}
    (hshort : 8 * g.table ≤ 2 ^ 15) (hstart : Sound g w₀.server) (hfiles : w₀.FilesInUse g)
    (hmeets : w₀.meets (fun w req => req.Safe g w.server.fs ∧ w.KeepsFiles req) (calls₁ ++ (id, call) :: calls₂))
    (hrun₁ : w₀.after calls₁ = some w₁) (hopen : call = .open path ∨ call = .create path)
    (hstep : w₁.step id call = some (resp, w₂)) (hfd : resp.ret ≠ ERROR) (hrun₂ : w₂.after calls₂ = some w₃)
    (hclose : (id, .close resp.ret) ∉ calls₂) :
    ∃ i, (w₂.clients id).file resp.ret = some { i_num := i, pos := 0 } ∧
      w₃.Holds id resp.ret i (w₂.server.fs.inode i).reuse ∧
      ∀ (buf : UserBuf) (size : Int) (req : Request),
        ((Call.read resp.ret buf size).message (w₃.clients id) = some req → ∃ pos, req = .read i buf size pos) ∧
        ((Call.write resp.ret buf size).message (w₃.clients id) = some req → ∃ pos, req = .write i buf size pos) := by
  obtain ⟨hmeets₁, hmeets₂⟩ := hmeets.split hrun₁
  have h₁ : Sound g w₁.server ∧ w₁.FilesInUse g :=
    World.after_induction (I := fun w => Sound g w.server ∧ w.FilesInUse g) ⟨hstart, hfiles⟩ hmeets₁ hrun₁
      fun _ _ _ _ _ _ h hp hs => files_in_use_step hshort h hp hs
  have h₂ := files_in_use_step hshort h₁ hmeets₂.1 hstep
  obtain ⟨i, hfile⟩ := opened_holds hopen hstep hfd
  have hholds : (Sound g w₃.server ∧ w₃.FilesInUse g) ∧ w₃.Holds id resp.ret i (w₂.server.fs.inode i).reuse := by
    refine World.after_induction (I := fun w => (Sound g w.server ∧ w.FilesInUse g) ∧
      w.Holds id resp.ret i (w₂.server.fs.inode i).reuse) ⟨h₂, ⟨_, hfile, rfl⟩, rfl⟩ (hmeets₂.2 _ _ hstep) hrun₂ ?_
    intro w id' call' resp' w' hm h hp hs
    exact ⟨files_in_use_step hshort h.1 hp hs, holds_step hshort h.1 h.2 (fun he => hclose (he ▸ hm)) hp hs⟩
  obtain ⟨file, hfile₃, rfl⟩ := hholds.2.file
  refine ⟨file.i_num, hfile, hholds.2, fun buf size req => ⟨fun h => ?_, fun h => ?_⟩⟩
  · exact ⟨_, (transfer_message hfile₃).1 req h⟩
  · exact ⟨_, (transfer_message hfile₃).2 req h⟩

/-- Two processes and the server that has just started. -/
def twoClients : World Bool := { server := smallStart, clients := fun _ => Client.start 16 }

theorem start_file (max_open_files : Nat) (fd : Int) : (Client.start max_open_files).file fd = none := by
  unfold Client.file Client.start
  split
  · rfl
  · rw [List.getElem?_replicate]
    split <;> rfl

theorem twoClients_inUse : twoClients.FilesInUse smallDisk.geometry := fun _ fd file hfile => by
  rw [show (twoClients.clients _).file fd = none from start_file 16 fd] at hfile
  cases hfile

theorem descriptor_keeps_file_sync : ∃ w₂ w₃ resp i, twoClients.step false (.create (some [SLASH, 97])) = some (resp, w₂) ∧
    w₂.after [(true, .sync)] = some w₃ ∧ w₃.Holds false resp.ret i (w₂.server.fs.inode i).reuse := by
  have hstart := smallStart_sound
  have hall : ((twoClients.step false (.create (some [SLASH, 97]))).bind fun r => (r.2.after [(true, .sync)]).map fun _ =>
    decide (r.1.ret ≠ ERROR)) = some true := by decide +kernel
  obtain ⟨⟨resp, w₂⟩, hstep, hall⟩ := Option.bind_eq_some_iff.mp hall
  obtain ⟨w₃, hrun, hfd⟩ := Option.map_eq_some_iff.mp hall
  have hmeets : twoClients.meets (fun w req => req.Safe smallDisk.geometry w.server.fs ∧ w.KeepsFiles req)
      ([] ++ (false, .create (some [SLASH, 97])) :: [(true, .sync)]) := by
    refine ⟨fun req hreq => ?_, fun _ _ _ => ⟨fun req hreq => ?_, fun _ _ _ => trivial⟩⟩
    · obtain rfl := Option.some.inj hreq
      have hsup : smallStart.fs.superDir [SLASH, 97] 1 = (1, [97]) := by decide +kernel
      refine ⟨hstart.2.safe_create (by decide), fun d name hd _ => ?_⟩
      obtain ⟨rfl, rfl⟩ := Prod.mk.inj (hsup.symm.trans hd)
      have hnone : smallStart.fs.lookup 1 [97] = 0 := by decide +kernel
      exact ⟨fun h => absurd hnone h, fun _ => by decide⟩
    · obtain rfl := Option.some.inj hreq
      exact ⟨trivial, trivial⟩
  obtain ⟨i, _, hholds, _⟩ := descriptor_keeps_file (by decide) hstart.1 twoClients_inUse hmeets rfl (.inr rfl) hstep
    (of_decide_eq_true hfd) hrun (by simp)
  exact ⟨w₂, w₃, resp, i, hstep, hrun, hholds⟩

/-- `RmDir` removes the open file, and the next `Create` takes its inode: the descriptor writes into the new file. -/
theorem descriptor_changes_file : Sound smallDisk.geometry twoClients.server ∧ twoClients.FilesInUse smallDisk.geometry ∧
    ∃ w₂ w₃ w₄ resp resp', twoClients.step false (.create (some [SLASH, 97])) = some (resp, w₂) ∧ resp.ret ≠ ERROR ∧
      w₂.after [(true, .rmdir (some [SLASH, 97])), (true, .create (some [SLASH, 98]))] = some w₃ ∧
      w₃.step false (.write resp.ret (filledBuf 1) 1) = some (resp', w₄) ∧ resp'.ret = 1 ∧
      w₄.server.fs.size (w₄.server.fs.lookup ROOTINODE [98]) = 1 ∧
      ¬ ∃ i, (w₂.clients false).file resp.ret = some { i_num := i, pos := 0 } ∧
        w₃.Holds false resp.ret i (w₂.server.fs.inode i).reuse := by
  refine ⟨smallStart_sound.1, twoClients_inUse, ?_⟩
  have hall : ((twoClients.step false (.create (some [SLASH, 97]))).bind fun r =>
    (r.2.after [(true, .rmdir (some [SLASH, 97])), (true, .create (some [SLASH, 98]))]).bind fun w₃ =>
    (w₃.step false (.write r.1.ret (filledBuf 1) 1)).map fun r' => decide (r.1.ret ≠ ERROR ∧ r'.1.ret = 1 ∧
      r'.2.server.fs.size (r'.2.server.fs.lookup ROOTINODE [98]) = 1 ∧
      ((r.2.clients false).file r.1.ret).map OpenedFile.i_num = some 15 ∧
      (w₃.server.fs.inode 15).reuse ≠ (r.2.server.fs.inode 15).reuse)) = some true := by decide +kernel
  obtain ⟨⟨resp, w₂⟩, hstep, hall⟩ := Option.bind_eq_some_iff.mp hall
  obtain ⟨w₃, hrun, hall⟩ := Option.bind_eq_some_iff.mp hall
  obtain ⟨⟨resp', w₄⟩, hwrite, hall⟩ := Option.map_eq_some_iff.mp hall
  obtain ⟨hne, hret, hsize, hfile, hreuse⟩ := of_decide_eq_true hall
  refine ⟨w₂, w₃, w₄, resp, resp', hstep, hne, hrun, hwrite, hret, hsize, ?_⟩
  rintro ⟨i, hi, hholds⟩
  rw [hi] at hfile
  obtain rfl : i = 15 := Option.some.inj hfile
  exact hreuse hholds.reuse

end Yfs
