import Yfs.Accounts
import Yfs.Descriptors
import Yfs.LinkCounts

/-! # Processes and their server

The library names only what is in use, so what a run asks of its calls is little.
-/

namespace Yfs

variable {ι : Type} [DecidableEq ι] {g : Geometry} {f : DiskFormat} {fresh_dirty : Nat → Bool} {σ : FS} {sv sv₀ sv' : Server} {w w' : World ι}
  {id : ι} {call : Call} {calls : List (ι × Call)} {c : Client} {resp : Response} {req : Request} {k : Int → Int × Client}
  {r : Int × Client} {cur i : Int} {path : CStr}

/-! ## What a client names -/

/-- The message names the client's current directory, or a file that the client has open. -/
def Request.From (c : Client) : Request → Prop
  | .open _ cur | .create _ cur | .unlink _ cur | .mkdir _ cur | .rmdir _ cur | .chdir _ cur | .stat _ cur _ => cur = c.cur_i
  | .link old_name _ cur => cur = c.cur_i ∧ old_name ≠ none
  | .read i _ _ pos | .write i _ _ pos | .seek i _ _ pos => ∃ fd, c.file fd = some { i_num := i, pos := pos }
  | .sync => True

theorem Call.from_client (h : call.talk c = .sends req k) : req.From c := by
  cases call with
  | «open» | create | unlink | mkdir | rmdir | chdir =>
    obtain ⟨rfl, rfl⟩ := send_path_m_sends h
    rfl
  | close =>
    simp only [Call.talk, Iolib.Close] at h
    split at h <;> cases h
  | read | write =>
    simp only [Call.talk, Iolib.Read, Iolib.Write] at h
    split at h
    · cases h
    case h_2 hfile =>
      obtain ⟨rfl, rfl⟩ := send_file_m_sends h
      exact ⟨_, hfile⟩
  | seek =>
    simp only [Call.talk, Iolib.Seek] at h
    split at h
    · cases h
    case h_2 hfile =>
      split at h
      · cases h
      split at h
      · cases h
      obtain ⟨rfl, rfl⟩ := Talk.sends.inj h
      exact ⟨_, hfile⟩
  | link =>
    simp only [Call.talk, Iolib.Link] at h
    split at h
    · cases h
    case isFalse hlen =>
      split at h
      · cases h
      obtain ⟨rfl, rfl⟩ := Talk.sends.inj h
      exact ⟨rfl, fun hnone => hlen (by rw [hnone]; rfl)⟩
  | stat =>
    simp only [Call.talk, Iolib.Stat] at h
    split at h
    · cases h
    split at h
    · cases h
    obtain ⟨rfl, rfl⟩ := Talk.sends.inj h
    rfl
  | sync =>
    obtain ⟨rfl, rfl⟩ := Talk.sends.inj h
    trivial

/-! ## Fair messages -/

/-- Nobody's current directory, and no file that is open. -/
def World.Unheld (w : World ι) (i : Int) : Prop :=
  ∀ id, (w.clients id).cur_i ≠ i ∧ ∀ fd file, (w.clients id).file fd = some file → file.i_num ≠ i

/-- The condition on a message and the state before it: what neither the library nor the handlers check. -/
def World.Fair (g : Geometry) (w : World ι) : Request → Prop
  | .create (some path) cur => w.server.fs.RoomAt g path cur ∧ 0 ∉ path ∧ ∀ d name, w.server.fs.superDir path cur = (d, name) →
    w.server.fs.isDir d → (w.server.fs.lookup d name = 0 → w.server.fs.nextInode ≠ 0) ∧
      (w.server.fs.lookup d name ≠ 0 → ¬ w.server.fs.isDir (w.server.fs.lookup d name))
  | .write i buf size offset => w.server.fs.WriteOk g i buf size offset ∧ ∀ m : Nat, offset / 512 ≤ m → m < 140 →
    512 * (m : Int) < offset + size → w.server.fs.covers i m ∨ chunkMapped buf size offset m
  | .link (some old_name) (some new_name) cur =>
    w.server.fs.RoomAt g (adj_path_i new_name (adj_path_i old_name cur).2).1 (adj_path_i new_name (adj_path_i old_name cur).2).2 ∧
      0 ∉ new_name ∧ w.server.fs.nlink (w.server.fs.resolve (adj_path_i old_name cur).1 (adj_path_i old_name cur).2) + 1 < 2 ^ 15
  | .unlink (some path) cur => ∀ d name, w.server.fs.superDir path cur = (d, name) → w.server.fs.isDir d →
    w.server.fs.lookup d name ≠ 0 → ¬ w.server.fs.isDir (w.server.fs.lookup d name)
  | .mkdir (some path) cur => w.server.fs.DirAt g (from_root path cur).1 (from_root path cur).2 ∧
    w.server.fs.NewDirAt g (from_root path cur).1 (from_root path cur).2 ∧ 0 ∉ path ∧
    ∀ d name, w.server.fs.superDir (from_root path cur).1 (from_root path cur).2 = (d, name) → w.server.fs.lookup d name = 0 →
      w.server.fs.nextInode ≠ 0 ∧ (w.server.fs.block (w.server.fs.headDirBlock d name)).NamesEnd
  | .rmdir (some path) cur => ∀ i, w.server.fs.resolve (from_root path cur).1 (from_root path cur).2 = i → w.server.fs.size i ≤ 64 →
    (w.server.fs.dropDir i).DirAt g (from_root path cur).1 (from_root path cur).2 ∧ i ≠ 0 ∧ i ≠ ROOTINODE ∧ w.server.fs.isDir i ∧
      w.Unheld i ∧ ∀ d name, (w.server.fs.dropDir i).superDir (from_root path cur).1 (from_root path cur).2 = (d, name) → d ≠ ERROR →
        d ≠ i ∧ w.server.fs.lookup d name = i
  | .chdir (some path) cur => ∀ i, w.server.fs.resolve (from_root path cur).1 (from_root path cur).2 = i → i ≠ 0 → w.server.fs.isDir i
  | _ => True

/-! ## What clients hold -/

/-- The server's directories are a tree, and what every client holds is in use. -/
structure World.Kept (g : Geometry) (w : World ι) : Prop extends Sound g w.server where
  planted : w.server.fs.Planted g
  dirs : ∀ id, w.server.fs.Taken g (w.clients id).cur_i ∧ w.server.fs.isDir (w.clients id).cur_i
  files : ∀ id fd file, (w.clients id).file fd = some file → w.server.fs.Taken g file.i_num

theorem dirInUse_iff : sv.DirInUse g i ↔ sv.fs.Taken g i ∧ sv.fs.isDir i := by
  constructor
  · rintro ⟨⟨h1, h2⟩, hdir, hused⟩
    exact ⟨⟨⟨by omega, by omega⟩, hused, by omega⟩, hdir⟩
  · rintro ⟨⟨hi, hused, h0⟩, hdir⟩
    have := hi.1
    have := hi.2
    exact ⟨⟨by omega, by omega⟩, hdir, hused⟩

/-- A walk from an inode in use. -/
theorem FS.Planted.resolve (h : σ.Planted g) (hcur : σ.Taken g cur) (h0 : σ.resolve (from_root path cur).1 (from_root path cur).2 ≠ 0) :
    σ.Taken g (σ.resolve (from_root path cur).1 (from_root path cur).2) :=
  h.walk (from_root_start ▸ h.start hcur) h0

omit [DecidableEq ι] in
/-- What the requests ask of the server's state. -/
theorem World.Kept.meets (hinv : w.Kept g) (hfrom : req.From (w.clients id)) (hfair : w.Fair g req) :
    req.Safe g w.server.fs ∧ req.KeepsTree g w.server.fs ∧ req.Plain w.server.fs ∧ req.LinksFit w.server.fs ∧
    req.KeepsBlocks g w.server.fs := by
  have ht := hinv.planted
  have hcur := (hinv.dirs id).1
  have hstart (path : CStr) : w.server.fs.Taken g (View.start path (w.clients id).cur_i) := ht.start hcur
  cases req with
  | «open» | chdir | stat =>
    obtain rfl := hfrom
    exact ⟨hcur.1, trivial, trivial, trivial, trivial⟩
  | read | seek =>
    obtain ⟨fd, hfile⟩ := hfrom
    exact ⟨(hinv.files id fd _ hfile).1, trivial, trivial, trivial, trivial⟩
  | sync => exact ⟨trivial, trivial, trivial, trivial, trivial⟩
  | write =>
    obtain ⟨fd, hfile⟩ := hfrom
    have hused := hinv.files id fd _ hfile
    exact ⟨hfair.1, hused.2.2, trivial, trivial, hused, hfair.2⟩
  | create path =>
    cases path with
    | none => exact ⟨trivial, trivial, trivial, trivial, trivial⟩
    | some path =>
      obtain rfl := hfrom
      obtain ⟨hroom, hstr, hname⟩ := hfair
      exact ⟨⟨hcur.1, hroom⟩, ⟨hstart path, fun d name hsup hdir => (hname d name hsup hdir).2⟩, hstr, trivial, trivial⟩
  | link old_name new_name =>
    cases old_name with
    | none => exact absurd rfl hfrom.2
    | some old_name =>
      cases new_name with
      | none => exact ⟨trivial, trivial, trivial, trivial, trivial⟩
      | some new_name =>
        obtain ⟨rfl, _⟩ := hfrom
        obtain ⟨hroom, hstr, hfits⟩ := hfair
        exact ⟨⟨hcur.1, hroom⟩, hstart old_name, hstr, hfits, trivial⟩
  | unlink path =>
    cases path with
    | none => exact ⟨trivial, trivial, trivial, trivial, trivial⟩
    | some path =>
      obtain rfl := hfrom
      exact ⟨hcur.1, ⟨hstart path, hfair⟩, trivial, trivial, trivial⟩
  | mkdir path =>
    cases path with
    | none => exact ⟨trivial, trivial, trivial, trivial, trivial⟩
    | some path =>
      obtain rfl := hfrom
      obtain ⟨hat, hnew, hstr, hname⟩ := hfair
      exact ⟨⟨hcur.1, hat, hnew⟩, ⟨hstart path, fun d name hsup h0 => (hname d name hsup h0).1⟩,
        ⟨hstr, fun d name hsup h0 => (hname d name hsup h0).2⟩, trivial, trivial⟩
  | rmdir path =>
    cases path with
    | none => exact ⟨trivial, trivial, trivial, trivial, trivial⟩
    | some path =>
      obtain rfl := hfrom
      refine ⟨⟨hcur.1, fun hsize => (hfair _ rfl hsize).1⟩, ⟨hstart path, fun i hi hsize => ?_⟩, trivial, trivial, trivial⟩
      obtain ⟨_, h0, hroot, hdir, _, hname⟩ := hfair i hi hsize
      subst hi
      exact ⟨ht.resolve hcur h0, hdir, hroot, hname⟩

omit [DecidableEq ι] in
/-- A request frees nothing that a client holds. -/
theorem World.Fair.not_frees (hfair : w.Fair g req) (hheld : ¬ w.Unheld i) : ¬ req.Frees w.server.fs i := fun hf => by
  cases req with
  | rmdir path =>
    cases path with
    | none => exact hf
    | some path => exact hheld (hfair i hf.2.1 hf.2.2).2.2.2.2.1
  | _ => exact hf

/-! ## What the server names -/

section

variable (h : Sound g sv) (ht : sv.fs.Planted g) (hcur : sv.fs.Taken g cur) {pathname : Option CStr}
include h ht hcur

/-- What `open` and `chdir` answer is in use. -/
theorem looked_taken (hreq : req = .open pathname cur ∨ req = .chdir pathname cur) (hs : serve sv req = some (resp, sv')) (hne : resp.ret ≠ ERROR) :
    sv.fs.Taken g resp.ret := by
  have hpos : 0 < cur := by
    have := hcur.1.1
    have := hcur.2.2
    omega
  cases pathname with
  | none =>
    rcases hreq with rfl | rfl <;> obtain ⟨rfl, rfl⟩ := Prod.mk.inj (Option.some.inj hs) <;> exact absurd rfl hne
  | some path =>
    have hret : resp.ret = opens (sv.fs.resolve (from_root path cur).1 (from_root path cur).2) := by
      rcases hreq with rfl | rfl
      · obtain ⟨h0, hres⟩ := open_returns h hcur.1 hs hne
        rw [hres]
        exact (if_neg h0).symm
      · exact chdir_returns h hcur.1 hpos hs
    unfold opens at hret
    split at hret
    · exact absurd hret hne
    case isFalse h0 => exact hret ▸ ht.resolve hcur h0

end

/-- What `create` answers is in use. -/
theorem Created.taken {τ : FS} {ret : Int} (h : Created σ path cur (-1) ret τ) (hw : WellFormed g σ) (ht : σ.Planted g) (hcur : σ.Taken g cur)
    (hnew : ∀ d name, σ.superDir path cur = (d, name) → σ.isDir d → σ.lookup d name = 0 → σ.nextInode ≠ 0) (hne : ret ≠ ERROR) : τ.Taken g ret := by
  cases h with
  | error => exact absurd rfl hne
  | done _ hsup hd hdir h =>
    have hd := ht.superDir (ht.start hcur) hsup hd
    cases h with
    | taken => exact absurd rfl hne
    | linked _ _ hn => exact absurd rfl hn
    | truncated hk h0 =>
      rw [← lookup_some hk] at h0 ⊢
      exact ht.next (.inl hd) hdir h0
    | made hp h0 =>
      rw [hp.nextInode]
      exact (taken_tail ht.nodup hw.nextInode (hnew _ _ hsup hdir (hp.lookup_zero h0)) (by rw [newFile_i_head, hp.i_head])).mpr (.inr rfl)

omit [DecidableEq ι] in
/-- What `open`, `create` and `chdir` answer is in use in the next state. -/
theorem World.Kept.named (hinv : w.Kept g) (hshort : 8 * g.table ≤ 2 ^ 15) (hfrom : req.From (w.clients id)) (hfair : w.Fair g req)
    {pathname : Option CStr} (hreq : req = .open pathname cur ∨ req = .create pathname cur ∨ req = .chdir pathname cur)
    (hs : serve w.server req = some (resp, sv')) (hne : resp.ret ≠ ERROR) : sv'.fs.Taken g resp.ret := by
  obtain ⟨hsafe, _⟩ := hinv.meets hfrom hfair
  have hsound := hinv.toSound
  have ht := hinv.planted
  have hcur : w.server.fs.Taken g cur := by
    rcases hreq with rfl | rfl | rfl <;> exact hfrom ▸ (hinv.dirs id).1
  obtain ⟨_, σ', heff, _, hagree⟩ := hsound.step hshort hsafe hs
  refine (taken_same (congrArg Globals.i_head hagree.globals)).mpr ?_
  have hlooked (hl : req.looks = true) (hreq : req = .open pathname cur ∨ req = .chdir pathname cur) : σ'.Taken g resp.ret := by
    rw [heff.of_looks hl]
    exact looked_taken hsound ht hcur hreq hs hne
  rcases hreq with rfl | rfl | rfl
  · exact hlooked rfl (.inl rfl)
  · generalize resp.ret = ret at heff hne
    cases heff with
    | looked h => cases h
    | refused => exact absurd rfl hne
    | create h => exact h.taken hsound.wellFormed ht hcur (fun d name hsup hdir => (hfair.2.2 d name hsup hdir).1) hne
  · exact hlooked rfl (.inr rfl)

omit [DecidableEq ι] in
/-- The round itself: what the clients hold is not freed, and keeps its type. -/
theorem World.Kept.served (hinv : w.Kept g) (hshort : 8 * g.table ≤ 2 ^ 15) (hfrom : req.From (w.clients id)) (hfair : w.Fair g req)
    (hs : serve w.server req = some (resp, sv')) : World.Kept g { server := sv', clients := w.clients } ∧
      ∀ i, w.server.fs.Taken g i → w.server.fs.isDir i → sv'.fs.isDir i := by
  obtain ⟨hsafe, hkeeps, _⟩ := hinv.meets hfrom hfair
  have hsound := hinv.toSound
  have ht := hinv.planted
  obtain ⟨hsound', σ', heff, _, hagree⟩ := hsound.step hshort hsafe hs
  have hheld : ∀ i, ¬ w.Unheld i → w.server.fs.Taken g i → sv'.fs.Taken g i := fun i hheld hi =>
    (taken_same (congrArg Globals.i_head hagree.globals)).mpr
      ⟨hi.1, fun hm => (heff.frees hsound.wellFormed hsafe hm).elim hi.2.1 (hfair.not_frees hheld), hi.2.2⟩
  have htype : ∀ i, w.server.fs.Taken g i → w.server.fs.isDir i → sv'.fs.isDir i := fun i hi hdir =>
    (congrArg Inode.type (hagree.inode i hi.1)).trans ((heff.type hi.2.1 hi.2.2).trans hdir)
  refine ⟨⟨hsound', serve_planted hsound hshort ht hsafe hkeeps hs, fun id => ?_, fun id fd file hfile => ?_⟩, htype⟩
  · obtain ⟨hused, hdir⟩ := hinv.dirs id
    exact ⟨hheld _ (fun hu => (hu id).1 rfl) hused, htype _ hused hdir⟩
  · exact hheld _ (fun hu => (hu id).2 fd file hfile rfl) (hinv.files id fd file hfile)

omit [DecidableEq ι] in
/-- The inode of a directory that `chdir` answers. -/
theorem World.Kept.entered {path : Option CStr} (hinv : w.Kept g) (hcur : w.server.fs.Taken g cur) (hfair : w.Fair g (.chdir path cur))
    (hs : serve w.server (.chdir path cur) = some (resp, sv')) (hne : resp.ret ≠ ERROR) :
    w.server.fs.Taken g resp.ret ∧ w.server.fs.isDir resp.ret := by
  have hused := looked_taken hinv.toSound hinv.planted hcur (.inr rfl) hs hne
  refine ⟨hused, ?_⟩
  cases path with
  | none =>
    obtain ⟨rfl, rfl⟩ := Prod.mk.inj (Option.some.inj hs)
    exact absurd rfl hne
  | some path =>
    have hret := chdir_returns hinv.toSound hcur.1 (by have := hcur.1.1; have := hcur.2.2; omega) hs
    unfold opens at hret
    split at hret
    · exact absurd hret hne
    case isFalse h0 => exact hret ▸ hfair _ rfl h0

/-- A client that holds what is in use. -/
theorem World.Kept.update (hinv : w.Kept g) (id : ι) (hdir : w.server.fs.Taken g c.cur_i ∧ w.server.fs.isDir c.cur_i)
    (hfiles : ∀ fd file, c.file fd = some file → w.server.fs.Taken g file.i_num) :
    World.Kept g { w with clients := Function.update w.clients id c } := by
  refine ⟨hinv.toSound, hinv.planted, fun id' => ?_, fun id' fd file hfile => ?_⟩ <;> dsimp only at * <;> by_cases hid : id' = id
  · subst hid
    rwa [Function.update_self]
  · rw [Function.update_of_ne hid]
    exact hinv.dirs id'
  · subst hid
    rw [Function.update_self] at hfile
    exact hfiles fd file hfile
  · rw [Function.update_of_ne hid] at hfile
    exact hinv.files id' fd file hfile

/-- One call of a process. -/
theorem World.Kept.step (hinv : w.Kept g) (hshort : 8 * g.table ≤ 2 ^ 15)
    (hfair : ∀ req, call.message (w.clients id) = some req → w.Fair g req) (hs : w.step id call = some (resp, w')) : w'.Kept g := by
  rcases World.step_cases hs with ⟨c, htalk, rfl⟩ | ⟨req, k, r, sv, htalk, hserve, rfl, rfl⟩
  · rcases Call.returns htalk with he | ⟨_, _, _, he⟩
    · obtain rfl : c = w.clients id := he
      exact hinv.update id (hinv.dirs id) (hinv.files id)
    · obtain rfl : c = _ := he
      exact hinv.update id (hinv.dirs id) fun fd file hfile => hinv.files id fd file (closed_file hfile)
  · have hfair := hfair req (Call.message_of_sends htalk)
    have hfrom := Call.from_client htalk
    have hgoes := Call.goes htalk r.ret
    obtain ⟨hserved, htype⟩ := hinv.served hshort hfrom hfair hserve
    refine hserved.update id ?_ fun fd file hfile => ?_
    · rcases hgoes.cur_i with he | ⟨⟨path, rfl⟩, hne, he⟩ <;> rw [he]
      · exact hserved.dirs id
      · obtain ⟨hused, hdir⟩ := hinv.entered (hinv.dirs id).1 hfair hserve hne
        exact ⟨hinv.named hshort hfrom hfair (.inr (.inr rfl)) hserve hne, htype _ hused hdir⟩
    · rcases hgoes.source hfile with ⟨old, hold, he⟩ | ⟨⟨path, hreq⟩, hne, he⟩
      · rw [← he]
        exact hserved.files id fd old hold
      · rw [he]
        exact hinv.named hshort hfrom hfair (hreq.imp_right .inl) hserve hne

/-! ## Runs from a new disk -/

/-- The server that has just booted from a new disk, and processes that have made no call yet. -/
def Server.world (sv : Server) (max_open_files : Nat) (ι : Type) : World ι := { server := sv, clients := fun _ => Client.start max_open_files }

omit [DecidableEq ι] in
theorem start_kept {n : Nat} (h : Sound g sv) (ht : sv.fs.Planted g) : (sv.world n ι).Kept g :=
  ⟨h, ht, fun _ => ht.tree.root, fun _ fd _ hfile => absurd ((start_file n fd).symm.trans hfile) (by simp)⟩

/-- A call of a process sends at most one message. -/
theorem World.step_serves {I : Server → Prop} (hs : w.step id call = some (resp, w')) (h : I w.server)
    (hserve : ∀ req r sv, call.message (w.clients id) = some req → req.From (w.clients id) → serve w.server req = some (r, sv) → I sv) :
    I w'.server := by
  rcases World.step_cases hs with ⟨c, _, rfl⟩ | ⟨req, k, r, sv, htalk, hround, _, rfl⟩
  · exact h
  · exact hserve req r sv (Call.message_of_sends htalk) (Call.from_client htalk) hround

/-- What holds in every state of the system. -/
structure World.SystemOk (g : Geometry) (w : World ι) : Prop where
  tree : w.server.fs.DirTree g
  links : w.server.fs.LinksExact g
  blocks : BlocksBalance g w.server.fs
  dirs : ∀ id, w.server.fs.isDir (w.clients id).cur_i ∧ w.server.fs.Reached (w.clients id).cur_i
  files : ∀ id fd file, (w.clients id).file fd = some file → w.server.fs.Taken g file.i_num

end Yfs
