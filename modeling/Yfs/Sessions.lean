import Yfs.Restart
import Yfs.System
import Yfs.Wire

/-! # Sessions

One server after the other, each with its processes, down to the bytes of their messages.
-/

namespace Yfs

variable {ι : Type} [DecidableEq ι] {f : DiskFormat} {layout : StatLayout} {sv sv' : Server} {disk : Disk} {w w' : World ι} {m m' : Machine ι}
  {e : Event ι} {events : List (Event ι)} {id : ι} {call : Call} {req : Request} {resp : Response} {ret : Int} {rets : List Int} {n : Nat}
  {spaces : ι → Space} {fresh_dirty : Nat → Bool}

/-- The condition on a message: it is fair, and its server may be restarted. -/
structure World.Lawful (f : DiskFormat) (w : World ι) (req : Request) : Prop where
  fair : w.Fair f.geometry req
  marks : req.Marks w.server.fs
  spares : req.SparesHeader w.server.fs
  files : req.WritesFiles w.server.fs

omit [DecidableEq ι] in
theorem World.Lawful.orderly (h : w.Lawful f req) (hkept : w.Kept f.geometry) (hfrom : req.From (w.clients id)) :
    req.Orderly f.geometry w.server.fs := by
  obtain ⟨hsafe, hkeeps, hplain, hfits, _⟩ := hkept.meets hfrom h.fair
  exact ⟨hsafe, hkeeps, hplain, hfits, h.marks, h.spares, h.files⟩

theorem Call.sends_of_message {c : Client} (h : call.message c = some req) : ∃ k, call.talk c = .sends req k := by
  unfold Call.message at h
  split at h
  · cases h
  case h_2 htalk =>
    obtain rfl := Option.some.inj h
    exact ⟨_, htalk⟩

/-! ## What a session keeps -/

/-- What the clients hold is in use, the server may be restarted, and the clients' numbers fit their messages. -/
structure Machine.Lasting (f : DiskFormat) (m : Machine ι) : Prop where
  kept : m.world.Kept f.geometry
  durable : Durable f m.server
  ints : m.Ints

/-- The server that has just booted, and processes that have made no call yet. -/
def Server.machine (sv : Server) (max_open_files : Nat) (spaces : ι → Space) : Machine ι :=
  { server := sv, processes := fun id => { space := spaces id, client := Client.start max_open_files } }

omit [DecidableEq ι] in
theorem Durable.machine (h : Durable f sv) : (sv.machine n spaces).Lasting f :=
  ⟨start_kept h.toSound h.planted, h, fun _ => Client.start_ints⟩

omit [DecidableEq ι] in
theorem Machine.Lasting.safe (h : m.Lasting f) (hlawful : m.sendsOnly layout (World.Lawful f) e.id e.call) :
    m.sendsOnly layout (fun w req => req.Safe f.geometry w.server.fs) e.id e.call := fun call req hcall hreq => by
  obtain ⟨_, htalk⟩ := Call.sends_of_message hreq
  have hfrom : req.From (m.world.clients e.id) := Call.from_client htalk
  exact (h.kept.meets hfrom (hlawful call req hcall hreq).fair).1

/-- One call, in bytes. -/
theorem Machine.Lasting.step (h : m.Lasting f) (hlawful : m.sendsOnly layout (World.Lawful f) e.id e.call) (hs : m.step layout e = some (ret, m')) :
    m'.Lasting f := by
  have hsafe := h.safe hlawful
  rw [step_acts h.kept.toSound f.short h.ints hsafe] at hs
  obtain ⟨_, hints⟩ := acts_keeps h.kept.toSound f.short h.ints hsafe hs
  obtain ⟨call, resp, hcall, hworld, _⟩ := acts_cases hs
  have hkept := h.kept.step f.short (fun req hreq => (hlawful call req hcall hreq).fair) hworld
  refine ⟨hkept, ?_, hints⟩
  exact World.step_serves (I := Durable f) hworld h.durable fun req r sv hmessage hfrom hserve =>
    h.durable.step ((hlawful call req hcall hmessage).orderly h.kept hfrom) hserve

/-- Any calls, in bytes. -/
theorem Machine.Lasting.after (h : m.Lasting f) (hmeets : m.meets layout (World.Lawful f) (events.map fun e => (e.id, e.call)))
    (hrun : m.after layout events = some (rets, m')) : m'.Lasting f := by
  induction events generalizing m rets with
  | nil =>
    obtain ⟨_, rfl⟩ := Prod.mk.inj (Option.some.inj hrun)
    exact h
  | cons e events ih =>
    obtain ⟨hlawful, hnext⟩ := hmeets
    obtain ⟨⟨ret, m₁⟩, hs, hrun⟩ := Option.bind_eq_some_iff.mp hrun
    obtain ⟨⟨rets₁, m₂⟩, hrest, he⟩ := Option.map_eq_some_iff.mp hrun
    obtain ⟨_, rfl⟩ := Prod.mk.inj he
    have hacts : m.acts layout (e.id, e.call) = some (ret, m₁) := (step_acts h.kept.toSound f.short h.ints (h.safe hlawful)).symm.trans hs
    exact ih (h.step hlawful hs) (hnext ret m₁ hacts) hrest

/-! ## Disks -/

/-- A `YFS_SHUTDOWN` message, whoever sends it. -/
theorem round_shutdown {malloc_msg msg_rply : Message} {space : Space} :
    sv.round layout fresh_dirty (Wire.Shutdown malloc_msg) space msg_rply = (handle_shutdown fresh_dirty sv).map .exits := by
  unfold Server.round Wire.Shutdown
  rw [Message.num_setNum (Opcode.num_isInt _), Opcode.ofNum_num]

variable (f ι layout) in
/-- A new disk, or what is left when some process of a session sends the server a `YFS_SHUTDOWN`. -/
inductive DiskFormat.Sessions : Disk → Prop where
  | new (fresh_dirty : Nat → Bool) : Sessions (f.disk fresh_dirty)
  | next {disk disk' : Disk} {sv : Server} {n : Nat} {spaces : ι → Space} {events : List (Event ι)} {rets : List Int} {m : Machine ι}
    {fresh_dirty : Nat → Bool} {malloc_msg msg_rply : Message} {space : Space} (h : Sessions disk) (hboot : boot disk = some sv)
    (hmeets : (sv.machine n spaces).meets layout (World.Lawful f) (events.map fun e => (e.id, e.call)))
    (hrun : (sv.machine n spaces).after layout events = some (rets, m))
    (hdown : m.server.round layout fresh_dirty (Wire.Shutdown malloc_msg) space msg_rply = some (.exits disk')) : Sessions disk'

/-- Every disk of the line boots. -/
theorem DiskFormat.Sessions.boots (h : f.Sessions ι layout disk) : ∃ sv, boot disk = some sv ∧ Durable f sv := by
  induction h with
  | new fresh_dirty =>
    exact (DiskFormat.Lineage.new fresh_dirty).boots
  | next _ hboot hmeets hrun hdown ih =>
    obtain ⟨sv, hboot', hdurable⟩ := ih
    obtain rfl := Option.some.inj (hboot.symm.trans hboot')
    have hafter := (hdurable.machine.after hmeets hrun).durable
    obtain ⟨disk, hdown', hshows⟩ := hafter.shutdown _
    rw [round_shutdown, hdown'] at hdown
    obtain rfl : disk = _ := MainRound.exits.inj (Option.some.inj hdown)
    obtain ⟨sv', hsv', _, hdurable'⟩ := hafter.restart hshows
    exact ⟨sv', hsv', hdurable'⟩

/-- Every state of a session that runs on such a disk. -/
theorem DiskFormat.Sessions.lasting (h : f.Sessions ι layout disk) (hboot : boot disk = some sv)
    (hmeets : (sv.machine n spaces).meets layout (World.Lawful f) (events.map fun e => (e.id, e.call)))
    (hrun : (sv.machine n spaces).after layout events = some (rets, m)) : m.Lasting f := by
  obtain ⟨sv', hboot', hdurable⟩ := h.boots
  obtain rfl := Option.some.inj (hboot.symm.trans hboot')
  exact hdurable.machine.after hmeets hrun

/-! ## Sessions last -/

/-- What holds in every state of every session, and what the next one finds. -/
structure Machine.SessionOk (f : DiskFormat) (layout : StatLayout) (m : Machine ι) : Prop where
  tree : m.server.fs.DirTree f.geometry
  links : m.server.fs.LinksExact f.geometry
  blocks : OwnedOnce f.geometry m.server.fs
  dirs : ∀ id, m.server.fs.isDir (m.processes id).client.cur_i ∧ m.server.fs.Reached (m.processes id).client.cur_i
  files : ∀ id fd file, (m.processes id).client.file fd = some file → m.server.fs.Taken f.geometry file.i_num
  next : ∀ fresh_dirty malloc_msg msg_rply space, ∃ disk sv',
    m.server.round layout fresh_dirty (Wire.Shutdown malloc_msg) space msg_rply = some (.exits disk) ∧ boot disk = some sv' ∧
      m.server.fs.Shows f.geometry sv'.fs ∧ ∀ path cur, f.geometry.isInode cur → sv'.fs.resolve path cur = m.server.fs.resolve path cur

omit [DecidableEq ι] in
theorem create_lawful {path name : CStr} {cur d : Int} (hsup : w.server.fs.superDir path cur = (d, name)) (hroom : w.server.fs.size d % 512 ≠ 0)
    (hfile : ¬ w.server.fs.isDir (w.server.fs.lookup d name)) (hnext : w.server.fs.nextInode ≠ 0) (hstr : 0 ∉ path) :
    w.Lawful f (.create (some path) cur) := by
  have hsame {d' : Int} {name' : CStr} (hsup' : w.server.fs.superDir path cur = (d', name')) : d' = d ∧ name' = name :=
    Prod.mk.inj (hsup'.symm.trans hsup)
  refine ⟨⟨fun d' _ hsup' _ _ h512 => ?_, hstr, fun d' name' hsup' _ => ?_⟩, fun d' _ hsup' _ h512 => ?_, fun _ _ _ _ _ hnil => ?_, trivial⟩
  · exact absurd ((hsame hsup').1 ▸ h512) hroom
  · obtain ⟨rfl, rfl⟩ := hsame hsup'
    exact ⟨fun _ => hnext, fun _ => hfile⟩
  · exact absurd ((hsame hsup').1 ▸ h512) hroom
  · exact hnext (by rw [FS.nextInode, hnil]; rfl)

def smallCall (call : AddrCall) : Event Unit := { id := (), call, malloc_msg := Mem.zero, msg_rply := Mem.zero }

end Yfs
