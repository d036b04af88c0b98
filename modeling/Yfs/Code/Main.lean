import Yfs.Code.Wire

/-! # `main` -/

namespace Yfs

/-- `handle_shutdown`: a flush, then `Exit`. What is left is the disk. `fresh_dirty` is what `malloc` will leave for the next server. -/
def handle_shutdown (fresh_dirty : Nat → Bool) (sv : Server) : Option Disk :=
  (handle_sync sv).map fun r => { num_sectors := r.2.store.num_sectors, sectors := r.2.store.sectors, fresh_dirty }

/-! ## The sender's memory -/

/-- `struct Stat` in the sender's memory. -/
structure StatLayout where
  size : Nat
  bytes : Stat → List UInt8
  length_bytes : ∀ st, (bytes st).length = size

/-- The copy of a path, up to its zero. It is null if it cannot be made. `none`: no zero, so that whoever reads it runs past its end. -/
def get_proc_path (space : Space) (pathname : UInt64) (len : Int) : Option (Option CStr) :=
  if len < 0 then some none
  else match space.load pathname.toNat len.toNat with
    | none => some none
    | some local_pathname => if 0 ∈ local_pathname then some (some (local_pathname.takeWhile (· ≠ 0))) else none

/-- The buffer at `buf`, for copies that need permission `ok`. -/
def Space.buffer (space : Space) (ok : Nat → Bool) (buf : UInt64) : UserBuf where
  null := decide (buf = 0)
  bytes pos := space.byte (buf.toNat + pos)
  mapped pos len := Space.allows ok (buf.toNat + pos) len

/-! ## The loop -/

section

variable (layout : StatLayout)

/-- What the `case`s call: the request of a message. `YFS_SHUTDOWN` is none. -/
def Message.request (msg : Message) (space : Space) : Opcode → Option Request
  | .open => (get_proc_path space msg.path.pathname msg.path.len).map fun pathname => .open pathname msg.path.cur_i
  | .create => (get_proc_path space msg.path.pathname msg.path.len).map fun pathname => .create pathname msg.path.cur_i
  | .read => some (.read msg.file.i_num (space.buffer space.writable msg.file.buf) msg.file.size msg.file.offset)
  | .write => some (.write msg.file.i_num (space.buffer space.readable msg.file.buf) msg.file.size msg.file.offset)
  | .seek => some (.seek msg.seek.i_num msg.seek.offset msg.seek.whence msg.seek.cur_pos)
  | .link =>
    (get_proc_path space msg.link.old_name msg.link.old_len).bind fun old_name =>
      (get_proc_path space msg.link.new_name msg.link.new_len).map fun new_name => .link old_name new_name msg.link.cur_i
  | .unlink => (get_proc_path space msg.path.pathname msg.path.len).map fun pathname => .unlink pathname msg.path.cur_i
  | .mkdir => (get_proc_path space msg.path.pathname msg.path.len).map fun pathname => .mkdir pathname msg.path.cur_i
  | .rmdir => (get_proc_path space msg.path.pathname msg.path.len).map fun pathname => .rmdir pathname msg.path.cur_i
  | .chdir => (get_proc_path space msg.path.pathname msg.path.len).map fun pathname => .chdir pathname msg.path.cur_i
  | .stat => (get_proc_path space msg.stat.pathname msg.stat.len).map fun pathname => .stat pathname msg.stat.cur_i
    (if msg.stat.stat_buffer = 0 then none else some (Space.allows space.writable msg.stat.stat_buffer.toNat layout.size))
  | .sync => some .sync
  | .shutdown => none

/-- The sender's memory once the handler has copied what it answers. -/
def Message.deliver (msg : Message) (space : Space) (resp : Response) : Opcode → Space
  | .read => space.store msg.file.buf.toNat resp.copied
  | .stat =>
    match resp.stat with
    | none => space
    | some st => space.store msg.stat.stat_buffer.toNat (layout.bytes st)
  | _ => space

/-- What a round of the loop comes to. -/
inductive MainRound where
  | replies (reply : Message) (space : Space) (sv : Server)
  | exits (disk : Disk)

/-- One round of the loop: the message of a process with memory `space`. `msg_rply` is what the stack holds there before. -/
def Server.round (fresh_dirty : Nat → Bool) (sv : Server) (msg : Message) (space : Space) (msg_rply : Message) : Option MainRound :=
  match Opcode.ofNum msg.num with
  | none => some (.replies (msg_rply.setNum ERROR) space sv)
  | some .shutdown => (handle_shutdown fresh_dirty sv).map .exits
  | some op =>
    (msg.request layout space op).bind fun req =>
      (serve sv req).map fun r => .replies (msg_rply.setNum r.1.ret) (msg.deliver layout space r.1 op) r.2

end

/-! ## Processes -/

/-- A process: its memory, and the library's globals in it. -/
structure Process where
  space : Space
  client : Client

/-- The server and the processes `ι` that send it messages. -/
structure Machine (ι : Type) where
  server : Server
  processes : ι → Process

/-- A call, who makes it, and what memory leaves in its message and in the reply. -/
structure Event (ι : Type) where
  id : ι
  call : AddrCall
  malloc_msg : Message
  msg_rply : Message

namespace Machine

variable {ι : Type} [DecidableEq ι]

/-- Process `id` goes on with memory `space` and globals `client`. -/
def goesOn (m : Machine ι) (sv : Server) (id : ι) (space : Space) (client : Client) : Machine ι :=
  { server := sv, processes := Function.update m.processes id { space, client } }

/-- One call: `Send`, a round of the server, and the rest of the call on the reply. -/
def step (layout : StatLayout) (m : Machine ι) (e : Event ι) : Option (Int × Machine ι) :=
  let p := m.processes e.id
  match e.call.sending p.space p.client e.malloc_msg with
  | none => none
  | some (.returns r) => some (r.1, m.goesOn m.server e.id p.space r.2)
  | some (.sends msg k) =>
    match m.server.round layout (fun _ => false) msg p.space e.msg_rply with
    | some (.replies reply space sv) => some ((k reply.num).1, m.goesOn sv e.id space (k reply.num).2)
    | _ => none

/-- Calls of any processes in any order, with what they return. -/
def after (layout : StatLayout) (m : Machine ι) : List (Event ι) → Option (List Int × Machine ι)
  | [] => some ([], m)
  | e :: l => (m.step layout e).bind fun r => (r.2.after layout l).map fun r' => (r.1 :: r'.1, r'.2)

end Machine

end Yfs
