import Yfs.Code.Boot
import Yfs.Code.Handlers

/-! # The server loop -/

namespace Yfs

/-- A message, with what the kernel lets the server copy of the sender's memory. -/
inductive Request where
  | open (pathname : Option CStr) (cur_i : Int)
  | create (pathname : Option CStr) (cur_i : Int)
  | read (i_num : Int) (buf : UserBuf) (size offset : Int)
  | write (i_num : Int) (buf : UserBuf) (size offset : Int)
  | seek (i_num offset whence cur_pos : Int)
  | link (old_name new_name : Option CStr) (cur_i : Int)
  | unlink (pathname : Option CStr) (cur_i : Int)
  | mkdir (pathname : Option CStr) (cur_i : Int)
  | rmdir (pathname : Option CStr) (cur_i : Int)
  | chdir (pathname : Option CStr) (cur_i : Int)
  | stat (pathname : Option CStr) (cur_i : Int) (stat_buffer : Option Bool)
  | sync

/-- The reply, and what reached the sender's memory. -/
structure Response where
  ret : Int
  copied : List UInt8 := []
  stat : Option Stat := none

/-- The handler of a message that is not `YFS_SYNC`. -/
def Request.handler : Request → Prog Response
  | .open p c => do return { ret := ← handle_open p c }
  | .create p c => do return { ret := ← handle_create p c (-1) }
  | .read i buf size off => do
    let r ← handle_read i buf size off
    return { ret := r.ret, copied := r.copied }
  | .write i buf size off => do return { ret := ← handle_write i buf size off }
  | .seek i off whence pos => do return { ret := ← handle_seek i off whence pos }
  | .link o n c => do return { ret := ← handle_link o n c }
  | .unlink p c => do return { ret := ← handle_unlink p c }
  | .mkdir p c => do return { ret := ← handle_mkdir p c }
  | .rmdir p c => do return { ret := ← handle_rmdir p c }
  | .chdir p c => do return { ret := ← handle_chdir p c }
  | .stat p c b => do
    let r ← handle_stat p c b
    return { ret := r.1, stat := r.2 }
  | .sync => return { ret := 0 }

def handle_sync (sv : Server) : Option (Int × Server) :=
  (Cache.syncInodes (Cache.syncBlocks sv.store)).map fun s => (0, { sv with store := s })

/-- One round of the loop in `main`. `none`: the handler runs into undefined behaviour. -/
def serve (sv : Server) : Request → Option (Response × Server)
  | .sync => (handle_sync sv).map fun r => ({ ret := r.1 }, r.2)
  | req => run req.handler sv

/-- The requests that `sv` has answered when it has become `sv'`. -/
def serves (sv : Server) : List Request → Option Server
  | [] => some sv
  | req :: reqs =>
    match serve sv req with
    | none => none
    | some (_, sv') => serves sv' reqs

end Yfs
