import Yfs.Code.Server

/-! # The library that clients call

A call returns at once or sends one message and goes on with the reply.
-/

namespace Yfs

/-- `struct opened_file` -/
structure OpenedFile where
  i_num : Int
  pos : Int

/-- The library's globals in one process. `opened_ft` has `MAX_OPEN_FILES` places. -/
structure Client where
  opened_ft : List (Option OpenedFile)
  cur_i : Int

/-- A process that has made no call yet. -/
def Client.start (max_open_files : Nat) : Client := { opened_ft := List.replicate max_open_files none, cur_i := ROOTINODE }

/-- A call as far as its `Send`, with what follows it. -/
inductive Talk where
  | returns (r : Int × Client)
  | sends (req : Request) (k : Int → Int × Client)

/-! ## Helpers -/

namespace Iolib

def get_path_len (pathname : Option CStr) : Int :=
  match pathname with
  | none => ERROR
  | some pathname => if pathname = [] ∨ pathname.length ≥ MAXPATHNAMELEN then ERROR else pathname.length + 1

/-- `k` is what the caller does with the code. -/
def send_path_m (operation : Option CStr → Int → Request) (pathname : Option CStr) (c : Client) (k : Int → Int × Client) :
    Talk :=
  if get_path_len pathname = ERROR then .returns (k ERROR) else .sends (operation pathname c.cur_i) k

def send_file_m (operation : Int → UserBuf → Int → Int → Request) (i_num : Int) (buf : UserBuf) (size offset : Int)
    (k : Int → Int × Client) : Talk :=
  if size < 0 ∨ buf.null then .returns (k ERROR) else .sends (operation i_num buf size offset) k

end Iolib

namespace Client

/-- The loop of `Open` and `Create` over the table. -/
def install (c : Client) (i_num : Int) : Int × Client :=
  match c.opened_ft.findIdx? Option.isNone with
  | none => (ERROR, c)
  | some fd => (fd, { c with opened_ft := c.opened_ft.set fd (some { i_num, pos := 0 }) })

/-- `opened_ft[fd]`, if `fd` is a descriptor. -/
def file (c : Client) (fd : Int) : Option OpenedFile :=
  if fd < 0 ∨ fd ≥ c.opened_ft.length then none else (c.opened_ft[fd.toNat]?).join

/-- `file->pos = pos` -/
def setPos (c : Client) (fd : Int) (file : OpenedFile) (pos : Int) : Client :=
  { c with opened_ft := c.opened_ft.set fd.toNat (some { file with pos }) }

end Client

/-! ## Calls -/

namespace Iolib

variable (c : Client)

def Open (pathname : Option CStr) : Talk :=
  send_path_m .open pathname c fun i_num => if i_num = ERROR then (ERROR, c) else c.install i_num

def Create (pathname : Option CStr) : Talk :=
  send_path_m .create pathname c fun i_num => if i_num = ERROR then (ERROR, c) else c.install i_num

def Close (fd : Int) : Talk :=
  match c.file fd with
  | none => .returns (ERROR, c)
  | some _ => .returns (0, { c with opened_ft := c.opened_ft.set fd.toNat none })

def Read (fd : Int) (buf : UserBuf) (size : Int) : Talk :=
  match c.file fd with
  | none => .returns (ERROR, c)
  | some file => send_file_m .read file.i_num buf size file.pos fun bytes =>
    if bytes = ERROR then (ERROR, c) else (bytes, c.setPos fd file (Mem.wrap 4 (file.pos + bytes)))

def Write (fd : Int) (buf : UserBuf) (size : Int) : Talk :=
  match c.file fd with
  | none => .returns (ERROR, c)
  | some file => send_file_m .write file.i_num buf size file.pos fun bytes =>
    if bytes = ERROR then (ERROR, c) else (bytes, c.setPos fd file (Mem.wrap 4 (file.pos + bytes)))

def Seek (fd offset whence : Int) : Talk :=
  match c.file fd with
  | none => .returns (ERROR, c)
  | some file =>
    if whence ≠ SEEK_SET ∧ whence ≠ SEEK_CUR ∧ whence ≠ SEEK_END then .returns (ERROR, c)
    else if file.i_num ≤ 0 then .returns (ERROR, c)
    else .sends (.seek file.i_num offset whence file.pos) fun pos =>
      if pos = ERROR then (ERROR, c) else (pos, c.setPos fd file pos)

def Link (old_name new_name : Option CStr) : Talk :=
  if get_path_len old_name = ERROR then .returns (ERROR, c)
  else if get_path_len new_name = ERROR then .returns (ERROR, c)
  else .sends (.link old_name new_name c.cur_i) fun code => (code, c)

def Unlink (pathname : Option CStr) : Talk := send_path_m .unlink pathname c fun code => (code, c)
def MkDir (pathname : Option CStr) : Talk := send_path_m .mkdir pathname c fun code => (code, c)
def RmDir (pathname : Option CStr) : Talk := send_path_m .rmdir pathname c fun code => (code, c)

def ChDir (pathname : Option CStr) : Talk :=
  send_path_m .chdir pathname c fun i_num => if i_num = ERROR then (ERROR, c) else (0, { c with cur_i := i_num })

def Stat (pathname : Option CStr) (stat_buffer : Option Bool) : Talk :=
  if stat_buffer = none then .returns (ERROR, c)
  else if get_path_len pathname = ERROR then .returns (ERROR, c)
  else .sends (.stat pathname c.cur_i stat_buffer) fun code => (code, c)

def Sync : Talk := .sends .sync fun code => (code, c)

end Iolib

inductive Call where
  | open (pathname : Option CStr)
  | create (pathname : Option CStr)
  | close (fd : Int)
  | read (fd : Int) (buf : UserBuf) (size : Int)
  | write (fd : Int) (buf : UserBuf) (size : Int)
  | seek (fd offset whence : Int)
  | link (old_name new_name : Option CStr)
  | unlink (pathname : Option CStr)
  | mkdir (pathname : Option CStr)
  | rmdir (pathname : Option CStr)
  | chdir (pathname : Option CStr)
  | stat (pathname : Option CStr) (stat_buffer : Option Bool)
  | sync

def Call.talk (c : Client) : Call → Talk
  | .open p => Iolib.Open c p
  | .create p => Iolib.Create c p
  | .close fd => Iolib.Close c fd
  | .read fd buf size => Iolib.Read c fd buf size
  | .write fd buf size => Iolib.Write c fd buf size
  | .seek fd off whence => Iolib.Seek c fd off whence
  | .link o n => Iolib.Link c o n
  | .unlink p => Iolib.Unlink c p
  | .mkdir p => Iolib.MkDir c p
  | .rmdir p => Iolib.RmDir c p
  | .chdir p => Iolib.ChDir c p
  | .stat p b => Iolib.Stat c p b
  | .sync => Iolib.Sync c

/-! ## Clients and their server -/

/-- The server and the processes `ι` that talk to it. -/
structure World (ι : Type) where
  server : Server
  clients : ι → Client

namespace World

variable {ι : Type} [DecidableEq ι]

/-- Process `id` makes a call. The server answers one message at a time. -/
def step (w : World ι) (id : ι) (call : Call) : Option (Response × World ι) :=
  match call.talk (w.clients id) with
  | .returns r => some ({ ret := r.1 }, { w with clients := Function.update w.clients id r.2 })
  | .sends req k =>
    (serve w.server req).map fun r =>
      ({ r.1 with ret := (k r.1.ret).1 }, { server := r.2, clients := Function.update w.clients id (k r.1.ret).2 })

/-- Calls of any processes in any order. -/
def after (w : World ι) : List (ι × Call) → Option (World ι)
  | [] => some w
  | (id, call) :: l =>
    match w.step id call with
    | none => none
    | some (_, w') => w'.after l

end World

end Yfs
