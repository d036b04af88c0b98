import Yfs.Code.Iolib
import Yfs.Lib.Space

/-! # The library down to its messages

A message is 32 bytes, whose fields the two sides overlay with one `struct` for each kind. An `int` has 4 bytes, a pointer 8.
-/

namespace Yfs

/-- `YFS_OPEN`, and so on -/
inductive Opcode where
  | open | create | read | write | seek | link | unlink | mkdir | rmdir | chdir | stat | sync | shutdown
deriving DecidableEq

namespace Opcode

def num : Opcode → Int
  | .open => 0
  | .create => 1
  | .read => 2
  | .write => 3
  | .seek => 4
  | .link => 5
  | .unlink => 6
  | .mkdir => 7
  | .rmdir => 8
  | .chdir => 9
  | .stat => 10
  | .sync => 11
  | .shutdown => 12

/-- The `case` of the `switch` in `main` -/
def ofNum (num : Int) : Option Opcode :=
  [.open, .create, .read, .write, .seek, .link, .unlink, .mkdir, .rmdir, .chdir, .stat, .sync, .shutdown].find? fun op : Opcode => op.num = num

end Opcode

/-! ## The structures -/

/-- `struct m_template` -/
abbrev Message := Mem 32

/-- `struct m_path`, past its `num` -/
structure PathMessage where
  cur_i : Int
  pathname : UInt64
  len : Int

/-- `struct m_file` -/
structure FileMessage where
  i_num : Int
  buf : UInt64
  size : Int
  offset : Int

/-- `struct m_link` -/
structure LinkMessage where
  cur_i : Int
  old_name : UInt64
  new_name : UInt64
  old_len : Int
  new_len : Int

/-- `struct m_seek` -/
structure SeekMessage where
  i_num : Int
  cur_pos : Int
  offset : Int
  whence : Int

/-- `struct message_stat` -/
structure StatMessage where
  cur_i : Int
  pathname : UInt64
  len : Int
  stat_buffer : UInt64

namespace Message

open Mem

def num (msg : Message) : Int := loadInt 4 msg 0
def setNum (msg : Message) (num : Int) : Message := storeInt 4 msg 0 num

def path (msg : Message) : PathMessage := { cur_i := loadInt 4 msg 4, pathname := loadAddr msg 8, len := loadInt 4 msg 16 }

def setPath (msg : Message) (x : PathMessage) : Message :=
  storeInt 4 (storeAddr (storeInt 4 msg 4 x.cur_i) 8 x.pathname) 16 x.len

def file (msg : Message) : FileMessage :=
  { i_num := loadInt 4 msg 4, buf := loadAddr msg 8, size := loadInt 4 msg 16, offset := loadInt 4 msg 20 }

def setFile (msg : Message) (x : FileMessage) : Message :=
  storeInt 4 (storeInt 4 (storeAddr (storeInt 4 msg 4 x.i_num) 8 x.buf) 16 x.size) 20 x.offset

def link (msg : Message) : LinkMessage :=
  { cur_i := loadInt 4 msg 4, old_name := loadAddr msg 8, new_name := loadAddr msg 16, old_len := loadInt 4 msg 24, new_len := loadInt 4 msg 28 }

def setLink (msg : Message) (x : LinkMessage) : Message :=
  storeInt 4 (storeInt 4 (storeAddr (storeAddr (storeInt 4 msg 4 x.cur_i) 8 x.old_name) 16 x.new_name) 24 x.old_len) 28 x.new_len

def seek (msg : Message) : SeekMessage :=
  { i_num := loadInt 4 msg 4, cur_pos := loadInt 4 msg 8, offset := loadInt 4 msg 12, whence := loadInt 4 msg 16 }

def setSeek (msg : Message) (x : SeekMessage) : Message :=
  storeInt 4 (storeInt 4 (storeInt 4 (storeInt 4 msg 4 x.i_num) 8 x.cur_pos) 12 x.offset) 16 x.whence

def stat (msg : Message) : StatMessage :=
  { cur_i := loadInt 4 msg 4, pathname := loadAddr msg 8, len := loadInt 4 msg 16, stat_buffer := loadAddr msg 24 }

def setStat (msg : Message) (x : StatMessage) : Message :=
  storeAddr (storeInt 4 (storeAddr (storeInt 4 msg 4 x.cur_i) 8 x.pathname) 16 x.len) 24 x.stat_buffer

end Message

/-- A call as far as its `Send`, with what follows the reply. -/
inductive Sending where
  | returns (r : Int × Client)
  | sends (msg : Message) (k : Int → Int × Client)

/-! ## Helpers

`none` stands for a read of memory that the process does not have. `malloc_msg` is what `malloc` leaves in a message.
-/

namespace Wire

/-- `for (i = 0; i < MAXPATHNAMELEN; i++)` with its `break`, `fuel` rounds before the end -/
def path_len_loop (space : Space) (pathname : UInt64) : (fuel : Nat) → (i : Nat) → Option Nat
  | 0, i => some i
  | fuel + 1, i =>
    if space.readable (pathname.toNat + i) = false then none
    else if space.byte (pathname.toNat + i) = 0 then some i
    else path_len_loop space pathname fuel (i + 1)

def get_path_len (space : Space) (pathname : UInt64) : Option Int :=
  if pathname = 0 then some ERROR
  else (path_len_loop space pathname MAXPATHNAMELEN 0).map fun i => if i = 0 ∨ i = MAXPATHNAMELEN then ERROR else i + 1

variable (space : Space) (c : Client) (malloc_msg : Message)

def send_path_m (operation : Opcode) (pathname : UInt64) (k : Int → Int × Client) : Option Sending :=
  (get_path_len space pathname).map fun len =>
    if len = ERROR then .returns (k ERROR)
    else .sends ((malloc_msg.setNum operation.num).setPath { cur_i := c.cur_i, pathname := pathname, len := len }) k

def send_file_m (operation : Opcode) (i_num : Int) (buf : UInt64) (size offset : Int) (k : Int → Int × Client) : Option Sending :=
  if size < 0 ∨ buf = 0 then some (.returns (k ERROR))
  else some (.sends ((malloc_msg.setNum operation.num).setFile { i_num := i_num, buf := buf, size := size, offset := offset }) k)

/-! ## Calls -/

def Open (pathname : UInt64) : Option Sending :=
  send_path_m space c malloc_msg .open pathname fun i_num => if i_num = ERROR then (ERROR, c) else c.install i_num

def Create (pathname : UInt64) : Option Sending :=
  send_path_m space c malloc_msg .create pathname fun i_num => if i_num = ERROR then (ERROR, c) else c.install i_num

def Close (fd : Int) : Option Sending :=
  match c.file fd with
  | none => some (.returns (ERROR, c))
  | some _ => some (.returns (0, { c with opened_ft := c.opened_ft.set fd.toNat none }))

def Read (fd : Int) (buf : UInt64) (size : Int) : Option Sending :=
  match c.file fd with
  | none => some (.returns (ERROR, c))
  | some file => send_file_m malloc_msg .read file.i_num buf size file.pos fun bytes =>
    if bytes = ERROR then (ERROR, c) else (bytes, c.setPos fd file (Mem.wrap 4 (file.pos + bytes)))

def Write (fd : Int) (buf : UInt64) (size : Int) : Option Sending :=
  match c.file fd with
  | none => some (.returns (ERROR, c))
  | some file => send_file_m malloc_msg .write file.i_num buf size file.pos fun bytes =>
    if bytes = ERROR then (ERROR, c) else (bytes, c.setPos fd file (Mem.wrap 4 (file.pos + bytes)))

def Seek (fd offset whence : Int) : Option Sending :=
  match c.file fd with
  | none => some (.returns (ERROR, c))
  | some file =>
    if whence ≠ SEEK_SET ∧ whence ≠ SEEK_CUR ∧ whence ≠ SEEK_END then some (.returns (ERROR, c))
    else if file.i_num ≤ 0 then some (.returns (ERROR, c))
    else some (.sends ((malloc_msg.setNum Opcode.seek.num).setSeek
      { i_num := file.i_num, cur_pos := file.pos, offset := offset, whence := whence }) fun pos =>
        if pos = ERROR then (ERROR, c) else (pos, c.setPos fd file pos))

/-- Its message is on the stack, and every byte of it is set. -/
def Link (old_name new_name : UInt64) : Option Sending :=
  (get_path_len space old_name).bind fun oldlen =>
    if oldlen = ERROR then some (.returns (ERROR, c))
    else (get_path_len space new_name).map fun newlen =>
      if newlen = ERROR then .returns (ERROR, c)
      else .sends ((Message.setNum Mem.zero Opcode.link.num).setLink
        { cur_i := c.cur_i, old_name := old_name, new_name := new_name, old_len := oldlen, new_len := newlen }) fun code => (code, c)

def Unlink (pathname : UInt64) : Option Sending := send_path_m space c malloc_msg .unlink pathname fun code => (code, c)
def MkDir (pathname : UInt64) : Option Sending := send_path_m space c malloc_msg .mkdir pathname fun code => (code, c)
def RmDir (pathname : UInt64) : Option Sending := send_path_m space c malloc_msg .rmdir pathname fun code => (code, c)

def ChDir (pathname : UInt64) : Option Sending :=
  send_path_m space c malloc_msg .chdir pathname fun i_num => if i_num = ERROR then (ERROR, c) else (0, { c with cur_i := i_num })

def Stat (pathname stat_buffer : UInt64) : Option Sending :=
  if stat_buffer = 0 then some (.returns (ERROR, c))
  else (get_path_len space pathname).map fun len =>
    if len = ERROR then .returns (ERROR, c)
    else .sends ((malloc_msg.setNum Opcode.stat.num).setStat
      { cur_i := c.cur_i, pathname := pathname, len := len, stat_buffer := stat_buffer }) fun code => (code, c)

def Sync : Option Sending := some (.sends (malloc_msg.setNum Opcode.sync.num) fun code => (code, c))

/-- Its message. The server ends, and does not reply. -/
def Shutdown : Message := malloc_msg.setNum Opcode.shutdown.num

end Wire

/-- A call of a process, with the addresses that it passes. -/
inductive AddrCall where
  | open (pathname : UInt64)
  | create (pathname : UInt64)
  | close (fd : Int32)
  | read (fd : Int32) (buf : UInt64) (size : Int32)
  | write (fd : Int32) (buf : UInt64) (size : Int32)
  | seek (fd offset whence : Int32)
  | link (old_name new_name : UInt64)
  | unlink (pathname : UInt64)
  | mkdir (pathname : UInt64)
  | rmdir (pathname : UInt64)
  | chdir (pathname : UInt64)
  | stat (pathname stat_buffer : UInt64)
  | sync

def AddrCall.sending (space : Space) (c : Client) (malloc_msg : Message) : AddrCall → Option Sending
  | .open pathname => Wire.Open space c malloc_msg pathname
  | .create pathname => Wire.Create space c malloc_msg pathname
  | .close fd => Wire.Close c fd.toInt
  | .read fd buf size => Wire.Read c malloc_msg fd.toInt buf size.toInt
  | .write fd buf size => Wire.Write c malloc_msg fd.toInt buf size.toInt
  | .seek fd offset whence => Wire.Seek c malloc_msg fd.toInt offset.toInt whence.toInt
  | .link old_name new_name => Wire.Link space c old_name new_name
  | .unlink pathname => Wire.Unlink space c malloc_msg pathname
  | .mkdir pathname => Wire.MkDir space c malloc_msg pathname
  | .rmdir pathname => Wire.RmDir space c malloc_msg pathname
  | .chdir pathname => Wire.ChDir space c malloc_msg pathname
  | .stat pathname stat_buffer => Wire.Stat space c malloc_msg pathname stat_buffer
  | .sync => Wire.Sync c malloc_msg

end Yfs
