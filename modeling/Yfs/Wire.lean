import Yfs.Code.Main
import Yfs.Descriptors
import Yfs.Outcome

/-! # The bytes carry the calls

What the library puts into 32 bytes the server takes out again, so that processes that share nothing but messages make the calls that
their memories show.
-/

namespace Yfs

open Mem

variable {ι : Type} [DecidableEq ι] {g : Geometry} {layout : StatLayout} {msg malloc_msg : Message} {space : Space} {c : Client} {op : Opcode}

/-! ## Round trips -/

/-- In the range of an `int`. -/
def IsInt (v : Int) : Prop := -2 ^ 31 ≤ v ∧ v < 2 ^ 31

theorem IsInt.wrap {v : Int} (h : IsInt v) : Mem.wrap 4 v = v := Mem.wrap_int v h.1 h.2

theorem isInt_error : IsInt ERROR := ⟨by decide, by decide⟩

theorem isInt_zero : IsInt 0 := ⟨by decide, by decide⟩

theorem isInt_wrap (v : Int) : IsInt (Mem.wrap 4 v) := Mem.wrap_int_range v

theorem Opcode.ofNum_num (op : Opcode) : Opcode.ofNum op.num = some op := by cases op <;> rfl

theorem Opcode.num_isInt (op : Opcode) : IsInt op.num := by cases op <;> exact ⟨by decide, by decide⟩

namespace Message

theorem num_setNum {v : Int} (hv : IsInt v) : (msg.setNum v).num = v := by
  rw [num, setNum, loadInt_storeInt_same _ _ _ _ (by decide), hv.wrap]

section

variable {x : PathMessage} {y : FileMessage} {z : LinkMessage} {u : SeekMessage} {t : StatMessage}

theorem num_setPath : (msg.setPath x).num = msg.num := by
  simp (disch := omega) only [num, setPath, loadInt_storeInt_ne, loadInt_storeAddr_ne]

theorem path_setPath (hcur : IsInt x.cur_i) (hlen : IsInt x.len) : (msg.setPath x).path = x := by
  simp (disch := omega) only [path, setPath, loadInt_storeInt_ne, loadInt_storeAddr_ne, loadAddr_storeInt_ne, loadInt_storeInt_same,
    loadAddr_storeAddr_same, hcur.wrap, hlen.wrap]

theorem num_setFile : (msg.setFile y).num = msg.num := by
  simp (disch := omega) only [num, setFile, loadInt_storeInt_ne, loadInt_storeAddr_ne]

theorem file_setFile (hi : IsInt y.i_num) (hsize : IsInt y.size) (hoffset : IsInt y.offset) : (msg.setFile y).file = y := by
  simp (disch := omega) only [file, setFile, loadInt_storeInt_ne, loadInt_storeAddr_ne, loadAddr_storeInt_ne, loadInt_storeInt_same,
    loadAddr_storeAddr_same, hi.wrap, hsize.wrap, hoffset.wrap]

theorem num_setLink : (msg.setLink z).num = msg.num := by
  simp (disch := omega) only [num, setLink, loadInt_storeInt_ne, loadInt_storeAddr_ne]

theorem link_setLink (hcur : IsInt z.cur_i) (hold : IsInt z.old_len) (hnew : IsInt z.new_len) : (msg.setLink z).link = z := by
  simp (disch := omega) only [link, setLink, loadInt_storeInt_ne, loadInt_storeAddr_ne, loadAddr_storeInt_ne, loadAddr_storeAddr_ne,
    loadInt_storeInt_same, loadAddr_storeAddr_same, hcur.wrap, hold.wrap, hnew.wrap]

theorem num_setSeek : (msg.setSeek u).num = msg.num := by
  simp (disch := omega) only [num, setSeek, loadInt_storeInt_ne]

theorem seek_setSeek (hi : IsInt u.i_num) (hpos : IsInt u.cur_pos) (hoffset : IsInt u.offset) (hwhence : IsInt u.whence) :
    (msg.setSeek u).seek = u := by
  simp (disch := omega) only [seek, setSeek, loadInt_storeInt_ne, loadInt_storeInt_same, hi.wrap, hpos.wrap, hoffset.wrap, hwhence.wrap]

theorem num_setStat : (msg.setStat t).num = msg.num := by
  simp (disch := omega) only [num, setStat, loadInt_storeInt_ne, loadInt_storeAddr_ne]

theorem stat_setStat (hcur : IsInt t.cur_i) (hlen : IsInt t.len) : (msg.setStat t).stat = t := by
  simp (disch := omega) only [stat, setStat, loadInt_storeInt_ne, loadInt_storeAddr_ne, loadAddr_storeInt_ne, loadAddr_storeAddr_ne,
    loadInt_storeInt_same, loadAddr_storeAddr_same, hcur.wrap, hlen.wrap]

end

end Message

/-! ## What a call means -/

/-- The path at `pathname`, as far as the library reads it. -/
def Space.path (space : Space) (pathname : UInt64) : Option (Option CStr) :=
  if pathname = 0 then some none else (space.string pathname.toNat MAXPATHNAMELEN).map some

/-- The call that the addresses of a call stand for. -/
def AddrCall.call (layout : StatLayout) (space : Space) : AddrCall → Option Call
  | .open pathname => (space.path pathname).map .open
  | .create pathname => (space.path pathname).map .create
  | .close fd => some (.close fd.toInt)
  | .read fd buf size => some (.read fd.toInt (space.buffer space.writable buf) size.toInt)
  | .write fd buf size => some (.write fd.toInt (space.buffer space.readable buf) size.toInt)
  | .seek fd offset whence => some (.seek fd.toInt offset.toInt whence.toInt)
  | .link old_name new_name => (space.path old_name).bind fun old =>
    -- The second name is read only if the first will do.
    if Iolib.get_path_len old = ERROR then some (.link old none) else (space.path new_name).map fun new => .link old new
  | .unlink pathname => (space.path pathname).map .unlink
  | .mkdir pathname => (space.path pathname).map .mkdir
  | .rmdir pathname => (space.path pathname).map .rmdir
  | .chdir pathname => (space.path pathname).map .chdir
  | .stat pathname stat_buffer =>
    if stat_buffer = 0 then some (.stat none none)
    else (space.path pathname).map fun path => .stat path (some (Space.allows space.writable stat_buffer.toNat layout.size))
  | .sync => some .sync

/-- The memory of a process whose call was answered. -/
def AddrCall.deliver (layout : StatLayout) (space : Space) (resp : Response) : AddrCall → Space
  | .read _ buf _ => space.store buf.toNat resp.copied
  | .stat _ stat_buffer =>
    match resp.stat with
    | none => space
    | some st => space.store stat_buffer.toNat (layout.bytes st)
  | _ => space

/-- The client's numbers are `int`s. -/
structure Client.Ints (c : Client) : Prop where
  cur_i : IsInt c.cur_i
  files : ∀ fd file, c.file fd = some file → IsInt file.i_num ∧ IsInt file.pos

theorem isInt_toInt (x : Int32) : IsInt x.toInt := ⟨x.le_toInt, x.toInt_lt⟩

/-! ## Paths -/

theorem path_len_loop_eq {pathname : UInt64} {fuel i : Nat} :
    Wire.path_len_loop space pathname fuel i = (space.string (pathname.toNat + i) fuel).map fun p => i + p.length := by
  induction fuel generalizing i with
  | zero => rfl
  | succ fuel ih =>
    rw [Wire.path_len_loop, Space.string]
    split
    · rfl
    split
    · rfl
    · rw [ih, Option.map_map, Nat.add_assoc]
      refine congrArg (fun f => Option.map f _) (funext fun p => ?_)
      simp only [Function.comp_apply, List.length_cons]
      omega

theorem get_path_len_eq {pathname : UInt64} : Wire.get_path_len space pathname = (space.path pathname).map Iolib.get_path_len := by
  unfold Wire.get_path_len Space.path
  split
  · rfl
  · rw [path_len_loop_eq, Option.map_map, Option.map_map]
    refine Option.map_congr fun p hp => ?_
    have hle := Space.string_length hp
    simp only [Function.comp_apply, Iolib.get_path_len, Nat.zero_add, List.length_eq_zero_iff]
    have hmax : p.length = MAXPATHNAMELEN ↔ p.length ≥ MAXPATHNAMELEN := ⟨fun h => h.ge, fun h => Nat.le_antisymm hle h⟩
    simp only [hmax]

theorem get_path_len_isInt {pathname : Option CStr} : IsInt (Iolib.get_path_len pathname) := by
  unfold Iolib.get_path_len
  cases pathname with
  | none => exact ⟨by decide, by decide⟩
  | some p =>
    dsimp only
    split
    · exact ⟨by decide, by decide⟩
    case isFalse h =>
      have hlt : p.length < MAXPATHNAMELEN := by omega
      rw [MAXPATHNAMELEN] at hlt
      exact ⟨by omega, by omega⟩

/-- The server copies what the library has measured. -/
theorem get_proc_path_eq {a : UInt64} {pathname : Option CStr} (h : space.path a = some pathname) (hne : Iolib.get_path_len pathname ≠ ERROR) :
    get_proc_path space a (Iolib.get_path_len pathname) = some pathname := by
  cases pathname with
  | none => exact absurd rfl hne
  | some p =>
    unfold Space.path at h
    split at h
    · cases h
    · obtain ⟨q, hp, he⟩ := Option.map_eq_some_iff.mp h
      obtain rfl : q = p := Option.some.inj he
      rw [Iolib.get_path_len] at hne ⊢
      split
      case isTrue h => exact absurd (if_pos h) hne
      case isFalse h =>
        have hload := Space.load_string hp (by omega)
        rw [get_proc_path, if_neg (by omega), show ((q.length : Int) + 1).toNat = q.length + 1 by omega, hload]
        exact (if_pos (by simp)).trans (congrArg (fun p => some (some p)) (takeWhile_zero (Space.string_zero hp)))

/-! ## Calls -/

/-- The server makes request `req` of the message, and leaves the sender's memory as `deliver` says. -/
structure Carries (layout : StatLayout) (space : Space) (deliver : Response → Space) (msg : Message) (req : Request) : Prop where
  opcode : ∃ op, Opcode.ofNum msg.num = some op ∧ op ≠ .shutdown ∧ msg.request layout space op = some req ∧
    ∀ resp, msg.deliver layout space resp op = deliver resp

/-- A call in bytes goes as far as the call that it stands for, and goes on as that does. -/
inductive Follows (layout : StatLayout) (space : Space) (deliver : Response → Space) : Option Sending → Option Talk → Prop where
  | undef : Follows layout space deliver none none
  | returns (r : Int × Client) : Follows layout space deliver (some (.returns r)) (some (.returns r))
  | sends {msg : Message} {req : Request} (k : Int → Int × Client) (h : Carries layout space deliver msg req) :
    Follows layout space deliver (some (.sends msg k)) (some (.sends req k))

section

variable {operation : Option CStr → Int → Request} {transfer : Int → UserBuf → Int → Int → Request} {k : Int → Int × Client}
  {a : UInt64} {i_num size offset : Int} {ok : Nat → Bool} {deliver : Response → Space}

theorem send_path_m_follows (hcur : IsInt c.cur_i) (hop : op ≠ .shutdown)
    (hreq : ∀ msg : Message, msg.request layout space op =
      (get_proc_path space msg.path.pathname msg.path.len).map fun pathname => operation pathname msg.path.cur_i)
    (hdeliver : ∀ (msg : Message) resp, msg.deliver layout space resp op = space) :
    Follows layout space (fun _ => space) (Wire.send_path_m space c malloc_msg op a k)
      ((space.path a).map fun pathname => Iolib.send_path_m operation pathname c k) := by
  rw [Wire.send_path_m, get_path_len_eq, Option.map_map]
  cases hp : space.path a with
  | none => exact .undef
  | some pathname =>
    simp only [Option.map_some, Function.comp_apply, Iolib.send_path_m]
    split
    · exact .returns _
    case isFalse hne =>
      refine .sends k ⟨op, ?_, hop, ?_, hdeliver _⟩
      · rw [Message.num_setPath, Message.num_setNum op.num_isInt, op.ofNum_num]
      · rw [hreq, Message.path_setPath hcur get_path_len_isInt, get_proc_path_eq hp hne, Option.map_some]

theorem send_file_m_follows (hi : IsInt i_num) (hsize : IsInt size) (hoffset : IsInt offset) (hop : op ≠ .shutdown)
    (hreq : ∀ msg : Message, msg.request layout space op =
      some (transfer msg.file.i_num (space.buffer ok msg.file.buf) msg.file.size msg.file.offset))
    (hdeliver : ∀ (msg : Message) resp, msg.file.buf = a → msg.deliver layout space resp op = deliver resp) :
    Follows layout space deliver (Wire.send_file_m malloc_msg op i_num a size offset k)
      (some (Iolib.send_file_m transfer i_num (space.buffer ok a) size offset k)) := by
  have hnull : (space.buffer ok a).null = true ↔ a = 0 := decide_eq_true_iff
  simp only [Wire.send_file_m, Iolib.send_file_m, hnull]
  split
  · exact .returns _
  · refine .sends k ⟨op, ?_, hop, ?_, fun resp => hdeliver _ resp ?_⟩
    · rw [Message.num_setFile, Message.num_setNum op.num_isInt, op.ofNum_num]
    · rw [hreq, Message.file_setFile hi hsize hoffset]
    · rw [Message.file_setFile hi hsize hoffset]

end

/-- Every call in bytes follows the call that it stands for. -/
theorem AddrCall.follows (hc : c.Ints) (call : AddrCall) : Follows layout space (fun resp => call.deliver layout space resp)
    (call.sending space c malloc_msg) ((call.call layout space).map fun call => call.talk c) := by
  cases call with
  | «open» a | create a | unlink a | mkdir a | rmdir a | chdir a =>
    simp only [AddrCall.call, Option.map_map]
    exact send_path_m_follows hc.cur_i (by decide) (fun _ => rfl) fun _ _ => rfl
  | close fd =>
    simp only [AddrCall.call, AddrCall.sending, Option.map_some, Call.talk, Wire.Close, Iolib.Close]
    cases c.file fd.toInt <;> exact .returns _
  | read fd buf size | write fd buf size =>
    simp only [AddrCall.call, AddrCall.sending, Option.map_some, Call.talk, Wire.Read, Wire.Write, Iolib.Read, Iolib.Write]
    cases hfile : c.file fd.toInt with
    | none => exact .returns _
    | some file =>
      obtain ⟨hi, hpos⟩ := hc.files _ _ hfile
      refine send_file_m_follows hi (isInt_toInt size) hpos (by decide) (fun _ => rfl) fun msg resp hbuf => ?_
      simp only [Message.deliver, AddrCall.deliver, hbuf]
  | seek fd offset whence =>
    simp only [AddrCall.call, AddrCall.sending, Option.map_some, Call.talk, Wire.Seek, Iolib.Seek]
    cases hfile : c.file fd.toInt with
    | none => exact .returns _
    | some file =>
      obtain ⟨hi, hpos⟩ := hc.files _ _ hfile
      dsimp only
      split
      · exact .returns _
      split
      · exact .returns _
      · refine .sends _ ⟨.seek, ?_, by decide, ?_, fun _ => rfl⟩
        · rw [Message.num_setSeek, Message.num_setNum (Opcode.num_isInt _), Opcode.ofNum_num]
        · rw [Message.request, Message.seek_setSeek hi hpos (isInt_toInt offset) (isInt_toInt whence)]
  | link old_name new_name =>
    simp only [AddrCall.call, AddrCall.sending, Wire.Link, get_path_len_eq]
    cases hold : space.path old_name with
    | none => exact .undef
    | some old =>
      simp only [Option.map_some, Option.bind_some]
      split
      case isTrue h =>
        simp only [Option.map_some, Call.talk, Iolib.Link, h, if_true]
        exact .returns _
      case isFalse h =>
        cases hnew : space.path new_name with
        | none => exact .undef
        | some new =>
          simp only [Option.map_some, Call.talk, Iolib.Link, h, if_false]
          split
          · exact .returns _
          case isFalse h' =>
            refine .sends _ ⟨.link, ?_, by decide, ?_, fun _ => rfl⟩
            · rw [Message.num_setLink, Message.num_setNum (Opcode.num_isInt _), Opcode.ofNum_num]
            · rw [Message.request, Message.link_setLink hc.cur_i get_path_len_isInt get_path_len_isInt, get_proc_path_eq hold h, Option.bind_some,
                get_proc_path_eq hnew h', Option.map_some]
  | stat a stat_buffer =>
    simp only [AddrCall.call, AddrCall.sending, Wire.Stat, get_path_len_eq]
    split
    case isTrue h => exact .returns _
    case isFalse h =>
      cases hp : space.path a with
      | none => exact .undef
      | some path =>
        simp only [Option.map_some, Call.talk, Iolib.Stat, reduceCtorEq, if_false]
        split
        · exact .returns _
        case isFalse hne =>
          have hstat : ((malloc_msg.setNum Opcode.stat.num).setStat ⟨c.cur_i, a, Iolib.get_path_len path, stat_buffer⟩).stat =
            ⟨c.cur_i, a, Iolib.get_path_len path, stat_buffer⟩ := Message.stat_setStat hc.cur_i get_path_len_isInt
          refine .sends _ ⟨.stat, ?_, by decide, ?_, fun resp => ?_⟩
          · rw [Message.num_setStat, Message.num_setNum (Opcode.num_isInt _), Opcode.ofNum_num]
          · rw [Message.request, hstat, get_proc_path_eq hp hne, Option.map_some, if_neg h]
          · rw [Message.deliver, hstat]
            exact rfl
  | sync =>
    refine .sends _ ⟨.sync, ?_, by decide, rfl, fun _ => rfl⟩
    rw [Message.num_setNum (Opcode.num_isInt _), Opcode.ofNum_num]

/-! ## Answers are `int`s -/

/-- Whatever `p` runs on, it returns what meets `P`. -/
def Prog.Returns {α : Type} (P : α → Prop) (p : Prog α) : Prop := ∀ sv a sv', run p sv = some (a, sv') → P a

namespace Prog.Returns

variable {α β : Type} {P : α → Prop} {p q : Prog α} {a : α}

theorem pure (h : P a) : Prog.Returns P (Pure.pure a) := fun _ _ _ hr => (Prod.mk.inj (Option.some.inj hr)).1 ▸ h

theorem undef : Prog.Returns P .undef := fun _ _ _ hr => nomatch hr

theorem bind_of {r : Prog β} {f : β → Prog α} {Q : β → Prop} (h : r.Returns Q) (hf : ∀ b, Q b → (f b).Returns P) : (r >>= f).Returns P := by
  intro sv a sv' hr
  rw [run_bind] at hr
  obtain ⟨⟨b, sv₁⟩, hb, ha⟩ := Option.bind_eq_some_iff.mp hr
  exact hf b (h sv b sv₁ hb) sv₁ a sv' ha

theorem bind {r : Prog β} {f : β → Prog α} (hf : ∀ b, (f b).Returns P) : (r >>= f).Returns P :=
  bind_of (fun _ _ _ _ => trivial) fun b (_ : True) => hf b

theorem ite {c : Prop} [Decidable c] (hp : c → p.Returns P) (hq : ¬ c → q.Returns P) : (if c then p else q).Returns P := by
  split
  case isTrue h => exact hp h
  case isFalse h => exact hq h

end Prog.Returns

section

variable {buf : UserBuf} {i size offset whence pos : Int}

theorem read_loop_returns {p : Ptr} {ret k left off num : Int} {fuel : Nat} {copied : List UInt8} (hret : IsInt ret) :
    (read_loop p buf ret fuel k left off num copied).Returns fun r => IsInt r.ret := by
  induction fuel generalizing k left off num copied with
  | zero => exact .undef
  | succ fuel ih =>
    unfold read_loop
    refine .ite (fun _ => .pure hret) fun _ => .bind fun _ => .ite (fun _ => .pure isInt_error) fun _ => .bind fun _ => ?_
    exact .ite (fun _ => .undef) fun _ => .ite (fun _ => .pure isInt_error) fun _ => .bind fun _ => ih

theorem handle_read_returns (hsize : IsInt size) : (handle_read i buf size offset).Returns fun r => IsInt r.ret := by
  unfold handle_read
  refine .ite (fun _ => .pure isInt_error) fun _ => .bind fun _ => .bind fun ino => .ite (fun _ => .pure isInt_error) fun _ => ?_
  refine read_loop_returns ?_
  unfold get_num_bytes_left
  split
  · exact isInt_wrap _
  · exact hsize

theorem handle_seek_returns (hoffset : IsInt offset) : (handle_seek i offset whence pos).Returns IsInt := by
  unfold handle_seek
  refine .bind fun _ => .bind fun ino => .ite (fun _ => .pure isInt_error) fun _ => ?_
  refine .ite (fun _ => .ite (fun _ => .pure isInt_error) fun _ => .pure hoffset) fun _ => ?_
  refine .ite (fun _ => .ite (fun _ => .pure isInt_error) fun _ => .pure (isInt_wrap _)) fun _ => ?_
  exact .ite (fun _ => .ite (fun _ => .pure isInt_error) fun _ => .pure (isInt_wrap _)) fun _ => .pure isInt_error

theorem handle_stat_returns {pathname : Option CStr} {cur : Int} {stat_buffer : Option Bool} :
    (handle_stat pathname cur stat_buffer).Returns fun r => IsInt r.1 := by
  unfold handle_stat
  cases pathname with
  | none => exact .pure isInt_error
  | some path =>
    cases stat_buffer with
    | none => exact .pure isInt_error
    | some mapped =>
      refine .ite (fun _ => .pure isInt_error) fun _ => .bind fun _ => .ite (fun _ => .pure isInt_error) fun _ => .bind fun _ => .bind fun _ => ?_
      exact .ite (fun _ => .pure isInt_error) fun _ => .pure isInt_zero

end

/-- The numbers of a request are `int`s. -/
def Request.Ints : Request → Prop
  | .read _ _ size _ | .write _ _ size _ => IsInt size
  | .seek _ offset _ _ => IsInt offset
  | _ => True

theorem Message.request_ints {req : Request} (h : msg.request layout space op = some req) : req.Ints := by
  have hload (off : Nat) : IsInt (loadInt 4 msg off) := by
    rw [loadInt_eq]
    exact isInt_wrap _
  cases op with
  | read | write | seek =>
    obtain rfl := Option.some.inj h
    exact hload _
  | link =>
    obtain ⟨old, _, h⟩ := Option.bind_eq_some_iff.mp h
    obtain ⟨new, _, rfl⟩ := Option.map_eq_some_iff.mp h
    trivial
  | sync =>
    obtain rfl := Option.some.inj h
    trivial
  | shutdown => cases h
  | _ =>
    obtain ⟨p, _, rfl⟩ := Option.map_eq_some_iff.mp h
    trivial

section

variable {σ τ : FS} {sv sv' : Server} {req : Request} {resp : Response} {ret : Int}

theorem Geometry.isInt (hshort : 8 * g.table ≤ 2 ^ 15) {i : Int} (hi : g.isInode i) : IsInt i := by
  have := hi.1
  have := hi.2
  have := g.inodes_fit
  exact ⟨by omega, by omega⟩

/-- What a request that changes something answers. -/
theorem Effect.isInt (h : Effect σ req ret τ) (hw : WellFormed g σ) (hshort : 8 * g.table ≤ 2 ^ 15) (hsafe : req.Safe g σ) (hints : req.Ints)
    (hlooks : req.looks = false) : IsInt ret := by
  cases h with
  | looked h => exact absurd (h.symm.trans hlooks) (by decide)
  | refused => exact isInt_error
  | create h =>
    cases h with
    | error => exact isInt_error
    | done _ hsup hne hdir h =>
      have hd := (hw.superDir_isInode g.isInode_root hsafe.1 hsup).resolve_left hne
      cases h with
      | taken => exact isInt_error
      | truncated hk => exact Geometry.isInt hshort (hw.entries _ _ hd hdir (findSlot_lt hk))
      | made hp => exact Geometry.isInt hshort (hp.nextInode ▸ hw.nextInode)
      | linked => exact isInt_error
  | write h =>
    cases h with
    | ended => exact hints
    | failed => exact isInt_error
  | link h | unlink h | mkdir h | rmdir h =>
    cases h with
    | error => exact isInt_error
    | done => exact isInt_zero

/-- Every safe request is answered by an `int`. -/
theorem answer_isInt (h : Sound g sv) (hshort : 8 * g.table ≤ 2 ^ 15) (hsafe : req.Safe g sv.fs) (hints : req.Ints)
    (hs : serve sv req = some (resp, sv')) : IsInt resp.ret := by
  cases hlooks : req.looks with
  | false =>
    obtain ⟨_, σ', heff, _⟩ := h.step hshort hsafe hs
    exact heff.isInt h.wellFormed hshort hsafe hints hlooks
  | true =>
    have hopens {pathname : Option CStr} {cur : Int} (hcur : g.isInode cur) (hs : serve sv (.open pathname cur) = some (resp, sv')) :
        IsInt resp.ret := by
      by_cases hne : resp.ret = ERROR
      · exact hne ▸ isInt_error
      cases pathname with
      | none =>
        obtain ⟨rfl, rfl⟩ := Prod.mk.inj (Option.some.inj hs)
        exact isInt_error
      | some path =>
        obtain ⟨_, hres⟩ := open_returns h hcur hs hne
        exact Geometry.isInt hshort (hres ▸ h.wellFormed.resolve_isInode (from_root_isInode path g.isInode_root hcur))
    cases req with
    | «open» => exact hopens hsafe hs
    | chdir => exact hopens hsafe hs
    | read i buf size offset =>
      have hret : (Request.read i buf size offset).handler.Returns fun resp => IsInt resp.ret := .bind_of (handle_read_returns hints) fun _ h => .pure h
      exact hret _ _ _ hs
    | seek i offset whence pos =>
      have hret : (Request.seek i offset whence pos).handler.Returns fun resp => IsInt resp.ret := .bind_of (handle_seek_returns hints) fun _ h => .pure h
      exact hret _ _ _ hs
    | stat path cur buf =>
      have hret : (Request.stat path cur buf).handler.Returns fun resp => IsInt resp.ret := .bind_of handle_stat_returns fun _ h => .pure h
      exact hret _ _ _ hs
    | sync =>
      obtain ⟨r, hr, he⟩ := Option.map_eq_some_iff.mp hs
      obtain ⟨s, _, rfl⟩ := Option.map_eq_some_iff.mp hr
      obtain ⟨rfl, _⟩ := Prod.mk.inj he
      exact isInt_zero
    | _ => cases hlooks

end

/-! ## The clients' numbers -/

section

variable {call : Call} {req : Request} {k : Int → Int × Client} {r : Int × Client} {fd pos ret i : Int} {file : OpenedFile}

theorem Client.Ints.install (hc : c.Ints) (hi : IsInt i) : (c.install i).2.Ints := by
  refine ⟨by rw [install_cur_i]; exact hc.cur_i, fun fd file hfile => ?_⟩
  rcases install_file (c := c) i with ⟨_, he⟩ | ⟨_, _, he⟩ <;> rw [he] at hfile
  · exact hc.files fd file hfile
  · split at hfile
    · obtain rfl := Option.some.inj hfile
      exact ⟨hi, isInt_zero⟩
    · exact hc.files fd file hfile

theorem Client.Ints.setPos (hc : c.Ints) (hfile : c.file fd = some file) (hpos : IsInt pos) : (c.setPos fd file pos).Ints := by
  refine ⟨hc.cur_i, fun fd' file' hfile' => ?_⟩
  rw [setPos_file hfile] at hfile'
  split at hfile'
  · obtain rfl := Option.some.inj hfile'
    exact ⟨(hc.files fd file hfile).1, hpos⟩
  · exact hc.files fd' file' hfile'

/-- They stay so, whatever `int` the server answers. -/
theorem Client.Ints.sends (hc : c.Ints) (h : call.talk c = .sends req k) (hret : IsInt ret) : (k ret).2.Ints := by
  cases call with
  | «open» | create =>
    obtain ⟨rfl, rfl⟩ := send_path_m_sends h
    dsimp only
    split
    · exact hc
    · exact hc.install hret
  | close =>
    simp only [Call.talk, Iolib.Close] at h
    split at h <;> cases h
  | read | write =>
    simp only [Call.talk, Iolib.Read, Iolib.Write] at h
    split at h
    · cases h
    case h_2 hfile =>
      obtain ⟨rfl, rfl⟩ := send_file_m_sends h
      dsimp only
      split
      · exact hc
      · exact hc.setPos hfile (isInt_wrap _)
  | seek =>
    simp only [Call.talk, Iolib.Seek] at h
    split at h
    · cases h
    case h_2 hfile =>
      split at h
      · cases h
      split at h
      · cases h
      obtain ⟨rfl, rfl⟩ := Talk.sends.inj h
      dsimp only
      split
      · exact hc
      · exact hc.setPos hfile hret
  | link | stat =>
    simp only [Call.talk, Iolib.Link, Iolib.Stat] at h
    split at h
    · cases h
    split at h
    · cases h
    obtain ⟨rfl, rfl⟩ := Talk.sends.inj h
    exact hc
  | unlink | mkdir | rmdir =>
    obtain ⟨rfl, rfl⟩ := send_path_m_sends h
    exact hc
  | chdir =>
    obtain ⟨rfl, rfl⟩ := send_path_m_sends h
    dsimp only
    split
    · exact hc
    · exact ⟨hret, hc.files⟩
  | sync =>
    obtain ⟨rfl, rfl⟩ := Talk.sends.inj h
    exact hc

theorem Client.Ints.returns (hc : c.Ints) (h : call.talk c = .returns r) : r.2.Ints := by
  rcases Call.returns h with he | ⟨_, _, _, he⟩ <;> rw [he]
  · exact hc
  · exact ⟨hc.cur_i, fun fd file hfile => hc.files fd file (closed_file hfile)⟩

theorem Client.start_ints {n : Nat} : (Client.start n).Ints := by
  have hroot : IsInt ROOTINODE := ⟨by decide, by decide⟩
  exact ⟨hroot, fun fd file hfile => absurd ((start_file n fd).symm.trans hfile) (by simp)⟩

end

/-! ## Rounds -/

namespace Machine

/-- The server and the clients, without the bytes. -/
def world (m : Machine ι) : World ι := { server := m.server, clients := fun id => (m.processes id).client }

/-- The call that process `id` makes, with what it copies into the memory of the process. -/
def acts (layout : StatLayout) (m : Machine ι) (act : ι × AddrCall) : Option (Int × Machine ι) :=
  (act.2.call layout (m.processes act.1).space).bind fun call => (m.world.step act.1 call).map fun r =>
    (r.1.ret, m.goesOn r.2.server act.1 (act.2.deliver layout (m.processes act.1).space r.1) (r.2.clients act.1))

/-- Calls of any processes in any order. -/
def actsAfter (layout : StatLayout) (m : Machine ι) : List (ι × AddrCall) → Option (List Int × Machine ι)
  | [] => some ([], m)
  | act :: l => (m.acts layout act).bind fun r => (r.2.actsAfter layout l).map fun r' => (r.1 :: r'.1, r'.2)

/-- The message of the call, if it sends one, meets `P`. -/
def sendsOnly (layout : StatLayout) (P : World ι → Request → Prop) (m : Machine ι) (id : ι) (call : AddrCall) : Prop :=
  ∀ cl req, call.call layout (m.processes id).space = some cl → cl.message (m.processes id).client = some req → P m.world req

/-- Every message of the run meets `P` in the state before it. -/
def meets (layout : StatLayout) (P : World ι → Request → Prop) (m : Machine ι) : List (ι × AddrCall) → Prop
  | [] => True
  | act :: l => m.sendsOnly layout P act.1 act.2 ∧ ∀ r m', m.acts layout act = some (r, m') → m'.meets layout P l

def Ints (m : Machine ι) : Prop := ∀ id, (m.processes id).client.Ints

end Machine

section

variable {m m' : Machine ι} {e : Event ι} {id : ι} {call : AddrCall} {req : Request} {ret : Int} {msg_rply : Message} {fresh_dirty : Nat → Bool}
  {deliver : Response → Space} {sv : Server}

theorem AddrCall.deliver_nothing : call.deliver layout space { ret := ret } = space := by
  cases call with
  | read => exact Space.store_nil
  | _ => rfl

theorem AddrCall.deliver_ret {resp : Response} : call.deliver layout space { resp with ret := ret } = call.deliver layout space resp := by
  cases call <;> rfl

/-- The round of a message that carries a request. -/
theorem Carries.round (h : Carries layout space deliver msg req) : sv.round layout fresh_dirty msg space msg_rply =
    (serve sv req).map fun r => .replies (msg_rply.setNum r.1.ret) (deliver r.1) r.2 := by
  obtain ⟨op, hnum, hop, hreq, hdeliver⟩ := h.opcode
  unfold Server.round
  rw [hnum]
  cases op with
  | shutdown => exact absurd rfl hop
  | _ =>
    simp only [hreq, Option.bind_some]
    exact congrArg (fun f => (serve sv req).map f) (funext fun r => by rw [hdeliver])

/-- What a call of a safe message is answered is an `int`. -/
theorem AddrCall.answer_isInt {cl : Call} {k : Int → Int × Client} {resp : Response} {sv' : Server} (hc : c.Ints)
    (hcall : call.call layout space = some cl) (htalk : cl.talk c = .sends req k) (h : Sound g sv) (hshort : 8 * g.table ≤ 2 ^ 15)
    (hsafe : req.Safe g sv.fs) (hs : serve sv req = some (resp, sv')) : IsInt resp.ret := by
  have hfollows : Follows layout space (fun resp => call.deliver layout space resp) (call.sending space c Mem.zero)
      ((call.call layout space).map fun call => call.talk c) := call.follows hc
  rw [hcall, Option.map_some, htalk] at hfollows
  generalize call.sending space c Mem.zero = sending at hfollows
  cases hfollows with
  | sends _ hcarries =>
    obtain ⟨_, _, _, hreq, _⟩ := hcarries.opcode
    exact Yfs.answer_isInt h hshort hsafe (Message.request_ints hreq) hs

omit [DecidableEq ι] in
theorem Machine.sendsOnly.of_call {P : World ι → Request → Prop} {cl : Call} (hcall : call.call layout (m.processes id).space = some cl)
    (hreq : cl.message (m.processes id).client = some req) (h : P m.world req) : m.sendsOnly layout P id call := fun cl' req' hcall' hreq' => by
  obtain rfl := Option.some.inj (hcall.symm.trans hcall')
  obtain rfl := Option.some.inj (hreq.symm.trans hreq')
  exact h

/-- One call: the bytes of a safe message carry the call that the memory of its process shows. -/
theorem Machine.step_acts (h : Sound g m.server) (hshort : 8 * g.table ≤ 2 ^ 15) (hints : m.Ints)
    (hsafe : m.sendsOnly layout (fun w req => req.Safe g w.server.fs) e.id e.call) : m.step layout e = m.acts layout (e.id, e.call) := by
  have hfollows : Follows layout _ _ (e.call.sending (m.processes e.id).space (m.processes e.id).client e.malloc_msg)
      ((e.call.call layout (m.processes e.id).space).map fun call => call.talk (m.processes e.id).client) := e.call.follows (hints e.id)
  have hclient : m.world.clients e.id = (m.processes e.id).client := rfl
  have hserver : m.world.server = m.server := rfl
  unfold Machine.step Machine.acts
  dsimp only
  generalize e.call.sending (m.processes e.id).space (m.processes e.id).client e.malloc_msg = sending at hfollows ⊢
  cases hcall : e.call.call layout (m.processes e.id).space with
  | none =>
    rw [hcall] at hfollows
    cases hfollows
    rfl
  | some call =>
    rw [hcall, Option.map_some] at hfollows
    rw [Option.bind_some, World.step, hclient, hserver]
    cases htalk : call.talk (m.processes e.id).client with
    | returns r =>
      rw [htalk] at hfollows
      cases hfollows
      simp only [Option.map_some, AddrCall.deliver_nothing, Function.update_self]
    | sends req k =>
      rw [htalk] at hfollows
      cases hfollows with
      | sends _ hcarries =>
        dsimp only
        rw [hcarries.round]
        cases hserve : serve m.server req with
        | none => rfl
        | some r =>
          have hret := AddrCall.answer_isInt (hints e.id) hcall htalk h hshort (hsafe call req hcall (Call.message_of_sends htalk)) hserve
          simp only [Option.map_some, Message.num_setNum hret, Function.update_self, AddrCall.deliver_ret]

theorem Machine.goesOn_world {c : Client} : (m.goesOn sv id space c).world = { server := sv, clients := Function.update m.world.clients id c } := by
  have hclients : (fun id' => (Function.update m.processes id { space := space, client := c } id').client) = Function.update m.world.clients id c :=
    funext fun id' => by
      by_cases hid : id' = id
      · rw [hid, Function.update_self, Function.update_self]
      · rw [Function.update_of_ne hid, Function.update_of_ne hid]
        rfl
  exact congrArg (fun clients => ({ server := sv, clients } : World ι)) hclients

/-- What a call does is a call of the system without bytes, and a copy into the caller's memory. -/
theorem Machine.acts_cases (h : m.acts layout (id, call) = some (ret, m')) : ∃ cl resp, call.call layout (m.processes id).space = some cl ∧
    m.world.step id cl = some (resp, m'.world) ∧ resp.ret = ret ∧ (m'.processes id).space = call.deliver layout (m.processes id).space resp ∧
      ∀ id', id' ≠ id → m'.processes id' = m.processes id' := by
  obtain ⟨cl, hcall, h⟩ := Option.bind_eq_some_iff.mp h
  obtain ⟨⟨resp, w'⟩, hs, he⟩ := Option.map_eq_some_iff.mp h
  obtain ⟨rfl, rfl⟩ := Prod.mk.inj he
  refine ⟨cl, resp, hcall, ?_, rfl, ?_, fun id' hid => Function.update_of_ne hid _ _⟩
  · rw [hs, goesOn_world]
    rcases World.step_cases hs with ⟨c, _, rfl⟩ | ⟨_, k, r, _, _, _, _, rfl⟩ <;> simp only [Function.update_self]
  · dsimp only [goesOn]
    rw [Function.update_self]

/-- The server stays sound, and the clients' numbers `int`s. -/
theorem Machine.acts_keeps (h : Sound g m.server) (hshort : 8 * g.table ≤ 2 ^ 15) (hints : m.Ints)
    (hsafe : m.sendsOnly layout (fun w req => req.Safe g w.server.fs) id call) (hacts : m.acts layout (id, call) = some (ret, m')) :
    Sound g m'.server ∧ m'.Ints := by
  obtain ⟨cl, resp, hcall, hs, _, _, hothers⟩ := acts_cases hacts
  have hclient (id' : ι) : (m'.processes id').client = m'.world.clients id' := rfl
  have hints' (c : Client) (hc : c.Ints) (hw : m'.world.clients = Function.update m.world.clients id c) : m'.Ints := fun id' => by
    by_cases hid : id' = id
    · rw [hclient, hw, hid, Function.update_self]
      exact hc
    · rw [hothers id' hid]
      exact hints id'
  rcases World.step_cases hs with ⟨c, htalk, he⟩ | ⟨req, k, r, sv, htalk, hserve, _, he⟩
  · have hserver : m'.server = m.server := congrArg World.server he
    exact ⟨hserver ▸ h, hints' c ((hints id).returns htalk) (congrArg World.clients he)⟩
  · have hreq := hsafe cl req hcall (Call.message_of_sends htalk)
    have hret := AddrCall.answer_isInt (hints id) hcall htalk h hshort hreq hserve
    have hserver : m'.server = sv := congrArg World.server he
    exact ⟨hserver ▸ (h.step hshort hreq hserve).1, hints' _ ((hints id).sends htalk hret) (congrArg World.clients he)⟩

/-- A process with the path of a file at 64. -/
def smallSpace : Space := { byte := fun a => [SLASH, 97].getD (a - 64) 0, readable := fun _ => true, writable := fun _ => true }

def smallLayout : StatLayout := { size := 16, bytes := fun _ => List.replicate 16 0, length_bytes := fun _ => List.length_replicate }

theorem smallSpace_path : smallSpace.path 64 = some (some [SLASH, 97]) := by decide +kernel

end

end Yfs
