import Yfs.Lib.Catalog
import Yfs.Namespace

/-! # What the server is for

The files and the names that a state shows, what each request asks of them, and what its reply answers.
-/

namespace Yfs

/-- What an entry can hold of a name. -/
abbrev EntryName : Type := {c : CStr // c.length ≤ DIRNAMELEN}

def entryName (c : CStr) : EntryName := ⟨c.take DIRNAMELEN, List.length_take_le _ _⟩

def selfName : EntryName := entryName [DOT]
def parentName : EntryName := entryName [DOT, DOT]

/-- What a state shows. -/
def FS.catalog (g : Geometry) (σ : FS) : Catalog Int EntryName UInt8 where
  used i := σ.Taken g i
  dir i := σ.Taken g i ∧ σ.isDir i
  edge d c := if σ.Taken g d then σ.graph d c.1 else none
  content i := if σ.Taken g i ∧ ¬ σ.isDir i then σ.content i else []

/-! ## Requests -/

/-- The names of a path that starts at `start`. -/
def place (start : Int) (path : CStr) : Place Int EntryName :=
  { start := View.start path start, path := (components (dirname path)).map entryName, name := entryName (basename path) }

def names (path : CStr) : List EntryName := (components path).map entryName

instance {path : CStr} : Decidable (OneSlash path) := inferInstanceAs (Decidable (_ → _))

instance {path : CStr} : Decidable (HasPart path) := inferInstanceAs (Decidable (∃ c ∈ path, _))

/-- What a request asks. A path of slashes names nothing, and `link` looks for the old name only past one slash, and for the new one
from where the old one starts. -/
def Request.op : Request → Catalog.Op Int EntryName UInt8
  | .open (some path) cur => if 0 < cur ∧ HasPart path then .find (View.start path cur) (names path) else .senseless
  | .chdir (some path) cur => if 0 < cur ∧ HasPart path then .find (View.start path cur) (names path) else .senseless
  | .stat (some path) cur (some true) => if 0 < cur ∧ HasPart path then .find (View.start path cur) (names path) else .senseless
  | .create (some path) cur => if isPathnameValid path = true ∧ 0 < cur then .create (place cur path) else .senseless
  | .read i buf size offset => .read i offset.toNat size.toNat (buf.Covers size.toNat)
  | .write i buf size offset => .write i offset.toNat (buf.slice 0 size.toNat)
  | .link (some old) (some new) cur =>
    if 0 < cur ∧ HasPart old ∧ OneSlash old ∧ isPathnameValid (adj_path_i new cur).1 = true then
      .link (View.start old cur) (names old) (place (View.start old cur) new)
    else .senseless
  | .unlink (some path) cur => if 0 < cur then .unlink (place cur path) else .senseless
  | .mkdir (some path) cur => if 0 < cur then .mkdir (place cur path) else .senseless
  | .rmdir (some path) cur => if 0 < cur then .rmdir (place cur path) else .senseless
  | .seek .. | .stat .. | .sync => .other
  | _ => .senseless

/-- What the reply to a request says. -/
def Request.answer (req : Request) (resp : Response) : Catalog.Answer Int UInt8 :=
  if resp.ret = ERROR then .refused
  else
    match req with
    | .open .. | .chdir .. | .create .. => .node resp.ret
    | .stat .. => resp.stat.elim .ok fun stat => .node stat.inum
    | .read .. => .data resp.copied
    | _ => .ok

/-- The condition on a request and the state before it. Paths are strings, and start at inodes in use. `create` finds a free inode.
Reads and writes are of files in use, and writes start inside. -/
def Request.Proper (g : Geometry) (σ : FS) : Request → Prop
  | .open (some path) cur | .chdir (some path) cur | .stat (some path) cur _ => σ.Taken g (View.start path cur) ∧ 0 ∉ path
  | .create (some path) cur => ∀ d name, σ.superDir path cur = (d, name) → σ.isDir d → σ.lookup d name = 0 → σ.nextInode ≠ 0
  | .unlink (some path) _ | .rmdir (some path) _ | .link (some path) _ _ => 0 ∉ path
  | .read i _ size offset => σ.Taken g i ∧ 0 ≤ size ∧ 0 ≤ offset
  | .write i _ _ offset => σ.Taken g i ∧ offset ≤ σ.size i
  | _ => True

/-- What one answer of the server does to what it shows. -/
def Request.Acts (g : Geometry) (σ : FS) (req : Request) (resp : Response) (τ : FS) : Prop :=
  Catalog.Step selfName parentName (σ.catalog g) req.op (req.answer resp) (τ.catalog g)

theorem Request.Acts.of {g : Geometry} {σ τ : FS} {req : Request} {resp : Response} {op : Catalog.Op Int EntryName UInt8}
    {a : Catalog.Answer Int UInt8} (hop : req.op = op) (ha : req.answer resp = a)
    (h : Catalog.Step selfName parentName (σ.catalog g) op a (τ.catalog g)) : req.Acts g σ resp τ := by
  subst hop ha
  exact h

end Yfs
