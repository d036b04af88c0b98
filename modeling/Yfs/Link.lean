import Yfs.Create
import Yfs.Logical.Trail
import Yfs.Looking

/-! # `link` binds a new name -/

namespace Yfs

open Cache

variable {g : Geometry} {σ τ τ' : FS} {sv sv₁ : Server} {v : View} {d i cur s c a : Int} {k : Nat} {p q old new name : CStr}

/-! ## The stripped names -/

/-- `q`, from `c`, is what `handle_link` makes of the new name `p`, from `cur`. -/
structure Stripped (p : CStr) (cur : Int) (q : CStr) (c : Int) : Prop where
  root : from_root q c = from_root p cur
  valid : isPathnameValid q = true
  length : q.length < MAXPATHNAMELEN ∧ p.length < MAXPATHNAMELEN
  pos : 0 < cur → 0 < c

theorem Stripped.superDir (h : Stripped p cur q c) : v.superDir q c = v.superDir p cur := by
  obtain ⟨hq, hp⟩ := h.length
  rw [View.superDir, View.superDir, if_neg (by omega), if_neg (by omega), h.root]

theorem Stripped.superTrail (h : Stripped p cur q c) : v.superTrail q c = v.superTrail p cur := by
  rw [View.superTrail, View.superTrail, h.root, h.superDir]

theorem isPathnameValid_tail {b : UInt8} (h : isPathnameValid (b :: p) = true) : isPathnameValid p = true := by
  unfold isPathnameValid at h ⊢
  split at h
  case isTrue => cases h
  case isFalse hlen =>
    rw [if_neg (by simp at hlen ⊢; omega)]
    rw [noTrailingSlash] at h
    split at h
    case isTrue => cases h
    case isFalse => exact h

theorem adj_path_i_stripped (hq : adj_path_i p cur = (q, c)) (hvalid : isPathnameValid p = true) : Stripped p cur q c := by
  have hlen : p.length < MAXPATHNAMELEN := by
    unfold isPathnameValid at hvalid
    split at hvalid
    case isTrue => cases hvalid
    case isFalse hlen => omega
  unfold adj_path_i at hq
  split at hq
  case isTrue hs =>
    obtain ⟨rfl, rfl⟩ := Prod.mk.inj hq
    obtain ⟨rest, rfl⟩ : ∃ rest, p = SLASH :: rest := List.head?_eq_some_iff.mp hs
    have hskip : skip_slashes (SLASH :: rest) = skip_slashes rest := List.dropWhile_cons_of_pos (by simp)
    refine ⟨?_, isPathnameValid_tail hvalid, ⟨?_, hlen⟩, fun _ => by decide⟩
    · rw [from_root, from_root, if_pos hs, hskip, List.tail_cons]
      split
      case isTrue => rfl
      case isFalse hrest =>
        have hnone : skip_slashes rest = rest := by
          cases rest with
          | nil => rfl
          | cons b r =>
            have hb : b ≠ SLASH := fun he => hrest (congrArg some he)
            exact List.dropWhile_cons_of_neg (by simpa using hb)
        rw [hnone]
    · rw [List.length_cons] at hlen
      rw [List.tail_cons]
      omega
  case isFalse hs =>
    obtain ⟨rfl, rfl⟩ := Prod.mk.inj hq
    exact ⟨rfl, hvalid, ⟨hlen, hlen⟩, id⟩

theorem adj_path_i_start : (adj_path_i p cur).2 = View.start p cur := by
  unfold adj_path_i View.start
  split <;> rfl

theorem start_pos (h : 0 < cur) : 0 < View.start p cur := by
  unfold View.start
  split
  · decide
  · exact h

/-! ## The inode of the old name -/

theorem create_evaluates (hw : WellFormed g σ) (hr : InRange g σ) (hc : g.isInode c)
    (hroom : ∀ d name, σ.superDir q c = (d, name) → d ≠ ERROR → σ.isDir d → σ.RoomFor g d name) :
    ∃ b l, eval g (handle_create (some q) c a) σ.logical = some (b, l) := by
  have hspec : wp g (handle_create (some q) c a) σ fun _ _ => True :=
    handle_create_cases hw g.isInode_root hc hroom (fun _ => trivial) fun _ _ _ _ _ => ⟨fun _ => trivial, fun _ _ _ _ _ => trivial⟩
  exact eval_total (handle_create_total hw hr hc hroom) hspec

section

variable (h : OnDisk g sv) (hcur : g.isInode cur) (hp : adj_path_i old cur = (p, s)) (hq : adj_path_i new s = (q, c))
include h hcur hp hq

/-- `handle_link` uses nothing stale where making the entry leaves the inode of the old name in its place. -/
theorem link_steady (hroom : ∀ d name, sv.fs.superDir q c = (d, name) → d ≠ ERROR → sv.fs.isDir d → sv.fs.RoomFor g d name) (hlasts : ∀ b l, sv.fs.resolve p s ≠ 0 → ¬ sv.fs.isDir (sv.fs.resolve p s) →
    eval g (handle_create (some q) c (sv.fs.resolve p s)) sv.fs.logical = some (b, l) → b ≠ ERROR →
      Lasts (sv.fs.resolve p s) ∅ (lookups g (handle_create (some q) c (sv.fs.resolve p s)) sv.fs.logical)) :
    Steady (handle_link (some old) (some new) cur) sv fun _ _ => True := by
  have hw := h.wellFormed
  have hold := adj_path_i_isInode old g.isInode_root hcur
  rw [hp] at hold
  have hnew := adj_path_i_isInode new g.isInode_root hold
  rw [hq] at hnew
  unfold handle_link
  dsimp only
  rw [hp]
  dsimp only
  rw [hq]
  split
  · exact .ret trivial
  have hwalk : wp g (get_path_i_num p s) sv.fs fun r σ => r = sv.fs.resolve p s ∧ σ = sv.fs := get_path_i_num_spec hw hold ⟨rfl, rfl⟩
  have hlook : Steady (get_path_i_num p s) sv fun _ sv' => sv'.store.Tidy := by
    refine (path_walk_steady h.caches.tidy).mono ?_
    rintro _ _ ⟨_, _, hmoved, _⟩
    exact hmoved.tidy
  refine (hlook.and_wp h.caches.rel hwalk).bind ?_
  rintro _ sv₁ ⟨hc₁, σ₁, ⟨rfl, hσ₁⟩, hrel₁⟩
  rw [hσ₁] at hrel₁
  have hi : g.isInode (sv.fs.resolve p s) := hw.resolve_isInode hold
  generalize sv.fs.resolve p s = i at hi hlasts ⊢
  have hget : wp g (get_i i) sv.fs fun _ σ => σ = sv.fs := by
    simp only [wp_get_i]
    exact fun _ => ⟨hi, fun _ => trivial⟩
  have hptr : Steady (get_i i) sv₁ fun ptr sv' => ptr.num = i ∧ sv'.store.Tidy ∧ Live sv'.store.cache_i_queue ptr ∅ :=
    get_i_steady hc₁ fun ptr sv' B hat _ hmoved hlive => ⟨hat.1, hmoved.tidy, hlive⟩
  refine (hptr.and_wp hrel₁ hget).bind ?_
  rintro ptr sv₂ ⟨⟨rfl, hc₂, hlive⟩, σ₂, hσ₂, hrel₂⟩
  rw [hσ₂] at hrel₂
  have hread : wp g (readInode ptr) sv.fs fun ino σ => ino = sv.fs.inode ptr.num ∧ σ = sv.fs := by simp only [wp_readInode, and_self]
  have hsame : Steady (readInode ptr) sv₂ fun _ sv' => sv' = sv₂ := readInode_steady hc₂ hlive fun _ _ => rfl
  refine (hsame.and_wp hrel₂ hread).bind ?_
  rintro _ _ ⟨rfl, σ₃, ⟨rfl, hσ₃⟩, hrel₃⟩
  rw [hσ₃] at hrel₃
  split
  · exact .ret trivial
  case isFalse hn =>
  obtain ⟨hfile, h0⟩ := not_or.mp hn
  obtain ⟨b, l, he⟩ := create_evaluates (a := ptr.num) hw h.inRange hnew hroom
  exact link_end_steady rfl (handle_create_lives hc₂ hlive hrel₃ he (hlasts b l h0 hfile he))

/-- `handle_link` returns only if making the entry left the inode in its place. -/
theorem link_lasted (hs : sv.store.Issued) (hroom : ∀ d name, sv.fs.superDir q c = (d, name) → d ≠ ERROR → sv.fs.isDir d → sv.fs.RoomFor g d name)
     (hrun : run (handle_link (some old) (some new) cur) sv = some (a, sv₁))
    (ha : a ≠ ERROR) : Lasts (sv.fs.resolve p s) ∅ (lookups g (handle_create (some q) c (sv.fs.resolve p s)) sv.fs.logical) := by
  have hw := h.wellFormed
  have hold := adj_path_i_isInode old g.isInode_root hcur
  rw [hp] at hold
  have hnew := adj_path_i_isInode new g.isInode_root hold
  rw [hq] at hnew
  unfold handle_link at hrun
  dsimp only at hrun
  rw [hp] at hrun
  dsimp only at hrun
  rw [hq] at hrun
  split at hrun
  case isTrue =>
    obtain ⟨rfl, _⟩ := Prod.mk.inj (Option.some.inj hrun)
    exact absurd rfl ha
  have hwalk : wp g (get_path_i_num p s) sv.fs fun r σ => r = sv.fs.resolve p s ∧ σ = sv.fs := get_path_i_num_spec hw hold ⟨rfl, rfl⟩
  obtain ⟨_, sv₂, hrun₁, hrest₁⟩ := run_bind_some hrun
  obtain ⟨_, ⟨rfl, rfl⟩, hrel₂⟩ := run_sound h.caches.rel hwalk hrun₁
  have hs₂ := run_issued h.caches.tidy hs hrun₁
  have hi : g.isInode (sv.fs.resolve p s) := hw.resolve_isInode hold
  generalize sv.fs.resolve p s = i at hi hrest₁ ⊢
  have hget : wp g (get_i i) sv.fs fun ptr σ => ptr.num = i ∧ σ = sv.fs := by
    simp only [wp_get_i]
    exact fun _ => ⟨hi, fun _ => ⟨trivial, trivial⟩⟩
  obtain ⟨ptr, sv₃, hrun₂, hrest₂⟩ := run_bind_some hrest₁
  obtain ⟨_, ⟨rfl, rfl⟩, hrel₃⟩ := run_sound hrel₂ hget hrun₂
  obtain ⟨hs₃, hid⟩ := run_get_i hrel₂.cachesOk.tidy hs₂ hrun₂
  obtain ⟨ino, sv₄, hrun₃, hrest₃⟩ := run_bind_some hrest₂
  obtain rfl := run_readInode hrun₃
  split at hrest₃
  case isTrue =>
    obtain ⟨rfl, _⟩ := Prod.mk.inj (Option.some.inj hrest₃)
    exact absurd rfl ha
  obtain ⟨b, l, he⟩ := create_evaluates (a := ptr.num) hw h.inRange hnew hroom
  refine link_rest_lasted hs₃ hid hrel₃ he (fun hb => ?_) hrest₃
  obtain ⟨r, sv₅, hcreate, hrest⟩ := run_bind_some hrest₃
  obtain ⟨rfl, _⟩ := handle_create_alike.run_sound hrel₃ he hcreate
  rw [if_pos hb] at hrest
  obtain ⟨rfl, _⟩ := Prod.mk.inj (Option.some.inj hrest)
  exact ha rfl

end

/-! ## What a link is for -/

/-- The directory of a new name, if it is there and has no live entry of that name. -/
def View.vacant (v : View) (p : CStr) (cur : Int) : Option Int :=
  (v.parent p cur).filter fun d => decide (v.isDir d ∧ v.entry d (basename p) = none)

theorem vacant_eq_some : v.vacant p cur = some d ↔ v.parent p cur = some d ∧ v.isDir d ∧ v.entry d (basename p) = none := by
  simp [View.vacant, Option.filter_eq_some_iff]

/-- What the lookup of the name says. -/
theorem vacant_lookup (hn : σ.Named g) (hd : g.isInode d) (hstr : 0 ∉ p) (hpar : σ.parent p cur = some d) :
    σ.vacant p cur = some d ↔ σ.isDir d ∧ σ.lookup d (basename p) = 0 := by
  rw [vacant_eq_some]
  constructor
  · rintro ⟨_, hdir, hnone⟩
    rw [lookup_basename hn hd hdir hstr, hnone, Option.getD_none]
    exact ⟨hdir, rfl⟩
  · rintro ⟨hdir, h0⟩
    refine ⟨hpar, hdir, ?_⟩
    rw [lookup_basename hn hd hdir hstr] at h0
    cases hentry : σ.entry d (basename p) with
    | none => rfl
    | some i =>
      obtain ⟨_, _, _, hi, _⟩ := entry_eq_some hentry
      rw [hentry] at h0
      exact absurd h0 hi

/-- `b` in `d` leads to `i`, which has one link more. Beside that no directory changes. -/
structure NameAdded (g : Geometry) (σ τ : FS) (d : Int) (b : CStr) (i : Int) : Prop where
  slot : Bound g σ.toView τ.toView ∅ d b i
  entry : τ.entry d b = some i
  names : ∀ a, a.take DIRNAMELEN ≠ b.take DIRNAMELEN → τ.entry d a = σ.entry d a
  others : ∀ e a, g.isInode e → e ≠ d → τ.graph e a = σ.graph e a
  nlink : τ.nlink i = Mem.wrap 2 (σ.nlink i + 1)

theorem NameAdded.agrees {b : CStr} (h : NameAdded g σ τ d b i) (hw : WellFormed g τ) (hd : g.isInode d) (hi : g.isInode i)
    (ha : τ.Agrees g τ') : NameAdded g σ τ' d b i := by
  have hsame := ha.same hw hd
  refine ⟨h.slot.then_same hsame fun e he _ _ => ha.same hw he, hsame.entry.trans h.entry, fun a hn => hsame.entry.trans (h.names a hn),
    fun e a he hne => (ha.same hw he).graph.trans (h.others e a he hne), ?_⟩
  rw [View.nlink, ha.inode i hi]
  exact h.nlink

/-- What `handle_link` does to the slot that it has found. -/
theorem newLink_added {b : CStr} (hp : Placed σ d b k τ) (hw : WellFormed g σ) (hd : g.isInode d) (hdir : σ.isDir d) (hroom : σ.RoomFor g d b)
    (hn : σ.toView.Named g) (hname : IsName b) (hshort : 8 * g.table ≤ 2 ^ 15) (hi : g.isInode i) (h0 : i ≠ 0) (hfree : τ.slotInum d k = 0) :
    NameAdded g σ (((τ.newLink d k b i).addLinks i 1).markInode i) d b i := by
  have hat := hp.slotAt hw hd hdir hroom
  have hput : SlotPut g τ.toView (((τ.newLink d k b i).addLinks i 1).markInode i).toView ∅ d k i (strncpy DIRNAMELEN b) :=
    (hat.newLink_put (wrap_inode hshort hi)).then_same (addLinks_same (i := i) (n := 1)) fun e _ _ _ => addLinks_same
  have hbound := hp.bound hw hd hdir hroom hn hname.string hname.plain hfree hput
  have hnamed := hn.at hd hdir
  refine ⟨hbound, hbound.entry hnamed hname.string hname.plain hname.nonempty h0,
    fun a ha => hbound.entry_other hnamed hname.string hname.plain hname.nonempty ha, fun e a he hne => (hbound.same he hne (by simp)).graph, ?_⟩
  have hold : τ.nlink i = σ.nlink i := hp.edits i .nlink fun h => by cases h.2
  rw [← hold, FS.markInode_view, FS.addLinks, FS.setInode_view, View.nlink, View.setInode_inode_self, Inode.nlink, Inode.get_set, if_pos rfl]
  rfl

/-- What `link` is for. -/
structure Links (g : Geometry) (sv : Server) (old new : CStr) (cur ret : Int) (sv' : Server) : Prop where
  makes : ∀ i d, sv.fs.reference old cur = some i → ¬ sv.fs.isDir i → sv.fs.vacant new cur = some d →
    ret = 0 ∧ NameAdded g sv.fs sv'.fs d (basename new) i ∧ ∃ sv₁, serve sv' (.open (some new) cur) = some ({ ret := i }, sv₁)
  refuses : (∀ i, sv.fs.reference old cur = some i → sv.fs.isDir i) ∨ sv.fs.vacant new cur = none →
    ret = ERROR ∧ sv.fs.Unchanged g sv'.fs

/-- A file has been named with at most one slash in front, or the new name is refused anyway; the new name means the same from where
the old one starts, and few directories are on its way. -/
structure FS.LinkMeant (σ : FS) (old new : CStr) (cur : Int) : Prop where
  oneSlash : ¬ OneSlash old → σ.vacant new cur = none
  start : OneSlash old → σ.vacant new (View.start old cur) = σ.vacant new cur
  near : OneSlash old → σ.vacant new cur ≠ none → (σ.superTrail new (View.start old cur)).card < INODE_CACHESIZE

/-! ## The handler -/

/-- The new name `new`, from `s`, in a well-formed state where every directory has room for it. -/
structure NewName (g : Geometry) (σ : FS) (new : CStr) (s : Int) : Prop where
  wellFormed : WellFormed g σ
  inRange : InRange g σ
  named : σ.Named g
  inode : g.isInode s
  pos : 0 < s
  string : 0 ∉ new
  valid : isPathnameValid new = true
  nonempty : new ≠ []
  room : ∀ d, g.isInode d → σ.isDir d → σ.RoomFor g d (basename new)

namespace NewName

variable (h : NewName g σ new s) (hq : adj_path_i new s = (q, c))
include h

theorem superDir : σ.superDir new s = ((σ.parent new s).getD ERROR, basename new) :=
  superDir_eq h.named h.wellFormed h.inode (by have := h.pos; omega) h.string (isPathnameValid_basename h.valid h.nonempty).1

theorem isName : IsName (basename new) := isName_basename h.string (isPathnameValid_basename h.valid h.nonempty).2

/-- The directory that `get_super_dir` finds. -/
theorem found {name : CStr} (hsup : σ.superDir new s = (d, name)) (hne : d ≠ ERROR) : σ.parent new s = some d ∧ name = basename new ∧ g.isInode d := by
  rw [h.superDir] at hsup
  obtain ⟨hd, rfl⟩ := Prod.mk.inj hsup
  cases hpar : σ.parent new s with
  | none =>
    rw [hpar] at hd
    exact absurd hd.symm hne
  | some e =>
    rw [hpar] at hd
    obtain rfl : e = d := hd
    exact ⟨rfl, rfl, parent_isInode h.wellFormed h.inode hpar⟩

theorem vacant_none {name : CStr} (hsup : σ.superDir new s = (d, name)) (hmiss : d = ERROR ∨ ¬ σ.isDir d ∨ σ.lookup d name ≠ 0) :
    σ.vacant new s = none := by
  by_contra hv
  obtain ⟨e, he⟩ := Option.ne_none_iff_exists'.mp hv
  obtain ⟨hpar, _⟩ := vacant_eq_some.mp he
  have hinode := parent_isInode h.wellFormed h.inode hpar
  obtain ⟨hdir, h0⟩ := (vacant_lookup h.named hinode h.string hpar).mp he
  rw [h.superDir, hpar, Option.getD_some] at hsup
  obtain ⟨rfl, rfl⟩ := Prod.mk.inj hsup
  rcases hmiss with herr | hfile | hlive
  · exact isInode_ne_error hinode herr
  · exact hfile hdir
  · exact hlive h0

theorem vacant_some {name : CStr} (hsup : σ.superDir new s = (d, name)) (hne : d ≠ ERROR) (hdir : σ.isDir d) (h0 : σ.lookup d name = 0) :
    σ.vacant new s = some d := by
  obtain ⟨hpar, rfl, hd⟩ := h.found hsup hne
  exact (vacant_lookup h.named hd h.string hpar).mpr ⟨hdir, h0⟩

include hq

theorem stripped : Stripped new s q c := adj_path_i_stripped hq h.valid

theorem isInode : g.isInode c := by
  have := adj_path_i_isInode new g.isInode_root h.inode
  rwa [hq] at this

theorem roomAt (d : Int) (name : CStr) (hsup : σ.superDir q c = (d, name)) (hne : d ≠ ERROR) (hdir : σ.isDir d) : σ.RoomFor g d name := by
  rw [(h.stripped hq).superDir] at hsup
  obtain ⟨_, rfl, hd⟩ := h.found hsup hne
  exact h.room d hd hdir

omit hq in
/-- Room in the directory of a vacant name is all the room that `link` needs. -/
theorem roomAt_vacant {old : CStr} {cur : Int} (hs : View.start old cur = s) (hv : σ.vacant new s = some d) :
    σ.RoomAt g (adj_path_i new (adj_path_i old cur).2).1 (adj_path_i new (adj_path_i old cur).2).2 := by
  rw [adj_path_i_start, hs]
  rcases hq : adj_path_i new s with ⟨q, c⟩
  obtain ⟨hpar, hdir, _⟩ := vacant_eq_some.mp hv
  intro e name hsup hdir
  rw [(h.stripped hq).superDir, h.superDir, hpar] at hsup
  obtain ⟨rfl, rfl⟩ := Prod.mk.inj hsup
  exact h.room d (parent_isInode h.wellFormed h.inode hpar) hdir

/-- Where `handle_create` makes an entry for an old inode, the name is vacant. -/
theorem create_vacant (hi : i ≠ -1) : wp g (handle_create (some q) c i) σ fun r _ => r ≠ ERROR → ∃ d, σ.vacant new s = some d := by
  refine handle_create_cases h.wellFormed g.isInode_root (h.isInode hq) (h.roomAt hq) (fun _ hr => absurd rfl hr)
    fun d name _ _ hsup => ⟨fun _ hr => absurd rfl hr, fun hne hdir r σ' hc _ => ?_⟩
  rw [(h.stripped hq).superDir] at hsup
  cases hc with
  | taken => exact absurd rfl ‹_›
  | truncated _ _ hn => exact absurd hn hi
  | made _ _ hn => exact absurd hn hi
  | linked hp h0 => exact ⟨d, h.vacant_some hsup hne hdir (hp.lookup_zero h0)⟩

/-- The lookups for the entry are few if few directories are on the way. -/
theorem create_lasts (hi : i ≠ -1) (hfile : ¬ σ.isDir i) (hv : σ.vacant new s = some d) :
    Lasts i ∅ (lookups g (handle_create (some q) c i) σ.logical) ↔ (σ.superTrail new s).card < INODE_CACHESIZE := by
  have hs := h.stripped hq
  obtain ⟨hpar, hdir, _⟩ := vacant_eq_some.mp hv
  have hd := parent_isInode h.wellFormed h.inode hpar
  have hsup : σ.superDir q c = (d, basename new) := by
    rw [hs.superDir, h.superDir, hpar]
    rfl
  rw [handle_create_lasts h.wellFormed h.inRange (h.isInode hq) (hs.pos h.pos) hs.valid hs.length.1 hi hfile hsup hd hdir, hs.superTrail]

end NewName

section

variable (h : OnDisk g sv) (hcur : g.isInode cur) (hnew : NewName g sv.fs new (View.start old cur))
include h hcur hnew

/-- `link` is answered where few directories are on the way to a vacant name. -/
theorem link_answers (hnear : sv.fs.resolve (adj_path_i old cur).1 (View.start old cur) ≠ 0 →
      ¬ sv.fs.isDir (sv.fs.resolve (adj_path_i old cur).1 (View.start old cur)) → sv.fs.vacant new (View.start old cur) ≠ none →
        (sv.fs.superTrail new (View.start old cur)).card < INODE_CACHESIZE) :
    ∃ resp sv', serve sv (.link (some old) (some new) cur) = some (resp, sv') := by
  rcases hp : adj_path_i old cur with ⟨p, s⟩
  obtain rfl : s = View.start old cur := by rw [← adj_path_i_start, hp]
  rw [hp] at hnear
  rcases hq : adj_path_i new (View.start old cur) with ⟨q, c⟩
  have hroom := hnew.roomAt hq
  have hsteady : Steady (handle_link (some old) (some new) cur) sv fun _ _ => True := link_steady h hcur hp hq hroom fun b l h0 hfile he hb => by
    have hi : g.isInode (sv.fs.resolve p (View.start old cur)) := h.wellFormed.resolve_isInode hnew.inode
    have hne : sv.fs.resolve p (View.start old cur) ≠ -1 := isInode_ne_error hi
    obtain ⟨b', σ', he', hvac⟩ := eval_spec (handle_create_total h.wellFormed h.inRange (hnew.isInode hq) hroom) (hnew.create_vacant hq hne)
    rw [he] at he'
    obtain ⟨rfl, _⟩ := Prod.mk.inj (Option.some.inj he')
    obtain ⟨d, hd⟩ := hvac hb
    rw [hnew.create_lasts hq hne hfile hd]
    exact hnear h0 hfile (by rw [hd]; simp)
  have ht : twp g (handle_link (some old) (some new) cur) sv.fs fun _ _ => True := handle_link_total h.wellFormed h.inRange hcur (by rwa [hp, hq])
  have hw : wp g (handle_link (some old) (some new) cur) sv.fs fun _ _ => True :=
    handle_link_cases h.wellFormed g.isInode_root hcur hp hq hroom (fun _ => trivial) fun _ _ _ =>
      ⟨fun _ => trivial, fun _ _ => ⟨fun _ => trivial, fun _ _ _ _ _ => ⟨fun _ => trivial, fun _ _ _ _ _ _ => trivial⟩⟩⟩
  obtain ⟨ret, sv', _, hrun, _⟩ := h.returns hsteady ht hw
  refine ⟨{ ret := ret }, sv', ?_⟩
  rw [serve_handler (by simp), Request.handler, run_bind, hrun]
  rfl

variable {resp : Response} {sv' : Server} (hserve : serve sv (.link (some old) (some new) cur) = some (resp, sv'))
include hserve

/-- What `link` does where it is answered. -/
theorem link_does (hpos : 0 < cur) (hi : sv.fs.resolve (adj_path_i old cur).1 (View.start old cur) = i) : ∃ σ', Rel g sv' σ' ∧
    (i = 0 ∨ sv.fs.isDir i ∨ sv.fs.vacant new (View.start old cur) = none → resp.ret = ERROR ∧ σ' = sv.fs) ∧
    ∀ d, i ≠ 0 → ¬ sv.fs.isDir i → sv.fs.vacant new (View.start old cur) = some d → resp.ret = 0 ∧ ∃ k τ,
      Placed sv.fs d (basename new) k τ ∧ τ.slotInum d k = 0 ∧ σ' = ((τ.newLink d k (basename new) i).addLinks i 1).markInode i := by
  subst hi
  rcases hp : adj_path_i old cur with ⟨p, s⟩
  obtain rfl : s = View.start old cur := by rw [← adj_path_i_start, hp]
  rcases hq : adj_path_i new (View.start old cur) with ⟨q, c⟩
  have hstrip := hnew.stripped hq
  have hspec : wp g (Request.link (some old) (some new) cur).handler sv.fs fun resp σ' =>
      (sv.fs.resolve p (View.start old cur) = 0 ∨ sv.fs.isDir (sv.fs.resolve p (View.start old cur)) ∨
        sv.fs.vacant new (View.start old cur) = none → resp.ret = ERROR ∧ σ' = sv.fs) ∧
      ∀ d, sv.fs.resolve p (View.start old cur) ≠ 0 → ¬ sv.fs.isDir (sv.fs.resolve p (View.start old cur)) →
        sv.fs.vacant new (View.start old cur) = some d → resp.ret = 0 ∧ ∃ k τ, Placed sv.fs d (basename new) k τ ∧ τ.slotInum d k = 0 ∧
          σ' = ((τ.newLink d k (basename new) (sv.fs.resolve p (View.start old cur))).addLinks
            (sv.fs.resolve p (View.start old cur)) 1).markInode (sv.fs.resolve p (View.start old cur)) := by
    refine wp_bind.mpr (handle_link_cases h.wellFormed g.isInode_root hcur hp hq (hnew.roomAt hq) (fun hle => absurd hpos (by omega)) ?_)
    rintro _ _ rfl
    refine ⟨fun hmiss => wp_pure ⟨fun _ => ⟨rfl, rfl⟩, fun d h0 hfile _ => ?_⟩, fun h0 hfile => ⟨fun hbad => ?_, fun d name _ _ hsup => ⟨fun hmiss => ?_,
      fun hne hdir k τ hplaced hfree => ?_⟩⟩⟩
    · exact absurd hmiss (not_or.mpr ⟨h0, hfile⟩)
    · rcases hbad with hbad | hle
      · rw [hstrip.valid] at hbad
        cases hbad
      · exact absurd (hstrip.pos hnew.pos) (by omega)
    · rw [hstrip.superDir] at hsup
      refine wp_pure ⟨fun _ => ⟨rfl, rfl⟩, fun d _ _ hv => ?_⟩
      rw [hnew.vacant_none hsup hmiss] at hv
      cases hv
    · rw [hstrip.superDir] at hsup
      have hvac := hnew.vacant_some hsup hne hdir (hplaced.lookup_zero hfree)
      obtain ⟨_, rfl, _⟩ := hnew.found hsup hne
      refine wp_pure ⟨fun hmiss => ?_, fun e _ _ hv => ⟨rfl, ?_⟩⟩
      · rw [hvac] at hmiss
        rcases hmiss with hz | hd | hn
        · exact absurd hz h0
        · exact absurd hd hfile
        · cases hn
      · obtain rfl := Option.some.inj (hvac.symm.trans hv)
        exact ⟨k, τ, hplaced, hfree, rfl⟩
  rw [serve_handler (by simp)] at hserve
  obtain ⟨σ', hQ, hrel⟩ := run_sound h.caches.rel hspec hserve
  exact ⟨σ', hrel, hQ⟩

/-- `link` makes an entry only where few directories are on the way. -/
theorem link_near (hs : sv.store.Issued) (hi : sv.fs.resolve (adj_path_i old cur).1 (View.start old cur) = i) (hfile : ¬ sv.fs.isDir i)
    (hv : sv.fs.vacant new (View.start old cur) = some d) (hret : resp.ret ≠ ERROR) :
    (sv.fs.superTrail new (View.start old cur)).card < INODE_CACHESIZE := by
  subst hi
  rcases hp : adj_path_i old cur with ⟨p, s⟩
  obtain rfl : s = View.start old cur := by rw [← adj_path_i_start, hp]
  rw [hp] at hfile
  rcases hq : adj_path_i new (View.start old cur) with ⟨q, c⟩
  have hi : g.isInode (sv.fs.resolve p (View.start old cur)) := h.wellFormed.resolve_isInode hnew.inode
  rw [serve_handler (by simp), Request.handler] at hserve
  obtain ⟨ret, sv₂, hrun, hreply⟩ := run_bind_some hserve
  obtain ⟨rfl, _⟩ := Prod.mk.inj (Option.some.inj hreply)
  have hlasts := link_lasted h hcur hp hq hs (hnew.roomAt hq) hrun hret
  exact (hnew.create_lasts hq (isInode_ne_error hi) hfile hv).mp hlasts

end

theorem hasPart_basename (h : basename p ≠ []) : HasPart p := by
  obtain ⟨b, rest, hb⟩ := List.exists_cons_of_ne_nil h
  have hmem : b ∈ basename p := hb ▸ List.mem_cons_self
  exact ⟨b, (List.rtakeWhile_suffix _ _).subset hmem, basename_ne_slash hmem⟩

section

variable (h : OnDisk g sv) (hcur : g.isInode cur) (hpos : 0 < cur) (hold : 0 ∉ old) (hne : old ≠ [])
  (hname : NewName g sv.fs new (View.start old cur))
include h hcur hold hname

omit h hcur in
theorem old_missed (hone : ¬ OneSlash old) : sv.fs.resolve (adj_path_i old cur).1 (View.start old cur) = 0 := by
  rw [← adj_path_i_start]
  exact resolve_adj_zero hname.named hold hone

include hne in
theorem old_found (hone : OneSlash old) : sv.fs.resolve (adj_path_i old cur).1 (View.start old cur) = (sv.fs.reference old cur).getD 0 := by
  rw [← adj_path_i_start]
  exact resolve_adj hname.named hold h.wellFormed hcur hne hone

variable {resp : Response} {sv' : Server} (hserve : serve sv (.link (some old) (some new) cur) = some (resp, sv'))
include hne hserve hpos

/-- Where `handle_link` misses the old name or refuses the new one, it changes nothing. -/
theorem link_unchanged (hwhy : ¬ OneSlash old ∨ (∀ i, sv.fs.reference old cur = some i → sv.fs.isDir i) ∨
    sv.fs.vacant new (View.start old cur) = none) : resp.ret = ERROR ∧ sv.fs.Unchanged g sv'.fs := by
  have hmiss : sv.fs.resolve (adj_path_i old cur).1 (View.start old cur) = 0 ∨
      sv.fs.isDir (sv.fs.resolve (adj_path_i old cur).1 (View.start old cur)) ∨ sv.fs.vacant new (View.start old cur) = none := by
    by_cases hone : OneSlash old
    · rcases hwhy with hslash | hdir | hv
      · exact absurd hone hslash
      · have hfound := old_found h hcur hold hne hname hone
        cases hi : sv.fs.reference old cur with
        | none => exact .inl (by rw [hfound, hi, Option.getD_none])
        | some i => exact .inr (.inl (by rw [hfound, hi]; exact hdir i hi))
      · exact .inr (.inr hv)
    · exact .inl (old_missed hold hname hone)
  obtain ⟨σ', hrel, hrefused, _⟩ := link_does h hcur hname hserve hpos rfl
  obtain ⟨hret, rfl⟩ := hrefused hmiss
  exact ⟨hret, hrel.agrees.unchanged⟩

/-- Where it finds both, it adds the name. -/
theorem link_added (hshort : 8 * g.table ≤ 2 ^ 15) (hone : OneSlash old) (hi : sv.fs.reference old cur = some i) (hfile : ¬ sv.fs.isDir i)
    (hv : sv.fs.vacant new (View.start old cur) = some d) : resp.ret = 0 ∧ NameAdded g sv.fs sv'.fs d (basename new) i := by
  have hw := h.wellFormed
  have hres := old_found h hcur hold hne hname hone
  rw [hi, Option.getD_some] at hres
  have h0 : i ≠ 0 := reference_ne_zero (by omega) hi
  have hinode : g.isInode i := hres ▸ hw.resolve_isInode hname.inode
  obtain ⟨hpar, hdir, _⟩ := vacant_eq_some.mp hv
  have hd := parent_isInode hw hname.inode hpar
  have hroom := hname.room d hd hdir
  obtain ⟨σ', hrel, _, hmade⟩ := link_does h hcur hname hserve hpos hres
  obtain ⟨hret, k, τ, hplaced, hfree, rfl⟩ := hmade d h0 hfile hv
  have hadded := newLink_added hplaced hw hd hdir hroom hname.named hname.isName hshort hinode h0 hfree
  have hat := hplaced.slotAt hw hd hdir hroom
  have hw' := ((hat.newLink hshort (basename new) hinode).addLinks (i := i) (n := 1)).markInode (i := i)
  exact ⟨hret, hadded.agrees hw' hd hinode hrel.agrees⟩

end

/-- **`link` binds a new name.** In every well-formed state with room for an entry, `link` does what it is for exactly if, where the
old name names a file, `handle_link` finds it and looks for the new name from the same place, with few directories on its way. -/
theorem handle_link_binds (h : OnDisk g sv) (hn : sv.fs.Named g) (hs : sv.store.Issued) (hshort : 8 * g.table ≤ 2 ^ 15)
    (hcur : g.isInode cur) (hpos : 0 < cur) (hold : 0 ∉ old) (hne : old ≠ []) (hnew : 0 ∉ new) (hne' : new ≠ [])
    (hvalid : isPathnameValid new = true) (hroom : ∀ d, g.isInode d → sv.fs.isDir d → sv.fs.RoomFor g d (basename new)) :
    (∃ resp sv', serve sv (.link (some old) (some new) cur) = some (resp, sv') ∧ Links g sv old new cur resp.ret sv') ↔
      ∀ i, sv.fs.reference old cur = some i → ¬ sv.fs.isDir i → sv.fs.LinkMeant old new cur := by
  have hw := h.wellFormed
  have hname : NewName g sv.fs new (View.start old cur) := ⟨hw, h.inRange, hn, start_isInode hcur, start_pos hpos, hnew, hvalid, hne', hroom⟩
  constructor
  · rintro ⟨resp, sv', hserve, hdone⟩ i hi hfile
    have hnone : resp.ret = ERROR → sv.fs.vacant new cur = none := by
      intro he
      by_contra hv
      obtain ⟨d, hd⟩ := Option.ne_none_iff_exists'.mp hv
      rw [(hdone.makes i d hi hfile hd).1] at he
      exact absurd he (by decide)
    by_cases hone : OneSlash old
    swap
    · have hv := hnone (link_unchanged h hcur hpos hold hne hname hserve (.inl hone)).1
      exact ⟨fun _ => hv, fun hslash => absurd hslash hone, fun hslash => absurd hslash hone⟩
    cases hv : sv.fs.vacant new (View.start old cur) with
    | none =>
      have hv' := hnone (link_unchanged h hcur hpos hold hne hname hserve (.inr (.inr hv))).1
      exact ⟨fun hslash => absurd hone hslash, fun _ => hv.trans hv'.symm, fun _ hsome => absurd hv' hsome⟩
    | some d =>
      obtain ⟨hret, hadded⟩ := link_added h hcur hpos hold hne hname hserve hshort hone hi hfile hv
      have hok : resp.ret ≠ ERROR := by
        rw [hret]
        decide
      have hres := old_found h hcur hold hne hname hone
      rw [hi, Option.getD_some] at hres
      have hnear := link_near h hcur hname hserve hs hres hfile hv hok
      obtain ⟨hpar, hdir, hfree⟩ := vacant_eq_some.mp hv
      have hd := parent_isInode hw hname.inode hpar
      refine ⟨fun hslash => absurd hone hslash, fun _ => ?_, fun _ _ => hnear⟩
      cases hv' : sv.fs.vacant new cur with
      | none => exact absurd (hdone.refuses (.inr hv')).1 hok
      | some e =>
        by_cases hed : d = e
        · rw [hv, hed]
        · -- The name appeared in another directory than the caller's.
          have hother := (hdone.makes i e hi hfile hv').2.1.others d (basename new) hd hed
          rw [View.graph, View.graph, if_pos hadded.slot.after, if_pos hdir, hadded.entry, hfree] at hother
          cases hother
  · intro hcond
    have hnear : sv.fs.resolve (adj_path_i old cur).1 (View.start old cur) ≠ 0 →
        ¬ sv.fs.isDir (sv.fs.resolve (adj_path_i old cur).1 (View.start old cur)) → sv.fs.vacant new (View.start old cur) ≠ none →
          (sv.fs.superTrail new (View.start old cur)).card < INODE_CACHESIZE := by
      intro h0 hfile hv
      by_cases hone : OneSlash old
      · have hfound := old_found h hcur hold hne hname hone
        cases hi : sv.fs.reference old cur with
        | none =>
          rw [hfound, hi] at h0
          exact absurd rfl h0
        | some i =>
          rw [hfound, hi] at hfile
          have hmeant := hcond i hi hfile
          exact hmeant.near hone (hmeant.start hone ▸ hv)
      · exact absurd (old_missed hold hname hone) h0
    obtain ⟨resp, sv', hserve⟩ := link_answers h hcur hname hnear
    refine ⟨resp, sv', hserve, fun i d hi hfile hv => ?_, fun hwhy => ?_⟩
    · have hmeant := hcond i hi hfile
      have hone : OneSlash old := by
        by_contra hone
        rw [hmeant.oneSlash hone] at hv
        cases hv
      have hv' := (hmeant.start hone).trans hv
      obtain ⟨hret, hadded⟩ := link_added h hcur hpos hold hne hname hserve hshort hone hi hfile hv'
      have hbase := hname.isName
      obtain ⟨hpar, hdir, _⟩ := vacant_eq_some.mp hv
      have hd := parent_isInode hw hcur hpar
      have hd0 : d ≠ 0 := parent_ne_zero (by omega) hpar
      have hn' := hadded.slot.named hbase.string hbase.plain hbase.nonempty hn hd hd0 (by simp) (by simp)
      have hsafe : Request.Safe g sv.fs (.link (some old) (some new) cur) := ⟨hcur, hname.roomAt_vacant rfl hv'⟩
      have h' := h.step hshort hsafe hserve
      have href := hadded.slot.follows (P := g.isInode) (hn.at hd hdir) hnew hbase.nonempty (reference_ne_zero (by omega) hi)
        (start_isInode hcur) (fun _ _ _ he hm => graph_isInode hw he hm) (fun e he => ⟨he, by simp⟩) hpar
      exact ⟨hret, hadded, open_finds h' hn' hcur hpos hnew (hasPart_basename hbase.nonempty) href⟩
    · refine link_unchanged h hcur hpos hold hne hname hserve ?_
      by_cases hone : OneSlash old
      · rcases hwhy with hdir | hv
        · exact .inr (.inl hdir)
        · by_cases hex : ∃ i, sv.fs.reference old cur = some i ∧ ¬ sv.fs.isDir i
          · obtain ⟨i, hi, hfile⟩ := hex
            exact .inr (.inr (((hcond i hi hfile).start hone).trans hv))
          · exact .inr (.inl fun i hi => not_not.mp fun hfile => hex ⟨i, hi, hfile⟩)
      · exact .inl hone

/-- The smallest start with a file in the root. -/
theorem smallStart_with_file {P : Server → Prop} [DecidablePred P]
    (hP : (serves smallStart [.create (some [SLASH, 97]) 1]).map (fun sv => decide (P sv)) = some true) :
    ∃ sv, serves smallStart [.create (some [SLASH, 97]) 1] = some sv ∧ OnDisk smallDisk.geometry sv ∧ sv.fs.Named smallDisk.geometry ∧
      sv.store.Issued ∧ P sv := by
  obtain ⟨sv, hrun, hP⟩ := Option.map_eq_some_iff.mp hP
  obtain ⟨sv₁, hrun₁, hn⟩ := Option.map_eq_some_iff.mp (show (serves smallStart [.create (some [SLASH, 97]) 1]).map
    (fun sv => decide (sv.fs.Named smallDisk.geometry)) = some true by decide +kernel)
  obtain rfl := Option.some.inj (hrun.symm.trans hrun₁)
  have hmeets : smallStart.meets (fun σ req => req.Safe smallDisk.geometry σ) [.create (some [SLASH, 97]) 1] :=
    ⟨smallStart_sound.2.safe_create (by decide), fun _ _ _ => trivial⟩
  obtain ⟨resp, hserve⟩ : ∃ resp, serve smallStart (.create (some [SLASH, 97]) 1) = some (resp, sv) := by
    rw [serves] at hrun
    split at hrun
    case h_1 => cases hrun
    case h_2 resp sv₂ hserve =>
      obtain rfl : sv₂ = sv := Option.some.inj hrun
      exact ⟨resp, hserve⟩
  have hissued := serve_issued smallStart_onDisk.caches.tidy (fun _ hm => by cases hm) hserve
  exact ⟨sv, hrun, smallStart_onDisk.after (by decide) hmeets hrun, of_decide_eq_true hn, hissued, of_decide_eq_true hP⟩

/-- A second name in the root. -/
theorem handle_link_binds_root : ∃ sv resp sv', serves smallStart [.create (some [SLASH, 97]) 1] = some sv ∧
    serve sv (.link (some [SLASH, 97]) (some [SLASH, 98]) 1) = some (resp, sv') ∧
      Links smallDisk.geometry sv [SLASH, 97] [SLASH, 98] 1 resp.ret sv' := by
  obtain ⟨sv, hrun, hdisk, hn, hs, hsize⟩ := smallStart_with_file (P := fun sv =>
    ∀ d : Nat, d < 16 → sv.fs.isDir d → sv.fs.size d % 512 ≠ 0)
    (by decide +kernel)
  have hroom : ∀ d, smallDisk.geometry.isInode d → sv.fs.isDir d → sv.fs.RoomFor smallDisk.geometry d (basename [SLASH, 98]) := by
    intro d hd hdir _ h0
    have hlt : d < 16 := hd.2
    have := hsize d.toNat (by omega)
    rw [Int.toNat_of_nonneg hd.1] at this
    exact absurd h0 (this hdir)
  have hmeant : ∀ i, sv.fs.reference [SLASH, 97] 1 = some i → ¬ sv.fs.isDir i → sv.fs.LinkMeant [SLASH, 97] [SLASH, 98] 1 := by
    intro i _ _
    refine ⟨fun hslash => absurd (fun _ => by decide) hslash, fun _ => rfl, fun _ _ => ?_⟩
    rw [View.superTrail, if_pos (by decide)]
    simp [INODE_CACHESIZE]
  have hroot : smallDisk.geometry.isInode 1 := Geometry.isInode_root _
  obtain ⟨resp, sv', hlink⟩ := (handle_link_binds hdisk hn hs (by decide) hroot Int.one_pos (by decide) (by decide) (by decide) (by decide)
    (by decide) hroom).mpr hmeant
  exact ⟨sv, resp, sv', hrun, hlink⟩

/-- `link` of a file that is named with two slashes in front. -/
theorem link_misses_two_slashes : ∃ sv, serves smallStart [.create (some [SLASH, 97]) 1] = some sv ∧ OnDisk smallDisk.geometry sv ∧
    sv.fs.Named smallDisk.geometry ∧ sv.store.Issued ∧ ¬ ∃ resp sv', serve sv (.link (some [SLASH, SLASH, 97]) (some [SLASH, 98]) 1) =
      some (resp, sv') ∧ Links smallDisk.geometry sv [SLASH, SLASH, 97] [SLASH, 98] 1 resp.ret sv' := by
  obtain ⟨sv, hrun, hdisk, hn, hs, hret, href, hfile, hv⟩ := smallStart_with_file (P := fun sv =>
    ((serve sv (.link (some [SLASH, SLASH, 97]) (some [SLASH, 98]) 1)).map fun r => r.1.ret) = some ERROR ∧
      sv.fs.reference [SLASH, SLASH, 97] 1 = some 15 ∧ ¬ sv.fs.isDir 15 ∧ sv.fs.vacant [SLASH, 98] 1 = some ROOTINODE) (by decide +kernel)
  refine ⟨sv, hrun, hdisk, hn, hs, ?_⟩
  rintro ⟨resp, sv', hserve, hdone⟩
  rw [hserve, Option.map_some, Option.some.injEq, (hdone.makes 15 ROOTINODE href hfile hv).1] at hret
  exact absurd hret (by decide)

end Yfs
