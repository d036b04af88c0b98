import Yfs.Filing.Steps
import Yfs.LinkCounts
import Yfs.Link

/-! # What the handlers answer, and what it does to what a state shows -/

namespace Yfs

open Catalog Names

variable {g : Geometry} {σ τ σ₁ : FS} {d e i j cur s ret : Int} {k : Nat} {old new path name p q : CStr} {req : Request}

/-- A file system in order. -/
structure FS.Filed (g : Geometry) (σ : FS) : Prop where
  wellFormed : WellFormed g σ
  planted : σ.Planted g
  named : σ.Named g
  dotted : σ.Dotted g
  counted : Tree.Counted (σ.nodes g)
  typed : ∀ i, (σ.catalog g).Named i → ¬ σ.isDir i → σ.type i = INODE_REGULAR
  sized : ∀ i, σ.Taken g i → ¬ σ.isDir i → 0 ≤ σ.size i

/-! ## Places -/

theorem superDir_length (hsup : σ.superDir path cur = (d, name)) (hne : d ≠ ERROR) : path.length < MAXPATHNAMELEN := by
  by_contra hlen
  rw [View.superDir, if_pos (by omega)] at hsup
  exact hne (congrArg Prod.fst hsup).symm

theorem adj_path_i_path : (adj_path_i path cur).1 = (adj_path_i path s).1 := by
  unfold adj_path_i
  split <;> rfl

theorem parent_adj : σ.parent (adj_path_i path s).1 (adj_path_i path s).2 = σ.parent path s := by
  unfold adj_path_i
  split
  case isTrue h =>
    obtain ⟨rest, rfl⟩ : ∃ rest, path = SLASH :: rest := List.head?_eq_some_iff.mp h
    have hstart : View.start rest ROOTINODE = ROOTINODE := by
      unfold View.start
      split <;> rfl
    rw [List.tail_cons, View.parent_eq, View.parent_eq, hstart, dirname_slash, components_slash, View.start, if_pos h]
  case isFalse => rfl

theorem names_ne_nil (h : HasPart path) : names path ≠ [] := by
  rw [names, ← components_skip_slashes, components_cons (mt skip_slashes_nil.mp (not_not.mpr h)) (skip_slashes_head path)]
  exact List.cons_ne_nil _ _

namespace FS.Filed

variable (h : σ.Filed g)
include h

/-- What `get_super_dir` finds is the directory of the place. -/
theorem at_parent (hstart : σ.Taken g (View.start path cur)) (hd : (σ.parent path cur).getD ERROR = d) :
    (σ.catalog g).At (place cur path) e ↔ e = d ∧ d ≠ ERROR ∧ σ.isDir d := by
  rw [h.planted.at_place hstart]
  constructor
  · rintro ⟨hpar, hdir⟩
    rw [hpar, Option.getD_some] at hd
    subst hd
    have hi := follow_mem (P := σ.Taken g) hstart (fun _ _ _ hn hg => h.planted.graph_taken hn hg) ((View.parent_eq ..).symm.trans hpar)
    exact ⟨rfl, isInode_ne_error hi.1, hdir⟩
  · rintro ⟨rfl, hne, hdir⟩
    cases hpar : σ.parent path cur with
    | none =>
      rw [hpar] at hd
      exact absurd hd.symm hne
    | some i =>
      rw [hpar, Option.getD_some] at hd
      exact ⟨congrArg some hd, hdir⟩

theorem edge_last (hd : σ.Taken g d) (hdir : σ.isDir d) (hstr : 0 ∉ path) :
    (σ.catalog g).edge d (entryName (basename path)) = some i ↔ σ.lookup d (basename path) = i ∧ i ≠ 0 := by
  rw [edge_taken hd, graph_entryName, View.graph, if_pos hdir, lookup_basename h.named hd.1 hdir hstr]
  cases he : σ.entry d (basename path) with
  | none => exact iff_of_false (by simp) fun hi => hi.2 hi.1.symm
  | some j =>
    obtain ⟨_, _, _, h0, _⟩ := entry_eq_some he
    rw [Option.some.injEq, Option.getD_some]
    exact ⟨fun hi => ⟨hi, hi ▸ h0⟩, And.left⟩

theorem edge_none (hd : σ.Taken g d) (hdir : σ.isDir d) (hstr : 0 ∉ path) :
    (σ.catalog g).edge d (entryName (basename path)) = none ↔ σ.lookup d (basename path) = 0 := by
  rw [Option.eq_none_iff_forall_ne_some]
  constructor
  · intro hnone
    by_contra h0
    exact hnone _ ((h.edge_last hd hdir hstr).mpr ⟨rfl, h0⟩)
  · intro h0 i hi
    obtain ⟨he, hne⟩ := (h.edge_last hd hdir hstr).mp hi
    exact hne (he.symm.trans h0)

/-! ## `open`, `chdir`, `stat` -/

/-- What a path means. -/
theorem find_resolve (hcur : g.isInode cur) (hstart : σ.Taken g (View.start path cur)) (hstr : 0 ∉ path) (hpart : HasPart path) :
    σ.resolve (from_root path cur).1 (from_root path cur).2 = ((follow (σ.catalog g).edge (View.start path cur) (names path)).getD 0) := by
  rw [h.planted.find hstart, resolve_from_root h.named hstr h.wellFormed hcur hpart]

/-- A path of slashes names nothing. -/
theorem resolve_slashes (hcur : g.isInode cur) (hpart : ¬ HasPart path) :
    σ.resolve (from_root path cur).1 (from_root path cur).2 = 0 := by
  have hnil := skip_slashes_nil.mpr hpart
  unfold from_root
  split
  case isTrue =>
    rw [hnil]
    exact resolve_empty h.named (by simp) g.isInode_root rfl
  case isFalse hs =>
    have hempty : path = [] := by
      by_contra hne
      exact hs (slashes_head hne hpart)
    rw [hempty]
    exact resolve_empty h.named (by simp) hcur rfl

/-- A lookup, answered with what the walk finds. -/
theorem find_step {a : Answer Int UInt8} (hcur : g.isInode cur) (hstart : σ.Taken g (View.start path cur)) (hstr : 0 ∉ path)
    (hmiss : ¬ 0 < cur ∨ σ.resolve (from_root path cur).1 (from_root path cur).2 = 0 → a = .refused)
    (hfound : ∀ i, 0 < cur → σ.resolve (from_root path cur).1 (from_root path cur).2 = i → i ≠ 0 → g.isInode i → a = .node i) :
    Step selfName parentName (σ.catalog g) (if 0 < cur ∧ HasPart path then .find (View.start path cur) (names path) else .senseless) a
      (σ.catalog g) := by
  split
  case isTrue hgo =>
    have hres := h.find_resolve hcur hstart hstr hgo.2
    have hfollow := h.planted.find hstart
    cases href : σ.reference path cur with
    | none =>
      rw [href] at hfollow
      rw [hfollow] at hres
      rw [hmiss (.inr hres)]
      exact .missing hfollow
    | some i =>
      rw [href] at hfollow
      rw [hfollow, Option.getD_some] at hres
      have hi : g.isInode (σ.resolve (from_root path cur).1 (from_root path cur).2) :=
        h.wellFormed.resolve_isInode (from_root_isInode path g.isInode_root hcur)
      rw [hres] at hi
      rw [hfound i hgo.1 hres (reference_ne_zero (by omega) href) hi]
      exact .found hfollow
  case isFalse hstop =>
    rw [hmiss]
    · exact .senseless
    · by_cases hpos : 0 < cur
      · exact .inr (h.resolve_slashes hcur fun hpart => hstop ⟨hpos, hpart⟩)
      · exact .inl hpos

theorem handle_open_acts (hcur : g.isInode cur) (hproper : (Request.open (some path) cur).Proper g σ) :
    wp g (handle_open (some path) cur) σ fun r τ => (Request.open (some path) cur).Acts g σ { ret := r } τ := by
  unfold handle_open
  simp only [wp_ite, wp_bind, wp_ret, Prog.pure_eq]
  refine ⟨fun hle => ?_, fun hpos => get_path_i_num_spec h.wellFormed (from_root_isInode _ g.isInode_root hcur) ⟨fun h0 => ?_, fun hne => ?_⟩⟩
  · exact h.find_step hcur hproper.1 hproper.2 (fun _ => if_pos rfl) fun i hpos => absurd hpos (by omega)
  · exact h.find_step hcur hproper.1 hproper.2 (fun _ => if_pos rfl) fun i _ hi hne => absurd (hi.symm.trans h0) hne
  · refine h.find_step hcur hproper.1 hproper.2 (fun hmiss => absurd hmiss (by simp [hne]; omega)) ?_
    rintro _ _ rfl _ hi
    exact if_neg (isInode_ne_error hi)

theorem handle_chdir_acts (hcur : g.isInode cur) (hproper : (Request.chdir (some path) cur).Proper g σ) :
    wp g (handle_chdir (some path) cur) σ fun r τ => (Request.chdir (some path) cur).Acts g σ { ret := r } τ :=
  h.handle_open_acts hcur hproper

theorem handle_stat_acts {buffer : Option Bool} (hcur : g.isInode cur) (hproper : (Request.stat (some path) cur buffer).Proper g σ) :
    wp g (handle_stat (some path) cur buffer) σ fun r τ => (Request.stat (some path) cur buffer).Acts g σ { ret := r.1, stat := r.2 } τ := by
  cases buffer with
  | none => exact (wp_ret _).mpr (.other _)
  | some mapped =>
    cases mapped with
    | false => exact handle_stat_spec h.wellFormed g.isInode_root hcur fun _ => .other _
    | true =>
      unfold handle_stat
      simp only [wp_ite, wp_bind, wp_ret, Prog.pure_eq, wp_get_i, wp_readInode]
      have hstart := from_root_isInode path g.isInode_root hcur
      refine ⟨fun hle => ?_, fun hpos => get_path_i_num_spec h.wellFormed hstart ⟨fun h0 => ?_, fun hne _ =>
        ⟨h.wellFormed.resolve_isInode hstart, fun _ => ⟨fun hbad => ?_, fun _ => ?_⟩⟩⟩⟩
      · exact h.find_step hcur hproper.1 hproper.2 (fun _ => if_pos rfl) fun i hpos => absurd hpos (by omega)
      · exact h.find_step hcur hproper.1 hproper.2 (fun _ => if_pos rfl) fun i _ hi hne => absurd (hi.symm.trans h0) hne
      · cases hbad
      · refine h.find_step hcur hproper.1 hproper.2 (fun hmiss => absurd hmiss (by simp [hne]; omega)) ?_
        rintro _ _ rfl _ hi
        exact if_neg (show (0 : Int) ≠ ERROR by decide)

/-! ## `create` -/

/-- What `get_create_file` does. -/
theorem create_step (hshort : 8 * g.table ≤ 2 ^ 15) (hd : σ.Taken g d) (hdir : σ.isDir d) (hroom : σ.RoomFor g d (basename path))
    (hstr : 0 ∉ path) (hbase : basename path ≠ []) (hat : (σ.catalog g).At (place cur path) d)
    (hfree : σ.lookup d (basename path) = 0 → σ.nextInode ≠ 0)
    (hleaf : σ.lookup d (basename path) ≠ 0 → ¬ σ.isDir (σ.lookup d (basename path))) (hc : CreatedIn σ d (basename path) (-1) ret τ) :
    Step selfName parentName (σ.catalog g) (.create (place cur path)) (.node ret) (τ.catalog g) ∧ g.isInode ret := by
  have hw := h.wellFormed
  cases hc with
  | taken _ _ hn => exact absurd rfl hn
  | linked _ _ hn => exact absurd rfl hn
  | @truncated k hk h0 _ =>
    have hlook := lookup_some hk
    rw [hlook] at hleaf
    have hi : σ.Taken g (σ.slotInum d k) := h.planted.target hd ⟨hdir, findSlot_lt hk, rfl, h0⟩
    refine ⟨?_, hi.1⟩
    have hcat : (σ.truncate (σ.slotInum d k)).catalog g = (σ.catalog g).fill (σ.slotInum d k) [] :=
      (truncate_emptied hw hi.1).catalog hw rfl (truncate_edits _ .type (by simp)) hi (hleaf h0)
    rw [show ((((σ.truncate (σ.slotInum d k)).markInode (σ.slotInum d k)).markBlock (σ.slotBlock d k)).catalog g) = _ from hcat]
    exact .emptied hat ((h.edge_last hd hdir hstr).mpr ⟨hlook, h0⟩) fun hn => hleaf h0 hn.2
  | @made k σ₁ hp hslot _ =>
    have hlook := hp.lookup_zero hslot
    have hnext := hfree hlook
    have hinode : σ.i_head ≠ [] := fun hnil => hnext (by rw [FS.nextInode, hnil]; rfl)
    have hmade := newFile_fileMade hp hw hd.1 hdir hroom h.named (isName_basename hstr hbase) hshort hinode hd.ne_next.symm hnext hslot
    rw [hp.nextInode]
    refine ⟨?_, hw.nextInode⟩
    rw [hmade.catalog h.planted hw.nextInode hnext hd]
    exact .made hat ((h.edge_none hd hdir hstr).mpr hlook) fun hn => hn.ne_next rfl

theorem handle_create_acts (hshort : 8 * g.table ≤ 2 ^ 15) (hsafe : (Request.create (some path) cur).Safe g σ)
    (hkeeps : (Request.create (some path) cur).KeepsTree g σ) (hplain : (Request.create (some path) cur).Plain σ)
    (hends : (Request.create (some path) cur).Ends) (hproper : (Request.create (some path) cur).Proper g σ) :
    wp g (handle_create (some path) cur (-1)) σ fun r τ => (Request.create (some path) cur).Acts g σ { ret := r } τ := by
  refine handle_create_cases h.wellFormed g.isInode_root hsafe.1 (fun d name hsup _ => hsafe.2 d name hsup) (fun hstop => ?_)
    fun d name hvalid hpos hsup => ?_
  · refine .of (if_neg fun hgo => ?_) (if_pos rfl) .senseless
    rcases hstop with hbad | hle
    · exact absurd hgo.1 (by rw [hbad]; decide)
    · exact absurd hgo.2 (by omega)
  have hlen := (isPathnameValid_basename hvalid fun hnil => hends (by rw [hnil]; rfl)).1
  obtain ⟨hdeq, hname⟩ := Prod.mk.inj (hsup.symm.trans (superDir_eq h.named h.wellFormed hsafe.1 (by omega) hplain hlen))
  subst hname
  have hat := fun e => h.at_parent (e := e) hkeeps.1 hdeq.symm
  refine ⟨fun hmiss => ?_, fun hne hdir r τ hc => ?_⟩
  · refine .of (if_pos ⟨hvalid, hpos⟩) (if_pos rfl) (.notMade fun e he => ?_)
    obtain ⟨_, hne, hdir⟩ := (hat e).mp he
    exact hmiss.elim hne (not_not.mpr hdir)
  · have hd := h.planted.superDir hkeeps.1 hsup hne
    obtain ⟨hstep, hret⟩ := h.create_step hshort hd hdir (hsafe.2 _ _ hsup hdir) hplain hends ((hat d).mpr ⟨rfl, hne, hdir⟩)
      (hproper _ _ hsup hdir) (hkeeps.2 _ _ hsup hdir) hc
    exact .of (if_pos ⟨hvalid, hpos⟩) (if_neg (isInode_ne_error hret)) hstep

/-! ## `write` -/

theorem handle_write_acts {buf : UserBuf} {size offset : Int} (hok : σ.WriteOk g i buf size offset)
    (hproper : (Request.write i buf size offset).Proper g σ) :
    wp g (handle_write i buf size offset) σ fun r τ => (Request.write i buf size offset).Acts g σ { ret := r } τ := by
  refine handle_write_spec h.wellFormed hok fun r τ hwritten => ?_
  obtain ⟨hi, hin⟩ := hproper
  obtain ⟨m, hm, hall, _, hcontent⟩ := hwritten.splices h.wellFormed hok hin
  have hcat := (hwritten.kept h.wellFormed hok).catalog hi hok.file
  rw [hcontent, ← content_file hi hok.file] at hcat
  have hfile : ¬ (σ.catalog g).dir i := fun hn => hok.file hn.2
  have hinside : offset.toNat ≤ ((σ.catalog g).content i).length := by
    have hlen := View.length_content (h.sized i hi hok.file)
    have hoffset := hok.offset
    rw [content_file hi hok.file]
    omega
  by_cases hr : r = ERROR
  · subst hr
    have htake : buf.slice 0 m = (buf.slice 0 size.toNat).take m := by
      rw [UserBuf.slice, UserBuf.slice, ← List.map_take, List.take_range, Nat.min_eq_left hm]
    refine .of rfl (if_pos rfl) ?_
    rw [hcat, htake]
    exact .cut m (by rwa [UserBuf.length_slice]) hi hfile hinside
  · refine .of rfl (if_neg hr) ?_
    rw [hcat, hall hr]
    exact .wrote hi hfile hinside

/-! ## `link` -/

/-- `handle_link` once it has found the file and the directory. -/
theorem link_step (hshort : 8 * g.table ≤ 2 ^ 15) (hi : σ.Taken g i) (hfile : ¬ σ.isDir i) (hfind : follow (σ.catalog g).edge s (names old) = some i)
    (hold : HasPart old) (hat : (σ.catalog g).At (place cur new) d) (hd : σ.Taken g d) (hdir : σ.isDir d) (hroom : σ.RoomFor g d (basename new))
    (hstr : 0 ∉ new) (hbase : basename new ≠ []) (hp : Placed σ d (basename new) k σ₁) (hfree : σ₁.slotInum d k = 0) :
    Step selfName parentName (σ.catalog g) (.link s (names old) (place cur new)) .ok
      ((((σ₁.newLink d k (basename new) i).addLinks i 1).markInode i).catalog g) := by
  have hadded := newLink_added hp h.wellFormed hd.1 hdir hroom h.named (isName_basename hstr hbase) hshort hi.1 hi.2.2 hfree
  rw [hadded.catalog hp.i_head hd]
  exact .linked hfind (names_ne_nil hold) (fun hn => hfile hn.2) hat ((h.edge_none hd hdir hstr).mpr (hp.lookup_zero hfree))

/-- Nothing but a path past one slash is found. -/
theorem resolve_meant (hcur : g.isInode cur) (hstr : 0 ∉ old) (hmeant : ¬ (HasPart old ∧ OneSlash old)) :
    σ.resolve (adj_path_i old cur).1 (adj_path_i old cur).2 = 0 := by
  by_cases hone : OneSlash old
  · have hpart : ¬ HasPart old := fun hpart => hmeant ⟨hpart, hone⟩
    have hnil : old = [] := by
      by_contra hne
      obtain ⟨htail, hhead⟩ := hone (slashes_head hne hpart)
      obtain ⟨b, rest, hb⟩ := List.exists_cons_of_ne_nil htail
      refine hpart ⟨b, List.mem_of_mem_tail (hb ▸ List.mem_cons_self), fun hslash => hhead ?_⟩
      rw [hb, hslash]
      rfl
    subst hnil
    exact resolve_empty h.named hstr hcur rfl
  · exact resolve_adj_zero h.named hstr hone

theorem handle_link_acts (hshort : 8 * g.table ≤ 2 ^ 15) (hsafe : (Request.link (some old) (some new) cur).Safe g σ)
    (hkeeps : (Request.link (some old) (some new) cur).KeepsTree g σ) (hplain : (Request.link (some old) (some new) cur).Plain σ)
    (hends : (Request.link (some old) (some new) cur).Ends) (hproper : (Request.link (some old) (some new) cur).Proper g σ) :
    wp g (handle_link (some old) (some new) cur) σ fun r τ => (Request.link (some old) (some new) cur).Acts g σ { ret := r } τ := by
  have hw := h.wellFormed
  rcases hp : adj_path_i old cur with ⟨p, s⟩
  obtain rfl : View.start old cur = s := by rw [← adj_path_i_start, hp]
  rcases hq : adj_path_i new (View.start old cur) with ⟨q, c⟩
  have hqpath : q = (adj_path_i new cur).1 := by rw [adj_path_i_path (s := View.start old cur), hq]
  have hstart : σ.Taken g (View.start new (View.start old cur)) := h.planted.start hkeeps
  have hc : σ.Taken g c := by
    rw [← adj_path_i_start, hq] at hstart
    exact hstart
  have hfollow := h.planted.find hkeeps
  have hroom : ∀ d name, σ.superDir q c = (d, name) → d ≠ ERROR → σ.isDir d → σ.RoomFor g d name := by
    have hsafe' := hsafe.2
    rw [hp, hq] at hsafe'
    exact fun d name hsup _ => hsafe' d name hsup
  refine handle_link_cases hw g.isInode_root hsafe.1 hp hq hroom (fun hle => ?_) fun i hpos hres => ?_
  · exact .of (if_neg fun hgo => absurd hgo.1 (by omega)) (if_pos rfl) .senseless
  have hstr : 0 ∉ (adj_path_i new (View.start old cur)).1 := adj_path_i_zero hplain
  have hbase : basename q = basename new := by
    have hadj : basename (adj_path_i new (View.start old cur)).1 = basename new := basename_adj
    rwa [hq] at hadj
  rw [hq] at hstr
  by_cases hmeant : HasPart old ∧ OneSlash old
  swap
  · have hmissed := h.resolve_meant hsafe.1 hproper hmeant
    rw [hp] at hmissed
    have h0 : i = 0 := hres.symm.trans hmissed
    exact ⟨fun _ => .of (if_neg fun hgo => hmeant ⟨hgo.2.1, hgo.2.2.1⟩) (if_pos rfl) .senseless, fun hi => absurd h0 hi⟩
  obtain ⟨hold, hone⟩ := hmeant
  have hmeans := resolve_adj h.named hproper hw hsafe.1 (by rintro rfl; obtain ⟨_, hm, _⟩ := hold; cases hm) hone
  rw [hp, hres] at hmeans
  have hgo : isPathnameValid q = true → (Request.link (some old) (some new) cur).op =
      .link (View.start old cur) (names old) (place (View.start old cur) new) := fun hvalid => if_pos ⟨hpos, hold, hone, hqpath ▸ hvalid⟩
  have hinvalid : isPathnameValid q ≠ true → (Request.link (some old) (some new) cur).op = .senseless := fun hvalid =>
    if_neg fun hgo => hvalid (hqpath ▸ hgo.2.2.2)
  refine ⟨fun hmiss => ?_, fun h0 hfile => ⟨fun hbad => ?_, fun d name hvalid hcpos hsup => ?_⟩⟩
  · by_cases hvalid : isPathnameValid q = true
    · refine .of (hgo hvalid) (if_pos rfl) (.notLinked fun j d hj hjfile _ => ?_)
      rw [hfollow] at hj
      rw [hj, Option.getD_some] at hmeans
      subst hmeans
      have hnode : σ.Taken g i := follow_mem hkeeps (fun _ _ _ hn hg => h.planted.graph_taken hn hg) ((View.reference_eq ..).symm.trans hj)
      exact absurd ⟨hnode, hmiss.resolve_left hnode.2.2⟩ hjfile
    · exact .of (hinvalid hvalid) (if_pos rfl) .senseless
  · have hcpos : 0 < c := by
      have := hc.1.1
      have := hc.2.2
      omega
    refine .of (hinvalid fun hvalid => ?_) (if_pos rfl) .senseless
    rcases hbad with hbad | hle
    · rw [hvalid] at hbad
      cases hbad
    · omega
  · have hlen := (isPathnameValid_basename hvalid fun hnil => hends (by rw [← hbase, hnil]; rfl)).1
    have hparent : σ.parent (adj_path_i new (View.start old cur)).1 (adj_path_i new (View.start old cur)).2 =
        σ.parent new (View.start old cur) := parent_adj
    rw [hq] at hparent
    obtain ⟨hdeq, hname⟩ := Prod.mk.inj (hsup.symm.trans (superDir_eq h.named hw hc.1 hc.2.2 hstr hlen))
    rw [hparent] at hdeq
    obtain rfl : name = basename new := hname.trans hbase
    have hat := fun e => h.at_parent (e := e) hstart hdeq.symm
    have hlookup : σ.Taken g d → σ.isDir d → σ.lookup d (basename new) ≠ 0 → (σ.catalog g).edge d (entryName (basename new)) ≠ none :=
      fun hd hdir hlive hnone => hlive ((h.edge_none hd hdir hplain).mp hnone)
    have hdir_taken : d ≠ ERROR → σ.Taken g d := h.planted.superDir (h.planted.start hc) hsup
    refine ⟨fun hmiss => .of (hgo hvalid) (if_pos rfl) (.notLinked fun j e _ _ he => ?_), fun hne hdir k σ₁ hp hfree => ?_⟩
    · obtain ⟨rfl, hne, hdir⟩ := (hat e).mp he
      exact hlookup (hdir_taken hne) hdir ((hmiss.resolve_left hne).resolve_left (not_not.mpr hdir))
    · have hi : σ.Taken g (σ.resolve p (View.start old cur)) :=
        h.planted.walk hkeeps fun hzero => h0 (hres.symm.trans hzero)
      rw [hres] at hi
      refine .of (hgo hvalid) (if_neg (show (0 : Int) ≠ ERROR by decide)) ?_
      refine h.link_step hshort hi hfile ?_ hold ((hat d).mpr ⟨rfl, hne, hdir⟩) (hdir_taken hne) hdir (hroom _ _ hsup hne hdir) hplain hends hp hfree
      rw [hfollow]
      cases href : σ.reference old cur with
      | none =>
        rw [href] at hmeans
        exact absurd hmeans h0
      | some j =>
        rw [href] at hmeans
        exact congrArg some hmeans.symm

/-! ## `unlink` -/

/-- Without one entry a file still has a name if it has another entry. -/
theorem named_without {b : EntryName} (hk : (σ.nodes g).entries d k = some (i, b.1)) :
    ((σ.catalog g).point d b none).Named i ↔ Tree.into (σ.nodes g).entries i ≠ {(d, k)} := by
  have hmem : (d, k) ∈ Tree.into (σ.nodes g).entries i := ⟨_, hk⟩
  constructor
  · rintro ⟨e, a, he⟩ hall
    dsimp only [point] at he
    split at he
    case isTrue => cases he
    case isFalse hne =>
      obtain ⟨l, hl⟩ := (edge_entries h.named).mp he
      have hone : (e, l) ∈ ({(d, k)} : Set (Int × Nat)) := hall ▸ ⟨_, hl⟩
      obtain ⟨rfl, rfl⟩ := Prod.mk.inj hone
      rw [hk] at hl
      exact hne ⟨rfl, Subtype.ext (Prod.mk.inj (Option.some.inj hl)).2.symm⟩
  · intro hmore
    obtain ⟨⟨e, l⟩, ⟨a, hl⟩, hne⟩ : ∃ p ∈ Tree.into (σ.nodes g).entries i, p ≠ (d, k) := by
      by_contra hnone
      refine hmore (Set.eq_singleton_iff_unique_mem.mpr ⟨hmem, fun p hp => ?_⟩)
      by_contra hne
      exact hnone ⟨p, hp, hne⟩
    obtain ⟨_, hlive, hname⟩ := entries_eq_some.mp hl
    have hshort : a.length ≤ DIRNAMELEN := hname ▸ slotName_length (v := σ.toView) ▸ (List.takeWhile_sublist _).length_le
    refine ⟨e, ⟨a, hshort⟩, ?_⟩
    show (if e = d ∧ (⟨a, hshort⟩ : EntryName) = b then none else (σ.catalog g).edge e ⟨a, hshort⟩) = some i
    rw [if_neg]
    · exact (edge_entries h.named).mpr ⟨l, hl⟩
    · rintro ⟨rfl, rfl⟩
      exact hne (Prod.ext rfl (entries_once h.named hk hl))

/-- `handle_unlink` once it has found a file. -/
theorem unlink_step (hat : (σ.catalog g).At (place cur path) d) (hd : σ.Taken g d) (hdir : σ.isDir d) (hstr : 0 ∉ path)
    (hk : σ.findSlot d (basename path) = some k) (hlive : σ.slotInum d k ≠ 0) (hfile : ¬ σ.isDir (σ.slotInum d k)) :
    Step selfName parentName (σ.catalog g) (.unlink (place cur path)) .ok ((σ.removeEntry d k).catalog g) := by
  have hw := h.wellFormed
  have hlt := findSlot_lt hk
  have hi : σ.Taken g (σ.slotInum d k) := h.planted.target hd ⟨hdir, hlt, rfl, hlive⟩
  have hname : cname (σ.slotName d k) = (basename path).take DIRNAMELEN := by
    rw [findSlot_basename h.named hd.1 hdir hstr] at hk
    simpa using List.find?_some hk
  have htype : (σ.removeEntry d k).type (σ.slotInum d k) = σ.type (σ.slotInum d k) := removeEntry_edits _ .type (by simp)
  have hentry : (σ.nodes g).entries d k = some (σ.slotInum d k, (entryName (basename path)).1) :=
    entries_eq_some.mpr ⟨hd, ⟨hdir, hlt, rfl, hlive⟩, hname⟩
  have hlinks := h.counted.links _ ⟨hi.1, hi.2.2, h.typed _ ⟨d, _, (edge_entries h.named).mpr ⟨k, hentry⟩⟩ hfile⟩
  change σ.nlink (σ.slotInum d k) = _ at hlinks
  have hrem := removeEntry_removed hw h.named hd.1 hdir hlt hname hlive hfile (by omega)
  have hfile' : ¬ (σ.catalog g).dir (σ.slotInum d k) := fun hn => hfile hn.2
  have hedge := (h.edge_last hd hdir hstr).mpr ⟨lookup_some hk, hlive⟩
  by_cases hlast : (σ.removeEntry d k).nlink (σ.slotInum d k) = 0
  · rw [hrem.catalog_last hd hi hfile htype (removeEntry_size_last hlast)]
    refine .erased hat hedge hfile' fun hn => (h.named_without hentry).mp hn ?_
    have hone : (Tree.into (σ.nodes g).entries (σ.slotInum d k)).ncard = 1 := by
      have := hrem.nlink
      omega
    obtain ⟨p, hp⟩ := Set.ncard_eq_one.mp hone
    have hmem : (d, k) ∈ Tree.into (σ.nodes g).entries (σ.slotInum d k) := ⟨_, hentry⟩
    rw [hp] at hmem ⊢
    rw [Set.mem_singleton_iff.mp hmem]
  · rw [hrem.catalog hd hlast]
    refine .unlinked hat hedge hfile' ((h.named_without hentry).mpr fun hall => hlast ?_)
    rw [hall, Set.ncard_singleton] at hlinks
    have := hrem.nlink
    omega

theorem handle_unlink_acts (hsafe : (Request.unlink (some path) cur).Safe g σ) (hkeeps : (Request.unlink (some path) cur).KeepsTree g σ)
    (hproper : (Request.unlink (some path) cur).Proper g σ) :
    wp g (handle_unlink (some path) cur) σ fun r τ => (Request.unlink (some path) cur).Acts g σ { ret := r } τ := by
  have hw := h.wellFormed
  refine handle_unlink_cases hw g.isInode_root hsafe (fun hle => ?_) fun d name hpos hsup hne => ?_
  · exact .of (if_neg (by omega)) (if_pos rfl) .senseless
  obtain ⟨hdeq, hname⟩ := Prod.mk.inj (hsup.symm.trans (superDir_eq h.named hw hsafe (by omega) hproper (superDir_length hsup hne)))
  subst hname
  have hat := fun e => h.at_parent (e := e) hkeeps.1 hdeq.symm
  have hd := h.planted.superDir hkeeps.1 hsup hne
  have hnone (hmiss : ¬ σ.isDir d ∨ σ.lookup d (basename path) = 0) (e : Int) (he : (σ.catalog g).At (place cur path) e) :
      (σ.catalog g).edge e (entryName (basename path)) = none := by
    obtain ⟨rfl, _, hdir⟩ := (hat e).mp he
    exact (h.edge_none hd hdir hproper).mpr (hmiss.resolve_left (not_not.mpr hdir))
  refine ⟨fun hmiss => .of (if_pos hpos) rfl (.notUnlinked _ (hnone (hmiss.imp_right lookup_none))), fun k hdir hk => ?_⟩
  have hlook := lookup_some hk
  by_cases hlive : σ.slotInum d k = 0
  · -- A slot that has been emptied keeps its name, and is found by it.
    refine .of (if_pos hpos) rfl ?_
    rw [removeEntry_idle hw h.named hd hdir (findSlot_lt hk) hlive]
    exact .notUnlinked _ (hnone (.inr (hlook.trans hlive)))
  · refine .of (if_pos hpos) (if_neg (show (0 : Int) ≠ ERROR by decide)) ?_
    refine h.unlink_step ((hat d).mpr ⟨rfl, hne, hdir⟩) hd hdir hproper hk hlive ?_
    rw [← hlook] at hlive ⊢
    exact hkeeps.2 _ _ hsup hdir hlive

/-! ## `mkdir` -/

theorem handle_mkdir_acts (hshort : 8 * g.table ≤ 2 ^ 15) (hsafe : (Request.mkdir (some path) cur).Safe g σ)
    (hkeeps : (Request.mkdir (some path) cur).KeepsTree g σ) (hplain : (Request.mkdir (some path) cur).Plain σ)
    (hends : (Request.mkdir (some path) cur).Ends) :
    wp g (handle_mkdir (some path) cur) σ fun r τ => (Request.mkdir (some path) cur).Acts g σ { ret := r } τ := by
  have hw := h.wellFormed
  obtain ⟨hcur, hdirs, hroom⟩ := hsafe
  obtain ⟨hstr, hblocks⟩ := hplain
  refine handle_mkdir_cases hw g.isInode_root hcur (fun d name hsup hne => (hdirs d name hsup hne).2)
    (fun d name k τ hsup _ hp h0 => (hroom d name k τ hsup hp h0).2.2) (fun d name hsup hne hfile => absurd (hdirs d name hsup hne).1 hfile)
    (fun hle => .of (if_neg (by omega)) (if_pos rfl) .senseless) fun d name hpos hsup hne => ?_
  obtain ⟨hdeq, hname⟩ := Prod.mk.inj (hsup.symm.trans (superDir_eq h.named hw (from_root_isInode path g.isInode_root hcur)
    (Int.ne_of_gt (from_root_pos path hpos)) (from_root_zero hstr) (superDir_length hsup hne)))
  rw [parent_from_root] at hdeq
  rw [basename_from_root] at hname
  subst hname
  have hstart : σ.Taken g (View.start (from_root path cur).1 (from_root path cur).2) := by
    rw [start_from_root]
    exact hkeeps.1
  have hat := fun e => h.at_parent (e := e) hkeeps.1 hdeq.symm
  have hd := h.planted.superDir hstart hsup hne
  obtain ⟨hdir, hfits⟩ := hdirs _ _ hsup hne
  refine ⟨fun hlive => .of (if_pos hpos) (if_pos rfl) (.notMadeDir fun e he => ?_), fun _ k σ₁ hp hfree _ => ?_, fun hfile => absurd hdir hfile⟩
  · obtain ⟨rfl, _⟩ := (hat e).mp he
    exact fun hnone => hlive ((h.edge_none hd hdir hstr).mp hnone)
  · have hlook := hp.lookup_zero hfree
    obtain ⟨hlen, hblock, hdata⟩ := hroom _ _ _ _ hsup hp hfree
    have hname := isName_basename hstr hends
    have hnew := (newDir_made hp hw hd.1 hdir hfits hlen hshort hblock hdata h.named hname hd.ne_next.symm hfree).2
    have hnext := hkeeps.2 _ _ hsup hlook
    have hhead : σ.i_head = σ.nextInode :: (σ₁.newDir d k (basename path)).i_head := by
      rw [newDir_i_head, hp.i_head, FS.nextInode]
      cases hl : σ.i_head with
      | nil => exact absurd (by rw [FS.nextInode, hl]; rfl) hnext
      | cons a l => rfl
    refine .of (if_pos hpos) (if_neg (show (0 : Int) ≠ ERROR by decide)) ?_
    rw [hnew.catalog h.planted h.named hname (hblocks _ _ hsup hlook) hhead hw.nextInode hnext hd]
    exact .madeDir ((hat d).mpr ⟨rfl, hne, hdir⟩) ((h.edge_none hd hdir hstr).mpr hlook) fun hn => hn.ne_next rfl

/-! ## `rmdir` -/

/-- A directory of two slots has its own two names. -/
theorem dots_only {b : EntryName} (hsize : σ.size i ≤ 64) (he : (σ.catalog g).edge i b = some j) : b = selfName ∨ b = parentName := by
  obtain ⟨l, hl⟩ := (edge_entries h.named).mp he
  obtain ⟨_, hlive, _⟩ := entries_eq_some.mp hl
  have hlt := hlive.lt
  rw [View.slots] at hlt
  obtain ⟨h0, h1, _⟩ := h.dotted i l j b.1 hl
  obtain rfl | rfl : l = 0 ∨ l = 1 := by omega
  · exact .inl (Subtype.ext (h0 rfl))
  · exact .inr (Subtype.ext (h1 rfl))

theorem handle_rmdir_acts (hsafe : (Request.rmdir (some path) cur).Safe g σ) (hkeeps : (Request.rmdir (some path) cur).KeepsTree g σ)
    (hproper : (Request.rmdir (some path) cur).Proper g σ) :
    wp g (handle_rmdir (some path) cur) σ fun r τ => (Request.rmdir (some path) cur).Acts g σ { ret := r } τ := by
  have hw := h.wellFormed
  refine handle_rmdir_spec hw g.isInode_root hsafe.1 ?_ fun r τ hremoved => ?_
  · rintro i d name rfl hsize hsup hd
    exact hsafe.2 hsize d name hsup hd
  cases hremoved with
  | error =>
    by_cases hpos : 0 < cur
    · exact .of (if_pos hpos) (if_pos rfl) .notRemoved
    · exact .of (if_neg hpos) (if_pos rfl) .senseless
  | @done i d k name σ₁ hpos hi hsize hsup hne hdir hp =>
    obtain ⟨htaken, hidir, _, honly⟩ := hkeeps.2 i hi hsize
    obtain ⟨hdi, hlook⟩ := honly _ _ hsup hne
    have hw₁ := dropDir_wellFormed hw htaken.1
    have hn₁ := dropDir_named hw htaken.1 h.named
    have hfrom := from_root_isInode path g.isInode_root hsafe.1
    have hf0 := Int.ne_of_gt (from_root_pos path hpos)
    obtain ⟨hdeq, hname⟩ := Prod.mk.inj (hsup.symm.trans (superDir_eq hn₁ hw₁ hfrom hf0 (from_root_zero hproper) (superDir_length hsup hne)))
    rw [basename_from_root] at hname
    subst hname
    obtain ⟨e, hpar⟩ : ∃ e, (σ.dropDir i).parent (from_root path cur).1 (from_root path cur).2 = some e := by
      rw [← Option.ne_none_iff_exists']
      intro hnone
      rw [hnone] at hdeq
      exact hne hdeq
    rw [hpar, Option.getD_some] at hdeq
    subst hdeq
    have hold := ((dropDir_parent hw htaken.1 hfrom).mp hpar).1
    rw [parent_from_root] at hold
    have hstart : σ.Taken g (View.start (from_root path cur).1 (from_root path cur).2) := by
      rw [start_from_root]
      exact hkeeps.1
    have hd := h.planted.superDir_drop hw htaken hstart hsup hne
    have hsame := dropDir_same hw htaken.1 hd.1 hdi
    have hdir' := hsame.isDir.mp hdir
    have hedge := (h.edge_last hd hdir' hproper).mpr ⟨hlook, htaken.2.2⟩
    cases hl : σ.findSlot d (basename path) with
    | none => exact absurd ((lookup_none hl).symm.trans hlook) htaken.2.2.symm
    | some l =>
      have hname : cname (σ.slotName d l) = (basename path).take DIRNAMELEN := by
        have hfirst := hl
        rw [findSlot_basename h.named hd.1 hdir' hproper] at hfirst
        simpa using List.find?_some hfirst
      have hl' : (σ.dropDir i).findSlot d (basename path) = some l := hsame.findSlot.trans hl
      refine .of (if_pos hpos) (if_neg (show (0 : Int) ≠ ERROR by decide)) ?_
      have hcat := clearEntry_catalog hw h.named htaken hidir hd hdir' hdi (findSlot_lt hl) ((lookup_some hl).symm.trans hlook) hname
      have hat := (h.at_parent hkeeps.1 (by rw [hold]; rfl)).mpr ⟨rfl, hne, hdir'⟩
      cases hp with
      | found hk =>
        obtain rfl := Option.some.inj (hk.symm.trans hl')
        rw [hcat]
        exact .removed hat hedge ⟨htaken, hidir⟩ hdi fun c j => h.dots_only hsize
      | free hnone => exact absurd (hnone.symm.trans hl') (by simp)
      | new hnone => exact absurd (hnone.1.symm.trans hl') (by simp)

end FS.Filed

/-! ## `read` -/

theorem read_acts {sv sv' : Server} {resp : Response} {buf : UserBuf} {size offset : Int} (h : OnDisk g sv) (hf : sv.fs.Filed g)
    (hshort : 8 * g.table ≤ 2 ^ 15) (hproper : (Request.read i buf size offset).Proper g sv.fs)
    (hserve : serve sv (.read i buf size offset) = some (resp, sv')) : (Request.read i buf size offset).Acts g sv.fs resp sv'.fs := by
  obtain ⟨hi, hsize, hoffset⟩ := hproper
  obtain ⟨hsound, σ', heff, _, hagree⟩ := h.toSound.step hshort (show (Request.read i buf size offset).Safe g sv.fs from hi.1) hserve
  have hcat := hagree.catalog hsound.wellFormed
  rw [heff.of_looks rfl] at hcat
  unfold Request.Acts
  rw [hcat]
  by_cases hun : sv.fs.isDir i ∨ ¬ buf.Covers size.toNat
  · exact .unsaid _ (hun.imp_left fun hdir => ⟨hi, hdir⟩)
  obtain ⟨hfile, hbuf⟩ := not_or.mp hun
  have hbuf := not_not.mp hbuf
  have h0 := hf.sized i hi hfile
  have hlen := View.length_content h0
  have hlaid := h.wellFormed.laid h.inRange hi.1
  have hshown : (sv.fs.catalog g).content i = sv.fs.content i := content_file hi hfile
  have hrun : ∀ {reply : Reply}, eval g (handle_read i buf size offset) sv.fs.logical = some (reply, sv.fs.logical) →
      resp = { ret := reply.ret, copied := reply.copied } := by
    intro reply he
    obtain ⟨_, sv'', _, hrun, rfl, _⟩ := handle_read_alike.run_eq h.caches.rel he (handle_read_steady h.caches.tidy).not_stale
    rw [serve_handler (by simp), Request.handler, run_bind, hrun] at hserve
    exact (Prod.mk.inj (Option.some.inj hserve)).1.symm
  by_cases hpast : offset > sv.fs.size i
  · obtain rfl := hrun (handle_read_past hi.1 hpast)
    refine Request.Acts.of (g := g) rfl (if_pos rfl) (.past ?_)
    rw [hshown]
    omega
  · have hwithin : offset.toNat ≤ (sv.fs.content i).length := by omega
    have hcovers : buf.Covers (min size.toNat ((sv.fs.content i).length - offset.toNat)) :=
      fun pos len hpos => hbuf pos len (by omega)
    have hcopies := handle_read_copies (hlaid.holds h0) hcovers hwithin
    rw [Int.toNat_of_nonneg hsize, Int.toNat_of_nonneg hoffset] at hcopies
    obtain rfl := hrun hcopies
    refine Request.Acts.of (g := g) rfl (if_neg ?_) ?_
    · dsimp only [ERROR]
      omega
    · rw [← List.length_drop, ← hshown, ← List.take_eq_take_min]
      exact .slice (fun hn => hfile hn.2) (by rw [hshown]; omega)

end Yfs
