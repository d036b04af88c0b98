import Yfs.Names

/-! # Resolving a path, and cutting it at its last slash -/

namespace Yfs

variable {g : Geometry} {v : View} {σ : FS} {sv : Server} {p path name : CStr} {d cur : Int} {fuel : Nat}

namespace View

/-- The inode in the first slot of `d` that has the name, 0 if there is none, or no directory. -/
def child (v : View) (d : Int) (name : CStr) : Int :=
  if v.isDir d then ((v.firstNamed d (name.take DIRNAMELEN)).map (v.slotInum d)).getD 0 else 0

/-- The inode that the components lead to, one after the other. -/
def descend (v : View) (cs : List CStr) (d : Int) : Int := cs.foldl v.child d

/-- No directory entry has a slash in its name. -/
def Plain (g : Geometry) (v : View) : Prop := ∀ d k, g.isInode d → v.isDir d → k < v.slots d → SLASH ∉ cname (v.slotName d k)

end View

theorem View.Named.isPlain (hn : v.Named g) : View.Plain g v := hn.plain

theorem descend_nil : v.descend [] d = d := rfl

theorem descend_cons {c : CStr} {cs : List CStr} : v.descend (c :: cs) d = v.descend cs (v.child d c) := rfl

theorem descend_concat {c : CStr} {cs : List CStr} : v.descend (cs ++ [c]) d = v.child (v.descend cs d) c :=
  List.foldl_concat v.child d c cs

/-- Nothing is under what is no directory. -/
theorem child_of_file (hfile : ¬ v.isDir d) : v.child d name = 0 := if_neg hfile

theorem descend_zero {cs : List CStr} (hzero : ¬ v.isDir 0) : v.descend cs 0 = 0 := by
  induction cs with
  | nil => rfl
  | cons c cs ih => rw [descend_cons, child_of_file hzero, ih]

theorem child_isInode (hw : WellFormed g σ) (hd : g.isInode d) : g.isInode (σ.child d name) := by
  unfold View.child
  split
  case isTrue hdir =>
    cases hk : σ.firstNamed d (name.take DIRNAMELEN) with
    | none => exact g.isInode_zero
    | some k => exact hw.entries d k hd hdir (List.mem_range.mp (List.mem_of_find?_eq_some hk))
  case isFalse => exact g.isInode_zero

theorem descend_isInode (hw : WellFormed g σ) {cs : List CStr} (hd : g.isInode d) : g.isInode (σ.descend cs d) := by
  induction cs generalizing d with
  | nil => exact hd
  | cons c cs ih => exact ih (child_isInode hw hd)

/-! ## The walk -/

section

variable (hplain : View.Plain g σ.toView) (hw : WellFormed g σ)
include hplain

/-- The walk looks the first component up. -/
theorem lookup_child (hd : g.isInode d) (hdir : σ.isDir d) (hstr : 0 ∉ path) :
    σ.lookup d path = σ.child d (path.takeWhile (· ≠ SLASH)) := by
  rw [View.lookup, findSlot_firstNamed (fun k => hplain d k hd hdir) hstr, View.child, if_pos hdir]

include hw

/-- It takes all components, one by one. -/
theorem walk_descend (hzero : ¬ σ.isDir 0) (hd : g.isInode d) (hstr : 0 ∉ path) (hne : path ≠ []) (hslash : path.head? ≠ some SLASH)
    (hfuel : path.length < fuel) : σ.walk fuel path d = σ.descend (components path) d := by
  induction fuel generalizing path d with
  | zero => omega
  | succ fuel ih =>
    have hnext : 0 ∉ get_next_path_part path := fun h =>
      hstr ((List.dropWhile_suffix _).subset ((List.dropWhile_suffix _).subset h))
    rw [View.walk, components_cons hne hslash, descend_cons]
    split
    case isFalse hfile => rw [child_of_file hfile, descend_zero hzero]
    case isTrue hdir =>
      rw [lookup_child hplain hd hdir hstr]
      split
      case isTrue hlast => rw [hlast, components_nil, descend_nil]
      case isFalse hmore =>
        have hshort := next_part_shorter hmore
        exact ih (child_isInode hw hd) hnext hmore (skip_slashes_head _) (by omega)

theorem resolve_descend (hzero : ¬ σ.isDir 0) (hd : g.isInode d) (hstr : 0 ∉ path) (hne : path ≠ []) (hslash : path.head? ≠ some SLASH) :
    σ.resolve path d = σ.descend (components path) d :=
  walk_descend hplain hw hzero hd hstr hne hslash (Nat.lt_succ_self _)

/-- The containing directory is where all components but the last one lead. -/
theorem superDir_descend (hzero : ¬ σ.isDir 0) (hcur : g.isInode cur) (h0 : cur ≠ 0) (hstr : 0 ∉ p) (hlen : p.length < MAXPATHNAMELEN) :
    σ.superDir p cur = (if σ.descend (components (dirname p)) (View.start p cur) = 0 then ERROR
      else σ.descend (components (dirname p)) (View.start p cur), basename p) := by
  rcases superDir_cut σ.toView cur hstr hlen with ⟨hnone, hsup⟩ | ⟨q, hne, hhead, hq, hcomp, hsup⟩
  · rw [hsup, hnone, descend_nil, if_neg (start_ne_zero h0)]
  · rw [hsup, ← hcomp, resolve_descend hplain hw hzero (start_isInode hcur) hq hne hhead]

end

/-! ## The two ways -/

/-- The inode number that an answer of `get_dir_entry` stands for. -/
def View.inumAt (v : View) (r : Int × Int) : Int := if r.1 = -1 then 0 else (v.block r.2).inum r.1.toNat

/-- `get_dir_entry` answers with the first slot that has the name. -/
theorem get_dir_entry_lookup (hrel : Rel g sv σ) (hw : WellFormed g σ) (hr : InRange g σ) (hd : g.isInode d) (c : CStr) :
    ∃ r sv', run (get_dir_entry c d false) sv = some (r, sv') ∧ sv'.fs.inumAt r = σ.lookup d c := by
  have hm := hw.mapped d hd
  have hspec : wp g (get_dir_entry c d false) σ fun r τ => τ = σ ∧ (r.1 ≠ -1 → ¬ g.isTable r.2) ∧ σ.inumAt r = σ.lookup d c := by
    refine get_dir_entry_spec hd hm (fun k hk => ⟨rfl, fun _ => ?_, ?_⟩) fun hk => ⟨rfl, fun hne => absurd rfl hne, ?_⟩
    · exact hm.data _ (covers_of_slot (findSlot_lt hk))
    · rw [lookup_some hk, View.inumAt, if_neg (by omega), View.slotInum, Int.toNat_natCast]
    · rw [lookup_none hk]
      rfl
  obtain ⟨r, sv', _, hrun, ⟨rfl, hdata, hinum⟩, hrel'⟩ :=
    run_total hrel (get_dir_entry_steady hrel.cachesOk.tidy).not_stale (get_dir_entry_total hd hm hr) hspec
  refine ⟨r, sv', hrun, ?_⟩
  rw [← hinum, View.inumAt, View.inumAt]
  split
  case isTrue => rfl
  case isFalse hne => rw [hrel'.agrees.block _ (hdata hne)]

/-- `get_dir_entry` finds the child of that name. -/
theorem get_dir_entry_child (hrel : Rel g sv σ) (hw : WellFormed g σ) (hr : InRange g σ) (hplain : View.Plain g σ.toView)
    (hd : g.isInode d) (hdir : σ.isDir d) (hstr : 0 ∉ p) :
    ∃ r sv', run (get_dir_entry (basename p) d false) sv = some (r, sv') ∧ sv'.fs.inumAt r = σ.child d (basename p) := by
  have hchild := lookup_child hplain hd hdir (basename_zero hstr)
  rw [takeWhile_basename] at hchild
  rw [← hchild]
  exact get_dir_entry_lookup hrel hw hr hd (basename p)

theorem basename_ne_nil (hpart : components p ≠ []) (hlast : p.getLast? ≠ some SLASH) : basename p ≠ [] := by
  rcases List.eq_nil_or_concat p with rfl | ⟨q, c, rfl⟩
  · exact absurd components_nil hpart
  · have hc : c ≠ SLASH := fun he => hlast (by rw [he, List.concat_eq_append, List.getLast?_concat])
    rw [List.concat_eq_append, basename_concat hc]
    exact List.append_ne_nil_of_right_ne_nil _ (List.cons_ne_nil _ _)

section

variable (h : OnDisk g sv) (hplain : View.Plain g sv.fs.toView) (hzero : ¬ sv.fs.isDir 0) (hcur : g.isInode cur) (hdir : sv.fs.isDir cur)
  (hstr : 0 ∉ p) (hlen : p.length < MAXPATHNAMELEN) (hpart : components p ≠ []) (hlast : p.getLast? ≠ some SLASH)
include h hplain hzero hcur hdir hstr hlen hpart hlast

/-- **Cutting a path agrees with resolving it.** The walk over a path ends where its components lead one by one, and so does the search
for the last one in the directory that `get_super_dir` finds. -/
theorem splitting_agrees : (∃ sv', run (get_path_i_num (skip_slashes p) (View.start p cur)) sv =
      some (sv.fs.descend (components p) (View.start p cur), sv')) ∧
    ∃ d name sv', run (get_super_dir p cur) sv = some ((d, name), sv') ∧
      (d = ERROR ∨ ¬ sv.fs.isDir d → sv.fs.descend (components p) (View.start p cur) = 0) ∧
      (d ≠ ERROR → sv.fs.isDir d → ∃ r sv'', run (get_dir_entry name d false) sv' = some (r, sv'') ∧
        sv.fs.descend (components p) (View.start p cur) = sv''.fs.inumAt r) := by
  have hbase := basename_ne_nil hpart hlast
  have h0 : cur ≠ 0 := fun he => hzero (he ▸ hdir)
  have hwf := h.wellFormed
  have hstart : g.isInode (View.start p cur) := start_isInode hcur
  have hfound : sv.fs.descend (components p) (View.start p cur) =
      sv.fs.child (sv.fs.descend (components (dirname p)) (View.start p cur)) (basename p) := by
    rw [components_basename hbase, descend_concat]
  constructor
  · have hne : skip_slashes p ≠ [] := fun he => hpart (by rw [← components_skip_slashes, he, components_nil])
    have hstr' : 0 ∉ skip_slashes p := fun hm => hstr ((List.dropWhile_suffix _).subset hm)
    have hres := resolve_descend hplain hwf hzero hstart hstr' hne (skip_slashes_head p)
    rw [components_skip_slashes] at hres
    have hspec : wp g (get_path_i_num (skip_slashes p) (View.start p cur)) sv.fs fun r _ =>
        r = sv.fs.descend (components p) (View.start p cur) := get_path_i_num_spec hwf hstart hres
    obtain ⟨_, sv', _, hrun, rfl, _⟩ := h.returns (path_walk_steady h.caches.tidy) (get_path_i_num_total hwf h.inRange hstart) hspec
    exact ⟨sv', hrun⟩
  · have hsup := superDir_descend hplain hwf hzero hcur h0 hstr hlen
    have hspec : wp g (get_super_dir p cur) sv.fs fun r τ => r = sv.fs.superDir p cur ∧ τ = sv.fs :=
      get_super_dir_spec hwf hcur g.isInode_root ⟨rfl, rfl⟩
    obtain ⟨_, sv', _, hrun, ⟨rfl, rfl⟩, hrel⟩ :=
      h.returns (get_super_dir_steady h.caches.tidy) (get_super_dir_total hwf h.inRange hcur) hspec
    rw [hsup] at hrun
    have hin : g.isInode (sv.fs.descend (components (dirname p)) (View.start p cur)) := descend_isInode hwf hstart
    generalize sv.fs.descend (components (dirname p)) (View.start p cur) = e at hrun hfound hin
    rw [hfound]
    refine ⟨_, _, sv', hrun, fun hnone => ?_, fun hne hd => ?_⟩
    · by_cases he : e = 0
      · rw [he, child_of_file hzero]
      · rw [if_neg he] at hnone
        exact child_of_file (hnone.resolve_left (isInode_ne_error hin))
    · by_cases he : e = 0
      · exact absurd (if_pos he) hne
      · rw [if_neg he] at hd ⊢
        obtain ⟨r, sv'', hrun', hinum⟩ := get_dir_entry_child hrel hwf h.inRange hplain hin hd hstr
        exact ⟨r, sv'', hrun', hinum.symm⟩

end

theorem splitting_agrees_slashes : (∃ sv', run (get_path_i_num [DOT] ROOTINODE) smallStart =
      some (smallStart.fs.descend [[DOT]] ROOTINODE, sv')) ∧
    ∃ d name sv', run (get_super_dir [SLASH, SLASH, DOT] 1) smallStart = some ((d, name), sv') ∧
      (d = ERROR ∨ ¬ smallStart.fs.isDir d → smallStart.fs.descend [[DOT]] ROOTINODE = 0) ∧
      (d ≠ ERROR → smallStart.fs.isDir d → ∃ r sv'', run (get_dir_entry name d false) sv' = some (r, sv'') ∧
        smallStart.fs.descend [[DOT]] ROOTINODE = sv''.fs.inumAt r) :=
  splitting_agrees (p := [SLASH, SLASH, DOT]) smallStart_onDisk smallStart_named.isPlain (by decide +kernel) (by decide) (by decide +kernel)
    (by decide) (by decide) (by decide +kernel) (by decide)

end Yfs
