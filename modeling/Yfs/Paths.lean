import Yfs.Answers

/-! # One path semantics -/

namespace Yfs

/-! ## Components and names -/

/-- What is between the slashes. -/
def components (p : CStr) : List CStr := (p.splitOn SLASH).filter (· ≠ [])

/-- The bytes of a name before its terminator. -/
def cname (name : List UInt8) : CStr := name.takeWhile (· ≠ 0)

variable {p path name : CStr}

theorem components_append (p q : CStr) : components (p ++ SLASH :: q) = components p ++ components q := by
  rw [components, List.splitOn_append_cons_self, List.filter_append, components, components]

theorem components_nil : components [] = [] := rfl

theorem components_slash (p : CStr) : components (SLASH :: p) = components p :=
  components_append [] p

theorem components_skip_slashes (p : CStr) : components (skip_slashes p) = components p := by
  induction p with
  | nil => rfl
  | cons c p ih =>
    by_cases hc : c = SLASH
    · subst hc
      rw [components_slash, ← ih, skip_slashes, List.dropWhile_cons_of_pos (by simp)]
      rfl
    · rw [skip_slashes, List.dropWhile_cons_of_neg (by simpa using hc)]

theorem components_part (h : SLASH ∉ p) (hne : p ≠ []) : components p = [p] := by
  rw [components, List.splitOn_eq_singleton h]
  simp [hne]

theorem mem_part {c : UInt8} (h : c ∈ p.takeWhile (· ≠ SLASH)) : c ≠ SLASH := by
  simpa using List.mem_takeWhile_imp h

/-- The walk of the code takes the components one by one. -/
theorem components_cons (hne : p ≠ []) (hslash : p.head? ≠ some SLASH) :
    components p = p.takeWhile (· ≠ SLASH) :: components (get_next_path_part p) := by
  have hpart : p.takeWhile (· ≠ SLASH) ≠ [] := by
    cases p with
    | nil => exact absurd rfl hne
    | cons c rest =>
      have hc : c ≠ SLASH := fun he => hslash (by rw [he]; rfl)
      rw [List.takeWhile_cons_of_pos (by simpa using hc)]
      exact List.cons_ne_nil _ _
  have hfirst := components_part (fun h => mem_part h rfl) hpart
  have hsplit := List.takeWhile_append_dropWhile (p := fun c : UInt8 => decide (c ≠ SLASH)) (l := p)
  have hrest : components (get_next_path_part p) = components (p.dropWhile (· ≠ SLASH)) :=
    components_skip_slashes _
  rw [hrest]
  cases hd : p.dropWhile (· ≠ SLASH) with
  | nil =>
    rw [hd, List.append_nil] at hsplit
    rw [hsplit] at hfirst
    rw [hsplit, hfirst, components_nil]
  | cons c rest =>
    have hc : c = SLASH := by
      have := List.head?_dropWhile_not (fun c : UInt8 => decide (c ≠ SLASH)) p
      rw [hd] at this
      simpa using this
    subst hc
    rw [hd] at hsplit
    conv_lhs => rw [← hsplit]
    rw [components_append, hfirst, components_slash, List.singleton_append]

/-- The comparison of `get_dir_entry`: a name counts up to the bytes that an entry holds. -/
theorem name_eq_iff (hplain : SLASH ∉ cname name) (hstr : 0 ∉ path) :
    name_eq name path = true ↔ cname name = (path.takeWhile (· ≠ SLASH)).take name.length := by
  induction name generalizing path with
  | nil => simp [name_eq, cname]
  | cons b name ih =>
    by_cases hb : b = 0
    · subst hb
      cases path with
      | nil => simp [name_eq, cname]
      | cons c path =>
        have hc : c ≠ 0 := fun he => hstr (he ▸ List.mem_cons_self)
        by_cases hs : c = SLASH
        · simp [name_eq, cname, hs]
        · simp [name_eq, cname, hs, hc]
    · have hcname : cname (b :: name) = b :: cname name := List.takeWhile_cons_of_pos (by simpa using hb)
      rw [hcname] at hplain ⊢
      have hbs : b ≠ SLASH := fun he => hplain (he ▸ List.mem_cons_self)
      have hplain' : SLASH ∉ cname name := fun h => hplain (List.mem_cons_of_mem _ h)
      cases path with
      | nil => simp [name_eq, hb, Ne.symm hb]
      | cons c path =>
        by_cases hs : c = SLASH
        · subst hs
          simp [name_eq, hb, Ne.symm hbs]
        · have hstr' : 0 ∉ path := fun h => hstr (List.mem_cons_of_mem _ h)
          have hrest := ih hplain' hstr'
          have htake : (c :: path).takeWhile (· ≠ SLASH) = c :: path.takeWhile (· ≠ SLASH) :=
            List.takeWhile_cons_of_pos (by simpa using hs)
          rw [htake, List.length_cons, List.take_succ_cons]
          by_cases hcb : c = b
          · subst hcb
            simp only [name_eq, List.headD_cons, hb, and_false, if_false, ne_eq, not_true_eq_false, List.tail_cons, hrest,
              List.cons.injEq, true_and]
          · simp [name_eq, hb, hcb, Ne.symm hcb]

/-! ## The reference -/

namespace View

variable (v : View)

/-- The live entry of `d` that has the name, which counts up to `DIRNAMELEN` bytes. -/
def entry (d : Int) (name : CStr) : Option Int :=
  ((List.range (v.slots d)).find? fun k => v.slotInum d k ≠ 0 ∧ cname (v.slotName d k) = name.take DIRNAMELEN).map
    (v.slotInum d)

/-- Follow the entries one by one. -/
def follow : Int → List CStr → Option Int
  | d, [] => some d
  | d, c :: cs => if v.isDir d then (v.entry d c).bind fun i => follow i cs else none

/-- The inode that a path means. -/
def reference (p : CStr) (cur : Int) : Option Int :=
  v.follow (if p.head? = some SLASH then ROOTINODE else cur) (components p)

/-- Names hold no slash, no live entry is without a name, or comes after another entry of its name. -/
structure Named (g : Geometry) : Prop where
  header : v.slots 0 = 0
  plain : ∀ d k, g.isInode d → v.isDir d → k < v.slots d → SLASH ∉ cname (v.slotName d k)
  nonempty : ∀ d k, g.isInode d → v.isDir d → k < v.slots d → v.slotInum d k ≠ 0 → cname (v.slotName d k) ≠ []
  first : ∀ d k l, g.isInode d → v.isDir d → k < v.slots d → v.slotInum d k ≠ 0 → l < k →
    cname (v.slotName d l) ≠ cname (v.slotName d k)

end View

variable {g : Geometry} {v : View} {σ : FS} {d cur i : Int} {k : Nat}

theorem slotName_length : (v.slotName d k).length = DIRNAMELEN := Mem.length_load _ _ _

theorem entry_eq_some (h : v.entry d name = some i) : ∃ k, k < v.slots d ∧ v.slotInum d k = i ∧ i ≠ 0 ∧
    cname (v.slotName d k) = name.take DIRNAMELEN := by
  obtain ⟨k, hk, rfl⟩ := Option.map_eq_some_iff.mp h
  have hmatch := List.find?_some hk
  simp only [ne_eq, decide_eq_true_eq] at hmatch
  exact ⟨k, List.mem_range.mp (List.mem_of_find?_eq_some hk), rfl, hmatch.1, hmatch.2⟩

theorem entry_eq_none (h : ∀ k, k < v.slots d → v.slotInum d k ≠ 0 → cname (v.slotName d k) ≠ name.take DIRNAMELEN) :
    v.entry d name = none := by
  rw [View.entry, Option.map_eq_none_iff, List.find?_range_eq_none]
  intro k hk
  simpa [imp_iff_not_or] using h k hk

theorem follow_ne_zero {cs : List CStr} (hd : d ≠ 0) (h : v.follow d cs = some i) : i ≠ 0 := by
  induction cs generalizing d with
  | nil =>
    obtain rfl := Option.some.inj h
    exact hd
  | cons c cs ih =>
    rw [View.follow] at h
    split at h
    case isTrue =>
      obtain ⟨j, hj, h⟩ := Option.bind_eq_some_iff.mp h
      obtain ⟨_, _, _, hne, _⟩ := entry_eq_some hj
      exact ih hne h
    case isFalse => cases h

/-! ## The walk follows the components -/

namespace View.Named

variable (hn : v.Named g)
include hn

/-- The directory branch of the walk finds the live entry of that name. -/
theorem lookup_eq (hd : g.isInode d) (hdir : v.isDir d) (hstr : 0 ∉ path) :
    v.lookup d path = (v.entry d (path.takeWhile (· ≠ SLASH))).getD 0 := by
  have hmatch : ∀ k, k < v.slots d →
      (name_eq (v.slotName d k) path = true ↔ cname (v.slotName d k) = (path.takeWhile (· ≠ SLASH)).take DIRNAMELEN) := by
    intro k hk
    rw [name_eq_iff (hn.plain d k hd hdir hk) hstr, slotName_length]
  cases hf : v.findSlot d path with
  | none =>
    have hnone : v.entry d (path.takeWhile (· ≠ SLASH)) = none := by
      refine entry_eq_none fun k hk _ he => ?_
      rw [View.findSlot, List.find?_range_eq_none] at hf
      exact absurd ((hmatch k hk).mpr he) (by simpa using hf k hk)
    rw [lookup_none hf, hnone, Option.getD_none]
  | some k =>
    have hk := findSlot_lt hf
    rw [lookup_some hf]
    rw [View.findSlot, List.find?_range_eq_some] at hf
    obtain ⟨hname, _, hbefore⟩ := hf
    have he := (hmatch k hk).mp hname
    by_cases h0 : v.slotInum d k = 0
    · have hnone : v.entry d (path.takeWhile (· ≠ SLASH)) = none := by
        refine entry_eq_none fun l hl hlive hel => ?_
        rcases Nat.lt_trichotomy l k with hlt | rfl | hgt
        · exact absurd ((hmatch l hl).mpr hel) (by simpa using hbefore l hlt)
        · exact hlive h0
        · exact hn.first d l k hd hdir hl hlive hgt (he.trans hel.symm)
      rw [hnone, h0, Option.getD_none]
    · have hsome : v.entry d (path.takeWhile (· ≠ SLASH)) = some (v.slotInum d k) := by
        rw [View.entry, Option.map_eq_some_iff]
        refine ⟨k, ?_, rfl⟩
        rw [List.find?_range_eq_some]
        refine ⟨by simp [h0, he], List.mem_range.mpr hk, fun l hl => ?_⟩
        have := hbefore l hl
        have hml := hmatch l (Nat.lt_trans hl hk)
        simp_all
      rw [hsome, Option.getD_some]

theorem walk_zero {fuel : Nat} : v.walk fuel path 0 = 0 := by
  have hlookup : ∀ path, v.lookup 0 path = 0 := by
    intro path
    refine lookup_none ?_
    rw [View.findSlot, hn.header]
    rfl
  induction fuel generalizing path with
  | zero => rfl
  | succ fuel ih =>
    rw [View.walk, hlookup]
    split
    · split
      · rfl
      · exact ih
    · rfl

theorem entry_empty (hd : g.isInode d) (hdir : v.isDir d) : v.entry d [] = none :=
  entry_eq_none fun k hk hlive => hn.nonempty d k hd hdir hk hlive

end View.Named

theorem walk_eq {fuel : Nat} (hn : σ.toView.Named g) (hw : WellFormed g σ) (hd : g.isInode d) (hstr : 0 ∉ path) (hne : path ≠ [])
    (hslash : path.head? ≠ some SLASH) (hfuel : path.length < fuel) :
    σ.walk fuel path d = (σ.follow d (components path)).getD 0 := by
  induction fuel generalizing path d with
  | zero => omega
  | succ fuel ih =>
    have hnext : 0 ∉ get_next_path_part path := fun h =>
      hstr ((List.dropWhile_suffix _).subset ((List.dropWhile_suffix _).subset h))
    rw [View.walk, components_cons hne hslash, View.follow]
    split
    case isFalse hdir => rw [if_neg (show ¬ σ.isDir d from hdir), Option.getD_none]
    case isTrue hdir =>
      have hdir : σ.isDir d := hdir
      rw [if_pos hdir]
      have hlookup := hn.lookup_eq hd hdir hstr
      have hin : g.isInode (σ.lookup d path) := hw.lookup_isInode hd hdir
      split
      case isTrue hlast =>
        rw [hlast, components_nil, hlookup]
        cases σ.entry d (path.takeWhile (· ≠ SLASH)) <;> rfl
      case isFalse hmore =>
        cases he : σ.entry d (path.takeWhile (· ≠ SLASH)) with
        | none =>
          rw [he] at hlookup
          rw [hlookup]
          exact hn.walk_zero
        | some i =>
          rw [he] at hlookup
          rw [hlookup] at hin ⊢
          refine ih hin hnext hmore (fun h => ?_) (by have := next_part_shorter hmore; omega)
          have := List.head?_dropWhile_not (fun c : UInt8 => decide (c = SLASH)) (path.dropWhile (· ≠ SLASH))
          rw [show (path.dropWhile (· ≠ SLASH)).dropWhile (· = SLASH) = get_next_path_part path from rfl, h] at this
          simp at this

/-! ## Where the handlers start -/

/-- A path that is more than slashes. -/
def HasPart (p : CStr) : Prop := ∃ c ∈ p, c ≠ SLASH

/-- A path from the root has a part after its first slash. -/
def OneSlash (p : CStr) : Prop := p.head? = some SLASH → p.tail ≠ [] ∧ p.tail.head? ≠ some SLASH

theorem skip_slashes_head (p : CStr) : (skip_slashes p).head? ≠ some SLASH := by
  intro h
  have := List.head?_dropWhile_not (fun c : UInt8 => decide (c = SLASH)) p
  rw [show p.dropWhile (fun c : UInt8 => decide (c = SLASH)) = skip_slashes p from rfl, h] at this
  simp at this

theorem skip_slashes_nil : skip_slashes p = [] ↔ ¬ HasPart p := by
  simp [skip_slashes, HasPart, List.dropWhile_eq_nil_iff]

section

variable (hn : σ.toView.Named g) (hstr : 0 ∉ p)
include hn hstr

theorem resolve_eq (hw : WellFormed g σ) (hcur : g.isInode cur) (hne : p ≠ []) (hslash : p.head? ≠ some SLASH) :
    σ.resolve p cur = (σ.follow cur (components p)).getD 0 :=
  walk_eq hn hw hcur hstr hne hslash (Nat.lt_succ_self _)

theorem resolve_from_root (hw : WellFormed g σ) (hcur : g.isInode cur) (hpart : HasPart p) :
    σ.resolve (from_root p cur).1 (from_root p cur).2 = (σ.reference p cur).getD 0 := by
  have hskip := mt skip_slashes_nil.mp (not_not.mpr hpart)
  unfold from_root View.reference
  split
  case isTrue h =>
    rw [← components_skip_slashes p]
    exact resolve_eq hn (fun h => hstr ((List.dropWhile_suffix _).subset h)) hw g.isInode_root hskip (skip_slashes_head p)
  case isFalse h =>
    exact resolve_eq hn hstr hw hcur (fun he : p = [] => by obtain ⟨_, hm, _⟩ := hpart; rw [he] at hm; cases hm) h

/-- An empty part is looked up like a name that is not there. -/
theorem resolve_empty (hd : g.isInode d) (hpart : p.takeWhile (· ≠ SLASH) = []) : σ.resolve p d = 0 := by
  unfold View.resolve View.walk
  split
  case isFalse => rfl
  case isTrue hdir =>
    have hlookup := hn.lookup_eq hd hdir hstr
    rw [hpart, hn.entry_empty hd hdir, Option.getD_none] at hlookup
    rw [hlookup]
    split
    · rfl
    · exact hn.walk_zero

theorem resolve_adj (hw : WellFormed g σ) (hcur : g.isInode cur) (hne : p ≠ []) (h : OneSlash p) :
    σ.resolve (adj_path_i p cur).1 (adj_path_i p cur).2 = (σ.reference p cur).getD 0 := by
  unfold adj_path_i View.reference
  split
  case isTrue hs =>
    obtain ⟨hne', hs'⟩ := h hs
    obtain ⟨rest, rfl⟩ : ∃ rest, p = SLASH :: rest := by
      cases p with
      | nil => exact absurd rfl hne
      | cons c rest => exact ⟨rest, by rw [Option.some.inj hs]⟩
    rw [components_slash]
    exact resolve_eq hn (fun h => hstr (List.mem_cons_of_mem _ h)) hw g.isInode_root hne' hs'
  case isFalse hs => exact resolve_eq hn hstr hw hcur hne hs

theorem resolve_adj_zero (h : ¬ OneSlash p) : σ.resolve (adj_path_i p cur).1 (adj_path_i p cur).2 = 0 := by
  obtain ⟨hs, h⟩ := Classical.not_imp.mp h
  unfold adj_path_i
  rw [if_pos hs]
  refine resolve_empty hn (fun h => hstr (List.mem_of_mem_tail h)) g.isInode_root ?_
  cases ht : p.tail with
  | nil => rfl
  | cons c rest =>
    rw [ht] at h
    by_cases hc : c = SLASH
    · rw [List.takeWhile_cons_of_neg (by simpa using hc)]
    · exact absurd ⟨List.cons_ne_nil _ _, fun he => hc (Option.some.inj he)⟩ h

end

theorem slashes_head (hne : p ≠ []) (hpart : ¬ HasPart p) : p.head? = some SLASH := by
  cases p with
  | nil => exact absurd rfl hne
  | cons c rest => exact congrArg some (by_contra fun hc => hpart ⟨c, List.mem_cons_self, hc⟩)

/-- Slashes alone mean the root. -/
theorem reference_slashes (hne : p ≠ []) (hpart : ¬ HasPart p) : v.reference p cur = some ROOTINODE := by
  have hcomp : components p = [] := by rw [← components_skip_slashes, skip_slashes_nil.mpr hpart, components_nil]
  rw [View.reference, if_pos (slashes_head hne hpart), hcomp, View.follow]

theorem resolve_slashes (hn : σ.toView.Named g) (hne : p ≠ []) (hpart : ¬ HasPart p) :
    σ.resolve (from_root p cur).1 (from_root p cur).2 = 0 := by
  unfold from_root
  rw [if_pos (slashes_head hne hpart), skip_slashes_nil.mpr hpart]
  exact resolve_empty hn List.not_mem_nil g.isInode_root rfl

theorem reference_ne_zero (hcur : cur ≠ 0) (h : v.reference p cur = some i) : i ≠ 0 := by
  refine follow_ne_zero ?_ h
  split
  · decide
  · exact hcur

/-! ## The handlers -/

variable {sv : Server}

/-- A handler's reply. -/
theorem OnDisk.replies {α : Type} {f : α → Response} {prog : Prog α} {Q : α → Prop} {R : α → Server → Prop} (h : OnDisk g sv)
    (hs : Steady prog sv R) (ht : twp g prog sv.fs fun _ _ => True) (hw : wp g prog sv.fs fun a _ => Q a) :
    ∃ a sv', run (prog >>= fun a => pure (f a)) sv = some (f a, sv') ∧ Q a := by
  obtain ⟨a, sv', _, hr, hq, _⟩ := h.returns hs ht hw
  exact ⟨a, sv', by rw [run_bind, hr]; rfl, hq⟩

/-- What `handle_open` and `handle_chdir` return. -/
def opens (i : Int) : Int := if i = 0 then ERROR else i

theorem handle_open_result (hw : WellFormed g σ) (hcur : g.isInode cur) (hpos : 0 < cur) :
    wp g (handle_open (some p) cur) σ fun r _ => r = opens (σ.resolve (from_root p cur).1 (from_root p cur).2) := by
  unfold handle_open opens
  simp only [wp_ite, wp_bind, wp_ret, Prog.pure_eq]
  refine ⟨fun hle => absurd hpos (by omega), fun _ => ?_⟩
  refine get_path_i_num_spec hw (from_root_isInode p g.isInode_root hcur) ⟨fun h => (if_pos h).symm, fun h => (if_neg h).symm⟩

/-- What `handle_stat` reports of an inode. -/
def View.stat (v : View) (i : Int) : Stat := { inum := i, type := v.type i, size := v.size i, nlink := v.nlink i }

theorem handle_stat_result (hw : WellFormed g σ) (hcur : g.isInode cur) (hpos : 0 < cur) :
    wp g (handle_stat (some p) cur (some true)) σ fun r _ =>
      r = if σ.resolve (from_root p cur).1 (from_root p cur).2 = 0 then (ERROR, none)
        else (0, some (σ.stat (σ.resolve (from_root p cur).1 (from_root p cur).2))) := by
  have hstart := from_root_isInode p g.isInode_root hcur
  unfold handle_stat
  simp only [wp_ite, wp_bind, wp_ret, Prog.pure_eq, wp_get_i, wp_readInode]
  refine ⟨fun hle => absurd hpos (by omega), fun _ => get_path_i_num_spec hw hstart
    ⟨fun h => (if_pos h).symm, fun h _ => ⟨hw.resolve_isInode hstart, fun _ => ⟨fun hf => absurd hf (by decide), fun _ => ?_⟩⟩⟩⟩
  rw [if_neg h]
  rfl

section

variable (h : OnDisk g sv) (hcur : g.isInode cur) (hpos : 0 < cur)
include h hcur hpos

theorem open_answers : ∃ sv', serve sv (.open (some p) cur) =
    some ({ ret := opens (sv.fs.resolve (from_root p cur).1 (from_root p cur).2) }, sv') := by
  obtain ⟨r, sv', hrun, rfl⟩ := h.replies (f := fun r => { ret := r }) (handle_open_steady h.caches.tidy)
    (handle_open_total h.wellFormed h.inRange hcur) (handle_open_result (p := p) h.wellFormed hcur hpos)
  exact ⟨sv', hrun⟩

theorem stat_answers : ∃ sv', serve sv (.stat (some p) cur (some true)) =
    some (if sv.fs.resolve (from_root p cur).1 (from_root p cur).2 = 0 then { ret := ERROR }
      else { ret := 0, stat := some (sv.fs.stat (sv.fs.resolve (from_root p cur).1 (from_root p cur).2)) }, sv') := by
  obtain ⟨r, sv', hrun, rfl⟩ := h.replies (f := fun r => { ret := r.1, stat := r.2 }) (handle_stat_steady h.caches.tidy)
    (handle_stat_total h.wellFormed h.inRange hcur) (handle_stat_result (p := p) h.wellFormed hcur hpos)
  refine ⟨sv', hrun.trans (congrArg (fun r => some (r, sv')) ?_)⟩
  split <;> rfl

omit hpos in
/-- The old name of a `link`. -/
theorem old_name_found : ∃ sv' σ', run (get_path_i_num (adj_path_i p cur).1 (adj_path_i p cur).2) sv =
    some (sv.fs.resolve (adj_path_i p cur).1 (adj_path_i p cur).2, sv') ∧ Rel g sv' σ' := by
  have hstart := adj_path_i_isInode p g.isInode_root hcur
  have hspec : wp g (get_path_i_num (adj_path_i p cur).1 (adj_path_i p cur).2) sv.fs fun r _ =>
      r = sv.fs.resolve (adj_path_i p cur).1 (adj_path_i p cur).2 := get_path_i_num_spec h.wellFormed hstart rfl
  obtain ⟨_, sv', σ', hrun, rfl, hrel⟩ := h.returns (path_walk_steady h.caches.tidy)
    (get_path_i_num_total h.wellFormed h.inRange hstart) hspec
  exact ⟨sv', σ', hrun, hrel⟩

/-- A `link` to what is not there. -/
theorem link_refused {new_name : CStr} (hzero : sv.fs.resolve (adj_path_i p cur).1 (adj_path_i p cur).2 = 0) :
    ∃ sv', serve sv (.link (some p) (some new_name) cur) = some ({ ret := ERROR }, sv') := by
  obtain ⟨sv₁, σ₁, hrun, hrel⟩ := old_name_found (p := p) h hcur
  obtain ⟨ptr, t, hg⟩ := get_i_total hrel.blocks hrel.inodes hrel.sectors g.isInode_zero
  obtain ⟨_, _, item, hitem, _⟩ := get_i_spec hrel.blocks hrel.inodes g.isInode_zero hg
  have hlink : run (handle_link (some p) (some new_name) cur) sv = some (ERROR, { sv₁ with store := t }) := by
    unfold handle_link
    dsimp only
    rw [if_neg (by omega), run_bind, hrun, hzero]
    simp [get_i, readInode, Prog.cmd, run, exec, hg, hitem]
  refine ⟨{ sv₁ with store := t }, ?_⟩
  rw [serve_handler (by simp), Request.handler, run_bind, hlink]
  rfl

end

/-- `open` of a path that means `i`. -/
theorem open_finds (h : OnDisk g sv) (hn : sv.fs.Named g) (hcur : g.isInode cur) (hpos : 0 < cur) (hstr : 0 ∉ p) (hpart : HasPart p)
    (href : sv.fs.reference p cur = some i) : ∃ sv', serve sv (.open (some p) cur) = some ({ ret := i }, sv') := by
  have hi : i ≠ 0 := reference_ne_zero (by omega) href
  obtain ⟨sv', hopen⟩ := open_answers (p := p) h hcur hpos
  rw [resolve_from_root hn hstr h.wellFormed hcur hpart, href, Option.getD_some, opens, if_neg hi] at hopen
  exact ⟨sv', hopen⟩

/-- `open`, `chdir` and `stat` of `p` act on `r`. -/
structure LooksAt (sv : Server) (p : CStr) (cur : Int) (r : Option Int) : Prop where
  opened : ∃ sv', serve sv (.open (some p) cur) = some ({ ret := r.getD ERROR }, sv')
  changed : ∃ sv', serve sv (.chdir (some p) cur) = some ({ ret := r.getD ERROR }, sv')
  stat : ∃ sv', serve sv (.stat (some p) cur (some true)) =
    some ({ ret := if r = none then ERROR else 0, stat := r.map sv.fs.stat }, sv')

/-- The old name `p` of a `link` refers to `r`: 0, and an error, if that is nothing. -/
structure LinksTo (sv : Server) (p : CStr) (cur : Int) (r : Option Int) : Prop where
  found : ∃ sv', run (get_path_i_num (adj_path_i p cur).1 (adj_path_i p cur).2) sv = some (r.getD 0, sv')
  refused : r = none → ∀ new_name, ∃ sv', serve sv (.link (some p) (some new_name) cur) = some ({ ret := ERROR }, sv')

theorem opens_getD (hcur : cur ≠ 0) : opens ((v.reference p cur).getD 0) = (v.reference p cur).getD ERROR := by
  cases hr : v.reference p cur with
  | none => rfl
  | some i => exact if_neg (reference_ne_zero hcur hr)

/-- **One path semantics.** `open`, `chdir` and `stat` act on what a path means exactly if it is more than slashes; `link` links
it exactly if at most one slash leads, or if it means nothing. -/
theorem path_semantics (h : OnDisk g sv) (hn : sv.fs.Named g) (hcur : g.isInode cur) (hpos : 0 < cur) (hstr : 0 ∉ p)
    (hne : p ≠ []) :
    (LooksAt sv p cur (sv.fs.reference p cur) ↔ HasPart p) ∧
      (LinksTo sv p cur (sv.fs.reference p cur) ↔ OneSlash p ∨ sv.fs.reference p cur = none) := by
  have hw := h.wellFormed
  have hcur0 : cur ≠ 0 := by omega
  obtain ⟨sv₁, hopen⟩ := open_answers (p := p) h hcur hpos
  obtain ⟨sv₂, hstat⟩ := stat_answers (p := p) h hcur hpos
  obtain ⟨sv₃, _, hlink, _⟩ := old_name_found (p := p) h hcur
  refine ⟨⟨fun hlook => ?_, fun hpart => ?_⟩, ⟨fun hlinks => ?_, fun hcond => ?_⟩⟩
  · -- Slashes alone: the handler looks for an empty name.
    by_contra hpart
    obtain ⟨sv', hopened⟩ := hlook.opened
    rw [resolve_slashes hn hne hpart] at hopen
    rw [hopen, reference_slashes hne hpart] at hopened
    have hret : opens 0 = ROOTINODE := congrArg (fun r => r.1.ret) (Option.some.inj hopened)
    exact absurd hret (by decide)
  · rw [resolve_from_root hn hstr hw hcur hpart] at hopen hstat
    rw [opens_getD hcur0] at hopen
    refine ⟨⟨sv₁, hopen⟩, ⟨sv₁, hopen⟩, ⟨sv₂, hstat.trans (congrArg (fun r => some (r, sv₂)) ?_)⟩⟩
    cases hr : sv.fs.reference p cur with
    | none => rfl
    | some i => exact if_neg (reference_ne_zero hcur0 hr)
  · by_contra hcond
    obtain ⟨hone, hsome⟩ := not_or.mp hcond
    obtain ⟨sv', hfound⟩ := hlinks.found
    rw [hlink, resolve_adj_zero hn hstr hone] at hfound
    obtain ⟨i, hi⟩ := Option.ne_none_iff_exists'.mp hsome
    rw [hi] at hfound
    exact reference_ne_zero hcur0 hi (congrArg Prod.fst (Option.some.inj hfound)).symm
  · have hres : sv.fs.resolve (adj_path_i p cur).1 (adj_path_i p cur).2 = (sv.fs.reference p cur).getD 0 := by
      by_cases hone : OneSlash p
      · exact resolve_adj hn hstr hw hcur hne hone
      · rw [resolve_adj_zero hn hstr hone, hcond.resolve_left hone, Option.getD_none]
    refine ⟨⟨sv₃, by rw [hlink, hres]⟩, fun hnone new_name => link_refused h hcur hpos ?_⟩
    rw [hres, hnone, Option.getD_none]

/-! ## The smallest start -/

theorem Fresh.named {num_inodes : Int} (h : Fresh num_inodes σ) (hpos : 1 ≤ num_inodes)
    (hfits : tableBlocks num_inodes + 1 < 2 ^ 31) (hg : g.table = tableBlocks num_inodes) : σ.Named g := by
  have hslot : ∀ d k, g.isInode d → k < σ.slots d → d = 1 ∧ k < 2 := fun _ _ hd hk => h.slot_root hpos hg hd hk
  have hname : ∀ k, k < 2 → σ.slotName 1 k = rootBlock.name (slotOffset k) := fun _ hk => h.slotName_root hpos hfits hk
  have hcases : ∀ k, k < 2 → k = 0 ∨ k = 1 := fun k hk => by omega
  refine ⟨?_, fun d k hd _ hk => ?_, fun d k hd _ hk _ => ?_, fun d k l hd _ hk _ hl => ?_⟩
  · rw [View.slots, h.header]
    rfl
  · obtain ⟨rfl, hk2⟩ := hslot d k hd hk
    rw [hname k hk2]
    obtain rfl | rfl := hcases k hk2 <;> decide +kernel
  · obtain ⟨rfl, hk2⟩ := hslot d k hd hk
    rw [hname k hk2]
    obtain rfl | rfl := hcases k hk2 <;> decide +kernel
  · obtain ⟨rfl, hk2⟩ := hslot d k hd hk
    obtain ⟨rfl, rfl⟩ : k = 1 ∧ l = 0 := by omega
    rw [hname 0 (by omega), hname 1 (by omega)]
    decide +kernel

theorem smallStart_named : smallStart.fs.Named smallDisk.geometry :=
  smallStart_sound.2.named (by decide) (by decide) rfl

theorem path_semantics_dot : LooksAt smallStart [DOT] 1 (smallStart.fs.reference [DOT] 1) ∧
    LinksTo smallStart [DOT] 1 (smallStart.fs.reference [DOT] 1) := by
  obtain ⟨hlook, hlink⟩ := path_semantics smallStart_onDisk smallStart_named (Geometry.isInode_root _) Int.one_pos (by decide)
    (List.cons_ne_nil DOT [])
  exact ⟨hlook.mpr ⟨DOT, List.mem_singleton_self _, by decide⟩, hlink.mpr (.inl fun h => absurd h (by decide))⟩

/-- `open` of the root fails. -/
theorem open_root_fails : OnDisk smallDisk.geometry smallStart ∧ smallStart.fs.Named smallDisk.geometry ∧
    smallStart.fs.reference [SLASH] 1 = some ROOTINODE ∧
      (serve smallStart (.open (some [SLASH]) 1)).map (fun r => r.1.ret) = some ERROR :=
  ⟨smallStart_onDisk, smallStart_named, reference_slashes (by simp) (by simp [HasPart]), by decide +kernel⟩

end Yfs
