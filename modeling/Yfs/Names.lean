import Yfs.Entries
import Yfs.Lib.Names

/-! # The last component of a path -/

namespace Yfs

variable {g : Geometry} {v : View} {σ : FS} {p path name c : CStr} {d cur i : Int} {k n : Nat}

/-! ## Before and after the last slash -/

/-- The last component: empty after a trailing slash. -/
def basename (p : CStr) : CStr := p.rtakeWhile (· ≠ SLASH)

/-- What is before it. -/
def dirname (p : CStr) : CStr := p.rdropWhile (· ≠ SLASH)

theorem dirname_append_basename (p : CStr) : dirname p ++ basename p = p := List.rdropWhile_append_rtakeWhile

theorem slash_not_mem_basename : SLASH ∉ basename p := fun h => by simpa using List.mem_rtakeWhile_imp h

theorem basename_ne_slash {c : UInt8} (h : c ∈ basename p) : c ≠ SLASH := by simpa using List.mem_rtakeWhile_imp h

theorem dirname_concat_slash : dirname (p ++ [SLASH]) = p ++ [SLASH] := List.rdropWhile_concat_neg _ _ _ (by simp)

theorem basename_concat_slash : basename (p ++ [SLASH]) = [] := List.rtakeWhile_concat_neg _ _ _ (by simp)

theorem dirname_concat {c : UInt8} (hc : c ≠ SLASH) : dirname (p ++ [c]) = dirname p := List.rdropWhile_concat_pos _ _ _ (by simpa using hc)

theorem basename_concat {c : UInt8} (hc : c ≠ SLASH) : basename (p ++ [c]) = basename p ++ [c] :=
  List.rtakeWhile_concat_pos _ _ _ (by simpa using hc)

theorem dirname_of_not_mem (h : SLASH ∉ p) : dirname p = [] :=
  List.rdropWhile_eq_nil_iff.mpr fun c hc => by simpa using fun he : c = SLASH => h (he ▸ hc)

theorem basename_of_not_mem (h : SLASH ∉ p) : basename p = p :=
  List.rtakeWhile_eq_self_iff.mpr fun c hc => by simpa using fun he : c = SLASH => h (he ▸ hc)

theorem last_slash_concat {c : UInt8} {m l : Nat} :
    last_slash (p ++ [c]) m l = if c = SLASH then m + p.length else last_slash p m l := by
  induction p generalizing m l with
  | nil => simp [last_slash]
  | cons b p ih => simp [last_slash, ih, Nat.add_assoc, Nat.add_comm 1]

theorem last_slash_of_not_mem {m l : Nat} (h : SLASH ∉ p) : last_slash p m l = l := by
  induction p generalizing m l with
  | nil => rfl
  | cons c p ih =>
    rw [List.mem_cons, not_or] at h
    rw [last_slash, if_neg (Ne.symm h.1), ih h.2]

/-- Where the last slash is. -/
theorem last_slash_spec (h : SLASH ∈ p) : dirname p = p.take (last_slash p 0 0) ++ [SLASH] ∧ basename p = p.drop (last_slash p 0 0 + 1) := by
  induction p using List.reverseRecOn with
  | nil => cases h
  | append_singleton p c ih =>
    rw [last_slash_concat]
    by_cases hc : c = SLASH
    · subst hc
      rw [if_pos rfl, dirname_concat_slash, basename_concat_slash]
      simp
    · have hp : SLASH ∈ p := by simpa [Ne.symm hc] using h
      obtain ⟨hdir, hbase⟩ := ih hp
      have hlt : last_slash p 0 0 + 1 ≤ p.length := by
        have := congrArg List.length (dirname_append_basename p)
        have hlen := congrArg List.length hbase
        rw [hdir] at this
        simp at this hlen
        omega
      rw [if_neg hc, dirname_concat hc, basename_concat hc, hdir, hbase, List.take_append_of_le_length (by omega),
        List.drop_append_of_le_length hlt]
      exact ⟨rfl, rfl⟩

theorem dirname_slash (p : CStr) : dirname (SLASH :: p) = SLASH :: dirname p := by
  induction p using List.reverseRecOn with
  | nil => rfl
  | append_singleton p c ih =>
    rw [← List.cons_append]
    by_cases hc : c = SLASH
    · subst hc
      rw [dirname_concat_slash, dirname_concat_slash, List.cons_append]
    · rw [dirname_concat hc, dirname_concat hc, ih]

theorem basename_slash (p : CStr) : basename (SLASH :: p) = basename p := by
  have h := dirname_append_basename (SLASH :: p)
  rw [dirname_slash, List.cons_append] at h
  conv_rhs at h => rw [← dirname_append_basename p]
  exact List.append_cancel_left (List.cons.inj h).2

theorem basename_skip_slashes (p : CStr) : basename (skip_slashes p) = basename p := by
  induction p with
  | nil => rfl
  | cons c p ih =>
    unfold skip_slashes at ih ⊢
    by_cases hc : c = SLASH
    · subst hc
      rw [List.dropWhile_cons_of_pos (by simp), ih, basename_slash]
    · rw [List.dropWhile_cons_of_neg (by simpa using hc)]

theorem components_dirname_skip_slashes (p : CStr) : components (dirname (skip_slashes p)) = components (dirname p) := by
  induction p with
  | nil => rfl
  | cons c p ih =>
    unfold skip_slashes at ih ⊢
    by_cases hc : c = SLASH
    · subst hc
      rw [List.dropWhile_cons_of_pos (by simp), ih, dirname_slash, components_slash]
    · rw [List.dropWhile_cons_of_neg (by simpa using hc)]

/-- A path and its directory start at the same place. -/
theorem dirname_head (p : CStr) : (dirname p).head? = some SLASH ↔ p.head? = some SLASH := by
  constructor
  · intro h
    rw [← dirname_append_basename p, List.head?_append, h]
    rfl
  · intro h
    obtain ⟨q, rfl⟩ : ∃ q, p = SLASH :: q := List.head?_eq_some_iff.mp h
    rw [dirname_slash]
    rfl

/-- The components of a path are those of its directory and the last one. -/
theorem components_basename (h : basename p ≠ []) : components p = components (dirname p) ++ [basename p] := by
  have hlast := components_part slash_not_mem_basename h
  by_cases hs : SLASH ∈ p
  · obtain ⟨hdir, _⟩ := last_slash_spec hs
    have hp := dirname_append_basename p
    rw [hdir, List.append_assoc, List.singleton_append] at hp
    rw [← hp, components_append, hp, hdir, components_append, components_nil, List.append_nil, hlast]
  · have hbase := basename_of_not_mem hs
    rw [hbase] at hlast ⊢
    rw [dirname_of_not_mem hs, components_nil, List.nil_append, hlast]

/-! ## The directory of a path -/

namespace View

/-- The inode that the path means up to its last slash. -/
def parent (v : View) (p : CStr) (cur : Int) : Option Int := v.reference (dirname p) cur

/-- What each name of a directory leads to. -/
def graph (v : View) (d : Int) (c : CStr) : Option Int := if v.isDir d then v.entry d c else none

theorem follow_eq {d : Int} {cs : List CStr} : v.follow d cs = Names.follow v.graph d cs := by
  induction cs generalizing d with
  | nil => rfl
  | cons c cs ih =>
    rw [follow, Names.follow, graph]
    split
    · congr
      funext i
      exact ih
    · rfl

/-- Where a path starts. -/
def start (p : CStr) (cur : Int) : Int := if p.head? = some SLASH then ROOTINODE else cur

theorem reference_eq : v.reference p cur = Names.follow v.graph (start p cur) (components p) := follow_eq

theorem parent_eq : v.parent p cur = Names.follow v.graph (start p cur) (components (dirname p)) := by
  rw [parent, reference_eq, start, start]
  simp only [dirname_head]

/-- A path leads where its last component leads from its directory. -/
theorem reference_basename (h : basename p ≠ []) : v.reference p cur = (v.parent p cur).bind fun d => v.graph d (basename p) := by
  rw [reference_eq, parent_eq, components_basename h, Names.follow_concat]

end View

theorem parent_ne_zero (hcur : cur ≠ 0) (h : v.parent p cur = some i) : i ≠ 0 := reference_ne_zero hcur h

/-- `get_super_dir` resolves a path with the components of the directory, unless there are none. -/
theorem superDir_cut (v : View) (cur : Int) (hstr : 0 ∉ p) (hlen : p.length < MAXPATHNAMELEN) :
    components (dirname p) = [] ∧ v.superDir p cur = (View.start p cur, basename p) ∨
      ∃ q, q ≠ [] ∧ q.head? ≠ some SLASH ∧ 0 ∉ q ∧ components q = components (dirname p) ∧
        v.superDir p cur =
          (if v.resolve q (View.start p cur) = 0 then ERROR else v.resolve q (View.start p cur), basename p) := by
  obtain ⟨q, s, hroot, hbase, hdir, hs, hhead, hq⟩ : ∃ q s, from_root p cur = (q, s) ∧ basename q = basename p ∧
      components (dirname q) = components (dirname p) ∧ s = View.start p cur ∧ q.head? ≠ some SLASH ∧ 0 ∉ q := by
    unfold from_root View.start
    split
    case isTrue =>
      exact ⟨_, _, rfl, basename_skip_slashes p, components_dirname_skip_slashes p, rfl, skip_slashes_head p,
        fun h => hstr ((List.dropWhile_suffix _).subset h)⟩
    case isFalse h => exact ⟨_, _, rfl, rfl, rfl, rfl, h, hstr⟩
  rw [← hdir, ← hs, View.superDir, if_neg (by omega), hroot, ← hbase]
  dsimp only
  by_cases hslash : SLASH ∈ q
  · obtain ⟨hd, hb⟩ := last_slash_spec hslash
    have hidx : last_slash q 0 0 ≠ 0 := by
      intro he
      rw [he, List.take_zero, List.nil_append] at hd
      exact hhead ((dirname_head q).mp (by rw [hd]; rfl))
    have hlt : 0 < q.length := List.length_pos_of_mem hslash
    have htake : q.take (last_slash q 0 0) ≠ [] := by
      rw [Ne, List.take_eq_nil_iff, not_or]
      exact ⟨hidx, List.ne_nil_of_length_pos hlt⟩
    refine .inr ⟨_, htake, fun h => hhead (by rwa [List.head?_take, if_neg hidx] at h), fun h => hq (List.mem_of_mem_take h), ?_, ?_⟩
    · rw [hd, components_append, components_nil, List.append_nil]
    · rw [if_neg hidx, hb]
      split <;> rfl
  · left
    rw [last_slash_of_not_mem hslash, if_pos rfl, dirname_of_not_mem hslash, basename_of_not_mem hslash]
    exact ⟨rfl, rfl⟩

theorem start_ne_zero (hcur : cur ≠ 0) : View.start p cur ≠ 0 := by
  unfold View.start
  split
  · decide
  · exact hcur

theorem start_isInode (hcur : g.isInode cur) : g.isInode (View.start p cur) := by
  unfold View.start
  split
  · exact g.isInode_root
  · exact hcur

/-- What `get_super_dir` finds. -/
theorem superDir_eq (hn : σ.toView.Named g) (hw : WellFormed g σ) (hcur : g.isInode cur) (h0 : cur ≠ 0) (hstr : 0 ∉ p)
    (hlen : p.length < MAXPATHNAMELEN) : σ.superDir p cur = ((σ.parent p cur).getD ERROR, basename p) := by
  rw [View.parent_eq, ← View.follow_eq]
  rcases superDir_cut σ.toView cur hstr hlen with ⟨hnone, hsup⟩ | ⟨q, hne, hhead, hq, hcomp, hsup⟩
  · rw [hsup, hnone, View.follow, Option.getD_some]
  · rw [hsup, ← hcomp, resolve_eq hn hq hw (start_isInode hcur) hne hhead]
    cases hf : σ.follow (View.start p cur) (components q) with
    | none => rw [Option.getD_none, if_pos rfl, Option.getD_none]
    | some i => rw [Option.getD_some, if_neg (follow_ne_zero (start_ne_zero h0) hf), Option.getD_some]

/-- The path that is left names the same directory, and ends in the same component. -/
theorem parent_from_root : v.parent (from_root p cur).1 (from_root p cur).2 = v.parent p cur := by
  rw [View.parent_eq, View.parent_eq]
  unfold from_root View.start
  split
  case isTrue h => rw [if_neg (skip_slashes_head p), components_dirname_skip_slashes]
  case isFalse => rfl

theorem from_root_start : (from_root p cur).2 = View.start p cur := by
  unfold from_root View.start
  split <;> rfl

theorem start_from_root : View.start (from_root p cur).1 (from_root p cur).2 = View.start p cur := by
  unfold from_root
  split
  case isTrue h => rw [View.start, if_neg (skip_slashes_head p), View.start, if_pos h]
  case isFalse => rfl

theorem from_root_zero (hstr : 0 ∉ p) : 0 ∉ (from_root p cur).1 := by
  unfold from_root
  split
  · exact fun hm => hstr ((List.dropWhile_suffix _).subset hm)
  · exact hstr

theorem basename_from_root : basename (from_root p cur).1 = basename p := by
  unfold from_root
  split
  · exact basename_skip_slashes p
  · rfl

/-! ## In a well-formed state -/

theorem graph_isInode (hw : WellFormed g σ) (hd : g.isInode d) (h : σ.graph d c = some i) : g.isInode i := by
  unfold View.graph at h
  split at h
  case isTrue hdir =>
    obtain ⟨k, hk, rfl, _⟩ := entry_eq_some h
    exact hw.entries d k hd hdir hk
  case isFalse => cases h

theorem parent_isInode (hw : WellFormed g σ) (hcur : g.isInode cur) (h : σ.parent p cur = some d) : g.isInode d := by
  rw [View.parent_eq] at h
  exact Names.follow_mem (start_isInode hcur) (fun _ _ _ hn hm => graph_isInode hw hn hm) h

theorem isInode_ne_error (h : g.isInode i) : i ≠ ERROR := by
  have := h.1
  rw [ERROR]
  omega

/-- The directory of a path, if it is there. -/
theorem superDir_parent (hn : σ.toView.Named g) (hw : WellFormed g σ) (hcur : g.isInode cur) (h0 : cur ≠ 0) (hstr : 0 ∉ p) :
    (p.length < MAXPATHNAMELEN ∧ ∃ d, σ.parent p cur = some d ∧ d ≠ ERROR ∧ σ.superDir p cur = (d, basename p)) ∨
      ¬ (p.length < MAXPATHNAMELEN ∧ (σ.parent p cur).isSome) ∧ (σ.superDir p cur).1 = ERROR := by
  by_cases hlen : p.length < MAXPATHNAMELEN
  · have hsup := superDir_eq hn hw hcur h0 hstr hlen
    cases hp : σ.parent p cur with
    | none =>
      rw [hp, Option.getD_none] at hsup
      exact .inr ⟨by simp, by rw [hsup]⟩
    | some d =>
      rw [hp, Option.getD_some] at hsup
      exact .inl ⟨hlen, d, rfl, isInode_ne_error (parent_isInode hw hcur hp), hsup⟩
  · refine .inr ⟨fun h => hlen h.1, ?_⟩
    rw [View.superDir, if_pos (by omega)]

theorem takeWhile_basename : (basename p).takeWhile (· ≠ SLASH) = basename p :=
  List.takeWhile_eq_self_iff.mpr fun _ hc => by simpa using basename_ne_slash hc

theorem basename_zero (hstr : 0 ∉ p) : 0 ∉ basename p := fun h => hstr ((List.rtakeWhile_suffix _ _).subset h)

/-- What the last component names in a directory. -/
theorem lookup_basename (hn : σ.toView.Named g) (hd : g.isInode d) (hdir : σ.isDir d) (hstr : 0 ∉ p) :
    σ.lookup d (basename p) = (σ.entry d (basename p)).getD 0 := by
  have h := hn.lookup_eq hd hdir (basename_zero hstr)
  rwa [takeWhile_basename] at h

/-- The slot that a handler finds for it. -/
theorem findSlot_basename (hn : σ.toView.Named g) (hd : g.isInode d) (hdir : σ.isDir d) (hstr : 0 ∉ p) :
    σ.findSlot d (basename p) = σ.firstNamed d ((basename p).take DIRNAMELEN) := by
  have h := findSlot_firstNamed (fun k => hn.plain d k hd hdir) (basename_zero hstr)
  rwa [takeWhile_basename] at h

/-- The inode in that slot. -/
theorem slotInum_basename (hn : σ.toView.Named g) (hd : g.isInode d) (hdir : σ.isDir d) (hstr : 0 ∉ p)
    (hk : σ.firstNamed d ((basename p).take DIRNAMELEN) = some k) : σ.slotInum d k = (σ.entry d (basename p)).getD 0 := by
  rw [← findSlot_basename hn hd hdir hstr] at hk
  rw [← lookup_basename hn hd hdir hstr, lookup_some hk]

/-- No slot has a name that leads nowhere. -/
theorem entry_of_firstNamed_none (hn : σ.toView.Named g) (hd : g.isInode d) (hdir : σ.isDir d) (hstr : 0 ∉ p)
    (hk : σ.firstNamed d ((basename p).take DIRNAMELEN) = none) : σ.entry d (basename p) = none := by
  cases he : σ.entry d (basename p) with
  | none => rfl
  | some i =>
    obtain ⟨_, _, _, h0, _⟩ := entry_eq_some he
    have hlookup := lookup_basename hn hd hdir hstr
    rw [he, Option.getD_some, lookup_none (findSlot_basename hn hd hdir hstr ▸ hk)] at hlookup
    exact absurd hlookup.symm h0

end Yfs
