import Yfs.FirstMatch

/-! # Walks in a later state

What a path passes leads on as before, though another name has come.
-/

namespace Yfs

open Names

variable {g : Geometry} {v w : View} {σ τ : FS} {P : Int → Prop} {X : Set Int} {d e i j s cur : Int} {fuel k : Nat} {c n p q : CStr}

/-- From the inodes in `P` every name that led on in `v` leads on in `w`, to an inode in `P`. -/
structure Leads (P : Int → Prop) (v w : View) : Prop where
  dir : ∀ e, P e → v.isDir e → w.isDir e
  plain : ∀ e k, P e → v.isDir e → k < w.slots e → SLASH ∉ cname (w.slotName e k)
  next : ∀ e c j, P e → v.graph e c = some j → P j ∧ w.child e c = j

theorem graph_isDir (h : v.graph e c = some j) : v.isDir e := by
  unfold View.graph at h
  split at h
  case isTrue hdir => exact hdir
  case isFalse => cases h

namespace Leads

variable (h : Leads P v w)
include h

theorem lookup (he : P e) (hdir : v.isDir e) (hstr : 0 ∉ q) : w.lookup e q = w.child e (q.takeWhile (· ≠ SLASH)) := by
  rw [View.lookup, findSlot_firstNamed (fun k => h.plain e k he hdir) hstr, View.child, if_pos (h.dir e he hdir)]

theorem follow {cs : List CStr} (hs : P s) (hd : follow v.graph s cs = some d) : P d :=
  follow_mem hs (fun e c j he hj => (h.next e c j he hj).1) hd

/-- The walk takes the last component where the others led before. -/
theorem walk {cs : List CStr} (hs : P s) (hstr : 0 ∉ q) (hne : q ≠ []) (hslash : q.head? ≠ some SLASH) (hfuel : q.length < fuel)
    (hcomp : components q = cs ++ [c]) (hd : Names.follow v.graph s cs = some d) (hdir : v.isDir d) : w.walk fuel q s = w.child d c := by
  induction fuel generalizing q s cs with
  | zero => omega
  | succ fuel ih =>
    have hnext : 0 ∉ get_next_path_part q := fun hm => hstr ((List.dropWhile_suffix _).subset ((List.dropWhile_suffix _).subset hm))
    have hhead : (get_next_path_part q).head? ≠ some SLASH := skip_slashes_head _
    rw [components_cons hne hslash] at hcomp
    cases cs with
    | nil =>
      obtain rfl := Option.some.inj hd
      obtain ⟨rfl, hlast⟩ := List.cons.inj hcomp
      have hnil : get_next_path_part q = [] := by
        by_contra hmore
        rw [components_cons hmore hhead] at hlast
        cases hlast
      have htype : (w.inode s).type = INODE_DIRECTORY := h.dir s hs hdir
      rw [View.walk, if_pos htype, if_pos hnil, h.lookup hs hdir hstr]
    | cons a cs =>
      obtain ⟨rfl, hrest⟩ := List.cons.inj hcomp
      obtain ⟨e, he, hd⟩ := Option.bind_eq_some_iff.mp hd
      have hsdir := graph_isDir he
      obtain ⟨hPe, hchild⟩ := h.next _ _ _ hs he
      have hmore : get_next_path_part q ≠ [] := by
        intro hnil
        rw [hnil, components_nil] at hrest
        exact List.append_ne_nil_of_right_ne_nil cs (List.cons_ne_nil c []) hrest.symm
      have hshort := next_part_shorter hmore
      have htype : (w.inode s).type = INODE_DIRECTORY := h.dir s hs hsdir
      rw [View.walk, if_pos htype, if_neg hmore, h.lookup hs hsdir hstr, hchild]
      exact ih hPe hnext hmore hhead (by omega) hrest hd

variable (hs : P (View.start p cur)) (hstr : 0 ∉ p) (hpar : v.parent p cur = some d)
include hs hstr hpar

theorem superDir (hlen : p.length < MAXPATHNAMELEN) (h0 : d ≠ 0) : w.superDir p cur = (d, basename p) := by
  rw [View.parent_eq] at hpar
  rcases superDir_cut w cur hstr hlen with ⟨hnone, hsup⟩ | ⟨q, hne, hhead, hq, hcomp, hsup⟩
  · rw [hnone] at hpar
    rw [hsup, Option.some.inj hpar]
  · rw [← hcomp] at hpar
    obtain hnil | ⟨cs, c, hcs⟩ := List.eq_nil_or_concat (components q)
    · rw [components_cons hne hhead] at hnil
      cases hnil
    · rw [List.concat_eq_append] at hcs
      rw [hcs, follow_concat] at hpar
      obtain ⟨e, he, hd⟩ := Option.bind_eq_some_iff.mp hpar
      have hwalk : w.resolve q (View.start p cur) = d :=
        (h.walk hs hq hne hhead (Nat.lt_succ_self _) hcs he (graph_isDir hd)).trans (h.next _ _ _ (h.follow hs he) hd).2
      rw [hsup, hwalk, if_neg h0]

/-- `get_path_i_num`, from where `handle_rmdir` starts. -/
theorem resolve (hbase : basename p ≠ []) (hdir : v.isDir d) : w.resolve (from_root p cur).1 (from_root p cur).2 = w.child d (basename p) := by
  rw [View.parent_eq] at hpar
  have hp : p ≠ [] := fun he => hbase (by rw [he]; rfl)
  have hcomp := components_basename hbase
  unfold from_root
  unfold View.start at hs hpar
  split
  case isTrue hslash =>
    rw [if_pos hslash] at hs hpar
    have hne : skip_slashes p ≠ [] := by
      intro hnil
      rw [← components_skip_slashes, hnil, components_nil] at hcomp
      exact List.append_ne_nil_of_right_ne_nil _ (List.cons_ne_nil _ []) hcomp.symm
    rw [← components_skip_slashes] at hcomp
    exact h.walk hs (fun hm => hstr ((List.dropWhile_suffix _).subset hm)) hne (skip_slashes_head p) (Nat.lt_succ_self _) hcomp hpar hdir
  case isFalse hslash =>
    rw [if_neg hslash] at hs hpar
    exact h.walk hs hstr hp hslash (Nat.lt_succ_self _) hcomp hpar hdir

end Leads

/-! ## Where walks end -/

section

variable {Q R : Int → Prop} (hnext : ∀ e p, Q e → v.isDir e → v.lookup e p ≠ 0 → R (v.lookup e p)) (hle : ∀ e, R e → Q e) (h0 : Q 0)
include hnext hle h0

/-- What the entries keep, a walk that ends somewhere keeps. One that fails goes on from inode 0. -/
theorem walk_mem (he : Q e) (hne : v.walk fuel p e ≠ 0) : R (v.walk fuel p e) := by
  induction fuel generalizing p e with
  | zero => exact absurd rfl hne
  | succ fuel ih =>
    rw [View.walk] at hne ⊢
    split
    case isFalse hfile =>
      rw [if_neg hfile] at hne
      exact absurd rfl hne
    case isTrue hdir =>
      rw [if_pos hdir] at hne
      split
      case isTrue hlast =>
        rw [if_pos hlast] at hne
        exact hnext e p he hdir hne
      case isFalse hmore =>
        rw [if_neg hmore] at hne
        by_cases hzero : v.lookup e p = 0
        · rw [hzero] at hne ⊢
          exact ih h0 hne
        · exact ih (hle _ (hnext e p he hdir hzero)) hne

theorem superDir_mem (hstart : R (from_root p cur).2) (hsup : v.superDir p cur = (d, n)) (hne : d ≠ ERROR) : R d := by
  rw [View.superDir] at hsup
  split at hsup
  · exact absurd (Prod.mk.inj hsup).1.symm hne
  · dsimp only at hsup
    split at hsup
    · exact (Prod.mk.inj hsup).1 ▸ hstart
    · split at hsup
      · exact absurd (Prod.mk.inj hsup).1.symm hne
      case isFalse hwalk => exact (Prod.mk.inj hsup).1 ▸ walk_mem hnext hle h0 (hle _ hstart) hwalk

end

/-! ## Inodes that are taken -/

/-- An inode that is not free. -/
def FS.Taken (g : Geometry) (σ : FS) (e : Int) : Prop := g.isInode e ∧ e ∉ σ.i_head ∧ e ≠ 0

theorem FS.Taken.ne_next (h : σ.Taken g e) : e ≠ σ.nextInode := by
  rintro rfl
  by_cases hnone : σ.i_head = []
  · exact h.2.2 (by rw [FS.nextInode, hnone]; rfl)
  · exact h.2.1 (nextInode_mem hnone)

section

variable (hw : WellFormed g σ) (hfree : σ.FreeApart g)
include hw hfree

theorem taken_next (he : σ.Taken g e) (h : σ.graph e c = some j) : σ.Taken g j := by
  obtain ⟨hj, hused⟩ := graph_used hw hfree ⟨he.1, he.2.1⟩ h
  refine ⟨hj, hused, ?_⟩
  rw [View.graph, if_pos (graph_isDir h)] at h
  obtain ⟨_, _, _, h0, _⟩ := entry_eq_some h
  exact h0

theorem parent_taken (hs : σ.Taken g (View.start p cur)) (h : σ.parent p cur = some d) : σ.Taken g d := by
  rw [View.parent_eq] at h
  exact follow_mem hs (fun _ _ _ he hj => taken_next hw hfree he hj) h

omit hw in
theorem taken_start (hcur : g.isInode cur) (hused : cur ∉ σ.i_head) (h0 : cur ≠ 0) : σ.Taken g (View.start p cur) :=
  ⟨(start_used hfree hcur hused).1, (start_used hfree hcur hused).2, start_ne_zero h0⟩

end

/-! ## A new name -/

theorem View.Named.firstLive (hn : v.Named g) (hd : g.isInode d) (hdir : v.isDir d) (c : List UInt8) : v.FirstLive d c :=
  fun k l hk hlive hname hl he => (hn.at hd hdir).first k l hk hlive hl (he.trans hname.symm)

theorem child_live (hf : v.FirstLive d (c.take DIRNAMELEN)) (hdir : v.isDir d) (hk : k < v.slots d) (hlive : v.slotInum d k ≠ 0)
    (hname : cname (v.slotName d k) = c.take DIRNAMELEN) : v.child d c = v.slotInum d k := by
  have hfirst : v.firstNamed d (c.take DIRNAMELEN) = some k := by
    rw [View.firstNamed, List.find?_range_eq_some]
    exact ⟨decide_eq_true hname, List.mem_range.mpr hk, fun l hl => by simpa using hf k l hk hlive hname hl⟩
  rw [View.child, if_pos hdir, hfirst, Option.map_some, Option.getD_some]

/-- The slot that has got the name is the first that has it. -/
theorem Placed.findSlot (hp : Placed σ d n k τ) (hslash : SLASH ∉ n) (hstr : 0 ∉ n)
    (h : SlotPut g σ.toView w X d k i (strncpy DIRNAMELEN n)) : w.findSlot d n = some k := by
  have hle := h.le
  rw [findSlot_component hslash hstr, View.firstNamed, List.find?_range_eq_some]
  refine ⟨decide_eq_true (by rw [h.name, cname_strncpy hstr]), List.mem_range.mpr h.lt, fun l hl => ?_⟩
  have hold := hp.unnamed_before hslash hstr hl
  rw [← (h.others l (by omega) (by omega)).2] at hold
  simpa using hold

section

variable (hp : Placed σ d n k σ) (hw : WellFormed g σ) (hfree : σ.FreeApart g) (hn : σ.Named g) (hd : g.isInode d) (hdir : σ.isDir d)
  (hroom : σ.RoomFor g d n) (hlt : k < σ.slots d) (h0 : σ.slotInum d k = 0) (hslash : SLASH ∉ n) (hstr : 0 ∉ n)
include hp hw hfree hn hd hdir hroom hlt h0 hslash hstr

/-- A name in a free slot diverts no path. -/
theorem Placed.leads (h : SlotPut g σ.toView τ.toView {σ.nextInode} d k i (strncpy DIRNAMELEN n)) :
    Leads (σ.Taken g) σ.toView τ.toView := by
  have hs := h.slots
  have hother : ∀ e, σ.Taken g e → e ≠ d → σ.Same τ.toView e := fun e he hed => h.same e he.1 hed he.ne_next
  refine ⟨fun e he hedir => ?_, fun e l he hedir hl => ?_, fun e c j he hj => ⟨taken_next hw hfree he hj, ?_⟩⟩
  · by_cases hed : e = d
    · exact hed ▸ h.after
    · exact (hother e he hed).isDir.mpr hedir
  · by_cases hed : e = d
    · subst hed
      by_cases hlk : l = k
      · rw [hlk, h.name, cname_strncpy hstr]
        exact fun hm => hslash (List.mem_of_mem_take hm)
      · rw [(h.others l (by omega) hlk).2]
        exact (hn.at hd hedir).plain l (by omega)
    · have hsame := hother e he hed
      rw [hsame.slots] at hl
      rw [hsame.slotName hl]
      exact (hn.at he.1 hedir).plain l hl
  · have hedir := graph_isDir hj
    have hf := hn.firstLive he.1 hedir (c.take DIRNAMELEN)
    rw [View.graph, if_pos hedir] at hj
    obtain ⟨l, hl, rfl, hlive, hname⟩ := entry_eq_some hj
    by_cases hed : e = d
    · subst hed
      have hlk : l ≠ k := by
        rintro rfl
        exact hlive h0
      obtain ⟨hinum, hsame⟩ := h.others l hl hlk
      have hf' := hp.firstLive hslash hstr hw hd hdir hroom h hf
      rw [← hinum]
      exact child_live hf' h.after (by omega) (hinum ▸ hlive) (hsame ▸ hname)
    · have hsame := hother e he hed
      rw [← hsame.slotInum hl]
      exact child_live (hsame.firstLive hf) (hsame.isDir.mpr hedir) (hsame.slots.symm ▸ hl) (by rwa [hsame.slotInum hl])
        (by rwa [hsame.slotName hl])

end

end Yfs
