import Yfs.Filing.Spec

/-! # What a state shows

Paths lead where their names do, and a step shows in what it changes.
-/

namespace Yfs

open Names

variable {g : Geometry} {σ τ : FS} {d e i j cur : Int} {k : Nat} {c path : CStr} {b : EntryName} {x : Option Int}

/-! ## Names -/

theorem entryName_eq : b = entryName c ↔ b.1.take DIRNAMELEN = c.take DIRNAMELEN := by
  rw [List.take_of_length_le b.2]
  exact Subtype.ext_iff

theorem graph_entryName (v : View) : v.graph d (entryName c).1 = v.graph d c := by
  have hcut : (c.take DIRNAMELEN).take DIRNAMELEN = c.take DIRNAMELEN := by rw [List.take_take, Nat.min_self]
  rw [View.graph, View.graph]
  split
  · exact entry_congr hcut
  · rfl

theorem edge_taken (h : σ.Taken g d) : (σ.catalog g).edge d b = σ.graph d b.1 := if_pos h

theorem edge_free (h : ¬ σ.Taken g d) : (σ.catalog g).edge d b = none := if_neg h

theorem edge_file (h : ¬ σ.isDir d) : (σ.catalog g).edge d b = none := by
  by_cases hd : σ.Taken g d
  · rw [edge_taken hd, View.graph, if_neg h]
  · exact edge_free hd

theorem content_file (h : σ.Taken g i) (hfile : ¬ σ.isDir i) : (σ.catalog g).content i = σ.content i := if_pos ⟨h, hfile⟩

theorem content_dir (h : σ.isDir i) : (σ.catalog g).content i = [] := if_neg fun hi => hi.2 h

theorem content_free (h : ¬ σ.Taken g i) : (σ.catalog g).content i = [] := if_neg fun hi => h hi.1

theorem content_empty {v : View} (h : v.size i = 0) : v.content i = [] := by
  rw [View.content, h]
  rfl

/-- Names and the entries that hold them. -/
theorem edge_entries {b : EntryName} (hn : σ.Named g) : (σ.catalog g).edge e b = some i ↔ ∃ l, (σ.nodes g).entries e l = some (i, b.1) := by
  constructor
  · intro he
    by_cases hused : σ.Taken g e
    · rw [edge_taken hused, View.graph] at he
      split at he
      case isTrue hdir =>
        obtain ⟨l, hl, hinum, h0, hname⟩ := entry_eq_some he
        exact ⟨l, entries_eq_some.mpr ⟨hused, ⟨hdir, hl, hinum, h0⟩, hname.trans (List.take_of_length_le b.2)⟩⟩
      case isFalse => cases he
    · rw [edge_free hused] at he
      cases he
  · rintro ⟨l, hl⟩
    obtain ⟨hused, hlive, hname⟩ := entries_eq_some.mp hl
    rw [edge_taken hused, View.graph, if_pos hlive.dir]
    exact (hn.at hused.1 hlive.dir).entry_iff.mpr ⟨l, hlive.lt, hlive.inum, hlive.ne_zero, hname.trans (List.take_of_length_le b.2).symm⟩

theorem FS.Planted.named_taken (h : σ.Planted g) (hn : σ.Named g) (hi : (σ.catalog g).Named i) : σ.Taken g i := by
  obtain ⟨d, c, he⟩ := hi
  obtain ⟨l, hl⟩ := (edge_entries hn).mp he
  exact h.tree.target hl

/-- A directory has a name once. -/
theorem entries_once {l : Nat} {b : CStr} (hn : σ.Named g) (hk : (σ.nodes g).entries d k = some (i, b)) (hl : (σ.nodes g).entries d l = some (j, b)) :
    l = k := by
  obtain ⟨hused, hlive, hname⟩ := entries_eq_some.mp hk
  obtain ⟨_, hlive', hname'⟩ := entries_eq_some.mp hl
  have hnamed := hn.at hused.1 hlive.dir
  have hsame := hname.trans hname'.symm
  by_contra hne
  rcases Nat.lt_or_gt_of_ne hne with hlt | hlt
  · exact hnamed.first k l hlive.lt (hlive.inum ▸ hlive.ne_zero) hlt hsame.symm
  · exact hnamed.first l k hlive'.lt (hlive'.inum ▸ hlive'.ne_zero) hlt hsame

/-! ## Paths -/

theorem FS.Planted.graph_taken (h : σ.Planted g) (hd : σ.Taken g d) (hg : σ.graph d c = some i) : σ.Taken g i := by
  unfold View.graph at hg
  split at hg
  case isTrue hdir =>
    obtain ⟨k, hk, hinum, h0, _⟩ := entry_eq_some hg
    exact h.target hd ⟨hdir, hk, hinum, h0⟩
  case isFalse => cases hg

theorem FS.Planted.follow_names (h : σ.Planted g) (hd : σ.Taken g d) {cs : List CStr} :
    follow (σ.catalog g).edge d (cs.map entryName) = follow σ.graph d cs :=
  follow_map (P := σ.Taken g) hd (fun _ _ _ hn hg => h.graph_taken hn hg) fun _ _ hn => (edge_taken hn).trans (graph_entryName _)

/-- A path leads where it means. -/
theorem FS.Planted.find (h : σ.Planted g) (hstart : σ.Taken g (View.start path cur)) :
    follow (σ.catalog g).edge (View.start path cur) (names path) = σ.reference path cur := by
  rw [names, h.follow_names hstart, View.reference_eq]

/-- The directory of a path. -/
theorem FS.Planted.at_place (h : σ.Planted g) (hstart : σ.Taken g (View.start path cur)) :
    (σ.catalog g).At (place cur path) d ↔ σ.parent path cur = some d ∧ σ.isDir d := by
  show follow (σ.catalog g).edge (View.start path cur) ((components (dirname path)).map entryName) = some d ∧ σ.Taken g d ∧ σ.isDir d ↔ _
  rw [h.follow_names hstart, View.parent_eq]
  refine and_congr_right fun hd => and_iff_right ?_
  exact follow_mem hstart (fun _ _ _ hn hg => h.graph_taken hn hg) hd

/-! ## Steps -/

/-- An inode that a step leaves. -/
theorem sameAt_shown (hused : τ.Taken g e ↔ σ.Taken g e) (h : σ.Taken g e → σ.Same τ.toView e) : (τ.catalog g).SameAt (σ.catalog g) e := by
  by_cases he : σ.Taken g e
  · have hsame := h he
    refine ⟨hused, and_congr hused hsame.isDir, fun b => ?_, ?_⟩
    · rw [edge_taken he, edge_taken (hused.mpr he), hsame.graph]
    · show (if τ.Taken g e ∧ ¬ τ.isDir e then τ.content e else []) = if σ.Taken g e ∧ ¬ σ.isDir e then σ.content e else []
      simp only [hused, hsame.isDir, hsame.content]
  · have he' : ¬ τ.Taken g e := mt hused.mp he
    refine ⟨hused, iff_of_false (fun hn => he' hn.1) fun hn => he hn.1, fun b => ?_, ?_⟩
    · rw [edge_free he, edge_free he']
    · rw [content_free he, content_free he']

/-- A directory that changes in one name. -/
theorem sameAt_changed (hd : σ.Taken g d) (hd' : τ.Taken g d) (hdir : σ.isDir d) (hdir' : τ.isDir d) (hself : τ.entry d c = x)
    (hnames : ∀ a, a.take DIRNAMELEN ≠ c.take DIRNAMELEN → τ.entry d a = σ.entry d a) :
    (τ.catalog g).SameAt ((σ.catalog g).point d (entryName c) x) d := by
  refine ⟨iff_of_true hd' hd, iff_of_true ⟨hd', hdir'⟩ ⟨hd, hdir⟩, fun b => ?_, (content_dir hdir').trans (content_dir hdir).symm⟩
  show _ = if d = d ∧ b = entryName c then x else (σ.catalog g).edge d b
  rw [edge_taken hd, edge_taken hd', View.graph, View.graph, if_pos hdir, if_pos hdir']
  by_cases hb : b = entryName c
  · rw [if_pos ⟨rfl, hb⟩]
    exact (entry_congr (entryName_eq.mp hb)).trans hself
  · rw [if_neg fun hn => hb hn.2]
    exact hnames _ (mt entryName_eq.mpr hb)

/-- One that keeps its names may change where no name is. -/
theorem sameAt_names (hused : τ.Taken g e ↔ σ.Taken g e) (h : σ.Taken g e → e ≠ d → σ.Same τ.toView e)
    (hd : e = d → σ.isDir d ∧ τ.isDir d ∧ ∀ a, τ.entry d a = σ.entry d a) : (τ.catalog g).SameAt (σ.catalog g) e := by
  by_cases hed : e = d
  · subst hed
    obtain ⟨hdir, hdir', hnames⟩ := hd rfl
    refine ⟨hused, and_congr hused (iff_of_true hdir' hdir), fun b => ?_, (content_dir hdir').trans (content_dir hdir).symm⟩
    by_cases he : σ.Taken g e
    · rw [edge_taken he, edge_taken (hused.mpr he), View.graph, View.graph, if_pos hdir, if_pos hdir', hnames]
    · rw [edge_free he, edge_free (mt hused.mp he)]
  · exact sameAt_shown hused fun he => h he hed

/-- What the caches hide does not show. -/
theorem FS.Agrees.catalog (ha : σ.Agrees g τ) (hw : WellFormed g τ) : τ.catalog g = σ.catalog g :=
  Catalog.ext_at fun _ => .symm <| sameAt_shown (taken_same (congrArg Globals.i_head ha.globals.symm)) fun he =>
    (hw.mapped _ he.1).same (ha.inode _ he.1).symm fun b hb => (ha.block b hb).symm

end Yfs
