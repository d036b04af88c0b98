import Yfs.Mkdir

/-! # `rmdir` removes an empty directory -/

namespace Yfs

open Names

variable {g : Geometry} {σ τ τ' : FS} {sv sv' : Server} {v : View} {d e i j cur : Int} {k : Nat} {p path c name : CStr}

/-! ## What `rmdir` is for -/

def IsDots (c : CStr) : Prop := c = [DOT] ∨ c = [DOT, DOT]

instance : Decidable (IsDots c) := inferInstanceAs (Decidable (_ ∨ _))

/-- The path leads to `i`, a directory but not the root, by another name than `.` and `..`, and these are all the names in it. -/
structure View.Removable (v : View) (p : CStr) (cur i : Int) : Prop where
  means : v.reference p cur = some i
  dir : v.isDir i
  notRoot : i ≠ ROOTINODE
  named : ∃ c, (components p).getLast? = some c ∧ ¬ IsDots c
  empty : ∀ e ∈ v.live i, IsDots e.1

/-- The directory that the last component is looked up in. -/
def View.holder (v : View) (p : CStr) (cur : Int) : Option Int := v.follow (View.start p cur) (components p).dropLast

/-- The path no longer resolves, and other names lead where they led. The inode and its blocks are free. -/
structure DirRemoved (g : Geometry) (σ τ : FS) (p : CStr) (cur i : Int) : Prop where
  gone : τ.reference p cur = none
  names : ∀ e a, g.isInode e → e ≠ i → σ.isDir e → (∀ c, σ.holder p cur = some e → (components p).getLast? = some c →
    a.take DIRNAMELEN ≠ c.take DIRNAMELEN) → τ.isDir e ∧ τ.entry e a = σ.entry e a
  inode : ∀ j, g.isInode j → j ≠ i → τ.inode j = σ.inode j
  size : τ.size i = 0
  i_head : τ.i_head = i :: σ.i_head
  b_head : τ.b_head = (σ.fileBlocks i).reverse ++ σ.b_head

/-- What `rmdir` is for. -/
structure Rmdirs (g : Geometry) (σ : FS) (p : CStr) (cur ret : Int) (τ : FS) : Prop where
  removes : ∀ i, σ.Removable p cur i → ret = 0 ∧ DirRemoved g σ τ p cur i
  refuses : (¬ ∃ i, σ.Removable p cur i) → ret = ERROR ∧ σ.Unchanged g τ

/-- The path leads to an inode: one with more than two entries' bytes that is not to be removed, or one with less that is, and that the
path ends in, and does not come through. -/
def FS.RmdirMeant (σ : FS) (p : CStr) (cur : Int) : Prop :=
  HasPart p ∧ ∃ i, σ.reference p cur = some i ∧ (64 < σ.size i ∧ ¬ σ.Removable p cur i ∨
    σ.size i ≤ 64 ∧ σ.Removable p cur i ∧ basename p ≠ [] ∧ (from_root p cur).1.length < MAXPATHNAMELEN ∧
      Avoids σ.graph (View.start p cur) (components p) i)

/-! ## Without the directory -/

section

variable (hw : WellFormed g σ) (hi : g.isInode i)
include hw hi

theorem dropDir_same (he : g.isInode e) (hne : e ≠ i) : σ.Same (σ.dropDir i).toView e := (dropDir_emptied hw hi).same hw he hne

theorem dropDir_slots : (σ.dropDir i).slots i = 0 := by
  rw [View.slots, (dropDir_emptied hw hi).size]
  rfl

theorem dropDir_named (hn : σ.Named g) : (σ.dropDir i).Named g := by
  refine .of_at ?_ fun e he hdir => ?_
  · by_cases h0 : i = 0
    · subst h0
      exact dropDir_slots hw hi
    · rw [(dropDir_same hw hi g.isInode_zero (Ne.symm h0)).slots]
      exact hn.header
  · by_cases hei : e = i
    · subst hei
      have hnone := dropDir_slots hw hi
      exact ⟨fun k hk => by omega, fun k hk => by omega, fun k l hk => by omega⟩
    · have hsame := dropDir_same hw hi he hei
      exact hsame.namedAt (hn.at he (hsame.isDir.mp hdir))

theorem dropDir_graph : (σ.dropDir i).graph i c = none := by
  unfold View.graph
  split
  · exact entry_eq_none fun k hk => absurd hk (by rw [dropDir_slots hw hi]; exact Nat.not_lt_zero k)
  · rfl

/-- The paths that are left do not come through the directory. -/
theorem dropDir_follow {s m : Int} {cs : List CStr} (hs : g.isInode s) :
    follow (σ.dropDir i).graph s cs = some m ↔ follow σ.graph s cs = some m ∧ Avoids σ.graph s cs i :=
  follow_cut (P := g.isInode) hs (fun _ _ _ hn hm => graph_isInode hw hn hm) (fun _ => dropDir_graph hw hi)
    fun _ _ hn hne => (dropDir_same hw hi hn hne).graph

theorem dropDir_parent (hcur : g.isInode cur) : (σ.dropDir i).parent p cur = some d ↔
    σ.parent p cur = some d ∧ Avoids σ.graph (View.start p cur) (components (dirname p)) i := by
  rw [View.parent_eq, View.parent_eq]
  exact dropDir_follow hw hi (start_isInode hcur)

theorem dropDir_data (htable : ∀ b ∈ σ.b_head, ¬ g.isTable b) : ¬ g.isTable (σ.dropDir i).next := by
  have hall : ∀ b ∈ (σ.dropDir i).b_head, ¬ g.isTable b := by
    intro b hb
    rw [(dropDir_emptied hw hi).b_head] at hb
    rcases List.mem_append.mp hb with hheld | hfree
    · obtain ⟨m, hm, rfl⟩ := (dropDir_emptied hw hi).held b hheld
      exact (hw.mapped i hi).data m hm
    · exact htable b hfree
  exact next_data hall

end

/-! ## Paths to a directory that can go -/

theorem IsDots.of_take (h : IsDots (c.take DIRNAMELEN)) : IsDots c := by
  have hshort : ∀ b : CStr, b.length < DIRNAMELEN → c.take DIRNAMELEN = b → c = b := by
    rintro _ hlen rfl
    rw [List.length_take] at hlen
    exact (List.take_of_length_le (by omega)).symm
  rcases h with h | h
  · exact .inl (hshort _ (by decide) h)
  · exact .inr (hshort _ (by decide) h)

theorem components_last (hbase : basename p ≠ []) : (components p).getLast? = some (basename p) := by
  rw [components_basename hbase, List.getLast?_concat]

theorem holder_eq (hbase : basename p ≠ []) : v.holder p cur = v.parent p cur := by
  rw [View.holder, components_basename hbase, List.dropLast_concat, View.follow_eq, View.parent_eq]

namespace View.Removable

variable (h : v.Removable p cur i)
include h

theorem hasPart : HasPart p := by
  by_contra hnone
  have hcomp : components p = [] := by rw [← components_skip_slashes, skip_slashes_nil.mpr hnone, components_nil]
  obtain ⟨c, hc, _⟩ := h.named
  rw [hcomp] at hc
  cases hc

theorem parent_ne (hbase : basename p ≠ []) (hpar : v.parent p cur = some d) : d ≠ i := by
  rintro rfl
  have hmeans := h.means
  rw [reference_basename hbase, hpar, Option.bind_some, View.graph, if_pos h.dir] at hmeans
  obtain ⟨k, hk, hinum, h0, hname⟩ := entry_eq_some hmeans
  have hdots := h.empty _ ⟨k, hk, by rwa [hinum], rfl⟩
  obtain ⟨c, hc, hother⟩ := h.named
  rw [components_last hbase] at hc
  obtain rfl := Option.some.inj hc
  rw [hname] at hdots
  exact hother hdots.of_take

theorem eq (h' : v.Removable p cur j) : i = j := Option.some.inj (h.means.symm.trans h'.means)

end View.Removable

/-- Only the first bytes of a name count. -/
theorem entry_congr {a : CStr} (h : a.take DIRNAMELEN = c.take DIRNAMELEN) : v.entry d a = v.entry d c := by
  rw [View.entry, View.entry, h]

section

variable (hw : WellFormed g σ) (hn : σ.Named g) (hcur : g.isInode cur) (h0 : cur ≠ 0) (hstr : 0 ∉ p) (hi : g.isInode i)
  (hrem : σ.Removable p cur i) (hbase : basename p ≠ []) (hpar : (σ.dropDir i).parent p cur = some d)
include hw hn hcur h0 hstr hi hrem hbase hpar

/-- The entry that `handle_rmdir` finds. -/
theorem dropDir_slot : g.isInode d ∧ d ≠ i ∧ (σ.dropDir i).isDir d ∧ ∃ k, (σ.dropDir i).findSlot d (basename p) = some k ∧
    (σ.dropDir i).slotInum d k ≠ 0 ∧ cname ((σ.dropDir i).slotName d k) = (basename p).take DIRNAMELEN := by
  have hold := ((dropDir_parent hw hi hcur).mp hpar).1
  have hd := parent_isInode hw hcur hold
  have hdi := hrem.parent_ne hbase hold
  have hsame := dropDir_same hw hi hd hdi
  have hgraph := hrem.means
  rw [View.reference_basename hbase, hold, Option.bind_some, ← hsame.graph, View.graph] at hgraph
  split at hgraph
  case isFalse => cases hgraph
  case isTrue hdir =>
  have hn₁ := dropDir_named hw hi hn
  refine ⟨hd, hdi, hdir, ?_⟩
  cases hk : (σ.dropDir i).firstNamed d ((basename p).take DIRNAMELEN) with
  | none =>
    rw [entry_of_firstNamed_none hn₁ hd hdir hstr hk] at hgraph
    cases hgraph
  | some k =>
    have hinum := slotInum_basename hn₁ hd hdir hstr hk
    rw [hgraph, Option.getD_some] at hinum
    refine ⟨k, (findSlot_basename hn₁ hd hdir hstr).trans hk, ?_, by simpa using List.find?_some hk⟩
    rw [hinum]
    exact reference_ne_zero h0 hrem.means

variable (hk : (σ.dropDir i).findSlot d (basename p) = some k) (ha : ((σ.dropDir i).clearEntry d k).Agrees g τ)
include hk ha

/-- What `handle_rmdir` does to a directory that can go. -/
theorem clearEntry_removed : DirRemoved g σ τ p cur i := by
  obtain ⟨hd, hdi, hdir, k', hk', hlive, hname⟩ := dropDir_slot hw hn hcur h0 hstr hi hrem hbase hpar
  obtain rfl := Option.some.inj (hk.symm.trans hk')
  have hold := ((dropDir_parent hw hi hcur).mp hpar).1
  have hemp := dropDir_emptied hw hi
  have hnamed := (dropDir_named hw hi hn).at hd hdir
  have hlt := findSlot_lt hk
  have hat : SlotAt g (σ.dropDir i) d k ((σ.dropDir i).slotBlock d k) := ⟨dropDir_wellFormed hw hi, hd, hdir, hlt, rfl⟩
  have hw₂ := hat.clearEntry
  have hput : SlotPut g (σ.dropDir i).toView τ.toView ∅ d k 0 ((σ.dropDir i).slotName d k) :=
    hat.clearEntry_put.then_same (ha.same hw₂ hd) fun e he _ _ => ha.same hw₂ he
  have hself := hput.namedAt hnamed (hnamed.plain k hlt) (fun h => absurd rfl h) (fun h => absurd rfl h)
    fun m hm hlt h0 => hnamed.first m k hlt h0 hm
  have hgone : τ.entry d (basename p) = none := hput.entry_gone hnamed hlt hlive hname rfl
  have hentry : ∀ a, a.take DIRNAMELEN ≠ (basename p).take DIRNAMELEN → τ.entry d a = σ.entry d a := fun a ha =>
    (hput.entry_other hnamed hself (fun _ _ he => ha (he.symm.trans hname)) fun h => absurd rfl h).trans (dropDir_same hw hi hd hdi).entry
  have hother : ∀ e, g.isInode e → e ≠ d → e ≠ i → σ.Same τ.toView e := fun e he hed hei =>
    (dropDir_same hw hi he hei).trans (hput.same e he hed (by simp))
  -- No edge is new.
  have hless : ∀ e a m, g.isInode e → τ.graph e a = some m → σ.graph e a = some m := by
    intro e a m he hm
    by_cases hed : e = d
    · subst hed
      rw [View.graph, if_pos hput.after] at hm
      by_cases hsame : a.take DIRNAMELEN = (basename p).take DIRNAMELEN
      · rw [entry_congr hsame, hgone] at hm
        cases hm
      · rw [View.graph, if_pos ((dropDir_same hw hi hd hdi).isDir.mp hdir), ← hentry a hsame, hm]
    · by_cases hei : e = i
      · subst hei
        rw [(hput.same e he hed (by simp)).graph, dropDir_graph hw hi] at hm
        cases hm
      · rwa [(hother e he hed hei).graph] at hm
  refine ⟨?_, fun e a he hei hdir' hne => ?_, fun j hj hji => (ha.inode j hj).trans (hemp.inode j hji), ?_,
    congrArg Globals.i_head ha.globals, (congrArg Globals.b_head ha.globals).trans hemp.b_head⟩
  · rw [View.reference_basename hbase, Option.bind_eq_none_iff]
    intro d' hd'
    rw [View.parent_eq] at hd'
    have hmono := follow_mono (P := g.isInode) (start_isInode hcur) (fun e a m he hm => graph_isInode hw he (hless e a m he hm)) hless hd'
    rw [← View.parent_eq, hold] at hmono
    obtain rfl := Option.some.inj hmono
    rw [View.graph, if_pos hput.after, hgone]
  · by_cases hed : e = d
    · subst hed
      exact ⟨hput.after, hentry a (hne _ ((holder_eq hbase).trans hold) (components_last hbase))⟩
    · have hsame := hother e he hed hei
      exact ⟨hsame.isDir.mpr hdir', hsame.entry⟩
  · rw [View.size, ha.inode i hi]
    exact hemp.size

end

/-! ## The handler -/

/-- If `q` returns, it returns `r`. -/
def Prog.Gives {α : Type} (q : Prog α) (r : α) : Prop := ∀ sv a sv', run q sv = some (a, sv') → a = r

theorem Prog.Gives.ret {α : Type} (r : α) : (Prog.ret r).Gives r := fun _ _ _ h => (Prod.mk.inj (Option.some.inj h)).1.symm

theorem Prog.Gives.bind {α β : Type} {q : Prog α} {f : α → Prog β} {r : β} (h : ∀ a, (f a).Gives r) : (q >>= f).Gives r := by
  intro sv b sv' hrun
  obtain ⟨a, _, _, hrest⟩ := run_bind_some hrun
  exact h a _ _ _ hrest

section

variable {resp : Response} (h : OnDisk g sv) (hcur : g.isInode cur) (hpos : 0 < cur)
  (hres : sv.fs.resolve (from_root p cur).1 (from_root p cur).2 = i)
include h hcur hpos hres

/-- What is left of a handler after its last check returns 0. -/
theorem rmdir_zero (hsize : sv.fs.size i ≤ 64) (hserve : serve sv (.rmdir (some p) cur) = some (resp, sv')) : resp.ret = 0 := by
  have hw := h.wellFormed
  have hstart := from_root_isInode p g.isInode_root hcur
  have hi : g.isInode i := hres ▸ hw.resolve_isInode hstart
  have hwalk : wp g (get_path_i_num (from_root p cur).1 (from_root p cur).2) sv.fs fun r σ => r = i ∧ σ = sv.fs :=
    get_path_i_num_spec hw hstart ⟨hres, rfl⟩
  have hget : wp g (get_i i) sv.fs fun ptr σ => ptr.num = i ∧ σ = sv.fs := by
    simp only [wp_get_i]
    exact fun _ => ⟨hi, fun _ => ⟨trivial, trivial⟩⟩
  rw [serve_handler (by simp), Request.handler] at hserve
  obtain ⟨ret, sv₁, hrun, hreply⟩ := run_bind_some hserve
  obtain ⟨rfl, _⟩ := Prod.mk.inj (Option.some.inj hreply)
  unfold handle_rmdir at hrun
  dsimp only at hrun
  rw [if_neg (by omega)] at hrun
  obtain ⟨_, sv₂, hrun₂, hrun⟩ := run_bind_some hrun
  obtain ⟨_, ⟨hr, rfl⟩, hrel₂⟩ := run_sound h.caches.rel hwalk hrun₂
  rw [hr] at hrun
  rw [if_neg (isInode_ne_error hi)] at hrun
  obtain ⟨ptr, sv₃, hrun₃, hrun⟩ := run_bind_some hrun
  obtain ⟨_, ⟨hnum, rfl⟩, hrel₃⟩ := run_sound hrel₂ hget hrun₃
  have hread : wp g (readInode ptr) sv.fs fun ino _ => ino = sv.fs.inode ptr.num := by simp only [wp_readInode]
  obtain ⟨ino, sv₄, hrun₄, hrun⟩ := run_bind_some hrun
  obtain ⟨_, rfl, _⟩ := run_sound hrel₃ hread hrun₄
  have hsmall : ¬ (sv.fs.inode ptr.num).size > 2 * DIRENTSIZE := by
    rw [hnum]
    exact Int.not_lt.mpr hsize
  rw [if_neg hsmall] at hrun
  refine Prog.Gives.bind (fun _ => ?_) _ _ _ hrun
  exact .bind fun _ => .bind fun _ => .bind fun _ => .bind fun _ => .bind fun _ => .bind fun _ => .ret 0

/-- A bigger inode is refused. -/
theorem rmdir_full (hsize : 64 < sv.fs.size i) :
    ∃ resp sv', serve sv (.rmdir (some p) cur) = some (resp, sv') ∧ resp.ret = ERROR ∧ sv.fs.Unchanged g sv'.fs := by
  have hle : ¬ sv.fs.size i ≤ 64 := Int.not_le.mpr hsize
  have hanswer : Request.Answerable g sv (.rmdir (some p) cur) :=
    ⟨⟨hcur, fun hs => absurd (hres ▸ hs) hle⟩, fun _ hs => absurd (hres ▸ hs) hle, trivial⟩
  have hspec : wp g (Request.rmdir (some p) cur).handler sv.fs fun resp σ' => resp.ret = ERROR ∧ σ' = sv.fs :=
    wp_bind.mpr (handle_rmdir_cases h.wellFormed g.isInode_root hcur hres (fun hle => absurd hpos (by omega)) (fun _ => wp_pure ⟨rfl, rfl⟩)
      fun _ hs => absurd hs hle)
  obtain ⟨resp, sv', σ', hserve, ⟨hret, rfl⟩, hrel⟩ := h.serves_to hanswer (by simp) hspec
  exact ⟨resp, sv', hserve, hret, hrel.agrees.unchanged⟩

variable (hsize : sv.fs.size i ≤ 64)
include hsize

/-- There is no inode -1. -/
theorem rmdir_undefined (hsup : ((sv.fs.dropDir i).superDir (from_root p cur).1 (from_root p cur).2).1 = ERROR) :
    serve sv (.rmdir (some p) cur) = none := by
  refine h.unanswered (by simp) (wp_bind.mpr (handle_rmdir_cases h.wellFormed g.isInode_root hcur hres (fun hle => absurd hpos (by omega))
    (fun hlt => absurd hsize (Int.not_le.mpr hlt)) fun _ _ d name hsup' hne => ?_))
  rw [hsup'] at hsup
  exact absurd hsup hne

/-- A path with a slash at its end has the directory make an entry for no name, in itself. -/
theorem rmdir_slash (htable : ∀ b ∈ sv.fs.b_head, ¬ g.isTable b)
    (hsup : (sv.fs.dropDir i).superDir (from_root p cur).1 (from_root p cur).2 = (i, name))
    (hserve : serve sv (.rmdir (some p) cur) = some (resp, sv')) : sv'.fs.size i = 32 := by
  have hw := h.wellFormed
  have hi : g.isInode i := hres ▸ hw.resolve_isInode (from_root_isInode p g.isInode_root hcur)
  have hw₁ := dropDir_wellFormed hw hi
  have hnone : (sv.fs.dropDir i).Full i name := by
    have hslots := dropDir_slots hw hi
    exact ⟨by rw [View.findSlot, hslots]; rfl, by rw [View.freeSlot, hslots]; rfl⟩
  have hspec : wp g (Request.rmdir (some p) cur).handler sv.fs fun _ σ' => σ'.size i = 32 := by
    refine wp_bind.mpr (handle_rmdir_cases hw g.isInode_root hcur hres (fun hle => absurd hpos (by omega))
      (fun hlt => absurd hsize (Int.not_le.mpr hlt)) fun _ _ d name' hsup' _ => ?_)
    obtain ⟨rfl, rfl⟩ := Prod.mk.inj (hsup'.symm.trans hsup)
    have hblocks : (sv.fs.dropDir d).blocks d = 0 := by
      rw [View.blocks, (dropDir_emptied hw hi).size]
      rfl
    refine get_dir_entry_any_spec hw₁ hi (fun _ _ => ⟨dropDir_data hw hi htable, fun h12 => by omega⟩) (fun k hk => ?_) (fun _ k hk => ?_)
      fun _ off b σ₁ htab _ _ _ hsize => ⟨htab, wp_pure ?_⟩
    · rw [hnone.1] at hk
      cases hk
    · rw [hnone.2] at hk
      cases hk
    · rw [(dropDir_emptied hw hi).size] at hsize
      exact hsize.trans (Mem.wrap_int _ (by decide) (by decide))
  obtain ⟨σ', hsize', hrel⟩ := h.answered (by simp) hspec hserve
  rw [View.size, hrel.agrees.inode i hi]
  exact hsize'

/-- The entry that is left is freed. -/
theorem rmdir_clears (hsup : (sv.fs.dropDir i).superDir (from_root p cur).1 (from_root p cur).2 = (d, name)) (hne : d ≠ ERROR)
    (hdir : (sv.fs.dropDir i).isDir d) (hk : (sv.fs.dropDir i).findSlot d name = some k) :
    ∃ resp sv', serve sv (.rmdir (some p) cur) = some (resp, sv') ∧ resp.ret = 0 ∧ Rel g sv' ((sv.fs.dropDir i).clearEntry d k) := by
  have hw := h.wellFormed
  have hstart := from_root_isInode p g.isInode_root hcur
  have hw₁ := dropDir_wellFormed hw (hres ▸ hw.resolve_isInode hstart)
  have hd := (hw₁.superDir_isInode g.isInode_root hstart hsup).resolve_left hne
  have hroom : (sv.fs.dropDir i).RoomFor g d name := fun hfull => by
    rw [hfull.1] at hk
    cases hk
  have hanswer : Request.Answerable g sv (.rmdir (some p) cur) := by
    refine ⟨⟨hcur, fun _ d' name' hsup' _ => ?_⟩, fun _ _ => ?_, trivial⟩
    · rw [hres, hsup] at hsup'
      obtain ⟨rfl, rfl⟩ := Prod.mk.inj hsup'
      rw [hres]
      exact ⟨hdir, hroom⟩
    · rwa [hres, hsup]
  have hspec : wp g (Request.rmdir (some p) cur).handler sv.fs fun resp σ' => resp.ret = 0 ∧ σ' = (sv.fs.dropDir i).clearEntry d k := by
    refine wp_bind.mpr (handle_rmdir_cases hw g.isInode_root hcur hres (fun hle => absurd hpos (by omega))
      (fun hlt => absurd hsize (Int.not_le.mpr hlt)) fun _ _ d' name' hsup' _ => ?_)
    obtain ⟨rfl, rfl⟩ := Prod.mk.inj (hsup'.symm.trans hsup)
    refine room_spec hw₁ hd hdir hroom fun l σ₁ hp => ⟨hp.not_table hw₁ hd hdir hroom, wp_pure ⟨rfl, ?_⟩⟩
    cases hp with
    | found hl =>
      obtain rfl := Option.some.inj (hl.symm.trans hk)
      rfl
    | free hnone =>
      rw [hnone] at hk
      cases hk
    | new hfull =>
      rw [hfull.1] at hk
      cases hk
  obtain ⟨resp, sv', σ', hserve, ⟨hret, rfl⟩, hrel⟩ := h.serves_to hanswer (by simp) hspec
  exact ⟨resp, sv', hserve, hret, hrel⟩

variable (hn : sv.fs.Named g) (hstr : 0 ∉ p)
include hn hstr

/-- A directory that the path does not come through is removed. -/
theorem rmdir_removed (hrem : sv.fs.Removable p cur i) (hbase : basename p ≠ []) (hlen : (from_root p cur).1.length < MAXPATHNAMELEN)
    (hpar : (sv.fs.dropDir i).parent p cur = some d) :
    ∃ resp sv', serve sv (.rmdir (some p) cur) = some (resp, sv') ∧ resp.ret = 0 ∧ DirRemoved g sv.fs sv'.fs p cur i := by
  have hw := h.wellFormed
  have h0 : cur ≠ 0 := by omega
  have hstart := from_root_isInode p g.isInode_root hcur
  have hi : g.isInode i := hres ▸ hw.resolve_isInode hstart
  have hw₁ := dropDir_wellFormed hw hi
  obtain ⟨hd, _, hdir, k, hk, _⟩ := dropDir_slot hw hn hcur h0 hstr hi hrem hbase hpar
  have hs0 : (from_root p cur).2 ≠ 0 := by
    rw [from_root_start]
    exact Int.ne_of_gt (start_pos hpos)
  have hsup := superDir_eq (dropDir_named hw hi hn) hw₁ hstart hs0 (from_root_zero hstr) hlen
  rw [parent_from_root, hpar, Option.getD_some, basename_from_root] at hsup
  obtain ⟨resp, sv', hserve, hret, hrel⟩ := rmdir_clears h hcur hpos hres hsize hsup (isInode_ne_error hd) hdir hk
  exact ⟨resp, sv', hserve, hret, clearEntry_removed hw hn hcur h0 hstr hi hrem hbase hpar hk hrel.agrees⟩

end

/-- What the path leads to, if `handle_rmdir` finds it. -/
theorem resolve_reference (hn : σ.Named g) (hw : WellFormed g σ) (hcur : g.isInode cur) (hstr : 0 ∉ p)
    (hres : σ.resolve (from_root p cur).1 (from_root p cur).2 = i) (h0 : i ≠ 0) : HasPart p ∧ σ.reference p cur = some i := by
  by_cases hpart : HasPart p
  · rw [resolve_from_root hn hstr hw hcur hpart] at hres
    cases href : σ.reference p cur with
    | none =>
      rw [href] at hres
      exact absurd hres.symm h0
    | some j =>
      rw [href] at hres
      exact ⟨hpart, congrArg some hres⟩
  · by_cases hne : p = []
    · subst hne
      exact absurd (hres.symm.trans (resolve_empty hn List.not_mem_nil hcur rfl)) h0
    · exact absurd (hres.symm.trans (resolve_slashes hn hne hpart)) h0

/-- After a slash at its end, a path leads to its directory. -/
theorem reference_of_slash (hbase : basename p = []) : v.reference p cur = v.parent p cur := by
  have hdir := dirname_append_basename p
  rw [hbase, List.append_nil] at hdir
  rw [View.parent, hdir]

section

variable (h : OnDisk g sv) (hn : sv.fs.Named g) (hcur : g.isInode cur) (hpos : 0 < cur) (hstr : 0 ∉ p)
  (htable : ∀ b ∈ sv.fs.b_head, ¬ g.isTable b)
include h hn hcur hpos hstr htable

end

end Yfs
