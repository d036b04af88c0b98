import Yfs.Link
import Yfs.Mkdir
import Yfs.TreeShape

/-! # Names stay in order

The condition of the path results holds in every state of a run.
-/

namespace Yfs

variable {g : Geometry} {f : DiskFormat} {fresh_dirty : Nat → Bool} {σ σ₁ τ : FS} {sv sv₀ sv' : Server} {v w : View} {X : Set Int}
  {d e i j cur ret new : Int} {k l : Nat} {bs c path name : CStr} {req : Request} {reqs : List Request}

/-- Paths that bring a name end in one. -/
def Request.Ends : Request → Prop
  | .create (some path) _ => basename path ≠ []
  | .link _ (some new_name) _ => basename new_name ≠ []
  | .mkdir (some path) _ => basename path ≠ []
  | _ => True

/-! ## One directory -/

theorem namedAt_empty (h : v.slots d = 0) : v.NamedAt d :=
  ⟨fun k hk => absurd hk (by omega), fun k hk => absurd hk (by omega), fun k l hk => absurd hk (by omega)⟩

/-- An entry less. -/
theorem SlotPut.namedAt_cleared (h : SlotPut g v w X d k 0 (v.slotName d k)) (hn : v.NamedAt d) (hk : k < v.slots d) : w.NamedAt d :=
  h.namedAt hn (hn.plain k hk) (fun h => absurd rfl h) (fun h => absurd rfl h) fun m hm hlt h0 => hn.first m k hlt h0 hm

theorem SlotPut.named_of (h : SlotPut g v w X d k i bs) (hn : v.Named g) (hheader : w.slots 0 = 0) (hself : w.NamedAt d)
    (hX : ∀ e ∈ X, w.isDir e → w.NamedAt e) : w.Named g := by
  refine .of_at hheader fun e he hdir => ?_
  by_cases hed : e = d
  · rwa [hed]
  · by_cases heX : e ∈ X
    · exact hX e heX hdir
    · have hsame := h.same e he hed heX
      exact hsame.namedAt (hn.at he (hsame.isDir.mp hdir))

theorem Bound.named_of (h : Bound g v w X d c i) (hn : v.Named g) (hheader : w.slots 0 = 0) (hd : g.isInode d) (hname : IsName c)
    (hX : ∀ e ∈ X, w.isDir e → w.NamedAt e) : w.Named g := by
  have hself := h.namedAt (hn.at hd h.before) hname.string hname.plain hname.nonempty
  obtain ⟨k, hput, _⟩ := h.slot
  exact hput.named_of hn hheader hself hX

theorem Emptied.named {freed : List Int} (h : Emptied σ τ i freed) (hn : σ.Named g) (hw : WellFormed g σ)
    (hheader : τ.slots 0 = 0) : τ.Named g := by
  refine .of_at hheader fun e he hdir => ?_
  by_cases hei : e = i
  · refine namedAt_empty ?_
    rw [hei, View.slots, h.size]
    rfl
  · have hsame := h.same hw he hei
    exact hsame.namedAt (hn.at he (hsame.isDir.mp hdir))

/-! ## Requests -/

/-- What `get_super_dir` cuts off is the last component. -/
theorem superDir_basename (hn : σ.Named g) (hw : WellFormed g σ) (hcur : g.isInode cur) (h0 : cur ≠ 0) (hstr : 0 ∉ path)
    (hsup : σ.superDir path cur = (d, name)) (hne : d ≠ ERROR) : name = basename path := by
  rcases superDir_parent hn hw hcur h0 hstr with ⟨_, _, _, _, hsup'⟩ | ⟨_, hsup'⟩
  · exact (Prod.mk.inj (hsup.symm.trans hsup')).2
  · rw [hsup] at hsup'
    exact absurd hsup' hne

theorem basename_adj : basename (adj_path_i path cur).1 = basename path := by
  unfold adj_path_i
  split
  case isTrue h =>
    cases path with
    | nil => cases h
    | cons a path =>
      obtain rfl : a = SLASH := Option.some.inj h
      exact (basename_slash path).symm
  case isFalse => rfl

/-! ## Steps -/

section

variable (hn : σ.Named g) (hw : WellFormed g σ) (hshort : 8 * g.table ≤ 2 ^ 15) (hheader : τ.slots 0 = 0)
include hn hw hheader

include hshort in
theorem CreatedIn.named (h : CreatedIn σ d name new ret τ) (hd : σ.Taken g d) (hdir : σ.isDir d) (hroom : σ.RoomFor g d name)
    (hname : IsName name) (hnew : new ≠ -1 → g.isInode new) : τ.Named g := by
  cases h with
  | taken => exact hn
  | @truncated k hk _ _ => exact (truncate_emptied hw (hw.entries d k hd.1 hdir (findSlot_lt hk))).named hn hw hheader
  | @made k σ₁ hp h0 _ =>
    have hat := hp.slotAt hw hd.1 hdir hroom
    have hnext := hp.nextInode
    have hne : σ₁.nextInode ≠ d := hnext ▸ (FS.Taken.ne_next hd).symm
    obtain ⟨hregular, _⟩ := newFile_fields (σ := σ₁) (d := d) (k := k) (c := name)
    have hbound := hp.bound hw hd.1 hdir hroom hn hname.string hname.plain h0 (hat.newFile_put (c := name) hshort hne)
    refine hbound.named_of hn hheader hd.1 hname ?_
    rintro e rfl hdir'
    exact absurd (hregular.symm.trans hdir') (by decide)
  | @linked k σ₁ hp h0 hne =>
    have hat := hp.slotAt hw hd.1 hdir hroom
    have hput := hat.newLink_put (X := ∅) (c := name) (wrap_inode hshort (hnew hne))
    exact (hp.bound hw hd.1 hdir hroom hn hname.string hname.plain h0 hput).named_of hn hheader hd.1 hname fun e he => absurd he (Set.notMem_empty e)

theorem Written.named {buf : UserBuf} {size byte_offset : Int} (h : Written σ i buf size byte_offset ret τ)
    (hok : σ.WriteOk g i buf size byte_offset) : τ.Named g := by
  have hkept := h.kept hw hok
  refine .of_at hheader fun e he hdir => ?_
  by_cases hei : e = i
  · subst hei
    exact absurd (hkept.type.symm.trans hdir) hok.file
  · have hsame := hkept.same e he hei
    exact hsame.namedAt (hn.at he (hsame.isDir.mp hdir))

omit hheader in
theorem removeEntry_named (hheader : (σ.removeEntry d k).slots 0 = 0) (hd : σ.Taken g d) (hdir : σ.isDir d) (hk : k < σ.slots d)
    (hleaf : σ.slotInum d k ≠ 0 → ¬ σ.isDir (σ.slotInum d k)) : (σ.removeEntry d k).Named g := by
  have hat : SlotAt g σ d k (σ.slotBlock d k) := ⟨hw, hd.1, hdir, hk, rfl⟩
  have hput := hat.removeEntry_put fun he => hleaf (he.symm ▸ hd.2.2) (he.symm ▸ hdir)
  refine hput.named_of hn hheader (hput.namedAt_cleared (hn.at hd.1 hdir) hk) ?_
  rintro e ⟨rfl, _⟩ hdir'
  by_cases h0 : σ.slotInum d k = 0
  · exact namedAt_empty (h0.symm ▸ hheader)
  · exact absurd ((removeEntry_edits (σ := σ) (d := d) (k := k) _ .type (by simp)).symm.trans hdir') (hleaf h0)

include hshort in
omit hheader in
theorem Placed.newDir_named (hp : Placed σ d name k σ₁) (hheader : (σ₁.newDir d k name).slots 0 = 0) (h0 : σ₁.slotInum d k = 0)
    (hd : σ.Taken g d) (hdir : σ.isDir d) (hroom : σ.RoomFor g d name) (hname : IsName name) (hlen : name.length ≤ DIRNAMELEN)
    (hfree : σ₁.b_head ≠ []) (hdata : ¬ g.isTable σ₁.next) (hends : (σ.block (σ.headDirBlock d name)).NamesEnd) :
    (σ₁.newDir d k name).Named g := by
  have hnew := (newDir_made hp hw hd.1 hdir hroom hlen hshort hfree hdata hn hname (FS.Taken.ne_next hd).symm h0).2
  refine hnew.slot.named_of hn hheader hd.1 hname ?_
  rintro e rfl _
  exact hnew.namedAt hends

omit hheader in
theorem Placed.clearEntry_named (hp : Placed (σ.dropDir i) d name k σ₁) (hheader : (σ₁.clearEntry d k).slots 0 = 0) (hi : σ.Taken g i)
    (hd : σ.Taken g d) (hdir : (σ.dropDir i).isDir d) (hne : d ≠ i) (hlook : σ.lookup d name = i) : (σ₁.clearEntry d k).Named g := by
  have hw₁ := dropDir_wellFormed hw hi.1
  have hzero : (σ.dropDir i).slots 0 = 0 := (dropDir_same hw hi.1 g.isInode_zero hi.2.2.symm).slots.trans hn.header
  have hn₁ := (dropDir_emptied hw hi.1).named hn hw hzero
  have hfind : (σ.dropDir i).findSlot d name = σ.findSlot d name := (dropDir_same hw hi.1 hd.1 hne).findSlot
  -- The name is there, so its slot is the one that is cleared.
  cases hp with
  | found hk =>
    have hat : SlotAt g (σ.dropDir i) d k ((σ.dropDir i).slotBlock d k) := ⟨hw₁, hd.1, hdir, findSlot_lt hk, rfl⟩
    have hput := hat.clearEntry_put (X := ∅)
    exact hput.named_of hn₁ hheader (hput.namedAt_cleared (hn₁.at hd.1 hdir) hat.lt) fun e he => absurd he (Set.notMem_empty e)
  | free hnone => exact absurd ((lookup_none (hfind.symm.trans hnone)).symm.trans hlook) hi.2.2.symm
  | new hnone => exact absurd ((lookup_none (hfind.symm.trans hnone.1)).symm.trans hlook) hi.2.2.symm

end

/-- A request keeps names in order. -/
theorem Effect.named (h : Effect σ req ret τ) (ht : σ.Planted g) (hn : σ.Named g) (hw : WellFormed g σ) (hshort : 8 * g.table ≤ 2 ^ 15)
    (hsafe : req.Safe g σ) (hkeeps : req.KeepsTree g σ) (hplain : req.Plain σ) (hends : req.Ends) : τ.Named g := by
  have hroot := g.isInode_root
  have hheader : τ.slots 0 = 0 := by
    rw [View.slots, h.header ht hw hsafe hkeeps]
    rfl
  cases h with
  | looked => exact hn
  | refused => exact hn
  | @create path cur _ _ h =>
    cases h with
    | error => exact hn
    | done hcur hsup hne hdir h =>
      obtain rfl := superDir_basename hn hw hsafe.1 (by omega) hplain hsup hne
      exact h.named hn hw hshort hheader (ht.superDir hkeeps.1 hsup hne) hdir (hsafe.2 _ _ hsup hdir) (isName_basename hplain hends)
        fun h => absurd rfl h
  | write h => exact h.named hn hw hheader hsafe
  | @link old new cur _ _ h =>
    cases h with
    | error => exact hn
    | @done i d k name σ₁ hcur hi h0 hfile hsup hne hdir hp hfree =>
      have hold : σ.Taken g (adj_path_i old cur).2 := by
        rw [adj_path_i_start]
        exact hkeeps
      have hnew : σ.Taken g (adj_path_i new (adj_path_i old cur).2).2 := by
        rw [adj_path_i_start]
        exact ht.start hold
      obtain rfl := superDir_basename hn hw hnew.1 hnew.2.2 (adj_path_i_zero hplain) hsup hne
      have hi' : g.isInode i := hi ▸ hw.resolve_isInode hold.1
      have hlinked := CreatedIn.linked hp hfree (isInode_ne_error hi')
      have hroom := hsafe.2 _ _ hsup hdir
      have hname : IsName (basename (adj_path_i new (adj_path_i old cur).2).1) := by
        rw [basename_adj]
        exact isName_basename hplain hends
      have hnamed := hlinked.named hn hw hshort (addLinks_same.slots.symm.trans hheader) (ht.superDir (ht.start hnew) hsup hne) hdir hroom hname
        fun _ => hi'
      exact .of_at hheader fun e he hdir' => addLinks_same.namedAt (hnamed.at he (addLinks_same.isDir.mp hdir'))
  | unlink h =>
    cases h with
    | error => exact hn
    | done hcur hsup hne hdir hk =>
      refine removeEntry_named hn hw hheader (ht.superDir hkeeps.1 hsup hne) hdir (findSlot_lt hk) ?_
      rw [← lookup_some hk]
      exact hkeeps.2 _ _ hsup hdir
  | @mkdir path cur _ _ h =>
    cases h with
    | error => exact hn
    | @done d k name σ₁ hcur hsup hne hdir hp hfree hfits =>
      obtain ⟨hlen, hblock, hdata⟩ := hsafe.2.2 _ _ _ _ hsup hp hfree
      have hstart : σ.Taken g (View.start (from_root path cur).1 (from_root path cur).2) := by
        rw [start_from_root]
        exact hkeeps.1
      have hd := ht.superDir hstart hsup hne
      have hcur' := from_root_isInode path hroot hsafe.1
      have hlast := superDir_basename hn hw hcur' (Int.ne_of_gt (from_root_pos path hcur)) (from_root_zero hplain.1) hsup hne
      rw [basename_from_root] at hlast
      subst hlast
      exact hp.newDir_named hn hw hshort hheader hfree hd hdir (hsafe.2.1 _ _ hsup hne).2 (isName_basename hplain.1 hends) hlen hblock hdata
        (hplain.2 _ _ hsup (hp.lookup_zero hfree))
  | @rmdir path cur _ _ h =>
    cases h with
    | error => exact hn
    | @done i d k name σ₁ hcur hi hsize hsup hne hdir hp =>
      obtain ⟨htaken, _, _, honly⟩ := hkeeps.2 i hi hsize
      subst hi
      obtain ⟨hdi, hlook⟩ := honly _ _ hsup hne
      have hstart : σ.Taken g (View.start (from_root path cur).1 (from_root path cur).2) := by
        rw [start_from_root]
        exact hkeeps.1
      exact hp.clearEntry_named hn hw hheader htaken (ht.superDir_drop hw htaken hstart hsup hne) hdir hdi hlook

/-! ## Runs -/

theorem View.Named.agrees (h : σ.Named g) (hw : WellFormed g σ) (ha : σ.Agrees g τ) : τ.Named g :=
  .of_at ((ha.same hw g.isInode_zero).slots.trans h.header) fun _ he hdir =>
    have hsame := ha.same hw he
    hsame.namedAt (h.at he (hsame.isDir.mp hdir))

/-- What the runs of this section keep. -/
structure Naming (g : Geometry) (sv : Server) : Prop extends OnDisk g sv where
  planted : sv.fs.Planted g
  named : sv.fs.Named g
  past : ∀ i ∈ sv.fs.i_head, ROOTINODE < i

theorem Effect.past (h : Effect σ req ret τ) (hw : WellFormed g σ) (hsafe : req.Safe g σ) (hkeeps : req.KeepsTree g σ)
    (hpast : ∀ i ∈ σ.i_head, ROOTINODE < i) : ∀ i ∈ τ.i_head, ROOTINODE < i := by
  rcases h.i_head hw hsafe with hsame | htail | ⟨i, hfrees, hcons⟩
  · rwa [hsame]
  · rw [htail]
    exact fun i hi => hpast i (List.mem_of_mem_tail hi)
  · rw [hcons]
    have hi : ROOTINODE < i := by
      obtain ⟨⟨hi, _, h0⟩, h1⟩ := hkeeps.frees hfrees
      have hpos := hi.1
      simp only [ROOTINODE] at h1 ⊢
      omega
    exact fun j hj => (List.mem_cons.mp hj).elim (fun he => he ▸ hi) (hpast j)

/-- The free inodes are no names' targets. -/
theorem Naming.inOrder (h : Naming g sv) : sv.InOrder g := by
  refine ⟨h.toOnDisk, h.named, h.past, fun d k hd hused hdir hk hlive => ?_⟩
  have h0 : d ≠ 0 := by
    rintro rfl
    rw [h.named.header] at hk
    exact absurd hk (Nat.not_lt_zero k)
  exact (h.planted.target ⟨hd, hused, h0⟩ ⟨hdir, hk, rfl, hlive⟩).2.1

theorem Naming.step {resp : Response} (h : Naming g sv) (hshort : 8 * g.table ≤ 2 ^ 15) (hsafe : req.Safe g sv.fs) (hkeeps : req.KeepsTree g sv.fs)
    (hplain : req.Plain sv.fs) (hends : req.Ends) (hserve : serve sv req = some (resp, sv')) : Naming g sv' := by
  obtain ⟨_, σ', heff, hw', ha⟩ := h.toSound.step hshort hsafe hserve
  refine ⟨h.toOnDisk.step hshort hsafe hserve, serve_planted h.toSound hshort h.planted hsafe hkeeps hserve,
    (heff.named h.planted h.named h.wellFormed hshort hsafe hkeeps hplain hends).agrees hw' ha, ?_⟩
  rw [show sv'.fs.i_head = σ'.i_head from congrArg Globals.i_head ha.globals]
  exact heff.past h.wellFormed hsafe hkeeps h.past

/-! ## A new disk -/

theorem naming (hboot : boot (f.disk fresh_dirty) = some sv₀)
    (hmeets : sv₀.meets (fun σ req => req.Safe f.geometry σ ∧ req.KeepsTree f.geometry σ ∧ req.Plain σ ∧ req.Ends) reqs)
    (hrun : serves sv₀ reqs = some sv) : Naming f.geometry sv := by
  have h := DiskFormat.started hboot
  have h2 := f.two
  have hfits := f.fits
  have hmax := f.max
  refine serves_induction ⟨DiskFormat.onDisk hboot, h.planted, h.fresh.named (by omega) (by omega) rfl, fun i hi => ?_⟩ hmeets hrun
    fun _ _ _ _ h ⟨hsafe, hkeeps, hplain, hends⟩ hs => h.step f.short hsafe hkeeps hplain hends hs
  have := (h.fresh.i_head i hi).1
  simp only [ROOTINODE]
  omega

/-! ## Paths in the states of a run -/

/-- A live slot is what its name leads to. -/
theorem graph_live (hn : σ.Named g) (he : g.isInode e) (hl : σ.Live e l j) : σ.graph e (cname (σ.slotName e l)) = some j := by
  have hshort : (cname (σ.slotName e l)).length ≤ DIRNAMELEN := slotName_length (v := σ.toView) ▸ (List.takeWhile_sublist _).length_le
  rw [View.graph, if_pos hl.dir]
  exact (hn.at he hl.dir).entry_iff.mpr ⟨l, hl.lt, hl.inum, hl.ne_zero, (List.take_of_length_le hshort).symm⟩

theorem reached_graph (h : σ.Reached e) (hg : σ.graph e c = some j) : σ.Reached j := by
  unfold View.graph at hg
  split at hg
  case isTrue hdir =>
    obtain ⟨k, hk, hinum, h0, _⟩ := entry_eq_some hg
    exact h.next ⟨hdir, hk, hinum, h0⟩
  case isFalse => cases hg

/-- A path from the root that means `i`. -/
structure View.PathTo (v : View) (p : CStr) (i : Int) : Prop where
  head : p.head? = some SLASH
  string : 0 ∉ p
  means : ∀ cur, v.reference p cur = some i

theorem View.PathTo.append (h : v.PathTo path e) (hne : name ≠ []) (hslash : SLASH ∉ name) (hstr : 0 ∉ name) (hg : v.graph e name = some j) :
    v.PathTo (path ++ SLASH :: name) j := by
  have hp : path ≠ [] := by
    rintro rfl
    cases h.head
  refine ⟨(List.head?_append_of_ne_nil _ hp).trans h.head, fun hm => ?_, fun cur => (reference_append hp hne hslash (h.means cur)).trans hg⟩
  rcases List.mem_append.mp hm with hm | hm
  · exact h.string hm
  · exact (List.mem_cons.mp hm).elim (by decide) hstr

theorem View.PathTo.live (h : Naming g sv) (hp : sv.fs.PathTo path e) (hr : sv.fs.Reached e) (hl : sv.fs.Live e l j) :
    ∃ p, sv.fs.PathTo p j ∧ HasPart p := by
  have he := (h.planted.reached hr).1
  have hn := h.named.at he hl.dir
  have hne : cname (sv.fs.slotName e l) ≠ [] := hn.nonempty l hl.lt (hl.inum ▸ hl.ne_zero)
  have hslash := hn.plain l hl.lt
  refine ⟨_, hp.append hne hslash (fun hm => by simpa using List.mem_takeWhile_imp hm) (graph_live h.named he hl), ?_⟩
  obtain ⟨a, ha⟩ := List.exists_mem_of_ne_nil _ hne
  exact ⟨a, List.mem_append_right _ (List.mem_cons_of_mem _ ha), fun he => hslash (he ▸ ha)⟩

/-- Names lead everywhere. -/
theorem exists_pathTo (h : Naming g sv) (hr : sv.fs.Reached i) : ∃ p, sv.fs.PathTo p i := by
  induction hr with
  | root => exact ⟨[SLASH], rfl, by decide, fun cur => reference_slashes (by simp) (by simp [HasPart])⟩
  | next hr hl ih =>
    obtain ⟨p, hp⟩ := ih
    obtain ⟨q, hq, _⟩ := hp.live h hr hl
    exact ⟨q, hq⟩

/-- Also to the root, through its own entry. -/
theorem exists_pathTo_part (h : Naming g sv) (hr : sv.fs.Reached i) : ∃ p, sv.fs.PathTo p i ∧ HasPart p := by
  cases hr with
  | root =>
    obtain ⟨p, hp⟩ := exists_pathTo h .root
    obtain ⟨c, hself⟩ := h.planted.tree.self _ h.planted.tree.root
    exact hp.live h .root (entries_eq_some.mp hself).2.1
  | next hr hl =>
    obtain ⟨p, hp⟩ := exists_pathTo h hr
    exact hp.live h hr hl

theorem open_finds_reference (h : Naming g sv) {p : CStr} (hcur : g.isInode cur) (hpos : 0 < cur) (hstr : 0 ∉ p) (hpart : HasPart p) :
    ∃ sv', serve sv (.open (some p) cur) = some ({ ret := (sv.fs.reference p cur).getD ERROR }, sv') := by
  obtain ⟨sv', hopen⟩ := open_answers (p := p) h.toOnDisk hcur hpos
  rw [resolve_from_root h.named hstr h.wellFormed hcur hpart, opens_getD (by omega)] at hopen
  exact ⟨sv', hopen⟩

/-- `open` of `p`, wherever the process is, returns `i`. -/
def Server.Opens (g : Geometry) (sv : Server) (p : CStr) (i : Int) : Prop :=
  ∀ cur, g.isInode cur → 0 < cur → ∃ sv', serve sv (.open (some p) cur) = some ({ ret := i }, sv')

/-- A directory in the root of a small disk. -/
theorem smallDisk_mkdir : ∃ sv₀ sv, boot (smallDisk.disk fun _ => false) = some sv₀ ∧ serves sv₀ [.mkdir (some [SLASH, 97]) 1] = some sv ∧
    sv₀.meets (fun σ req => req.Safe smallDisk.geometry σ ∧ req.KeepsTree smallDisk.geometry σ ∧ req.Plain σ ∧ req.Ends)
      [.mkdir (some [SLASH, 97]) 1] := by
  have hfirst : (boot (smallDisk.disk fun _ => false)).map (fun sv => decide (2 ≤ sv.fs.b_head.length ∧
      ¬ smallDisk.geometry.isTable (sv.fs.headDirBlock 1 [97]) ∧ sv.fs.nextInode ≠ 0 ∧ (sv.fs.block (sv.fs.headDirBlock 1 [97])).NamesEnd ∧
      sv.fs.superDir [97] 1 = (1, [97]) ∧ sv.fs.isDir 1 ∧ sv.fs.size 1 % 512 ≠ 0 ∧ sv.fs.Taken smallDisk.geometry 1)) = some true := by decide +kernel
  obtain ⟨sv, hrun, _⟩ := Option.map_eq_some_iff.mp (show ((smallDisk.disk fun _ => false).serves [.mkdir (some [SLASH, 97]) 1]).map
    (fun _ => ()) = some () by decide +kernel)
  obtain ⟨sv₀, hboot, hrun⟩ := Disk.serves_eq hrun
  refine ⟨sv₀, sv, hboot, hrun, ?_, fun _ _ _ => trivial⟩
  rw [hboot] at hfirst
  obtain ⟨hblocks, htable, hnext, hends, hsup, hdir, hroom, hroot⟩ := of_decide_eq_true (Option.some.inj hfirst)
  obtain ⟨hsafe, hkeeps, hplain⟩ := mkdir_meets hroot.1 (show from_root [SLASH, 97] 1 = ([97], 1) by decide) hsup hdir hroom (by decide) hblocks
    htable hroot hnext (by decide) hends
  exact ⟨hsafe, hkeeps, hplain, show basename [SLASH, 97] ≠ [] by decide⟩

end Yfs
