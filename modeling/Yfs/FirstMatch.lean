import Yfs.Bindings
import Yfs.Header
import Yfs.Splitting

/-! # The first slot with a name

Entries that were removed keep their names. No such slot, and no other, comes before the live one.
-/

namespace Yfs

open Names

variable {g : Geometry} {σ τ : FS} {sv sv₀ : Server} {v w : View} {X : Set Int} {d e i j cur ret : Int} {k : Nat} {c bs : List UInt8}
  {p name path : CStr} {req : Request} {reqs : List Request}

/-- A live slot of `d` with the name `c` has no slot with that name before it. -/
def View.FirstLive (v : View) (d : Int) (c : List UInt8) : Prop :=
  ∀ k l, k < v.slots d → v.slotInum d k ≠ 0 → cname (v.slotName d k) = c → l < k → cname (v.slotName d l) ≠ c

/-! ## What keeps the first live -/

theorem View.Same.firstLive (h : v.Same w d) (hf : v.FirstLive d c) : w.FirstLive d c := by
  intro k l hk hlive hname hl
  rw [h.slots] at hk
  rw [h.slotInum hk] at hlive
  rw [h.slotName hk] at hname
  rw [h.slotName (Nat.lt_trans hl hk)]
  exact hf k l hk hlive hname hl

/-- There is only one. -/
theorem View.FirstLive.unique {l : Nat} (hf : v.FirstLive d c) (hk : k < v.slots d) (hl : l < v.slots d) (hklive : v.slotInum d k ≠ 0)
    (hllive : v.slotInum d l ≠ 0) (hkname : cname (v.slotName d k) = c) (hlname : cname (v.slotName d l) = c) : k = l := by
  rcases Nat.lt_trichotomy k l with hlt | he | hgt
  · exact absurd hkname (hf l k hl hllive hlname hlt)
  · exact he
  · exact absurd hlname (hf k l hk hklive hkname hgt)

theorem SlotPut.firstLive (h : SlotPut g v w X d k i bs) (hf : v.FirstLive d c)
    (hfirst : i ≠ 0 → cname bs = c → ∀ l, l < k → cname (v.slotName d l) ≠ c)
    (hlast : cname bs = c → ∀ m, k < m → m < v.slots d → v.slotInum d m ≠ 0 → cname (v.slotName d m) ≠ c) : w.FirstLive d c := by
  have hs := h.slots
  have hle := h.le
  intro m l hm hlive hname hl
  by_cases hmk : m = k
  · subst hmk
    rw [h.inum] at hlive
    rw [h.name] at hname
    rw [(h.others l (by omega) (by omega)).2]
    exact hfirst hlive hname l hl
  · have hlt : m < v.slots d := by omega
    obtain ⟨hinum, hsame⟩ := h.others m hlt hmk
    rw [hinum] at hlive
    rw [hsame] at hname
    by_cases hlk : l = k
    · subst hlk
      rw [h.name]
      exact fun he => hlast he m hl hlt hlive hname
    · rw [(h.others l (by omega) hlk).2]
      exact hf m l hlt hlive hname hl

/-- A slot that is cleared keeps its name, unless it is new. -/
theorem SlotPut.firstLive_cleared (h : SlotPut g v w X d k 0 bs) (hf : v.FirstLive d c) (hname : k < v.slots d → v.slotName d k = bs) :
    w.FirstLive d c := by
  refine h.firstLive hf (fun h0 => absurd rfl h0) fun hc m hm hlt hlive he => ?_
  exact hf m k hlt hlive he hm (by rw [hname (Nat.lt_trans hm hlt), hc])

/-! ## The slot for a name -/

theorem name_eq_component (hslash : SLASH ∉ path) (hstr : 0 ∉ path) : name_eq name path = true ↔ cname name = path.take name.length := by
  induction name generalizing path with
  | nil => simp [name_eq, cname]
  | cons b name ih =>
    cases path with
    | nil =>
      by_cases hb : b = 0
      · simp [name_eq, cname, hb]
      · simp [name_eq, cname, hb, Ne.symm hb]
    | cons a path =>
      have ha : a ≠ 0 := fun he => hstr (he ▸ List.mem_cons_self)
      have hs : a ≠ SLASH := fun he => hslash (he ▸ List.mem_cons_self)
      have hrest := ih (fun hm => hslash (List.mem_cons_of_mem a hm)) fun hm => hstr (List.mem_cons_of_mem a hm)
      by_cases hb : b = 0
      · simp [name_eq, cname, hb, ha, hs]
      · have hcname : cname (b :: name) = b :: cname name := List.takeWhile_cons_of_pos (by simpa using hb)
        by_cases hab : a = b
        · subst hab
          rw [hcname, List.length_cons, List.take_succ_cons, List.cons.injEq, ← hrest]
          simp [name_eq, ha]
        · rw [hcname, List.length_cons, List.take_succ_cons, List.cons.injEq]
          simp [name_eq, ha, hs, hab, Ne.symm hab]

theorem findSlot_component (hslash : SLASH ∉ c) (hstr : 0 ∉ c) : v.findSlot d c = v.firstNamed d (c.take DIRNAMELEN) := by
  unfold View.findSlot View.firstNamed
  refine List.find?_congr fun k _ => ?_
  rw [Bool.eq_iff_iff, name_eq_component hslash hstr, slotName_length, decide_eq_true_iff]

theorem firstNamed_none (h : v.firstNamed d c = none) (hk : k < v.slots d) : cname (v.slotName d k) ≠ c := by
  rw [View.firstNamed, List.find?_range_eq_none] at h
  simpa using h k hk

theorem firstNamed_some (h : v.firstNamed d c = some k) : cname (v.slotName d k) = c ∧ ∀ l, l < k → cname (v.slotName d l) ≠ c := by
  rw [View.firstNamed, List.find?_range_eq_some] at h
  exact ⟨by simpa using h.1, fun l hl => by simpa using h.2.2 l hl⟩

section

variable (hp : Placed σ d name k τ) (hslash : SLASH ∉ name) (hstr : 0 ∉ name)
include hp hslash hstr

theorem Placed.unnamed_before {l : Nat} (hl : l < k) : cname (σ.slotName d l) ≠ name.take DIRNAMELEN := by
  have hfind := findSlot_component (v := σ.toView) (d := d) hslash hstr
  cases hp with
  | found h => exact (firstNamed_some (hfind.symm.trans h)).2 l hl
  | free h hk =>
    have := freeSlot_lt hk
    exact firstNamed_none (hfind.symm.trans h) (by omega)
  | new h => exact firstNamed_none (hfind.symm.trans h.1) hl

theorem Placed.unnamed_after {m : Nat} (hf : σ.FirstLive d (name.take DIRNAMELEN)) (hm : k < m) (hlt : m < σ.slots d)
    (hlive : σ.slotInum d m ≠ 0) : cname (σ.slotName d m) ≠ name.take DIRNAMELEN := by
  have hfind := findSlot_component (v := σ.toView) (d := d) hslash hstr
  cases hp with
  | found h => exact fun he => hf m k hlt hlive he hm (firstNamed_some (hfind.symm.trans h)).1
  | free h => exact firstNamed_none (hfind.symm.trans h) hlt
  | new h => exact firstNamed_none (hfind.symm.trans h.1) hlt

/-- The slot that `get_dir_entry` has chosen for a name gets it. -/
theorem Placed.firstLive {τ' : FS} (hw : WellFormed g σ) (hd : g.isInode d) (hdir : σ.isDir d) (hroom : σ.RoomFor g d name)
    (hput : SlotPut g τ.toView τ'.toView X d k i (strncpy DIRNAMELEN name)) (hf : σ.FirstLive d c) : τ'.FirstLive d c := by
  have hall := (hp.put (X := X) hw hd hdir hroom).trans hput
  refine hall.firstLive hf (fun _ hc l hl => ?_) fun hc m hm hlt hlive => ?_
  · rw [cname_strncpy hstr] at hc
    exact hc ▸ hp.unnamed_before hslash hstr hl
  · rw [cname_strncpy hstr] at hc
    subst hc
    exact hp.unnamed_after hslash hstr hf hm hlt hlive

end

/-- A slot that is not new has the name that it had. -/
theorem Placed.name_old (hp : Placed σ d name k τ) (hlt : k < σ.slots d) : τ.slotName d k = σ.slotName d k := by
  cases hp with
  | found => rfl
  | free => rfl
  | new => exact absurd hlt (lt_irrefl _)

/-! ## Other directories -/

theorem Placed.same (hp : Placed σ e name k τ) (hw : WellFormed g σ) (he : g.isInode e) (hdir : σ.isDir e) (hroom : σ.RoomFor g e name)
    (hd : g.isInode d) (hne : d ≠ e) : σ.Same τ.toView d :=
  (hp.put (X := ∅) hw he hdir hroom).same d hd hne (Set.notMem_empty d)

section

variable (h : SlotAt g σ e k (σ.slotBlock e k)) (hd : g.isInode d) (hne : d ≠ e)
include h hd hne

theorem SlotAt.newFile_same (hshort : 8 * g.table ≤ 2 ^ 15) (hnew : d ≠ σ.nextInode) : σ.Same (σ.newFile e k name).toView d := by
  have hi := h.wellFormed.nextInode
  have hnamed : SlotAt g (σ.setName (σ.slotBlock e k) (slotOffset k) name) e k (σ.slotBlock e k) := h.setName
  have hpop := hnamed.popInode
  have hset := hpop.setInum hi (wrap_inode hshort hi)
  have h₁ := (h.setName_put (X := ∅) (c := name)).same d hd hne (Set.notMem_empty d)
  have h₂ := h₁.trans (popInode_same (σ := σ.setName (σ.slotBlock e k) (slotOffset k) name))
  have h₃ := h₂.trans ((hpop.setInum_put (X := ∅) (wrap_inode hshort hi)).same d hd hne (Set.notMem_empty d))
  exact h₃.trans (initFile_emptied.same hset.wellFormed hd hnew)

theorem SlotAt.newDir_same (hshort : 8 * g.table ≤ 2 ^ 15) (hlen : name.length ≤ DIRNAMELEN) (hfree : σ.b_head ≠ []) (hdata : ¬ g.isTable σ.next)
    (hnew : d ≠ σ.nextInode) : σ.Same (σ.newDir e k name).toView d := by
  have hi := h.wellFormed.nextInode
  have hw := (h.nameDir hshort hlen).wellFormed
  have hb : (σ.nameDir e k name).b_head ≠ [] := by rwa [nameDir_b_head]
  have ht : ¬ g.isTable (σ.nameDir e k name).next := by rwa [nameDir_next]
  have h₁ : σ.Same (σ.nameDir e k name).toView d :=
    popInode_same.trans ((h.popInode.put (X := ∅) (nameEntry_slotOnly σ.nextInode hlen)).same d hd hne (Set.notMem_empty d))
  have h₂ := h₁.trans (bareDir_emptied.same hw hd hnew)
  exact h₂.trans ((headBlock_appended hw hi hb ht).same (bareDir_emptied.wellFormed hw hi hw.inodes) (bareDir_canGrow hb ht) hd hnew)

omit h in
/-- The directory may be the file that goes. -/
theorem SlotAt.truncated_same {b : Int} (h : SlotAt g σ e k b) (hi : g.isInode i) (hdi : d ≠ i) :
    σ.Same (((σ.truncate i).markInode i).setInum b (slotOffset k) 0).toView d := by
  have hemp := truncate_emptied h.wellFormed hi
  have hw := (hemp.wellFormed h.wellFormed hi h.wellFormed.inodes).markInode (i := i)
  refine (hemp.same h.wellFormed hd hdi).trans ?_
  by_cases hei : e = i
  · subst hei
    have hb := View.ledger_data (h.wellFormed.mapped e hi) hi (covers_of_slot h.lt)
    rw [show σ.pointer e (k / 16) = b from h.block] at hb
    exact loose_same hw (hemp.loose h.wellFormed hi hb) hd
  · have hslot : SlotAt g ((σ.truncate i).markInode i) e k b := h.of_same hw (hemp.same h.wellFormed h.inode hei)
    have hzero : Mem.wrap 2 (0 : Int) = 0 := Mem.wrap_short 0 (by decide) (by decide)
    exact (hslot.setInum_put (X := ∅) hzero).same d hd hne (Set.notMem_empty d)

theorem SlotAt.removeEntry_same (hold : d ≠ σ.slotInum e k) : σ.Same (σ.removeEntry e k).toView d := by
  have hi := h.wellFormed.entries e k h.inode h.dir h.lt
  have h₁ := h.of_same (h.wellFormed.addLinks (i := σ.slotInum e k) (n := -1)) addLinks_same
  refine (addLinks_same (i := σ.slotInum e k) (n := -1)).trans ?_
  unfold FS.removeEntry
  dsimp only
  split
  case isTrue => exact h₁.truncated_same hd hne hi hold
  case isFalse =>
    have hmark := h₁.of_same (h₁.wellFormed.markInode (i := σ.slotInum e k)) (View.Same.refl _ _)
    have hzero : Mem.wrap 2 (0 : Int) = 0 := Mem.wrap_short 0 (by decide) (by decide)
    exact (hmark.setInum_put (X := ∅) hzero).same d hd hne (Set.notMem_empty d)

theorem SlotAt.newLink_same (hi : Mem.wrap 2 i = i) : σ.Same (σ.newLink e k name i).toView d :=
  (h.newLink_put (X := ∅) hi).same d hd hne (Set.notMem_empty d)

theorem SlotAt.clearEntry_same : σ.Same (σ.clearEntry e k).toView d :=
  (h.clearEntry_put (X := ∅)).same d hd hne (Set.notMem_empty d)

end

/-! ## Requests -/

/-- The last component of a path is a string without a slash. -/
theorem superDir_component (hstr : 0 ∉ p) (hsup : v.superDir p cur = (d, name)) (hne : d ≠ ERROR) : SLASH ∉ name ∧ 0 ∉ name := by
  have hlen : p.length < MAXPATHNAMELEN := by
    by_contra hlong
    rw [View.superDir, if_pos (Nat.le_of_not_lt hlong)] at hsup
    exact hne (Prod.mk.inj hsup).1.symm
  have hname : name = basename p := by
    rcases superDir_cut v cur hstr hlen with ⟨_, hcut⟩ | ⟨q, _, _, _, _, hcut⟩
    · exact (Prod.mk.inj (hsup.symm.trans hcut)).2
    · exact (Prod.mk.inj (hsup.symm.trans hcut)).2
  exact hname ▸ ⟨slash_not_mem_basename, basename_zero hstr⟩

theorem adj_path_i_zero (hstr : 0 ∉ p) : 0 ∉ (adj_path_i p cur).1 := by
  unfold adj_path_i
  split
  · exact fun hm => hstr (List.mem_of_mem_tail hm)
  · exact hstr

/-- The inode that `create` makes or empties. -/
def FS.object (σ : FS) (e : Int) (name : CStr) : Int := if σ.lookup e name = 0 then σ.nextInode else σ.lookup e name

/-- The condition on a request and the state before it: `d` is not what the request makes, empties, writes or removes. -/
def Request.Spares (σ : FS) (d : Int) : Request → Prop
  | .create (some path) cur => 0 ∉ path ∧ ∀ e name, σ.superDir path cur = (e, name) → σ.isDir e → σ.object e name ≠ d
  | .write i _ _ _ => i ≠ d
  | .link _ (some new_name) _ => 0 ∉ new_name
  | .unlink (some path) cur => ∀ e name k, σ.superDir path cur = (e, name) → σ.isDir e → σ.findSlot e name = some k → σ.slotInum e k ≠ d
  | .mkdir (some path) cur => 0 ∉ path ∧ ∀ e name, σ.superDir (from_root path cur).1 (from_root path cur).2 = (e, name) →
    σ.lookup e name = 0 → σ.nextInode ≠ d
  | .rmdir (some path) cur => σ.resolve (from_root path cur).1 (from_root path cur).2 ≠ d
  | _ => True

/-- `d` is still a directory, and the first slot with the name `c` is still the live one. -/
structure StillFirst (v w : View) (d : Int) (c : List UInt8) : Prop where
  dir : w.isDir d
  first : v.FirstLive d c → w.FirstLive d c

theorem View.Same.stillFirst (h : v.Same w d) (hdir : v.isDir d) : StillFirst v w d c := ⟨h.isDir.mpr hdir, h.firstLive⟩

theorem StillFirst.then_same {u : View} (h : StillFirst v w d c) (hs : w.Same u d) : StillFirst v u d c :=
  ⟨hs.isDir.mpr h.dir, fun hf => hs.firstLive (h.first hf)⟩

section

variable (hw : WellFormed g σ) (hshort : 8 * g.table ≤ 2 ^ 15) (hd : g.isInode d) (hdir : σ.isDir d)
include hw hshort hd hdir

theorem CreatedIn.stillFirst {new : Int} (h : CreatedIn σ e name new ret τ) (he : g.isInode e) (hedir : σ.isDir e)
    (hroom : σ.RoomFor g e name) (hslash : SLASH ∉ name) (hstr : 0 ∉ name) (hnew : new ≠ -1 → g.isInode new)
    (hobj : new = -1 → σ.object e name ≠ d) : StillFirst σ.toView τ.toView d c := by
  cases h with
  | taken => exact (View.Same.refl _ _).stillFirst hdir
  | @truncated k hk hlive hn =>
    have hi := hw.entries e k he hedir (findSlot_lt hk)
    have hne := hobj hn
    rw [FS.object, lookup_some hk, if_neg hlive] at hne
    exact ((truncate_emptied hw hi).same hw hd hne.symm).stillFirst hdir
  | @made k σ₁ hp h0 hn =>
    have hat := hp.slotAt hw he hedir hroom
    have hne := hobj hn
    rw [FS.object, if_pos (hp.lookup_zero h0), ← hp.nextInode] at hne
    by_cases hde : d = e
    · subst hde
      have hput := hat.newFile_put (c := name) hshort hne
      exact ⟨hput.after, hp.firstLive hslash hstr hw hd hdir hroom hput⟩
    · exact ((hp.same hw he hedir hroom hd hde).trans (hat.newFile_same hd hde hshort hne.symm)).stillFirst hdir
  | @linked k σ₁ hp h0 hn =>
    have hat := hp.slotAt hw he hedir hroom
    have hwrap := wrap_inode hshort (hnew hn)
    by_cases hde : d = e
    · subst hde
      have hput := hat.newLink_put (X := ∅) (c := name) hwrap
      exact ⟨hput.after, hp.firstLive hslash hstr hw hd hdir hroom hput⟩
    · exact ((hp.same hw he hedir hroom hd hde).trans (hat.newLink_same hd hde hwrap)).stillFirst hdir

theorem Effect.stillFirst (h : Effect σ req ret τ) (hsafe : req.Safe g σ) (hs : req.Spares σ d) : StillFirst σ.toView τ.toView d c := by
  have hroot := g.isInode_root
  cases h with
  | looked => exact (View.Same.refl _ _).stillFirst hdir
  | refused => exact (View.Same.refl _ _).stillFirst hdir
  | create h =>
    cases h with
    | error => exact (View.Same.refl _ _).stillFirst hdir
    | done _ hsup hne hedir h =>
      have he := (hw.superDir_isInode hroot hsafe.1 hsup).resolve_left hne
      obtain ⟨hslash, hstr⟩ := superDir_component hs.1 hsup hne
      exact h.stillFirst hw hshort hd hdir he hedir (hsafe.2 _ _ hsup hedir) hslash hstr (fun hn => absurd rfl hn) fun _ => hs.2 _ _ hsup hedir
  | write h => exact ((h.kept hw hsafe).same d hd hs.symm).stillFirst hdir
  | link h =>
    cases h with
    | error => exact (View.Same.refl _ _).stillFirst hdir
    | @done i e k name σ₁ _ hi h0 hfile hsup hne hedir hp hfree =>
      have hold (path : CStr) := adj_path_i_isInode path hroot hsafe.1
      have he := (hw.superDir_isInode hroot (adj_path_i_isInode _ hroot (hold _)) hsup).resolve_left hne
      have hi' : g.isInode i := hi ▸ hw.resolve_isInode (hold _)
      have hi1 : i ≠ -1 := isInode_ne_error hi'
      obtain ⟨hslash, hstr⟩ := superDir_component (adj_path_i_zero hs) hsup hne
      have hmade := (CreatedIn.linked hp hfree hi1).stillFirst (c := c) hw hshort hd hdir he hedir (hsafe.2 _ _ hsup hedir) hslash hstr
        (fun _ => hi') (fun hn => absurd hn hi1)
      exact hmade.then_same (addLinks_same (i := i) (n := 1))
  | unlink h =>
    cases h with
    | error => exact (View.Same.refl _ _).stillFirst hdir
    | @done e k name _ hsup hne hedir hk =>
      have he := (hw.superDir_isInode hroot hsafe hsup).resolve_left hne
      have hat : SlotAt g σ e k (σ.slotBlock e k) := ⟨hw, he, hedir, findSlot_lt hk, rfl⟩
      have hother := hs _ _ _ hsup hedir hk
      by_cases hde : d = e
      · subst hde
        have hput := hat.removeEntry_put hother
        exact ⟨hput.after, fun hf => hput.firstLive_cleared hf fun _ => rfl⟩
      · exact (hat.removeEntry_same hd hde hother.symm).stillFirst hdir
  | mkdir h =>
    cases h with
    | error => exact (View.Same.refl _ _).stillFirst hdir
    | @done e k name σ₁ hcur hsup hne hedir hp h0 hfits =>
      have he := (hw.superDir_isInode hroot (from_root_isInode _ hroot hsafe.1) hsup).resolve_left hne
      obtain ⟨hlen, hfree, hdata⟩ := hsafe.2.2 _ _ _ _ hsup hp h0
      obtain ⟨hslash, hstr⟩ := superDir_component (from_root_zero hs.1) hsup hne
      have hroom := (hsafe.2.1 _ _ hsup hne).2
      have hat := hp.slotAt hw he hedir hroom
      have hother := hs.2 _ _ hsup (hp.lookup_zero h0)
      rw [← hp.nextInode] at hother
      by_cases hde : d = e
      · subst hde
        have hput := hat.newDir_put hshort hother hlen hfree hdata
        exact ⟨hput.after, hp.firstLive hslash hstr hw hd hdir hroom hput⟩
      · exact ((hp.same hw he hedir hroom hd hde).trans (hat.newDir_same hd hde hshort hlen hfree hdata hother.symm)).stillFirst hdir
  | rmdir h =>
    cases h with
    | error => exact (View.Same.refl _ _).stillFirst hdir
    | @done i e k name σ₁ _ hi hsize hsup hne hedir hp =>
      have hstart (path : CStr) := from_root_isInode path hroot hsafe.1
      have hi' : g.isInode i := hi ▸ hw.resolve_isInode (hstart _)
      have hw₁ := dropDir_wellFormed hw hi'
      have he := (hw₁.superDir_isInode hroot (hstart _) hsup).resolve_left hne
      have hsame := (dropDir_emptied hw hi').same hw hd fun hdi => hs (hi.trans hdi.symm)
      subst hi
      have hroom := (hsafe.2 hsize _ _ hsup hne).2
      have hat := hp.slotAt hw₁ he hedir hroom
      by_cases hde : d = e
      · subst hde
        have hput := (hp.put (X := ∅) hw₁ he hedir hroom).trans (hat.clearEntry_put (X := ∅))
        exact ⟨hput.after, fun hf => hput.firstLive_cleared (hsame.firstLive hf) fun hlt => (hp.name_old hlt).symm⟩
      · have hsame' := (hp.same hw₁ he hedir hroom hd hde).trans (hat.clearEntry_same hd hde)
        exact (hsame.trans hsame').stillFirst hdir

end

/-- One round. -/
theorem serve_stillFirst {resp : Response} {sv' : Server} (h : Sound g sv) (hshort : 8 * g.table ≤ 2 ^ 15) (hd : g.isInode d)
    (hdir : sv.fs.isDir d) (hsafe : req.Safe g sv.fs) (hs : req.Spares sv.fs d) (hserve : serve sv req = some (resp, sv')) :
    StillFirst sv.fs.toView sv'.fs.toView d c := by
  obtain ⟨_, σ', heff, hw', hagree⟩ := h.step hshort hsafe hserve
  exact (heff.stillFirst h.wellFormed hshort hd hdir hsafe hs).then_same (hagree.same hw' hd)

/-! ## Lookups -/

theorem findSlot_first (hslash : SLASH ∉ c) (hstr : 0 ∉ c) (hk : k < v.slots d) (hname : cname (v.slotName d k) = c.take DIRNAMELEN)
    (hbefore : ∀ l, l < k → cname (v.slotName d l) ≠ c.take DIRNAMELEN) : v.findSlot d c = some k := by
  rw [findSlot_component hslash hstr, View.firstNamed, List.find?_range_eq_some]
  exact ⟨decide_eq_true hname, List.mem_range.mpr hk, fun l hl => by simpa using hbefore l hl⟩

/-- The first slot with a name is the live one, if there is a live one. -/
theorem findSlot_live (hf : v.FirstLive d (c.take DIRNAMELEN)) (hslash : SLASH ∉ c) (hstr : 0 ∉ c) (hk : k < v.slots d)
    (hlive : v.slotInum d k ≠ 0) (hname : cname (v.slotName d k) = c.take DIRNAMELEN) : v.findSlot d c = some k :=
  findSlot_first hslash hstr hk hname fun l hl => hf k l hk hlive hname hl

theorem lookup_live (hf : v.FirstLive d (c.take DIRNAMELEN)) (hslash : SLASH ∉ c) (hstr : 0 ∉ c) (hk : k < v.slots d)
    (hlive : v.slotInum d k ≠ 0) (hname : cname (v.slotName d k) = c.take DIRNAMELEN) : v.lookup d c = v.slotInum d k :=
  lookup_some (findSlot_live hf hslash hstr hk hlive hname)

theorem lookup_dead (hslash : SLASH ∉ c) (hstr : 0 ∉ c)
    (hdead : ∀ k, k < v.slots d → cname (v.slotName d k) = c.take DIRNAMELEN → v.slotInum d k = 0) : v.lookup d c = 0 := by
  cases hfind : v.findSlot d c with
  | none => exact lookup_none hfind
  | some k =>
    rw [lookup_some hfind]
    refine hdead k (findSlot_lt hfind) (firstNamed_some ?_).1
    rw [← findSlot_component hslash hstr, hfind]

/-- `get_dir_entry` finds the live entry with the name `c`, and where there is none no slot or a free one. -/
def Server.LooksUp (sv : Server) (d : Int) (c : CStr) : Prop :=
  ∃ r sv', run (get_dir_entry c d false) sv = some (r, sv') ∧
    (∀ k, k < sv.fs.slots d → sv.fs.slotInum d k ≠ 0 → cname (sv.fs.slotName d k) = c.take DIRNAMELEN →
      sv'.fs.inumAt r = sv.fs.slotInum d k) ∧
    ((∀ k, k < sv.fs.slots d → cname (sv.fs.slotName d k) = c.take DIRNAMELEN → sv.fs.slotInum d k = 0) → sv'.fs.inumAt r = 0)

theorem OnDisk.looksUp (h : OnDisk g sv) (hd : g.isInode d) (hslash : SLASH ∉ c) (hstr : 0 ∉ c)
    (hf : sv.fs.FirstLive d (c.take DIRNAMELEN)) : sv.LooksUp d c := by
  obtain ⟨r, sv', hrun, hinum⟩ := get_dir_entry_lookup h.caches.rel h.wellFormed h.inRange hd c
  exact ⟨r, sv', hrun, fun k hk hlive hname => hinum.trans (lookup_live hf hslash hstr hk hlive hname),
    fun hdead => hinum.trans (lookup_dead hslash hstr hdead)⟩

/-- **Lookups stop at the right slot.** Whatever names come and go, the live slot with a name stays the first one that has it, so a
lookup that stops there finds the live entry. -/
theorem first_match_live (h : OnDisk g sv₀) (hshort : 8 * g.table ≤ 2 ^ 15) (hd : g.isInode d) (hdir : sv₀.fs.isDir d)
    (hmeets : sv₀.meets (fun σ req => req.Safe g σ ∧ req.Spares σ d) reqs) (hrun : serves sv₀ reqs = some sv)
    (hslash : SLASH ∉ c) (hstr : 0 ∉ c) (hfirst : sv₀.fs.FirstLive d (c.take DIRNAMELEN)) :
    sv.fs.FirstLive d (c.take DIRNAMELEN) ∧ sv.LooksUp d c ∧ ∀ k l, k < sv.fs.slots d → l < sv.fs.slots d →
      sv.fs.slotInum d k ≠ 0 → sv.fs.slotInum d l ≠ 0 → cname (sv.fs.slotName d k) = c.take DIRNAMELEN →
        cname (sv.fs.slotName d l) = c.take DIRNAMELEN → k = l := by
  obtain ⟨hend, _, hf⟩ := serves_induction (I := fun sv => OnDisk g sv ∧ sv.fs.isDir d ∧ sv.fs.FirstLive d (c.take DIRNAMELEN))
    ⟨h, hdir, hfirst⟩ hmeets hrun fun sv req resp sv' ⟨h, hdir, hf⟩ hp hs => by
      have hstill : StillFirst sv.fs.toView sv'.fs.toView d (c.take DIRNAMELEN) := serve_stillFirst h.toSound hshort hd hdir hp.1 hp.2 hs
      exact ⟨h.step hshort hp.1 hs, hstill.dir, hstill.first hf⟩
  exact ⟨hf, hend.looksUp hd hslash hstr hf, fun k l hk hl hklive hllive hkname hlname => hf.unique hk hl hklive hllive hkname hlname⟩

/-- A file comes and goes in the root. -/
theorem first_match_live_unlinked : ∃ sv, serves smallStart [.create (some [SLASH, 97]) 1, .unlink (some [SLASH, 97]) 1] = some sv ∧
    sv.fs.FirstLive 1 [97] ∧ sv.LooksUp 1 [97] ∧ ∀ k l, k < sv.fs.slots 1 → l < sv.fs.slots 1 →
      sv.fs.slotInum 1 k ≠ 0 → sv.fs.slotInum 1 l ≠ 0 → cname (sv.fs.slotName 1 k) = [97] → cname (sv.fs.slotName 1 l) = [97] → k = l := by
  obtain ⟨⟨resp₁, sv₁⟩, hs₁, h⟩ := Option.bind_eq_some_iff.mp (show ((serve smallStart (.create (some [SLASH, 97]) 1)).bind fun r =>
    (serve r.2 (.unlink (some [SLASH, 97]) 1)).map fun _ => decide ((smallStart.fs.superDir [SLASH, 97] 1 = (1, [97]) ∧
      smallStart.fs.object 1 [97] = 15 ∧ smallStart.fs.isDir 1) ∧ r.2.fs.superDir [SLASH, 97] 1 = (1, [97]) ∧
      r.2.fs.findSlot 1 [97] = some 2 ∧ r.2.fs.slotInum 1 2 = 15)) = some true by decide +kernel)
  obtain ⟨⟨resp, sv⟩, hs, h⟩ := Option.map_eq_some_iff.mp h
  obtain ⟨⟨hsup, hobj, hdir⟩, hsup₁, hslot, hinum⟩ := of_decide_eq_true h
  have hrun : serves smallStart [.create (some [SLASH, 97]) 1, .unlink (some [SLASH, 97]) 1] = some sv := by simp only [serves, hs₁, hs]
  have hfirst : smallStart.fs.FirstLive 1 [97] := fun k l hk hlive hname hl he =>
    (smallStart_named.at (by decide) hdir).first k l hk hlive hl (he.trans hname.symm)
  have hmeets : smallStart.meets (fun σ req => req.Safe smallDisk.geometry σ ∧ req.Spares σ 1)
      [.create (some [SLASH, 97]) 1, .unlink (some [SLASH, 97]) 1] := by
    refine ⟨⟨smallStart_sound.2.safe_create (by decide), by decide, fun e name hsup' _ => ?_⟩, fun resp' sv' hs' =>
      ⟨⟨(by decide : smallDisk.geometry.isInode 1), fun e name k hsup' _ hk => ?_⟩, fun _ _ _ => trivial⟩⟩
    · obtain ⟨rfl, rfl⟩ := Prod.mk.inj (hsup.symm.trans hsup')
      rw [hobj]
      decide
    · obtain ⟨_, rfl⟩ := Prod.mk.inj (Option.some.inj (hs₁.symm.trans hs'))
      obtain ⟨rfl, rfl⟩ := Prod.mk.inj (hsup₁.symm.trans hsup')
      obtain rfl := Option.some.inj (hslot.symm.trans hk)
      rw [hinum]
      decide
  exact ⟨sv, hrun, first_match_live (c := [97]) smallStart_onDisk (by decide) (by decide) hdir hmeets hrun (by decide) (by decide) hfirst⟩

end Yfs
