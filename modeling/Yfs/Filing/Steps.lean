import Yfs.Filing.Bytes
import Yfs.Filing.Shows
import Yfs.Rmdir

/-! # What the handlers do to what a state shows -/

namespace Yfs

open Catalog

variable {g : Geometry} {σ τ : FS} {d e i j cur : Int} {k : Nat} {c name : CStr} {b : EntryName} {blk : Block}

/-! ## Files -/

theorem nextInode_of_cons (h : σ.i_head = i :: τ.i_head) : σ.nextInode = i := by
  rw [FS.nextInode, h]
  rfl

/-- A free inode is taken. -/
theorem taken_fresh (ht : σ.Planted g) (h : σ.i_head = i :: τ.i_head) (hi : g.isInode i) (h0 : i ≠ 0) :
    ¬ σ.Taken g i ∧ τ.Taken g i ∧ ∀ e, e ≠ i → (τ.Taken g e ↔ σ.Taken g e) := by
  have hnext := nextInode_of_cons h
  have hused : ∀ e, τ.Taken g e ↔ σ.Taken g e ∨ e = i := fun e => by
    rw [taken_tail (τ := τ) ht.nodup (hnext ▸ hi) (hnext ▸ h0) (by rw [h, List.tail_cons]), hnext]
  exact ⟨fun hn => hn.2.1 (h ▸ List.mem_cons_self), (hused i).mpr (.inr rfl), fun e hne => (hused e).trans (or_iff_left hne)⟩

/-- `create` of a new name. -/
theorem FileMade.catalog (h : FileMade g σ τ d c i) (ht : σ.Planted g) (hi : g.isInode i) (h0 : i ≠ 0) (hd : σ.Taken g d) :
    τ.catalog g = ((σ.catalog g).addFile i).point d (entryName c) (some i) := by
  obtain ⟨hfree, htaken, hkeep⟩ := taken_fresh ht h.free hi h0
  have hfile : ¬ τ.isDir i := fun hdir => absurd (h.type.symm.trans hdir) (by decide)
  have hid : i ≠ d := fun he => hfree (he ▸ hd)
  refine ext_at fun e => ?_
  by_cases hei : e = i
  · subst hei
    refine SameAt.trans (t := (σ.catalog g).addFile e) ?_ (point_elsewhere hid).symm
    refine ⟨iff_of_true htaken (.inl rfl), iff_of_false (fun hn => hfile hn.2) fun hn => hfree hn.1, fun b => ?_, ?_⟩
    · exact (edge_file hfile).trans (edge_free hfree).symm
    · show _ = Function.update (σ.catalog g).content e [] e
      rw [Function.update_self]
      exact (content_file htaken hfile).trans (content_empty h.size)
  · by_cases hed : e = d
    · subst hed
      exact (sameAt_changed hd ((hkeep e hei).mpr hd) h.slot.before h.slot.after h.entry h.names).trans (addFile_elsewhere hei).symm.point
    · exact (sameAt_shown (hkeep e hei) fun he => h.slot.same he.1 hed hei).trans ((point_elsewhere hed).trans (addFile_elsewhere hei)).symm

/-- A file that gets other bytes. -/
theorem sameAt_fill (hi : σ.Taken g i) (hi' : τ.Taken g i) (hfile : ¬ σ.isDir i) (htype : τ.type i = σ.type i) :
    (τ.catalog g).SameAt ((σ.catalog g).fill i (τ.content i)) i := by
  have hfile' : ¬ τ.isDir i := by rwa [View.isDir, htype]
  refine ⟨iff_of_true hi' hi, iff_of_false (fun hn => hfile' hn.2) fun hn => hfile hn.2, fun b => (edge_file hfile').trans (edge_file hfile).symm, ?_⟩
  show _ = Function.update (σ.catalog g).content i (τ.content i) i
  rw [Function.update_self]
  exact content_file hi' hfile'

/-- `write`. -/
theorem Kept.catalog (h : Kept g σ τ i) (hi : σ.Taken g i) (hfile : ¬ σ.isDir i) : τ.catalog g = (σ.catalog g).fill i (τ.content i) := by
  have hused : ∀ e, τ.Taken g e ↔ σ.Taken g e := fun e => taken_same h.i_head
  refine ext_at fun e => ?_
  by_cases hei : e = i
  · subst hei
    exact sameAt_fill hi ((hused e).mpr hi) hfile h.type
  · exact (sameAt_shown (hused e) fun he => h.same e he.1 hei).trans (fill_elsewhere hei).symm

/-- `create` of a name that is there. -/
theorem Emptied.catalog {freed : List Int} (h : Emptied σ τ i freed) (hw : WellFormed g σ) (hhead : τ.i_head = σ.i_head)
    (htype : τ.type i = σ.type i) (hi : σ.Taken g i) (hfile : ¬ σ.isDir i) : τ.catalog g = (σ.catalog g).fill i [] := by
  have hused : ∀ e, τ.Taken g e ↔ σ.Taken g e := fun e => taken_same hhead
  rw [← content_empty h.size]
  refine ext_at fun e => ?_
  by_cases hei : e = i
  · subst hei
    exact sameAt_fill hi ((hused e).mpr hi) hfile htype
  · exact (sameAt_shown (hused e) fun he => h.same hw he.1 hei).trans (fill_elsewhere hei).symm

/-! ## Names -/

/-- `link`. -/
theorem NameAdded.catalog (h : NameAdded g σ τ d c i) (hhead : τ.i_head = σ.i_head) (hd : σ.Taken g d) :
    τ.catalog g = (σ.catalog g).point d (entryName c) (some i) := by
  have hused : ∀ e, τ.Taken g e ↔ σ.Taken g e := fun e => taken_same hhead
  refine ext_at fun e => ?_
  by_cases hed : e = d
  · subst hed
    exact sameAt_changed hd ((hused e).mpr hd) h.slot.before h.slot.after h.entry h.names
  · exact (sameAt_shown (hused e) fun he => h.slot.same he.1 hed (Set.notMem_empty e)).trans (point_elsewhere hed).symm

/-- `unlink` of one name of several. -/
theorem EntryRemoved.catalog (h : EntryRemoved g σ τ d c i) (hd : σ.Taken g d) (hlinks : τ.nlink i ≠ 0) :
    τ.catalog g = (σ.catalog g).point d (entryName c) none := by
  have hused : ∀ e, τ.Taken g e ↔ σ.Taken g e := fun e => taken_same h.i_head
  obtain ⟨k, _, _, _, hput⟩ := h.slot
  refine ext_at fun e => ?_
  by_cases hed : e = d
  · subst hed
    exact sameAt_changed hd ((hused e).mpr hd) hput.before hput.after h.gone fun a ha => (h.names e a hd.1 hput.before (.inr ha)).2
  · exact (sameAt_shown (hused e) fun he => hput.same e he.1 hed fun hn => hlinks (hn.1 ▸ hn.2)).trans (point_elsewhere hed).symm

/-- `unlink` of the last name. -/
theorem EntryRemoved.catalog_last (h : EntryRemoved g σ τ d c i) (hd : σ.Taken g d) (hi : σ.Taken g i) (hfile : ¬ σ.isDir i)
    (htype : τ.type i = σ.type i) (hsize : τ.size i = 0) : τ.catalog g = ((σ.catalog g).point d (entryName c) none).fill i [] := by
  have hused : ∀ e, τ.Taken g e ↔ σ.Taken g e := fun e => taken_same h.i_head
  obtain ⟨k, _, _, _, hput⟩ := h.slot
  have hid : i ≠ d := fun he => hfile (he ▸ hput.before)
  rw [← content_empty hsize]
  refine ext_at fun e => ?_
  by_cases hei : e = i
  · subst hei
    have hfill := sameAt_fill hi ((hused e).mpr hi) hfile htype
    exact hfill.trans ⟨Iff.rfl, Iff.rfl, (point_elsewhere hid).symm.edge, rfl⟩
  · refine .trans ?_ (fill_elsewhere hei).symm
    by_cases hed : e = d
    · subst hed
      exact sameAt_changed hd ((hused e).mpr hd) hput.before hput.after h.gone fun a ha => (h.names e a hd.1 hput.before (.inr ha)).2
    · exact (sameAt_shown (hused e) fun he => hput.same e he.1 hed fun hn => hei hn.1).trans (point_elsewhere hed).symm

/-! ## Directories -/

/-- The names of a new directory. -/
theorem NewDir.graph (h : NewDir g σ.toView τ.toView d c i blk) (hends : blk.NamesEnd) (hi : i ≠ 0) (hd : d ≠ 0) (hne : i ≠ d) :
    τ.graph i b.1 = links selfName parentName d i b := by
  have hnamed := h.namedAt hends
  have hlive := (h.live_iff hi hd hne).mpr hends
  have hself := h.graph_self hends hi
  have hparent := h.graph_parent hends hd
  rw [links]
  split
  case isTrue hb => rw [hb, selfName, graph_entryName, hself]
  case isFalse hb =>
    split
    case isTrue hb' => rw [hb', parentName, graph_entryName, hparent]
    case isFalse hb' =>
      rw [View.graph, if_pos h.dir]
      cases hj : τ.entry i b.1 with
      | none => rfl
      | some j =>
        obtain ⟨k, hk, hinum, h0, hname⟩ := hnamed.entry_iff.mp hj
        have hmem : (cname (τ.slotName i k), τ.slotInum i k) ∈ τ.live i := ⟨k, hk, by rwa [hinum], rfl⟩
        rw [hlive, hname, List.take_of_length_le b.2] at hmem
        rcases hmem with he | he
        · exact absurd (Subtype.ext (Prod.mk.inj he).1) hb
        · exact absurd (Subtype.ext (Prod.mk.inj he).1) hb'

/-- `mkdir`. -/
theorem NewDir.catalog (h : NewDir g σ.toView τ.toView d c i blk) (ht : σ.Planted g) (hn : σ.Named g) (hname : IsName c) (hends : blk.NamesEnd)
    (hhead : σ.i_head = i :: τ.i_head) (hi : g.isInode i) (h0 : i ≠ 0) (hd : σ.Taken g d) :
    τ.catalog g = ((σ.catalog g).addDir i (links selfName parentName d i)).point d (entryName c) (some i) := by
  obtain ⟨hfree, htaken, hkeep⟩ := taken_fresh ht hhead hi h0
  have hid : i ≠ d := fun he => hfree (he ▸ hd)
  have hnamed := hn.at hd.1 h.slot.before
  refine ext_at fun e => ?_
  by_cases hei : e = i
  · subst hei
    refine SameAt.trans (t := (σ.catalog g).addDir e (links selfName parentName d e)) ?_ (point_elsewhere hid).symm
    refine ⟨iff_of_true htaken (.inl rfl), iff_of_true ⟨htaken, h.dir⟩ (.inl rfl), fun b => ?_, ?_⟩
    · show _ = Function.update (σ.catalog g).edge e (links selfName parentName d e) e b
      rw [Function.update_self, edge_taken htaken]
      exact h.graph hends h0 hd.2.2 hid
    · exact (content_dir h.dir).trans (content_free hfree).symm
  · by_cases hed : e = d
    · subst hed
      refine (sameAt_changed hd ((hkeep e hei).mpr hd) h.slot.before h.slot.after ?_ fun a ha => ?_).trans (addDir_elsewhere hei).symm.point
      · exact h.slot.entry hnamed hname.string hname.plain hname.nonempty h0
      · exact h.slot.entry_other hnamed hname.string hname.plain hname.nonempty ha
    · exact (sameAt_shown (hkeep e hei) fun he => h.slot.same he.1 hed hei).trans ((point_elsewhere hed).trans (addDir_elsewhere hei)).symm

/-- `unlink` of a slot that names nothing. -/
theorem removeEntry_idle (hw : WellFormed g σ) (hn : σ.Named g) (hd : σ.Taken g d) (hdir : σ.isDir d) (hk : k < σ.slots d)
    (hidle : σ.slotInum d k = 0) : (σ.removeEntry d k).catalog g = σ.catalog g := by
  have hused : ∀ e, (σ.removeEntry d k).Taken g e ↔ σ.Taken g e := fun e => taken_same removeEntry_i_head
  have hat : SlotAt g σ d k (σ.slotBlock d k) := ⟨hw, hd.1, hdir, hk, rfl⟩
  have hput := hat.removeEntry_put (hidle ▸ hd.2.2.symm)
  have hnamed := hn.at hd.1 hdir
  have hself := hput.namedAt_cleared hnamed hk
  refine ext_at fun e => sameAt_names (hused e) (fun he hed => hput.same e he.1 hed fun hn => he.2.2 (hn.1.trans hidle)) fun hed => ?_
  subst hed
  exact ⟨hdir, hput.after, fun a => hput.entry_other hnamed hself (fun _ h0 => absurd hidle h0) fun h => absurd rfl h⟩

/-- `rmdir`. -/
theorem clearEntry_catalog (hw : WellFormed g σ) (hn : σ.Named g) (hi : σ.Taken g i) (hidir : σ.isDir i) (hd : σ.Taken g d) (hdir : σ.isDir d)
    (hne : d ≠ i) (hk : k < σ.slots d) (hinum : σ.slotInum d k = i) (hname : cname (σ.slotName d k) = c.take DIRNAMELEN) :
    ((σ.dropDir i).clearEntry d k).catalog g = ((σ.catalog g).point d (entryName c) none).remove i := by
  have hsame := dropDir_same hw hi.1 hd.1 hne
  have hused : ∀ e, ((σ.dropDir i).clearEntry d k).Taken g e ↔ σ.Taken g e ∧ e ≠ i := fun _ => taken_cons rfl
  have hat : SlotAt g (σ.dropDir i) d k ((σ.dropDir i).slotBlock d k) :=
    ⟨dropDir_wellFormed hw hi.1, hd.1, hsame.isDir.mpr hdir, hsame.slots.symm ▸ hk, rfl⟩
  have hput := hat.clearEntry_put (X := ∅)
  have hnamed := hsame.namedAt (hn.at hd.1 hdir)
  have hself := hput.namedAt_cleared hnamed hat.lt
  have hlive : (σ.dropDir i).slotInum d k ≠ 0 := fun h0 => hi.2.2 (hinum.symm.trans ((hsame.slotInum hk).symm.trans h0))
  have hname' : cname ((σ.dropDir i).slotName d k) = c.take DIRNAMELEN := (congrArg cname (hsame.slotName hk)).trans hname
  refine ext_at fun e => ?_
  by_cases hei : e = i
  · subst hei
    have hfree : ¬ ((σ.dropDir e).clearEntry d k).Taken g e := fun h => ((hused e).mp h).2 rfl
    refine ⟨iff_of_false hfree fun h => h.1 rfl, iff_of_false (fun h => hfree h.1) fun h => h.1 rfl, fun b => ?_, ?_⟩
    · show _ = Function.update ((σ.catalog g).point d (entryName c) none).edge e (fun _ => none) e b
      rw [Function.update_self]
      exact edge_free hfree
    · exact (content_free hfree).trans (content_dir hidir).symm
  · refine .trans ?_ (remove_elsewhere hei).symm
    have hused' := (hused e).trans (and_iff_left hei)
    by_cases hed : e = d
    · subst hed
      refine sameAt_changed hd (hused'.mpr hd) hdir hput.after (hput.entry_gone hnamed hat.lt hlive hname' rfl) fun a ha => ?_
      exact (hput.entry_other hnamed hself (fun _ _ h => ha (h.symm.trans hname')) fun h => absurd rfl h).trans hsame.entry
    · refine (sameAt_shown hused' fun he => ?_).trans (point_elsewhere hed).symm
      exact (dropDir_same hw hi.1 he.1 hei).trans (hput.same e he.1 hed (Set.notMem_empty e))

end Yfs
