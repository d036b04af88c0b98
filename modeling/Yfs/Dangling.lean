import Yfs.Looking
import Yfs.Requests.InUse
import Yfs.Rmdir
import Yfs.Walks

/-! # No entry dangles

Entries in use name inodes in use, as long as `rmdir` takes an inode whose only name it clears.
-/

namespace Yfs

variable {g : Geometry} {num : Int} {σ τ : FS} {sv sv₀ sv' : Server} {v w : View} {X : Set Int} {d e i j cur ret : Int} {fuel k l : Nat}
  {bs : List UInt8} {path name : CStr} {req : Request} {reqs : List Request}

/-! ## Live entries -/

/-- Slot `l` of the directory `e` names `j`. -/
structure View.Live (v : View) (e : Int) (l : Nat) (j : Int) : Prop where
  dir : v.isDir e
  lt : l < v.slots e
  inum : v.slotInum e l = j
  ne_zero : j ≠ 0

theorem View.Same.live (h : v.Same w e) (hl : w.Live e l j) : v.Live e l j := by
  have hlt := hl.lt
  rw [h.slots] at hlt
  exact ⟨h.isDir.mp hl.dir, hlt, (h.slotInum hlt).symm.trans hl.inum, hl.ne_zero⟩

theorem View.Same.findSlot (h : v.Same w d) : w.findSlot d name = v.findSlot d name := by
  unfold View.findSlot
  rw [h.slots]
  exact List.find?_congr fun k hk => by rw [h.slotName (List.mem_range.mp hk)]

theorem View.Same.lookup (h : v.Same w d) : w.lookup d name = v.lookup d name := by
  cases hk : v.findSlot d name with
  | none => rw [lookup_none hk, lookup_none (h.findSlot.trans hk)]
  | some k => rw [lookup_some hk, lookup_some (h.findSlot.trans hk), h.slotInum (findSlot_lt hk)]

/-- The slot that `get_dir_entry` takes is the one with the name. -/
theorem Placed.eq_of_find (hp : Placed σ d name k τ) (h : σ.findSlot d name = some l) : k = l := by
  cases hp with
  | found hk => exact Option.some.inj (hk.symm.trans h)
  | free hnone => exact absurd (hnone.symm.trans h) (by simp)
  | new hnone => exact absurd (hnone.1.symm.trans h) (by simp)

/-- A change of one slot brings one entry at most. -/
theorem SlotPut.live (h : SlotPut g v w X d k i bs) (he : g.isInode e) (hX : e ∉ X) (hl : w.Live e l j) :
    v.Live e l j ∧ ¬ (e = d ∧ l = k) ∨ e = d ∧ l = k ∧ j = i := by
  by_cases hed : e = d
  · subst hed
    by_cases hlk : l = k
    · subst hlk
      exact .inr ⟨rfl, rfl, hl.inum.symm.trans h.inum⟩
    · have hs := h.slots
      have hle := h.le
      have hlt := hl.lt
      have hold : l < v.slots e := by omega
      exact .inl ⟨⟨h.before, hold, (h.others l hold hlk).1.symm.trans hl.inum, hl.ne_zero⟩, fun he => hlk he.2⟩
  · exact .inl ⟨(h.same e he hed hX).live hl, fun he => hed he.1⟩

/-- A cleared slot brings none. -/
theorem SlotPut.live_cleared (h : SlotPut g v w X d k 0 bs) (he : g.isInode e) (hX : e ∉ X) (hl : w.Live e l j) :
    v.Live e l j ∧ ¬ (e = d ∧ l = k) := by
  rcases h.live he hX hl with hold | ⟨_, _, h0⟩
  · exact hold
  · exact absurd h0 hl.ne_zero

theorem not_live_of_size (h : w.size e = 0) : ¬ w.Live e l j := by
  intro hl
  have hlt := hl.lt
  rw [View.slots, h] at hlt
  exact absurd hlt (Nat.not_lt_zero l)

/-! ## Inodes in use -/

/-- An inode of the disk that has a type and is not free. -/
structure FS.Allocated (num : Int) (σ : FS) (i : Int) : Prop where
  range : 1 ≤ i ∧ i ≤ num
  type : σ.type i ≠ INODE_FREE
  used : i ∉ σ.i_head

/-- The free list is in order, and entries of inodes in use name inodes in use. -/
structure FS.NoDangling (g : Geometry) (num : Int) (σ : FS) : Prop where
  nodup : σ.i_head.Nodup
  range : ∀ i ∈ σ.i_head, 1 ≤ i ∧ i ≤ num
  root : σ.Allocated num ROOTINODE
  live : ∀ e l j, g.isInode e → e ∉ σ.i_head → σ.Live e l j → σ.Allocated num j

/-- `i` is in use and not the root, and no entry of another inode in use names it but the one that the path leads to without it. -/
structure FS.LastName (g : Geometry) (num : Int) (σ : FS) (path : CStr) (cur i : Int) : Prop where
  allocated : σ.Allocated num i
  notRoot : i ≠ ROOTINODE
  only : ∀ d name e l, (σ.dropDir i).superDir path cur = (d, name) → g.isInode e → e ∉ σ.i_head → e ≠ i → σ.Live e l i →
    e = d ∧ σ.findSlot d name = some l

namespace FS

theorem Allocated.ne_zero (h : σ.Allocated num i) : i ≠ 0 := by
  have := h.range
  omega

theorem Allocated.keep (h : σ.Allocated num i) (htype : τ.type i = σ.type i) (hhead : i ∉ τ.i_head) : τ.Allocated num i :=
  ⟨h.range, by rw [htype]; exact h.type, hhead⟩

namespace NoDangling

theorem zero_used (h : σ.NoDangling g num) : (0 : Int) ∉ σ.i_head := fun h0 => absurd (h.range 0 h0).1 (by decide)

/-- A step that takes inodes off the list at most, and brings no entry but for inodes in use. -/
theorem keep (h : σ.NoDangling g num) (htype : ∀ j, j ∉ σ.i_head → j ≠ 0 → τ.type j = σ.type j) (hhead : τ.i_head.Sublist σ.i_head)
    (hlive : ∀ e l j, g.isInode e → e ∉ τ.i_head → τ.Live e l j → e ∉ σ.i_head ∧ σ.Live e l j ∨ τ.Allocated num j) :
    τ.NoDangling g num := by
  have hkeep : ∀ {j}, σ.Allocated num j → τ.Allocated num j :=
    fun hj => hj.keep (htype _ hj.used hj.ne_zero) fun hm => hj.used (hhead.subset hm)
  refine ⟨h.nodup.sublist hhead, fun i hi => h.range i (hhead.subset hi), hkeep h.root, fun e l j he hused hl => ?_⟩
  rcases hlive e l j he hused hl with ⟨hold, hl'⟩ | hnew
  · exact hkeep (h.live e l j he hold hl')
  · exact hnew

/-- A step that frees an inode with the entry that names it. -/
theorem removed (h : σ.NoDangling g num) (hi : σ.LastName g num path cur i) (htype : ∀ j, j ∉ σ.i_head → j ≠ 0 → τ.type j = σ.type j)
    (hhead : τ.i_head = i :: σ.i_head) (hlive : ∀ e l j, g.isInode e → e ∉ σ.i_head → e ≠ i → τ.Live e l j → σ.Live e l j ∧ j ≠ i) :
    τ.NoDangling g num := by
  have hkeep : ∀ {j}, σ.Allocated num j → j ≠ i → τ.Allocated num j := fun hj hne =>
    hj.keep (htype _ hj.used hj.ne_zero) (hhead ▸ List.not_mem_cons_of_ne_of_not_mem hne hj.used)
  refine ⟨?_, fun j hj => ?_, hkeep h.root hi.notRoot.symm, fun e l j he hused hl => ?_⟩
  · rw [hhead]
    exact List.nodup_cons.mpr ⟨hi.allocated.used, h.nodup⟩
  · rw [hhead] at hj
    rcases List.mem_cons.mp hj with rfl | hj
    · exact hi.allocated.range
    · exact h.range j hj
  · rw [hhead, List.mem_cons, not_or] at hused
    obtain ⟨hl', hne⟩ := hlive e l j he hused.2 hused.1 hl
    exact hkeep (h.live e l j he hused.2 hl') hne

section

variable (h : σ.NoDangling g num) (hw : WellFormed g σ)
include h hw

theorem next (he : g.isInode e ∧ e ∉ σ.i_head) (hdir : σ.isDir e) (hne : σ.lookup e path ≠ 0) :
    g.isInode (σ.lookup e path) ∧ σ.Allocated num (σ.lookup e path) := by
  refine ⟨hw.lookup_isInode he.1 hdir, ?_⟩
  cases hk : σ.findSlot e path with
  | none => exact absurd (lookup_none hk) hne
  | some k => exact h.live e k _ he.1 he.2 ⟨hdir, findSlot_lt hk, (lookup_some hk).symm, hne⟩

/-- From an inode in use every walk ends at one, or nowhere. -/
theorem walk (he : g.isInode e) (hused : e ∉ σ.i_head) (h0 : σ.walk fuel path e ≠ 0) : σ.Allocated num (σ.walk fuel path e) :=
  (walk_mem (Q := fun e => g.isInode e ∧ e ∉ σ.i_head) (R := fun e => g.isInode e ∧ σ.Allocated num e) (fun _ _ => h.next hw)
    (fun _ he => ⟨he.1, he.2.used⟩) ⟨g.isInode_zero, h.zero_used⟩ ⟨he, hused⟩ h0).2

theorem superDir (hcur : g.isInode cur) (hstart : σ.Allocated num (from_root path cur).2) (hsup : σ.superDir path cur = (d, name))
    (hne : d ≠ ERROR) : σ.Allocated num d :=
  (superDir_mem (Q := fun e => g.isInode e ∧ e ∉ σ.i_head) (R := fun e => g.isInode e ∧ σ.Allocated num e) (fun _ _ => h.next hw)
    (fun _ he => ⟨he.1, he.2.used⟩) ⟨g.isInode_zero, h.zero_used⟩ ⟨from_root_isInode path g.isInode_root hcur, hstart⟩ hsup hne).2

end

end NoDangling

end FS

/-! ## The handlers -/

/-- `handle_unlink` brings no entry. -/
theorem SlotAt.removeEntry_live (h : SlotAt g σ d k (σ.slotBlock d k)) (he : g.isInode e) (hl : (σ.removeEntry d k).Live e l j) :
    σ.Live e l j := by
  have hi := h.wellFormed.entries d k h.inode h.dir h.lt
  have h₁ := h.of_same (h.wellFormed.addLinks (i := σ.slotInum d k) (n := -1)) addLinks_same
  have hzero : Mem.wrap 2 (0 : Int) = 0 := Mem.wrap_short 0 (by decide) (by decide)
  refine (addLinks_same (i := σ.slotInum d k) (n := -1)).live ?_
  unfold FS.removeEntry at hl
  dsimp only at hl
  split at hl
  case isTrue =>
    by_cases hei : e = σ.slotInum d k
    · have hsize : ((σ.addLinks (σ.slotInum d k) (-1)).truncate (σ.slotInum d k)).size e = 0 :=
        hei ▸ (truncate_emptied h₁.wellFormed hi).size
      exact absurd hl (not_live_of_size hsize)
    · by_cases hed : e = d
      · have hemp := truncate_emptied h₁.wellFormed hi
        have hw₂ := (hemp.wellFormed h₁.wellFormed hi h₁.wellFormed.inodes).markInode (i := σ.slotInum d k)
        have hsame := hemp.same h₁.wellFormed he hei
        have h₂ := h₁.of_same hw₂ (hed ▸ hsame)
        exact hsame.live ((h₂.setInum_put (X := ∅) hzero).live_cleared he (Set.notMem_empty e) hl).1
      · exact (h₁.truncated_same he hed hi hei).live hl
  case isFalse =>
    have hmark := h₁.of_same (h₁.wellFormed.markInode (i := σ.slotInum d k)) (View.Same.refl _ _)
    exact ((hmark.setInum_put (X := ∅) hzero).live_cleared he (Set.notMem_empty e) hl).1

/-- What is free is the next one to be taken, or stays free. -/
theorem mem_i_head (h : i ∈ σ.i_head) : i = σ.nextInode ∨ i ∈ σ.i_head.tail := by
  unfold FS.nextInode
  cases hl : σ.i_head with
  | nil =>
    rw [hl] at h
    cases h
  | cons a rest =>
    rw [hl] at h
    exact List.mem_cons.mp h

section

variable (hn : σ.NoDangling g num) (hw : WellFormed g σ) (hshort : 8 * g.table ≤ 2 ^ 15)
include hn

/-- An inode that is taken off the list and given a type. -/
theorem FS.NoDangling.taken (h0 : σ.nextInode ≠ 0) (htype : τ.type σ.nextInode ≠ INODE_FREE) (hhead : τ.i_head = σ.i_head.tail) :
    τ.Allocated num σ.nextInode := by
  have hmem : σ.nextInode ∈ σ.i_head := by
    refine nextInode_mem fun hnone => h0 ?_
    rw [FS.nextInode, hnone]
    rfl
  refine ⟨hn.range _ hmem, htype, ?_⟩
  rw [hhead]
  have hnodup := hn.nodup
  unfold FS.nextInode
  cases hl : σ.i_head with
  | nil => exact List.not_mem_nil
  | cons a rest =>
    rw [hl] at hnodup
    exact (List.nodup_cons.mp hnodup).1

include hw hshort

theorem CreatedIn.noDangling {new : Int} (h : CreatedIn σ d name new ret τ) (hd : g.isInode d) (hdir : σ.isDir d)
    (hroom : σ.RoomFor g d name) (hnew : new ≠ -1 → g.isInode new ∧ σ.Allocated num new)
    (htype : ∀ j, j ∉ σ.i_head → j ≠ 0 → τ.type j = σ.type j) : τ.NoDangling g num := by
  cases h with
  | taken => exact hn
  | @truncated k hk hlive _ =>
    have hi := hw.entries d k hd hdir (findSlot_lt hk)
    have hemp := truncate_emptied hw hi
    refine hn.keep htype (List.Sublist.refl _) fun e l j he hused hl => .inl ⟨hused, ?_⟩
    by_cases hei : e = σ.slotInum d k
    · exact absurd hl (not_live_of_size (hei ▸ hemp.size))
    · exact (hemp.same hw he hei).live hl
  | @made k σ₁ hp h0 _ =>
    have hat := hp.slotAt hw hd hdir hroom
    have hnext := hp.nextInode
    have hhead : (σ₁.newFile d k name).i_head = σ.i_head.tail := by rw [newFile_i_head, hp.i_head]
    obtain ⟨hregular, _⟩ := newFile_fields (σ := σ₁) (d := d) (k := k) (c := name)
    rw [hnext] at hregular
    refine hn.keep htype (hhead ▸ List.tail_sublist _) fun e l j he hused hl => ?_
    have hei : e ≠ σ.nextInode := by
      rintro rfl
      exact absurd (hregular.symm.trans hl.dir) (by decide)
    have hold : e ∉ σ.i_head := fun hm => hused (hhead ▸ (mem_i_head hm).resolve_left hei)
    by_cases hed : e = d
    · subst hed
      have hput := (hp.put (X := {σ.nextInode}) hw hd hdir hroom).trans (hnext ▸ hat.newFile_put (c := name) hshort (hnext ▸ hei.symm))
      rcases hput.live he (by simpa using hei) hl with ⟨hlive, _⟩ | ⟨_, _, rfl⟩
      · exact .inl ⟨hold, hlive⟩
      · refine .inr (hn.taken hl.ne_zero ?_ hhead)
        rw [hregular]
        decide
    · exact .inl ⟨hold, ((hp.same hw hd hdir hroom he hed).trans (hat.newFile_same he hed hshort (hnext ▸ hei))).live hl⟩
  | @linked k σ₁ hp h0 hne =>
    obtain ⟨hi, hallocated⟩ := hnew hne
    have hat := hp.slotAt hw hd hdir hroom
    have hput := (hp.put (X := ∅) hw hd hdir hroom).trans (hat.newLink_put (c := name) (wrap_inode hshort hi))
    have hhead : (σ₁.newLink d k name ret).i_head = σ.i_head := hp.i_head
    refine hn.keep htype (hhead ▸ List.Sublist.refl _) fun e l j he hused hl => ?_
    rcases hput.live he (Set.notMem_empty e) hl with ⟨hlive, _⟩ | ⟨_, _, rfl⟩
    · exact .inl ⟨hhead ▸ hused, hlive⟩
    · exact .inr (hallocated.keep (htype _ hallocated.used hallocated.ne_zero) (hhead ▸ hallocated.used))

end

/-! ## Requests -/

/-- The condition on a request and the state before it: paths start at inodes in use, and `rmdir` takes the last name of an inode. -/
def Request.KeepsNames (g : Geometry) (num : Int) (σ : FS) : Request → Prop
  | .link (some old_name) (some _) cur => σ.Allocated num (View.start old_name cur)
  | .mkdir (some path) cur => σ.Allocated num (View.start path cur)
  | .rmdir (some path) cur => σ.size (σ.resolve (from_root path cur).1 (from_root path cur).2) ≤ 64 →
    σ.LastName g num (from_root path cur).1 (from_root path cur).2 (σ.resolve (from_root path cur).1 (from_root path cur).2)
  | _ => True

theorem Effect.noDangling (h : Effect σ req ret τ) (hn : σ.NoDangling g num) (hw : WellFormed g σ) (hshort : 8 * g.table ≤ 2 ^ 15)
    (hsafe : req.Safe g σ) (hkeeps : req.KeepsNames g num σ) : τ.NoDangling g num := by
  have hroot := g.isInode_root
  have htype : ∀ j, j ∉ σ.i_head → j ≠ 0 → τ.type j = σ.type j := fun j hj h0 => h.type hj h0
  cases h with
  | looked => exact hn
  | refused => exact hn
  | create h =>
    cases h with
    | error => exact hn
    | done _ hsup hne hdir h =>
      have hd := (hw.superDir_isInode hroot hsafe.1 hsup).resolve_left hne
      exact h.noDangling hn hw hshort hd hdir (hsafe.2 _ _ hsup hdir) (fun ha => absurd rfl ha) htype
  | @write i size offset ret buf _ h =>
    have hkept := h.kept hw hsafe
    refine hn.keep htype (hkept.i_head ▸ List.Sublist.refl _) fun e l j he hused hl => .inl ⟨hkept.i_head ▸ hused, ?_⟩
    by_cases hei : e = i
    · subst hei
      exact absurd (hkept.type.symm.trans hl.dir) hsafe.file
    · exact (hkept.same e he hei).live hl
  | link h =>
    cases h with
    | error => exact hn
    | @done i d k name σ₁ hcur hi h0 hfile hsup hne hdir hp hfree =>
      have hold (path : CStr) := adj_path_i_isInode path hroot hsafe.1
      have hd := (hw.superDir_isInode hroot (adj_path_i_isInode _ hroot (hold _)) hsup).resolve_left hne
      have hi' : g.isInode i := hi ▸ hw.resolve_isInode (hold _)
      have hstart := hkeeps.used
      rw [← adj_path_i_start] at hstart
      have hallocated : σ.Allocated num i := by
        subst hi
        exact hn.walk hw (hold _) hstart h0
      have hlinks : ∀ j, j ∉ σ.i_head → j ≠ 0 → (σ₁.newLink d k name i).type j = σ.type j := fun j hj h0 =>
        (congrArg Inode.type rfl).trans (hp.edits j .type (by simp [Field.grows]))
      have hlinked := CreatedIn.linked hp hfree (isInode_ne_error hi')
      have hdone := hlinked.noDangling hn hw hshort hd hdir (hsafe.2 _ _ hsup hdir) (fun _ => ⟨hi', hallocated⟩) hlinks
      refine hdone.keep (fun j _ _ => ?_) (List.Sublist.refl _) fun e l j he hused hl => .inl ⟨hused, (addLinks_same (i := i) (n := 1)).live hl⟩
      exact addLinks_same.type
  | unlink h =>
    cases h with
    | error => exact hn
    | @done d k name _ hsup hne hdir hk =>
      have hd := (hw.superDir_isInode hroot hsafe hsup).resolve_left hne
      have hat : SlotAt g σ d k (σ.slotBlock d k) := ⟨hw, hd, hdir, findSlot_lt hk, rfl⟩
      have hhead : (σ.removeEntry d k).i_head = σ.i_head := removeEntry_i_head
      exact hn.keep htype (hhead ▸ List.Sublist.refl _) fun e l j he hused hl => .inl ⟨hhead ▸ hused, hat.removeEntry_live he hl⟩
  | @mkdir path cur _ _ h =>
    cases h with
    | error => exact hn
    | @done d k name σ₁ hcur hsup hne hdir hp h0 hfits =>
      have hcur' := from_root_isInode path hroot hsafe.1
      have hd := (hw.superDir_isInode hroot hcur' hsup).resolve_left hne
      obtain ⟨hlen, hfree, hdata⟩ := hsafe.2.2 _ _ _ _ hsup hp h0
      have hroom := (hsafe.2.1 _ _ hsup hne).2
      have hat := hp.slotAt hw hd hdir hroom
      have hnext := hp.nextInode
      have hstart : σ.Allocated num (from_root (from_root path cur).1 (from_root path cur).2).2 := by
        rw [from_root_start, start_from_root]
        exact hkeeps
      have hallocated := hn.superDir hw hcur' hstart hsup hne
      have hdi : d ≠ σ.nextInode := FS.Taken.ne_next ⟨hd, hallocated.used, hallocated.ne_zero⟩
      have hhead : (σ₁.newDir d k name).i_head = σ.i_head.tail := by rw [newDir_i_head, hp.i_head]
      have hput := (hp.put (X := {σ.nextInode}) hw hd hdir hroom).trans
        (hnext ▸ hat.newDir_put hshort (hnext ▸ hdi.symm) hlen hfree hdata)
      obtain ⟨hisdir, hslots, ⟨hself, _⟩, hup, _⟩ := newDir_head hp hw hd hdir hroom hlen hshort hfree hdata
      have hnew : σ.nextInode ≠ 0 → (σ₁.newDir d k name).Allocated num σ.nextInode := fun h0 => by
        refine hn.taken h0 ?_ hhead
        rw [show (σ₁.newDir d k name).type σ.nextInode = INODE_DIRECTORY from hisdir]
        decide
      have hparent : (σ₁.newDir d k name).Allocated num d :=
        hallocated.keep (htype d hallocated.used hallocated.ne_zero) fun hm => hallocated.used (List.mem_of_mem_tail (hhead ▸ hm))
      refine hn.keep htype (hhead ▸ List.tail_sublist _) fun e l j he hused hl => ?_
      by_cases hei : e = σ.nextInode
      · subst hei
        have hlt : l < 2 := hslots ▸ hl.lt
        obtain rfl | rfl : l = 0 ∨ l = 1 := by omega
        · obtain rfl := hself.symm.trans hl.inum
          exact .inr (hnew hl.ne_zero)
        · obtain rfl := hup.symm.trans hl.inum
          exact .inr hparent
      · have hold : e ∉ σ.i_head := fun hm => hused (hhead ▸ (mem_i_head hm).resolve_left hei)
        rcases hput.live he (by simpa using hei) hl with ⟨hlive, _⟩ | ⟨_, _, rfl⟩
        · exact .inl ⟨hold, hlive⟩
        · exact .inr (hnew hl.ne_zero)
  | @rmdir path cur _ _ h =>
    cases h with
    | error => exact hn
    | @done i d k name σ₁ hcur hi hsize hsup hne hdir hp =>
      subst hi
      have hcur' := from_root_isInode path hroot hsafe.1
      have hi' : g.isInode (σ.resolve (from_root path cur).1 (from_root path cur).2) := hw.resolve_isInode hcur'
      have hw₁ := dropDir_wellFormed hw hi'
      have hd := (hw₁.superDir_isInode hroot hcur' hsup).resolve_left hne
      have hroom := (hsafe.2 hsize _ _ hsup hne).2
      have hlast := hkeeps hsize
      have hat := hp.slotAt hw₁ hd hdir hroom
      have hput := (hp.put (X := ∅) hw₁ hd hdir hroom).trans (hat.clearEntry_put (X := ∅))
      set i := σ.resolve (from_root path cur).1 (from_root path cur).2
      have hhead : (σ₁.clearEntry d k).i_head = i :: σ.i_head := by
        show σ₁.i_head = _
        rw [hp.i_head]
        rfl
      refine hn.removed hlast htype hhead fun e l j he hused hei hl => ?_
      obtain ⟨hold, hother⟩ := hput.live_cleared he (Set.notMem_empty e) hl
      have hsame := dropDir_same hw hi' he hei
      have hlive := hsame.live hold
      refine ⟨hlive, ?_⟩
      rintro rfl
      obtain ⟨rfl, hfind⟩ := hlast.only d name e l hsup he hused hei hlive
      rw [← hsame.findSlot] at hfind
      exact hother ⟨rfl, (hp.eq_of_find hfind).symm⟩

/-! ## Runs -/

theorem FS.NoDangling.agrees (h : σ.NoDangling g num) (hw : WellFormed g σ) (hnum : num < g.inodes) (ha : σ.Agrees g τ) : τ.NoDangling g num := by
  have hhead : τ.i_head = σ.i_head := congrArg Globals.i_head ha.globals
  have hkeep : ∀ {j}, σ.Allocated num j → τ.Allocated num j := fun hj => by
    have hi : g.isInode _ := ⟨by have := hj.range; omega, Int.lt_of_le_of_lt hj.range.2 hnum⟩
    exact hj.keep (ha.same hw hi).type (hhead ▸ hj.used)
  refine ⟨hhead ▸ h.nodup, fun i hi => h.range i (hhead ▸ hi), hkeep h.root, fun e l j he hused hl => hkeep ?_⟩
  exact h.live e l j he (hhead ▸ hused) ((ha.same hw he).live hl)

/-- What live entries lead to from the root. -/
inductive View.Reached (v : View) : Int → Prop where
  | root : v.Reached ROOTINODE
  | next {e : Int} {l : Nat} {j : Int} (h : v.Reached e) (hl : v.Live e l j) : v.Reached j

/-- The free list names inodes of the disk, each once, and what live entries lead to is not free. -/
structure FS.NoneDangles (num : Int) (σ : FS) : Prop where
  nodup : σ.i_head.Nodup
  listed : ∀ i ∈ σ.i_head, i ≠ 0 ∧ 1 ≤ i ∧ i ≤ num
  live : ∀ e l j, σ.Reached e → σ.Live e l j → (1 ≤ j ∧ j ≤ num) ∧ σ.type j ≠ INODE_FREE ∧ j ∉ σ.i_head

/-- The free list is exact, and entries name inodes of the disk that have a type. -/
structure FS.Exact (g : Geometry) (num : Int) (σ : FS) : Prop where
  nodup : σ.i_head.Nodup
  free : ∀ i, i ∈ σ.i_head ↔ (1 ≤ i ∧ i ≤ num) ∧ σ.type i = INODE_FREE
  root : 1 ≤ num ∧ σ.type ROOTINODE ≠ INODE_FREE
  entries : ∀ e l j, g.isInode e → σ.Live e l j → (1 ≤ j ∧ j ≤ num) ∧ σ.type j ≠ INODE_FREE

theorem FS.Exact.noDangling (h : σ.Exact g num) : σ.NoDangling g num :=
  ⟨h.nodup, fun i hi => ((h.free i).mp hi).1, ⟨⟨le_rfl, h.root.1⟩, h.root.2, fun hm => h.root.2 ((h.free _).mp hm).2⟩, fun e l j he _ hl =>
    have hj := h.entries e l j he hl
    ⟨hj.1, hj.2, fun hm => hj.2 ((h.free j).mp hm).2⟩⟩

theorem FS.NoDangling.reached (h : σ.NoDangling g num) (hw : WellFormed g σ) (hr : σ.Reached e) : g.isInode e ∧ σ.Allocated num e := by
  induction hr with
  | root => exact ⟨g.isInode_root, h.root⟩
  | next _ hl ih =>
    refine ⟨?_, h.live _ _ _ ih.1 ih.2.used hl⟩
    rw [← hl.inum]
    exact hw.entries _ _ ih.1 hl.dir hl.lt

theorem FS.NoDangling.noneDangles (h : σ.NoDangling g num) (hw : WellFormed g σ) : σ.NoneDangles num := by
  refine ⟨h.nodup, fun i hi => ⟨fun h0 => h.zero_used (h0 ▸ hi), h.range i hi⟩, fun e l j hr hl => ?_⟩
  obtain ⟨he, hallocated⟩ := h.reached hw hr
  obtain ⟨hrange, htype, hused⟩ := h.live e l j he hallocated.used hl
  exact ⟨hrange, htype, hused⟩

/-- One round. -/
theorem serve_noDangling {resp : Response} (h : Sound g sv) (hshort : 8 * g.table ≤ 2 ^ 15) (hnum : num < g.inodes)
    (hn : sv.fs.NoDangling g num) (hsafe : req.Safe g sv.fs) (hkeeps : req.KeepsNames g num sv.fs) (hserve : serve sv req = some (resp, sv')) :
    sv'.fs.NoDangling g num := by
  obtain ⟨_, σ', heff, hw', hagree⟩ := h.step hshort hsafe hserve
  exact (heff.noDangling hn h.wellFormed hshort hsafe hkeeps).agrees hw' hnum hagree

/-- **No entry dangles.** From a free list that is exact, after any run of requests whose paths start at inodes in use, and whose `rmdir`s
each take an inode in use by its last name, every live entry that the root leads to names an inode in use. -/
theorem no_entry_dangles (h : OnDisk g sv₀) (hshort : 8 * g.table ≤ 2 ^ 15) (hnum : num < g.inodes) (hexact : sv₀.fs.Exact g num)
    (hmeets : sv₀.meets (fun σ req => req.Safe g σ ∧ req.KeepsNames g num σ) reqs) (hrun : serves sv₀ reqs = some sv) :
    sv.fs.NoneDangles num := by
  obtain ⟨hend, hn⟩ := serves_induction (I := fun sv => OnDisk g sv ∧ sv.fs.NoDangling g num) ⟨h, hexact.noDangling⟩ hmeets hrun
    fun sv req resp sv' ⟨h, hn⟩ hp hs => ⟨h.step hshort hp.1 hs, serve_noDangling h.toSound hshort hnum hn hp.1 hp.2 hs⟩
  exact hn.noneDangles hend.wellFormed

/-! ## A disk that is full of inodes -/

/-- A new disk whose table ends with the last inode. -/
theorem DiskFormat.Started.exact {f : DiskFormat} (h : f.Started sv) (hend : scanEnd f.num_inodes = f.num_inodes + 1) :
    sv.fs.Exact f.geometry f.num_inodes := by
  have hnum := f.two
  have hfits := f.fits
  have hmax := f.max
  have ht := tableBlocks_eq f.num_inodes
  have hroot : sv.fs.type 1 = INODE_DIRECTORY := h.fresh.type_root (by omega)
  have hdir : sv.fs.type 1 ≠ INODE_FREE := by
    rw [hroot]
    decide
  have hfree : ∀ i, 2 ≤ i → i ≤ f.num_inodes → sv.fs.type i = INODE_FREE := by
    intro i h2 hi
    rw [View.type, h.fresh.inode i (by omega) (by omega), if_neg (by omega), Inode.type, Inode.get_zero]
    rfl
  refine ⟨h.fresh.i_nodup, fun i => ?_, ⟨by omega, hdir⟩, fun e l j he hl => ?_⟩
  · show i ∈ sv.i_head ↔ _
    rw [h.i_head, hend]
    constructor
    · rintro ⟨h2, hlt⟩
      exact ⟨by omega, hfree i h2 (by omega)⟩
    · rintro ⟨hrange, hi⟩
      have h1 : i ≠ 1 := by
        rintro rfl
        exact hdir hi
      omega
  · obtain ⟨rfl, hlt⟩ := h.fresh.slot_root (by omega) rfl he hl.lt
    have hj := hl.inum
    rw [h.fresh.slotInum_root (by omega) (by omega) hlt] at hj
    subst hj
    exact ⟨⟨by decide, by simp only [ROOTINODE]; omega⟩, hdir⟩

/-- A file whose only name `rmdir` takes. -/
theorem no_entry_dangles_rmdir : ∃ sv, (smallDisk.disk fun _ => false).serves [.create (some [SLASH, 97]) 1, .rmdir (some [SLASH, 97]) 1] =
    some sv ∧ sv.fs.NoneDangles 15 := by
  have hcreated : ((smallDisk.disk fun _ => false).serves [.create (some [SLASH, 97]) 1]).map (fun sv => decide (
      (15 ∉ sv.fs.i_head ∧ sv.fs.resolve [97] 1 = 15 ∧ sv.fs.type 15 ≠ INODE_FREE ∧ sv.fs.findSlot 1 [97] = some 2) ∧
      ((sv.fs.dropDir 15).superDir [97] 1 = (1, [97]) ∧ (sv.fs.dropDir 15).isDir 1 ∧ (sv.fs.dropDir 15).size 1 = 96) ∧
      (∀ e ∈ List.range 16, sv.fs.isDir (e : Nat) → e = 1) ∧ ∀ l < sv.fs.slots 1, sv.fs.slotInum 1 l = 15 → l = 2)) = some true := by
    decide +kernel
  obtain ⟨sv, hrun, _⟩ := Option.map_eq_some_iff.mp (show ((smallDisk.disk fun _ => false).serves
    [.create (some [SLASH, 97]) 1, .rmdir (some [SLASH, 97]) 1]).map (fun _ => ()) = some () by decide +kernel)
  refine ⟨sv, hrun, ?_⟩
  obtain ⟨sv₀, hboot, hrun⟩ := Disk.serves_eq hrun
  have hstart := DiskFormat.started hboot
  have hmeets : sv₀.meets (fun σ req => req.Safe smallDisk.geometry σ ∧ req.KeepsNames smallDisk.geometry 15 σ)
      [.create (some [SLASH, 97]) 1, .rmdir (some [SLASH, 97]) 1] := by
    refine ⟨⟨hstart.fresh.safe_create (by decide), trivial⟩, fun resp sv₁ hserve => ⟨?_, fun _ _ _ => trivial⟩⟩
    rw [Disk.serves, hboot, Option.bind_some, serves, hserve] at hcreated
    obtain ⟨⟨hused, hres, htype, hfind⟩, ⟨hsup, hdir, hsize⟩, honly, hname⟩ := of_decide_eq_true (Option.some.inj hcreated)
    have hpath : from_root [SLASH, 97] 1 = ([97], 1) := by decide
    refine ⟨⟨Geometry.isInode_root _, fun _ => ?_⟩, fun _ => ?_⟩
    · rw [hpath, hres]
      intro d name hsup' _
      obtain ⟨rfl, rfl⟩ := Prod.mk.inj (hsup.symm.trans hsup')
      exact ⟨hdir, fun _ h512 => absurd h512 (by rw [hsize]; decide)⟩
    · rw [hpath, hres]
      refine ⟨⟨by decide, htype, hused⟩, by decide, fun d name e l hsup' he _ _ hl => ?_⟩
      obtain ⟨rfl, rfl⟩ := Prod.mk.inj (hsup.symm.trans hsup')
      have he16 : e < 16 := he.2
      have hpos := he.1
      have hroot := honly e.toNat (List.mem_range.mpr (by omega)) (by rw [Int.toNat_of_nonneg hpos]; exact hl.dir)
      obtain rfl : e = 1 := by omega
      obtain rfl := hname l hl.lt hl.inum
      exact ⟨rfl, hfind⟩
  exact no_entry_dangles (smallDisk_onDisk hboot) (by decide) (by decide) (hstart.exact (by decide)) hmeets hrun

/-- `rmdir` takes one of a file's two names. -/
theorem rmdir_leaves_name : ∃ sv₀ sv, boot (smallDisk.disk fun _ => false) = some sv₀ ∧ OnDisk smallDisk.geometry sv₀ ∧
    sv₀.fs.Exact smallDisk.geometry 15 ∧ serves sv₀ [.create (some [SLASH, 97]) 1, .link (some [SLASH, 97]) (some [SLASH, 98]) 1,
      .rmdir (some [SLASH, 97]) 1] = some sv ∧ ¬ sv.fs.NoneDangles 15 := by
  obtain ⟨sv, hrun, hall⟩ := Option.map_eq_some_iff.mp (show ((smallDisk.disk fun _ => false).serves
    [.create (some [SLASH, 97]) 1, .link (some [SLASH, 97]) (some [SLASH, 98]) 1, .rmdir (some [SLASH, 97]) 1]).map (fun sv => decide (
      15 ∈ sv.fs.i_head ∧ sv.fs.isDir 1 ∧ 3 < sv.fs.slots 1 ∧ sv.fs.slotInum 1 3 = 15)) = some true by decide +kernel)
  obtain ⟨hfree, hdir, hslot, hinum⟩ := of_decide_eq_true hall
  obtain ⟨sv₀, hboot, hrun⟩ := Disk.serves_eq hrun
  refine ⟨sv₀, sv, hboot, smallDisk_onDisk hboot, (DiskFormat.started hboot).exact (by decide), hrun, fun hnone => ?_⟩
  exact (hnone.live 1 3 15 .root ⟨hdir, hslot, hinum, by decide⟩).2.2 hfree

end Yfs
