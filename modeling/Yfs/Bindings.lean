import Yfs.Names
import Yfs.Requests.Frame

/-! # What a new entry does to names -/

namespace Yfs

variable {g : Geometry} {σ σ' : FS} {v w u : View} {X : Set Int} {d e i j b n : Int} {k l : Nat} {name bs bs' : List UInt8} {c path : CStr}

/-! ## One slot -/

/-- Slot `k` of `d`, perhaps a new one, holds `i` and the name `bs`. Files outside `X` are as they were, and `d` but for that
slot. -/
structure SlotPut (g : Geometry) (v w : View) (X : Set Int) (d : Int) (k : Nat) (i : Int) (bs : List UInt8) : Prop where
  same : ∀ e, g.isInode e → e ≠ d → e ∉ X → v.Same w e
  before : v.isDir d
  after : w.isDir d
  le : k ≤ v.slots d
  slots : w.slots d = max (v.slots d) (k + 1)
  others : ∀ l, l < v.slots d → l ≠ k → w.slotInum d l = v.slotInum d l ∧ w.slotName d l = v.slotName d l
  inum : w.slotInum d k = i
  name : w.slotName d k = bs

namespace SlotPut

theorem trans (h : SlotPut g v w X d k i bs) (h' : SlotPut g w u X d k j bs') : SlotPut g v u X d k j bs' := by
  have hs := h.slots
  have hs' := h'.slots
  refine ⟨fun e he hd hX => (h.same e he hd hX).trans (h'.same e he hd hX), h.before, h'.after, h.le, by omega, fun l hl hk => ?_,
    h'.inum, h'.name⟩
  obtain ⟨h1, h2⟩ := h.others l hl hk
  obtain ⟨h3, h4⟩ := h'.others l (by omega) hk
  exact ⟨h3.trans h1, h4.trans h2⟩

theorem mono {Y : Set Int} (h : SlotPut g v w X d k i bs) (hX : X ⊆ Y) : SlotPut g v w Y d k i bs :=
  ⟨fun e he hd hY => h.same e he hd fun hm => hY (hX hm), h.before, h.after, h.le, h.slots, h.others, h.inum, h.name⟩

theorem lt (h : SlotPut g v w X d k i bs) : k < w.slots d := by
  have := h.slots
  omega

/-- Then a step that leaves `d`. -/
theorem then_same (h : SlotPut g v w X d k i bs) (hd : w.Same u d) (hsame : ∀ e, g.isInode e → e ≠ d → e ∉ X → w.Same u e) :
    SlotPut g v u X d k i bs := by
  refine ⟨fun e he hne hX => (h.same e he hne hX).trans (hsame e he hne hX), h.before, hd.isDir.mpr h.after, h.le,
    hd.slots.trans h.slots, fun l hl hk => ?_, (hd.slotInum h.lt).trans h.inum, (hd.slotName h.lt).trans h.name⟩
  have hlt : l < w.slots d := by
    have := h.slots
    omega
  rw [hd.slotInum hlt, hd.slotName hlt]
  exact h.others l hl hk

/-- After a step that leaves `d`. -/
theorem of_same (h : SlotPut g w u X d k i bs) (hd : v.Same w d) (hsame : ∀ e, g.isInode e → e ≠ d → e ∉ X → v.Same w e) :
    SlotPut g v u X d k i bs := by
  have hs := hd.slots
  refine ⟨fun e he hne hX => (hsame e he hne hX).trans (h.same e he hne hX), hd.isDir.mp h.before, h.after, hs ▸ h.le,
    hs ▸ h.slots, fun l hl hk => ?_, h.inum, h.name⟩
  rw [← hd.slotInum hl, ← hd.slotName hl]
  exact h.others l (by omega) hk

end SlotPut

/-- A change within the bytes of one slot. -/
theorem SlotAt.put {f : Block → Block} (h : SlotAt g σ d k b) (hf : ∀ blk, SlotOnly blk (f blk) (k % 16)) :
    SlotPut g σ.toView (σ.editBlock b f).toView X d k ((f (σ.block b)).inum (slotOffset k)) ((f (σ.block b)).name (slotOffset k)) := by
  have hwr := h.written hf
  have hlt := h.lt
  refine ⟨fun e he hne _ => hwr.same h.wellFormed h.inode he hne, h.dir, h.dir, hlt.le, ?_, fun l hl hk =>
    hwr.slot_ne h.wellFormed h.inode hl hk, ?_, ?_⟩
  · have : (σ.editBlock b f).slots d = σ.slots d := rfl
    omega
  · rw [hwr.inum_self, h.block, editSlot_self]
  · rw [hwr.name_self, h.block, editSlot_self]

/-- The slot for a name. -/
theorem Placed.put (h : Placed σ d path k σ') (hw : WellFormed g σ) (hd : g.isInode d) (hdir : σ.isDir d)
    (hroom : σ.RoomFor g d path) : SlotPut g σ.toView σ'.toView X d k (σ'.slotInum d k) (σ'.slotName d k) := by
  cases h with
  | found hk =>
    have := findSlot_lt hk
    exact ⟨fun e _ _ _ => .refl _ e, hdir, hdir, this.le, by omega, fun l _ _ => ⟨rfl, rfl⟩, rfl, rfl⟩
  | free _ hk =>
    have := freeSlot_lt hk
    exact ⟨fun e _ _ _ => .refl _ e, hdir, hdir, this.le, by omega, fun l _ _ => ⟨rfl, rfl⟩, rfl, rfl⟩
  | new hf =>
    have hgr := grow_grown hw hd hdir (hroom hf)
    have hslots := hgr.slots
    refine ⟨fun e he hne _ => grow_same hw hd hdir (hroom hf) he hne, hdir, (grow_get (by simp) (by simp)).trans hdir, le_rfl, by omega,
      fun l hl _ => hgr.old l hl, rfl, rfl⟩

theorem name_store (blk : Block) (h : bs.length = DIRNAMELEN) : Block.name (blk.store (slotOffset k + 2) bs) (slotOffset k) = bs := by
  rw [Block.name, ← h]
  refine Mem.load_store_same _ _ _ ?_
  simp only [h, DIRNAMELEN, slotOffset]
  omega

theorem name_nameEntry (blk : Block) (i : Int) (hlen : c.length ≤ DIRNAMELEN) :
    Block.name (FS.nameEntry (slotOffset k) c i blk) (slotOffset k) = strncpy DIRNAMELEN c := by
  have hstr : strncpy DIRNAMELEN c = c ++ List.replicate (DIRNAMELEN - c.length) 0 := by
    rw [strncpy, List.take_append, List.take_of_length_le hlen, List.take_replicate, Nat.min_eq_left (Nat.sub_le _ _)]
  rw [FS.nameEntry, Block.name_setInum _ _ _ _ (by omega), hstr, Block.name]
  refine Mem.load_store_replicate _ _ _ _ hlen ?_
  simp only [DIRNAMELEN, slotOffset]
  omega

theorem cname_strncpy (h : 0 ∉ c) : cname (strncpy DIRNAMELEN c) = c.take DIRNAMELEN := by
  have hne : ∀ a ∈ c.take DIRNAMELEN, decide (a ≠ 0) = true := by
    intro a ha
    simpa using fun he : a = 0 => h (he ▸ List.mem_of_mem_take ha)
  rw [strncpy, List.take_append, cname, List.takeWhile_append_of_pos hne, List.take_replicate]
  cases min (DIRNAMELEN - c.length) DIRNAMELEN <;> simp [List.replicate_succ]

namespace SlotAt

variable (h : SlotAt g σ d k b)
include h

theorem setName_put : SlotPut g σ.toView (σ.setName b (slotOffset k) c).toView X d k (σ.slotInum d k) (strncpy DIRNAMELEN c) := by
  have hput := h.put (X := X) (slotOnly_strncpy c)
  rwa [inum_name, h.inum, name_store _ (length_strncpy _ _)] at hput

theorem setInum_put (hi : Mem.wrap 2 i = i) :
    SlotPut g σ.toView (σ.setInum b (slotOffset k) i).toView X d k i (σ.slotName d k) := by
  have hput := h.put (X := X) (slotOnly_inum i)
  rwa [inum_setInum _ hi, Block.name_setInum _ _ _ _ (by omega), show (σ.block b).name (slotOffset k) = σ.slotName d k by
    rw [View.slotName, h.block]] at hput

end SlotAt

/-! ## The requests -/

section

variable (h : SlotAt g σ d k (σ.slotBlock d k))
include h

theorem SlotAt.newFile_put (hshort : 8 * g.table ≤ 2 ^ 15) (hne : σ.nextInode ≠ d) :
    SlotPut g σ.toView (σ.newFile d k c).toView {σ.nextInode} d k σ.nextInode (strncpy DIRNAMELEN c) := by
  have hi := h.wellFormed.nextInode
  have hnamed : SlotAt g (σ.setName (σ.slotBlock d k) (slotOffset k) c) d k (σ.slotBlock d k) := h.setName
  have hpop := hnamed.popInode
  have hset := hpop.setInum hi (wrap_inode hshort hi)
  have hname := h.setName_put (X := {σ.nextInode}) (c := c)
  have hname' := hname.then_same (popInode_same (σ := σ.setName (σ.slotBlock d k) (slotOffset k) c)) fun e _ _ _ => popInode_same
  have hput := hname'.trans (hpop.setInum_put (wrap_inode hshort hi))
  rw [hname'.name] at hput
  exact hput.then_same (initFile_emptied.same hset.wellFormed h.inode hne.symm)
    fun e he _ hX => initFile_emptied.same hset.wellFormed he (by simpa using hX)

theorem SlotAt.newLink_put (hi : Mem.wrap 2 i = i) :
    SlotPut g σ.toView (σ.newLink d k c i).toView X d k i (strncpy DIRNAMELEN c) := by
  have hnamed : SlotAt g (σ.setName (σ.slotBlock d k) (slotOffset k) c) d k (σ.slotBlock d k) := h.setName
  have hname := h.setName_put (X := X) (c := c)
  have hput := hname.trans (hnamed.setInum_put hi)
  rwa [hname.name] at hput

theorem SlotAt.newDir_put (hshort : 8 * g.table ≤ 2 ^ 15) (hne : σ.nextInode ≠ d)
    (hlen : c.length ≤ DIRNAMELEN) (hfree : σ.b_head ≠ []) (hdata : ¬ g.isTable σ.next) :
    SlotPut g σ.toView (σ.newDir d k c).toView {σ.nextInode} d k σ.nextInode (strncpy DIRNAMELEN c) := by
  have hi := h.wellFormed.nextInode
  have hput := h.popInode.put (X := {σ.nextInode}) (nameEntry_slotOnly σ.nextInode hlen)
  rw [FS.nameEntry, inum_setInum _ (wrap_inode hshort hi), ← FS.nameEntry, name_nameEntry _ _ hlen] at hput
  have hnamed := hput.of_same popInode_same fun _ _ _ _ => popInode_same
  have hw := (h.nameDir hshort hlen).wellFormed
  have hb : (σ.nameDir d k c).b_head ≠ [] := by rwa [nameDir_b_head]
  have ht : ¬ g.isTable (σ.nameDir d k c).next := by rwa [nameDir_next]
  have hsame : ∀ e, g.isInode e → e ≠ σ.nextInode → (σ.nameDir d k c).Same (σ.newDir d k c).toView e := fun e he hei =>
    (bareDir_emptied.same hw he hei).trans
      ((headBlock_appended hw hi hb ht).same (bareDir_emptied.wellFormed hw hi hw.inodes) (bareDir_canGrow hb ht) he hei)
  exact hnamed.then_same (hsame d h.inode hne.symm) fun e he _ hX => hsame e he (by simpa using hX)
theorem SlotAt.clearEntry_put : SlotPut g σ.toView (σ.clearEntry d k).toView X d k 0 (σ.slotName d k) :=
  h.setInum_put (Mem.wrap_short 0 (by decide) (by decide))

omit h in
theorem removeEntry_nlink : (σ.removeEntry d k).nlink j = (σ.addLinks (σ.slotInum d k) (-1)).nlink j := by
  have hedit : Edits (fun j f => j = σ.slotInum d k ∧ f = .size) (σ.addLinks (σ.slotInum d k) (-1)) (σ.removeEntry d k) := by
    unfold FS.removeEntry
    dsimp only
    split
    · exact truncate_edits
    · exact .refl (σ.addLinks (σ.slotInum d k) (-1))
  exact hedit j .nlink fun h => by cases h.2

/-- An entry that names another inode than its directory. -/
theorem SlotAt.removeEntry_put (hne : σ.slotInum d k ≠ d) : SlotPut g σ.toView (σ.removeEntry d k).toView
    {j | j = σ.slotInum d k ∧ (σ.removeEntry d k).nlink j = 0} d k 0 (σ.slotName d k) := by
  have hi := h.wellFormed.entries d k h.inode h.dir h.lt
  have h₁ := h.of_same (h.wellFormed.addLinks (i := σ.slotInum d k) (n := -1)) addLinks_same
  have hzero : Mem.wrap 2 (0 : Int) = 0 := Mem.wrap_short 0 (by decide) (by decide)
  have hnlink := removeEntry_nlink (σ := σ) (d := d) (k := k) (j := σ.slotInum d k)
  generalize hX : {j | j = σ.slotInum d k ∧ (σ.removeEntry d k).nlink j = 0} = X
  unfold FS.removeEntry
  dsimp only
  split
  case isTrue h0 =>
    have hout : ∀ e, e ∉ X → e ≠ σ.slotInum d k := by
      rintro e he rfl
      exact he (hX ▸ ⟨rfl, hnlink.trans h0⟩)
    have hemp := truncate_emptied h₁.wellFormed hi
    have hsame := (addLinks_same (n := -1)).trans (hemp.same h₁.wellFormed h.inode hne.symm)
    have hw₂ := (hemp.wellFormed h₁.wellFormed hi h₁.wellFormed.inodes).markInode (i := σ.slotInum d k)
    have h₂ := h.of_same hw₂ hsame
    have hput := h₂.setInum_put (X := X) hzero
    rw [FS.markInode_view, hsame.slotName h.lt] at hput
    exact hput.of_same hsame fun e he _ heX => addLinks_same.trans (hemp.same h₁.wellFormed he (hout e heX))
  case isFalse =>
    have hmark := h₁.of_same (h₁.wellFormed.markInode (i := σ.slotInum d k)) (View.Same.refl _ _)
    have hput := hmark.setInum_put (X := X) hzero
    rw [FS.markInode_view, addLinks_same.slotName h.lt] at hput
    exact hput.of_same addLinks_same fun _ _ _ _ => addLinks_same

end

/-! ## Names -/

theorem View.Same.entry (h : v.Same w e) : w.entry e c = v.entry e c := by
  have hfind : (List.range (w.slots e)).find? (fun k => decide (w.slotInum e k ≠ 0 ∧ cname (w.slotName e k) = c.take DIRNAMELEN)) =
      (List.range (v.slots e)).find? (fun k => decide (v.slotInum e k ≠ 0 ∧ cname (v.slotName e k) = c.take DIRNAMELEN)) := by
    rw [h.slots]
    apply List.find?_congr
    intro k hk
    have hlt := List.mem_range.mp hk
    rw [h.slotInum hlt, h.slotName hlt]
  rw [View.entry, View.entry, hfind]
  apply Option.map_congr
  intro k hk
  exact h.slotInum (List.mem_range.mp (List.mem_of_find?_eq_some hk))

theorem View.Same.graph (h : v.Same w e) : w.graph e c = v.graph e c := by
  simp only [View.graph, h.isDir, h.entry]

/-- `Named`, of one directory. -/
structure View.NamedAt (v : View) (d : Int) : Prop where
  plain : ∀ k, k < v.slots d → SLASH ∉ cname (v.slotName d k)
  nonempty : ∀ k, k < v.slots d → v.slotInum d k ≠ 0 → cname (v.slotName d k) ≠ []
  first : ∀ k l, k < v.slots d → v.slotInum d k ≠ 0 → l < k → cname (v.slotName d l) ≠ cname (v.slotName d k)

theorem View.Named.at (h : v.Named g) (hd : g.isInode d) (hdir : v.isDir d) : v.NamedAt d :=
  ⟨fun k => h.plain d k hd hdir, fun k => h.nonempty d k hd hdir, fun k l => h.first d k l hd hdir⟩

theorem View.Named.of_at (hheader : v.slots 0 = 0) (h : ∀ d, g.isInode d → v.isDir d → v.NamedAt d) : v.Named g :=
  ⟨hheader, fun d k hd hdir => (h d hd hdir).plain k, fun d k hd hdir => (h d hd hdir).nonempty k,
    fun d k l hd hdir => (h d hd hdir).first k l⟩

instance View.NamedAt.decidable : Decidable (v.NamedAt d) :=
  decidable_of_iff (∀ k < v.slots d, SLASH ∉ cname (v.slotName d k) ∧ (v.slotInum d k ≠ 0 → cname (v.slotName d k) ≠ [] ∧
    ∀ l < k, cname (v.slotName d l) ≠ cname (v.slotName d k)))
    ⟨fun h => ⟨fun k hk => (h k hk).1, fun k hk h0 => ((h k hk).2 h0).1, fun k l hk h0 hl => ((h k hk).2 h0).2 l hl⟩,
      fun h k hk => ⟨h.plain k hk, fun h0 => ⟨h.nonempty k hk h0, fun l hl => h.first k l hk h0 hl⟩⟩⟩

instance View.Named.decidable : Decidable (v.Named g) :=
  decidable_of_iff (v.slots 0 = 0 ∧ ∀ d < g.inodes.toNat, v.isDir d → v.NamedAt d)
    ⟨fun h => .of_at h.1 fun d hd hdir => by
      have hpos := hd.1
      have := h.2 d.toNat (by have := hd.2; omega)
      rw [Int.toNat_of_nonneg hpos] at this
      exact this hdir,
    fun h => ⟨h.header, fun d hd hdir => h.at ⟨Int.natCast_nonneg d, by omega⟩ hdir⟩⟩

theorem View.Same.namedAt (h : v.Same w e) (hn : v.NamedAt e) : w.NamedAt e := by
  have hs := h.slots
  refine ⟨fun k hk => ?_, fun k hk hlive => ?_, fun k l hk hlive hl => ?_⟩
  · have hlt : k < v.slots e := by omega
    rw [h.slotName hlt]
    exact hn.plain k hlt
  · have hlt : k < v.slots e := by omega
    rw [h.slotInum hlt] at hlive
    rw [h.slotName hlt]
    exact hn.nonempty k hlt hlive
  · have hlt : k < v.slots e := by omega
    rw [h.slotInum hlt] at hlive
    rw [h.slotName hlt, h.slotName (Nat.lt_trans hl hlt)]
    exact hn.first k l hlt hlive hl

/-- A name leads to the only live entry that has it. -/
theorem View.NamedAt.entry_iff (hn : v.NamedAt d) :
    v.entry d c = some i ↔ ∃ k, k < v.slots d ∧ v.slotInum d k = i ∧ i ≠ 0 ∧ cname (v.slotName d k) = c.take DIRNAMELEN := by
  constructor
  · exact entry_eq_some
  · rintro ⟨k, hk, rfl, h0, hname⟩
    rw [View.entry, Option.map_eq_some_iff]
    refine ⟨k, ?_, rfl⟩
    rw [List.find?_range_eq_some]
    refine ⟨by simp [h0, hname], List.mem_range.mpr hk, fun l hl => ?_⟩
    have hne := hn.first k l hk h0 hl
    rw [hname] at hne
    simp [hne]

theorem View.NamedAt.entry_none (hn : v.NamedAt d) (h : v.entry d c = none) (hk : k < v.slots d)
    (hname : cname (v.slotName d k) = c.take DIRNAMELEN) : v.slotInum d k = 0 := by
  by_contra h0
  have hsome : v.entry d c = some (v.slotInum d k) := hn.entry_iff.mpr ⟨k, hk, rfl, h0, hname⟩
  rw [h] at hsome
  cases hsome

namespace SlotPut

variable (h : SlotPut g v w X d k i bs)
include h

/-- The other entries of `d`. -/
theorem live_iff (hl : l ≠ k) : (l < w.slots d ∧ w.slotInum d l = j ∧ j ≠ 0 ∧ cname (w.slotName d l) = c.take DIRNAMELEN) ↔
    l < v.slots d ∧ v.slotInum d l = j ∧ j ≠ 0 ∧ cname (v.slotName d l) = c.take DIRNAMELEN := by
  have hs := h.slots
  have hle := h.le
  constructor
  · rintro ⟨hlt, hrest⟩
    have hlt : l < v.slots d := by omega
    obtain ⟨h1, h2⟩ := h.others l hlt hl
    exact ⟨hlt, by rwa [h1, h2] at hrest⟩
  · rintro ⟨hlt, hrest⟩
    obtain ⟨h1, h2⟩ := h.others l hlt hl
    exact ⟨by omega, by rwa [h1, h2]⟩

theorem namedAt (hn : v.NamedAt d) (hplain : SLASH ∉ cname bs) (hne : i ≠ 0 → cname bs ≠ [])
    (hfirst : i ≠ 0 → ∀ l, l < k → cname (v.slotName d l) ≠ cname bs)
    (hlast : ∀ m, k < m → m < v.slots d → v.slotInum d m ≠ 0 → cname bs ≠ cname (v.slotName d m)) : w.NamedAt d := by
  have hs := h.slots
  have hle := h.le
  refine ⟨fun l hl => ?_, fun l hl hlive => ?_, fun m l hm hlive hlm => ?_⟩
  · by_cases hlk : l = k
    · rwa [hlk, h.name]
    · have hlt : l < v.slots d := by omega
      rw [(h.others l hlt hlk).2]
      exact hn.plain l hlt
  · by_cases hlk : l = k
    · rw [hlk, h.inum] at hlive
      rw [hlk, h.name]
      exact hne hlive
    · have hlt : l < v.slots d := by omega
      rw [(h.others l hlt hlk).1] at hlive
      rw [(h.others l hlt hlk).2]
      exact hn.nonempty l hlt hlive
  · by_cases hmk : m = k
    · subst hmk
      rw [h.inum] at hlive
      rw [h.name, (h.others l (by omega) (by omega)).2]
      exact hfirst hlive l hlm
    · have hlt : m < v.slots d := by omega
      rw [(h.others m hlt hmk).1] at hlive
      rw [(h.others m hlt hmk).2]
      by_cases hlk : l = k
      · rw [hlk, h.name]
        exact hlast m (by omega) hlt hlive
      · rw [(h.others l (by omega) hlk).2]
        exact hn.first m l hlt hlive hlm

theorem named (hn : v.Named g) (hd : d ≠ 0) (h0 : (0 : Int) ∉ X) (hself : w.NamedAt d) (hX : ∀ e ∈ X, w.isDir e → w.NamedAt e) :
    w.Named g := by
  refine .of_at ?_ fun e he hdir => ?_
  · rw [(h.same 0 g.isInode_zero hd.symm h0).slots]
    exact hn.header
  · by_cases hed : e = d
    · rwa [hed]
    · by_cases heX : e ∈ X
      · exact hX e heX hdir
      · have hsame := h.same e he hed heX
        exact hsame.namedAt (hn.at he (hsame.isDir.mp hdir))

/-- The new name. -/
theorem entry_self (hself : w.NamedAt d) (hi : i ≠ 0) (hc : cname bs = c.take DIRNAMELEN) : w.entry d c = some i :=
  hself.entry_iff.mpr ⟨k, h.lt, h.inum, hi, by rw [h.name, hc]⟩

/-- A name that slot `k` neither had nor has. -/
theorem entry_other (hn : v.NamedAt d) (hself : w.NamedAt d)
    (hold : k < v.slots d → v.slotInum d k ≠ 0 → cname (v.slotName d k) ≠ c.take DIRNAMELEN)
    (hnew : i ≠ 0 → cname bs ≠ c.take DIRNAMELEN) : w.entry d c = v.entry d c := by
  apply Option.ext
  intro j
  rw [hself.entry_iff, hn.entry_iff]
  constructor
  · rintro ⟨l, hl⟩
    by_cases hlk : l = k
    · obtain ⟨_, rfl, h0, hname⟩ := hlk ▸ hl
      rw [h.inum] at h0
      rw [h.name] at hname
      exact absurd hname (hnew h0)
    · exact ⟨l, (h.live_iff hlk).mp hl⟩
  · rintro ⟨l, hl⟩
    by_cases hlk : l = k
    · obtain ⟨hlt, rfl, h0, hname⟩ := hlk ▸ hl
      exact absurd hname (hold hlt h0)
    · exact ⟨l, (h.live_iff hlk).mpr hl⟩

/-- The name of an entry that has been cleared. -/
theorem entry_gone (hn : v.NamedAt d) (hlt : k < v.slots d) (hlive : v.slotInum d k ≠ 0)
    (hname : cname (v.slotName d k) = c.take DIRNAMELEN) (hi : i = 0) : w.entry d c = none := by
  apply entry_eq_none
  intro l hl h0 hc
  by_cases hlk : l = k
  · exact h0 (by rw [hlk, h.inum, hi])
  · obtain ⟨hl', _, h0', hc'⟩ := (h.live_iff hlk).mp ⟨hl, rfl, h0, hc⟩
    have h0' : v.slotInum d l ≠ 0 := by
      rw [← (h.others l hl' hlk).1]
      exact h0'
    rcases Nat.lt_or_gt_of_ne hlk with hlt' | hgt
    · exact hn.first k l hlt hlive hlt' (hc'.trans hname.symm)
    · exact hn.first l k hl' h0' hgt (hname.trans hc'.symm)

/-- What an entry led to, it still leads to. -/
theorem graph_le (hn : v.NamedAt d) (hself : w.NamedAt d) (hfree : k < v.slots d → v.slotInum d k = 0) (he : g.isInode e) (hX : e ∉ X)
    (hv : v.graph e c = some j) : w.graph e c = some j := by
  by_cases hed : e = d
  · subst hed
    rw [View.graph, if_pos h.before] at hv
    obtain ⟨l, hl, hinum, h0, hname⟩ := entry_eq_some hv
    have hlk : l ≠ k := by
      rintro rfl
      exact h0 (hinum.symm.trans (hfree hl))
    rw [View.graph, if_pos h.after]
    exact hself.entry_iff.mpr ⟨l, (h.live_iff hlk).mpr ⟨hl, hinum, h0, hname⟩⟩
  · rw [(h.same e he hed hX).graph, hv]

end SlotPut

/-! ## A new name -/

/-- The name `c` of `d` leads to `i`, through a slot that was free; no live slot has the name, and none before this one. -/
structure Bound (g : Geometry) (v w : View) (X : Set Int) (d : Int) (c : CStr) (i : Int) : Prop where
  slot : ∃ k, SlotPut g v w X d k i (strncpy DIRNAMELEN c) ∧ (k < v.slots d → v.slotInum d k = 0) ∧
    (∀ l, l < k → cname (v.slotName d l) ≠ c.take DIRNAMELEN) ∧
    ∀ m, k < m → m < v.slots d → v.slotInum d m ≠ 0 → c.take DIRNAMELEN ≠ cname (v.slotName d m)

/-- The slot that `get_dir_entry` has chosen for a name that is not there. -/
theorem Placed.bound {τ : FS} (hp : Placed σ d c k σ') (hw : WellFormed g σ) (hd : g.isInode d) (hdir : σ.isDir d)
    (hroom : σ.RoomFor g d c) (hn : σ.toView.Named g) (hstr : 0 ∉ c) (hslash : SLASH ∉ c) (hfree : σ'.slotInum d k = 0)
    (hput : SlotPut g σ'.toView τ.toView X d k i (strncpy DIRNAMELEN c)) : Bound g σ.toView τ.toView X d c i := by
  have hmatch : ∀ l, l < σ.slots d → (name_eq (σ.slotName d l) c = true ↔ cname (σ.slotName d l) = c.take DIRNAMELEN) := by
    intro l hl
    have hpart : c.takeWhile (· ≠ SLASH) = c :=
      List.takeWhile_eq_self_iff.mpr fun a ha => by simpa using fun he : a = SLASH => hslash (he ▸ ha)
    rw [name_eq_iff (hn.plain d l hd hdir hl) hstr, slotName_length, hpart]
  have hall := (hp.put (X := X) hw hd hdir hroom).trans hput
  have hle := hall.le
  refine ⟨k, hall, ?_⟩
  have hnone : σ.findSlot d c = none → ∀ l, l < σ.slots d → cname (σ.slotName d l) ≠ c.take DIRNAMELEN := by
    intro hf l hl he
    rw [View.findSlot, List.find?_range_eq_none] at hf
    exact absurd ((hmatch l hl).mpr he) (by simpa using hf l hl)
  cases hp with
  | found hf =>
    have hlt := findSlot_lt hf
    rw [View.findSlot, List.find?_range_eq_some] at hf
    obtain ⟨hname, _, hbefore⟩ := hf
    have hk := (hmatch k hlt).mp hname
    refine ⟨fun _ => hfree, fun l hl he => ?_, fun m hm hlt' hlive => ?_⟩
    · exact absurd ((hmatch l (Nat.lt_trans hl hlt)).mpr he) (by simpa using hbefore l hl)
    · rw [← hk]
      exact hn.first d m k hd hdir hlt' hlive hm
  | free hf hk => exact ⟨fun _ => freeSlot_inum hk, fun l hl => hnone hf l (by omega), fun m _ hm _ he => hnone hf m hm he.symm⟩
  | new hf => exact ⟨fun h => absurd h (lt_irrefl _), fun l hl => hnone hf.1 l hl, fun m hm hlt _ => absurd hlt (by omega)⟩

namespace Bound

variable (h : Bound g v w X d c i)
include h

theorem then_same (hd : w.Same u d) (hsame : ∀ e, g.isInode e → e ≠ d → e ∉ X → w.Same u e) : Bound g v u X d c i := by
  obtain ⟨k, hput, hrest⟩ := h.slot
  exact ⟨k, hput.then_same hd hsame, hrest⟩

theorem same (he : g.isInode e) (hne : e ≠ d) (hX : e ∉ X) : v.Same w e := by
  obtain ⟨k, hput, _⟩ := h.slot
  exact hput.same e he hne hX

theorem before : v.isDir d := by
  obtain ⟨k, hput, _⟩ := h.slot
  exact hput.before

theorem after : w.isDir d := by
  obtain ⟨k, hput, _⟩ := h.slot
  exact hput.after

theorem entry_none : v.entry d c = none := by
  obtain ⟨k, _, hfree, hbefore, hafter⟩ := h.slot
  apply entry_eq_none
  intro l hl hlive hname
  rcases Nat.lt_trichotomy l k with hlt | rfl | hgt
  · exact hbefore l hlt hname
  · exact hlive (hfree hl)
  · exact hafter l hgt hl hlive hname.symm

variable (hn : v.NamedAt d) (hstr : 0 ∉ c) (hslash : SLASH ∉ c) (hne : c ≠ [])
include hn hstr hslash hne

theorem namedAt : w.NamedAt d := by
  obtain ⟨k, hput, _, hbefore, hafter⟩ := h.slot
  have hname := cname_strncpy hstr
  refine hput.namedAt hn ?_ (fun _ => ?_) (fun _ l hl => ?_) fun m hm hlt hlive => ?_
  · rw [hname]
    exact fun hmem => hslash (List.mem_of_mem_take hmem)
  · rw [hname, Ne, List.take_eq_nil_iff, not_or]
    exact ⟨by decide, hne⟩
  · rw [hname]
    exact hbefore l hl
  · rw [hname]
    exact hafter m hm hlt hlive

theorem entry (hi : i ≠ 0) : w.entry d c = some i := by
  have hself := h.namedAt hn hstr hslash hne
  obtain ⟨k, hput, _⟩ := h.slot
  exact hput.entry_self hself hi (cname_strncpy hstr)

theorem entry_other {a : CStr} (ha : a.take DIRNAMELEN ≠ c.take DIRNAMELEN) : w.entry d a = v.entry d a := by
  have hself := h.namedAt hn hstr hslash hne
  obtain ⟨k, hput, hfree, _⟩ := h.slot
  refine hput.entry_other hn hself (fun hlt hlive => absurd (hfree hlt) hlive) fun _ he => ?_
  rw [cname_strncpy hstr] at he
  exact ha he.symm

theorem graph_le {a : CStr} (he : g.isInode e) (hX : e ∉ X) (hv : v.graph e a = some j) : w.graph e a = some j := by
  have hself := h.namedAt hn hstr hslash hne
  obtain ⟨k, hput, hfree, _⟩ := h.slot
  exact hput.graph_le hn hself hfree he hX hv

omit hn in
theorem named (hnamed : v.Named g) (hd : g.isInode d) (hd0 : d ≠ 0) (h0 : (0 : Int) ∉ X) (hX : ∀ e ∈ X, w.isDir e → w.NamedAt e) : w.Named g := by
  have hself := h.namedAt (hnamed.at hd h.before) hstr hslash hne
  obtain ⟨k, hput, _⟩ := h.slot
  exact hput.named hnamed hd0 h0 hself hX

end Bound

/-- A new name lengthens the paths to its directory that stay out of `X`. -/
theorem Bound.follows {P : Int → Prop} {p : CStr} {cur : Int} (h : Bound g v w X d (basename p) i) (hn : v.NamedAt d) (hstr : 0 ∉ p)
    (hne : basename p ≠ []) (hi : i ≠ 0) (hstart : P (View.start p cur)) (hgraph : ∀ e a j, P e → v.graph e a = some j → P j)
    (hP : ∀ e, P e → g.isInode e ∧ e ∉ X) (hpar : v.parent p cur = some d) : w.reference p cur = some i := by
  have hstr' := basename_zero hstr
  have hentry := h.entry hn hstr' slash_not_mem_basename hne hi
  rw [View.reference_eq, components_basename hne]
  rw [View.parent_eq] at hpar
  refine Names.follow_new hstart hgraph (fun e a j he hm => ?_) hpar ?_
  · exact h.graph_le hn hstr' slash_not_mem_basename hne (hP e he).1 (hP e he).2 hm
  · rw [View.graph, if_pos h.after, hentry]

/-! ## Inodes in use -/

/-- The free inodes are past the root, and no entry in use names one. -/
structure FS.FreeApart (g : Geometry) (σ : FS) : Prop where
  past : ∀ i ∈ σ.i_head, ROOTINODE < i
  live : ∀ d k, g.isInode d → d ∉ σ.i_head → σ.isDir d → k < σ.slots d → σ.slotInum d k ≠ 0 → σ.slotInum d k ∉ σ.i_head

section

variable {cur : Int} {p : CStr} (hw : WellFormed g σ) (hfree : σ.FreeApart g) (hcur : g.isInode cur) (hused : cur ∉ σ.i_head)
include hw hfree

theorem graph_used (hd : g.isInode d ∧ d ∉ σ.i_head) (h : σ.graph d c = some i) : g.isInode i ∧ i ∉ σ.i_head := by
  refine ⟨graph_isInode hw hd.1 h, ?_⟩
  unfold View.graph at h
  split at h
  case isTrue hdir =>
    obtain ⟨k, hk, rfl, h0, _⟩ := entry_eq_some h
    exact hfree.live d k hd.1 hd.2 hdir hk h0
  case isFalse => cases h

include hcur hused

omit hw in
theorem start_used : g.isInode (View.start p cur) ∧ View.start p cur ∉ σ.i_head := by
  refine ⟨start_isInode hcur, ?_⟩
  unfold View.start
  split
  · exact fun hm => absurd (hfree.past _ hm) (lt_irrefl _)
  · exact hused

theorem parent_used (h : σ.parent p cur = some d) : d ∉ σ.i_head := by
  rw [View.parent_eq] at h
  have hmem := Names.follow_mem (P := fun e => g.isInode e ∧ e ∉ σ.i_head) (start_used hfree hcur hused)
    (fun _ _ _ hd hm => graph_used hw hfree hd hm) h
  exact hmem.2

/-- A new name lengthens the paths to its directory. -/
theorem Bound.reference (h : Bound g σ.toView w X d (basename p) i) (hn : σ.NamedAt d) (hstr : 0 ∉ p) (hne : basename p ≠ [])
    (hi : i ≠ 0) (hX : ∀ e ∈ X, e ∈ σ.i_head) (hpar : σ.parent p cur = some d) : w.reference p cur = some i :=
  h.follows hn hstr hne hi (start_used hfree hcur hused) (fun _ _ _ hd hm => graph_used hw hfree hd hm)
    (fun e he => ⟨he.1, fun hm => he.2 (hX e hm)⟩) hpar

end

/-- A well-formed state: names are in order, and no entry in use names a free inode. -/
structure Server.InOrder (g : Geometry) (sv : Server) : Prop extends OnDisk g sv where
  named : sv.fs.Named g
  freeApart : sv.fs.FreeApart g

/-! ## The smallest start -/

theorem smallStart_parent {c : UInt8} (hc : c ≠ SLASH) : smallStart.fs.parent [SLASH, c] 1 = some ROOTINODE := by
  have hdir : dirname [SLASH, c] = [SLASH] := dirname_concat (p := [SLASH]) hc
  rw [View.parent, hdir]
  exact reference_slashes (by simp) (by simp [HasPart])

theorem smallStart_inOrder : smallStart.InOrder smallDisk.geometry := by
  refine ⟨smallStart_onDisk, smallStart_named, fun i hi => ?_, fun d k hd _ _ hk hlive => ?_⟩
  · have hmem : i ∈ [(15 : Int), 14] := hi
    simp at hmem
    rcases hmem with rfl | rfl <;> decide
  · have hroot : d = 1 := (smallStart_sound.2.covers_iff (by decide) rfl hd).mp (covers_of_slot hk) |>.1
    subst hroot
    have hslots : smallStart.fs.slots 1 = 2 := smallStart_sound.2.slots_root (by decide)
    have hinum : ∀ k, k < 2 → smallStart.fs.slotInum 1 k = 1 := by decide +kernel
    rw [hinum k (by omega)]
    have hhead : smallStart.fs.i_head = [15, 14] := rfl
    rw [hhead]
    decide

end Yfs
