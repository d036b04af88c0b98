import Yfs.Requests.Step

/-! # The inodes that a request changes -/

namespace Yfs

/-- The only fields of inodes that differ are those that `T` allows. -/
def Edits (T : Int → Field → Prop) (σ σ' : FS) : Prop := ∀ j f, ¬ T j f → (σ'.inode j).get f = (σ.inode j).get f

variable {g : Geometry} {σ σ' : FS} {T U : Int → Field → Prop} {i j d : Int} {k : Nat} {name : CStr}

namespace Edits

theorem of_inode (h : σ'.inode = σ.inode) : Edits T σ σ' := fun _ _ _ => by rw [h]

theorem refl (σ : FS) : Edits T σ σ := of_inode rfl

theorem mono (h : Edits T σ σ') (hle : ∀ j f, T j f → U j f) : Edits U σ σ' := fun j f hn => h j f (mt (hle j f) hn)

theorem trans {τ : FS} (h : Edits T σ σ') (h' : Edits T σ' τ) : Edits T σ τ :=
  fun j f hn => (h' j f hn).trans (h j f hn)

theorem setInode {ino : Inode} (h : ∀ f, ¬ T i f → ino.get f = (σ.inode i).get f) : Edits T σ (σ.setInode i ino) := by
  intro j f hn
  by_cases hj : j = i
  · subst hj
    rw [FS.setInode_view, View.setInode_inode_self]
    exact h f hn
  · rw [FS.setInode_view, View.setInode_inode_ne hj]

/-- An inode that keeps its fields keeps its bytes. -/
theorem inode (h : Edits T σ σ') (hj : ∀ f, ¬ T j f) : σ'.inode j = σ.inode j := Inode.ext_get fun f => h j f (hj f)

end Edits

/-! ## The pieces -/

theorem popInode_edits : Edits (fun j f => j = σ.nextInode ∧ f = .reuse) σ σ.popInode := by
  unfold FS.popInode
  split
  · exact .refl σ
  · exact .setInode fun f hf => by rw [Inode.get_set, if_neg fun he => hf ⟨rfl, he.symm⟩]

theorem truncate_edits : Edits (fun j f => j = i ∧ f = .size) σ (σ.truncate i) :=
  Edits.setInode (σ := σ.release (σ.fileBlocks i)) fun f hf => by
    rw [Inode.get_set, if_neg fun he => hf ⟨rfl, he.symm⟩]
    rfl

theorem dropDir_edits : Edits (fun j f => j = i ∧ f = .size) σ (σ.dropDir i) := truncate_edits

theorem newFile_edits : Edits (fun j _ => j = σ.nextInode) σ (σ.newFile d k name) := by
  have hpop : Edits (fun j _ => j = σ.nextInode) σ
      (((σ.setName (σ.slotBlock d k) (slotOffset k) name).popInode).setInum (σ.slotBlock d k) (slotOffset k) σ.nextInode) :=
    (popInode_edits (σ := σ.setName (σ.slotBlock d k) (slotOffset k) name)).mono fun _ _ h => h.1
  exact hpop.trans (.setInode fun f hf => absurd rfl hf)

theorem newLink_edits : Edits T σ (σ.newLink d k name i) := .of_inode rfl

theorem addLinks_edits {n : Int} : Edits (fun j f => j = i ∧ f = .nlink) σ (σ.addLinks i n) :=
  .setInode fun f hf => by rw [Inode.get_set, if_neg fun he => hf ⟨rfl, he.symm⟩]

theorem removeEntry_edits :
    Edits (fun j f => j = σ.slotInum d k ∧ (f = .nlink ∨ f = .size)) σ (σ.removeEntry d k) := by
  have hlinks : Edits (fun j f => j = σ.slotInum d k ∧ (f = .nlink ∨ f = .size)) σ (σ.addLinks (σ.slotInum d k) (-1)) :=
    addLinks_edits.mono fun _ _ h => ⟨h.1, .inl h.2⟩
  unfold FS.removeEntry
  dsimp only
  split
  · exact hlinks.trans (truncate_edits.mono fun _ _ h => ⟨h.1, .inr h.2⟩)
  · exact hlinks

theorem newDir_edits : Edits (fun j _ => j = σ.nextInode) σ (σ.newDir d k name) := by
  have hpop : Edits (fun j _ => j = σ.nextInode) σ σ.popInode := popInode_edits.mono fun _ _ h => h.1
  refine hpop.trans fun j f hn => ?_
  have h₁ : Edits (fun j _ => j = σ.nextInode) (((σ.popInode.editBlock (σ.slotBlock d k) (FS.nameEntry (slotOffset k) name
      σ.nextInode)).markBlock (σ.slotBlock d k))) (((σ.popInode.editBlock (σ.slotBlock d k) (FS.nameEntry (slotOffset k) name
      σ.nextInode)).markBlock (σ.slotBlock d k)).initDir σ.nextInode) := .setInode fun f hf => absurd rfl hf
  exact (h₁.trans (.setInode fun f hf => absurd rfl hf)) j f hn

/-- What growing a file changes. -/
def Field.grows : Field → Bool
  | .size | .direct _ => true
  | _ => false

theorem alloc_edits {n : Nat} : Edits (fun j f => j = i ∧ f.grows = true) σ (σ.alloc i n) := by
  unfold FS.alloc
  split
  · refine Edits.setInode (σ := σ.pop) fun f hf => ?_
    rw [Inode.get_set, if_neg fun he => hf ⟨rfl, by rw [← he]; rfl⟩]
    rfl
  · exact .of_inode rfl

theorem setSize_edits {v : Int} : Edits (fun j f => j = i ∧ f.grows = true) σ (σ.setInode i ((σ.inode i).set .size v)) :=
  .setInode fun f hf => by rw [Inode.get_set, if_neg fun he => hf ⟨rfl, by rw [← he]; rfl⟩]

theorem grow_edits : Edits (fun j f => j = d ∧ f.grows = true) σ (σ.grow d) := by
  unfold FS.grow
  split
  · exact alloc_edits.trans setSize_edits
  · exact setSize_edits

theorem Placed.edits (h : Placed σ d name k σ') : Edits (fun j f => j = d ∧ f.grows = true) σ σ' := by
  rcases h.eq_or_grow with rfl | ⟨_, rfl⟩
  · exact .refl _
  · exact grow_edits

theorem update_i_size_get {ino : Inode} {size byte_offset left : Int} {f : Field} (hf : f ≠ .size) :
    (update_i_size ino size byte_offset left).get f = ino.get f := by
  simp only [update_i_size]
  split
  · rw [Inode.get_set, if_neg (Ne.symm hf)]
  · rfl

theorem Writing.edits {buf : UserBuf} {size byte_offset left off : Int} {n : Nat} {r : Bool}
    (h : Writing i buf size byte_offset n left off σ r σ') : Edits (fun j f => j = i ∧ f.grows = true) σ σ' := by
  have hreach : ∀ (σ : FS) (n : Nat), Edits (fun j f => j = i ∧ f.grows = true) σ (σ.reach i n) := by
    intro σ n
    unfold FS.reach
    split
    · exact .refl σ
    · exact alloc_edits
  induction h with
  | done => exact .refl _
  | limit => exact .refl _
  | stuck => exact hreach _ _
  | chunk _ _ _ _ _ ih =>
    refine .trans (hreach _ _) (.trans (.setInode fun f hf => ?_) ih)
    exact update_i_size_get fun he => hf ⟨rfl, by rw [he]; rfl⟩

theorem Written.edits {buf : UserBuf} {size byte_offset r : Int} (h : Written σ i buf size byte_offset r σ') :
    Edits (fun j f => j = i ∧ f.grows = true) σ σ' := by
  cases h with
  | ended h => exact h.edits
  | failed h => exact h.edits

/-! ## The free inodes -/

theorem Placed.i_head (h : Placed σ d name k σ') : σ'.i_head = σ.i_head := by
  rcases h.eq_or_grow with rfl | ⟨_, rfl⟩
  · rfl
  · unfold FS.grow
    split
    · have halloc : (σ.alloc d (σ.blocks d)).i_head = σ.i_head := by
        rw [FS.alloc_globals]
        rfl
      exact halloc
    · rfl

theorem newFile_i_head : (σ.newFile d k name).i_head = σ.i_head.tail :=
  popInode_i_head (σ := σ.setName (σ.slotBlock d k) (slotOffset k) name)

theorem removeEntry_i_head : (σ.removeEntry d k).i_head = σ.i_head := by
  unfold FS.removeEntry
  dsimp only
  split <;> rfl

theorem newDir_i_head : (σ.newDir d k name).i_head = σ.i_head.tail := popInode_i_head

end Yfs
