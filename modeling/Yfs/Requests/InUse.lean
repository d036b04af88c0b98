import Yfs.Header

/-! # An inode in use keeps its type and its reuse counter -/

namespace Yfs

variable {g : Geometry} {σ σ₁ σ' : FS} {req : Request} {ret i j d cur : Int} {k : Nat} {path name : CStr}

/-- What a request may change: not the type or the reuse counter of an inode in use. -/
def FS.Spends (σ : FS) (j : Int) (f : Field) : Prop := f ≠ .type ∧ f ≠ .reuse ∨ j ∈ σ.i_head ∨ j = 0 ∧ f ≠ .reuse

theorem spends_of_grows {f : Field} (h : f.grows = true) : σ.Spends j f := by
  refine .inl ⟨?_, ?_⟩ <;> rintro rfl <;> cases h

theorem spends_of_taken {f : Field} (hj : j = σ.nextInode) (hf : f = .reuse → σ.i_head ≠ []) : σ.Spends j f := by
  by_cases h : σ.i_head = []
  · refine .inr (.inr ⟨?_, fun he => hf he h⟩)
    rw [hj, FS.nextInode, h]
    rfl
  · exact .inr (.inl (hj ▸ nextInode_mem h))

/-- The reuse counter changes only in an inode that was free. -/
theorem popInode_spends : Edits (fun j f => j = σ.nextInode ∧ (f = .reuse → σ.i_head ≠ [])) σ σ.popInode := by
  by_cases h : σ.i_head = []
  · unfold FS.popInode
    rw [if_pos h]
    exact .refl σ
  · exact popInode_edits.mono fun _ _ hf => ⟨hf.1, fun _ => h⟩

theorem newFile_spends : Edits σ.Spends σ (σ.newFile d k name) := by
  have hpop : Edits (fun j f => j = σ.nextInode ∧ (f = .reuse → σ.i_head ≠ [])) σ
      (((σ.setName (σ.slotBlock d k) (slotOffset k) name).popInode).setInum (σ.slotBlock d k) (slotOffset k) σ.nextInode) :=
    popInode_spends (σ := σ.setName (σ.slotBlock d k) (slotOffset k) name)
  refine (hpop.trans (.setInode fun f hf => ?_)).mono fun j f h => spends_of_taken h.1 h.2
  have hfields : ∀ f', f' ≠ .reuse → f' ≠ f := by
    rintro f' hne rfl
    exact hf ⟨rfl, fun he => absurd he hne⟩
  rw [Inode.get_set, if_neg (hfields _ (by decide)), Inode.get_set, if_neg (hfields _ (by decide)), Inode.get_set,
    if_neg (hfields _ (by decide))]

theorem newDir_spends : Edits σ.Spends σ (σ.newDir d k name) := by
  have hpop : Edits (fun j f => j = σ.nextInode ∧ (f = .reuse → σ.i_head ≠ [])) σ
      ((σ.popInode.editBlock (σ.slotBlock d k) (FS.nameEntry (slotOffset k) name σ.nextInode)).markBlock (σ.slotBlock d k)) :=
    popInode_spends
  have hfields : ∀ f : Field, ¬ (σ.nextInode = σ.nextInode ∧ (f = .reuse → σ.i_head ≠ [])) → ∀ f', f' ≠ .reuse → f' ≠ f := by
    rintro f hf f' hne rfl
    exact hf ⟨rfl, fun he => absurd he hne⟩
  refine Edits.mono (T := fun j f => j = σ.nextInode ∧ (f = .reuse → σ.i_head ≠ [])) ?_ fun j f h => spends_of_taken h.1 h.2
  refine hpop.trans (.trans (show Edits _ _ (FS.initDir _ σ.nextInode) from .setInode fun f hf => ?_) (.setInode fun f hf => ?_))
  · rw [Inode.get_set, if_neg (hfields f hf _ (by decide)), Inode.get_set, if_neg (hfields f hf _ (by decide)), Inode.get_set,
      if_neg (hfields f hf _ (by decide))]
  · rw [Inode.get_set, if_neg (hfields f hf _ (by decide))]
    rfl

/-! ## Requests -/

/-- `rmdir` puts inode `i` on the free list. -/
def Request.Frees (σ : FS) (i : Int) : Request → Prop
  | .rmdir (some path) cur => 0 < cur ∧ σ.resolve (from_root path cur).1 (from_root path cur).2 = i ∧ σ.size i ≤ 64
  | _ => False

theorem Placed.spends (h : Placed σ d name k σ₁) : Edits σ.Spends σ σ₁ := h.edits.mono fun _ _ hf => spends_of_grows hf.2

theorem Placed.spends_after (h : Placed σ d name k σ₁) (h' : Edits σ₁.Spends σ₁ σ') : Edits σ.Spends σ σ' :=
  h.spends.trans (h'.mono fun _ _ hf => by rwa [FS.Spends, h.i_head] at hf)

theorem Edits.spends {T : Int → Field → Prop} (h : Edits T σ σ') (hT : ∀ j f, T j f → f ≠ .type ∧ f ≠ .reuse) :
    Edits σ.Spends σ σ' := h.mono fun j f hf => .inl (hT j f hf)

theorem Effect.spends (h : Effect σ req ret σ') : Edits σ.Spends σ σ' := by
  have hsize : ∀ {σ : FS} (i : Int), Edits σ.Spends σ (σ.truncate i) := fun i => truncate_edits.spends fun _ _ hf => by
    rw [hf.2]
    decide
  cases h with
  | looked => exact .refl σ
  | refused => exact .refl σ
  | create h =>
    cases h with
    | error => exact .refl σ
    | done _ _ _ _ h =>
      cases h with
      | taken => exact .refl σ
      | truncated => exact hsize _
      | made hp => exact hp.spends_after newFile_spends
      | linked hp => exact hp.spends
  | write h => exact h.edits.mono fun _ _ hf => spends_of_grows hf.2
  | link h =>
    cases h with
    | error => exact .refl σ
    | done _ _ _ _ _ _ _ hp =>
      refine hp.spends_after (addLinks_edits.spends fun _ _ hf => ?_)
      rw [hf.2]
      decide
  | unlink h =>
    cases h with
    | error => exact .refl σ
    | done =>
      refine removeEntry_edits.spends fun _ _ hf => ?_
      rcases hf.2 with he | he <;> rw [he] <;> decide
  | mkdir h =>
    cases h with
    | error => exact .refl σ
    | done _ _ _ _ hp => exact hp.spends_after newDir_spends
  | rmdir h =>
    cases h with
    | error => exact .refl σ
    | done _ _ _ _ _ _ hp =>
      exact (hsize _).trans (hp.edits.mono fun _ _ hf => spends_of_grows hf.2)

/-- At most the first inode is taken off the list, or one is put on it. -/
theorem Effect.i_head (h : Effect σ req ret σ') (hw : WellFormed g σ) (hsafe : req.Safe g σ) :
    σ'.i_head = σ.i_head ∨ σ'.i_head = σ.i_head.tail ∨ ∃ i, req.Frees σ i ∧ σ'.i_head = i :: σ.i_head := by
  cases h with
  | looked => exact .inl rfl
  | refused => exact .inl rfl
  | create h =>
    cases h with
    | error => exact .inl rfl
    | done _ _ _ _ h =>
      cases h with
      | taken => exact .inl rfl
      | truncated => exact .inl rfl
      | made hp => exact .inr (.inl (by rw [newFile_i_head, hp.i_head]))
      | linked hp => exact .inl hp.i_head
  | write h => exact .inl (h.kept hw hsafe).i_head
  | link h =>
    cases h with
    | error => exact .inl rfl
    | done _ _ _ _ _ _ _ hp => exact .inl hp.i_head
  | unlink h =>
    cases h with
    | error => exact .inl rfl
    | done => exact .inl removeEntry_i_head
  | mkdir h =>
    cases h with
    | error => exact .inl rfl
    | done _ _ _ _ hp => exact .inr (.inl (by rw [newDir_i_head, hp.i_head]))
  | rmdir h =>
    cases h with
    | error => exact .inl rfl
    | done hcur hres hsize _ _ _ hp => exact .inr (.inr ⟨_, ⟨hcur, hres, hsize⟩, hp.i_head⟩)

/-- Only `rmdir` frees an inode. -/
theorem Effect.frees (h : Effect σ req ret σ') (hw : WellFormed g σ) (hsafe : req.Safe g σ) (hi : i ∈ σ'.i_head) : i ∈ σ.i_head ∨ req.Frees σ i := by
  rcases h.i_head hw hsafe with hsame | htail | ⟨j, hfrees, hcons⟩
  · exact .inl (hsame ▸ hi)
  · exact .inl (List.mem_of_mem_tail (htail ▸ hi))
  · rw [hcons] at hi
    rcases List.mem_cons.mp hi with rfl | hi
    · exact .inr hfrees
    · exact .inl hi

/-- An inode that is not free keeps its reuse counter. -/
theorem Effect.reuse (h : Effect σ req ret σ') (hi : i ∉ σ.i_head) : (σ'.inode i).reuse = (σ.inode i).reuse := by
  refine h.spends i .reuse ?_
  rintro (⟨_, hne⟩ | hm | ⟨_, hne⟩)
  · exact hne rfl
  · exact hi hm
  · exact hne rfl

/-- An inode that is not free keeps its type. -/
theorem Effect.type (h : Effect σ req ret σ') (hi : i ∉ σ.i_head) (h0 : i ≠ 0) : (σ'.inode i).type = (σ.inode i).type := by
  refine h.spends i .type ?_
  rintro (⟨hne, _⟩ | hm | ⟨hz, _⟩)
  · exact hne rfl
  · exact hi hm
  · exact h0 hz

end Yfs
