import Yfs.Requests.Keep

/-! # The handlers do what the specifications say -/

namespace Yfs

variable {g : Geometry} {σ : FS} {d i b : Int} {k off id : Nat} {name : CStr}

theorem not_negative (hi : g.isInode i) : ¬ (-8 < i ∧ i < 0) := fun h => absurd hi.1 (by omega)

theorem get_next_inum_free_spec {Q : Int → FS → Prop} (hi : g.isInode σ.nextInode) (hQ : Q σ.nextInode σ.popInode) :
    wp g get_next_inum_free σ Q := by
  unfold get_next_inum_free
  simp only [wp_bind, wp_globals]
  rw [FS.popInode, FS.nextInode] at hQ
  rw [FS.nextInode] at hi
  cases h : σ.i_head with
  | nil =>
    rw [h, if_pos rfl] at hQ
    simpa using hQ
  | cons i rest =>
    rw [h] at hQ hi
    rw [if_neg (by simp)] at hQ
    simp only [wp_bind, wp_get_i, modifyInode, wp_readInode, wp_writeInode, wp_dirtyInode, wp_setGlobals, wp_ret,
      Prog.pure_eq]
    exact fun _ => ⟨hi, fun _ => hQ⟩

theorem make_file_new_spec {Q : Int → FS → Prop} (hi : g.isInode σ.nextInode) (hb : ¬ g.isTable b)
    (hQ : Q σ.nextInode ((((σ.setName b off name).popInode).setInum b off σ.nextInode).initFile σ.nextInode)) :
    wp g (make_file name ⟨b, id⟩ off (-1)) σ Q := by
  unfold make_file
  simp only [wp_bind, modifyBlock, wp_readBlock, wp_writeBlock, wp_ite, wp_get_i, modifyInode, wp_readInode,
    wp_writeInode, wp_dirtyInode, wp_ret, Prog.pure_eq]
  refine ⟨hb, hb, fun _ => get_next_inum_free_spec hi ⟨hb, hb, fun _ => ⟨hi, fun _ => ?_⟩⟩, fun h => absurd trivial h⟩
  exact hQ

theorem make_file_old_spec {Q : Int → FS → Prop} (hi : i ≠ -1) (hb : ¬ g.isTable b)
    (hQ : Q i ((σ.setName b off name).setInum b off i)) : wp g (make_file name ⟨b, id⟩ off i) σ Q := by
  unfold make_file
  simp only [wp_bind, modifyBlock, wp_readBlock, wp_writeBlock, wp_ite, wp_ret, Prog.pure_eq]
  exact ⟨hb, hb, fun h => absurd h hi, fun _ => ⟨hb, hb, hQ⟩⟩

theorem zero_file_spec {Q : Unit → FS → Prop} (hi : g.isInode i) (hm : σ.Mapped g i)
    (hQ : Q () ((σ.truncate i).markInode i)) : wp g (zero_file i) σ Q := by
  unfold zero_file
  simp only [wp_bind, wp_get_i]
  refine fun _ => ⟨hi, fun _ => clear_file_spec hm ?_⟩
  simpa using hQ

theorem get_create_file_spec {Q : Int → FS → Prop} {new : Int} (hw : WellFormed g σ) (hd : g.isInode d)
    (hdir : σ.isDir d) (hroom : σ.RoomFor g d name) (hQ : ∀ r σ', CreatedIn σ d name new r σ' → Q r σ') :
    wp g (get_create_file name d new) σ Q := by
  unfold get_create_file
  simp only [wp_bind]
  refine room_spec hw hd hdir hroom fun k σ₁ hp => ?_
  have hw₁ := hp.wellFormed hw hd hdir hroom
  have hlt := hp.lt hw hd hdir hroom
  have htab := hp.not_table hw hd hdir hroom
  simp only [wp_bind, wp_get_b, wp_readBlock, wp_ite, wp_ret, Prog.pure_eq, wp_dirtyBlock, Int.toNat_natCast]
  refine fun _ _ id => ⟨htab, fun h0 => ⟨fun hn => ?_, fun hn => ?_⟩, fun h0 => ?_⟩
  · obtain ⟨rfl, hk⟩ := hp.live h0 hw hd hdir hroom
    exact hQ _ _ (.taken hk h0 hn)
  · obtain ⟨rfl, hk⟩ := hp.live h0 hw hd hdir hroom
    have hi := hw.entries d k hd hdir hlt
    exact zero_file_spec hi (hw.mapped _ hi) (hQ _ _ (.truncated hk h0 (not_not.mp hn)))
  · have h0 : σ₁.slotInum d k = 0 := not_not.mp h0
    by_cases hn : new = -1
    · subst hn
      exact make_file_new_spec hw₁.nextInode htab (hQ _ _ (.made hp h0 rfl))
    · exact make_file_old_spec hn htab (hQ _ _ (.linked hp h0 hn))

/-! ## Paths -/

section

variable {path : CStr} {cur : Int}

theorem WellFormed.superDir_isInode (hw : WellFormed g σ) (hroot : g.isInode ROOTINODE) (hcur : g.isInode cur)
    (h : σ.superDir path cur = (d, name)) : d = ERROR ∨ g.isInode d := by
  have hstart := from_root_isInode path hroot hcur
  rw [View.superDir] at h
  split at h
  · exact Or.inl (congrArg Prod.fst h).symm
  · simp only at h
    split at h
    · obtain ⟨rfl, _⟩ := Prod.mk.inj h
      exact Or.inr hstart
    · split at h
      · exact Or.inl (congrArg Prod.fst h).symm
      · obtain ⟨rfl, _⟩ := Prod.mk.inj h
        exact Or.inr (hw.walk_isInode hstart)

theorem adj_path_i_isInode (path : CStr) (hroot : g.isInode ROOTINODE) (hcur : g.isInode cur) :
    g.isInode (adj_path_i path cur).2 := by
  unfold adj_path_i
  split
  · exact hroot
  · exact hcur

/-- What `handle_create` does until it has found the directory. -/
theorem handle_create_finds {Q : Int → FS → Prop} {new : Int} (hw : WellFormed g σ) (hroot : g.isInode ROOTINODE)
    (hcur : g.isInode cur) (hstop : isPathnameValid path = false ∨ cur ≤ 0 → Q ERROR σ)
    (hgo : ∀ d name, isPathnameValid path = true → 0 < cur → σ.superDir path cur = (d, name) →
      (d = ERROR ∨ ¬ σ.isDir d → Q ERROR σ) ∧ (d ≠ ERROR → g.isInode d → σ.isDir d → wp g (get_create_file name d new) σ Q)) :
    wp g (handle_create (some path) cur new) σ Q := by
  unfold handle_create
  simp only [wp_ite, wp_bind, wp_ret, Prog.pure_eq]
  refine ⟨hstop, fun hvalid => get_super_dir_spec hw hcur hroot ?_⟩
  obtain ⟨hok, hpos⟩ := not_or.mp hvalid
  rcases hsup : σ.superDir path cur with ⟨d, name⟩
  obtain ⟨hmiss, hmade⟩ := hgo d name (Bool.eq_true_of_not_eq_false hok) (Int.not_le.mp hpos) hsup
  simp only [wp_get_i, wp_readInode]
  refine ⟨fun he => hmiss (.inl he), fun he hn => ?_⟩
  have hd := (hw.superDir_isInode hroot hcur hsup).resolve_left he
  refine ⟨hd, fun _ => ⟨fun hfile => hmiss (.inr hfile), fun hdir => ?_⟩⟩
  refine wp_mono (fun r σ' hr => ?_) (hmade he hd (not_not.mp hdir))
  exact ⟨fun he => he ▸ hr, fun _ => hr⟩

/-- What `handle_create` does in the directory that it finds. -/
theorem handle_create_cases {Q : Int → FS → Prop} {new : Int} (hw : WellFormed g σ) (hroot : g.isInode ROOTINODE)
    (hcur : g.isInode cur) (hroom : ∀ d name, σ.superDir path cur = (d, name) → d ≠ ERROR → σ.isDir d → σ.RoomFor g d name)
    (hstop : isPathnameValid path = false ∨ cur ≤ 0 → Q ERROR σ)
    (hgo : ∀ d name, isPathnameValid path = true → 0 < cur → σ.superDir path cur = (d, name) →
      (d = ERROR ∨ ¬ σ.isDir d → Q ERROR σ) ∧ (d ≠ ERROR → σ.isDir d → ∀ r σ', CreatedIn σ d name new r σ' → Q r σ')) :
    wp g (handle_create (some path) cur new) σ Q := by
  refine handle_create_finds hw hroot hcur hstop fun d name hvalid hpos hsup => ?_
  obtain ⟨hmiss, hmade⟩ := hgo d name hvalid hpos hsup
  exact ⟨hmiss, fun hne hd hdir => get_create_file_spec hw hd hdir (hroom d name hsup hne hdir) (hmade hne hdir)⟩

theorem handle_create_spec {Q : Int → FS → Prop} {new : Int} (hw : WellFormed g σ) (hroot : g.isInode ROOTINODE)
    (hcur : g.isInode cur)
    (hroom : ∀ d name, σ.superDir path cur = (d, name) → σ.isDir d → σ.RoomFor g d name)
    (hQ : ∀ r σ', Created σ path cur new r σ' → Q r σ') : wp g (handle_create (some path) cur new) σ Q :=
  handle_create_cases hw hroot hcur (fun d name hsup _ => hroom d name hsup) (fun _ => hQ _ _ .error) fun _ _ _ hpos hsup =>
    ⟨fun _ => hQ _ _ .error, fun hne hdir _ _ hc => hQ _ _ (.done hpos hsup hne hdir hc)⟩

/-- What `handle_link` does with what it finds. -/
theorem handle_link_cases {Q : Int → FS → Prop} {old_name new_name p q : CStr} {s c : Int} (hw : WellFormed g σ)
    (hroot : g.isInode ROOTINODE) (hcur : g.isInode cur) (hp : adj_path_i old_name cur = (p, s)) (hq : adj_path_i new_name s = (q, c))
    (hroom : ∀ d name, σ.superDir q c = (d, name) → d ≠ ERROR → σ.isDir d → σ.RoomFor g d name)
    (hstop : cur ≤ 0 → Q ERROR σ)
    (hgo : ∀ i, 0 < cur → σ.resolve p s = i → (i = 0 ∨ σ.isDir i → Q ERROR σ) ∧ (i ≠ 0 → ¬ σ.isDir i →
      (isPathnameValid q = false ∨ c ≤ 0 → Q ERROR σ) ∧ ∀ d name, isPathnameValid q = true → 0 < c → σ.superDir q c = (d, name) →
        (d = ERROR ∨ ¬ σ.isDir d ∨ σ.lookup d name ≠ 0 → Q ERROR σ) ∧ (d ≠ ERROR → σ.isDir d → ∀ k σ₁, Placed σ d name k σ₁ →
          σ₁.slotInum d k = 0 → Q 0 (((σ₁.newLink d k name i).addLinks i 1).markInode i)))) :
    wp g (handle_link (some old_name) (some new_name) cur) σ Q := by
  have hold := adj_path_i_isInode old_name hroot hcur
  rw [hp] at hold
  have hnew := adj_path_i_isInode new_name hroot hold
  rw [hq] at hnew
  have hi : g.isInode (σ.resolve p s) := hw.resolve_isInode hold
  unfold handle_link
  simp only [wp_ite, wp_bind, wp_ret, Prog.pure_eq, wp_get_i, wp_readInode, hp, hq]
  refine ⟨hstop, fun hle => get_path_i_num_spec hw hold fun _ => ⟨hi, fun _ => ?_⟩⟩
  obtain ⟨hmiss, hfile⟩ := hgo _ (Int.not_le.mp hle) rfl
  refine ⟨fun h => hmiss h.symm, fun h => ?_⟩
  obtain ⟨hn, h0⟩ := not_or.mp h
  obtain ⟨hbad, hsup⟩ := hfile h0 hn
  have hne : σ.resolve p s ≠ -1 := by
    have := hi.1
    omega
  refine handle_create_cases hw hroot hnew hroom (fun hstop => ⟨fun _ => hbad hstop, fun hr => absurd rfl hr⟩) fun d name hvalid hpos hd => ?_
  obtain ⟨hrefuse, hmake⟩ := hsup d name hvalid hpos hd
  refine ⟨fun hmiss => ⟨fun _ => hrefuse (hmiss.imp_right .inl), fun hr => absurd rfl hr⟩, fun hd hdir r σ' hc => ?_⟩
  simp only [modifyInode, wp_bind, wp_readInode, wp_writeInode, wp_dirtyInode]
  cases hc with
  | taken hk h0 =>
    have hlive : σ.lookup d name ≠ 0 := by rwa [lookup_some hk]
    exact ⟨fun _ => hrefuse (.inr (.inr hlive)), fun hr => absurd rfl hr⟩
  | truncated _ _ hn => exact absurd hn hne
  | made _ _ hn => exact absurd hn hne
  | linked hp h0 => exact ⟨fun he => absurd he hne, fun _ => hmake hd hdir _ _ hp h0⟩

theorem handle_link_spec {Q : Int → FS → Prop} {old_name new_name : CStr} (hw : WellFormed g σ)
    (hroot : g.isInode ROOTINODE) (hcur : g.isInode cur)
    (hroom : ∀ d name, σ.superDir (adj_path_i new_name (adj_path_i old_name cur).2).1
      (adj_path_i new_name (adj_path_i old_name cur).2).2 = (d, name) → σ.isDir d → σ.RoomFor g d name)
    (hQ : ∀ r σ', Linked σ old_name new_name cur r σ' → Q r σ') :
    wp g (handle_link (some old_name) (some new_name) cur) σ Q :=
  handle_link_cases hw hroot hcur rfl rfl (fun d name hsup _ => hroom d name hsup) (fun _ => hQ _ _ .error) fun _ hpos hi =>
    ⟨fun _ => hQ _ _ .error, fun h0 hfile => ⟨fun _ => hQ _ _ .error, fun _ _ _ _ hsup =>
      ⟨fun _ => hQ _ _ .error, fun hne hdir _ _ hp hfree => hQ _ _ (.done hpos hi h0 hfile hsup hne hdir hp hfree)⟩⟩⟩

theorem addLinks_mapped {n : Int} (hm : σ.Mapped g i) : (σ.addLinks i n).Mapped g i := by
  have hsize : (σ.addLinks i n).size i = σ.size i := by simp [FS.addLinks]
  have hcov : ∀ m, (σ.addLinks i n).covers i m ↔ σ.covers i m := fun m => View.covers_congr hsize
  have hptr : ∀ m, (σ.addLinks i n).pointer i m = σ.pointer i m :=
    fun m => View.pointer_setInode_self (by simp) (by simp)
  refine ⟨fun m hc => hm.index m ((hcov m).mp hc), fun m hc => ?_, fun m hc => ?_, fun hc => ?_⟩
  · rw [hptr]; exact hm.nonzero m ((hcov m).mp hc)
  · rw [hptr]; exact hm.data m ((hcov m).mp hc)
  · rw [show (σ.addLinks i n).indirect i = σ.indirect i by simp [FS.addLinks]]
    exact hm.indirect ((hcov 12).mp hc)

/-- What `handle_unlink` does in the directory that it finds. -/
theorem handle_unlink_cases {Q : Int → FS → Prop} (hw : WellFormed g σ) (hroot : g.isInode ROOTINODE) (hcur : g.isInode cur)
    (hstop : cur ≤ 0 → Q ERROR σ)
    (hgo : ∀ d name, 0 < cur → σ.superDir path cur = (d, name) → d ≠ ERROR →
      (¬ σ.isDir d ∨ σ.findSlot d name = none → Q ERROR σ) ∧
      ∀ k, σ.isDir d → σ.findSlot d name = some k → Q 0 (σ.removeEntry d k)) :
    wp g (handle_unlink (some path) cur) σ Q := by
  unfold handle_unlink
  simp only [wp_ite, wp_bind, wp_ret, Prog.pure_eq]
  refine ⟨hstop, fun hle => get_super_dir_spec hw hcur hroot ?_⟩
  rcases hsup : σ.superDir path cur with ⟨d, name⟩
  simp only [wp_get_i, wp_readInode]
  intro hn
  have hne : d ≠ ERROR := fun he => hn (by rw [he]; decide)
  obtain ⟨hmiss, hfound⟩ := hgo d name (Int.not_le.mp hle) hsup hne
  have hd := (hw.superDir_isInode hroot hcur hsup).resolve_left hne
  refine ⟨hd, fun _ => ⟨fun hfile => hmiss (.inl hfile), fun hdir => ?_⟩⟩
  have hdir : σ.isDir d := not_not.mp hdir
  have hm := hw.mapped d hd
  refine get_dir_entry_spec hd hm (fun k hk => ?_) fun hnone => ⟨fun _ => hmiss (.inr hnone), fun h => absurd rfl h⟩
  have hlt := findSlot_lt hk
  have htab := hm.data _ (covers_of_slot hlt)
  have hi := hw.entries d k hd hdir hlt
  simp only [wp_get_b, wp_readBlock, modifyInode, wp_bind, wp_readInode, wp_writeInode, wp_dirtyInode, modifyBlock,
    wp_writeBlock, wp_dirtyBlock, Int.toNat_natCast]
  refine ⟨fun h => absurd h (by omega), fun _ _ _ id => ⟨htab, fun _ => ⟨hi, fun id' => ?_⟩⟩⟩
  have hQ := hfound k hdir hk
  rw [FS.removeEntry] at hQ
  rw [Int.sub_eq_add_neg]
  constructor
  · intro (h0 : (σ.addLinks (σ.slotInum d k) (-1)).nlink (σ.slotInum d k) = 0)
    rw [if_pos h0] at hQ
    exact clear_file_spec (addLinks_mapped (hw.mapped _ hi)) ⟨htab, htab, hQ⟩
  · intro (h0 : ¬ (σ.addLinks (σ.slotInum d k) (-1)).nlink (σ.slotInum d k) = 0)
    rw [if_neg h0] at hQ
    exact ⟨htab, htab, hQ⟩

theorem handle_unlink_spec {Q : Int → FS → Prop} (hw : WellFormed g σ) (hroot : g.isInode ROOTINODE)
    (hcur : g.isInode cur) (hQ : ∀ r σ', Unlinked σ path cur r σ' → Q r σ') :
    wp g (handle_unlink (some path) cur) σ Q :=
  handle_unlink_cases hw hroot hcur (fun _ => hQ _ _ .error) fun _ _ hpos hsup hne =>
    ⟨fun _ => hQ _ _ .error, fun _ hdir hk => hQ _ _ (.done hpos hsup hne hdir hk)⟩

/-- There is no inode -1. -/
theorem get_dir_entry_error {Q : Int × Int → FS → Prop} {make : Bool} : wp g (get_dir_entry name ERROR make) σ Q := by
  unfold get_dir_entry
  simp only [wp_bind, wp_get_i]
  exact fun h => absurd (by decide) h

/-- What `handle_mkdir` does with the parent that it finds, directory or not. -/
theorem handle_mkdir_cases {Q : Int → FS → Prop} (hw : WellFormed g σ) (hroot : g.isInode ROOTINODE) (hcur : g.isInode cur)
    (hroom : ∀ d name, σ.superDir (from_root path cur).1 (from_root path cur).2 = (d, name) → d ≠ ERROR → σ.RoomFor g d name)
    (hdata : ∀ d name k σ', σ.superDir (from_root path cur).1 (from_root path cur).2 = (d, name) → σ.isDir d →
      Placed σ d name k σ' → σ'.slotInum d k = 0 → ¬ g.isTable σ'.next)
    (hfile : ∀ d name, σ.superDir (from_root path cur).1 (from_root path cur).2 = (d, name) → d ≠ ERROR → ¬ σ.isDir d →
      ∀ b ∈ σ.b_head, ¬ g.isTable b)
    (hstop : cur ≤ 0 → Q ERROR σ)
    (hgo : ∀ d name, 0 < cur → σ.superDir (from_root path cur).1 (from_root path cur).2 = (d, name) → d ≠ ERROR →
      (σ.lookup d name ≠ 0 → Q ERROR σ) ∧
      (σ.isDir d → ∀ k σ₁, Placed σ d name k σ₁ → σ₁.slotInum d k = 0 → slotOffset k + 2 + name.length ≤ 512 → Q 0 (σ₁.newDir d k name)) ∧
      (¬ σ.isDir d → σ.lookup d name = 0 → ∀ σ', Q 0 σ')) : wp g (handle_mkdir (some path) cur) σ Q := by
  unfold handle_mkdir
  simp only [wp_ite, wp_bind, wp_ret, Prog.pure_eq]
  refine ⟨hstop, fun hle => get_super_dir_spec hw (from_root_isInode path hroot hcur) hroot ?_⟩
  rcases hsup : σ.superDir (from_root path cur).1 (from_root path cur).2 with ⟨d, name⟩
  by_cases hne : d = ERROR
  · subst hne
    exact get_dir_entry_error
  have hd := (hw.superDir_isInode hroot (from_root_isInode path hroot hcur) hsup).resolve_left hne
  have hm := hw.mapped d hd
  obtain ⟨hlive, hdirs, hfiles⟩ := hgo d name (Int.not_le.mp hle) hsup hne
  have hplace : wp g (get_dir_entry name d true) σ fun r σ₁ => ∃ (off : Nat) (b : Int), r = ((off : Int), b) ∧ ¬ g.isTable b ∧
      g.isInode σ₁.nextInode ∧ ((σ₁.block b).inum off ≠ 0 → Q ERROR σ₁) ∧ ((σ₁.block b).inum off = 0 → ¬ g.isTable σ₁.next ∧
        (off + 2 + name.length ≤ 512 → Q 0 ((((σ₁.popInode.editBlock b (FS.nameEntry off name σ₁.nextInode)).markBlock b).initDir
          σ₁.nextInode).headBlock σ₁.nextInode d))) := by
    by_cases hdir : σ.isDir d
    · refine room_spec hw hd hdir (hroom d name hsup hne) fun k σ₁ hp => ?_
      have hw₁ := hp.wellFormed hw hd hdir (hroom d name hsup hne)
      refine ⟨slotOffset k, _, rfl, hp.not_table hw hd hdir (hroom d name hsup hne), hw₁.nextInode, fun h0 => ?_, fun h0 => ?_⟩
      · obtain ⟨rfl, hk⟩ := hp.live h0 hw hd hdir (hroom d name hsup hne)
        exact hlive (lookup_some hk ▸ h0)
      · exact ⟨hdata d name k σ₁ hsup hdir hp h0, hdirs hdir k σ₁ hp h0⟩
    · have hnext : ∀ σ₁ : FS, σ₁.b_head ⊆ σ.b_head → ¬ g.isTable σ₁.next := by
        intro σ₁ hsub
        unfold FS.next
        cases hb : σ₁.b_head with
        | nil => exact fun ht => absurd ht.1 (by decide)
        | cons b l => exact hfile d name hsup hne hdir b (hsub (hb ▸ List.mem_cons_self))
      refine get_dir_entry_any_spec hw hd (fun hfull h0 => ?_) (fun k hk => ?_) (fun hnone k hk => ?_) fun hfull off b σ₁ hb h0 hi_head hb_head _ => ?_
      · have hg := hroom d name hsup hne hfull h0
        exact ⟨hg.data, fun h12 => (hg.indirect h12).data⟩
      · exact ⟨slotOffset k, _, rfl, hm.data _ (covers_of_slot (findSlot_lt hk)), hw.nextInode, fun h0 => hlive (lookup_some hk ▸ h0),
          fun h0 => ⟨hnext σ (List.Subset.refl _), fun _ => hfiles hdir (lookup_some hk ▸ h0) _⟩⟩
      · exact ⟨slotOffset k, _, rfl, hm.data _ (covers_of_slot (freeSlot_lt hk)), hw.nextInode, fun h0 => absurd (freeSlot_inum hk) h0,
          fun _ => ⟨hnext σ (List.Subset.refl _), fun _ => hfiles hdir (lookup_none hnone) _⟩⟩
      · refine ⟨off, b, rfl, hb, ?_, fun hne0 => absurd h0 hne0, fun _ => ⟨hnext σ₁ hb_head, fun _ => hfiles hdir (lookup_none hfull.1) _⟩⟩
        rw [FS.nextInode, hi_head]
        exact hw.nextInode
  refine wp_mono ?_ hplace
  rintro _ σ₁ ⟨off, b, rfl, htab, hi, hlive₁, hmade⟩
  simp only [wp_get_b, wp_readBlock, wp_dirtyBlock, Int.toNat_natCast]
  refine fun _ _ id => ⟨htab, hlive₁, fun h0 => get_next_inum_free_spec hi ?_⟩
  obtain ⟨hnext, hQ⟩ := hmade (not_not.mp h0)
  unfold update_dir_entry
  simp only [wp_ite, wp_undef, modifyBlock, wp_bind, wp_readBlock, wp_writeBlock, wp_get_i, modifyInode, wp_readInode,
    wp_writeInode, wp_dirtyInode]
  refine ⟨fun _ => trivial, fun hlen => ⟨htab, htab, fun _ _ _ _ => ⟨hi, fun _ => ?_⟩⟩⟩
  refine get_next_free_bnum_spec fun _ _ _ => ?_
  have hnext₁ : ¬ g.isTable σ₁.popInode.next := by rwa [FS.next, FS.popInode_b_head]
  exact ⟨hnext₁, hnext₁, hQ (Nat.not_lt.mp hlen)⟩

theorem handle_mkdir_spec {Q : Int → FS → Prop} (hw : WellFormed g σ) (hroot : g.isInode ROOTINODE)
    (hcur : g.isInode cur)
    (hroom : ∀ d name, σ.superDir (from_root path cur).1 (from_root path cur).2 = (d, name) → d ≠ ERROR →
      σ.isDir d ∧ σ.RoomFor g d name)
    (hdata : ∀ d name k σ', σ.superDir (from_root path cur).1 (from_root path cur).2 = (d, name) →
      Placed σ d name k σ' → σ'.slotInum d k = 0 → ¬ g.isTable σ'.next)
    (hQ : ∀ r σ', MadeDir σ path cur r σ' → Q r σ') : wp g (handle_mkdir (some path) cur) σ Q :=
  handle_mkdir_cases hw hroot hcur (fun d name hsup hne => (hroom d name hsup hne).2) (fun d name k σ' hsup _ => hdata d name k σ' hsup)
    (fun d name hsup hne hfile => absurd (hroom d name hsup hne).1 hfile) (fun _ => hQ _ _ .error) fun d name hpos hsup hne =>
      ⟨fun _ => hQ _ _ .error, fun hdir _ _ hp h0 hfits => hQ _ _ (.done hpos hsup hne hdir hp h0 hfits),
        fun hfile => absurd (hroom d name hsup hne).1 hfile⟩

theorem dropDir_emptied (hw : WellFormed g σ) (hi : g.isInode i) :
    Emptied σ (σ.dropDir i) i (σ.fileBlocks i).reverse := by
  have h := truncate_emptied hw hi
  exact ⟨h.inode, h.size, h.block, h.b_head, h.nodup, h.held⟩

theorem dropDir_wellFormed (hw : WellFormed g σ) (hi : g.isInode i) : WellFormed g (σ.dropDir i) := by
  refine (dropDir_emptied hw hi).wellFormed hw hi fun j hj => ?_
  rcases List.mem_cons.mp hj with rfl | hj
  · exact hi
  · exact hw.inodes j hj

theorem add_free_i_list_spec {Q : Unit → FS → Prop} (hQ : Q () (σ.pushInode i)) : wp g (add_free_i_list i) σ Q := by
  unfold add_free_i_list
  simpa [FS.pushInode] using hQ

/-- What `handle_rmdir` does before it looks for the entry. -/
theorem handle_rmdir_cases {Q : Int → FS → Prop} (hw : WellFormed g σ) (hroot : g.isInode ROOTINODE) (hcur : g.isInode cur)
    (hres : σ.resolve (from_root path cur).1 (from_root path cur).2 = i) (hstop : cur ≤ 0 → Q ERROR σ) (hfull : 64 < σ.size i → Q ERROR σ)
    (hplace : 0 < cur → σ.size i ≤ 64 → ∀ d name, (σ.dropDir i).superDir (from_root path cur).1 (from_root path cur).2 = (d, name) →
      d ≠ ERROR → wp g (get_dir_entry name d true) (σ.dropDir i) fun r σ₁ => ¬ g.isTable r.2 ∧
        Q 0 ((σ₁.setInum r.2 r.1.toNat 0).markBlock r.2)) : wp g (handle_rmdir (some path) cur) σ Q := by
  have hstart := from_root_isInode path hroot hcur
  unfold handle_rmdir
  simp only [wp_ite, wp_bind, wp_ret, Prog.pure_eq, wp_get_i, wp_readInode]
  refine ⟨hstop, fun hle => get_path_i_num_spec hw hstart ?_⟩
  have hi : g.isInode (σ.resolve (from_root path cur).1 (from_root path cur).2) := hw.resolve_isInode hstart
  rw [hres] at hi ⊢
  refine ⟨fun he => ?_, fun _ _ => ⟨hi, fun _ => ⟨fun hsize => hfull (by simpa [DIRENTSIZE, View.size] using hsize), fun hsize =>
    clear_file_spec (hw.mapped i hi) ?_⟩⟩⟩
  · have := hi.1
    rw [he, ERROR] at this
    omega
  have hsize : σ.size i ≤ 64 := by
    simp only [DIRENTSIZE, View.size] at hsize ⊢
    omega
  have hw₁ := dropDir_wellFormed hw hi
  refine add_free_i_list_spec ?_
  change wp g _ (σ.dropDir i) _
  refine get_super_dir_spec hw₁ hstart hroot ?_
  rcases hsup : (σ.dropDir i).superDir (from_root path cur).1 (from_root path cur).2 with ⟨d, name⟩
  by_cases hne : d = ERROR
  · subst hne
    exact get_dir_entry_error
  refine wp_mono ?_ (hplace (Int.not_le.mp hle) hsize d name hsup hne)
  rintro ⟨off, b⟩ σ₁ ⟨htab, hQ⟩
  simp only [wp_get_b, modifyBlock, wp_bind, wp_readBlock, wp_writeBlock, wp_dirtyBlock]
  exact fun _ _ _ => ⟨htab, htab, hQ⟩

theorem handle_rmdir_spec {Q : Int → FS → Prop} (hw : WellFormed g σ) (hroot : g.isInode ROOTINODE)
    (hcur : g.isInode cur)
    (hroom : ∀ i d name, σ.resolve (from_root path cur).1 (from_root path cur).2 = i → σ.size i ≤ 64 →
      (σ.dropDir i).superDir (from_root path cur).1 (from_root path cur).2 = (d, name) → d ≠ ERROR →
      (σ.dropDir i).isDir d ∧ (σ.dropDir i).RoomFor g d name)
    (hQ : ∀ r σ', RemovedDir σ path cur r σ' → Q r σ') : wp g (handle_rmdir (some path) cur) σ Q := by
  have hstart := from_root_isInode path hroot hcur
  have hi : g.isInode (σ.resolve (from_root path cur).1 (from_root path cur).2) := hw.resolve_isInode hstart
  have hw₁ := dropDir_wellFormed hw hi
  refine handle_rmdir_cases hw hroot hcur rfl (fun _ => hQ _ _ .error) (fun _ => hQ _ _ .error) fun hpos hsize d name hsup hne => ?_
  obtain ⟨hdir, hroom⟩ := hroom _ d name rfl hsize hsup hne
  have hd := (hw₁.superDir_isInode hroot hstart hsup).resolve_left hne
  exact room_spec hw₁ hd hdir hroom fun k σ₁ hp =>
    ⟨hp.not_table hw₁ hd hdir hroom, hQ _ _ (.done hpos rfl hsize hsup hne hdir hp)⟩

end

end Yfs
