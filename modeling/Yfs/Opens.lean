import Yfs.Atomic
import Yfs.Bindings
import Yfs.Descriptors
import Yfs.Entries
import Yfs.Header

/-! # `Open` and `Create` that fail -/

namespace Yfs

variable {ι : Type} [DecidableEq ι] {g : Geometry} {σ τ : FS} {sv : Server} {w w' : World ι} {id : ι} {call : Call} {resp : Response}
  {c : Client} {d i b cur : Int} {k off : Nat} {name path : CStr}

/-! ## Creating without room -/

/-- The slot that `get_dir_entry` returns without making one. -/
def View.slotFor (v : View) (d : Int) (name : CStr) : Option Nat := (v.findSlot d name).or (v.freeSlot d)

/-- What `get_create_file` does for a new inode, whether or not there is room. -/
inductive CreatedAny (σ : FS) (d : Int) (name : CStr) : Int → FS → Prop where
  | truncated {k : Nat} (hk : σ.slotFor d name = some k) (h0 : σ.slotInum d k ≠ 0) :
    CreatedAny σ d name (σ.slotInum d k) (((σ.truncate (σ.slotInum d k)).markInode (σ.slotInum d k)).markBlock (σ.slotBlock d k))
  | made {k : Nat} (hk : σ.slotFor d name = some k) (h0 : σ.slotInum d k = 0) : CreatedAny σ d name σ.nextInode (σ.newFile d k name)
  | grown {off : Nat} {b : Int} {σ₁ : FS} (hk : σ.slotFor d name = none) (hi_head : σ₁.i_head = σ.i_head)
    (hsize : σ₁.size d = Mem.wrap 4 (σ.size d + DIRENTSIZE)) : CreatedAny σ d name σ₁.nextInode
      (((((σ₁.setName b off name).popInode).setInum b off σ₁.nextInode).initFile σ₁.nextInode).markBlock b)

theorem get_create_file_any_spec {Q : Int → FS → Prop} (hw : WellFormed g σ) (hd : g.isInode d) (hdir : σ.isDir d)
    (hgrow : ¬ g.isTable σ.next ∧ (12 ≤ σ.blocks d → ¬ g.isTable (σ.indirect d)))
    (hQ : ∀ r σ', CreatedAny σ d name r σ' → Q r σ') : wp g (get_create_file name d (-1)) σ Q := by
  have hm := hw.mapped d hd
  have hplace : wp g (get_dir_entry name d true) σ fun r σ₁ => ∃ (off : Nat) (b : Int), r = ((off : Int), b) ∧ ¬ g.isTable b ∧
      g.isInode σ₁.nextInode ∧ (∀ i, (σ₁.block b).inum off = i → i ≠ 0 → g.isInode i ∧ σ₁.Mapped g i ∧
        Q i (((σ₁.truncate i).markInode i).markBlock b)) ∧
      ((σ₁.block b).inum off = 0 → Q σ₁.nextInode (((((σ₁.setName b off name).popInode).setInum b off σ₁.nextInode).initFile
        σ₁.nextInode).markBlock b)) := by
    have hslot : ∀ k, k < σ.slots d → σ.slotFor d name = some k → (∀ i, σ.slotInum d k = i → i ≠ 0 → g.isInode i ∧ σ.Mapped g i ∧
        Q i (((σ.truncate i).markInode i).markBlock (σ.slotBlock d k))) ∧ (σ.slotInum d k = 0 → Q σ.nextInode (σ.newFile d k name)) := by
      refine fun k hlt hk => ⟨?_, fun h0 => hQ _ _ (.made hk h0)⟩
      rintro _ rfl h0
      have hi := hw.entries d k hd hdir hlt
      exact ⟨hi, hw.mapped _ hi, hQ _ _ (.truncated hk h0)⟩
    refine get_dir_entry_any_spec hw hd (fun _ _ => hgrow) (fun k hk => ?_) (fun hnone k hk => ?_) fun hfull off b σ₁ htab h0 hi_head _ hsize => ?_
    · have hlt := findSlot_lt hk
      exact ⟨_, _, rfl, hm.data _ (covers_of_slot hlt), hw.nextInode, hslot k hlt (by rw [View.slotFor, hk, Option.some_or])⟩
    · have hlt := freeSlot_lt hk
      exact ⟨_, _, rfl, hm.data _ (covers_of_slot hlt), hw.nextInode, hslot k hlt (by rw [View.slotFor, hnone, Option.none_or, hk])⟩
    · refine ⟨off, b, rfl, htab, ?_, fun i hi hne => absurd (hi.symm.trans h0) hne, fun _ => hQ _ _ (.grown ?_ hi_head hsize)⟩
      · rw [FS.nextInode, hi_head]
        exact hw.nextInode
      · rw [View.slotFor, hfull.1, hfull.2, Option.none_or]
  unfold get_create_file
  simp only [wp_bind]
  refine wp_mono ?_ hplace
  rintro _ σ₁ ⟨off, b, rfl, htab, hi, hlive, hmade⟩
  simp only [wp_get_b, wp_readBlock, wp_bind, wp_ite, wp_ret, Prog.pure_eq, wp_dirtyBlock, Int.toNat_natCast]
  refine fun _ _ id => ⟨htab, fun h0 => ⟨fun hn => absurd rfl hn, fun _ => ?_⟩, fun h0 => make_file_new_spec hi htab (hmade (not_not.mp h0))⟩
  obtain ⟨hi', hm', hQ'⟩ := hlive _ rfl h0
  exact zero_file_spec hi' hm' hQ'

/-! ## What `create` leaves as it was -/

/-- What is in slot `k` is what `create` leaves there: an empty file or, without a free inode, what it writes. -/
def FS.SlotKept (σ : FS) (d : Int) (name : CStr) (k : Nat) : Prop :=
  σ.slotInum d k ≠ 0 ∧ σ.size (σ.slotInum d k) = 0 ∨
    σ.slotInum d k = 0 ∧ σ.i_head = [] ∧ σ.slotName d k = strncpy DIRNAMELEN name ∧ σ.type 0 = INODE_REGULAR ∧ σ.size 0 = 0 ∧ σ.nlink 0 = 1

/-- `create` refuses the path, or finds a slot that it leaves as it is. -/
def FS.CreateKeeps (σ : FS) (path : CStr) (cur : Int) : Prop :=
  isPathnameValid path = true → 0 < cur → ∀ d name, σ.superDir path cur = (d, name) → d ≠ ERROR → σ.isDir d →
    ∃ k, σ.slotFor d name = some k ∧ σ.SlotKept d name k

theorem truncate_unchanged (hi : g.isInode i) : σ.Unchanged g (((σ.truncate i).markInode i).markBlock b) ↔ σ.size i = 0 := by
  have hinode : (((σ.truncate i).markInode i).markBlock b).inode i = (σ.inode i).set .size 0 := View.setInode_inode_self
  constructor
  · intro h
    have := congrArg (Inode.get · .size) (hinode.symm.trans (h.inode i hi))
    rw [View.size, Inode.size, ← this]
    simp [Field.width, Mem.wrap_int]
  · intro h0
    have hblocks : σ.fileBlocks i = [] := by
      rw [View.fileBlocks, View.blocks, h0]
      rfl
    refine ⟨rfl, ?_, fun j _ => ?_, fun _ _ => rfl⟩
    · have : (((σ.truncate i).markInode i).markBlock b).b_head = (σ.fileBlocks i).reverse ++ σ.b_head := rfl
      rw [this, hblocks]
      rfl
    · by_cases hj : j = i
      · subst hj
        rw [hinode, ← h0]
        exact Inode.set_get _ _
      · exact View.setInode_inode_ne hj

theorem i_head_tail {l : List Int} (h : l.tail = l) : l = [] := by
  cases l with
  | nil => rfl
  | cons a l => exact absurd h List.ne_cons_self

theorem newFile_unchanged (hw : WellFormed g σ) (hd : g.isInode d) (hk : k < σ.slots d) (h0 : σ.slotInum d k = 0) :
    σ.Unchanged g (σ.newFile d k name) ↔
      σ.i_head = [] ∧ σ.slotName d k = strncpy DIRNAMELEN name ∧ σ.type 0 = INODE_REGULAR ∧ σ.size 0 = 0 ∧ σ.nlink 0 = 1 := by
  have hdata := (hw.mapped d hd).data _ (covers_of_slot hk)
  have hpop : σ.i_head = [] → σ.nextInode = 0 ∧ ∀ τ : FS, τ.i_head = σ.i_head → τ.popInode = τ := by
    intro hnil
    refine ⟨by rw [FS.nextInode, hnil]; rfl, fun τ hτ => ?_⟩
    rw [FS.popInode, if_pos (hτ.trans hnil)]
  have hnew : σ.i_head = [] → σ.newFile d k name = (((σ.setName (σ.slotBlock d k) (slotOffset k) name).setInum (σ.slotBlock d k)
      (slotOffset k) 0).initFile 0).markBlock (σ.slotBlock d k) := by
    intro hnil
    obtain ⟨hnext, hpop⟩ := hpop hnil
    rw [FS.newFile, hnext, hpop (σ.setName (σ.slotBlock d k) (slotOffset k) name) rfl]
  have hblock : σ.i_head = [] → (σ.newFile d k name).block (σ.slotBlock d k) =
      Block.setInum ((σ.block (σ.slotBlock d k)).store (slotOffset k + 2) (strncpy DIRNAMELEN name)) (slotOffset k) 0 := by
    intro hnil
    rw [hnew hnil]
    have hset : ((σ.setName (σ.slotBlock d k) (slotOffset k) name).setInum (σ.slotBlock d k) (slotOffset k) 0).block (σ.slotBlock d k) =
      Block.setInum ((σ.setName (σ.slotBlock d k) (slotOffset k) name).block (σ.slotBlock d k)) (slotOffset k) 0 := editSlot_self
    exact hset.trans (congrArg (Block.setInum · (slotOffset k) 0) editSlot_self)
  have hinode : σ.i_head = [] → (σ.newFile d k name).inode 0 = (((σ.inode 0).set .type INODE_REGULAR).set .size 0).set .nlink 1 := by
    intro hnil
    rw [hnew hnil]
    exact View.setInode_inode_self
  constructor
  · intro h
    have hnil : σ.i_head = [] := by
      have htail := h.i_head
      rw [newFile_i_head] at htail
      exact i_head_tail htail
    have hname := congrArg (Block.name · (slotOffset k)) ((hblock hnil).symm.trans (h.block _ hdata))
    rw [Block.name_setInum _ _ _ _ (by omega), name_store _ (length_strncpy _ _)] at hname
    have hfield : ∀ f, ((((σ.inode 0).set .type INODE_REGULAR).set .size 0).set .nlink 1).get f = (σ.inode 0).get f := fun f =>
      congrArg (Inode.get · f) ((hinode hnil).symm.trans (h.inode 0 g.isInode_zero))
    refine ⟨hnil, hname.symm, ?_, ?_, ?_⟩
    · rw [View.type, Inode.type, ← hfield]
      simp [Field.width, INODE_REGULAR, Mem.wrap_short]
    · rw [View.size, Inode.size, ← hfield]
      simp [Field.width, Mem.wrap_int]
    · rw [View.nlink, Inode.nlink, ← hfield]
      simp [Field.width, Mem.wrap_short]
  · rintro ⟨hnil, hname, htype, hsize, hnlink⟩
    refine ⟨by rw [newFile_i_head, hnil]; rfl, by rw [hnew hnil]; rfl, fun j _ => ?_, fun c _ => ?_⟩
    · by_cases hj : j = 0
      · subst hj
        rw [hinode hnil, Inode.set_of_get htype, Inode.set_of_get hsize, Inode.set_of_get hnlink]
      · rw [hnew hnil]
        exact View.setInode_inode_ne hj
    · by_cases hc : c = σ.slotBlock d k
      · subst hc
        have hsame : (σ.block (σ.slotBlock d k)).store (slotOffset k + 2) (strncpy DIRNAMELEN name) = σ.block (σ.slotBlock d k) := by
          rw [← hname]
          exact Mem.store_load _ _ _
        rw [hblock hnil, hsame, ← h0]
        exact Mem.storeInt_loadInt _ _ _
      · rw [hnew hnil]
        exact (View.setBlock_block_ne hc).trans (View.setBlock_block_ne hc)

theorem CreatedAny.unchanged {r : Int} (h : CreatedAny σ d name r τ) (hw : WellFormed g σ) (hd : g.isInode d) (hdir : σ.isDir d)
    (hd0 : d ≠ 0) : g.isInode r ∧ (σ.Unchanged g τ ↔ ∃ k, σ.slotFor d name = some k ∧ σ.SlotKept d name k) := by
  have hlt : ∀ {k}, σ.slotFor d name = some k → k < σ.slots d := by
    intro k hk
    rcases Option.or_eq_some_iff.mp hk with hk | ⟨_, hk⟩
    · exact findSlot_lt hk
    · exact freeSlot_lt hk
  cases h with
  | @truncated k hk h0 =>
    have hi := hw.entries d k hd hdir (hlt hk)
    refine ⟨hi, (truncate_unchanged hi).trans ⟨fun hsize => ⟨k, hk, .inl ⟨h0, hsize⟩⟩, ?_⟩⟩
    rintro ⟨l, hl, hkept⟩
    obtain rfl := Option.some.inj (hk.symm.trans hl)
    rcases hkept with ⟨_, hsize⟩ | ⟨hzero, _⟩
    · exact hsize
    · exact absurd hzero h0
  | @made k hk h0 =>
    refine ⟨hw.nextInode, (newFile_unchanged hw hd (hlt hk) h0).trans ⟨fun hkept => ⟨k, hk, .inr ⟨h0, hkept⟩⟩, ?_⟩⟩
    rintro ⟨l, hl, hkept⟩
    obtain rfl := Option.some.inj (hk.symm.trans hl)
    rcases hkept with ⟨hne, _⟩ | ⟨_, hkept⟩
    · exact absurd h0 hne
    · exact hkept
  | @grown off b σ₁ hk hi_head hsize =>
    have hi : g.isInode σ₁.nextInode := by
      rw [FS.nextInode, hi_head]
      exact hw.nextInode
    have hnone : ¬ ∃ l, σ.slotFor d name = some l ∧ σ.SlotKept d name l := by
      rintro ⟨l, hl, _⟩
      rw [hk] at hl
      cases hl
    refine ⟨hi, fun h => ?_, fun hkept => absurd hkept hnone⟩
    have hnil : σ.i_head = [] := by
      have htail : (σ₁.setName b off name).popInode.i_head = σ.i_head := h.i_head
      rw [popInode_i_head] at htail
      exact i_head_tail ((congrArg List.tail hi_head).symm.trans htail)
    have hnext : σ₁.nextInode = 0 := by
      rw [FS.nextInode, hi_head, hnil]
      rfl
    have hinode : σ₁.inode d = σ.inode d := by
      rw [← h.inode d hd, hnext]
      refine Eq.trans ?_ (View.setInode_inode_ne hd0).symm
      exact (popInode_inode_ne (σ := σ₁.setName b off name) (by rwa [show (σ₁.setName b off name).nextInode = 0 from hnext])).symm
    have hle := hw.size_le hd
    have hpos := (hw.sizes d hd hdir).1
    rw [View.size, hinode, Mem.wrap_int _ (by simp only [DIRENTSIZE]; omega) (by simp only [DIRENTSIZE]; omega)] at hsize
    simp only [View.size, DIRENTSIZE] at hsize
    omega

/-- What `create` does, whether or not there is room. -/
theorem create_keeps_spec (hw : WellFormed g σ) (hcur : g.isInode cur) (htable : ¬ g.isTable σ.next)
    (hind : ∀ d, g.isInode d → σ.isDir d → 12 ≤ σ.blocks d → ¬ g.isTable (σ.indirect d)) :
    wp g (handle_create (some path) cur (-1)) σ fun r τ => (r = ERROR → σ.Unchanged g τ) ∧ (σ.Unchanged g τ ↔ σ.CreateKeeps path cur) := by
  refine handle_create_finds hw g.isInode_root hcur (fun hstop => ⟨fun _ => .refl g σ, fun _ hvalid hpos => ?_, fun _ => .refl g σ⟩)
    fun d name hvalid hpos hsup => ⟨fun hmiss => ⟨fun _ => .refl g σ, fun _ _ _ d' name' hsup' hne hdir => ?_, fun _ => .refl g σ⟩, fun hne hd hdir => ?_⟩
  · rcases hstop with hbad | hle
    · rw [hvalid] at hbad
      cases hbad
    · omega
  · obtain ⟨rfl, rfl⟩ := Prod.mk.inj (hsup.symm.trans hsup')
    rcases hmiss with he | hfile
    · exact absurd he hne
    · exact absurd hdir hfile
  · refine get_create_file_any_spec hw hd hdir ⟨htable, hind d hd hdir⟩ fun r τ hc => ?_
    obtain ⟨hr, hiff⟩ := hc.unchanged hw hd hdir (superDir_ne_zero hsup hpos)
    refine ⟨fun he => absurd he (isInode_ne_error hr), hiff.trans ⟨fun hkept _ _ d' name' hsup' _ _ => ?_, fun hkept => ?_⟩⟩
    · obtain ⟨rfl, rfl⟩ := Prod.mk.inj (hsup.symm.trans hsup')
      exact hkept
    · exact hkept hvalid hpos d name hsup hne hdir

/-! ## The calls -/

/-- `fd` was the first unused descriptor, and `c'` differs in it only. -/
structure Client.Took (c : Client) (fd : Nat) (c' : Client) : Prop where
  unused : c.opened_ft[fd]? = some none
  lowest : ∀ n, n < fd → c.opened_ft[n]? ≠ some none
  only : ∃ file, c' = { c with opened_ft := c.opened_ft.set fd (some file) }

/-- What a call of `Open` or `Create` that returns `ret` is for. -/
structure World.Opens (g : Geometry) (w : World ι) (id : ι) (ret : Int) (w' : World ι) : Prop where
  failed : ret = ERROR → w.server.fs.Unchanged g w'.server.fs ∧ w'.clients = w.clients
  opened : ret ≠ ERROR → ∃ (fd : Nat) (c' : Client), ret = fd ∧ (w.clients id).Took fd c' ∧ w'.clients = Function.update w.clients id c'

theorem install_took (i : Int) : none ∉ c.opened_ft ∧ c.install i = (ERROR, c) ∨
    none ∈ c.opened_ft ∧ ∃ fd : Nat, (c.install i).1 = fd ∧ c.Took fd (c.install i).2 := by
  unfold Client.install
  split
  case h_1 hnone =>
    refine .inl ⟨fun hm => ?_, rfl⟩
    have := List.findIdx?_eq_none_iff.mp hnone none hm
    cases this
  case h_2 fd hfd =>
    obtain ⟨hlt, hnone, hbefore⟩ := List.findIdx?_eq_some_iff_getElem.mp hfd
    have hfree := Option.isNone_iff_eq_none.mp hnone
    refine .inr ⟨hfree ▸ List.getElem_mem hlt, fd, rfl, ?_, fun n hn he => ?_, _, rfl⟩
    · rw [List.getElem?_eq_getElem hlt, hfree]
    · obtain ⟨hn', he⟩ := List.getElem?_eq_some_iff.mp he
      exact hbefore n hn (by rw [he]; rfl)

/-- What the client does with the answer `i_num`. -/
theorem answer_opens {sv : Server} {i_num : Int} {r : Int × Client} (hr : r = if i_num = ERROR then (ERROR, w.clients id) else (w.clients id).install i_num)
    (herror : i_num = ERROR → w.server.fs.Unchanged g sv.fs) :
    w.Opens g id r.1 { server := sv, clients := Function.update w.clients id r.2 } ↔ (none ∉ (w.clients id).opened_ft → w.server.fs.Unchanged g sv.fs) := by
  by_cases hi : i_num = ERROR
  · rw [if_pos hi] at hr
    subst hr
    refine ⟨fun _ _ => herror hi, fun _ => ⟨fun _ => ⟨herror hi, Function.update_eq_self _ _⟩, fun hne => absurd rfl hne⟩⟩
  · rw [if_neg hi] at hr
    rcases install_took (c := w.clients id) i_num with ⟨hfull, he⟩ | ⟨hfree, fd, hret, htook⟩
    · rw [he] at hr
      subst hr
      exact ⟨fun h _ => (h.failed rfl).1, fun h => ⟨fun _ => ⟨h hfull, Function.update_eq_self _ _⟩, fun hne => absurd rfl hne⟩⟩
    · rw [← hr] at hret htook
      refine ⟨fun _ hfull => absurd hfree hfull, fun _ => ⟨fun he => ?_, fun _ => ⟨fd, r.2, hret, htook, rfl⟩⟩⟩
      rw [hret, ERROR] at he
      omega

section

variable (hsound : Sound g w.server) (hcur : g.isInode (w.clients id).cur_i)
include hsound hcur

/-- `Open` never changes the server. -/
theorem open_opens {path : Option CStr} (hs : w.step id (.open path) = some (resp, w')) : w.Opens g id resp.ret w' := by
  rcases World.step_cases hs with ⟨c, htalk, rfl⟩ | ⟨req, k, r, sv, htalk, hserve, rfl, rfl⟩
  · exact (answer_opens (send_path_m_returns htalk) fun _ => .refl g _).mpr fun _ => .refl g _
  · obtain ⟨rfl, rfl⟩ := send_path_m_sends htalk
    have hsafe : Request.Safe g w.server.fs (.open path (w.clients id).cur_i) := hcur
    obtain ⟨σ', heff, hrel⟩ := serve_spec hsound.caches.rel hsound.wellFormed g.isInode_root hsafe hserve
    obtain rfl := heff.of_looks rfl
    exact (answer_opens rfl fun _ => hrel.agrees.unchanged).mpr fun _ => hrel.agrees.unchanged

end

end Yfs
