import Yfs.FirstMatch
import Yfs.Mkdir

/-! # Adding a name

`create`, `link` and `mkdir` bind one name, if it is shorter than the field for it.
-/

namespace Yfs

variable {g : Geometry} {σ σ₁ τ : FS} {sv sv' : Server} {v w : View} {X : Set Int} {d i cur ret : Int} {k : Nat} {c m n path old new : CStr}
  {resp : Response}

/-- `n` leads to `i` in `d` and every other name where it led, and the bytes of `d` outside the slot of `n` are as they were. -/
structure NamesOnly (v w : View) (d : Int) (n : CStr) (i : Int) : Prop where
  found : w.lookup d n = i
  others : ∀ m, IsName m → m ≠ n → w.lookup d m = v.lookup d m
  bytes : ∃ k, w.findSlot d n = some k ∧ ∀ p : Nat, p < v.size d → p / 32 ≠ k → w.byte d p = v.byte d p

/-! ## Bytes -/

/-- The two bytes of an inode number and the bytes of a name are the bytes of a slot. -/
theorem byte_of_slot {p : Nat} (hinum : w.slotInum d (p / 32) = v.slotInum d (p / 32)) (hname : w.slotName d (p / 32) = v.slotName d (p / 32)) :
    w.byte d p = v.byte d p := by
  have hblock : p / 512 = p / 32 / 16 := by omega
  rw [View.byte, View.byte, hblock]
  by_cases hlow : p % 32 < 2
  · exact Mem.get_of_loadInt hinum (Nat.mod_lt _ (by decide)) (by simp only [slotOffset]; omega)
  · exact Mem.get_of_load hname (by simp only [slotOffset, DIRNAMELEN]; omega)

/-! ## Names that fit -/

theorem take_eq_of_short (hlen : n.length < DIRNAMELEN) (h : m.take DIRNAMELEN = n.take DIRNAMELEN) : m = n := by
  rw [List.take_of_length_le (Nat.le_of_lt hlen)] at h
  have hm := congrArg List.length h
  rw [List.length_take] at hm
  rwa [List.take_of_length_le (by omega)] at h

section

variable (h : SlotPut g v w X d k i (strncpy DIRNAMELEN n)) (hn : IsName n)
include h hn

/-- A name that is neither the old one of the slot, which was free, nor its new one. -/
theorem SlotPut.lookup_other (hfree : k < v.slots d → v.slotInum d k = 0) (hm : IsName m) (hne : m.take DIRNAMELEN ≠ n.take DIRNAMELEN)
    (hv : v.FirstLive d (m.take DIRNAMELEN)) (hw : w.FirstLive d (m.take DIRNAMELEN)) : w.lookup d m = v.lookup d m := by
  have hs := h.slots
  have hle := h.le
  have hslot : ∀ l, l < w.slots d → cname (w.slotName d l) = m.take DIRNAMELEN → l < v.slots d ∧ l ≠ k := by
    intro l hl hname
    have hlk : l ≠ k := by
      rintro rfl
      rw [h.name, cname_strncpy hn.string] at hname
      exact hne hname.symm
    exact ⟨by omega, hlk⟩
  by_cases hex : ∃ l, l < v.slots d ∧ v.slotInum d l ≠ 0 ∧ cname (v.slotName d l) = m.take DIRNAMELEN
  · obtain ⟨l, hl, hlive, hname⟩ := hex
    have hlk : l ≠ k := fun he => hlive (he ▸ hfree (he ▸ hl))
    obtain ⟨hinum, hsame⟩ := h.others l hl hlk
    rw [lookup_live hv hm.plain hm.string hl hlive hname, ← hinum]
    exact lookup_live hw hm.plain hm.string (by omega) (hinum ▸ hlive) (hsame ▸ hname)
  · have hdead : ∀ l, l < v.slots d → cname (v.slotName d l) = m.take DIRNAMELEN → v.slotInum d l = 0 := by
      intro l hl hname
      by_contra hlive
      exact hex ⟨l, hl, hlive, hname⟩
    rw [lookup_dead hm.plain hm.string hdead]
    refine lookup_dead hm.plain hm.string fun l hl hname => ?_
    obtain ⟨hlt, hlk⟩ := hslot l hl hname
    obtain ⟨hinum, hsame⟩ := h.others l hlt hlk
    rw [hinum]
    exact hdead l hlt (hsame ▸ hname)

/-- A name that fits is all that is added. -/
theorem SlotPut.namesOnly (hfree : k < v.slots d → v.slotInum d k = 0) (hlen : n.length < DIRNAMELEN) (hi : i ≠ 0) (hsize : v.size d % 32 = 0)
    (hv : ∀ c, v.FirstLive d c) (hw : ∀ c, w.FirstLive d c) : NamesOnly v w d n i := by
  have hname : cname (w.slotName d k) = n.take DIRNAMELEN := by rw [h.name, cname_strncpy hn.string]
  have hslot := findSlot_live (hw _) hn.plain hn.string h.lt (h.inum ▸ hi) hname
  refine ⟨(lookup_some hslot).trans h.inum, fun m hm hne => ?_, k, hslot, fun p hp hk => ?_⟩
  · exact h.lookup_other hn hfree hm (fun he => hne (take_eq_of_short hlen he)) (hv _) (hw _)
  · obtain ⟨hinum, hsame⟩ := h.others (p / 32) (by rw [View.slots]; omega) hk
    exact byte_of_slot hinum hsame

end

/-! ## Names that do not fit -/

/-- Another name with the same first bytes. -/
theorem exists_longer (hn : IsName n) (hlong : DIRNAMELEN ≤ n.length) : ∃ m, IsName m ∧ m ≠ n ∧ m.take DIRNAMELEN = n.take DIRNAMELEN := by
  by_cases hlen : n.length = DIRNAMELEN
  · refine ⟨n ++ [65], ⟨?_, ?_, by simp⟩, by simp, List.take_append_of_le_length hlong⟩
    · simpa using hn.string
    · simpa [SLASH] using hn.plain
  · refine ⟨n.take DIRNAMELEN, ⟨fun hm => hn.string (List.mem_of_mem_take hm), fun hm => hn.plain (List.mem_of_mem_take hm), ?_⟩, ?_, ?_⟩
    · rw [Ne, List.take_eq_nil_iff, not_or]
      exact ⟨by decide, hn.nonempty⟩
    · intro he
      have := congrArg List.length he
      rw [List.length_take] at this
      omega
    · rw [List.take_take, Nat.min_self]

theorem lookup_congr_take (hm : IsName m) (hn : IsName n) (h : m.take DIRNAMELEN = n.take DIRNAMELEN) : v.lookup d m = v.lookup d n := by
  rw [View.lookup, View.lookup, findSlot_component hm.plain hm.string, findSlot_component hn.plain hn.string, h]

/-- The comparison stops where the field ends. -/
theorem not_namesOnly (hn : IsName n) (hlong : DIRNAMELEN ≤ n.length) (h0 : v.lookup d n = 0) (hi : i ≠ 0) : ¬ NamesOnly v w d n i := by
  intro h
  obtain ⟨m, hm, hne, htake⟩ := exists_longer hn hlong
  have hkept := h.others m hm hne
  rw [lookup_congr_take hm hn htake, lookup_congr_take hm hn htake, h0, h.found] at hkept
  exact hi hkept

/-! ## The handlers -/

/-- A free slot of `d` holds the name now, and first matches are still live. -/
structure NameBound (g : Geometry) (v w : View) (d : Int) (n : CStr) (i : Int) : Prop where
  slot : ∃ k X, SlotPut g v w X d k i (strncpy DIRNAMELEN n) ∧ (k < v.slots d → v.slotInum d k = 0)
  first : ∀ c, v.FirstLive d c → w.FirstLive d c

theorem NameBound.then_same {u : View} (h : NameBound g v w d n i) (hs : ∀ e, g.isInode e → w.Same u e) (hd : g.isInode d) : NameBound g v u d n i := by
  obtain ⟨k, X, hput, hfree⟩ := h.slot
  exact ⟨⟨k, X, hput.then_same (hs d hd) fun e he _ _ => hs e he, hfree⟩, fun c hf => (hs d hd).firstLive (h.first c hf)⟩

theorem Placed.nameBound (hp : Placed σ d n k σ₁) (hw : WellFormed g σ) (hd : g.isInode d) (hdir : σ.isDir d) (hroom : σ.RoomFor g d n)
    (hn : IsName n) (h0 : σ₁.slotInum d k = 0) (hput : SlotPut g σ₁.toView τ.toView X d k i (strncpy DIRNAMELEN n)) :
    NameBound g σ.toView τ.toView d n i := by
  refine ⟨⟨k, X, (hp.put hw hd hdir hroom).trans hput, fun hlt => ?_⟩, fun c hf => hp.firstLive hn.plain hn.string hw hd hdir hroom hput hf⟩
  cases hp with
  | found => exact h0
  | free => exact h0
  | new => exact absurd hlt (lt_irrefl _)

/-- Names count up to the bytes of the field. -/
theorem namesOnly_iff (hn : IsName n) (hsize : v.size d % 32 = 0) (hv : ∀ c, v.FirstLive d c) (hnone : v.lookup d n = 0) (hi : i ≠ 0)
    (hbound : n.length < DIRNAMELEN → NameBound g v w d n i) : NamesOnly v w d n i ↔ n.length < DIRNAMELEN := by
  constructor
  · intro h
    by_contra hlong
    exact not_namesOnly hn (Nat.le_of_not_lt hlong) hnone hi h
  · intro hlen
    obtain ⟨k, X, hput, hfree⟩ := (hbound hlen).slot
    exact hput.namesOnly hn hfree hlen hi hsize hv fun c => (hbound hlen).first c (hv c)

section

variable (h : OnDisk g sv) (hshort : 8 * g.table ≤ 2 ^ 15) (hcur : g.isInode cur) (hd : g.isInode d) (hdir : sv.fs.isDir d)
  (hname : IsName n) (hroom : sv.fs.RoomFor g d n) (hfirst : ∀ c, sv.fs.FirstLive d c)
include h hshort hcur hd hdir hname hroom hfirst

theorem link_names (hsup : sv.fs.superDir (adj_path_i new (adj_path_i old cur).2).1 (adj_path_i new (adj_path_i old cur).2).2 = (d, n))
    (hserve : serve sv (.link (some old) (some new) cur) = some (resp, sv')) (hret : resp.ret ≠ ERROR) :
    NamesOnly sv.fs.toView sv'.fs.toView d n (sv.fs.resolve (adj_path_i old cur).1 (adj_path_i old cur).2) ↔ n.length < DIRNAMELEN := by
  have hw := h.wellFormed
  have hsafe : Request.Safe g sv.fs (.link (some old) (some new) cur) := by
    refine ⟨hcur, fun e name hsup' _ => ?_⟩
    obtain ⟨rfl, rfl⟩ := Prod.mk.inj (hsup.symm.trans hsup')
    exact hroom
  obtain ⟨_, σ', heff, hw', hagree⟩ := h.toSound.step hshort hsafe hserve
  generalize resp.ret = r at heff hret
  cases heff with
  | refused => exact absurd rfl hret
  | looked hl => cases hl
  | link hl =>
    cases hl with
    | error => exact absurd rfl hret
    | @done i e k name σ₁ _ hi h0 _ hsup' _ _ hp hfree =>
      obtain ⟨rfl, rfl⟩ := Prod.mk.inj (hsup.symm.trans hsup')
      have hi' : g.isInode i := hi ▸ hw.resolve_isInode (adj_path_i_isInode old g.isInode_root hcur)
      rw [hi]
      refine namesOnly_iff (g := g) hname (hw.sizes d hd hdir).2 hfirst (hp.lookup_zero hfree) h0 fun _ => ?_
      have hat := hp.slotAt hw hd hdir hroom
      have hbound := hp.nameBound hw hd hdir hroom hname hfree (hat.newLink_put (X := ∅) (wrap_inode hshort hi'))
      exact (hbound.then_same (fun e _ => addLinks_same (i := i) (n := 1)) hd).then_same (fun e he => hagree.same hw' he) hd

variable (hinode : sv.fs.i_head ≠ []) (hpast : ∀ i ∈ sv.fs.i_head, ROOTINODE < i) (hused : d ∉ sv.fs.i_head)
include hinode hpast hused

omit h hshort hcur hd hdir hname hroom hfirst in
theorem nextInode_fresh : sv.fs.nextInode ≠ 0 ∧ sv.fs.nextInode ≠ d := by
  have hmem : sv.fs.nextInode ∈ sv.fs.i_head := nextInode_mem hinode
  have := hpast _ hmem
  simp only [ROOTINODE] at this
  exact ⟨by omega, fun he => hused (he ▸ hmem)⟩

theorem create_names (hsup : sv.fs.superDir path cur = (d, n)) (hnone : sv.fs.lookup d n = 0)
    (hserve : serve sv (.create (some path) cur) = some (resp, sv')) (hret : resp.ret ≠ ERROR) :
    NamesOnly sv.fs.toView sv'.fs.toView d n resp.ret ↔ n.length < DIRNAMELEN := by
  have hw := h.wellFormed
  obtain ⟨h0, hne⟩ := nextInode_fresh hinode hpast hused
  have hsafe : Request.Safe g sv.fs (.create (some path) cur) := by
    refine ⟨hcur, fun e name hsup' _ => ?_⟩
    obtain ⟨rfl, rfl⟩ := Prod.mk.inj (hsup.symm.trans hsup')
    exact hroom
  obtain ⟨_, σ', heff, hw', hagree⟩ := h.toSound.step hshort hsafe hserve
  generalize resp.ret = r at heff hret ⊢
  cases heff with
  | refused => exact absurd rfl hret
  | looked hl => cases hl
  | create hl =>
    cases hl with
    | error => exact absurd rfl hret
    | done _ hsup' _ _ hmade =>
      obtain ⟨rfl, rfl⟩ := Prod.mk.inj (hsup.symm.trans hsup')
      cases hmade with
      | taken _ _ ha => exact absurd rfl ha
      | linked _ _ ha => exact absurd rfl ha
      | truncated hk hlive => exact absurd (lookup_some hk ▸ hnone) hlive
      | @made k σ₁ hp hfree =>
        have hat := hp.slotAt hw hd hdir hroom
        have hbound := hp.nameBound hw hd hdir hroom hname hfree (hat.newFile_put hshort (hp.nextInode ▸ hne))
        refine namesOnly_iff (g := g) hname (hw.sizes d hd hdir).2 hfirst hnone (hp.nextInode ▸ h0) fun _ => ?_
        exact hbound.then_same (fun e he => hagree.same hw' he) hd

theorem mkdir_names (hpos : 0 < cur) (htable : ∀ b ∈ sv.fs.b_head, ¬ g.isTable b) (hblocks : 2 ≤ sv.fs.b_head.length)
    (hsup : sv.fs.superDir (from_root path cur).1 (from_root path cur).2 = (d, n))
    (hserve : serve sv (.mkdir (some path) cur) = some (resp, sv')) (hret : resp.ret ≠ ERROR) :
    NamesOnly sv.fs.toView sv'.fs.toView d n sv.fs.nextInode ↔ n.length < DIRNAMELEN := by
  have hw := h.wellFormed
  have hne := isInode_ne_error hd
  obtain ⟨h0, hnew⟩ := nextInode_fresh hinode hpast hused
  obtain ⟨σ', hrel, hdid⟩ := mkdir_does h hcur hpos hsup hne hroom htable hblocks hserve
  have hnone : sv.fs.lookup d n = 0 := by
    by_contra hlive
    exact hret (hdid.1 hlive).1
  obtain ⟨k, σ₁, hp, hfree, _, rfl⟩ := (hdid.2 hnone).2 hdir
  refine namesOnly_iff (g := g) hname (hw.sizes d hd hdir).2 hfirst hnone h0 fun hlen => ?_
  obtain ⟨hblock, hdata⟩ := hp.next_block hblocks htable
  have hat := hp.slotAt hw hd hdir hroom
  have hput := hat.newDir_put hshort (hp.nextInode ▸ hnew) (Nat.le_of_lt hlen) hblock hdata
  rw [hp.nextInode] at hput
  have hw' := hat.newDir hshort (Nat.le_of_lt hlen) hblock hdata
  exact (hp.nameBound hw hd hdir hroom hname hfree hput).then_same (fun e he => hrel.agrees.same hw' he) hd

end

end Yfs
