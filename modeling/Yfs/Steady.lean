import Yfs.Recency
import Yfs.Run

/-! # Programs that use no stale pointer

`Steady` follows a program through the caches, whatever they hold: every item that it uses is still there.
-/

namespace Yfs

open Cache Queue

/-- The block that `get_b` has just returned is gone. -/
def Store.Loses (s : Store) (b : Int) : Prop :=
  match Cache.get_b b s with
  | none => False
  | some (p, t) => deref t.cache_b_queue p = none ∨ query_ht t.cache_b_queue b = none

/-- `evict_i` loses the block that it writes to. -/
def Store.EvictLoses (s : Store) : Prop :=
  match s.cache_i_queue with
  | [] => False
  | lru :: rest => s.cache_i_queue.length = INODE_CACHESIZE ∧
    Store.Loses { s with cache_i_queue := rest } (tableBlock lru.c_item_num)

/-- `get_i` loses the block that it reads or one that `evict_i` writes to. -/
def Store.GetLoses (s : Store) (i : Int) : Prop :=
  query_ht s.cache_i_queue i = none ∧ (s.EvictLoses ∨
    match makeRoom_i s with
    | none => False
    | some t => t.Loses (tableBlock i))

/-- The command uses an item that is gone. -/
def Cmd.Stale (sv : Server) : Cmd → Prop
  | .get_i i => sv.store.GetLoses i
  | .readBlock p | .writeBlock p _ => deref sv.store.cache_b_queue p = none
  | .readInode p | .writeInode p _ => deref sv.store.cache_i_queue p = none
  | .dirtyBlock b => query_ht sv.store.cache_b_queue b = none
  | .dirtyInode i => query_ht sv.store.cache_i_queue i = none
  | _ => False

/-- Some command of the run uses an item that is gone. -/
def UsesStale {α : Type} : Prog α → Server → Prop
  | .ret _, _ => False
  | .undef, _ => False
  | .call c k, sv => c.Stale sv ∨
    match exec sv c with
    | none => False
    | some (r, sv') => UsesStale (k r) sv'

instance (s : Store) (b : Int) : Decidable (s.Loses b) :=
  match h : Cache.get_b b s with
  | none => .isFalse fun hl => by rw [Store.Loses, h] at hl; exact hl
  | some (p, t) => decidable_of_iff (deref t.cache_b_queue p = none ∨ query_ht t.cache_b_queue b = none) (by
    rw [Store.Loses, h])

instance (s : Store) : Decidable s.EvictLoses :=
  match h : s.cache_i_queue with
  | [] => .isFalse fun hl => by rw [Store.EvictLoses, h] at hl; exact hl
  | lru :: rest => decidable_of_iff (s.cache_i_queue.length = INODE_CACHESIZE ∧
      Store.Loses { s with cache_i_queue := rest } (tableBlock lru.c_item_num)) (by rw [Store.EvictLoses, h])

instance (s : Store) (i : Int) : Decidable (s.GetLoses i) :=
  match h : makeRoom_i s with
  | none => decidable_of_iff (query_ht s.cache_i_queue i = none ∧ (s.EvictLoses ∨ False)) (by rw [Store.GetLoses, h])
  | some t => decidable_of_iff (query_ht s.cache_i_queue i = none ∧ (s.EvictLoses ∨ t.Loses (tableBlock i))) (by
    rw [Store.GetLoses, h])

instance (sv : Server) : (c : Cmd) → Decidable (c.Stale sv)
  | .get_b _ => .isFalse id
  | .get_i i => inferInstanceAs (Decidable (sv.store.GetLoses i))
  | .readBlock p => inferInstanceAs (Decidable (deref sv.store.cache_b_queue p = none))
  | .writeBlock p _ => inferInstanceAs (Decidable (deref sv.store.cache_b_queue p = none))
  | .readInode p => inferInstanceAs (Decidable (deref sv.store.cache_i_queue p = none))
  | .writeInode p _ => inferInstanceAs (Decidable (deref sv.store.cache_i_queue p = none))
  | .dirtyBlock b => inferInstanceAs (Decidable (query_ht sv.store.cache_b_queue b = none))
  | .dirtyInode i => inferInstanceAs (Decidable (query_ht sv.store.cache_i_queue i = none))
  | .globals => .isFalse id
  | .setGlobals _ => .isFalse id

instance instDecidableUsesStale {α : Type} : (p : Prog α) → (sv : Server) → Decidable (UsesStale p sv)
  | .ret _, _ => .isFalse id
  | .undef, _ => .isFalse id
  | .call c k, sv =>
    match h : exec sv c with
    | none => decidable_of_iff (c.Stale sv ∨ False) (by rw [UsesStale, h])
    | some (r, sv') =>
      haveI := instDecidableUsesStale (k r) sv'
      decidable_of_iff (c.Stale sv ∨ UsesStale (k r) sv') (by rw [UsesStale, h])

/-- No stale pointer, and `Q` if the program returns. -/
def Steady {α : Type} : Prog α → Server → (α → Server → Prop) → Prop
  | .ret a, sv, Q => Q a sv
  | .undef, _, _ => True
  | .call c k, sv, Q => ¬ c.Stale sv ∧ ∀ r sv', exec sv c = some (r, sv') → Steady (k r) sv' Q

namespace Steady

variable {α β : Type} {p : Prog α} {f : α → Prog β} {sv sv' : Server} {Q Q' : α → Server → Prop} {R : β → Server → Prop}

theorem not_stale (h : Steady p sv Q) : ¬ UsesStale p sv := by
  induction p generalizing sv with
  | ret a => exact id
  | undef => exact id
  | call c k ih =>
    intro hs
    rw [UsesStale] at hs
    rcases hs with hs | hs
    · exact h.1 hs
    · split at hs
      case h_1 => exact hs
      case h_2 r sv' he => exact ih r (h.2 r sv' he) hs

theorem result {a : α} (h : Steady p sv Q) (hr : run p sv = some (a, sv')) : Q a sv' := by
  induction p generalizing sv with
  | ret b =>
    obtain ⟨rfl, rfl⟩ := Prod.mk.inj (Option.some.inj hr)
    exact h
  | undef => cases hr
  | call c k ih =>
    unfold run at hr
    split at hr
    case h_1 => cases hr
    case h_2 r t he => exact ih r (h.2 r t he) hr

theorem mono (h : Steady p sv Q) (hq : ∀ a sv', Q a sv' → Q' a sv') : Steady p sv Q' := by
  induction p generalizing sv with
  | ret a => exact hq a sv h
  | undef => trivial
  | call c k ih => exact ⟨h.1, fun r sv' he => ih r (h.2 r sv' he)⟩

theorem bind_iff : Steady (p >>= f) sv R ↔ Steady p sv fun a sv' => Steady (f a) sv' R := by
  induction p generalizing sv with
  | ret a => rfl
  | undef => rfl
  | call c k ih =>
    refine and_congr_right fun _ => ?_
    exact forall_congr' fun r => forall_congr' fun sv' => forall_congr' fun _ => ih r

theorem bind (h : Steady p sv Q) (hf : ∀ a sv', Q a sv' → Steady (f a) sv' R) : Steady (p >>= f) sv R :=
  bind_iff.mpr (h.mono hf)

theorem ret {a : α} (h : Q a sv) : Steady (.ret a) sv Q := h

theorem undef : Steady (.undef : Prog α) sv Q := trivial

/-- What the program returns is what its weakest precondition says. -/
theorem and_wp {g : Geometry} {σ : FS} {Q₀ : α → FS → Prop} (h : Steady p sv Q) (hrel : Rel g sv σ) (hw : wp g p σ Q₀) :
    Steady p sv fun a sv' => Q a sv' ∧ ∃ σ', Q₀ a σ' ∧ Rel g sv' σ' := by
  induction p generalizing sv σ with
  | ret a => exact ⟨h, σ, (wp_ret a).mp hw, hrel⟩
  | undef => trivial
  | call c k ih =>
    refine ⟨h.1, fun r sv' he => ?_⟩
    obtain ⟨σ', hq, hrel'⟩ := exec_sound hrel (wp_call.mp hw) he
    exact ih r (h.2 r sv' he) hrel' hq

end Steady

/-! ## Commands -/

/-- A step that looks up at most the inodes `I` and the blocks `B`. -/
structure Moved (sv sv' : Server) (I B : Finset Int) : Prop where
  tidy : sv'.store.Tidy
  used : Used sv.store sv'.store I B

variable {sv sv₁ sv₂ : Server} {I I' B B' R : Finset Int} {p : Ptr} {b i : Int} {v : Block} {ino : Inode}

namespace Moved

theorem refl (h : sv.store.Tidy) : Moved sv sv I B := ⟨h, .refl _⟩

theorem trans (h : Moved sv sv₁ I B) (h' : Moved sv₁ sv₂ I' B') : Moved sv sv₂ (I ∪ I') (B ∪ B') :=
  ⟨h'.tidy, h.used.trans h'.used⟩

theorem mono (h : Moved sv sv₁ I B) (hI : I ⊆ I') (hB : B ⊆ B') : Moved sv sv₁ I' B' := ⟨h.tidy, h.used.mono hI hB⟩

/-- One more step. -/
theorem next (h : Moved sv sv₁ I B) (h' : Moved sv₁ sv₂ ∅ ∅) : Moved sv sv₂ I B :=
  (h.trans h').mono (by rw [Finset.union_empty]) (by rw [Finset.union_empty])

/-- Block lookups do not age inodes. -/
theorem live_i (h : Moved sv sv₁ ∅ B) (hp : Live sv.store.cache_i_queue p R) : Live sv₁.store.cache_i_queue p R := by
  have := h.used.inodes p R hp fun hn => absurd hn (by simp)
  rwa [Finset.union_empty] at this

theorem live_b (h : Moved sv sv₁ I B) (hp : Live sv.store.cache_b_queue p R) (hroom : (R ∪ B).card ≤ BLOCK_CACHESIZE - 1) :
    Live sv₁.store.cache_b_queue p (R ∪ B) := by
  refine h.used.blocks p R hp fun _ => ?_
  have := Finset.card_le_card (Finset.erase_subset p.num (R ∪ B))
  simp only [BLOCK_CACHESIZE] at hroom ⊢
  omega

theorem live_b_empty (h : Moved sv sv₁ I ∅) (hp : Live sv.store.cache_b_queue p R) : Live sv₁.store.cache_b_queue p R := by
  have := h.used.blocks p R hp fun hn => absurd hn (by simp)
  rwa [Finset.union_empty] at this

theorem setGlobals (h : sv.store.Tidy) (w : Globals) : Moved sv { sv with toGlobals := w } ∅ ∅ := ⟨h, .refl _⟩

end Moved

/-- Whatever a program does, the caches stay tidy. -/
theorem exec_tidy {c : Cmd} {r : c.Ret} (h : sv.store.Tidy) (he : exec sv c = some (r, sv₁)) : sv₁.store.Tidy := by
  cases c with
  | get_b b =>
    obtain ⟨⟨ptr, t⟩, hg, he⟩ := Option.map_eq_some_iff.mp he
    obtain ⟨rfl, rfl⟩ := Prod.mk.inj he
    exact (get_b_tidy h hg).1
  | get_i i =>
    obtain ⟨⟨ptr, t⟩, hg, he⟩ := Option.map_eq_some_iff.mp he
    obtain ⟨rfl, rfl⟩ := Prod.mk.inj he
    exact (get_i_used h hg).1
  | readBlock p =>
    obtain ⟨item, _, he⟩ := Option.map_eq_some_iff.mp he
    obtain ⟨rfl, rfl⟩ := Prod.mk.inj he
    exact h
  | readInode p =>
    obtain ⟨item, _, he⟩ := Option.map_eq_some_iff.mp he
    obtain ⟨rfl, rfl⟩ := Prod.mk.inj he
    exact h
  | writeBlock p v =>
    obtain ⟨q, hq, he⟩ := Option.map_eq_some_iff.mp he
    obtain ⟨rfl, rfl⟩ := Prod.mk.inj he
    exact ⟨h.blocks.of_nums (assign_nums hq), h.inodes, h.slots⟩
  | writeInode p v =>
    obtain ⟨q, hq, he⟩ := Option.map_eq_some_iff.mp he
    obtain ⟨rfl, rfl⟩ := Prod.mk.inj he
    exact h.of_nums (assign_nums hq)
  | dirtyBlock b =>
    obtain ⟨q, hq, he⟩ := Option.map_eq_some_iff.mp he
    obtain ⟨rfl, rfl⟩ := Prod.mk.inj he
    exact ⟨h.blocks.of_nums (markDirty_nums hq), h.inodes, h.slots⟩
  | dirtyInode i =>
    obtain ⟨q, hq, he⟩ := Option.map_eq_some_iff.mp he
    obtain ⟨rfl, rfl⟩ := Prod.mk.inj he
    exact h.of_nums (markDirty_nums hq)
  | globals =>
    obtain ⟨rfl, rfl⟩ := Prod.mk.inj (Option.some.inj he)
    exact h
  | setGlobals v =>
    obtain ⟨rfl, rfl⟩ := Prod.mk.inj (Option.some.inj he)
    exact h

theorem run_tidy {α : Type} {prog : Prog α} {a : α} (h : sv.store.Tidy) (hr : run prog sv = some (a, sv₁)) :
    sv₁.store.Tidy := by
  induction prog generalizing sv with
  | ret b =>
    obtain ⟨rfl, rfl⟩ := Prod.mk.inj (Option.some.inj hr)
    exact h
  | undef => cases hr
  | call c k ih =>
    unfold run at hr
    split at hr
    case h_1 => cases hr
    case h_2 r t he => exact ih r (exec_tidy h he) hr

theorem Store.Tidy.not_loses {s : Store} (h : s.Tidy) (b : Int) : ¬ s.Loses b := by
  intro hloses
  unfold Store.Loses at hloses
  split at hloses
  case h_1 => exact hloses
  case h_2 p t hg =>
  obtain ⟨rfl, _, _, item, hitem, _⟩ := get_b_spec h.blocks hg
  have hq := deref_query hitem
  rcases hloses with he | he
  · rw [hitem] at he
    cases he
  · rw [hq] at he
    cases he

theorem Store.Tidy.not_evictLoses {s : Store} (h : s.Tidy) : ¬ s.EvictLoses := by
  intro hloses
  unfold Store.EvictLoses at hloses
  split at hloses
  case h_1 => exact hloses
  case h_2 lru rest hq => exact (h.rest hq).not_loses _ hloses.2

theorem Server.CachesOk.tidy {g : Geometry} (h : sv.CachesOk g) : sv.store.Tidy :=
  ⟨h.blocks, h.inodes.distinct, fun item hm => by rw [slotOf_eq (h.inodes.range item hm).1]; simp⟩

section Commands

variable (hc : sv.store.Tidy)
include hc

theorem get_b_steady {Q : Ptr → Server → Prop} (hQ : ∀ ptr sv', ptr.num = b → Moved sv sv' ∅ {b} →
      sv'.store.cache_i_queue = sv.store.cache_i_queue → Live sv'.store.cache_b_queue ptr ∅ → Q ptr sv') :
    Steady (get_b b) sv Q := by
  refine ⟨id, fun r sv' he => ?_⟩
  obtain ⟨⟨ptr, t⟩, hg, he⟩ := Option.map_eq_some_iff.mp he
  obtain ⟨rfl, rfl⟩ := Prod.mk.inj he
  have hu : Used sv.store t ∅ {b} ∧ Live t.cache_b_queue ptr ∅ := get_b_used hc.blocks hg
  obtain ⟨htidy, hinodes⟩ := get_b_tidy hc hg
  exact hQ ptr _ (get_b_spec hc.blocks hg).1 ⟨htidy, hu.1⟩ hinodes hu.2

theorem get_i_steady {Q : Ptr → Server → Prop} (hQ : ∀ ptr sv' (B : Finset Int), ptr.num = i ∧ slotOf i ≠ none → B.card ≤ 2 →
      Moved sv sv' {i} B →
      Live sv'.store.cache_i_queue ptr ∅ → Q ptr sv') : Steady (get_i i) sv Q := by
  refine ⟨?_, fun r sv' he => ?_⟩
  · rintro ⟨_, hs | hs⟩
    · exact hc.not_evictLoses hs
    · split at hs
      case h_1 => exact hs
      case h_2 t ht => exact (makeRoom_i_used hc ht).1.not_loses _ hs
  · obtain ⟨⟨ptr, t⟩, hg, he⟩ := Option.map_eq_some_iff.mp he
    obtain ⟨rfl, rfl⟩ := Prod.mk.inj he
    have hu : t.Tidy ∧ (ptr.num = i ∧ slotOf i ≠ none) ∧ (∃ B : Finset Int, B.card ≤ 2 ∧ Used sv.store t {i} B) ∧ Live t.cache_i_queue ptr ∅ :=
      get_i_used hc hg
    obtain ⟨htidy, hnum, ⟨B, hB, hused⟩, hl⟩ := hu
    exact hQ ptr _ B hnum hB ⟨htidy, hused⟩ hl

theorem readBlock_steady {Q : Block → Server → Prop} (hp : Live sv.store.cache_b_queue p R) (hQ : ∀ v, Q v sv) :
    Steady (readBlock p) sv Q := by
  obtain ⟨item, hitem⟩ := hp.deref hc.blocks.distinct
  refine ⟨by simp [Cmd.Stale, hitem], fun r sv' he => ?_⟩
  simp only [exec, hitem, Option.map_some, Option.some.injEq, Prod.mk.injEq] at he
  obtain ⟨rfl, rfl⟩ := he
  exact hQ _

theorem readInode_steady {Q : Inode → Server → Prop} (hp : Live sv.store.cache_i_queue p R)
    (hQ : ∀ item, deref sv.store.cache_i_queue p = some item → Q item.data sv) : Steady (readInode p) sv Q := by
  obtain ⟨item, hitem⟩ := hp.deref hc.inodes
  refine ⟨by simp [Cmd.Stale, hitem], fun r sv' he => ?_⟩
  simp only [exec, hitem, Option.map_some, Option.some.injEq, Prod.mk.injEq] at he
  obtain ⟨rfl, rfl⟩ := he
  exact hQ item hitem

theorem writeBlock_steady {Q : Unit → Server → Prop} (hp : Live sv.store.cache_b_queue p R)
    (hQ : ∀ sv', Moved sv sv' ∅ ∅ → Q () sv') : Steady (writeBlock p v) sv Q := by
  obtain ⟨item, hitem⟩ := hp.deref hc.blocks.distinct
  refine ⟨by simp [Cmd.Stale, hitem], fun r sv' he => ?_⟩
  have htidy := exec_tidy hc he
  obtain ⟨q, hq, he⟩ := Option.map_eq_some_iff.mp he
  obtain ⟨rfl, rfl⟩ := Prod.mk.inj he
  exact hQ _ ⟨htidy, .assign_b hq⟩

theorem writeInode_steady {Q : Unit → Server → Prop} (hp : Live sv.store.cache_i_queue p R)
    (hQ : ∀ sv', Moved sv sv' ∅ ∅ → Q () sv') : Steady (writeInode p ino) sv Q := by
  obtain ⟨item, hitem⟩ := hp.deref hc.inodes
  refine ⟨by simp [Cmd.Stale, hitem], fun r sv' he => ?_⟩
  have htidy := exec_tidy hc he
  obtain ⟨q, hq, he⟩ := Option.map_eq_some_iff.mp he
  obtain ⟨rfl, rfl⟩ := Prod.mk.inj he
  exact hQ _ ⟨htidy, .assign_i hq⟩

theorem dirtyBlock_steady {Q : Unit → Server → Prop} (hp : Live sv.store.cache_b_queue p R) (hb : p.num = b)
    (hQ : ∀ sv', Moved sv sv' ∅ ∅ → Q () sv') : Steady (dirtyBlock b) sv Q := by
  subst hb
  obtain ⟨item, hitem⟩ := hp.query hc.blocks.distinct
  refine ⟨by simp [Cmd.Stale, hitem], fun r sv' he => ?_⟩
  have htidy := exec_tidy hc he
  obtain ⟨q, hq, he⟩ := Option.map_eq_some_iff.mp he
  obtain ⟨rfl, rfl⟩ := Prod.mk.inj he
  exact hQ _ ⟨htidy, .markDirty_b hq⟩

theorem dirtyInode_steady {Q : Unit → Server → Prop} (hp : Live sv.store.cache_i_queue p R) (hi : p.num = i)
    (hQ : ∀ sv', Moved sv sv' ∅ ∅ → Q () sv') : Steady (dirtyInode i) sv Q := by
  subst hi
  obtain ⟨item, hitem⟩ := hp.query hc.inodes
  refine ⟨by simp [Cmd.Stale, hitem], fun r sv' he => ?_⟩
  have htidy := exec_tidy hc he
  obtain ⟨q, hq, he⟩ := Option.map_eq_some_iff.mp he
  obtain ⟨rfl, rfl⟩ := Prod.mk.inj he
  exact hQ _ ⟨htidy, .markDirty_i hq⟩

omit hc

theorem globals_steady {Q : Globals → Server → Prop} (hQ : Q sv.toGlobals sv) : Steady globals sv Q := by
  refine ⟨id, fun r sv' he => ?_⟩
  obtain ⟨rfl, rfl⟩ := Prod.mk.inj (Option.some.inj he)
  exact hQ

theorem setGlobals_steady {w : Globals} {Q : Unit → Server → Prop} (hQ : Q () { sv with toGlobals := w }) :
    Steady (setGlobals w) sv Q := by
  refine ⟨id, fun r sv' he => ?_⟩
  obtain ⟨rfl, rfl⟩ := Prod.mk.inj (Option.some.inj he)
  exact hQ

end Commands

end Yfs
