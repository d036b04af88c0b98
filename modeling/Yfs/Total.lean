import Yfs.InRange
import Yfs.Steady

/-! # Programs that return

`twp` is `wp` where every lookup is in range and nothing is undefined. With no stale pointer the program then returns.
-/

namespace Yfs

def Cmd.twp (g : Geometry) (σ : FS) : (c : Cmd) → (c.Ret → FS → Prop) → Prop
  | .get_b b, Q => (0 ≤ b ∧ b < g.sectors) ∧ ∀ id, Q ⟨b, id⟩ σ
  | .get_i i, Q => g.isInode i ∧ ∀ id, Q ⟨i, id⟩ σ
  | .readBlock p, Q => Q (σ.block p.num) σ
  | .writeBlock p v, Q => Q () (σ.setBlock p.num v)
  | .readInode p, Q => Q (σ.inode p.num) σ
  | .writeInode p v, Q => Q () (σ.setInode p.num v)
  | .dirtyBlock b, Q => Q () (σ.markBlock b)
  | .dirtyInode i, Q => Q () (σ.markInode i)
  | .globals, Q => Q σ.toGlobals σ
  | .setGlobals v, Q => Q () { σ with toGlobals := v }

/-- Every lookup is in range, the program runs into no undefined behaviour, and `Q` holds in the end. -/
def twp {α : Type} (g : Geometry) : Prog α → FS → (α → FS → Prop) → Prop
  | .ret a, σ, Q => Q a σ
  | .undef, _, _ => False
  | .call c k, σ, Q => c.twp g σ fun r σ' => twp g (k r) σ' Q

theorem Cmd.twp_mono {g : Geometry} {c : Cmd} {Q Q' : c.Ret → FS → Prop} {σ : FS}
    (h : ∀ r σ', Q r σ' → Q' r σ') (hw : c.twp g σ Q) : c.twp g σ Q' := by
  cases c with
  | get_b b => exact ⟨hw.1, fun id => h _ _ (hw.2 id)⟩
  | get_i i => exact ⟨hw.1, fun id => h _ _ (hw.2 id)⟩
  | _ => exact h _ _ hw

theorem twp_mono {α : Type} {g : Geometry} {p : Prog α} {Q Q' : α → FS → Prop} {σ : FS}
    (h : ∀ a σ', Q a σ' → Q' a σ') (hw : twp g p σ Q) : twp g p σ Q' := by
  induction p generalizing σ with
  | ret a => exact h _ _ hw
  | undef => exact hw
  | call c k ih => exact Cmd.twp_mono (fun r σ' hr => ih r hr) hw

/-- The rule for sequencing. -/
theorem twp_bind {α β : Type} {g : Geometry} {p : Prog α} {f : α → Prog β} {Q : β → FS → Prop} {σ : FS} :
    twp g (p >>= f) σ Q ↔ twp g p σ (fun a σ' => twp g (f a) σ' Q) := by
  induction p generalizing σ with
  | ret a => rfl
  | undef => rfl
  | call c k ih =>
    constructor
    · exact Cmd.twp_mono fun r σ' hr => (ih r).mp hr
    · exact Cmd.twp_mono fun r σ' hr => (ih r).mpr hr

section Rules

variable {α : Type} {g : Geometry} {Q : α → FS → Prop} {σ : FS} {p : Ptr}

@[simp]
theorem twp_ret (a : α) : twp g (.ret a) σ Q ↔ Q a σ := ⟨id, id⟩

@[simp]
theorem twp_undef : twp g .undef σ Q ↔ False := ⟨id, id⟩

theorem twp_call {c : Cmd} {k : c.Ret → Prog α} :
    twp g (.call c k) σ Q ↔ c.twp g σ fun r σ' => twp g (k r) σ' Q := ⟨id, id⟩

@[simp]
theorem twp_ite {c : Prop} [Decidable c] {a b : Prog α} :
    twp g (if c then a else b) σ Q ↔ (c → twp g a σ Q) ∧ (¬ c → twp g b σ Q) := by
  split <;> simp_all

@[simp]
theorem twp_get_b {b : Int} {Q : Ptr → FS → Prop} :
    twp g (get_b b) σ Q ↔ (0 ≤ b ∧ b < g.sectors) ∧ ∀ id, Q ⟨b, id⟩ σ := ⟨id, id⟩

@[simp]
theorem twp_get_i {i : Int} {Q : Ptr → FS → Prop} : twp g (get_i i) σ Q ↔ g.isInode i ∧ ∀ id, Q ⟨i, id⟩ σ := ⟨id, id⟩

@[simp]
theorem twp_readBlock {Q : Block → FS → Prop} : twp g (readBlock p) σ Q ↔ Q (σ.block p.num) σ := ⟨id, id⟩

@[simp]
theorem twp_writeBlock {v : Block} {Q : Unit → FS → Prop} :
    twp g (writeBlock p v) σ Q ↔ Q () (σ.setBlock p.num v) := ⟨id, id⟩

@[simp]
theorem twp_readInode {Q : Inode → FS → Prop} : twp g (readInode p) σ Q ↔ Q (σ.inode p.num) σ := ⟨id, id⟩

@[simp]
theorem twp_writeInode {v : Inode} {Q : Unit → FS → Prop} :
    twp g (writeInode p v) σ Q ↔ Q () (σ.setInode p.num v) := ⟨id, id⟩

@[simp]
theorem twp_dirtyBlock {b : Int} {Q : Unit → FS → Prop} : twp g (dirtyBlock b) σ Q ↔ Q () (σ.markBlock b) := ⟨id, id⟩

@[simp]
theorem twp_dirtyInode {i : Int} {Q : Unit → FS → Prop} : twp g (dirtyInode i) σ Q ↔ Q () (σ.markInode i) := ⟨id, id⟩

@[simp]
theorem twp_globals {Q : Globals → FS → Prop} : twp g globals σ Q ↔ Q σ.toGlobals σ := ⟨id, id⟩

@[simp]
theorem twp_setGlobals {v : Globals} {Q : Unit → FS → Prop} :
    twp g (setGlobals v) σ Q ↔ Q () { σ with toGlobals := v } := ⟨id, id⟩

end Rules

/-! ## With the weakest precondition -/

section

variable {α β : Type} {g : Geometry} {σ : FS} {p : Prog α} {f : α → Prog β}

theorem Cmd.twp_and {c : Cmd} {Q Q' : c.Ret → FS → Prop} (h : c.twp g σ Q) (hw : c.wp g σ Q') :
    c.twp g σ fun r σ' => Q r σ' ∧ Q' r σ' := by
  cases c with
  | get_b b => exact ⟨h.1, fun id => ⟨h.2 id, hw h.1.1 h.1.2 id⟩⟩
  | get_i i =>
    have hpos := h.1.1
    exact ⟨h.1, fun id => ⟨h.2 id, (hw (by omega)).2 id⟩⟩
  | readBlock p => exact ⟨h, hw.2⟩
  | writeBlock p v => exact ⟨h, hw.2⟩
  | _ => exact ⟨h, hw⟩

theorem Cmd.wp_and {c : Cmd} {Q Q' : c.Ret → FS → Prop} (h : c.twp g σ Q) (hw : c.wp g σ Q') :
    c.wp g σ fun r σ' => Q r σ' ∧ Q' r σ' := by
  cases c with
  | get_b b => exact fun h0 h1 id => ⟨h.2 id, hw h0 h1 id⟩
  | get_i i => exact fun hn => ⟨(hw hn).1, fun id => ⟨h.2 id, (hw hn).2 id⟩⟩
  | readBlock p => exact ⟨hw.1, h, hw.2⟩
  | writeBlock p v => exact ⟨hw.1, h, hw.2⟩
  | _ => exact ⟨h, hw⟩

/-- A program that returns does what its weakest precondition says. -/
theorem twp_and {Q Q' : α → FS → Prop} (h : twp g p σ Q) (hw : wp g p σ Q') :
    twp g p σ fun a σ' => Q a σ' ∧ Q' a σ' := by
  induction p generalizing σ with
  | ret a => exact ⟨h, (wp_ret a).mp hw⟩
  | undef => exact h
  | call c k ih => exact Cmd.twp_mono (fun r σ' hr => ih r hr.1 hr.2) (Cmd.twp_and h (wp_call.mp hw))

/-- A first part that returns, with what it does. -/
theorem twp_then {Q : α → FS → Prop} {R : β → FS → Prop} (h : twp g p σ fun _ _ => True) (hw : wp g p σ Q)
    (hf : ∀ a σ', Q a σ' → twp g (f a) σ' R) : twp g (p >>= f) σ R :=
  twp_bind.mpr (twp_mono (fun a σ' hq => hf a σ' hq.2) (twp_and h hw))

end

/-! ## Running -/

/-- Every lookup is in range. -/
def Cmd.InRange (g : Geometry) : Cmd → Prop
  | .get_b b => 0 ≤ b ∧ b < g.sectors
  | .get_i i => g.isInode i
  | _ => True

/-- Every command of the run meets `P` in the state before it. -/
def Every {α : Type} (P : Server → Cmd → Prop) : Prog α → Server → Prop
  | .ret _, _ => True
  | .undef, _ => True
  | .call c k, sv => P sv c ∧
    match exec sv c with
    | none => True
    | some (r, sv') => Every P (k r) sv'

instance instDecidableEvery {α : Type} {P : Server → Cmd → Prop} [∀ sv c, Decidable (P sv c)] :
    (p : Prog α) → (sv : Server) → Decidable (Every P p sv)
  | .ret _, _ => .isTrue trivial
  | .undef, _ => .isTrue trivial
  | .call c k, sv =>
    match h : exec sv c with
    | none => decidable_of_iff (P sv c ∧ True) (by rw [Every, h])
    | some (r, sv') =>
      haveI := instDecidableEvery (P := P) (k r) sv'
      decidable_of_iff (P sv c ∧ Every P (k r) sv') (by rw [Every, h])

section

variable {α : Type} {g : Geometry} {sv : Server} {σ : FS} {p : Prog α} {Q : α → FS → Prop}

theorem Cmd.twp.inRange {c : Cmd} {Q : c.Ret → FS → Prop} (h : c.twp g σ Q) : c.InRange g := by
  cases c with
  | get_b b => exact h.1
  | get_i i => exact h.1
  | _ => trivial

/-- In range and with no stale pointer a command returns. -/
theorem exec_total {c : Cmd} (hrel : Rel g sv σ) (hr : c.InRange g) (hs : ¬ c.Stale sv) : ∃ r sv', exec sv c = some (r, sv') := by
  cases c with
  | get_b b =>
    obtain ⟨ptr, t, hg⟩ := get_b_total hrel.blocks (b := b) (by rw [Store.isSector, hrel.sectors]; exact hr)
    exact ⟨ptr, { sv with store := t }, by simp [exec, hg]⟩
  | get_i i =>
    obtain ⟨ptr, t, hg⟩ := get_i_total hrel.blocks hrel.inodes hrel.sectors hr
    exact ⟨ptr, { sv with store := t }, by simp [exec, hg]⟩
  | readBlock p =>
    obtain ⟨item, hitem⟩ := Option.ne_none_iff_exists'.mp hs
    exact ⟨item.data, sv, by simp [exec, hitem]⟩
  | readInode p =>
    obtain ⟨item, hitem⟩ := Option.ne_none_iff_exists'.mp hs
    exact ⟨item.data, sv, by simp [exec, hitem]⟩
  | writeBlock p v =>
    obtain ⟨item, hitem⟩ := Option.ne_none_iff_exists'.mp hs
    obtain ⟨q, hq⟩ := assign_total hitem v
    exact ⟨(), { sv with store.cache_b_queue := q }, by simp [exec, hq]⟩
  | writeInode p v =>
    obtain ⟨item, hitem⟩ := Option.ne_none_iff_exists'.mp hs
    obtain ⟨q, hq⟩ := assign_total hitem v
    exact ⟨(), { sv with store.cache_i_queue := q }, by simp [exec, hq]⟩
  | dirtyBlock b =>
    obtain ⟨item, hitem⟩ := Option.ne_none_iff_exists'.mp hs
    obtain ⟨q, hq⟩ := markDirty_total hitem
    exact ⟨(), { sv with store.cache_b_queue := q }, by simp [exec, hq]⟩
  | dirtyInode i =>
    obtain ⟨item, hitem⟩ := Option.ne_none_iff_exists'.mp hs
    obtain ⟨q, hq⟩ := markDirty_total hitem
    exact ⟨(), { sv with store.cache_i_queue := q }, by simp [exec, hq]⟩
  | globals => exact ⟨sv.toGlobals, sv, rfl⟩
  | setGlobals v => exact ⟨(), { sv with toGlobals := v }, rfl⟩

/-- A run that meets `twp` stays in range, and the caches in order. -/
theorem every_inRange (hrel : Rel g sv σ) (ht : twp g p σ fun _ _ => True) (hw : wp g p σ Q) :
    Every (fun sv c => c.InRange g ∧ sv.CachesOk g) p sv := by
  induction p generalizing sv σ with
  | ret a => trivial
  | undef => trivial
  | call c k ih =>
    rw [Every]
    refine ⟨⟨Cmd.twp.inRange (twp_call.mp ht), hrel.cachesOk⟩, ?_⟩
    split
    case h_1 => trivial
    case h_2 r sv₁ he =>
      obtain ⟨σ₁, ⟨ht₁, hw₁⟩, hrel₁⟩ := exec_sound hrel (Cmd.wp_and (twp_call.mp ht) (wp_call.mp hw)) he
      exact ih r hrel₁ ht₁ hw₁

theorem Every.mono {P P' : Server → Cmd → Prop} (h : Every P p sv) (hp : ∀ sv c, P sv c → P' sv c) : Every P' p sv := by
  induction p generalizing sv with
  | ret a => trivial
  | undef => trivial
  | call c k ih =>
    rw [Every] at h ⊢
    refine ⟨hp _ _ h.1, ?_⟩
    split
    case h_1 => trivial
    case h_2 r sv₁ he =>
      rw [he] at h
      exact ih r h.2

/-- **Totality.** -/
theorem run_total (hrel : Rel g sv σ) (hs : ¬ UsesStale p sv) (ht : twp g p σ fun _ _ => True) (hw : wp g p σ Q) :
    ∃ a sv' σ', run p sv = some (a, sv') ∧ Q a σ' ∧ Rel g sv' σ' := by
  induction p generalizing sv σ with
  | ret a => exact ⟨a, sv, σ, rfl, (wp_ret a).mp hw, hrel⟩
  | undef => exact absurd ht id
  | call c k ih =>
    rw [UsesStale, not_or] at hs
    obtain ⟨r, sv₁, he⟩ := exec_total hrel (Cmd.twp.inRange (twp_call.mp ht)) hs.1
    rw [he] at hs
    obtain ⟨σ₁, ⟨ht₁, hw₁⟩, hrel₁⟩ := exec_sound hrel (Cmd.wp_and (twp_call.mp ht) (wp_call.mp hw)) he
    obtain ⟨a, sv', σ', hr, hq, hrel'⟩ := ih r hrel₁ hs.2 ht₁ hw₁
    exact ⟨a, sv', σ', by rw [run, he]; exact hr, hq, hrel'⟩

end

attribute [irreducible] twp
attribute [simp] twp_bind

end Yfs
