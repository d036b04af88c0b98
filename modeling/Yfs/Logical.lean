import Yfs.Total

/-! # The server without its caches

`eval` runs a program on the logical file system. Up to the names of pointers, the server returns what `eval` returns.
-/

namespace Yfs

/-- The free lists, the inodes and the blocks. -/
structure Logical extends Globals, View

def FS.logical (σ : FS) : Logical := { σ.toGlobals, σ.toView with }

namespace Logical

def setInode (l : Logical) (i : Int) (ino : Inode) : Logical := { l with toView := l.toView.setInode i ino }
def setBlock (l : Logical) (b : Int) (blk : Block) : Logical := { l with toView := l.toView.setBlock b blk }

end Logical

/-- A command on the logical file system. `none`: out of range, or the raw bytes of the inode table. -/
def Cmd.apply (g : Geometry) (l : Logical) : (c : Cmd) → Option (c.Ret × Logical)
  | .get_b b => if 0 ≤ b ∧ b < g.sectors then some (⟨b, 0⟩, l) else none
  | .get_i i => if g.isInode i then some (⟨i, 0⟩, l) else none
  | .readBlock p => if g.isTable p.num then none else some (l.block p.num, l)
  | .writeBlock p v => if g.isTable p.num then none else some ((), l.setBlock p.num v)
  | .readInode p => some (l.inode p.num, l)
  | .writeInode p v => some ((), l.setInode p.num v)
  | .dirtyBlock _ => some ((), l)
  | .dirtyInode _ => some ((), l)
  | .globals => some (l.toGlobals, l)
  | .setGlobals v => some ((), { l with toGlobals := v })

def eval {α : Type} (g : Geometry) : Prog α → Logical → Option (α × Logical)
  | .ret a, l => some (a, l)
  | .undef, _ => none
  | .call c k, l =>
    match c.apply g l with
    | none => none
    | some (r, l') => eval g (k r) l'

/-- The inode that a command looks up. -/
def Cmd.looked : Cmd → List Int
  | .get_i i => [i]
  | _ => []

/-- The inodes that a program looks up, in order. -/
def lookups {α : Type} (g : Geometry) : Prog α → Logical → List Int
  | .ret _, _ => []
  | .undef, _ => []
  | .call c k, l =>
    c.looked ++ match c.apply g l with
    | none => []
    | some (r, l') => lookups g (k r) l'

/-! ## Programs up to the names of pointers -/

/-- The same commands, through pointers to the same items. -/
inductive Alike {α β : Type} (R : α → β → Prop) : Prog α → Prog β → Prop where
  | ret {a : α} {b : β} (h : R a b) : Alike R (.ret a) (.ret b)
  | undef : Alike R .undef .undef
  | get_b {b : Int} {k : Ptr → Prog α} {k' : Ptr → Prog β} (h : ∀ id id', Alike R (k ⟨b, id⟩) (k' ⟨b, id'⟩)) :
    Alike R (.call (.get_b b) k) (.call (.get_b b) k')
  | get_i {i : Int} {k : Ptr → Prog α} {k' : Ptr → Prog β} (h : ∀ id id', Alike R (k ⟨i, id⟩) (k' ⟨i, id'⟩)) :
    Alike R (.call (.get_i i) k) (.call (.get_i i) k')
  | readBlock {p p' : Ptr} {k : Block → Prog α} {k' : Block → Prog β} (hp : p.num = p'.num) (h : ∀ v, Alike R (k v) (k' v)) :
    Alike R (.call (.readBlock p) k) (.call (.readBlock p') k')
  | writeBlock {p p' : Ptr} {v : Block} {k : Unit → Prog α} {k' : Unit → Prog β} (hp : p.num = p'.num)
    (h : ∀ u, Alike R (k u) (k' u)) : Alike R (.call (.writeBlock p v) k) (.call (.writeBlock p' v) k')
  | readInode {p p' : Ptr} {k : Inode → Prog α} {k' : Inode → Prog β} (hp : p.num = p'.num) (h : ∀ v, Alike R (k v) (k' v)) :
    Alike R (.call (.readInode p) k) (.call (.readInode p') k')
  | writeInode {p p' : Ptr} {v : Inode} {k : Unit → Prog α} {k' : Unit → Prog β} (hp : p.num = p'.num)
    (h : ∀ u, Alike R (k u) (k' u)) : Alike R (.call (.writeInode p v) k) (.call (.writeInode p' v) k')
  | dirtyBlock {b : Int} {k : Unit → Prog α} {k' : Unit → Prog β} (h : ∀ u, Alike R (k u) (k' u)) :
    Alike R (.call (.dirtyBlock b) k) (.call (.dirtyBlock b) k')
  | dirtyInode {i : Int} {k : Unit → Prog α} {k' : Unit → Prog β} (h : ∀ u, Alike R (k u) (k' u)) :
    Alike R (.call (.dirtyInode i) k) (.call (.dirtyInode i) k')
  | globals {k : Globals → Prog α} {k' : Globals → Prog β} (h : ∀ v, Alike R (k v) (k' v)) :
    Alike R (.call .globals k) (.call .globals k')
  | setGlobals {v : Globals} {k : Unit → Prog α} {k' : Unit → Prog β} (h : ∀ u, Alike R (k u) (k' u)) :
    Alike R (.call (.setGlobals v) k) (.call (.setGlobals v) k')

section

variable {α β γ δ : Type} {R : α → β → Prop} {S : γ → δ → Prop} {p : Prog α} {q : Prog β}

/-- The rule for sequencing. -/
theorem Alike.bind {f : α → Prog γ} {f' : β → Prog δ} (h : Alike R p q) (hf : ∀ a b, R a b → Alike S (f a) (f' b)) :
    Alike S (p >>= f) (q >>= f') := by
  induction h with
  | ret h => exact hf _ _ h
  | undef => exact .undef
  | get_b _ ih => exact .get_b ih
  | get_i _ ih => exact .get_i ih
  | readBlock hp _ ih => exact .readBlock hp ih
  | writeBlock hp _ ih => exact .writeBlock hp ih
  | readInode hp _ ih => exact .readInode hp ih
  | writeInode hp _ ih => exact .writeInode hp ih
  | dirtyBlock _ ih => exact .dirtyBlock ih
  | dirtyInode _ ih => exact .dirtyInode ih
  | globals _ ih => exact .globals ih
  | setGlobals _ ih => exact .setGlobals ih

/-! ## The server follows -/

variable {g : Geometry} {sv : Server} {σ : FS}

theorem run_call {c : Cmd} {k : c.Ret → Prog α} {r : c.Ret} {sv' : Server} (he : exec sv c = some (r, sv')) :
    run (.call c k) sv = run (k r) sv' := by rw [run, he]

theorem not_usesStale {c : Cmd} {k : c.Ret → Prog α} (h : ¬ UsesStale (.call c k) sv) : ¬ c.Stale sv ∧
    ∀ r sv', exec sv c = some (r, sv') → ¬ UsesStale (k r) sv' := by
  rw [UsesStale, not_or] at h
  refine ⟨h.1, fun r sv' he => ?_⟩
  have := h.2
  rwa [he] at this

/-- The server takes the steps of the logical program. -/
theorem Alike.step {c : Cmd} {k : c.Ret → Prog α} {b : β} {l : Logical} (h : Alike R (.call c k) q) (hrel : Rel g sv σ)
    (he : eval g q σ.logical = some (b, l)) :
    c.InRange g ∧ ∀ r sv₁, exec sv c = some (r, sv₁) → ∃ q' σ₁, Alike R (k r) q' ∧ Rel g sv₁ σ₁ ∧
      eval g q' σ₁.logical = some (b, l) ∧ lookups g q σ.logical = c.looked ++ lookups g q' σ₁.logical := by
  cases h with
  | @get_b num _ k' hk =>
    by_cases hr : 0 ≤ num ∧ num < g.sectors
    · refine ⟨hr, fun r sv₁ hx => ?_⟩
      obtain ⟨σ₁, ⟨hnum, rfl⟩, hrel₁⟩ := exec_sound (c := .get_b num) (Q := fun (r : Ptr) σ' => r.num = num ∧ σ' = σ) hrel
        (fun _ _ _ => ⟨rfl, rfl⟩) hx
      obtain ⟨n, id⟩ := r
      obtain rfl : n = num := hnum
      rw [eval, Cmd.apply, if_pos hr] at he
      exact ⟨k' ⟨n, 0⟩, σ₁, hk id 0, hrel₁, he, by rw [lookups, Cmd.apply, if_pos hr]⟩
    · rw [eval, Cmd.apply, if_neg hr] at he
      cases he
  | @get_i num _ k' hk =>
    by_cases hr : g.isInode num
    · refine ⟨hr, fun r sv₁ hx => ?_⟩
      obtain ⟨σ₁, ⟨hnum, rfl⟩, hrel₁⟩ := exec_sound (c := .get_i num) (Q := fun (r : Ptr) σ' => r.num = num ∧ σ' = σ) hrel
        (fun _ => ⟨hr, fun _ => ⟨rfl, rfl⟩⟩) hx
      obtain ⟨n, id⟩ := r
      obtain rfl : n = num := hnum
      rw [eval, Cmd.apply, if_pos hr] at he
      exact ⟨k' ⟨n, 0⟩, σ₁, hk id 0, hrel₁, he, by rw [lookups, Cmd.apply, if_pos hr]⟩
    · rw [eval, Cmd.apply, if_neg hr] at he
      cases he
  | @readBlock ptr ptr' _ k' hp hk =>
    by_cases ht : g.isTable ptr'.num
    · rw [eval, Cmd.apply, if_pos ht] at he
      cases he
    · refine ⟨trivial, fun r sv₁ hx => ?_⟩
      obtain ⟨σ₁, ⟨rfl, rfl⟩, hrel₁⟩ := exec_sound (c := .readBlock ptr) (Q := fun r σ' => r = σ.block ptr.num ∧ σ' = σ) hrel
        ⟨hp ▸ ht, rfl, rfl⟩ hx
      rw [eval, Cmd.apply, if_neg ht, ← hp] at he
      exact ⟨_, σ₁, hk _, hrel₁, he, by rw [lookups, Cmd.apply, if_neg ht, ← hp]; rfl⟩
  | @writeBlock ptr ptr' v _ k' hp hk =>
    by_cases ht : g.isTable ptr'.num
    · rw [eval, Cmd.apply, if_pos ht] at he
      cases he
    · refine ⟨trivial, fun r sv₁ hx => ?_⟩
      obtain ⟨σ₁, rfl, hrel₁⟩ := exec_sound (c := .writeBlock ptr v) (Q := fun _ σ' => σ' = σ.setBlock ptr.num v) hrel
        ⟨hp ▸ ht, rfl⟩ hx
      rw [eval, Cmd.apply, if_neg ht, ← hp] at he
      exact ⟨_, _, hk r, hrel₁, he, by rw [lookups, Cmd.apply, if_neg ht, ← hp]; rfl⟩
  | @readInode ptr ptr' _ k' hp hk =>
    refine ⟨trivial, fun r sv₁ hx => ?_⟩
    obtain ⟨σ₁, ⟨rfl, rfl⟩, hrel₁⟩ := exec_sound (c := .readInode ptr) (Q := fun r σ' => r = σ.inode ptr.num ∧ σ' = σ) hrel
      ⟨rfl, rfl⟩ hx
    rw [eval, Cmd.apply, ← hp] at he
    exact ⟨_, σ₁, hk _, hrel₁, he, by rw [lookups, Cmd.apply, ← hp]; rfl⟩
  | @writeInode ptr ptr' v _ k' hp hk =>
    refine ⟨trivial, fun r sv₁ hx => ?_⟩
    obtain ⟨σ₁, rfl, hrel₁⟩ := exec_sound (c := .writeInode ptr v) (Q := fun _ σ' => σ' = σ.setInode ptr.num v) hrel rfl hx
    rw [eval, Cmd.apply, ← hp] at he
    exact ⟨_, _, hk r, hrel₁, he, by rw [lookups, Cmd.apply, ← hp]; rfl⟩
  | @dirtyBlock num _ k' hk =>
    refine ⟨trivial, fun r sv₁ hx => ?_⟩
    obtain ⟨σ₁, rfl, hrel₁⟩ := exec_sound (c := .dirtyBlock num) (Q := fun _ σ' => σ' = σ.markBlock num) hrel rfl hx
    exact ⟨_, _, hk r, hrel₁, he, rfl⟩
  | @dirtyInode num _ k' hk =>
    refine ⟨trivial, fun r sv₁ hx => ?_⟩
    obtain ⟨σ₁, rfl, hrel₁⟩ := exec_sound (c := .dirtyInode num) (Q := fun _ σ' => σ' = σ.markInode num) hrel rfl hx
    exact ⟨_, _, hk r, hrel₁, he, rfl⟩
  | globals hk =>
    refine ⟨trivial, fun r sv₁ hx => ?_⟩
    obtain ⟨σ₁, ⟨rfl, rfl⟩, hrel₁⟩ := exec_sound (c := .globals) (Q := fun r σ' => r = σ.toGlobals ∧ σ' = σ) hrel ⟨rfl, rfl⟩ hx
    exact ⟨_, σ₁, hk _, hrel₁, he, rfl⟩
  | @setGlobals v _ k' hk =>
    refine ⟨trivial, fun r sv₁ hx => ?_⟩
    obtain ⟨σ₁, rfl, hrel₁⟩ := exec_sound (c := .setGlobals v) (Q := fun _ σ' => σ' = { σ with toGlobals := v }) hrel rfl hx
    exact ⟨_, _, hk r, hrel₁, he, rfl⟩

/-- **The caches do not show.** Where the logical program returns, the server returns the same, and shows the state that the
program leaves. -/
theorem Alike.run_eq {b : β} {l : Logical} (h : Alike R p q) (hrel : Rel g sv σ) (he : eval g q σ.logical = some (b, l))
    (hs : ¬ UsesStale p sv) : ∃ a sv' σ', run p sv = some (a, sv') ∧ R a b ∧ Rel g sv' σ' ∧ σ'.logical = l := by
  induction p generalizing q sv σ with
  | ret a =>
    cases h with
    | ret h =>
      obtain ⟨rfl, rfl⟩ := Prod.mk.inj (Option.some.inj he)
      exact ⟨a, sv, σ, rfl, h, hrel, rfl⟩
  | undef =>
    cases h
    cases he
  | call c k ih =>
    obtain ⟨hr, hnext⟩ := h.step hrel he
    obtain ⟨hs, hlater⟩ := not_usesStale hs
    obtain ⟨r, sv₁, hx⟩ := exec_total hrel hr hs
    obtain ⟨q', σ₁, h₁, hrel₁, he₁, _⟩ := hnext r sv₁ hx
    rw [run_call hx]
    exact ih r h₁ hrel₁ he₁ (hlater r sv₁ hx)

/-- A program in range that runs into nothing undefined returns on the logical file system. -/
theorem eval_spec {Q : α → FS → Prop} (ht : twp g p σ fun _ _ => True) (hw : wp g p σ Q) :
    ∃ a σ', eval g p σ.logical = some (a, σ'.logical) ∧ Q a σ' := by
  induction p generalizing σ with
  | ret a => exact ⟨a, σ, rfl, (wp_ret a).mp hw⟩
  | undef => exact absurd ht (by simp)
  | call c k ih =>
    have ht := twp_call.mp ht
    have hw := wp_call.mp hw
    rw [eval]
    cases c with
    | get_b b =>
      rw [Cmd.apply, if_pos ht.1]
      exact ih _ (ht.2 0) (hw ht.1.1 ht.1.2 0)
    | get_i i =>
      have hpos := ht.1.1
      rw [Cmd.apply, if_pos ht.1]
      exact ih _ (ht.2 0) ((hw (by omega)).2 0)
    | readBlock ptr =>
      rw [Cmd.apply, if_neg hw.1]
      exact ih _ ht hw.2
    | writeBlock ptr v =>
      rw [Cmd.apply, if_neg hw.1]
      exact ih _ ht hw.2
    | readInode ptr => exact ih _ ht hw
    | writeInode ptr v => exact ih _ ht hw
    | dirtyBlock b => exact ih (σ := σ.markBlock b) () ht hw
    | dirtyInode i => exact ih (σ := σ.markInode i) () ht hw
    | globals => exact ih _ ht hw
    | setGlobals v => exact ih _ ht hw

theorem eval_total {Q : α → FS → Prop} (ht : twp g p σ fun _ _ => True) (hw : wp g p σ Q) : ∃ a l, eval g p σ.logical = some (a, l) := by
  obtain ⟨a, σ', he, _⟩ := eval_spec ht hw
  exact ⟨a, _, he⟩

end

end Yfs
