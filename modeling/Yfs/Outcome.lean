import Yfs.Prog

/-! # Programs that return exactly when

The weakest preconditions say what holds if a program returns. Outcomes say when it does.
-/

namespace Yfs

open Cache

theorem run_bind {α β : Type} (p : Prog α) (f : α → Prog β) (sv : Server) :
    run (p >>= f) sv = (run p sv).bind fun r => run (f r.1) r.2 := by
  induction p generalizing sv with
  | ret a => rfl
  | undef => rfl
  | call c k ih =>
    rw [Prog.call_bind, run, run]
    cases exec sv c with
    | none => rfl
    | some r => exact ih r.1 r.2

/-- Where `ok` holds `p` returns, with `Q`. Elsewhere it runs into undefined behaviour. -/
structure Outcome {α : Type} (p : Prog α) (sv : Server) (ok : Prop) (Q : α → Server → Prop) : Prop where
  returns : ok → ∃ a sv', run p sv = some (a, sv') ∧ Q a sv'
  undef : ¬ ok → run p sv = none

namespace Outcome

variable {α β : Type} {p : Prog α} {f : α → Prog β} {sv : Server} {ok ok' : Prop} {Q Q' : α → Server → Prop}
  {R : β → Server → Prop}

theorem ret {a : α} (h : Q a sv) : Outcome (.ret a) sv True Q := ⟨fun _ => ⟨a, sv, rfl, h⟩, fun h => absurd trivial h⟩

theorem of_iff (hok : ok' ↔ ok) (h : Outcome p sv ok Q) : Outcome p sv ok' Q :=
  ⟨fun h1 => h.returns (hok.mp h1), fun h1 => h.undef (mt hok.mpr h1)⟩

theorem bind (h : Outcome p sv ok Q) (hf : ∀ a sv', Q a sv' → Outcome (f a) sv' ok' R) :
    Outcome (p >>= f) sv (ok ∧ ok') R := by
  constructor
  · rintro ⟨h1, h2⟩
    obtain ⟨a, sv', hr, hq⟩ := h.returns h1
    rw [run_bind, hr]
    exact (hf a sv' hq).returns h2
  · intro hn
    rw [run_bind]
    by_cases h1 : ok
    · obtain ⟨a, sv', hr, hq⟩ := h.returns h1
      rw [hr]
      exact (hf a sv' hq).undef fun h2 => hn ⟨h1, h2⟩
    · rw [h.undef h1]
      rfl

/-- A first part that returns. -/
theorem bind_ok (h : Outcome p sv ok Q) (hok : ok) (hf : ∀ a sv', Q a sv' → Outcome (f a) sv' ok' R) :
    Outcome (p >>= f) sv ok' R :=
  .of_iff (and_iff_right hok).symm (h.bind hf)

theorem bind_undef (h : Outcome p sv ok Q) (hn : ¬ ok) : Outcome (p >>= f) sv False R := by
  refine ⟨False.elim, fun _ => ?_⟩
  rw [run_bind, h.undef hn]
  rfl

theorem mono (h : Outcome p sv ok Q) (hq : ∀ a sv', Q a sv' → Q' a sv') : Outcome p sv ok Q' := by
  refine ⟨fun h1 => ?_, h.undef⟩
  obtain ⟨a, sv', hr, h2⟩ := h.returns h1
  exact ⟨a, sv', hr, hq a sv' h2⟩

theorem undefined : Outcome (.undef : Prog α) sv False Q := ⟨False.elim, fun _ => rfl⟩

/-- What a program returns is known, and it returns exactly if there is something. -/
theorem value {o : Option α} (h : Outcome p sv o.isSome fun a _ => o = some a) : (run p sv).map Prod.fst = o := by
  cases o with
  | none => rw [h.undef (by simp)]; rfl
  | some a =>
    obtain ⟨b, sv', hr, hb⟩ := h.returns rfl
    rw [hr, hb]
    rfl

/-! ## Commands -/

variable {g : Geometry} {b i : Int} {ptr : Ptr}

theorem get_b (hb : BlocksOk sv.store) :
    Outcome (get_b b) sv (0 ≤ b ∧ b < sv.store.num_sectors) fun ptr sv' =>
      (∃ item, deref sv'.store.cache_b_queue ptr = some item ∧ item.data = logicalBlock sv.store b) ∧
        BlockStep sv.store sv'.store ∧ sv'.toGlobals = sv.toGlobals := by
  constructor
  · intro hsec
    obtain ⟨ptr, s', hg⟩ := get_b_total hb hsec
    obtain ⟨_, _, hstep, hitem⟩ := get_b_spec hb hg
    exact ⟨ptr, { sv with store := s' }, by simp [Yfs.get_b, Prog.cmd, run, exec, hg], hitem, hstep, rfl⟩
  · intro hsec
    cases hg : Cache.get_b b sv.store with
    | none => simp [Yfs.get_b, Prog.cmd, run, exec, hg]
    | some r => exact absurd (get_b_spec hb hg).2.1 hsec

theorem get_i (hb : BlocksOk sv.store) (hi : InodesOk g sv.store) (hs : sv.store.num_sectors = g.sectors)
    (hii : g.isInode i) :
    Outcome (get_i i) sv True fun ptr sv' =>
      (∃ item, deref sv'.store.cache_i_queue ptr = some item ∧ item.data = logicalInode sv.store i) ∧
        InodeStep g sv.store sv'.store ∧ sv'.toGlobals = sv.toGlobals := by
  refine ⟨fun _ => ?_, fun h => absurd trivial h⟩
  obtain ⟨ptr, s', hg⟩ := get_i_total hb hi hs hii
  obtain ⟨_, hstep, hitem⟩ := get_i_spec hb hi hii hg
  exact ⟨ptr, { sv with store := s' }, by simp [Yfs.get_i, Prog.cmd, run, exec, hg], hitem, hstep, rfl⟩

theorem readBlock {item : CacheItem Block} (hp : deref sv.store.cache_b_queue ptr = some item) :
    Outcome (readBlock ptr) sv True fun blk sv' => blk = item.data ∧ sv' = sv :=
  ⟨fun _ => ⟨item.data, sv, by simp [Yfs.readBlock, Prog.cmd, run, exec, hp], rfl, rfl⟩, fun h => absurd trivial h⟩

theorem readInode {item : CacheItem Inode} (hp : deref sv.store.cache_i_queue ptr = some item) :
    Outcome (readInode ptr) sv True fun ino sv' => ino = item.data ∧ sv' = sv :=
  ⟨fun _ => ⟨item.data, sv, by simp [Yfs.readInode, Prog.cmd, run, exec, hp], rfl, rfl⟩, fun h => absurd trivial h⟩

end Outcome


end Yfs
