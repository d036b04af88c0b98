import Yfs.Boot.Fresh

/-! # Block ownership over whole runs -/

namespace Yfs

open Ledger

/-- No block is on the free list twice, is free and owned, or is owned twice. -/
structure OwnedOnce (g : Geometry) (σ : FS) : Prop where
  nodup : σ.b_head.Nodup
  apart : ∀ i n b, σ.owns g i n b → b ∉ σ.b_head
  once : ∀ i n j m b, σ.owns g i n b → σ.owns g j m b → i = j ∧ n = m

theorem ledger_of_owns {g : Geometry} {v : View} {i b : Int} {n : Nat} (h : v.owns g i n b) :
    v.ledger g (i, some n) = some b := by
  obtain ⟨hi, hc, hb⟩ := h
  rw [View.ledger, if_pos ⟨hi, hc⟩, hb]

theorem ledger_owns {g : Geometry} {v : View} {i b : Int} {n : Nat} : v.ledger g (i, some n) = some b ↔ v.owns g i n b := by
  unfold View.ledger View.owns
  simp only [Option.ite_none_right_eq_some, Option.some.injEq, and_assoc]

theorem WellFormed.ownedOnce {g : Geometry} {σ : FS} (hw : WellFormed g σ) : OwnedOnce g σ := by
  refine ⟨hw.exclusive.nodup, fun i n b h => hw.exclusive.apart _ _ (ledger_of_owns h), fun i n j m b h h' => ?_⟩
  have := hw.exclusive.inj _ _ _ (ledger_of_owns h) (ledger_of_owns h')
  exact ⟨congrArg Prod.fst this, Option.some.inj (congrArg Prod.snd this)⟩

/-- **Blocks have one owner.** In a run of safe requests from a well-formed state, no block is on the free list
twice, none that a file owns is free, and none is owned twice. -/
theorem block_owned_once {g : Geometry} {sv sv' : Server} {reqs : List Request} (hshort : 8 * g.table ≤ 2 ^ 15)
    (hstart : Sound g sv) (hsafe : sv.meets (fun σ req => req.Safe g σ) reqs) (hrun : serves sv reqs = some sv') :
    OwnedOnce g sv'.fs :=
  (serves_induction hstart hsafe hrun fun _ _ _ _ h hp hs => (h.step hshort hp hs).1).wellFormed.ownedOnce

/-- The root and two free inodes, and the blocks past the root's. -/
def smallStart : Server :=
  { (smallDisk.disk fun _ => false).server with i_head := [15, 14], b_head := ints 4 96 }

theorem smallStart_sound : Sound smallDisk.geometry smallStart ∧ Fresh 15 smallStart.fs :=
  DiskFormat.sound_of_lists ⟨nodup_ints 4 96, by decide, by decide, by decide⟩ rfl

theorem block_owned_once_create : ∃ sv, serves smallStart [.create (some [SLASH, 97]) 1] = some sv ∧
    OwnedOnce smallDisk.geometry sv.fs := by
  obtain ⟨sv, hrun, _⟩ := Option.map_eq_some_iff.mp
    (show (serves smallStart [.create (some [SLASH, 97]) 1]).map (fun _ => ()) = some () by decide +kernel)
  have hmeets : smallStart.meets (fun σ req => req.Safe smallDisk.geometry σ) [.create (some [SLASH, 97]) 1] :=
    ⟨smallStart_sound.2.safe_create (by decide), fun _ _ _ => trivial⟩
  exact ⟨sv, hrun, block_owned_once (by decide) smallStart_sound.1 hmeets hrun⟩

/-- The blocks that files own are nowhere else, and the free ones are not in the table. -/
structure BlocksApart (g : Geometry) (σ : FS) : Prop extends OwnedOnce g σ where
  owned : ∀ i n b, σ.owns g i n b → b ≠ 0 ∧ ¬ g.isTable b
  free : ∀ b ∈ σ.b_head, b ≠ 0 ∧ ¬ g.isTable b

/-- Two files that grow past `NUM_DIRECT` blocks. -/
def growTwo : List Request :=
  [.create (some [SLASH, 97]) 1, .create (some [SLASH, 98]) 1, .write 15 (filledBuf 1) 6200 0, .write 14 (filledBuf 2) 6200 0]

/-- Both keep the pointer of index 12 in block 0. -/
theorem growTwo_shares : BlocksApart smallDisk.geometry smallStart.fs ∧
    ∃ sv, serves smallStart growTwo = some sv ∧ ¬ OwnedOnce smallDisk.geometry sv.fs := by
  have hw := smallStart_sound.1.wellFormed
  refine ⟨⟨hw.ownedOnce, fun i n b h => ?_, fun b hb => ?_⟩, ?_⟩
  · obtain ⟨hi, hc, rfl⟩ := h
    rw [(hw.mapped i hi).nthBlock hc]
    exact ⟨(hw.mapped i hi).nonzero n hc, (hw.mapped i hi).data n hc⟩
  · have hr := mem_ints.mp hb
    have ht : smallDisk.geometry.table = 2 := rfl
    exact ⟨by omega, fun h => by have := h.2; omega⟩
  · obtain ⟨sv, hrun, h⟩ := Option.map_eq_some_iff.mp (show (serves smallStart growTwo).map (fun sv => decide
      (sv.fs.covers 15 12 ∧ sv.fs.covers 14 12 ∧ sv.fs.nthBlock 15 12 = sv.fs.nthBlock 14 12)) = some true by decide +kernel)
    obtain ⟨h15, h14, heq⟩ := of_decide_eq_true h
    refine ⟨sv, hrun, fun hown => ?_⟩
    have := hown.once 15 12 14 12 _ ⟨by decide, h15, rfl⟩ ⟨by decide, h14, heq.symm⟩
    exact absurd this.1 (by decide)

end Yfs
