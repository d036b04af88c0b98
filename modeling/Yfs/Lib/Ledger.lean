import Mathlib

/-! # Exclusive ownership

Resources are on a free list, held under a key, or neither. Nothing is in two places.
-/

namespace Yfs.Ledger

variable {κ β : Type}

/-- `own k` is what is held under `k`. -/
structure Exclusive (own : κ → Option β) (free : List β) : Prop where
  nodup : free.Nodup
  apart : ∀ k b, own k = some b → b ∉ free
  inj : ∀ k k' b, own k = some b → own k' = some b → k = k'

/-- Held under no key. -/
def Loose (own : κ → Option β) (b : β) : Prop := ∀ k, own k ≠ some b

/-- On the free list or held. -/
def Accounted (own : κ → Option β) (free : List β) (b : β) : Prop := b ∈ free ∨ ∃ k, own k = some b

variable {own own' : κ → Option β} {free free' : List β} {b : β}

/-- New keys take what was loose and is not left on the free list. -/
theorem Exclusive.extend (h : Exclusive own free) (hfree : free'.Sublist free)
    (hnew : ∀ k b, own' k = some b → own k = some b ∨ Loose own b ∧ b ∉ free')
    (hinj : ∀ k k' b, Loose own b → own' k = some b → own' k' = some b → k = k') :
    Exclusive own' free' := by
  refine ⟨h.nodup.sublist hfree, ?_, ?_⟩
  · intro k b hk
    rcases hnew k b hk with hold | ⟨_, hb⟩
    · exact fun hb => h.apart k b hold (hfree.subset hb)
    · exact hb
  · intro k k' b hk hk'
    rcases hnew k b hk with hold | ⟨hl, _⟩
    · rcases hnew k' b hk' with hold' | ⟨hl, _⟩
      · exact h.inj k k' b hold hold'
      · exact absurd hold (hl k)
    · exact hinj k k' b hl hk hk'

/-- Keys may be dropped, and so may free resources. -/
theorem Exclusive.shrink (h : Exclusive own free) (hfree : free'.Sublist free)
    (hown : ∀ k b, own' k = some b → own k = some b) : Exclusive own' free' :=
  h.extend hfree (fun k b hk => Or.inl (hown k b hk)) fun k _ _ hl hk => absurd (hown k _ hk) (hl k)

theorem Exclusive.congr (h : Exclusive own free) (hown : ∀ k, own' k = own k) : Exclusive own' free :=
  h.shrink (List.Sublist.refl _) fun k b hk => (hown k).symm.trans hk

/-- What dropped keys held may go to the free list, once each. -/
theorem Exclusive.release (h : Exclusive own free) {freed : List β} (hn : freed.Nodup)
    (hfreed : ∀ b ∈ freed, ∃ k, own k = some b ∧ own' k = none)
    (hown : ∀ k b, own' k = some b → own k = some b) : Exclusive own' (freed ++ free) := by
  refine ⟨?_, ?_, fun k k' b hk hk' => h.inj k k' b (hown k b hk) (hown k' b hk')⟩
  · refine hn.append h.nodup fun b hb hf => ?_
    obtain ⟨k, hk, _⟩ := hfreed b hb
    exact h.apart k b hk hf
  · intro k b hk hb
    rcases List.mem_append.mp hb with hb | hb
    · obtain ⟨k', hk', hnone⟩ := hfreed b hb
      rw [h.inj k k' b (hown k b hk) hk', hnone] at hk
      cases hk
    · exact h.apart k b (hown k b hk) hb

/-- Keys keep what they held or let it go to the free list. -/
theorem Accounted.step (h : Accounted own free b) (hfree : b ∈ free → Accounted own' free' b)
    (hown : ∀ k, own k = some b → Accounted own' free' b) : Accounted own' free' b :=
  h.elim hfree fun ⟨k, hk⟩ => hown k hk

/-- What leaves the free list is loose. -/
theorem Exclusive.loose_of_free (h : Exclusive own free) (hb : b ∈ free) : Loose own b :=
  fun k hk => h.apart k b hk hb

/-- The free resources and the keys in use, counted. -/
theorem Exclusive.card [DecidableEq β] (h : Exclusive own free) {all : Finset β} {keys : Finset κ}
    (hall : ∀ b, b ∈ all ↔ Accounted own free b) (hkeys : ∀ k, k ∈ keys ↔ ∃ b, own k = some b) : all.card = free.length + keys.card := by
  have hfree : (all.filter (· ∈ free)).card = free.length := by
    rw [← List.toFinset_card_of_nodup h.nodup]
    congr 1
    ext b
    rw [Finset.mem_filter, hall, List.mem_toFinset]
    exact and_iff_right_of_imp .inl
  have hheld : (all.filter (· ∉ free)).card = keys.card := by
    rw [← Finset.card_image_of_injOn (f := own) (s := keys) fun k hk k' hk' he => ?_, ← Finset.card_map Function.Embedding.some]
    · congr 1
      ext o
      simp only [Finset.mem_map, Finset.mem_filter, Finset.mem_image, hall, hkeys, Function.Embedding.some_apply]
      constructor
      · rintro ⟨b, ⟨hb, hnot⟩, rfl⟩
        obtain ⟨k, hk⟩ := hb.resolve_left hnot
        exact ⟨k, ⟨b, hk⟩, hk⟩
      · rintro ⟨k, ⟨b, hk⟩, rfl⟩
        exact ⟨b, ⟨.inr ⟨k, hk⟩, h.apart k b hk⟩, hk.symm⟩
    · obtain ⟨b, hb⟩ := (hkeys k).mp hk
      exact h.inj k k' b hb (he ▸ hb)
  rw [← hfree, ← hheld]
  exact (Finset.card_filter_add_card_filter_not _).symm
end Yfs.Ledger
