import Yfs.Create
import Yfs.TreeShape

/-! # Link counts -/

namespace Yfs

variable {g : Geometry} {f : DiskFormat} {fresh_dirty : Nat → Bool} {σ τ : FS} {sv sv₀ sv' : Server} {d e i cur : Int} {k l : Nat}
  {path name : CStr} {reqs : List Request} {resp : Response}

/-! ## Names of a file -/

/-- The live entries that name `i`, of what the root leads to. -/
def View.namesOf (v : View) (i : Int) : Set (Int × Nat) := {p | v.Reached p.1 ∧ v.Live p.1 p.2 i}

theorem namesOf_eq (ht : σ.Planted g) : σ.namesOf i = Tree.into (σ.nodes g).entries i := by
  ext ⟨e, l⟩
  constructor
  · rintro ⟨hr, hl⟩
    exact ⟨_, entries_eq_some.mpr ⟨ht.reached hr, hl, rfl⟩⟩
  · rintro ⟨c, he⟩
    obtain ⟨hused, hl, _⟩ := entries_eq_some.mp he
    exact ⟨(ht.reached_iff hl.dir).mp hused, hl⟩

theorem namesOf_finite (ht : σ.Planted g) : (σ.namesOf i).Finite := namesOf_eq ht ▸ finite_into

/-- Files have as many links as names. -/
def FS.LinksExact (g : Geometry) (σ : FS) : Prop :=
  ∀ i, g.isInode i → i ≠ 0 → σ.type i = INODE_REGULAR → (σ.namesOf i).Finite ∧ σ.nlink i = (σ.namesOf i).ncard

theorem FS.Planted.linksExact (ht : σ.Planted g) (hc : Tree.Counted (σ.nodes g)) : σ.LinksExact g := by
  intro i hi h0 htype
  refine ⟨namesOf_finite ht, ?_⟩
  rw [namesOf_eq ht]
  exact hc.links i ⟨hi, h0, htype⟩

/-! ## Runs -/

/-- What the runs of this section keep. -/
structure Counting (g : Geometry) (sv : Server) : Prop extends Sound g sv where
  planted : sv.fs.Planted g
  counted : Tree.Counted (sv.fs.nodes g)

theorem counting (hboot : boot (f.disk fresh_dirty) = some sv₀)
    (hmeets : sv₀.meets (fun σ req => req.Safe f.geometry σ ∧ req.KeepsTree f.geometry σ ∧ req.LinksFit σ) reqs)
    (hrun : serves sv₀ reqs = some sv) : Counting f.geometry sv := by
  have h := DiskFormat.started hboot
  exact serves_induction ⟨h.sound, h.planted, h.counted⟩ hmeets hrun fun sv req resp sv' h ⟨hsafe, hkeeps, hfits⟩ hs =>
    ⟨(h.step f.short hsafe hs).1, serve_planted h.toSound f.short h.planted hsafe hkeeps hs,
      serve_counted h.toSound f.short h.planted hsafe hkeeps hs hfits h.counted⟩

/-- Name `k` of `d` is gone, and the blocks of `i` are free if that was the last one, and hold what they held if not. -/
structure NameGone (σ τ : FS) (d : Int) (k : Nat) (i : Int) : Prop where
  named : (d, k) ∈ σ.namesOf i
  names : τ.namesOf i = σ.namesOf i \ {(d, k)}
  last : τ.namesOf i = ∅ → τ.b_head = (σ.fileBlocks i).reverse ++ σ.b_head ∧ τ.size i = 0
  more : τ.namesOf i ≠ ∅ → τ.b_head = σ.b_head ∧ τ.content i = σ.content i

theorem into_take {E E' : Int → Nat → Option (Int × CStr)} {c : CStr} (h : Tree.Take E E' d k i c) : Tree.into E' i = Tree.into E i \ {(d, k)} := by
  ext ⟨e, l⟩
  constructor
  · rintro ⟨b, he⟩
    obtain ⟨hold, hne⟩ := h.eq_some he
    exact ⟨⟨b, hold⟩, fun hm => hne (Prod.mk.inj hm)⟩
  · rintro ⟨⟨b, he⟩, hne⟩
    exact ⟨b, (h.others e l fun ⟨hed, hlk⟩ => hne (Prod.ext hed hlk)).trans he⟩

theorem removeEntry_size_last (h0 : (σ.removeEntry d k).nlink (σ.slotInum d k) = 0) : (σ.removeEntry d k).size (σ.slotInum d k) = 0 := by
  rw [removeEntry_nlink] at h0
  unfold FS.removeEntry
  dsimp only
  rw [if_pos h0]
  exact truncate_size

end Yfs
