import Yfs.Filing.Runs

/-! # What has been asked since the disk was made -/

namespace Yfs

open Catalog

variable {g : Geometry} {f : DiskFormat} {σ τ : FS} {sv sv₀ sv' : Server} {disk : Disk} {i size offset : Int} {path : CStr}
  {buf dst : UserBuf} {req : Request} {resp : Response} {reqs : List Request} {past log before after : List (Request × Response)}

/-! ## A restart -/

namespace FS.Shows

variable (h : σ.Shows g τ) (hw : WellFormed g σ)
include h hw

theorem catalog : τ.catalog g = σ.catalog g := ext_at fun e => sameAt_shown (h.taken e) fun he => h.same hw he.1

theorem named (hn : σ.Named g) : τ.Named g :=
  .of_at ((h.same hw g.isInode_zero).slots.trans hn.header) fun _ he hdir =>
    have hsame := h.same hw he
    hsame.namedAt (hn.at he (hsame.isDir.mp hdir))

end FS.Shows

/-- The next server starts where the last one stopped. -/
theorem Filing.restart (h : Filing f.geometry sv) (hd : Durable f sv') (hshows : sv.fs.Shows f.geometry sv'.fs) : Filing f.geometry sv' := by
  have hw := h.wellFormed
  have hcat := hshows.catalog hw
  have hsame : ∀ {e}, f.geometry.isInode e → sv.fs.Same sv'.fs.toView e := fun he => hshows.same hw he
  refine ⟨⟨hd.toOnDisk, hd.planted, hshows.named hw h.named, fun e he => ?_⟩, hd.dotted, hd.counted, fun e he hfile => ?_,
    fun e he hfile => ?_⟩
  · have hpos := ((hd.listed.free e).mp he).1.1
    have hfree : ¬ sv.fs.Taken f.geometry e := fun hused => ((hshows.taken e).mpr hused).2.1 he
    refine h.past e ?_
    by_contra hnot
    exact hfree ⟨hd.wellFormed.inodes e he, hnot, by omega⟩
  · have hused := hd.planted.named_taken (hshows.named hw h.named) he
    rw [hcat] at he
    exact (hsame hused.1).type.trans (h.typed e he fun hdir => hfile ((hsame hused.1).isDir.mpr hdir))
  · have hused := (hshows.taken e).mp he
    rw [(hsame he.1).size]
    exact h.sized e hused fun hdir => hfile ((hsame he.1).isDir.mpr hdir)

/-- A disk, and what has been asked of the servers that it comes from. -/
inductive DiskFormat.History (f : DiskFormat) : Disk → List (Request × Response) → Prop where
  | new (fresh_dirty : Nat → Bool) : f.History (f.disk fresh_dirty) []
  | next {disk disk' : Disk} {sv₀ sv : Server} {reqs : List Request} {past log : List (Request × Response)} {fresh_dirty : Nat → Bool}
    (h : f.History disk past) (hboot : boot disk = some sv₀)
    (hmeets : sv₀.meets (fun σ req => req.Filed f.geometry σ ∧ req.Orderly f.geometry σ) reqs) (hrun : replies sv₀ reqs = some (log, sv))
    (hdown : handle_shutdown fresh_dirty sv = some disk') : f.History disk' (past ++ log)

/-- Every disk boots to what has been asked. -/
theorem DiskFormat.History.boots (h : f.History disk past) : ∃ sv, boot disk = some sv ∧ Durable f sv ∧ Filing f.geometry sv ∧
    Runs selfName parentName (.fresh selfName parentName ROOTINODE f.aside) (past.map asked) (sv.fs.catalog f.geometry) := by
  induction h with
  | new fresh_dirty =>
    obtain ⟨sv, hboot⟩ : ∃ sv, boot (f.disk fresh_dirty) = some sv := DiskFormat.boots
    have hstarted := DiskFormat.started hboot
    refine ⟨sv, hboot, DiskFormat.durable hboot, hstarted.filing hboot, ?_⟩
    rw [hstarted.catalog]
    exact .nil _
  | next _ hboot hmeets hrun hdown ih =>
    obtain ⟨sv, hboot', hdurable, hfiling, hpast⟩ := ih
    obtain rfl := Option.some.inj (hboot.symm.trans hboot')
    have hafter := hdurable.after (hmeets.mono fun _ _ h => h.2) (serves_of_replies hrun)
    obtain ⟨hfiled, hruns⟩ := hfiling.runs f.short (hmeets.mono fun _ _ h => h.1) hrun
    obtain ⟨disk, hdown', hdisk⟩ := hafter.shutdown _
    obtain rfl := Option.some.inj (hdown.symm.trans hdown')
    obtain ⟨sv', hsv', hshows, hdurable'⟩ := hafter.restart hdisk
    refine ⟨sv', hsv', hdurable', hfiled.restart hdurable' hshows, ?_⟩
    rw [hshows.catalog hafter.wellFormed, List.map_append]
    exact hpast.append hruns

/-- A session on such a disk. -/
theorem DiskFormat.History.session (hdisk : f.History disk past) (hboot : boot disk = some sv₀)
    (hmeets : sv₀.meets (fun σ req => req.Filed f.geometry σ) reqs) (hrun : replies sv₀ reqs = some (log, sv)) : Filing f.geometry sv ∧
      Runs selfName parentName (.fresh selfName parentName ROOTINODE f.aside) ((past ++ log).map asked) (sv.fs.catalog f.geometry) := by
  obtain ⟨sv₁, hboot', _, hfiling, hpast⟩ := hdisk.boots
  obtain rfl := Option.some.inj (hboot.symm.trans hboot')
  obtain ⟨hfiled, hruns⟩ := hfiling.runs f.short hmeets hrun
  refine ⟨hfiled, ?_⟩
  rw [List.map_append]
  exact hpast.append hruns

/-! ## A small disk -/

/-- A file of ten bytes that moves to another name. -/
def moving : List Request :=
  [.create (some [SLASH, 97]) 1, .write 15 (filledBuf 7) 10 0, .link (some [SLASH, 97]) (some [SLASH, 98]) 1, .unlink (some [SLASH, 97]) 1]

theorem smallDisk_moved : ∃ sv₀ sv a₁ a₂ a₃ a₄, boot (smallDisk.disk fun _ => false) = some sv₀ ∧
    replies sv₀ moving = some ([(.create (some [SLASH, 97]) 1, a₁), (.write 15 (filledBuf 7) 10 0, a₂),
      (.link (some [SLASH, 97]) (some [SLASH, 98]) 1, a₃), (.unlink (some [SLASH, 97]) 1, a₄)], sv) ∧
    sv₀.meets (fun σ req => req.Filed smallDisk.geometry σ) moving ∧ a₂.ret ≠ ERROR ∧ sv.fs.PathTo [SLASH, 98] 15 := by
  obtain ⟨sv₀, hboot, h⟩ := Option.bind_eq_some_iff.mp (show ((boot (smallDisk.disk fun _ => false)).bind fun sv₀ =>
    (serve sv₀ (.create (some [SLASH, 97]) 1)).bind fun r₁ => (serve r₁.2 (.write 15 (filledBuf 7) 10 0)).bind fun r₂ =>
      (serve r₂.2 (.link (some [SLASH, 97]) (some [SLASH, 98]) 1)).bind fun r₃ =>
      (serve r₃.2 (.unlink (some [SLASH, 97]) 1)).map fun r₄ => decide (
        (sv₀.fs.superDir [SLASH, 97] 1 = (1, [97]) ∧ sv₀.fs.size 1 % 512 ≠ 0 ∧ sv₀.fs.Taken smallDisk.geometry 1 ∧
          ¬ sv₀.fs.isDir (sv₀.fs.lookup 1 [97]) ∧ sv₀.fs.nextInode ≠ 0) ∧
        (¬ r₁.2.fs.isDir 15 ∧ r₁.2.b_head.take 1 = [99] ∧ r₁.2.fs.blocks 15 = 0 ∧ r₁.2.fs.Taken smallDisk.geometry 15 ∧ 0 ≤ r₁.2.fs.size 15) ∧
        (r₂.2.fs.superDir [98] 1 = (1, [98]) ∧ r₂.2.fs.size 1 % 512 ≠ 0 ∧ r₂.2.fs.Taken smallDisk.geometry 1 ∧
          r₂.2.fs.nlink (r₂.2.fs.resolve [97] 1) + 1 < 2 ^ 15 ∧ r₂.1.ret ≠ ERROR) ∧
        (r₃.2.fs.superDir [SLASH, 97] 1 = (1, [97]) ∧ r₃.2.fs.Taken smallDisk.geometry 1 ∧ ¬ r₃.2.fs.isDir (r₃.2.fs.lookup 1 [97])) ∧
        r₄.2.fs.resolve [98] 1 = 15)) = some true by decide +kernel)
  obtain ⟨⟨a₁, sv₁⟩, hs₁, h⟩ := Option.bind_eq_some_iff.mp h
  obtain ⟨⟨a₂, sv₂⟩, hs₂, h⟩ := Option.bind_eq_some_iff.mp h
  obtain ⟨⟨a₃, sv₃⟩, hs₃, h⟩ := Option.bind_eq_some_iff.mp h
  obtain ⟨⟨a₄, sv⟩, hs₄, h⟩ := Option.map_eq_some_iff.mp h
  obtain ⟨⟨hsup, hroom, hroot, hfile, hnext⟩, ⟨hfile₁, hfree, hblocks, hused, hsize⟩, ⟨hsup₂, hroom₂, hroot₂, hlinks, hdone⟩,
    ⟨hsup₃, hroot₃, hfile₃⟩, hres⟩ := of_decide_eq_true h
  have hrun : replies sv₀ moving = some ([(.create (some [SLASH, 97]) 1, a₁), (.write 15 (filledBuf 7) 10 0, a₂),
        (.link (some [SLASH, 97]) (some [SLASH, 98]) 1, a₃), (.unlink (some [SLASH, 97]) 1, a₄)], sv) := by
    simp [moving, replies, hs₁, hs₂, hs₃, hs₄]
  have hwrite : sv₁.fs.WriteOk smallDisk.geometry 15 (filledBuf 7) 10 0 := by
    refine ⟨by decide, hfile₁, by decide, fun _ => by omega, fun b hb => ?_, fun _ hr => absurd hr.far (by decide)⟩
    rw [newBlocks, hblocks, show sv₁.fs.b_head = sv₁.b_head from rfl, show min 140 ((0 + 10 + 511 : Int) / 512).toNat - 0 = 1 from rfl,
      hfree, List.mem_singleton] at hb
    subst hb
    decide
  have hmeets : sv₀.meets (fun σ req => req.Filed smallDisk.geometry σ) moving := by
    refine ⟨?_, fun _ _ he₁ => ?_⟩
    · obtain ⟨hsafe, hkeeps⟩ := create_meets hroot.1 hsup hroom hroot hfile
      exact ⟨hsafe, hkeeps, show 0 ∉ [SLASH, 97] by decide, trivial, show basename [SLASH, 97] ≠ [] by decide, fun _ _ _ _ _ => hnext⟩
    obtain ⟨rfl, rfl⟩ := Prod.mk.inj (Option.some.inj (hs₁.symm.trans he₁))
    refine ⟨⟨hwrite, show (15 : Int) ≠ 0 by decide, trivial, trivial, trivial, hused, hsize⟩, fun _ _ he₂ => ?_⟩
    obtain ⟨rfl, rfl⟩ := Prod.mk.inj (Option.some.inj (hs₂.symm.trans he₂))
    refine ⟨?_, fun _ _ he₃ => ?_⟩
    · have hadj : adj_path_i [SLASH, 98] (adj_path_i [SLASH, 97] 1).2 = ([98], 1) := by decide
      obtain ⟨hsafe, hkeeps⟩ := link_meets hroot₂.1 hadj hsup₂ hroom₂ hroot₂
      exact ⟨hsafe, hkeeps, show 0 ∉ [SLASH, 98] by decide, hlinks, show basename [SLASH, 98] ≠ [] by decide,
        show 0 ∉ [SLASH, 97] by decide⟩
    obtain ⟨rfl, rfl⟩ := Prod.mk.inj (Option.some.inj (hs₃.symm.trans he₃))
    obtain ⟨hsafe, hkeeps⟩ := unlink_meets hroot₃.1 hsup₃ hroot₃ hfile₃
    exact ⟨⟨hsafe, hkeeps, trivial, trivial, trivial, show 0 ∉ [SLASH, 97] by decide⟩, fun _ _ _ => trivial⟩
  obtain ⟨hfiling, _⟩ := (DiskFormat.History.new _).session hboot hmeets hrun
  have hpath : HasPart [SLASH, 98] ∧ sv.fs.reference [SLASH, 98] 1 = some 15 :=
    resolve_reference hfiling.named hfiling.wellFormed hroot.1 (by decide) hres (by decide)
  exact ⟨sv₀, sv, a₁, a₂, a₃, a₄, hboot, hrun, hmeets, hdone, rfl, by decide, fun _ => hpath.2⟩

/-! ## The file store -/

/-- The request does not write `i`, and does not make or empty it. -/
def Request.Apart (i : Int) (req : Request) (resp : Response) : Prop :=
  match req with
  | .write j _ _ _ => j ≠ i
  | .create _ _ => resp.ret ≠ i
  | _ => True

theorem Request.Apart.not_touches (h : req.Apart i resp) : ¬ Touches i (asked (req, resp)) := by
  intro ht
  cases req with
  | write => exact h ht
  | read | seek | sync => exact ht
  | create path cur =>
    cases path with
    | none => exact ht
    | some path =>
      unfold asked Request.op Request.answer at ht
      dsimp only at ht
      split at ht
      case isTrue =>
        split at ht
        · cases ht
        · exact h (Answer.node.inj ht)
      case isFalse => exact ht
  | «open» path | unlink path | mkdir path | rmdir path | chdir path =>
    cases path with
    | none => exact ht
    | some path =>
      unfold asked Request.op at ht
      dsimp only at ht
      split at ht <;> exact ht
  | link old new =>
    cases old with
    | none => exact ht
    | some old =>
      cases new with
      | none => exact ht
      | some new =>
        unfold asked Request.op at ht
        dsimp only at ht
        split at ht <;> exact ht
  | stat path cur buf =>
    cases path with
    | none => exact ht
    | some path =>
      cases buf with
      | none => exact ht
      | some ok =>
        cases ok with
        | false => exact ht
        | true =>
          unfold asked Request.op at ht
          dsimp only at ht
          split at ht <;> exact ht

theorem asked_write (h : resp.ret ≠ ERROR) : asked (.write i buf size offset, resp) = (.write i offset.toNat (buf.slice 0 size.toNat), .ok) := by
  unfold asked Request.answer
  rw [if_neg h]
  rfl

end Yfs
