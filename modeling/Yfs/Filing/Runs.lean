import Yfs.Filing.Acts
import Yfs.Restart

/-! # The server is the file store that it is for -/

namespace Yfs

open Catalog

variable {g : Geometry} {f : DiskFormat} {fresh_dirty : Nat → Bool} {σ τ : FS} {sv sv₀ sv' : Server} {d e i cur ret : Int} {k : Nat}
  {path name : CStr} {req : Request} {resp : Response} {reqs : List Request}

/-- The condition on a request and the state before it. -/
structure Request.Filed (g : Geometry) (σ : FS) (req : Request) : Prop where
  safe : req.Safe g σ
  keeps : req.KeepsTree g σ
  plain : req.Plain σ
  fits : req.LinksFit σ
  ends : req.Ends
  proper : req.Proper g σ

/-! ## One round -/

/-- A reply that only packs what the handler returns. -/
theorem wp_reply {α : Type} {p : Prog α} {f : α → Response} {Q : Response → FS → Prop} (h : wp g p σ fun a τ => Q (f a) τ) :
    wp g (p >>= fun a => pure (f a)) σ Q := wp_bind.mpr (wp_mono (fun _ _ hr => wp_pure hr) h)

theorem handler_acts (h : σ.Filed g) (hshort : 8 * g.table ≤ 2 ^ 15) (hreq : req.Filed g σ)
    (hread : ∀ i buf size offset, req ≠ .read i buf size offset) : wp g req.handler σ fun resp τ => req.Acts g σ resp τ := by
  obtain ⟨hsafe, hkeeps, hplain, _, hends, hproper⟩ := hreq
  cases req with
  | «open» path =>
    cases path with
    | none => exact wp_pure (.of rfl (if_pos rfl) .senseless)
    | some path => exact wp_reply (h.handle_open_acts hsafe hproper)
  | create path =>
    cases path with
    | none => exact wp_pure (.of rfl (if_pos rfl) .senseless)
    | some path => exact wp_reply (h.handle_create_acts hshort hsafe hkeeps hplain hends hproper)
  | read => exact absurd rfl (hread _ _ _ _)
  | write => exact wp_reply (h.handle_write_acts hsafe hproper)
  | seek => exact wp_bind.mpr (handle_seek_spec hsafe fun _ => wp_pure (.other _))
  | link old new =>
    cases old with
    | none => exact wp_pure (.of rfl (if_pos rfl) .senseless)
    | some old =>
      cases new with
      | none => exact wp_pure (.of rfl (if_pos rfl) .senseless)
      | some new => exact wp_reply (h.handle_link_acts hshort hsafe hkeeps hplain hends hproper)
  | unlink path =>
    cases path with
    | none => exact wp_pure (.of rfl (if_pos rfl) .senseless)
    | some path => exact wp_reply (h.handle_unlink_acts hsafe hkeeps hproper)
  | mkdir path =>
    cases path with
    | none => exact wp_pure (.of rfl (if_pos rfl) .senseless)
    | some path => exact wp_reply (h.handle_mkdir_acts hshort hsafe hkeeps hplain hends)
  | rmdir path =>
    cases path with
    | none => exact wp_pure (.of rfl (if_pos rfl) .senseless)
    | some path => exact wp_reply (h.handle_rmdir_acts hsafe hkeeps hproper)
  | chdir path =>
    cases path with
    | none => exact wp_pure (.of rfl (if_pos rfl) .senseless)
    | some path => exact wp_reply (h.handle_chdir_acts hsafe hproper)
  | stat path =>
    cases path with
    | none => exact wp_pure (.other _)
    | some path => exact wp_reply (h.handle_stat_acts hsafe hproper)
  | sync => exact wp_pure (.other _)

/-! ## Files stay files -/

/-- A file in use was one or is new. -/
theorem taken_before (h : τ.i_head = σ.i_head.tail) (he : τ.Taken g e) (hne : e ≠ σ.nextInode) : σ.Taken g e := by
  refine ⟨he.1, fun hm => ?_, he.2.2⟩
  cases hl : σ.i_head with
  | nil =>
    rw [hl] at hm
    cases hm
  | cons a rest =>
    rw [hl] at hm
    rcases List.mem_cons.mp hm with rfl | hm
    · exact hne (by rw [FS.nextInode, hl]; rfl)
    · exact he.2.1 (by rwa [h, hl])

theorem removeEntry_size : (σ.removeEntry d k).size e = σ.size e ∨ (σ.removeEntry d k).size e = 0 := by
  have hlinks : (σ.addLinks (σ.slotInum d k) (-1)).size e = σ.size e := addLinks_edits e .size (by simp)
  unfold FS.removeEntry
  dsimp only
  split
  · by_cases he : e = σ.slotInum d k
    · exact .inr (he ▸ truncate_size)
    · exact .inl ((truncate_edits e .size (by simp [he])).trans hlinks)
  · exact .inl hlinks

/-- A file in use was one, and has grown or is empty, or is new. -/
theorem Effect.file_cases (h : Effect σ req ret τ) (hf : σ.Filed g) (hshort : 8 * g.table ≤ 2 ^ 15) (hreq : req.Filed g σ) (he : τ.Taken g e)
    (hfile : ¬ τ.isDir e) : σ.Taken g e ∧ (σ.size e ≤ τ.size e ∨ τ.size e = 0) ∨ τ.type e = INODE_REGULAR ∧ τ.size e = 0 := by
  have ht := hf.planted
  have hdir : ∀ {d}, σ.Taken g d → σ.isDir d → e ≠ d := by
    rintro d hd hdir rfl
    exact hfile ((h.type hd.2.1 hd.2.2).trans hdir)
  have hsame (hhead : τ.i_head = σ.i_head) (hsize : σ.size e ≤ τ.size e ∨ τ.size e = 0) :
      σ.Taken g e ∧ (σ.size e ≤ τ.size e ∨ τ.size e = 0) ∨ τ.type e = INODE_REGULAR ∧ τ.size e = 0 := .inl ⟨(taken_same hhead).mp he, hsize⟩
  have hplaced : ∀ {d : Int} {name : CStr} {k : Nat} {σ₁ : FS}, Placed σ d name k σ₁ → e ≠ d → σ₁.size e = σ.size e :=
    fun hp hne => hp.edits e .size fun hf => hne hf.1
  obtain ⟨hsafe, hkeeps, _, _, _, hproper⟩ := hreq
  cases h with
  | looked => exact hsame rfl (.inl le_rfl)
  | refused => exact hsame rfl (.inl le_rfl)
  | create h =>
    cases h with
    | error => exact hsame rfl (.inl le_rfl)
    | @done d _ name _ _ hsup hne hisdir h =>
      have hd := hdir (ht.superDir hkeeps.1 hsup hne) hisdir
      cases h with
      | taken => exact hsame rfl (.inl le_rfl)
      | @truncated k =>
        refine hsame rfl ?_
        by_cases hek : e = σ.slotInum d k
        · exact .inr (hek ▸ truncate_size)
        · exact .inl (truncate_edits e .size fun hf => hek hf.1).ge
      | linked hp _ hn => exact absurd rfl hn
      | @made k σ₁ hp =>
        by_cases hnext : e = σ₁.nextInode
        · subst hnext
          obtain ⟨htype, hsize, _⟩ := newFile_fields (σ := σ₁) (d := d) (k := k) (c := name)
          exact .inr ⟨htype, hsize⟩
        · refine .inl ⟨taken_before (by rw [newFile_i_head, hp.i_head]) he (hp.nextInode ▸ hnext), .inl ?_⟩
          exact ((newFile_edits e .size hnext).trans (hplaced hp hd)).ge
  | @write i _ _ _ _ _ h =>
    have hkept := h.kept hf.wellFormed hsafe
    refine hsame hkept.i_head (.inl ?_)
    by_cases hei : e = i
    · subst hei
      obtain ⟨_, _, _, hgrown, _⟩ := h.splices hf.wellFormed hsafe hproper.2
      exact hgrown
    · exact (congrArg Inode.size (hkept.inode e hei)).ge
  | @link old new cur _ _ h =>
    cases h with
    | error => exact hsame rfl (.inl le_rfl)
    | done _ _ _ _ hsup hne hisdir hp =>
      have hstart : σ.Taken g (adj_path_i new (adj_path_i old cur).2).2 := by
        rw [adj_path_i_start, adj_path_i_start]
        exact ht.start hkeeps
      refine hsame hp.i_head (.inl ?_)
      exact ((addLinks_edits e .size (by simp)).trans (hplaced hp (hdir (ht.superDir (ht.start hstart) hsup hne) hisdir))).ge
  | unlink h =>
    cases h with
    | error => exact hsame rfl (.inl le_rfl)
    | done => exact hsame removeEntry_i_head (removeEntry_size.imp_left Eq.ge)
  | @mkdir path cur _ _ h =>
    cases h with
    | error => exact hsame rfl (.inl le_rfl)
    | @done d k name σ₁ _ hsup hne hisdir hp hfree =>
      obtain ⟨hlen, hblock, hdata⟩ := hsafe.2.2 _ _ _ _ hsup hp hfree
      have hstart : σ.Taken g (View.start (from_root path cur).1 (from_root path cur).2) := by
        rw [start_from_root]
        exact hkeeps.1
      have hd := ht.superDir hstart hsup hne
      have hnext : e ≠ σ.nextInode := by
        rintro rfl
        exact hfile (newDir_head hp hf.wellFormed hd.1 hisdir (hsafe.2.1 _ _ hsup hne).2 hlen hshort hblock hdata).1
      refine .inl ⟨taken_before (by rw [newDir_i_head, hp.i_head]) he hnext, .inl ?_⟩
      exact ((newDir_edits e .size (hp.nextInode ▸ hnext)).trans (hplaced hp (hdir hd hisdir))).ge
  | @rmdir path cur _ _ h =>
    cases h with
    | error => exact hsame rfl (.inl le_rfl)
    | @done i _ _ _ _ _ hi hsize hsup hne hisdir hp =>
      obtain ⟨htaken, _, _, honly⟩ := hkeeps.2 i hi hsize
      have hstart : σ.Taken g (View.start (from_root path cur).1 (from_root path cur).2) := by
        rw [start_from_root]
        exact hkeeps.1
      have hd := ht.superDir_drop hf.wellFormed htaken hstart hsup hne
      have hdir' := (dropDir_same hf.wellFormed htaken.1 hd.1 (honly _ _ hsup hne).1).isDir.mp hisdir
      obtain ⟨hused, hei⟩ := (taken_cons (show _ = i :: σ.i_head from hp.i_head)).mp he
      refine .inl ⟨hused, .inl ?_⟩
      exact ((hp.edits e .size fun hf => hdir hd hdir' hf.1).trans (dropDir_edits e .size fun hf => hei hf.1)).ge

/-! ## The server -/

/-- What the runs of this section keep. -/
structure Filing (g : Geometry) (sv : Server) : Prop extends Naming g sv where
  dotted : sv.fs.Dotted g
  counted : Tree.Counted (sv.fs.nodes g)
  typed : ∀ i, (sv.fs.catalog g).Named i → ¬ sv.fs.isDir i → sv.fs.type i = INODE_REGULAR
  sized : ∀ i, sv.fs.Taken g i → ¬ sv.fs.isDir i → 0 ≤ sv.fs.size i

theorem Filing.filed (h : Filing g sv) : sv.fs.Filed g := ⟨h.wellFormed, h.planted, h.named, h.dotted, h.counted, h.typed, h.sized⟩

section

variable (h : Filing g sv) (hshort : 8 * g.table ≤ 2 ^ 15) (hreq : req.Filed g sv.fs) (hserve : serve sv req = some (resp, sv'))
include h hshort hreq hserve

/-- One round is one request on the files and names. -/
theorem Filing.acts : req.Acts g sv.fs resp sv'.fs := by
  obtain ⟨hsound, σ', heff, _, hagree⟩ := h.toSound.step hshort hreq.safe hserve
  by_cases hread : ∃ i buf size offset, req = .read i buf size offset
  · obtain ⟨i, buf, size, offset, rfl⟩ := hread
    exact read_acts h.toOnDisk h.filed hshort hreq.proper hserve
  by_cases hsync : req = .sync
  · subst hsync
    obtain rfl := heff.of_looks rfl
    refine .of rfl rfl ?_
    rw [hagree.catalog hsound.wellFormed]
    exact .other _
  · have hacts := handler_acts h.filed hshort hreq fun i buf size offset he => hread ⟨i, buf, size, offset, he⟩
    obtain ⟨τ, hstep, hrel⟩ := h.toOnDisk.answered hsync hacts hserve
    rw [Request.Acts, hrel.agrees.catalog hsound.wellFormed]
    exact hstep

theorem Filing.step : Filing g sv' := by
  have hacts := h.acts hshort hreq hserve
  have hnaming := h.toNaming.step hshort hreq.safe hreq.keeps hreq.plain hreq.ends hserve
  obtain ⟨_, σ', heff, _, hagree⟩ := h.toSound.step hshort hreq.safe hserve
  have htaken : ∀ i, sv'.fs.Taken g i → σ'.Taken g i := fun i => (taken_same (congrArg Globals.i_head hagree.globals)).mp
  have htype : ∀ i, g.isInode i → sv'.fs.type i = σ'.type i := fun i hi => congrArg Inode.type (hagree.inode i hi)
  have hfile : ∀ i, sv'.fs.Taken g i → ¬ sv'.fs.isDir i → ¬ σ'.isDir i := fun i hi hfile hdir => hfile ((htype i hi.1).trans hdir)
  refine ⟨hnaming, serve_dotted h.toSound hshort h.planted hreq.safe hreq.keeps hserve hreq.plain h.dotted,
    serve_counted h.toSound hshort h.planted hreq.safe hreq.keeps hserve hreq.fits h.counted, fun i hi hleaf => ?_, fun i hi hleaf => ?_⟩
  · have hused' := hnaming.planted.named_taken hnaming.named hi
    have hleaf' := hfile i hused' hleaf
    rw [htype i hused'.1]
    rcases heff.file_cases h.filed hshort hreq (htaken i hused') hleaf' with ⟨hold, _⟩ | ⟨hregular, _⟩
    · have hkeep := heff.type hold.2.1 hold.2.2
      have hnotdir : ¬ sv.fs.isDir i := fun hdir => hleaf' (hkeep.trans hdir)
      refine hkeep.trans (h.typed i ?_ hnotdir)
      rcases Step.named hacts hi with hnamed | hfree | hdir
      · exact hnamed
      · exact absurd hold hfree
      · exact absurd hdir.2 hnotdir
    · exact hregular
  · have hsize : sv'.fs.size i = σ'.size i := congrArg Inode.size (hagree.inode i hi.1)
    have hleaf' := hfile i hi hleaf
    rw [hsize]
    rcases heff.file_cases h.filed hshort hreq (htaken i hi) hleaf' with ⟨hold, hgrown⟩ | ⟨_, hempty⟩
    · have := h.sized i hold fun hdir => hleaf' ((heff.type hold.2.1 hold.2.2).trans hdir)
      omega
    · omega

end

/-! ## Runs -/

/-- The server that has answered the requests, and its replies. -/
def replies (sv : Server) : List Request → Option (List (Request × Response) × Server)
  | [] => some ([], sv)
  | req :: reqs => do
    let (resp, sv) ← serve sv req
    let (log, sv) ← replies sv reqs
    return ((req, resp) :: log, sv)

/-- What has been asked, and the answer. -/
def asked (x : Request × Response) : Op Int EntryName UInt8 × Answer Int UInt8 := (x.1.op, x.1.answer x.2)

theorem replies_cons {log : List (Request × Response)} (h : replies sv (req :: reqs) = some (log, sv')) :
    ∃ resp sv₁ log', serve sv req = some (resp, sv₁) ∧ replies sv₁ reqs = some (log', sv') ∧ log = (req, resp) :: log' := by
  obtain ⟨⟨resp, sv₁⟩, hserve, h⟩ := Option.bind_eq_some_iff.mp h
  obtain ⟨⟨log', sv₂⟩, hrest, h⟩ := Option.bind_eq_some_iff.mp h
  obtain ⟨rfl, rfl⟩ := Prod.mk.inj (Option.some.inj h)
  exact ⟨resp, sv₁, log', hserve, hrest, rfl⟩

theorem serves_of_replies {log : List (Request × Response)} (h : replies sv reqs = some (log, sv')) : serves sv reqs = some sv' := by
  induction reqs generalizing sv log with
  | nil =>
    obtain ⟨_, rfl⟩ := Prod.mk.inj (Option.some.inj h)
    rfl
  | cons req reqs ih =>
    obtain ⟨resp, sv₁, log', hserve, hrest, rfl⟩ := replies_cons h
    rw [serves, hserve]
    exact ih hrest

theorem Filing.runs {log : List (Request × Response)} (h : Filing g sv) (hshort : 8 * g.table ≤ 2 ^ 15)
    (hmeets : sv.meets (fun σ req => req.Filed g σ) reqs) (hrun : replies sv reqs = some (log, sv')) :
    Filing g sv' ∧ Runs selfName parentName (sv.fs.catalog g) (log.map asked) (sv'.fs.catalog g) := by
  induction reqs generalizing sv log with
  | nil =>
    obtain ⟨rfl, rfl⟩ := Prod.mk.inj (Option.some.inj hrun)
    exact ⟨h, .nil _⟩
  | cons req reqs ih =>
    obtain ⟨resp, sv₁, log', hserve, hrest, rfl⟩ := replies_cons hrun
    obtain ⟨hfiling, hruns⟩ := ih (h.step hshort hmeets.1 hserve) (hmeets.2 _ _ hserve) hrest
    exact ⟨hfiling, .cons (h.acts hshort hmeets.1 hserve) hruns⟩

/-! ## A new disk -/

/-- The inodes past what boot scans are never handed out. -/
def DiskFormat.aside (f : DiskFormat) (i : Int) : Prop := scanEnd f.num_inodes ≤ i ∧ i < f.geometry.inodes

section

variable (h : f.Started sv)
include h

theorem DiskFormat.Started.taken : sv.fs.Taken f.geometry i ↔ i = ROOTINODE ∨ f.aside i := by
  have hnum := f.two
  have hend : 2 ≤ scanEnd f.num_inodes := by
    rw [scanEnd, if_neg (by omega)]
    omega
  have hroot := f.geometry.isInode_root
  have hhead : i ∈ sv.fs.i_head ↔ 2 ≤ i ∧ i < scanEnd f.num_inodes := h.i_head i
  rw [FS.Taken, hhead, DiskFormat.aside]
  simp only [Geometry.isInode, ROOTINODE] at hroot ⊢
  omega

theorem DiskFormat.Started.named : sv.fs.Named f.geometry := by
  have hnum := f.two
  have hfits := f.fits
  have hmax := f.max
  exact h.fresh.named (by omega) (by omega) rfl

theorem DiskFormat.Started.isDir (he : sv.fs.Taken f.geometry e) : sv.fs.isDir e ↔ e = ROOTINODE := by
  refine ⟨fun hdir => ?_, fun hroot => hroot ▸ h.root.2⟩
  by_contra h1
  exact absurd ((h.typeless he.1 he.2.2 h1).symm.trans hdir) (by decide)

theorem DiskFormat.Started.size_zero (he : sv.fs.Taken f.geometry e) (hfile : ¬ sv.fs.isDir e) : sv.fs.size e = 0 := by
  have h1 : ¬ e = 1 := fun hroot => hfile ((h.isDir he).mpr hroot)
  have hpos := he.1.1
  have h0 := he.2.2
  rw [View.size, h.fresh.inode e (by omega) he.1.2, if_neg h1, Inode.size, Inode.get_zero]

theorem DiskFormat.Started.edge {b : EntryName} : (sv.fs.catalog f.geometry).edge e b = some i ↔
    e = ROOTINODE ∧ i = ROOTINODE ∧ (b = selfName ∨ b = parentName) := by
  have hself : cname (rootBlock.name (slotOffset 0)) = selfName.1 := by decide +kernel
  have hparent : cname (rootBlock.name (slotOffset 1)) = parentName.1 := by decide +kernel
  rw [edge_entries h.named]
  constructor
  · rintro ⟨l, hl⟩
    obtain ⟨rfl, hlt, rfl, hname⟩ := h.entry hl
    obtain rfl | rfl : l = 0 ∨ l = 1 := by omega
    · exact ⟨rfl, rfl, .inl (Subtype.ext (hname.trans hself))⟩
    · exact ⟨rfl, rfl, .inr (Subtype.ext (hname.trans hparent))⟩
  · rintro ⟨rfl, rfl, rfl | rfl⟩
    · exact ⟨0, hself ▸ h.root_entry (by decide)⟩
    · exact ⟨1, hparent ▸ h.root_entry (by decide)⟩

/-- What boot finds on a new disk. -/
theorem DiskFormat.Started.catalog : sv.fs.catalog f.geometry = .fresh selfName parentName ROOTINODE f.aside := by
  refine Catalog.ext (funext fun e => propext h.taken) (funext fun e => propext ?_) (funext fun e => funext fun b => Option.ext fun i => ?_)
    (funext fun e => ?_)
  · exact ⟨fun hdir => (h.isDir hdir.1).mp hdir.2, fun hroot => hroot ▸ h.root⟩
  · rw [h.edge]
    show _ ↔ Function.update (fun _ _ => none) ROOTINODE (links selfName parentName ROOTINODE ROOTINODE) e b = some i
    by_cases he : e = ROOTINODE
    · subst he
      rw [Function.update_self, links]
      split
      case isTrue hb => simp [hb, eq_comm]
      case isFalse hb =>
        split
        case isTrue hb' => simp [hb', eq_comm]
        case isFalse hb' => simp [hb, hb']
    · rw [Function.update_of_ne he]
      simp [he]
  · by_cases he : sv.fs.Taken f.geometry e ∧ ¬ sv.fs.isDir e
    · exact (content_file he.1 he.2).trans (content_empty (h.size_zero he.1 he.2))
    · exact if_neg he

theorem DiskFormat.Started.filing (hboot : boot (f.disk fresh_dirty) = some sv) : Filing f.geometry sv := by
  have hnaming : Naming f.geometry sv := by
    refine ⟨DiskFormat.onDisk hboot, h.planted, h.named, fun i hi => ?_⟩
    have := ((h.i_head i).mp hi).1
    simp only [ROOTINODE]
    omega
  refine ⟨hnaming, h.dotted, h.counted, fun i hi hfile => ?_, fun i hi hfile => ?_⟩
  · obtain ⟨e, c, he⟩ := hi
    exact absurd ((h.edge.mp he).2.1 ▸ h.root.2) hfile
  · exact (h.size_zero hi hfile).ge

end

end Yfs
