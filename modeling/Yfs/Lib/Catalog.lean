import Yfs.Lib.Names
import Yfs.Lib.Splice

/-! # Named files

What a file server is for: names that lead from directories to files and directories, and the bytes of the files.
-/

namespace Yfs

/-- The nodes in use, which of them are directories, where their names lead, and what the others hold. -/
@[ext]
structure Catalog (N C B : Type) where
  used : N → Prop
  dir : N → Prop
  edge : N → C → Option N
  content : N → List B

/-- A name in the directory that a walk leads to. -/
structure Place (N C : Type) where
  start : N
  path : List C
  name : C

namespace Catalog

open Splice

/-- What is asked. `other`: no name and no bytes. `ready`: the memory for the answer is there. -/
inductive Op (N C B : Type) where
  | senseless
  | other
  | find (start : N) (path : List C)
  | read (i : N) (offset size : Nat) (ready : Prop)
  | create (p : Place N C)
  | write (i : N) (offset : Nat) (bytes : List B)
  | link (start : N) (path : List C) (new : Place N C)
  | unlink (p : Place N C)
  | mkdir (p : Place N C)
  | rmdir (p : Place N C)

inductive Answer (N B : Type) where
  | refused
  | ok
  | node (i : N)
  | data (bytes : List B)

variable {N C B : Type} {s t : Catalog N C B} {self parent c name : C} {d e i j start : N} {path : List C} {op : Op N C B} {a : Answer N B}
  {log : List (Op N C B × Answer N B)} {bytes : List B}

/-- Some name leads to `i`. -/
def Named (s : Catalog N C B) (i : N) : Prop := ∃ d c, s.edge d c = some i

/-- `d` is the directory of the place. -/
def At (s : Catalog N C B) (p : Place N C) (d : N) : Prop := Names.follow s.edge p.start p.path = some d ∧ s.dir d

section

variable [DecidableEq N]

def fill (s : Catalog N C B) (i : N) (bytes : List B) : Catalog N C B := { s with content := Function.update s.content i bytes }

/-- A new file. -/
def addFile (s : Catalog N C B) (i : N) : Catalog N C B :=
  { s with used := fun e => e = i ∨ s.used e, content := Function.update s.content i [] }

/-- A new directory, with the names `links`. -/
def addDir (s : Catalog N C B) (i : N) (links : C → Option N) : Catalog N C B :=
  { s with used := fun e => e = i ∨ s.used e, dir := fun e => e = i ∨ s.dir e, edge := Function.update s.edge i links }

def remove (s : Catalog N C B) (i : N) : Catalog N C B where
  used e := e ≠ i ∧ s.used e
  dir e := e ≠ i ∧ s.dir e
  edge := Function.update s.edge i fun _ => none
  content := s.content

variable [DecidableEq C]

/-- The name `c` of `d` leads to `target`, or nowhere. -/
def point (s : Catalog N C B) (d : N) (c : C) (target : Option N) : Catalog N C B :=
  { s with edge := fun e b => if e = d ∧ b = c then target else s.edge e b }

/-- The names in a new directory. -/
def links (self parent : C) (d i : N) (c : C) : Option N := if c = self then some i else if c = parent then some d else none

/-- A directory alone. The nodes that are set aside are not for use. -/
def fresh (self parent : C) (root : N) (aside : N → Prop) : Catalog N C B where
  used i := i = root ∨ aside i
  dir i := i = root
  edge := Function.update (fun _ _ => none) root (links self parent root root)
  content _ := []

variable (self parent) in
/-- One request. -/
inductive Step (s : Catalog N C B) : Op N C B → Answer N B → Catalog N C B → Prop
  | senseless : Step s .senseless .refused s
  | other (a : Answer N B) : Step s .other a s
  | found {start i : N} {path : List C} (h : Names.follow s.edge start path = some i) : Step s (.find start path) (.node i) s
  | missing {start : N} {path : List C} (h : Names.follow s.edge start path = none) : Step s (.find start path) .refused s
  | slice {i : N} {offset size : Nat} {ready : Prop} (hfile : ¬ s.dir i) (hin : offset ≤ (s.content i).length) :
    Step s (.read i offset size ready) (.data (((s.content i).drop offset).take size)) s
  | past {i : N} {offset size : Nat} {ready : Prop} (hout : (s.content i).length < offset) : Step s (.read i offset size ready) .refused s
  /-- The bytes of a directory, or an answer that cannot be delivered. -/
  | unsaid {i : N} {offset size : Nat} {ready : Prop} (a : Answer N B) (h : s.dir i ∨ ¬ ready) : Step s (.read i offset size ready) a s
  | made {p : Place N C} {d i : N} (hd : s.At p d) (hnone : s.edge d p.name = none) (hi : ¬ s.used i) :
    Step s (.create p) (.node i) ((s.addFile i).point d p.name (some i))
  | emptied {p : Place N C} {d i : N} (hd : s.At p d) (he : s.edge d p.name = some i) (hfile : ¬ s.dir i) :
    Step s (.create p) (.node i) (s.fill i [])
  | notMade {p : Place N C} (h : ∀ d, ¬ s.At p d) : Step s (.create p) .refused s
  | wrote {i : N} {offset : Nat} {bytes : List B} (hi : s.used i) (hfile : ¬ s.dir i) (hin : offset ≤ (s.content i).length) :
    Step s (.write i offset bytes) .ok (s.fill i (splice (s.content i) offset bytes))
  /-- What has been written stays. -/
  | cut {i : N} {offset : Nat} {bytes : List B} (n : Nat) (hn : n ≤ bytes.length) (hi : s.used i) (hfile : ¬ s.dir i)
    (hin : offset ≤ (s.content i).length) :
    Step s (.write i offset bytes) .refused (s.fill i (splice (s.content i) offset (bytes.take n)))
  | linked {start i d : N} {path : List C} {new : Place N C} (hi : Names.follow s.edge start path = some i) (hpath : path ≠ [])
    (hfile : ¬ s.dir i) (hd : s.At new d) (hnone : s.edge d new.name = none) : Step s (.link start path new) .ok (s.point d new.name (some i))
  | notLinked {start : N} {path : List C} {new : Place N C} (h : ∀ i d, Names.follow s.edge start path = some i → ¬ s.dir i → s.At new d →
    s.edge d new.name ≠ none) : Step s (.link start path new) .refused s
  | unlinked {p : Place N C} {d i : N} (hd : s.At p d) (he : s.edge d p.name = some i) (hfile : ¬ s.dir i)
    (hmore : (s.point d p.name none).Named i) : Step s (.unlink p) .ok (s.point d p.name none)
  /-- The last name. -/
  | erased {p : Place N C} {d i : N} (hd : s.At p d) (he : s.edge d p.name = some i) (hfile : ¬ s.dir i)
    (hlast : ¬ (s.point d p.name none).Named i) : Step s (.unlink p) .ok ((s.point d p.name none).fill i [])
  /-- The answer may be that it went well. -/
  | notUnlinked {p : Place N C} (a : Answer N B) (h : ∀ d, s.At p d → s.edge d p.name = none) : Step s (.unlink p) a s
  | madeDir {p : Place N C} {d i : N} (hd : s.At p d) (hnone : s.edge d p.name = none) (hi : ¬ s.used i) :
    Step s (.mkdir p) .ok ((s.addDir i (links self parent d i)).point d p.name (some i))
  | notMadeDir {p : Place N C} (h : ∀ d, s.At p d → s.edge d p.name ≠ none) : Step s (.mkdir p) .refused s
  | removed {p : Place N C} {d i : N} (hd : s.At p d) (he : s.edge d p.name = some i) (hdir : s.dir i) (hne : d ≠ i)
    (hempty : ∀ c j, s.edge i c = some j → c = self ∨ c = parent) : Step s (.rmdir p) .ok ((s.point d p.name none).remove i)
  | notRemoved {p : Place N C} : Step s (.rmdir p) .refused s

variable (self parent) in
/-- Requests one after the other, with their answers. -/
inductive Runs : Catalog N C B → List (Op N C B × Answer N B) → Catalog N C B → Prop
  | nil (s : Catalog N C B) : Runs s [] s
  | cons {s t u : Catalog N C B} {op : Op N C B} {a : Answer N B} {log : List (Op N C B × Answer N B)} (h : Step self parent s op a t)
    (hs : Runs t log u) : Runs s ((op, a) :: log) u

end

section

variable [DecidableEq N] [DecidableEq C] {u : Catalog N C B} {log' : List (Op N C B × Answer N B)}

theorem Runs.append (h : Runs self parent s log t) (h' : Runs self parent t log' u) : Runs self parent s (log ++ log') u := by
  induction h with
  | nil => exact h'
  | cons hstep _ ih => exact .cons hstep (ih h')

theorem Runs.of_append (h : Runs self parent s (log ++ log') u) : ∃ t, Runs self parent s log t ∧ Runs self parent t log' u := by
  induction log generalizing s with
  | nil => exact ⟨s, .nil s, h⟩
  | cons x log ih =>
    cases h with
    | cons hstep hs =>
      obtain ⟨t, h, h'⟩ := ih hs
      exact ⟨t, .cons hstep h, h'⟩

end

/-! ## One node -/

/-- `s` and `t` are the same at `e`. -/
structure SameAt (s t : Catalog N C B) (e : N) : Prop where
  used : s.used e ↔ t.used e
  dir : s.dir e ↔ t.dir e
  edge : ∀ c, s.edge e c = t.edge e c
  content : s.content e = t.content e

theorem ext_at (h : ∀ e, s.SameAt t e) : s = t :=
  Catalog.ext (funext fun e => propext (h e).used) (funext fun e => propext (h e).dir) (funext fun e => funext (h e).edge)
    (funext fun e => (h e).content)

theorem SameAt.symm (h : s.SameAt t e) : t.SameAt s e := ⟨h.used.symm, h.dir.symm, fun c => (h.edge c).symm, h.content.symm⟩

theorem SameAt.trans {u : Catalog N C B} (h : s.SameAt t e) (h' : t.SameAt u e) : s.SameAt u e :=
  ⟨h.used.trans h'.used, h.dir.trans h'.dir, fun c => (h.edge c).trans (h'.edge c), h.content.trans h'.content⟩

section

variable [DecidableEq N] (hne : e ≠ i)
include hne

theorem fill_elsewhere : (s.fill i bytes).SameAt s e := ⟨Iff.rfl, Iff.rfl, fun _ => rfl, Function.update_of_ne hne _ _⟩

theorem addFile_elsewhere : (s.addFile i).SameAt s e := ⟨or_iff_right hne, Iff.rfl, fun _ => rfl, Function.update_of_ne hne _ _⟩

theorem addDir_elsewhere {links : C → Option N} : (s.addDir i links).SameAt s e :=
  ⟨or_iff_right hne, or_iff_right hne, fun c => congrFun (Function.update_of_ne hne _ _) c, rfl⟩

theorem remove_elsewhere : (s.remove i).SameAt s e :=
  ⟨and_iff_right hne, and_iff_right hne, fun c => congrFun (Function.update_of_ne hne _ _) c, rfl⟩

theorem point_elsewhere [DecidableEq C] {target : Option N} : (s.point i c target).SameAt s e :=
  ⟨Iff.rfl, Iff.rfl, fun _ => if_neg fun h => hne h.1, rfl⟩

end

theorem SameAt.point [DecidableEq N] [DecidableEq C] {target : Option N} (h : s.SameAt t e) : (s.point d c target).SameAt (t.point d c target) e := by
  refine ⟨h.used, h.dir, fun b => ?_, h.content⟩
  dsimp only [Catalog.point]
  rw [h.edge]

/-! ## What a file holds -/

theorem named_of_follow (h : Names.follow s.edge start path = some i) (hne : path ≠ []) : s.Named i := by
  obtain ⟨cs, c, rfl⟩ := (List.eq_nil_or_concat path).resolve_left hne
  rw [List.concat_eq_append, Names.follow_concat, Option.bind_eq_some_iff] at h
  obtain ⟨d, _, he⟩ := h
  exact ⟨d, c, he⟩

/-- The request writes file `i`, or has emptied it. -/
def Touches (i : N) (x : Op N C B × Answer N B) : Prop :=
  match x with
  | (.write j _ _, _) => j = i
  | (.create _, a) => a = .node i
  | _ => False

section

variable [DecidableEq N] [DecidableEq C]

theorem named_point (h : (s.point d c (some j)).Named i) : j = i ∨ s.Named i := by
  obtain ⟨e, b, he⟩ := h
  dsimp only [point] at he
  split at he
  · exact .inl (Option.some.inj he)
  · exact .inr ⟨e, b, he⟩

theorem named_unpoint (h : (s.point d c none).Named i) : s.Named i := by
  obtain ⟨e, b, he⟩ := h
  dsimp only [point] at he
  split at he
  · cases he
  · exact ⟨e, b, he⟩

theorem named_addDir (h : (s.addDir j (links self parent d j)).Named i) : j = i ∨ d = i ∨ s.Named i := by
  obtain ⟨e, b, he⟩ := h
  dsimp only [addDir] at he
  by_cases hej : e = j
  · rw [hej, Function.update_self, links] at he
    split at he
    · exact .inl (Option.some.inj he)
    split at he
    · exact .inr (.inl (Option.some.inj he))
    · cases he
  · rw [Function.update_of_ne hej] at he
    exact .inr (.inr ⟨e, b, he⟩)

omit [DecidableEq C] in
theorem named_remove (h : (s.remove j).Named i) : s.Named i := by
  obtain ⟨e, b, he⟩ := h
  dsimp only [remove] at he
  by_cases hej : e = j
  · rw [hej, Function.update_self] at he
    cases he
  · rw [Function.update_of_ne hej] at he
    exact ⟨e, b, he⟩

/-- What has a name had one, or is new, or a directory. -/
theorem Step.named (hs : Step self parent s op a t) (h : t.Named i) : s.Named i ∨ ¬ s.used i ∨ s.dir i := by
  cases hs with
  | senseless | other | found | missing | slice | past | unsaid | emptied | notMade | wrote | cut | notLinked | notUnlinked
  | notMadeDir | notRemoved => exact .inl h
  | made hd hnone hj => exact (named_point h).elim (fun he => .inr (.inl (he ▸ hj))) .inl
  | linked hj hpath => exact (named_point h).elim (fun he => .inl (he ▸ named_of_follow hj hpath)) .inl
  | unlinked | erased => exact .inl (named_unpoint h)
  | madeDir hd _ hj =>
    rcases named_point h with rfl | h
    · exact .inr (.inl hj)
    · rcases named_addDir h with rfl | rfl | h
      · exact .inr (.inl hj)
      · exact .inr (.inr hd.2)
      · exact .inl h
  | removed => exact .inl (named_unpoint (named_remove h))

/-- File `i` holds `bytes`, or has lost its names. -/
structure HoldsOrLost (s : Catalog N C B) (i : N) (bytes : List B) : Prop where
  used : s.used i
  file : ¬ s.dir i
  holds : s.Named i → s.content i = bytes

/-- A request that does not touch the file. -/
theorem HoldsOrLost.step (h : s.HoldsOrLost i bytes) (hs : Step self parent s op a t) (hop : ¬ Touches i (op, a)) : t.HoldsOrLost i bytes := by
  obtain ⟨hused, hfile, hholds⟩ := h
  cases hs with
  | senseless | other | found | missing | slice | past | unsaid | notMade | notLinked | notUnlinked | notMadeDir | notRemoved =>
    exact ⟨hused, hfile, hholds⟩
  | @made p d j hd hnone hj =>
    have hne : i ≠ j := fun he => hj (he ▸ hused)
    refine ⟨.inr hused, hfile, fun hn => ?_⟩
    exact (Function.update_of_ne hne _ _).trans (hholds ((named_point hn).resolve_left hne.symm))
  | @emptied p d j =>
    have hne : i ≠ j := fun he => hop (he ▸ rfl)
    exact ⟨hused, hfile, fun hn => (Function.update_of_ne hne _ _).trans (hholds hn)⟩
  | wrote | cut =>
    have hne : i ≠ _ := fun he => hop he.symm
    exact ⟨hused, hfile, fun hn => (Function.update_of_ne hne _ _).trans (hholds hn)⟩
  | linked hj hpath =>
    refine ⟨hused, hfile, fun hn => hholds ((named_point hn).elim (fun he => ?_) id)⟩
    exact he ▸ named_of_follow hj hpath
  | unlinked => exact ⟨hused, hfile, fun hn => hholds (named_unpoint hn)⟩
  | @erased p d j _ _ _ hlast =>
    refine ⟨hused, hfile, fun hn => ?_⟩
    have hne : i ≠ j := fun he => hlast (he ▸ hn)
    exact (Function.update_of_ne hne _ _).trans (hholds (named_unpoint hn))
  | @madeDir p d j hd _ hj =>
    have hne : j ≠ i := fun he => hj (he.symm ▸ hused)
    have hdi : d ≠ i := fun he => hfile (he ▸ hd.2)
    refine ⟨.inr hused, fun hdir => hdir.elim (fun he => hne he.symm) hfile, fun hn => hholds ?_⟩
    exact ((named_addDir ((named_point hn).resolve_left hne)).resolve_left hne).resolve_left hdi
  | @removed p d j _ _ hdir =>
    have hne : i ≠ j := fun he => hfile (he ▸ hdir)
    exact ⟨⟨hne, hused⟩, fun hdir => hfile hdir.2, fun hn => hholds (named_unpoint (named_remove hn))⟩

/-- A file that keeps a name keeps what it holds while nothing touches it. -/
theorem HoldsOrLost.runs (h : s.HoldsOrLost i bytes) (hs : Runs self parent s log t) (hlog : ∀ x ∈ log, ¬ Touches i x) : t.HoldsOrLost i bytes := by
  induction hs with
  | nil => exact h
  | cons hstep _ ih => exact ih (h.step hstep (hlog _ List.mem_cons_self)) fun x hx => hlog x (List.mem_cons_of_mem _ hx)

/-- What has been written is read, whatever else has been asked in between, while the file keeps a name. -/
theorem Runs.read_back {before after : List (Op N C B × Answer N B)} {offset : Nat} {ready : Prop} {u : Catalog N C B}
    (h : Runs self parent s (before ++ (.write i offset bytes, .ok) :: after) t) (hafter : ∀ x ∈ after, ¬ Touches i x) (hn : t.Named i)
    (hr : Step self parent t (.read i offset bytes.length ready) a u) (hready : ready) : a = .data bytes := by
  obtain ⟨s₁, _, h⟩ := h.of_append
  cases h with
  | cons hstep hs =>
    cases hstep with
    | wrote hi hfile hin =>
      have hholds : (s₁.fill i (splice (s₁.content i) offset bytes)).HoldsOrLost i (splice (s₁.content i) offset bytes) :=
        ⟨hi, hfile, fun _ => Function.update_self ..⟩
      obtain ⟨_, hleaf, hcontent⟩ := hholds.runs hs hafter
      have hlen := length_splice (c := bytes) hin
      cases hr with
      | slice =>
        rw [hcontent hn]
        exact congrArg Answer.data (take_drop_splice hin)
      | past hout =>
        rw [hcontent hn] at hout
        omega
      | unsaid _ hun => exact absurd hun (not_or.mpr ⟨hleaf, not_not.mpr hready⟩)

end

end Catalog

end Yfs
