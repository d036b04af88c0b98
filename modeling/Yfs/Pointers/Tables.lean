import Yfs.Code.Pointers
import Yfs.Lib.Links
import Yfs.Lib.Queue

/-! # The hash tables are finite maps -/

namespace Yfs.Pointers

open Links

variable {V : Type} {ht ht' : Table V} {nodes : Heap (HtMap V)} {key k : Int} {v : V} {a p : Addr} {head q : Option Addr} {fuel : Nat}

/-- A node without its link: its address, its key and its value. -/
abbrev Entry (V : Type) : Type := Addr × Int × Option V

def keyOf (x : Entry V) : Int := x.2.1

def cellsOf (nodes : Heap (HtMap V)) (a : Addr) : Option ((Int × Option V) × Option Addr) :=
  (nodes.lookup a).map fun n => ((n.key, n.value), n.next_inode)

theorem cellsOf_insert {n : HtMap V} :
    cellsOf (nodes.insert a n) p = if p = a then some ((n.key, n.value), n.next_inode) else cellsOf nodes p := by
  unfold cellsOf
  split
  case isTrue h => rw [h, AList.lookup_insert, Option.map_some]
  case isFalse h => rw [AList.lookup_insert_ne h]

theorem cellsOf_erase_ne (h : p ≠ a) : cellsOf (nodes.erase a) p = cellsOf nodes p := by
  rw [cellsOf, AList.lookup_erase_ne h, cellsOf]

variable {l us vs : List (Entry V)}

/-- Chained nodes are allocated, with their keys and values. -/
theorem node_of_chain (h : Chain (cellsOf nodes) head l none) {x : Entry V} (hx : x ∈ l) :
    ∃ n, nodes.lookup x.1 = some n ∧ n.key = keyOf x ∧ n.value = x.2.2 := by
  obtain ⟨next, hcell⟩ := h.content hx
  obtain ⟨n, hn, he⟩ := Option.map_eq_some_iff.mp hcell
  obtain ⟨hkv, _⟩ := Prod.mk.inj he
  exact ⟨n, hn, congrArg Prod.fst hkv, congrArg Prod.snd hkv⟩

/-- Different keys are at different places. -/
theorem addresses_nodup (h : Chain (cellsOf nodes) head l none) (hd : Queue.Distinct keyOf l) : (l.map Prod.fst).Nodup := by
  refine List.Nodup.map_on (fun x hx y hy he => ?_) hd.of_map
  obtain ⟨_, hcx⟩ := h.content hx
  obtain ⟨_, hcy⟩ := h.content hy
  rw [he, hcy] at hcx
  exact Prod.ext he (congrArg Prod.fst (Option.some.inj hcx)).symm

theorem fuel_enough (h : Chain (cellsOf nodes) head l none) (hd : Queue.Distinct keyOf l) : l.length ≤ nodes.keys.length := by
  have hsub : l.map Prod.fst ⊆ nodes.keys := by
    intro a ha
    obtain ⟨x, hx, rfl⟩ := List.mem_map.mp ha
    obtain ⟨n, hn, _⟩ := node_of_chain h hx
    exact AList.lookup_isSome.mp (by rw [hn]; rfl)
  have hlen := ((addresses_nodup h hd).subperm hsub).length_le
  rwa [List.length_map] at hlen

/-! ## The loops -/

theorem query_from_spec (h : Chain (cellsOf nodes) head l none) (hf : l.length ≤ fuel) :
    query_from nodes key fuel head = some ((Queue.lookup keyOf l key).bind fun x => x.2.2) := by
  induction l generalizing head fuel with
  | nil =>
    obtain rfl : head = none := h
    cases fuel <;> rfl
  | cons x l ih =>
    have hx := node_of_chain h List.mem_cons_self
    obtain ⟨rfl, next, hcell, hl⟩ := h
    obtain ⟨n, hn, hkey, hvalue⟩ := hx
    cases fuel with
    | zero => exact absurd hf (by simp)
    | succ fuel =>
      have hnext : n.next_inode = next := by
        rw [cellsOf, hn] at hcell
        exact congrArg Prod.snd (Option.some.inj hcell)
      rw [query_from, hn, Option.bind_eq_bind, Option.bind_some, hkey, Queue.lookup, List.find?_cons]
      by_cases hk : keyOf x = key
      · rw [if_pos hk, decide_eq_true hk, Option.bind_some, hvalue]
      · rw [if_neg hk, decide_eq_false hk, hnext]
        exact ih hl (by simpa using hf)

/-- A table without the node at `a`, whose chain is now `l`. -/
structure Unchained (ht ht' : Table V) (b : Nat) (a : Addr) (others : List Addr) (l : List (Entry V)) : Prop where
  chain : Chain (cellsOf ht'.nodes) (ht'.head b) l none
  size : ht'.size = ht.size
  head : ∀ c, c ≠ b → ht'.head c = ht.head c
  used : ht'.num_used = (ht.num_used + UINT - 1) % UINT
  gone : a ∉ ht'.nodes
  same : ∀ p, p ≠ a → p ∉ others → ht'.nodes.lookup p = ht.nodes.lookup p

/-- From `q` on, with the chain up to there behind. -/
theorem evict_from_spec (hus : Chain (cellsOf ht.nodes) (ht.head (ht.index key)) us q) (hvs : Chain (cellsOf ht.nodes) q vs none)
    (hnd : ((us ++ vs).map Prod.fst).Nodup) (hf : vs.length ≤ fuel) :
    ((∀ x ∈ vs, keyOf x ≠ key) ∧ evict_from ht key fuel q (us.getLast?.map Prod.fst) = some ht) ∨
      ∃ ws x rest ht', vs = ws ++ x :: rest ∧ keyOf x = key ∧ evict_from ht key fuel q (us.getLast?.map Prod.fst) = some ht' ∧
        Unchained ht ht' (ht.index key) x.1 ((us ++ ws).map Prod.fst) (us ++ ws ++ rest) := by
  induction vs generalizing us q fuel with
  | nil =>
    obtain rfl : q = none := hvs
    left
    exact ⟨fun _ hx => (List.not_mem_nil hx).elim, by cases fuel <;> rfl⟩
  | cons x vs ih =>
    have hx := node_of_chain hvs List.mem_cons_self
    obtain ⟨rfl, next, hcell, hl⟩ := hvs
    obtain ⟨⟨_, _, link⟩, hn, rfl, hvalue⟩ := hx
    obtain rfl : link = next := by
      rw [cellsOf, hn] at hcell
      exact congrArg Prod.snd (Option.some.inj hcell)
    cases fuel with
    | zero => exact absurd hf (by simp)
    | succ fuel =>
      by_cases hk : keyOf x = key
      · right
        have hrest : ∀ y ∈ vs, y.1 ≠ x.1 := fun y hy he => by
          rw [List.map_append, List.nodup_append] at hnd
          exact (List.nodup_cons.mp hnd.2.1).1 (List.mem_map.mpr ⟨y, hy, he⟩)
        have hbefore : ∀ y ∈ us, ∀ z ∈ x :: vs, y.1 ≠ z.1 := by
          rw [List.map_append, List.nodup_append] at hnd
          exact fun y hy z hz => hnd.2.2 y.1 (List.mem_map_of_mem hy) z.1 (List.mem_map_of_mem hz)
        rcases List.eq_nil_or_concat us with rfl | ⟨us, z, rfl⟩
        · have hhead : ht.head (ht.index key) = some x.1 := hus
          refine ⟨[], x, vs, { ht with
            head := Function.update ht.head (ht.index key) link
            num_used := (ht.num_used + UINT - 1) % UINT
            nodes := ht.nodes.erase x.1 }, rfl, hk, ?_, ?_⟩
          · rw [evict_from, hn, Option.bind_eq_bind, Option.bind_some, if_pos hk, if_pos hhead]
            rfl
          · refine ⟨?_, rfl, fun c hc => Function.update_of_ne hc _ _, rfl, fun hm => (AList.mem_erase.mp hm).1 rfl,
              fun p hp _ => AList.lookup_erase_ne hp⟩
            dsimp only
            rw [Function.update_self]
            exact hl.congr fun y hy => cellsOf_erase_ne (hrest y hy)
        · rw [List.concat_eq_append] at *
          obtain ⟨before, hz, hzkey, hzvalue⟩ := node_of_chain (l := us ++ [z] ++ (x :: vs)) (chain_append.mpr ⟨_, hus, rfl, _, hcell, hl⟩)
            (by simp : z ∈ us ++ [z] ++ (x :: vs))
          have hzx : z.1 ≠ x.1 := hbefore z (by simp) x (by simp)
          have hhead : ht.head (ht.index key) ≠ some x.1 := by
            obtain ⟨f, fs, hfs⟩ : ∃ f fs, us ++ [z] = f :: fs := by cases us <;> exact ⟨_, _, rfl⟩
            rw [hfs] at hus
            rw [hus.1]
            exact fun he => hbefore f (by rw [hfs]; exact List.mem_cons_self) x List.mem_cons_self (Option.some.inj he)
          refine ⟨[], x, vs, { ht with
            num_used := (ht.num_used + UINT - 1) % UINT
            nodes := (ht.nodes.insert z.1 { before with next_inode := link }).erase x.1 }, rfl, hk, ?_, ?_⟩
          · rw [evict_from, hn, Option.bind_eq_bind, Option.bind_some, if_pos hk, if_neg hhead, List.getLast?_concat, Option.map_some]
            simp only [Option.bind_eq_bind, Option.bind_some, hz]
          · have hcells : ∀ y : Addr, y ≠ x.1 → y ≠ z.1 →
                cellsOf ((ht.nodes.insert z.1 { before with next_inode := link }).erase x.1) y = cellsOf ht.nodes y :=
              fun y hx hz => by rw [cellsOf_erase_ne hx, cellsOf_insert, if_neg hz]
            refine ⟨?_, rfl, fun _ _ => rfl, rfl, fun hm => (AList.mem_erase.mp hm).1 rfl, fun p hp hp' => ?_⟩
            · rw [List.append_nil]
              refine chain_append.mpr ⟨link, hus.redirect (fun m hm => ?_) fun y hy => ?_, hl.congr fun y hy => ?_⟩
              · rw [cellsOf_erase_ne hzx, cellsOf_insert, if_pos rfl]
                rw [cellsOf, hz] at hm
                have hkv : (before.key, before.value) = z.2 := congrArg Prod.fst (Option.some.inj hm)
                exact congrArg some (Prod.ext hkv rfl)
              · refine hcells _ (hbefore y (by simp [hy]) x List.mem_cons_self) fun he => ?_
                rw [List.map_append, List.nodup_append, List.map_append, List.nodup_append] at hnd
                exact hnd.1.2.2 y.1 (List.mem_map_of_mem hy) z.1 (by simp) he
              · exact hcells _ (hrest y hy) fun he => hbefore z (by simp) y (List.mem_cons_of_mem _ hy) he.symm
            · rw [AList.lookup_erase_ne hp, AList.lookup_insert_ne fun he => hp' (by simp [he])]
      · have hus' : Chain (cellsOf ht.nodes) (ht.head (ht.index key)) (us ++ [x]) link := chain_append.mpr ⟨_, hus, rfl, _, hcell, rfl⟩
        have hstep : evict_from ht key (fuel + 1) (some x.1) (us.getLast?.map Prod.fst) =
            evict_from ht key fuel link ((us ++ [x]).getLast?.map Prod.fst) := by
          rw [evict_from, hn, Option.bind_eq_bind, Option.bind_some, if_neg hk, List.getLast?_concat, Option.map_some]
        rw [hstep]
        rcases ih hus' hl (by simpa using hnd) (by simpa using hf) with ⟨hnone, hrun⟩ | ⟨ws, y, rest, ht', rfl, hy, hrun, hun⟩
        · exact .inl ⟨List.forall_mem_cons.mpr ⟨hk, hnone⟩, hrun⟩
        · refine .inr ⟨x :: ws, y, rest, ht', rfl, hy, hrun, ?_⟩
          simpa using hun

/-! ## The map of a table -/

variable {m : AList fun _ : Int => V} {chains : Nat → List (Entry V)}

/-- The chains of the table are those, and they hold the map. -/
structure Stores (ht : Table V) (m : AList fun _ : Int => V) (chains : Nat → List (Entry V)) : Prop where
  chain : ∀ b, Chain (cellsOf ht.nodes) (ht.head b) (chains b) none
  hashed : ∀ b x, x ∈ chains b → ht.index (keyOf x) = b
  distinct : ∀ b, Queue.Distinct keyOf (chains b)
  entry : ∀ k, (Queue.lookup keyOf (chains (ht.index k)) k).map (fun x => x.2.2) = (m.lookup k).map some
  used : ht.num_used = m.keys.length % UINT

theorem Table.index_congr (h : ht'.size = ht.size) : ht'.index key = ht.index key := by rw [Table.index, Table.index, h]

/-- The table with a new node in front. -/
def Table.push (ht : Table V) (key : Int) (v : V) (p : Addr) : Table V :=
  { ht with
    nodes := ht.nodes.insert p { key := key, value := some v, next_inode := ht.head (ht.index key) }
    head := Function.update ht.head (ht.index key) (some p)
    num_used := (ht.num_used + 1) % UINT }

namespace Stores

variable (h : Stores ht m chains)
include h

theorem query : query_ht ht key = some (m.lookup key) := by
  have hfuel : (chains (ht.index key)).length ≤ ht.fuel := fuel_enough (h.chain _) (h.distinct _)
  rw [query_ht, query_from_spec (h.chain _) hfuel]
  have he := h.entry key
  cases hq : Queue.lookup keyOf (chains (ht.index key)) key with
  | none =>
    rw [hq] at he
    rw [Option.bind_none, ← Option.map_eq_none_iff.mp he.symm]
  | some x =>
    rw [hq] at he
    obtain ⟨v, hv, hx⟩ := Option.map_eq_some_iff.mp he.symm
    rw [hv]
    exact congrArg some hx.symm

/-- Keys that are not in the map are in no chain. -/
theorem absent (hk : key ∉ m) : ∀ x ∈ chains (ht.index key), keyOf x ≠ key := by
  have he := h.entry key
  rw [AList.lookup_eq_none.mpr hk, Option.map_none, Option.map_eq_none_iff] at he
  exact Queue.lookup_none he

theorem present {x : Entry V} {b : Nat} (hx : x ∈ chains b) : keyOf x ∈ m := by
  have he := h.entry (keyOf x)
  rw [h.hashed b x hx, Queue.lookup_of_mem (h.distinct b) hx] at he
  obtain ⟨v, hv, _⟩ := Option.map_eq_some_iff.mp he.symm
  exact AList.lookup_isSome.mp (by rw [hv]; rfl)

/-- Nodes that are not allocated are in no chain. -/
theorem unused (hp : p ∉ ht.nodes) {x : Entry V} {b : Nat} (hx : x ∈ chains b) : x.1 ≠ p := by
  rintro rfl
  obtain ⟨n, hn, _⟩ := node_of_chain (h.chain b) hx
  rw [AList.lookup_eq_none.mpr hp] at hn
  cases hn

/-- A new key at the front of its chain. -/
theorem insert (hk : key ∉ m) (hp : p ∉ ht.nodes) : insert_ht ht key (some v) (some p) = some (0, ht.push key v p) ∧
    Stores (ht.push key v p) (m.insert key v)
      (Function.update chains (ht.index key) ((p, key, some v) :: chains (ht.index key))) := by
  refine ⟨by rw [insert_ht, h.query, AList.lookup_eq_none.mpr hk]; rfl, fun b => ?_, fun b x hx => ?_, fun b => ?_, fun k => ?_, ?_⟩
  · have hold : Chain (cellsOf (ht.nodes.insert p ⟨key, some v, ht.head (ht.index key)⟩)) (ht.head b) (chains b) none :=
      (h.chain b).congr fun x hx => by rw [cellsOf_insert, if_neg (h.unused hp hx)]
    unfold Table.push
    dsimp only
    by_cases hb : b = ht.index key
    · subst hb
      rw [Function.update_self, Function.update_self]
      exact ⟨rfl, _, by rw [cellsOf_insert, if_pos rfl], hold⟩
    · rw [Function.update_of_ne hb, Function.update_of_ne hb]
      exact hold
  · by_cases hb : b = ht.index key
    · subst hb
      rw [Function.update_self] at hx
      rcases List.mem_cons.mp hx with rfl | hx
      · rfl
      · exact h.hashed _ x hx
    · rw [Function.update_of_ne hb] at hx
      exact h.hashed b x hx
  · by_cases hb : b = ht.index key
    · subst hb
      rw [Function.update_self]
      exact List.nodup_cons.mpr ⟨fun hm => by
        obtain ⟨x, hx, hxk⟩ := List.mem_map.mp hm
        exact h.absent hk x hx hxk, h.distinct _⟩
    · rw [Function.update_of_ne hb]
      exact h.distinct b
  · show (Queue.lookup keyOf (Function.update chains _ _ (ht.index k)) k).map _ = _
    by_cases hkk : k = key
    · subst hkk
      rw [Function.update_self, AList.lookup_insert, Queue.lookup_cons]
      exact congrArg _ (if_pos rfl)
    · rw [AList.lookup_insert_ne hkk, ← h.entry k]
      by_cases hb : ht.index k = ht.index key
      · rw [hb, Function.update_self, Queue.lookup_cons, if_neg fun he => hkk he.symm]
      · rw [Function.update_of_ne hb]
  · have hlen : (m.insert key v).keys.length = m.keys.length + 1 := by
      rw [AList.keys_insert, List.erase_of_not_mem hk, List.length_cons]
    show (ht.num_used + 1) % UINT = _
    rw [hlen, h.used, Nat.mod_add_mod]

/-- A key leaves its chain, and no other does. -/
theorem evict (key : Int) : ∃ ht', evict_ht ht key = some ht' ∧ ht'.size = ht.size ∧
    Stores ht' (m.erase key) (Function.update chains (ht.index key) (Queue.remove keyOf (chains (ht.index key)) key)) := by
  have hchain := h.chain (ht.index key)
  have hd := h.distinct (ht.index key)
  have hnone : Chain (cellsOf ht.nodes) (ht.head (ht.index key)) [] (ht.head (ht.index key)) := rfl
  have hrun := evict_from_spec hnone hchain (addresses_nodup hchain hd) (fuel_enough hchain hd)
  rcases hrun with ⟨hnone, hrun⟩ | ⟨ws, x, rest, ht', hsplit, rfl, hrun, hun⟩
  · have hk : key ∉ m := by
      have he := h.entry key
      rw [show Queue.lookup keyOf (chains (ht.index key)) key = none from
        List.find?_eq_none.mpr fun x hx => by simpa using hnone x hx, Option.map_none] at he
      exact AList.lookup_eq_none.mp (Option.map_eq_none_iff.mp he.symm)
    have hsame : (m.erase key).keys = m.keys := by rw [AList.keys_erase, List.erase_of_not_mem hk]
    refine ⟨ht, hrun, rfl, ?_⟩
    rw [Queue.remove_absent hnone, Function.update_eq_self]
    refine ⟨h.chain, h.hashed, h.distinct, fun k => ?_, by rw [hsame]; exact h.used⟩
    rw [h.entry k]
    by_cases hkk : k = key
    · rw [hkk, AList.lookup_erase, AList.lookup_eq_none.mpr hk]
    · rw [AList.lookup_erase_ne hkk]
  · have hchains : Queue.remove keyOf (chains (ht.index (keyOf x))) (keyOf x) = ws ++ rest := by
      rw [hsplit] at hd ⊢
      exact Queue.remove_middle hd
    have hmem : x ∈ chains (ht.index (keyOf x)) := by rw [hsplit]; simp
    have hold : ∀ b y, y ∈ Function.update chains (ht.index (keyOf x)) (ws ++ rest) b → y ∈ chains b := by
      intro b y hy
      by_cases hb : b = ht.index (keyOf x)
      · subst hb
        rw [Function.update_self, ← hchains] at hy
        exact (Queue.mem_remove.mp hy).1
      · rwa [Function.update_of_ne hb] at hy
    refine ⟨ht', hrun, hun.size, ?_⟩
    rw [hchains]
    refine ⟨fun b => ?_, fun b y hy => ?_, fun b => ?_, fun k => ?_, ?_⟩
    · by_cases hb : b = ht.index (keyOf x)
      · subst hb
        rw [Function.update_self]
        exact hun.chain
      · rw [Function.update_of_ne hb, hun.head b hb]
        -- The nodes of other chains are elsewhere.
        have hapart : ∀ y ∈ chains b, ∀ z ∈ chains (ht.index (keyOf x)), y.1 ≠ z.1 := by
          intro y hy z hz he
          obtain ⟨_, hcy⟩ := (h.chain b).content hy
          obtain ⟨_, hcz⟩ := (h.chain _).content hz
          rw [he, hcz] at hcy
          have hkey : keyOf z = keyOf y := congrArg (fun c => c.1.1) (Option.some.inj hcy)
          exact hb ((h.hashed b y hy).symm.trans (hkey ▸ h.hashed _ z hz))
        refine (h.chain b).congr fun y hy => ?_
        rw [cellsOf, cellsOf, hun.same y.1 (hapart y hy x hmem) fun hm => ?_]
        obtain ⟨z, hz, he⟩ := List.mem_map.mp hm
        exact hapart y hy z (by rw [hsplit]; exact List.mem_append_left _ (by simpa using hz)) he.symm
    · rw [Table.index_congr hun.size]
      exact h.hashed b y (hold b y hy)
    · by_cases hb : b = ht.index (keyOf x)
      · subst hb
        rw [Function.update_self, ← hchains]
        exact hd.remove
      · rw [Function.update_of_ne hb]
        exact h.distinct b
    · rw [Table.index_congr hun.size]
      by_cases hkk : k = keyOf x
      · rw [hkk, AList.lookup_erase, Function.update_self, ← hchains, Queue.lookup_remove, if_pos rfl]
        rfl
      · rw [AList.lookup_erase_ne hkk, ← h.entry k]
        by_cases hb : ht.index k = ht.index (keyOf x)
        · rw [hb, Function.update_self, ← hchains, Queue.lookup_remove, if_neg hkk]
        · rw [Function.update_of_ne hb]
    · have hlen : (m.erase (keyOf x)).keys.length = m.keys.length - 1 := by
        rw [AList.keys_erase, List.length_erase_of_mem (h.present hmem)]
      have hpos := List.length_pos_of_mem (h.present hmem)
      rw [hun.used, h.used, hlen, UINT]
      omega

end Stores

theorem Stores.empty {size : Nat} {hpos : 0 < size} {hlt : size < UINT} : Stores (emptyTable size hpos hlt : Table V) ∅ fun _ => [] :=
  ⟨fun _ => rfl, fun _ _ hx => (List.not_mem_nil hx).elim, fun _ => List.nodup_nil, fun _ => rfl, rfl⟩

/-! ## Runs -/

/-- What the caches do to a table. `malloc` puts a new node at `elem`. -/
inductive TableOp (V : Type) where
  | insert (key : Int) (value : V) (elem : Addr)
  | evict (key : Int)
  | query (key : Int)

namespace TableOp

/-- A query has an answer. -/
def exec : TableOp V → Table V → Option (Option V × Table V)
  | .insert key value elem, ht => (insert_ht ht key (some value) (some elem)).map fun r => (none, r.2)
  | .evict key, ht => (evict_ht ht key).map fun ht => (none, ht)
  | .query key, ht => (query_ht ht key).map fun value => (value, ht)

/-- What it does to a finite map. -/
def apply : TableOp V → (AList fun _ : Int => V) → AList fun _ : Int => V
  | .insert key value _, m => m.insert key value
  | .evict key, m => m.erase key
  | .query _, m => m

def answer : TableOp V → (AList fun _ : Int => V) → Option V
  | .query key, m => m.lookup key
  | _, _ => none

/-- New keys are new, and their nodes are not in use. -/
def Fits (ht : Table V) (m : AList fun _ : Int => V) : TableOp V → Prop
  | .insert key _ elem => key ∉ m ∧ elem ∉ ht.nodes
  | _ => True

def execs : List (TableOp V) → Table V → Option (List (Option V) × Table V)
  | [], ht => some ([], ht)
  | op :: ops, ht => do
    let (answer, ht) ← op.exec ht
    let (answers, ht) ← execs ops ht
    some (answer :: answers, ht)

def applies (ops : List (TableOp V)) (m : AList fun _ : Int => V) : AList fun _ : Int => V := ops.foldl (fun m op => op.apply m) m

def answers : List (TableOp V) → (AList fun _ : Int => V) → List (Option V)
  | [], _ => []
  | op :: ops, m => op.answer m :: answers ops (op.apply m)

/-- Each operation fits the table and the map that it finds. -/
def Admits : List (TableOp V) → Table V → (AList fun _ : Int => V) → Prop
  | [], _, _ => True
  | op :: ops, ht, m => op.Fits ht m ∧ ∀ answer ht', op.exec ht = some (answer, ht') → Admits ops ht' (op.apply m)

theorem exec_spec {op : TableOp V} (h : Stores ht m chains) (hfits : op.Fits ht m) :
    ∃ ht' chains', op.exec ht = some (op.answer m, ht') ∧ Stores ht' (op.apply m) chains' := by
  cases op with
  | insert key value elem =>
    obtain ⟨hrun, hs⟩ := h.insert (v := value) hfits.1 hfits.2
    exact ⟨_, _, by rw [exec, hrun]; rfl, hs⟩
  | evict key =>
    obtain ⟨ht', hrun, _, hs⟩ := h.evict key
    exact ⟨ht', _, by rw [exec, hrun]; rfl, hs⟩
  | query key => exact ⟨ht, chains, by rw [exec, h.query]; rfl, h⟩

theorem execs_spec {ops : List (TableOp V)} (h : Stores ht m chains) (hadmits : Admits ops ht m) :
    ∃ ht' chains', execs ops ht = some (answers ops m, ht') ∧ Stores ht' (applies ops m) chains' := by
  induction ops generalizing ht m chains with
  | nil => exact ⟨ht, chains, rfl, h⟩
  | cons op ops ih =>
    obtain ⟨ht₁, chains₁, hexec, h₁⟩ := exec_spec h hadmits.1
    obtain ⟨ht', chains', hrun, h'⟩ := ih h₁ (hadmits.2 _ _ hexec)
    exact ⟨ht', chains', by rw [execs, hexec, Option.bind_eq_bind, Option.bind_some]; dsimp only; rw [hrun]; rfl, h'⟩

end TableOp

/-- **The tables are finite maps.** In every run that inserts new keys at unused places the queries answer as a finite map does, and
so would any query after it. `num_used` counts the keys, as far as an `unsigned int` can. -/
theorem tables_refine_maps {size : Nat} (hpos : 0 < size) (hlt : size < UINT) {ops : List (TableOp V)}
    (hadmits : TableOp.Admits ops (emptyTable size hpos hlt) ∅) :
    ∃ ht, TableOp.execs ops (emptyTable size hpos hlt) = some (TableOp.answers ops ∅, ht) ∧
      (∀ key, query_ht ht key = some ((TableOp.applies ops ∅).lookup key)) ∧
        (∀ key, ∃ ht', evict_ht ht key = some ht' ∧ ∀ other, other ≠ key → query_ht ht' other = query_ht ht other) ∧
          ht.num_used = (TableOp.applies ops ∅).keys.length % UINT := by
  obtain ⟨ht, chains, hrun, h⟩ := TableOp.execs_spec .empty hadmits
  refine ⟨ht, hrun, fun key => h.query, fun key => ?_, h.used⟩
  obtain ⟨ht', hevict, _, h'⟩ := h.evict key
  exact ⟨ht', hevict, fun other hne => by rw [h'.query, h.query, AList.lookup_erase_ne hne]⟩

/-- Two keys in one chain, one of them negative. -/
def collisions : List (TableOp Unit) := [.insert (-1) () 0, .insert 2 () 1, .evict (-1), .query 2, .query (-1)]

theorem tables_refine_maps_collisions : ∃ ht, TableOp.execs collisions (emptyTable 3 (by decide) (by decide)) =
      some (TableOp.answers collisions ∅, ht) ∧
    (∀ key, query_ht ht key = some ((TableOp.applies collisions ∅).lookup key)) ∧
      (∀ key, ∃ ht', evict_ht ht key = some ht' ∧ ∀ other, other ≠ key → query_ht ht' other = query_ht ht other) ∧
        ht.num_used = (TableOp.applies collisions ∅).keys.length % UINT := by
  refine tables_refine_maps (by decide) (by decide) ⟨⟨by decide, by decide⟩, fun _ ht' h => ?_⟩
  obtain ⟨_, rfl⟩ := Prod.mk.inj (Option.some.inj h)
  exact ⟨⟨by decide, by decide⟩, fun _ _ _ => ⟨trivial, fun _ _ _ => ⟨trivial, fun _ _ _ => ⟨trivial, fun _ _ _ => trivial⟩⟩⟩⟩

/-! ## All keys -/

/-- Insert `n` keys, one after the other. -/
def fill (s : Nat) : Nat → List (TableOp Unit)
  | 0 => []
  | n + 1 => .insert (s - 2 ^ 31) () s :: fill (s + 1) n

theorem fill_keys {s n : Nat} : ∀ op ∈ fill s n, ∃ i : Nat, s ≤ i ∧ i < s + n ∧ op = .insert (i - 2 ^ 31) () i := by
  induction n generalizing s with
  | zero => exact fun op hop => (List.not_mem_nil hop).elim
  | succ n ih =>
    intro op hop
    rcases List.mem_cons.mp hop with rfl | hop
    · exact ⟨s, Nat.le_refl s, by omega, rfl⟩
    · obtain ⟨i, hs, hn, he⟩ := ih op hop
      exact ⟨i, by omega, by omega, he⟩

theorem fill_admits {ht : Table Unit} {m : AList fun _ : Int => Unit} {chains : Nat → List (Entry Unit)} {s n : Nat} (h : Stores ht m chains)
    (hkeys : ∀ k ∈ m, k < s - 2 ^ 31) (hnodes : ∀ p ∈ ht.nodes, p < s) :
    TableOp.Admits (fill s n) ht m ∧ (TableOp.applies (fill s n) m).keys.length = m.keys.length + n := by
  induction n generalizing ht m chains s with
  | zero => exact ⟨trivial, rfl⟩
  | succ n ih =>
    have hk : (s - 2 ^ 31 : Int) ∉ m := fun hm => Int.lt_irrefl _ (hkeys _ hm)
    have hp : s ∉ ht.nodes := fun hm => Nat.lt_irrefl _ (hnodes _ hm)
    obtain ⟨hrun, hs⟩ := h.insert (v := ()) hk hp
    have hlen : (m.insert (s - 2 ^ 31 : Int) ()).keys.length = m.keys.length + 1 := by
      rw [AList.keys_insert, List.erase_of_not_mem hk, List.length_cons]
    have hkeys' : ∀ k ∈ m.insert (s - 2 ^ 31 : Int) (), k < ((s + 1 : Nat) : Int) - 2 ^ 31 := by
      intro k hm
      rcases (AList.mem_insert _).mp hm with rfl | hm
      · omega
      · have := hkeys k hm
        omega
    have hnodes' : ∀ p ∈ (ht.push (s - 2 ^ 31) () s).nodes, p < s + 1 := by
      intro p hm
      rcases (AList.mem_insert _).mp hm with rfl | hm
      · exact Nat.lt_succ_self p
      · exact Nat.lt_succ_of_lt (hnodes p hm)
    obtain ⟨hadmits, hcount⟩ := ih hs hkeys' hnodes'
    refine ⟨⟨⟨hk, hp⟩, fun _ ht' he => ?_⟩, ?_⟩
    · rw [TableOp.exec, hrun] at he
      obtain ⟨_, rfl⟩ := Prod.mk.inj (Option.some.inj he)
      exact hadmits
    · have hsplit : TableOp.applies (fill s (n + 1)) m = TableOp.applies (fill (s + 1) n) (m.insert (s - 2 ^ 31 : Int) ()) := rfl
      rw [hsplit, hcount, hlen]
      omega

/-- With every 32-bit key in the table `num_used` is 0 again. -/
theorem num_used_wraps : ∃ ops : List (TableOp Unit), (∀ op ∈ ops, ∃ key elem, op = .insert key () elem ∧ -2 ^ 31 ≤ key ∧ key < 2 ^ 31) ∧
    TableOp.Admits ops (emptyTable 3 (by decide) (by decide)) ∅ ∧
      ∃ ht, TableOp.execs ops (emptyTable 3 (by decide) (by decide)) = some (TableOp.answers ops ∅, ht) ∧
        ht.num_used = 0 ∧ (TableOp.applies ops ∅).keys.length = 2 ^ 32 := by
  have hnew : Stores (emptyTable 3 (by decide) (by decide) : Table Unit) ∅ fun _ => [] := .empty
  obtain ⟨hadmits, hcount⟩ := fill_admits (s := 0) (n := 2 ^ 32) hnew
    (fun k hm => absurd hm (AList.notMem_empty k)) fun p hm => absurd hm (AList.notMem_empty p)
  obtain ⟨ht, chains, hrun, h⟩ := TableOp.execs_spec .empty hadmits
  have hlen : (TableOp.applies (fill 0 (2 ^ 32)) ∅).keys.length = 2 ^ 32 := by
    rw [hcount, AList.keys_empty, List.length_nil, Nat.zero_add]
  refine ⟨fill 0 (2 ^ 32), fun op hop => ?_, hadmits, ht, hrun, ?_, hlen⟩
  · obtain ⟨i, _, hi, rfl⟩ := fill_keys op hop
    exact ⟨_, _, rfl, by omega, by omega⟩
  · rw [h.used, hlen, UINT, Nat.mod_self]

end Yfs.Pointers
