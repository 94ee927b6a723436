import Mathlib.Data.List.Perm.Basic
import Mathlib.Data.List.Nodup
import Mathlib.Data.Rat.Defs
import Mathlib.Tactic.Basic

/-! # Keyed trees of JSON values

The data model of a hierarchical database: a tree whose inner nodes have children under string
keys and whose leaves hold scalars.

* **Values.** `Json` is the type of what is written and read.  An `object` lists its entries in
  the order in which an iteration over it meets them.
* **Pruning.** A store keeps no `null` and no empty container: `prune` drops them, also the ones
  that become empty by the dropping.  Strings are kept, the empty one included.
* **Paths.** `get t p` is the subtree at `p` (`null` where nothing is stored) and `update t p v`
  writes the pruned `v` there; writing `null` removes the node and the ancestors it was the last
  child of.
* **Trees.** `Tree` carries the proof that no node has two children under one key or a `null`
  child, and `update` preserves it; `Compact` trees have no empty container either.

The frame rule is `get_update_of_diverge`: a write at `p` is invisible at every path that leaves
`p` at some key.  What a write does to the children of a node above it is
`get_update_append` together with `update_singleton`. -/

namespace JsonTree

inductive Json where
  | null
  | bool (b : Bool)
  | number (q : ℚ)
  | string (s : String)
  | array (xs : List Json)
  | object (kvs : List (String × Json))

namespace Json

mutual

def beq : Json → Json → Bool
  | null, null => true
  | bool a, bool b => decide (a = b)
  | number a, number b => decide (a = b)
  | string a, string b => decide (a = b)
  | array as, array bs => beqList as bs
  | object as, object bs => beqEntries as bs
  | _, _ => false

def beqList : List Json → List Json → Bool
  | [], [] => true
  | a :: as, b :: bs => beq a b && beqList as bs
  | _, _ => false

def beqEntries : List (String × Json) → List (String × Json) → Bool
  | [], [] => true
  | (k, a) :: as, (l, b) :: bs => decide (k = l) && beq a b && beqEntries as bs
  | _, _ => false

end

mutual

theorem beq_iff : ∀ a b : Json, beq a b = true ↔ a = b
  | null, b => by cases b <;> simp [beq]
  | bool a, b => by cases b <;> simp [beq]
  | number a, b => by cases b <;> simp [beq]
  | string a, b => by cases b <;> simp [beq]
  | array as, b => by
      cases b with
      | array bs => simp [beq, beqList_iff as bs]
      | _ => simp [beq]
  | object as, b => by
      cases b with
      | object bs => simp [beq, beqEntries_iff as bs]
      | _ => simp [beq]

theorem beqList_iff : ∀ as bs : List Json, beqList as bs = true ↔ as = bs
  | [], bs => by cases bs <;> simp [beqList]
  | a :: as, bs => by
      cases bs with
      | nil => simp [beqList]
      | cons b bs => simp [beqList, beq_iff a b, beqList_iff as bs]

theorem beqEntries_iff : ∀ as bs : List (String × Json), beqEntries as bs = true ↔ as = bs
  | [], bs => by cases bs <;> simp [beqEntries]
  | (k, a) :: as, bs => by
      cases bs with
      | nil => simp [beqEntries]
      | cons b bs =>
          obtain ⟨l, b⟩ := b
          simp [beqEntries, beq_iff a b, beqEntries_iff as bs, and_assoc]

end

instance : DecidableEq Json := fun a b => decidable_of_iff (beq a b = true) (beq_iff a b)

end Json

/-- A path lists the keys from the root down. -/
abbrev Path := List String

/-! ### Association lists -/

namespace Json

def isNull : Json → Bool
  | null => true
  | _ => false

@[simp] theorem isNull_iff {v : Json} : v.isNull = true ↔ v = null := by
  cases v <;> simp [isNull]

/-- The first value under `k`, `null` when there is none. -/
def lookup (k : String) : List (String × Json) → Json
  | [] => null
  | (k', v) :: kvs => if k' = k then v else lookup k kvs

def eraseKey (k : String) (kvs : List (String × Json)) : List (String × Json) :=
  kvs.filter (fun e => e.1 ≠ k)

/-- Store `v` under `k`; storing `null` is erasing. -/
def setKey (k : String) (v : Json) (kvs : List (String × Json)) : List (String × Json) :=
  if v.isNull then eraseKey k kvs else eraseKey k kvs ++ [(k, v)]

@[simp] theorem lookup_nil (k : String) : lookup k [] = null := rfl

@[simp] theorem lookup_cons (k k' : String) (v : Json) (kvs : List (String × Json)) :
    lookup k ((k', v) :: kvs) = if k' = k then v else lookup k kvs := rfl

@[simp] theorem eraseKey_nil (k : String) : eraseKey k [] = [] := rfl

theorem eraseKey_cons (k k' : String) (v : Json) (kvs : List (String × Json)) :
    eraseKey k ((k', v) :: kvs) = if k' = k then eraseKey k kvs else (k', v) :: eraseKey k kvs := by
  by_cases h : k' = k <;> simp [eraseKey, h]

theorem mem_eraseKey {k : String} {e : String × Json} {kvs : List (String × Json)} :
    e ∈ eraseKey k kvs ↔ e ∈ kvs ∧ e.1 ≠ k := by
  simp [eraseKey]

theorem eraseKey_of_not_mem {k : String} {kvs : List (String × Json)}
    (h : k ∉ kvs.map Prod.fst) : eraseKey k kvs = kvs := by
  rw [eraseKey, List.filter_eq_self]
  intro e he
  have : e.1 ≠ k := fun hk => h (hk ▸ List.mem_map_of_mem he)
  simpa using this

theorem lookup_eraseKey_self (k : String) (kvs : List (String × Json)) :
    lookup k (eraseKey k kvs) = null := by
  induction kvs with
  | nil => rfl
  | cons e kvs ih =>
      obtain ⟨k', v⟩ := e
      rw [eraseKey_cons]
      split_ifs with h
      · exact ih
      · rw [lookup_cons, if_neg h, ih]

theorem lookup_eraseKey_ne {k l : String} (h : l ≠ k) (kvs : List (String × Json)) :
    lookup l (eraseKey k kvs) = lookup l kvs := by
  induction kvs with
  | nil => rfl
  | cons e kvs ih =>
      obtain ⟨k', v⟩ := e
      rw [eraseKey_cons]
      by_cases hk : k' = k
      · subst hk
        simp [ih, h.symm]
      · simp [hk, ih]

theorem lookup_append (k : String) (as bs : List (String × Json)) :
    lookup k (as ++ bs) = if k ∈ as.map Prod.fst then lookup k as else lookup k bs := by
  induction as with
  | nil => simp
  | cons e as ih =>
      obtain ⟨k', v⟩ := e
      by_cases h : k' = k
      · simp [h]
      · have h' : k ≠ k' := Ne.symm h
        rw [List.cons_append, lookup_cons, if_neg h, ih, List.map_cons, lookup_cons, if_neg h]
        simp only [List.mem_cons, h', false_or]

theorem lookup_of_not_mem {k : String} {kvs : List (String × Json)}
    (h : k ∉ kvs.map Prod.fst) : lookup k kvs = null := by
  rw [← eraseKey_of_not_mem h, lookup_eraseKey_self]

theorem lookup_setKey_self (k : String) (v : Json) (kvs : List (String × Json)) :
    lookup k (setKey k v kvs) = v := by
  unfold setKey
  split_ifs with h
  · rw [lookup_eraseKey_self, isNull_iff.mp h]
  · have hk : k ∉ (eraseKey k kvs).map Prod.fst := by
      intro hm
      obtain ⟨e, he, hek⟩ := List.mem_map.mp hm
      exact (mem_eraseKey.mp he).2 hek
    simp [lookup_append, hk]

theorem lookup_setKey_ne {k l : String} (h : l ≠ k) (v : Json) (kvs : List (String × Json)) :
    lookup l (setKey k v kvs) = lookup l kvs := by
  unfold setKey
  split_ifs with hv
  · exact lookup_eraseKey_ne h kvs
  · rw [lookup_append, lookup_eraseKey_ne h]
    split_ifs with hm
    · rfl
    · rw [← lookup_eraseKey_ne h kvs, lookup_of_not_mem hm]
      simp [h.symm]

/-- No two entries share a key and none holds `null`. -/
def Keyed (kvs : List (String × Json)) : Prop :=
  (kvs.map Prod.fst).Nodup ∧ ∀ e ∈ kvs, e.2 ≠ null

theorem Keyed.nil : Keyed [] := ⟨List.nodup_nil, fun _ h => by cases h⟩

theorem Keyed.perm {as bs : List (String × Json)} (h : Keyed as) (hp : bs.Perm as) : Keyed bs :=
  ⟨(hp.map Prod.fst).nodup_iff.mpr h.1, fun e he => h.2 e (hp.mem_iff.mp he)⟩

theorem Keyed.eraseKey {kvs : List (String × Json)} (h : Keyed kvs) (k : String) :
    Keyed (eraseKey k kvs) :=
  ⟨h.1.sublist (List.filter_sublist.map _), fun e he => h.2 e (mem_eraseKey.mp he).1⟩

theorem Keyed.setKey {kvs : List (String × Json)} (h : Keyed kvs) (k : String) (v : Json) :
    Keyed (setKey k v kvs) := by
  unfold Json.setKey
  split_ifs with hv
  · exact h.eraseKey k
  · obtain ⟨hnd, hne⟩ := h.eraseKey k
    refine ⟨?_, ?_⟩
    · rw [List.map_append, List.nodup_append]
      refine ⟨hnd, by simp, ?_⟩
      intro a ha b hb hab
      obtain ⟨e, he, rfl⟩ := List.mem_map.mp ha
      have : b = k := by simpa using hb
      exact (mem_eraseKey.mp he).2 (hab.trans this)
    · intro e he
      rcases List.mem_append.mp he with he | he
      · exact hne e he
      · obtain rfl : e = (k, v) := by simpa using he
        simpa using hv

/-- With unique keys, erasing one takes out its entry. -/
theorem Keyed.perm_eraseKey {kvs : List (String × Json)} (h : Keyed kvs) {k : String} {v : Json}
    (hm : (k, v) ∈ kvs) : kvs.Perm ((k, v) :: Json.eraseKey k kvs) := by
  obtain ⟨pre, post, rfl⟩ := List.append_of_mem hm
  have hnd := h.1
  rw [List.map_append, List.map_cons, List.nodup_middle, List.nodup_cons] at hnd
  have hnot : k ∉ (pre ++ post).map Prod.fst := by
    rw [List.map_append]
    exact hnd.1
  have hsplit : Json.eraseKey k (pre ++ (k, v) :: post) = Json.eraseKey k (pre ++ post) := by
    simp [Json.eraseKey]
  rw [hsplit, eraseKey_of_not_mem hnot]
  exact List.perm_middle

/-- With unique keys, membership is lookup. -/
theorem Keyed.mem_iff {kvs : List (String × Json)} (h : Keyed kvs) {k : String} {v : Json} :
    (k, v) ∈ kvs ↔ lookup k kvs = v ∧ v ≠ null := by
  induction kvs with
  | nil => simp only [List.not_mem_nil, lookup_nil, false_iff]; tauto
  | cons e kvs ih =>
      obtain ⟨k', v'⟩ := e
      obtain ⟨hnd, hne⟩ := h
      rw [List.map_cons, List.nodup_cons] at hnd
      have ih' := ih ⟨hnd.2, fun e he => hne e (List.mem_cons_of_mem _ he)⟩
      by_cases hk : k' = k
      · subst hk
        have hnot : (k', v) ∉ kvs := fun hm => hnd.1 (List.mem_map.mpr ⟨_, hm, rfl⟩)
        have hv' : v' ≠ null := hne (k', v') List.mem_cons_self
        simp only [List.mem_cons, Prod.mk.injEq, true_and, hnot, or_false, lookup_cons, if_true]
        constructor
        · rintro rfl
          exact ⟨rfl, hv'⟩
        · exact fun hv => hv.1.symm
      · have hk' : k ≠ k' := Ne.symm hk
        simp only [List.mem_cons, Prod.mk.injEq, hk', false_and, false_or, lookup_cons, hk,
          if_false]
        exact ih'

/-! ### Nodes and paths -/

/-- The children of a node, in the order in which they are met. -/
def entries : Json → List (String × Json)
  | object kvs => kvs
  | _ => []

/-- The node with the given children; without children there is no node. -/
def ofEntries : List (String × Json) → Json
  | [] => null
  | kvs => object kvs

/-- The array of the given elements; an empty array is not stored. -/
def ofElements : List Json → Json
  | [] => null
  | xs => array xs

@[simp] theorem entries_ofEntries (kvs : List (String × Json)) : entries (ofEntries kvs) = kvs := by
  cases kvs <;> rfl

@[simp] theorem entries_ofElements (xs : List Json) : entries (ofElements xs) = [] := by
  cases xs <;> rfl

theorem ofEntries_eq_null {kvs : List (String × Json)} : ofEntries kvs = null ↔ kvs = [] := by
  cases kvs <;> simp [ofEntries]

def child (t : Json) (k : String) : Json := lookup k t.entries

def get : Json → Path → Json
  | t, [] => t
  | t, k :: p => get (t.child k) p

@[simp] theorem get_nil (t : Json) : t.get [] = t := rfl

@[simp] theorem get_cons (t : Json) (k : String) (p : Path) : t.get (k :: p) = (t.child k).get p :=
  rfl

theorem get_append (t : Json) (p q : Path) : t.get (p ++ q) = (t.get p).get q := by
  induction p generalizing t with
  | nil => rfl
  | cons k p ih => exact ih (t.child k)

@[simp] theorem child_null (k : String) : null.child k = null := rfl

@[simp] theorem get_null (p : Path) : null.get p = null := by
  induction p with
  | nil => rfl
  | cons k p ih => simpa using ih

/-! ### Casts -/

def asString : Json → Option String
  | string s => some s
  | _ => none

def asObject : Json → Option (List (String × Json))
  | object kvs => some kvs
  | _ => none

/-- The elements of an array that holds nothing but strings. -/
def asStrings : Json → Option (List String)
  | array xs => xs.mapM asString
  | _ => none

@[simp] theorem asString_string (s : String) : (string s).asString = some s := rfl

theorem asObject_ofEntries {kvs : List (String × Json)} (h : kvs ≠ []) :
    (ofEntries kvs).asObject = some kvs := by
  cases kvs with
  | nil => exact absurd rfl h
  | cons e kvs => rfl

theorem asStrings_map_string (ss : List String) :
    (array (ss.map string)).asStrings = some ss := by
  simp only [asStrings, List.mapM_map]
  induction ss with
  | nil => rfl
  | cons s ss ih =>
      rw [List.mapM_cons]
      simp only [asString_string, Function.comp] at ih ⊢
      rw [ih]
      rfl

/-! ### Pruning -/

mutual

/-- What a store keeps of a written value. -/
def prune : Json → Json
  | array xs => ofElements (pruneList xs)
  | object kvs => ofEntries (pruneEntries kvs)
  | v => v

def pruneList : List Json → List Json
  | [] => []
  | x :: xs => if (prune x).isNull then pruneList xs else prune x :: pruneList xs

/-- Of several entries under one key the first counts. -/
def pruneEntries : List (String × Json) → List (String × Json)
  | [] => []
  | (k, v) :: kvs =>
      if (prune v).isNull then eraseKey k (pruneEntries kvs)
      else (k, prune v) :: eraseKey k (pruneEntries kvs)

end

@[simp] theorem prune_null : prune null = null := by simp [prune]
@[simp] theorem prune_string (s : String) : prune (string s) = string s := by simp [prune]
@[simp] theorem prune_object (kvs : List (String × Json)) :
    prune (object kvs) = ofEntries (pruneEntries kvs) := by simp [prune]

/-- Lists of strings are stored as they are. -/
theorem pruneList_map_string (ss : List String) : pruneList (ss.map string) = ss.map string := by
  induction ss with
  | nil => simp [pruneList]
  | cons s ss ih => simp [pruneList, isNull, ih]

theorem prune_array_map_string (ss : List String) :
    prune (array (ss.map string)) = ofElements (ss.map string) := by
  rw [prune, pruneList_map_string]

theorem lookup_pruneEntries (k : String) (kvs : List (String × Json)) :
    lookup k (pruneEntries kvs) = prune (lookup k kvs) := by
  induction kvs with
  | nil => simp [pruneEntries]
  | cons e kvs ih =>
      obtain ⟨k', v⟩ := e
      rw [pruneEntries]
      by_cases hk : k' = k
      · subst hk
        split_ifs with hv
        · rw [lookup_eraseKey_self]
          simpa using (isNull_iff.mp hv).symm
        · simp
      · have hk' : k ≠ k' := fun e => hk e.symm
        split_ifs with hv <;> simp [hk, lookup_eraseKey_ne hk', ih]

theorem keyed_pruneEntries (kvs : List (String × Json)) : Keyed (pruneEntries kvs) := by
  induction kvs with
  | nil => simpa [pruneEntries] using Keyed.nil
  | cons e kvs ih =>
      obtain ⟨k, v⟩ := e
      rw [pruneEntries]
      have he := ih.eraseKey k
      split_ifs with hv
      · exact he
      · refine ⟨?_, ?_⟩
        · rw [List.map_cons, List.nodup_cons]
          refine ⟨fun hm => ?_, he.1⟩
          obtain ⟨e, hmem, hek⟩ := List.mem_map.mp hm
          exact (mem_eraseKey.mp hmem).2 hek
        · intro e hmem
          rcases List.mem_cons.mp hmem with rfl | hmem
          · simpa using hv
          · exact he.2 e hmem

theorem keyed_entries_prune (v : Json) : Keyed (prune v).entries := by
  cases v with
  | object kvs => simpa using keyed_pruneEntries kvs
  | array xs => simpa [prune] using Keyed.nil
  | _ => simpa [prune, entries] using Keyed.nil

theorem child_prune (v : Json) (k : String) : (prune v).child k = prune (v.child k) := by
  cases v with
  | object kvs => rw [child, prune_object, entries_ofEntries, lookup_pruneEntries, child, entries]
  | array xs =>
      rw [child, prune, entries_ofElements]
      simp [child, entries]
  | _ => simp [child, prune, entries]

theorem get_prune (v : Json) (p : Path) : (prune v).get p = prune (v.get p) := by
  induction p generalizing v with
  | nil => rfl
  | cons k p ih => rw [get_cons, get_cons, child_prune, ih]

/-! ### Writes -/

/-- Write the pruned `v` at a path.  A leaf below which nothing is stored stays a leaf. -/
def update : Json → Path → Json → Json
  | _, [], v => prune v
  | t, k :: p, v =>
      if (update (t.child k) p v).isNull && t.entries.isEmpty then t
      else ofEntries (setKey k (update (t.child k) p v) t.entries)

theorem child_update_self (t : Json) (k : String) (p : Path) (v : Json) :
    (t.update (k :: p) v).child k = (t.child k).update p v := by
  rw [update]
  split_ifs with h
  · simp only [Bool.and_eq_true, isNull_iff, List.isEmpty_iff] at h
    rw [h.1, child, h.2, lookup_nil]
  · rw [child, entries_ofEntries, lookup_setKey_self]

theorem child_update_ne {k l : String} (h : l ≠ k) (t : Json) (p : Path) (v : Json) :
    (t.update (k :: p) v).child l = t.child l := by
  rw [update]
  split_ifs with hc
  · rfl
  · rw [child, entries_ofEntries, lookup_setKey_ne h]
    rfl

/-- Seen from a node above the written one, a write is a write along the rest of the path. -/
theorem get_update_append (t : Json) (p q : Path) (v : Json) :
    (t.update (p ++ q) v).get p = (t.get p).update q v := by
  induction p generalizing t with
  | nil => rfl
  | cons k p ih =>
      rw [List.cons_append, get_cons, child_update_self, ih, get_cons]

theorem get_update_self (t : Json) (p : Path) (v : Json) : (t.update p v).get p = prune v := by
  simpa [update] using get_update_append t p [] v

/-- The two paths part at some key. -/
def Diverge : Path → Path → Prop
  | k :: p, l :: q => k ≠ l ∨ Diverge p q
  | _, _ => False

theorem Diverge.head {k l : String} (h : k ≠ l) (p q : Path) : Diverge (k :: p) (l :: q) := .inl h

theorem Diverge.tail {p q : Path} (h : Diverge p q) (k l : String) : Diverge (k :: p) (l :: q) :=
  .inr h

/-- **Frame rule**: a write is invisible at every path that parts from the written one. -/
theorem get_update_of_diverge {p q : Path} (h : Diverge p q) (t : Json) (v : Json) :
    (t.update p v).get q = t.get q := by
  induction p generalizing q t with
  | nil => cases h
  | cons k p ih =>
      cases q with
      | nil => cases h
      | cons l q =>
          by_cases hkl : l = k
          · subst hkl
            rw [get_cons, child_update_self, ih (h.resolve_left (fun hne => hne rfl)), get_cons]
          · rw [get_cons, child_update_ne hkl, get_cons]

/-- A write one level below a node changes one entry of it. -/
theorem update_singleton (kvs : List (String × Json)) (k : String) (v : Json) :
    (ofEntries kvs).update [k] v = ofEntries (setKey k (prune v) kvs) := by
  simp only [update, entries_ofEntries]
  split_ifs with h
  · simp only [Bool.and_eq_true, isNull_iff, List.isEmpty_iff] at h
    simp [h.1, h.2, setKey, isNull]
  · rfl

/-- What holds of pruned values and survives the change of one child holds below an update. -/
theorem forall_get_update {Q : Json → Prop} (hprune : ∀ v, Q (prune v))
    (hnode : ∀ t k v, Q t → Q (ofEntries (setKey k v t.entries))) {t : Json} (h : ∀ p, Q (t.get p))
    (p : Path) (v : Json) (q : Path) : Q ((t.update p v).get q) := by
  induction p generalizing t q with
  | nil =>
      rw [Json.update, get_prune]
      exact hprune _
  | cons k p ih =>
      cases q with
      | nil =>
          rw [get_nil, Json.update]
          split_ifs with hc
          · exact h []
          · exact hnode t k _ (h [])
      | cons l q =>
          rw [get_cons]
          by_cases hkl : l = k
          · subst hkl
            rw [child_update_self]
            exact ih (fun r => h (l :: r)) q
          · rw [child_update_ne hkl]
            exact h (l :: q)

/-! ### Well-formed trees -/

/-- Every node below has unique keys and no `null` child. -/
def WellFormed (t : Json) : Prop := ∀ p, Keyed (t.get p).entries

theorem wellFormed_null : WellFormed null := fun p => by
  simpa [entries] using Keyed.nil

theorem WellFormed.update {t : Json} (h : WellFormed t) (p : Path) (v : Json) :
    WellFormed (t.update p v) := by
  refine forall_get_update (Q := fun v => Keyed v.entries) keyed_entries_prune ?_ h p v
  intro t k v hkeyed
  rw [entries_ofEntries]
  exact hkeyed.setKey k v

/-! ### Compact trees -/

/-- No node below is an empty container. -/
def Compact (t : Json) : Prop := ∀ p, t.get p ≠ array [] ∧ t.get p ≠ object []

theorem ofEntries_ne_empty (kvs : List (String × Json)) :
    ofEntries kvs ≠ array [] ∧ ofEntries kvs ≠ object [] := by
  cases kvs <;> simp [ofEntries]

theorem prune_ne_empty (v : Json) : prune v ≠ array [] ∧ prune v ≠ object [] := by
  cases v with
  | object kvs =>
      rw [prune_object]
      exact ofEntries_ne_empty _
  | array xs =>
      rw [prune]
      cases pruneList xs <;> simp [ofElements]
  | _ => simp [prune]

theorem compact_null : Compact null := fun p => by simp

/-- What a store of writes holds is compact. -/
theorem Compact.update {t : Json} (h : Compact t) (p : Path) (v : Json) :
    Compact (t.update p v) :=
  forall_get_update (Q := fun v => v ≠ array [] ∧ v ≠ object []) prune_ne_empty
    (fun _ _ _ _ => ofEntries_ne_empty _) h p v

end Json

/-- A stored tree. -/
structure Tree where
  root : Json
  wellFormed : root.WellFormed

namespace Tree

def empty : Tree := ⟨.null, Json.wellFormed_null⟩

def get (t : Tree) (p : Path) : Json := t.root.get p

def update (t : Tree) (p : Path) (v : Json) : Tree := ⟨t.root.update p v, t.wellFormed.update p v⟩

theorem keyed (t : Tree) (p : Path) : Json.Keyed (t.get p).entries := t.wellFormed p

@[simp] theorem get_empty (p : Path) : empty.get p = .null := Json.get_null p

theorem get_append (t : Tree) (p q : Path) : t.get (p ++ q) = (t.get p).get q :=
  t.root.get_append p q

theorem get_update_append (t : Tree) (p q : Path) (v : Json) :
    (t.update (p ++ q) v).get p = (t.get p).update q v := t.root.get_update_append p q v

theorem get_update_of_diverge {p q : Path} (h : Json.Diverge p q) (t : Tree) (v : Json) :
    (t.update p v).get q = t.get q := Json.get_update_of_diverge h t.root v

/-- The entries of a node are the keys something is stored under. -/
theorem mem_entries_iff (t : Tree) (p : Path) {k : String} {v : Json} :
    (k, v) ∈ (t.get p).entries ↔ t.get (p ++ [k]) = v ∧ v ≠ .null := by
  rw [(t.keyed p).mem_iff]
  rw [t.get_append]
  rfl

end Tree

/-! ### Enumerations -/

/-- `v'` is `v` with its entries met in some other order: what an iteration over a dictionary that
promises no order may see. -/
def Enumerates (v v' : Json) : Prop :=
  v' = v ∨ ∃ kvs kvs', v = .object kvs ∧ v' = .object kvs' ∧ kvs'.Perm kvs

instance (v v' : Json) : Decidable (Enumerates v v') :=
  decidable_of_iff (v' = v ∨ ∃ kvs ∈ v.asObject, ∃ kvs' ∈ v'.asObject, kvs'.Perm kvs) (by
    refine or_congr Iff.rfl ?_
    cases v <;> cases v' <;> simp [Json.asObject])

theorem Enumerates.refl (v : Json) : Enumerates v v := .inl rfl

theorem Enumerates.entries {v v' : Json} (h : Enumerates v v') : v'.entries.Perm v.entries := by
  rcases h with rfl | ⟨kvs, kvs', rfl, rfl, hp⟩
  · exact .refl _
  · exact hp

/-- An enumeration of a node with children is an object again. -/
theorem Enumerates.ofEntries {kvs : List (String × Json)} {v : Json}
    (h : Enumerates (.ofEntries kvs) v) : ∃ kvs', v = .ofEntries kvs' ∧ kvs'.Perm kvs := by
  rcases h with rfl | ⟨as, bs, hv, rfl, hp⟩
  · exact ⟨kvs, rfl, .refl _⟩
  · cases kvs with
    | nil => cases hv
    | cons e kvs =>
        obtain rfl : e :: kvs = as := by simpa [Json.ofEntries] using hv
        cases bs with
        | nil => exact absurd hp.length_eq (by simp)
        | cons b bs => exact ⟨b :: bs, rfl, hp⟩

end JsonTree
