import ZipR.Node

/-! # Compound writes

The pending overwrites of a client, merged into one tree: `FImmutableTree` and `FCompoundWrite`.

* **Trees.** An `ImmutableTree` may have a value at every node; `findRootMostValueAndPath`,
  `setValue`, `setTree` and `subtreeAtPath` follow a path.
* **Writes.** `addWrite` merges a write into the root-most value on its path, and otherwise replaces
  the subtree; `applyToNode` puts the root-most values into a node.
* **Meaning.** `patch` is what a compound write says of the view.  `patch_addWrite`,
  `patch_removeWriteAtPath` and `patch_childCompoundWriteAtPath` are the patch operations;
  `view_applyToNode`: applied to a node that is clear above the written paths, a compound write
  shows its patch over the node. -/

namespace ZipR

open Std SortedEntries Patches Comparators

variable {κ α σ : Type}

inductive ImmutableTree (κ α : Type) where
  | mk (value : Option α) (children : List (κ × ImmutableTree κ α))

namespace ImmutableTree

def value : ImmutableTree κ α → Option α
  | .mk value _ => value

def children : ImmutableTree κ α → List (κ × ImmutableTree κ α)
  | .mk _ children => children

def empty : ImmutableTree κ α := .mk none []

def isEmpty (t : ImmutableTree κ α) : Bool := t.value.isNone && t.children.isEmpty

variable [Comparators κ]

/-- The value at the shortest prefix of the path that has one. -/
def findRootMostValueAndPath : ImmutableTree κ α → List κ → Option (List κ × α)
  | .mk (some value) _, _ => some ([], value)
  | .mk none _, [] => none
  | .mk none children, front :: path =>
      match find stringComparator front children with
      | none => none
      | some child =>
          match findRootMostValueAndPath child path with
          | none => none
          | some (childPath, value) => some (front :: childPath, value)

def subtreeAtPath : ImmutableTree κ α → List κ → ImmutableTree κ α
  | t, [] => t
  | .mk _ children, front :: path =>
      match find stringComparator front children with
      | none => empty
      | some childTree => subtreeAtPath childTree path

def setValue : ImmutableTree κ α → α → List κ → ImmutableTree κ α
  | .mk _ children, newValue, [] => .mk (some newValue) children
  | .mk value children, newValue, front :: path =>
      .mk value (insert stringComparator front
        (setValue ((find stringComparator front children).getD empty) newValue path) children)

def setTree : ImmutableTree κ α → ImmutableTree κ α → List κ → ImmutableTree κ α
  | _, newTree, [] => newTree
  | .mk value children, newTree, front :: path =>
      let newChild :=
        setTree ((find stringComparator front children).getD empty) newTree path
      .mk value (if newChild.isEmpty then remove stringComparator front children
        else insert stringComparator front newChild children)

def removeValueAtPath : ImmutableTree κ α → List κ → ImmutableTree κ α
  | .mk _ children, [] => if children.isEmpty then empty else .mk none children
  | .mk value children, front :: path =>
      match find stringComparator front children with
      | some child =>
          let newChild := removeValueAtPath child path
          let newChildren :=
            if newChild.isEmpty then remove stringComparator front children
            else insert stringComparator front newChild children
          if value.isNone && newChildren.isEmpty then empty else .mk value newChildren
      | none => .mk value children

end ImmutableTree

/-- `relativePathFrom:to:` for a path below the outer one; it throws for others. -/
def relativePath (outer inner : List κ) : List κ := inner.drop outer.length

structure CompoundWrite (κ σ : Type) where
  writeTree : ImmutableTree κ (Node κ σ)

namespace CompoundWrite

open ImmutableTree

def emptyWrite : CompoundWrite κ σ := ⟨.empty⟩

def isEmpty (w : CompoundWrite κ σ) : Bool := w.writeTree.isEmpty

variable [Comparators κ]

def addWrite (w : CompoundWrite κ σ) (node : Node κ σ) (path : List κ) : CompoundWrite κ σ :=
  match path with
  | [] => ⟨.mk (some node) []⟩
  | _ :: _ =>
      match w.writeTree.findRootMostValueAndPath path with
      | some (rootMost, value) =>
          ⟨w.writeTree.setValue (value.updateChild (relativePath rootMost path) node) rootMost⟩
      | none => ⟨w.writeTree.setTree (.mk (some node) []) path⟩

def removeWriteAtPath (w : CompoundWrite κ σ) (path : List κ) : CompoundWrite κ σ :=
  match path with
  | [] => emptyWrite
  | _ :: _ => ⟨w.writeTree.setTree .empty path⟩

def completeNodeAtPath (w : CompoundWrite κ σ) (path : List κ) : Option (Node κ σ) :=
  match w.writeTree.findRootMostValueAndPath path with
  | some (rootMost, value) => some (value.getChild (relativePath rootMost path))
  | none => none

def hasCompleteWriteAtPath (w : CompoundWrite κ σ) (path : List κ) : Bool :=
  (w.completeNodeAtPath path).isSome

def completeChildren (w : CompoundWrite κ σ) : List (κ × Node κ σ) :=
  match w.writeTree.value with
  | some node => node.entries
  | none => w.writeTree.children.filterMap fun e => e.2.value.map fun node => (e.1, node)

def childCompoundWriteAtPath (w : CompoundWrite κ σ) (path : List κ) : CompoundWrite κ σ :=
  match path with
  | [] => w
  | _ :: _ =>
      match w.completeNodeAtPath path with
      | some shadowingNode => ⟨.mk (some shadowingNode) []⟩
      | none => ⟨w.writeTree.subtreeAtPath path⟩

mutual

def applySubtreeWrite : ImmutableTree κ (Node κ σ) → List κ → Node κ σ → Node κ σ
  | .mk (some value) _, relative, node => node.updateChild relative value
  | .mk none children, relative, node => applyChildren children relative node

/-- The loop over the children of a subtree, in their order. -/
def applyChildren : List (κ × ImmutableTree κ (Node κ σ)) → List κ → Node κ σ → Node κ σ
  | [], _, node => node
  | (childKey, childTree) :: children, relative, node =>
      applyChildren children relative (applySubtreeWrite childTree (relative ++ [childKey]) node)

end

def applyToNode (w : CompoundWrite κ σ) (node : Node κ σ) : Node κ σ :=
  applySubtreeWrite w.writeTree [] node

end CompoundWrite

/-! ### Along a path -/

namespace ImmutableTree

variable [Comparators κ]

/-- The child under a key, empty where there is none. -/
def child (t : ImmutableTree κ α) (k : κ) : ImmutableTree κ α :=
  (find stringComparator k t.children).getD empty

omit [Comparators κ] in
@[simp] theorem isEmpty_iff {t : ImmutableTree κ α} : t.isEmpty = true ↔ t = empty := by
  obtain ⟨value, children⟩ := t
  cases value <;> cases children <;> simp [isEmpty, empty, ImmutableTree.value,
    ImmutableTree.children]

@[simp] theorem subtreeAtPath_nil (t : ImmutableTree κ α) : t.subtreeAtPath [] = t := by
  cases t
  rfl

theorem subtreeAtPath_empty (p : List κ) :
    (empty : ImmutableTree κ α).subtreeAtPath p = empty := by
  cases p <;> rfl

theorem subtreeAtPath_cons (t : ImmutableTree κ α) (k : κ) (p : List κ) :
    t.subtreeAtPath (k :: p) = (t.child k).subtreeAtPath p := by
  obtain ⟨value, children⟩ := t
  rw [subtreeAtPath, child, ImmutableTree.children]
  cases find stringComparator k children with
  | none => exact (subtreeAtPath_empty p).symm
  | some c => rfl

theorem findRootMostValueAndPath_value (a : α) (children : List (κ × ImmutableTree κ α))
    (p : List κ) : (mk (some a) children).findRootMostValueAndPath p = some ([], a) := by
  cases p <;> rfl

theorem findRootMostValueAndPath_empty (p : List κ) :
    (empty : ImmutableTree κ α).findRootMostValueAndPath p = none := by
  cases p <;> rfl

theorem findRootMostValueAndPath_cons (children : List (κ × ImmutableTree κ α)) (k : κ)
    (p : List κ) : (mk none children).findRootMostValueAndPath (k :: p) =
      (((mk none children).child k).findRootMostValueAndPath p).map
        fun rootMost => (k :: rootMost.1, rootMost.2) := by
  rw [findRootMostValueAndPath, child, ImmutableTree.children]
  cases find stringComparator k children with
  | none => simp [findRootMostValueAndPath_empty]
  | some c => cases h : c.findRootMostValueAndPath p <;> simp [h]

variable {t : ImmutableTree κ α} {p r : List κ} {a : α}

theorem prefix_of_rootMost (h : t.findRootMostValueAndPath p = some (r, a)) : r <+: p := by
  induction p generalizing t r with
  | nil =>
      obtain ⟨_ | v, children⟩ := t
      · cases h
      · rw [findRootMostValueAndPath_value] at h
        cases h
        exact List.nil_prefix
  | cons k p ih =>
      obtain ⟨_ | v, children⟩ := t
      · rw [findRootMostValueAndPath_cons] at h
        obtain ⟨⟨r', a'⟩, hr', he⟩ := Option.map_eq_some_iff.mp h
        cases he
        exact List.cons_prefix_cons.mpr ⟨rfl, ih hr'⟩
      · rw [findRootMostValueAndPath_value] at h
        cases h
        exact List.nil_prefix

/-- The root-most value is the same for every path through it. -/
theorem rootMost_append (h : t.findRootMostValueAndPath p = some (r, a)) (q : List κ) :
    t.findRootMostValueAndPath (r ++ q) = some (r, a) := by
  induction p generalizing t r with
  | nil =>
      obtain ⟨_ | v, children⟩ := t
      · cases h
      · rw [findRootMostValueAndPath_value] at h
        cases h
        exact findRootMostValueAndPath_value _ _ _
  | cons k p ih =>
      obtain ⟨_ | v, children⟩ := t
      · rw [findRootMostValueAndPath_cons] at h
        obtain ⟨⟨r', a'⟩, hr', he⟩ := Option.map_eq_some_iff.mp h
        cases he
        rw [List.cons_append, findRootMostValueAndPath_cons, ih hr']
        rfl
      · rw [findRootMostValueAndPath_value] at h
        cases h
        exact findRootMostValueAndPath_value _ _ _

/-! ### The root-most values -/

omit [Comparators κ] in
theorem induct {motive : ImmutableTree κ α → Prop}
    (h : ∀ value children, (∀ e ∈ children, motive e.2) → motive (.mk value children)) :
    ∀ t, motive t := by
  intro t
  induction hsize : sizeOf t using Nat.strong_induction_on generalizing t with
  | _ size ih =>
      obtain ⟨value, children⟩ := t
      refine h value children fun e he => ih _ ?_ e.2 rfl
      have hmem := List.sizeOf_lt_of_mem he
      obtain ⟨k, c⟩ := e
      simp only [Prod.mk.sizeOf_spec, mk.sizeOf_spec] at hmem hsize ⊢
      omega

mutual

/-- The root-most values with their paths, in the order of the children. -/
def rootMostValues : ImmutableTree κ α → List κ → List (List κ × α)
  | .mk (some a) _, r => [(r, a)]
  | .mk none children, r => rootMostValuesOf children r

def rootMostValuesOf : List (κ × ImmutableTree κ α) → List κ → List (List κ × α)
  | [], _ => []
  | (k, c) :: children, r => rootMostValues c (r ++ [k]) ++ rootMostValuesOf children r

end

omit [Comparators κ] in
theorem mem_rootMostValuesOf {children : List (κ × ImmutableTree κ α)} {r : List κ}
    {w : List κ × α} : w ∈ rootMostValuesOf children r ↔
      ∃ e ∈ children, w ∈ e.2.rootMostValues (r ++ [e.1]) := by
  induction children with
  | nil => simp [rootMostValuesOf]
  | cons e children ih =>
      obtain ⟨k, c⟩ := e
      simp [rootMostValuesOf, ih]

omit [Comparators κ] in
theorem prefix_of_mem_rootMostValues {t : ImmutableTree κ α} {r : List κ} {w : List κ × α}
    (h : w ∈ t.rootMostValues r) : r <+: w.1 := by
  induction t using induct generalizing r with
  | h value children ih =>
      cases value with
      | none =>
          obtain ⟨e, he, hw⟩ := mem_rootMostValuesOf.mp h
          exact (List.prefix_append r [e.1]).trans (ih e he hw)
      | some a =>
          obtain rfl := List.mem_singleton.mp h
          exact List.prefix_refl _

/-- The children of every tree below ascend. -/
def Ascending (t : ImmutableTree κ α) : Prop :=
  ∀ p, Sorted stringComparator (t.subtreeAtPath p).children

theorem ascending_empty : (empty : ImmutableTree κ α).Ascending := fun p => by
  rw [subtreeAtPath_empty]
  exact .nil

theorem Ascending.child {t : ImmutableTree κ α} (h : t.Ascending) (k : κ) :
    (t.child k).Ascending := fun p => subtreeAtPath_cons t k p ▸ h (k :: p)

theorem Ascending.of_child {t : ImmutableTree κ α} (hs : Sorted stringComparator t.children)
    (h : ∀ k, (t.child k).Ascending) : t.Ascending
  | [] => by rwa [subtreeAtPath_nil]
  | k :: p => by
      rw [subtreeAtPath_cons]
      exact h k p

theorem Ascending.subtreeAtPath {t : ImmutableTree κ α} (h : t.Ascending) (p : List κ) :
    (t.subtreeAtPath p).Ascending := by
  induction p generalizing t with
  | nil => rwa [subtreeAtPath_nil]
  | cons k p ih =>
      rw [subtreeAtPath_cons]
      exact ih (h.child k)

variable [LawfulComparators κ]

theorem Ascending.child_of_mem {value : Option α} {children : List (κ × ImmutableTree κ α)}
    (h : (mk value children).Ascending) {k : κ} {c : ImmutableTree κ α} (hc : (k, c) ∈ children) :
    (mk value children).child k = c := by
  have hs : Sorted stringComparator children := h []
  rw [ImmutableTree.child, ImmutableTree.children, hs.mem_iff.mp hc, Option.getD_some]

theorem mem_rootMostValues {t : ImmutableTree κ α} (h : t.Ascending) {r : List κ}
    {w : List κ × α} : w ∈ t.rootMostValues r ↔
      ∃ p, w.1 = r ++ p ∧ t.findRootMostValueAndPath p = some (p, w.2) := by
  induction t using induct generalizing r with
  | h value children ih =>
      cases value with
      | some a =>
          simp only [rootMostValues, findRootMostValueAndPath_value, List.mem_singleton,
            Option.some.injEq, Prod.mk.injEq]
          constructor
          · rintro rfl
            exact ⟨[], by simp, rfl, rfl⟩
          · rintro ⟨p, hw, rfl, ha⟩
            exact Prod.ext (by simpa using hw) ha.symm
      | none =>
          rw [rootMostValues, mem_rootMostValuesOf]
          constructor
          · rintro ⟨⟨k, c⟩, he, hw⟩
            have hc := h.child_of_mem he
            obtain ⟨p, hp, hroot⟩ := (ih _ he (hc ▸ h.child k)).mp hw
            refine ⟨k :: p, by simp [hp], ?_⟩
            rw [findRootMostValueAndPath_cons, hc, hroot]
            rfl
          · rintro ⟨p, hp, hroot⟩
            cases p with
            | nil => cases hroot
            | cons k p =>
                rw [findRootMostValueAndPath_cons] at hroot
                obtain ⟨⟨p', a⟩, hroot, he⟩ := Option.map_eq_some_iff.mp hroot
                cases he
                rw [child, ImmutableTree.children] at hroot
                cases hf : find stringComparator k children with
                | none =>
                    rw [hf, Option.getD_none, findRootMostValueAndPath_empty] at hroot
                    cases hroot
                | some c =>
                    have he : (k, c) ∈ children := (h []).mem_iff.mpr hf
                    rw [hf, Option.getD_some] at hroot
                    refine ⟨(k, c), he, (ih _ he (h.child_of_mem he ▸ h.child k)).mpr ?_⟩
                    exact ⟨p', by simp [hp], hroot⟩

/-- No root-most value is above another. -/
theorem rootMostValues_pairwise {t : ImmutableTree κ α} (h : t.Ascending) (r : List κ) :
    (t.rootMostValues r).Pairwise fun u w => ¬ u.1 <+: w.1 ∧ ¬ w.1 <+: u.1 := by
  induction t using induct generalizing r with
  | h value children ih =>
      cases value with
      | some a => exact List.pairwise_singleton _ _
      | none =>
          have hs : Sorted stringComparator children := h []
          have hpw : ∀ e ∈ children, (e.2.rootMostValues (r ++ [e.1])).Pairwise
              fun u w => ¬ u.1 <+: w.1 ∧ ¬ w.1 <+: u.1 :=
            fun e he => ih e he (h.child_of_mem he ▸ h.child e.1) _
          clear ih h
          rw [rootMostValues]
          induction children with
          | nil => exact .nil
          | cons e children ih =>
              obtain ⟨k, c⟩ := e
              obtain ⟨hlt, hs⟩ := sorted_cons.mp hs
              refine List.pairwise_append.mpr ⟨hpw _ List.mem_cons_self,
                ih hs fun e he => hpw e (List.mem_cons_of_mem _ he), fun u hu w hw => ?_⟩
              obtain ⟨e, he, hw⟩ := mem_rootMostValuesOf.mp hw
              have hne : k ≠ e.1 := fun hk => by
                have hk' := hlt e he
                simp [hk, ReflCmp.compare_self] at hk'
              exact diverge_of_ne hne (prefix_of_mem_rootMostValues hu)
                (prefix_of_mem_rootMostValues hw)

/-! ### Replacing subtrees and values -/

omit [LawfulComparators κ]

theorem value_setTree_cons (t new : ImmutableTree κ α) (k : κ) (p : List κ) :
    (t.setTree new (k :: p)).value = t.value := by
  cases t
  rfl

theorem value_setValue_cons (t : ImmutableTree κ α) (a : α) (k : κ) (p : List κ) :
    (t.setValue a (k :: p)).value = t.value := by
  cases t
  rfl

section lawful
variable [LawfulComparators κ]

theorem child_setTree_self {t : ImmutableTree κ α} (h : Sorted stringComparator t.children)
    (new : ImmutableTree κ α) (k : κ) (p : List κ) :
    (t.setTree new (k :: p)).child k = (t.child k).setTree new p := by
  obtain ⟨value, children⟩ := t
  simp only [setTree, child, ImmutableTree.children] at h ⊢
  split_ifs with hempty
  · rw [find_remove_self h, Option.getD_none, isEmpty_iff.mp hempty]
  · rw [find_insert_self, Option.getD_some]

theorem child_setTree_ne {t : ImmutableTree κ α} (h : Sorted stringComparator t.children)
    (new : ImmutableTree κ α) {k l : κ} (hl : l ≠ k) (p : List κ) :
    (t.setTree new (k :: p)).child l = t.child l := by
  have hne : stringComparator l k ≠ .eq := fun he => hl (LawfulEqCmp.eq_of_compare he)
  obtain ⟨value, children⟩ := t
  simp only [setTree, child, ImmutableTree.children] at h ⊢
  split_ifs
  · rw [find_remove_ne hne h]
  · rw [find_insert_ne hne]

theorem child_setValue_self (t : ImmutableTree κ α) (a : α) (k : κ) (p : List κ) :
    (t.setValue a (k :: p)).child k = (t.child k).setValue a p := by
  obtain ⟨value, children⟩ := t
  simp only [setValue, child, ImmutableTree.children, find_insert_self, Option.getD_some]

theorem child_setValue_ne (t : ImmutableTree κ α) (a : α) {k l : κ} (hl : l ≠ k) (p : List κ) :
    (t.setValue a (k :: p)).child l = t.child l := by
  have hne : stringComparator l k ≠ .eq := fun he => hl (LawfulEqCmp.eq_of_compare he)
  obtain ⟨value, children⟩ := t
  simp only [setValue, child, ImmutableTree.children, find_insert_ne hne]

omit [LawfulComparators κ] in
theorem removeValueAtPath_nil (t : ImmutableTree κ α) :
    t.removeValueAtPath [] = .mk none t.children := by
  obtain ⟨value, _ | ⟨e, children⟩⟩ := t <;> rfl

/-- Removing a value in a child. -/
theorem removeValueAtPath_cons {t : ImmutableTree κ α} (h : Sorted stringComparator t.children)
    (k : κ) (p : List κ) :
    (t.removeValueAtPath (k :: p)).value = t.value ∧
      Sorted stringComparator (t.removeValueAtPath (k :: p)).children ∧
      (t.removeValueAtPath (k :: p)).child k = (t.child k).removeValueAtPath p ∧
      ∀ l, l ≠ k → (t.removeValueAtPath (k :: p)).child l = t.child l := by
  obtain ⟨value, children⟩ := t
  cases hf : find stringComparator k children with
  | none =>
      have hnone : (empty : ImmutableTree κ α).removeValueAtPath p = empty := by cases p <;> rfl
      simp only [removeValueAtPath, child, ImmutableTree.children, hf, Option.getD_none, hnone]
      exact ⟨trivial, h, trivial, fun l _ => trivial⟩
  | some c =>
      have hmk : ∀ newChildren : List (κ × ImmutableTree κ α),
          (if value.isNone && newChildren.isEmpty then empty else mk value newChildren) =
            mk value newChildren := by
        intro newChildren
        split_ifs with hempty
        · rw [Bool.and_eq_true, Option.isNone_iff_eq_none, List.isEmpty_iff] at hempty
          rw [hempty.1, hempty.2]
          rfl
        · rfl
      have hne : ∀ l, l ≠ k → stringComparator l k ≠ .eq := fun l hl he =>
        hl (LawfulEqCmp.eq_of_compare he)
      simp only [removeValueAtPath, hf, hmk, child, ImmutableTree.children, Option.getD_some] at h ⊢
      refine ⟨rfl, ?_⟩
      split_ifs with hempty
      · rw [find_remove_self h, Option.getD_none, isEmpty_iff.mp hempty]
        exact ⟨h.remove k, rfl, fun l hl => by rw [find_remove_ne (hne l hl) h]⟩
      · rw [find_insert_self, Option.getD_some]
        exact ⟨h.insert k _, rfl, fun l hl => by rw [find_insert_ne (hne l hl)]⟩

theorem sorted_setTree_cons {t : ImmutableTree κ α} (h : Sorted stringComparator t.children)
    (new : ImmutableTree κ α) (k : κ) (p : List κ) :
    Sorted stringComparator (t.setTree new (k :: p)).children := by
  obtain ⟨value, children⟩ := t
  simp only [setTree, ImmutableTree.children]
  split_ifs
  · exact h.remove k
  · exact h.insert k _

theorem sorted_setValue_cons {t : ImmutableTree κ α} (h : Sorted stringComparator t.children)
    (a : α) (k : κ) (p : List κ) :
    Sorted stringComparator (t.setValue a (k :: p)).children := by
  obtain ⟨value, children⟩ := t
  exact h.insert k _

end lawful

/-- Where a root-most value is. -/
theorem value_subtreeAtPath_of_rootMost {t : ImmutableTree κ α} {p r : List κ} {a : α}
    (h : t.findRootMostValueAndPath p = some (r, a)) : (t.subtreeAtPath r).value = some a := by
  induction p generalizing t r with
  | nil =>
      obtain ⟨_ | v, children⟩ := t
      · cases h
      · rw [findRootMostValueAndPath_value] at h
        cases h
        rfl
  | cons k p ih =>
      obtain ⟨_ | v, children⟩ := t
      · rw [findRootMostValueAndPath_cons] at h
        obtain ⟨⟨r', a'⟩, hr', he⟩ := Option.map_eq_some_iff.mp h
        cases he
        rw [subtreeAtPath_cons]
        exact ih hr'
      · rw [findRootMostValueAndPath_value] at h
        cases h
        rfl

/-- There is no root-most value on a path without values. -/
theorem rootMost_eq_none_iff {t : ImmutableTree κ α} {p : List κ} :
    t.findRootMostValueAndPath p = none ↔ ∀ q, q <+: p → (t.subtreeAtPath q).value = none := by
  induction p generalizing t with
  | nil =>
      obtain ⟨_ | v, children⟩ := t
      · refine iff_of_true rfl fun q hq => ?_
        rw [List.prefix_nil.mp hq]
        rfl
      · refine iff_of_false (by simp [findRootMostValueAndPath_value]) fun h => ?_
        cases h [] List.nil_prefix
  | cons k p ih =>
      obtain ⟨_ | v, children⟩ := t
      · rw [findRootMostValueAndPath_cons, Option.map_eq_none_iff, ih]
        constructor
        · intro h q hq
          cases q with
          | nil => rfl
          | cons l q =>
              obtain ⟨rfl, hqp⟩ := List.cons_prefix_cons.mp hq
              rw [subtreeAtPath_cons]
              exact h q hqp
        · intro h q hq
          rw [← subtreeAtPath_cons]
          exact h (k :: q) (List.cons_prefix_cons.mpr ⟨rfl, hq⟩)
      · refine iff_of_false (by simp [findRootMostValueAndPath_value]) fun h => ?_
        cases h [] List.nil_prefix

/-- The value at the end of a path is root-most when there is none before it. -/
theorem rootMost_self_iff {t : ImmutableTree κ α} {p : List κ} {a : α} :
    t.findRootMostValueAndPath p = some (p, a) ↔ (t.subtreeAtPath p).value = some a ∧
      ∀ q, q <+: p → (t.subtreeAtPath q).value ≠ none → q = p := by
  have hfound : ∀ {q}, (t.subtreeAtPath q).value ≠ none → ∃ r b,
      t.findRootMostValueAndPath q = some (r, b) := by
    intro q hq
    obtain ⟨⟨r, b⟩, hr⟩ := Option.ne_none_iff_exists'.mp
      (mt rootMost_eq_none_iff.mp fun h => hq (h q (List.prefix_refl q)))
    exact ⟨r, b, hr⟩
  constructor
  · intro h
    refine ⟨value_subtreeAtPath_of_rootMost h, fun q hq hvalue => ?_⟩
    obtain ⟨r, b, hr⟩ := hfound hvalue
    obtain ⟨s, rfl⟩ := hq
    obtain ⟨u, rfl⟩ := prefix_of_rootMost hr
    have happend := rootMost_append hr (u ++ s)
    rw [← List.append_assoc, h] at happend
    obtain ⟨he, -⟩ := Prod.mk.inj (Option.some.inj happend)
    have hlen := congrArg List.length he
    simp only [List.length_append] at hlen
    obtain rfl : s = [] := List.eq_nil_of_length_eq_zero (by omega)
    rw [List.append_nil]
  · rintro ⟨hvalue, htop⟩
    obtain ⟨r, b, hr⟩ := hfound (by rw [hvalue]; simp)
    have hrvalue := value_subtreeAtPath_of_rootMost hr
    obtain rfl := htop r (prefix_of_rootMost hr) (by rw [hrvalue]; simp)
    rw [hr, Option.some.inj (hrvalue.symm.trans hvalue)]

section lawful
variable [LawfulComparators κ]

theorem value_subtreeAtPath_setValue (t : ImmutableTree κ α) (a : α) {p q : List κ} :
    ((t.setValue a p).subtreeAtPath q).value = some a ∧ q = p ∨
      ((t.setValue a p).subtreeAtPath q).value = (t.subtreeAtPath q).value ∧ q ≠ p := by
  induction p generalizing t q with
  | nil =>
      obtain ⟨value, children⟩ := t
      cases q with
      | nil => exact .inl ⟨rfl, rfl⟩
      | cons l q => exact .inr ⟨rfl, List.cons_ne_nil _ _⟩
  | cons k p ih =>
      cases q with
      | nil =>
          rw [subtreeAtPath_nil, subtreeAtPath_nil, value_setValue_cons]
          exact .inr ⟨rfl, (List.cons_ne_nil _ _).symm⟩
      | cons l q =>
          rw [subtreeAtPath_cons, subtreeAtPath_cons]
          by_cases hl : l = k
          · rw [hl, child_setValue_self]
            simpa using ih (t.child k)
          · rw [child_setValue_ne t a hl]
            exact .inr ⟨rfl, fun he => hl (List.cons.inj he).1⟩

theorem Ascending.removeValueAtPath {t : ImmutableTree κ α} (h : t.Ascending) (p : List κ) :
    (t.removeValueAtPath p).Ascending := by
  induction p generalizing t with
  | nil =>
      rw [removeValueAtPath_nil]
      obtain ⟨value, children⟩ := t
      exact .of_child (h []) h.child
  | cons k p ih =>
      have hs : Sorted stringComparator t.children := by simpa using h []
      obtain ⟨-, hsorted, hself, hne⟩ := removeValueAtPath_cons hs k p
      refine .of_child hsorted fun l => ?_
      by_cases hl : l = k
      · rw [hl, hself]
        exact ih (h.child k)
      · rw [hne l hl]
        exact h.child l

theorem value_subtreeAtPath_removeValueAtPath [DecidableEq κ] {t : ImmutableTree κ α}
    (h : t.Ascending) (p q : List κ) : ((t.removeValueAtPath p).subtreeAtPath q).value =
      if q = p then none else (t.subtreeAtPath q).value := by
  induction p generalizing t q with
  | nil =>
      rw [removeValueAtPath_nil]
      cases q with
      | nil => rfl
      | cons l q =>
          rw [if_neg (List.cons_ne_nil _ _), subtreeAtPath_cons, subtreeAtPath_cons]
          rfl
  | cons k p ih =>
      have hs : Sorted stringComparator t.children := by simpa using h []
      obtain ⟨hvalue, -, hself, hne⟩ := removeValueAtPath_cons hs k p
      cases q with
      | nil => rw [subtreeAtPath_nil, subtreeAtPath_nil, hvalue, if_neg (List.cons_ne_nil _ _).symm]
      | cons l q =>
          rw [subtreeAtPath_cons, subtreeAtPath_cons]
          by_cases hl : l = k
          · rw [hl, hself, ih (h.child k)]
            simp
          · rw [hne l hl, if_neg fun he => hl (List.cons.inj he).1]

theorem Ascending.setValue {t : ImmutableTree κ α} (h : t.Ascending) (a : α) (p : List κ) :
    (t.setValue a p).Ascending := by
  induction p generalizing t with
  | nil =>
      obtain ⟨value, children⟩ := t
      exact .of_child (h []) h.child
  | cons k p ih =>
      have hs : Sorted stringComparator t.children := by simpa using h []
      refine .of_child (sorted_setValue_cons hs a k p) fun l => ?_
      by_cases hl : l = k
      · rw [hl, child_setValue_self]
        exact ih (h.child k)
      · rw [child_setValue_ne t a hl]
        exact h.child l

end lawful

/-! ### Well-formed trees of nodes -/

/-- The children of every tree below ascend, and every value is a well-formed node. -/
def WellFormed (t : ImmutableTree κ (Node κ σ)) : Prop :=
  ∀ p, Sorted stringComparator (t.subtreeAtPath p).children ∧
    ∀ v ∈ (t.subtreeAtPath p).value, v.WellFormed

theorem wellFormed_empty : (empty : ImmutableTree κ (Node κ σ)).WellFormed := fun p => by
  rw [subtreeAtPath_empty]
  exact ⟨.nil, nofun⟩

theorem wellFormed_single {v : Node κ σ} (h : v.WellFormed) :
    (mk (some v) [] : ImmutableTree κ (Node κ σ)).WellFormed := fun p => by
  cases p with
  | nil => exact ⟨.nil, fun u hu => Option.mem_some_iff.mp hu ▸ h⟩
  | cons k p => exact ⟨.nil, nofun⟩

namespace WellFormed

variable {t : ImmutableTree κ (Node κ σ)}

theorem ascending (h : t.WellFormed) : t.Ascending := fun p => (h p).1

theorem sorted (h : t.WellFormed) : Sorted stringComparator t.children :=
  subtreeAtPath_nil t ▸ (h []).1

theorem value (h : t.WellFormed) {v : Node κ σ} (hv : t.value = some v) : v.WellFormed :=
  (h []).2 v (by rwa [subtreeAtPath_nil])

theorem child (h : t.WellFormed) (k : κ) : (t.child k).WellFormed :=
  fun p => subtreeAtPath_cons t k p ▸ h (k :: p)

theorem subtreeAtPath (h : t.WellFormed) (p : List κ) : (t.subtreeAtPath p).WellFormed := by
  induction p generalizing t with
  | nil => rwa [subtreeAtPath_nil]
  | cons k p ih =>
      rw [subtreeAtPath_cons]
      exact ih (h.child k)

theorem of_child (hs : Sorted stringComparator t.children)
    (hv : ∀ v, t.value = some v → v.WellFormed) (h : ∀ k, (t.child k).WellFormed) : t.WellFormed
  | [] => by
      rw [subtreeAtPath_nil]
      exact ⟨hs, fun v hv' => hv v hv'⟩
  | k :: p => by
      rw [subtreeAtPath_cons]
      exact h k p

theorem rootMost (h : t.WellFormed) {p r : List κ} {v : Node κ σ}
    (hr : t.findRootMostValueAndPath p = some (r, v)) : v.WellFormed := by
  induction p generalizing t r with
  | nil =>
      obtain ⟨_ | u, children⟩ := t
      · cases hr
      · rw [findRootMostValueAndPath_value] at hr
        cases hr
        exact h.value rfl
  | cons k p ih =>
      obtain ⟨_ | u, children⟩ := t
      · rw [findRootMostValueAndPath_cons] at hr
        obtain ⟨⟨r', v'⟩, hr', he⟩ := Option.map_eq_some_iff.mp hr
        cases he
        exact ih (h.child k) hr'
      · rw [findRootMostValueAndPath_value] at hr
        cases hr
        exact h.value rfl

variable [LawfulComparators κ]

theorem setTree (h : t.WellFormed) {new : ImmutableTree κ (Node κ σ)} (hnew : new.WellFormed)
    (p : List κ) : (t.setTree new p).WellFormed := by
  induction p generalizing t with
  | nil =>
      cases t
      exact hnew
  | cons k p ih =>
      refine of_child (sorted_setTree_cons h.sorted new k p) (fun v hv => ?_) fun l => ?_
      · exact h.value (value_setTree_cons t new k p ▸ hv)
      · by_cases hl : l = k
        · rw [hl, child_setTree_self h.sorted]
          exact ih (h.child k)
        · rw [child_setTree_ne h.sorted new hl]
          exact h.child l

theorem setValue (h : t.WellFormed) {v : Node κ σ} (hv : v.WellFormed) (p : List κ) :
    (t.setValue v p).WellFormed := by
  induction p generalizing t with
  | nil =>
      obtain ⟨value, children⟩ := t
      exact of_child h.sorted (fun u hu => Option.some.inj hu ▸ hv) h.child
  | cons k p ih =>
      refine of_child (sorted_setValue_cons h.sorted v k p) (fun u hu => ?_) fun l => ?_
      · exact h.value (value_setValue_cons t v k p ▸ hu)
      · by_cases hl : l = k
        · rw [hl, child_setValue_self]
          exact ih (h.child k)
        · rw [child_setValue_ne t v hl]
          exact h.child l

end WellFormed
end ImmutableTree

namespace CompoundWrite

open ImmutableTree

variable [Comparators κ]

/-! ### What a compound write says -/

/-- The values of the view that a compound write determines. -/
def patch (w : CompoundWrite κ σ) : Patch κ σ := fun q => (w.completeNodeAtPath q).map Node.value

theorem completeNodeAtPath_some {t : ImmutableTree κ (Node κ σ)} {v : Node κ σ}
    (h : t.value = some v) (p : List κ) :
    completeNodeAtPath ⟨t⟩ p = some (v.getChild p) := by
  obtain ⟨value, children⟩ := t
  obtain rfl : value = some v := h
  rw [completeNodeAtPath, findRootMostValueAndPath_value]
  rfl

theorem completeNodeAtPath_nil {t : ImmutableTree κ (Node κ σ)} (h : t.value = none) :
    completeNodeAtPath ⟨t⟩ [] = none := by
  obtain ⟨value, children⟩ := t
  obtain rfl : value = none := h
  rfl

theorem completeNodeAtPath_cons {t : ImmutableTree κ (Node κ σ)} (h : t.value = none) (k : κ)
    (p : List κ) : completeNodeAtPath ⟨t⟩ (k :: p) = completeNodeAtPath ⟨t.child k⟩ p := by
  obtain ⟨value, children⟩ := t
  obtain rfl : value = none := h
  rw [completeNodeAtPath, completeNodeAtPath, findRootMostValueAndPath_cons]
  cases ((ImmutableTree.mk none children).child k).findRootMostValueAndPath p with
  | none => rfl
  | some rootMost => simp [relativePath]

theorem patch_of_value {t : ImmutableTree κ (Node κ σ)} {v : Node κ σ} (h : t.value = some v) :
    patch ⟨t⟩ = fun q => some (v.view q) := by
  funext q
  rw [patch, completeNodeAtPath_some h]
  rfl

theorem patch_nil {t : ImmutableTree κ (Node κ σ)} (h : t.value = none) :
    patch ⟨t⟩ [] = none := by
  rw [patch, completeNodeAtPath_nil h, Option.map_none]

theorem patch_cons {t : ImmutableTree κ (Node κ σ)} (h : t.value = none) (k : κ) (q : List κ) :
    patch ⟨t⟩ (k :: q) = patch ⟨t.child k⟩ q := by
  rw [patch, patch, completeNodeAtPath_cons h]

theorem patch_emptyWrite : patch (emptyWrite : CompoundWrite κ σ) = Patch.empty := by
  funext q
  rw [patch, completeNodeAtPath, emptyWrite, findRootMostValueAndPath_empty]
  rfl

theorem completeNodeAtPath_append {w : CompoundWrite κ σ} {p : List κ} {v : Node κ σ}
    (h : w.completeNodeAtPath p = some v) (q : List κ) :
    w.completeNodeAtPath (p ++ q) = some (v.getChild q) := by
  obtain ⟨t⟩ := w
  induction p generalizing t with
  | nil =>
      cases ht : t.value with
      | none =>
          rw [completeNodeAtPath_nil ht] at h
          cases h
      | some u =>
          rw [completeNodeAtPath_some ht] at h ⊢
          obtain rfl : u = v := by simpa using h
          rw [List.nil_append]
  | cons k p ih =>
      cases ht : t.value with
      | none =>
          rw [completeNodeAtPath_cons ht] at h
          rw [List.cons_append, completeNodeAtPath_cons ht, ih _ h]
      | some u =>
          rw [completeNodeAtPath_some ht] at h ⊢
          rw [← Option.some.inj h, Node.getChild_append]

/-- The compound write speaks at a path exactly when its write there is complete. -/
theorem patch_eq_none_iff {w : CompoundWrite κ σ} {p : List κ} :
    w.patch p = none ↔ w.completeNodeAtPath p = none := by
  rw [patch, Option.map_eq_none_iff]

/-- What a complete node shows. -/
theorem below_patch_of_complete {w : CompoundWrite κ σ} {p : List κ} {v : Node κ σ}
    (h : w.completeNodeAtPath p = some v) : w.patch.below p = fun q => some (v.view q) := by
  funext q
  rw [Patch.below, patch, completeNodeAtPath_append h]
  rfl

/-- The well-formed compound writes. -/
def WellFormed (w : CompoundWrite κ σ) : Prop := w.writeTree.WellFormed

theorem wellFormed_emptyWrite : (emptyWrite : CompoundWrite κ σ).WellFormed := wellFormed_empty

theorem WellFormed.completeNodeAtPath {w : CompoundWrite κ σ} (h : w.WellFormed) {p : List κ}
    {v : Node κ σ} (hv : w.completeNodeAtPath p = some v) : v.WellFormed := by
  rw [CompoundWrite.completeNodeAtPath] at hv
  cases hr : w.writeTree.findRootMostValueAndPath p with
  | none => simp [hr] at hv
  | some rootMost =>
      obtain ⟨r, u⟩ := rootMost
      rw [hr] at hv
      rw [← Option.some.inj hv]
      exact (ImmutableTree.WellFormed.rootMost h hr).getChild _

/-! ### A write below a path -/

theorem WellFormed.childCompoundWriteAtPath {w : CompoundWrite κ σ} (h : w.WellFormed)
    (p : List κ) : (w.childCompoundWriteAtPath p).WellFormed := by
  cases p with
  | nil => exact h
  | cons k p =>
      rw [CompoundWrite.childCompoundWriteAtPath]
      cases hv : w.completeNodeAtPath (k :: p) with
      | none => exact ImmutableTree.WellFormed.subtreeAtPath h _
      | some v => exact wellFormed_single (h.completeNodeAtPath hv)

theorem patch_subtreeAtPath {t : ImmutableTree κ (Node κ σ)} {p : List κ}
    (h : completeNodeAtPath ⟨t⟩ p = none) : patch ⟨t.subtreeAtPath p⟩ = (patch ⟨t⟩).below p := by
  induction p generalizing t with
  | nil =>
      rw [subtreeAtPath_nil]
      rfl
  | cons k p ih =>
      cases ht : t.value with
      | some v => simp [completeNodeAtPath_some ht] at h
      | none =>
          rw [completeNodeAtPath_cons ht] at h
          rw [subtreeAtPath_cons, ih h]
          funext q
          exact (patch_cons ht k (p ++ q)).symm

theorem patch_childCompoundWriteAtPath (w : CompoundWrite κ σ) (p : List κ) :
    (w.childCompoundWriteAtPath p).patch = w.patch.below p := by
  cases p with
  | nil => rfl
  | cons k p =>
      rw [childCompoundWriteAtPath]
      cases hv : w.completeNodeAtPath (k :: p) with
      | none => exact patch_subtreeAtPath hv
      | some v => rw [patch_of_value rfl, below_patch_of_complete hv]

theorem patch_of_isEmpty {w : CompoundWrite κ σ} (h : w.isEmpty = true) :
    w.patch = Patch.empty := by
  obtain ⟨t⟩ := w
  obtain rfl := ImmutableTree.isEmpty_iff.mp h
  exact patch_emptyWrite

/-! ### Adding and removing writes -/

/-- A write below the root. -/
def mergeTree (t : ImmutableTree κ (Node κ σ)) (node : Node κ σ) (path : List κ) :
    ImmutableTree κ (Node κ σ) :=
  match t.findRootMostValueAndPath path with
  | some (rootMost, value) =>
      t.setValue (value.updateChild (relativePath rootMost path) node) rootMost
  | none => t.setTree (.mk (some node) []) path

theorem mergeTree_of_value {t : ImmutableTree κ (Node κ σ)} {v : Node κ σ} (h : t.value = some v)
    (node : Node κ σ) (p : List κ) :
    mergeTree t node p = .mk (some (v.updateChild p node)) t.children := by
  obtain ⟨value, children⟩ := t
  obtain rfl : value = some v := h
  rw [mergeTree, findRootMostValueAndPath_value]
  rfl

theorem patch_addWrite_eq (w : CompoundWrite κ σ) (node : Node κ σ) (p : List κ) :
    (w.addWrite node p).patch = patch ⟨mergeTree w.writeTree node p⟩ := by
  obtain ⟨t⟩ := w
  cases p with
  | nil =>
      rw [addWrite, patch_of_value rfl]
      cases ht : t.value with
      | some v =>
          rw [mergeTree_of_value ht, patch_of_value rfl, Node.updateChild_nil]
      | none =>
          obtain ⟨value, children⟩ := t
          obtain rfl : value = none := ht
          rw [mergeTree, findRootMostValueAndPath, setTree, patch_of_value rfl]
  | cons k p =>
      rw [addWrite, mergeTree]
      cases t.findRootMostValueAndPath (k :: p) <;> rfl

variable [LawfulComparators κ]

theorem mergeTree_cons {t : ImmutableTree κ (Node κ σ)} (hs : Sorted stringComparator t.children)
    (ht : t.value = none) (node : Node κ σ) (k : κ) (p : List κ) :
    (mergeTree t node (k :: p)).value = none ∧
      (mergeTree t node (k :: p)).child k = mergeTree (t.child k) node p ∧
      ∀ l, l ≠ k → (mergeTree t node (k :: p)).child l = t.child l := by
  obtain ⟨value, children⟩ := t
  obtain rfl : value = none := ht
  rw [mergeTree, mergeTree, findRootMostValueAndPath_cons]
  cases ((ImmutableTree.mk none children).child k).findRootMostValueAndPath p with
  | none => exact ⟨value_setTree_cons _ _ k p, child_setTree_self hs _ k p,
      fun l hl => child_setTree_ne hs _ hl p⟩
  | some rootMost =>
      obtain ⟨r, v⟩ := rootMost
      refine ⟨value_setValue_cons _ _ k r, ?_, fun l hl => child_setValue_ne _ _ hl r⟩
      rw [Option.map_some, child_setValue_self]
      simp [relativePath]

theorem WellFormed.addWrite {w : CompoundWrite κ σ} (h : w.WellFormed) {node : Node κ σ}
    (hnode : node.WellFormed) (p : List κ) : (w.addWrite node p).WellFormed := by
  cases p with
  | nil => exact wellFormed_single hnode
  | cons k p =>
      rw [CompoundWrite.addWrite]
      cases hr : w.writeTree.findRootMostValueAndPath (k :: p) with
      | none => exact ImmutableTree.WellFormed.setTree h (wellFormed_single hnode) _
      | some rootMost =>
          obtain ⟨r, v⟩ := rootMost
          refine ImmutableTree.WellFormed.setValue h ?_ r
          exact (ImmutableTree.WellFormed.rootMost h hr).updateChild _ hnode

theorem WellFormed.removeWriteAtPath {w : CompoundWrite κ σ} (h : w.WellFormed) (p : List κ) :
    (w.removeWriteAtPath p).WellFormed := by
  cases p with
  | nil => exact wellFormed_emptyWrite
  | cons k p => exact ImmutableTree.WellFormed.setTree h wellFormed_empty _

/-- **Merging a write is a write of the patch.** -/
theorem patch_addWrite {w : CompoundWrite κ σ} (h : w.WellFormed) {node : Node κ σ}
    (hnode : node.WellFormed) (p : List κ) :
    (w.addWrite node p).patch = Patch.write p node.view w.patch := by
  rw [patch_addWrite_eq]
  obtain ⟨t⟩ := w
  change t.WellFormed at h
  induction p generalizing t with
  | nil =>
      have hnil : Patch.write [] node.view (patch ⟨t⟩) = fun q => some (node.view q) := by
        funext q
        exact Patch.write_append [] q node.view _
      rw [← patch_addWrite_eq, addWrite, patch_of_value rfl, hnil]
  | cons k p ih =>
      cases ht : t.value with
      | some v =>
          rw [mergeTree_of_value ht, patch_of_value rfl, patch_of_value ht, Patch.write_some,
            Node.view_updateChild (h.value ht) hnode]
      | none =>
          obtain ⟨hvalue, hself, hne⟩ := mergeTree_cons h.sorted ht node k p
          funext q
          cases q with
          | nil =>
              rw [patch_nil hvalue, ← List.nil_append (k :: p), Patch.write_above, patch_nil ht,
                Option.map_none, ite_self]
          | cons l q =>
              rw [patch_cons hvalue]
              by_cases hl : l = k
              · subst hl
                have hchild : (patch ⟨t⟩).below [l] = patch ⟨t.child l⟩ :=
                  funext fun r => patch_cons ht l r
                have hbelow : (Patch.write ([l] ++ p) node.view (patch ⟨t⟩)).below [l] =
                    Patch.write p node.view (patch ⟨t.child l⟩) := by
                  rw [Patch.below_write, hchild]
                rw [hself, ih _ (h.child l), ← hbelow]
                rfl
              · have hdiv := diverge_of_ne (r := []) (a := k :: p) (b := l :: q) (Ne.symm hl)
                  (by simp) (by simp)
                rw [hne l hl, Patch.write_of_diverge _ _ hdiv.1 hdiv.2, patch_cons ht]

omit [LawfulComparators κ] in
theorem removeWriteAtPath_eq (w : CompoundWrite κ σ) (p : List κ) :
    w.removeWriteAtPath p = ⟨w.writeTree.setTree .empty p⟩ := by
  obtain ⟨⟨value, children⟩⟩ := w
  cases p <;> rfl

/-- **Removing at a path below no other write** takes out what is said from there on. -/
theorem patch_removeWriteAtPath {w : CompoundWrite κ σ} (h : w.WellFormed) {p : List κ}
    (hp : ∀ q, q <+: p → q ≠ p → w.patch q = none) :
    (w.removeWriteAtPath p).patch = Patch.erase p w.patch := by
  obtain ⟨t⟩ := w
  change t.WellFormed at h
  rw [removeWriteAtPath_eq]
  induction p generalizing t with
  | nil =>
      have hnil : Patch.erase [] (patch ⟨t⟩) = Patch.empty := by
        funext q
        simp [Patch.erase, Patch.empty]
      rw [hnil]
      cases t
      exact patch_emptyWrite
  | cons k p ih =>
      cases ht : t.value with
      | some v =>
          have hnone := hp [] List.nil_prefix (List.cons_ne_nil k p).symm
          simp [patch_of_value ht] at hnone
      | none =>
          have hvalue := (value_setTree_cons t .empty k p).trans ht
          funext q
          cases q with
          | nil => simp [patch_nil hvalue, patch_nil ht, Patch.erase]
          | cons l q =>
              rw [patch_cons hvalue]
              by_cases hl : l = k
              · subst hl
                have hchild : ∀ r, r <+: p → r ≠ p → patch ⟨t.child l⟩ r = none := by
                  intro r hr hne
                  rw [← patch_cons ht]
                  exact hp _ (List.cons_prefix_cons.mpr ⟨rfl, hr⟩) (by simpa using hne)
                rw [child_setTree_self h.sorted, ih _ hchild (h.child l), Patch.erase, Patch.erase,
                  patch_cons ht]
                by_cases hq : p <+: q <;> simp [hq]
              · rw [child_setTree_ne h.sorted _ hl, Patch.erase, patch_cons ht]
                simp [List.cons_prefix_cons, Ne.symm hl]

/-! ### Applying to a node -/

/-- Updates of a node, the first one first. -/
def updates (n : Node κ σ) (ws : List (List κ × Node κ σ)) : Node κ σ :=
  ws.foldl (fun n w => n.updateChild w.1 w.2) n

omit [LawfulComparators κ] in
theorem applySubtreeWrite_eq (t : ImmutableTree κ (Node κ σ)) (r : List κ) (n : Node κ σ) :
    applySubtreeWrite t r n = updates n (t.rootMostValues r) := by
  induction t using ImmutableTree.induct generalizing r n with
  | h value children ih =>
      cases value with
      | some v => rfl
      | none =>
          rw [applySubtreeWrite, rootMostValues]
          induction children generalizing n with
          | nil => rfl
          | cons e children ihs =>
              obtain ⟨k, c⟩ := e
              rw [applyChildren, rootMostValuesOf, updates, List.foldl_append]
              rw [ihs fun e he => ih e (List.mem_cons_of_mem _ he), ih _ List.mem_cons_self]
              rfl

theorem updates_replay {n : Node κ σ} (hn : n.WellFormed) {ws : List (List κ × Node κ σ)}
    (hws : ∀ w ∈ ws, w.2.WellFormed) : (updates n ws).WellFormed ∧
      (updates n ws).view = n.view.replay (ws.map fun w => (w.1, w.2.view)) := by
  induction ws using List.reverseRecOn with
  | nil => exact ⟨hn, rfl⟩
  | append_singleton ws w ih =>
      obtain ⟨hwf, hview⟩ := ih fun u hu => hws u (List.mem_append_left _ hu)
      have hw := hws w (by simp)
      rw [List.map_append, List.map_singleton, View.replay_snoc, ← hview, updates,
        List.foldl_append]
      exact ⟨hwf.updateChild _ hw, Node.view_updateChild hwf hw _⟩

/-- The root-most writes. -/
def writes (w : CompoundWrite κ σ) : List (List κ × Node κ σ) := w.writeTree.rootMostValues []

theorem mem_writes {w : CompoundWrite κ σ} (h : w.WellFormed) {u : List κ × Node κ σ} :
    u ∈ w.writes ↔ w.writeTree.findRootMostValueAndPath u.1 = some u := by
  rw [writes, ImmutableTree.mem_rootMostValues (ImmutableTree.WellFormed.ascending h)]
  constructor
  · rintro ⟨p, hp, hu⟩
    obtain rfl : u.1 = p := hp
    exact hu
  · exact fun hu => ⟨u.1, rfl, hu⟩

theorem WellFormed.of_mem_writes {w : CompoundWrite κ σ} (h : w.WellFormed)
    {u : List κ × Node κ σ} (hu : u ∈ w.writes) : u.2.WellFormed :=
  ImmutableTree.WellFormed.rootMost h ((mem_writes h).mp hu)

/-- The patch of a compound write is that of its root-most writes. -/
theorem ofWrites_writes {w : CompoundWrite κ σ} (h : w.WellFormed) :
    Patch.ofWrites (w.writes.map fun u => (u.1, u.2.view)) = w.patch := by
  funext q
  rw [patch, completeNodeAtPath]
  cases hr : w.writeTree.findRootMostValueAndPath q with
  | none =>
      refine Patch.ofWrites_eq_none_iff.mpr fun u hu hup => ?_
      obtain ⟨⟨p, v⟩, hmem, rfl⟩ := List.mem_map.mp hu
      obtain ⟨r, rfl⟩ := hup
      have hroot := ImmutableTree.rootMost_append ((mem_writes h).mp hmem) r
      simp [hroot] at hr
  | some rootMost =>
      obtain ⟨p, v⟩ := rootMost
      obtain ⟨r, rfl⟩ := ImmutableTree.prefix_of_rootMost hr
      have hmem : (p, v) ∈ w.writes := by
        refine (mem_writes h).mpr ?_
        simpa using ImmutableTree.rootMost_append hr []
      have hpw : (w.writes.map fun u => (u.1, u.2.view)).Pairwise
          fun u w => ¬ u.1 <+: w.1 ∧ ¬ w.1 <+: u.1 :=
        List.pairwise_map.mpr
          (ImmutableTree.rootMostValues_pairwise (ImmutableTree.WellFormed.ascending h) [])
      rw [Patch.ofWrites_of_mem hpw (List.mem_map_of_mem hmem)]
      simp [relativePath, Node.view]

/-- **A compound write puts its patch over what a node shows.** -/
theorem view_applyToNode {w : CompoundWrite κ σ} (h : w.WellFormed) {n : Node κ σ}
    (hn : n.WellFormed) (hclear : Patch.Clear w.patch n.view) :
    (w.applyToNode n).WellFormed ∧ (w.applyToNode n).view = w.patch.overlay n.view := by
  have hupdates := updates_replay hn fun u hu => h.of_mem_writes hu
  have happly : w.applyToNode n = updates n w.writes := applySubtreeWrite_eq _ _ _
  rw [happly]
  refine ⟨hupdates.1, ?_⟩
  rw [hupdates.2, ← ofWrites_writes h]
  refine (Patch.overlay_ofWrites fun u hu p hp hne => ?_).symm
  obtain ⟨⟨r, v⟩, hmem, rfl⟩ := List.mem_map.mp hu
  have hr := (mem_writes h).mp hmem
  refine hclear p r hp ?_ ?_
  · rw [patch_eq_none_iff, completeNodeAtPath]
    cases hp' : w.writeTree.findRootMostValueAndPath p with
    | none => rfl
    | some rootMost =>
        obtain ⟨s, u⟩ := rootMost
        have hs := ImmutableTree.prefix_of_rootMost hp'
        obtain ⟨x, rfl⟩ := hs.trans hp
        have hroot := ImmutableTree.rootMost_append hp' x
        obtain ⟨hsx, -⟩ := Prod.mk.inj (Option.some.inj (hroot.symm.trans hr))
        exact absurd (hp.eq_of_length_le (hsx ▸ hs.length_le)) hne
  · rw [Ne, patch_eq_none_iff, completeNodeAtPath, hr]
    exact Option.some_ne_none _

end CompoundWrite
end ZipR
