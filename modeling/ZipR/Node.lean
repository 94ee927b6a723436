import ZipR.SortedEntries
import ZipR.Patches
import Mathlib.Data.List.Perm.Subperm
import Mathlib.Tactic.Common

/-! # Nodes of the client's cache

The immutable trees in which the database client keeps data: a leaf with a value, or children
under keys in ascending order; the node without children is the empty one.  Priorities are not
modelled: the app sets none.

* **Comparators.** Children of a node are kept under `keyComparator`.  The keys are those on which
  it is an order (`LawfulComparators`).
* **Operations.** `getChild` and `updateChild` follow a path; writing the empty node removes, and
  below a leaf it changes nothing.
* **Well-formedness.** The children of every node below ascend and none is empty.  `FNode` carries
  the proof, which `updateChild` keeps.
* **Views.** `view` is what a node shows at its leaves.  `view_updateChild`: an update is an
  `overwrite` of the view; `WellFormed.ext`: well-formed nodes are equal when their views are. -/

namespace ZipR

open Std SortedEntries Patches

/-- The comparators of `FUtilities`. -/
class Comparators (κ : Type) where
  keyComparator : κ → κ → Ordering
  stringComparator : κ → κ → Ordering

open Comparators

/-- Both comparators are orders of the keys. -/
class LawfulComparators (κ : Type) [Comparators κ] : Prop where
  key_trans : TransCmp (keyComparator : κ → κ → Ordering)
  key_eq : LawfulEqCmp (keyComparator : κ → κ → Ordering)
  string_trans : TransCmp (stringComparator : κ → κ → Ordering)
  string_eq : LawfulEqCmp (stringComparator : κ → κ → Ordering)

attribute [instance] LawfulComparators.key_trans LawfulComparators.key_eq
  LawfulComparators.string_trans LawfulComparators.string_eq

inductive Node (κ σ : Type) where
  | leaf (value : σ)
  | children (entries : List (κ × Node κ σ))

namespace Node

variable {κ σ : Type} [Comparators κ]

def emptyNode : Node κ σ := .children []

def isEmpty : Node κ σ → Bool
  | .leaf _ => false
  | .children entries => entries.isEmpty

def isLeafNode : Node κ σ → Bool
  | .leaf _ => true
  | .children _ => false

def getImmediateChild (n : Node κ σ) (childName : κ) : Node κ σ :=
  match n with
  | .leaf _ => emptyNode
  | .children entries => (find keyComparator childName entries).getD emptyNode

def hasChild (n : Node κ σ) (childName : κ) : Bool := !(n.getImmediateChild childName).isEmpty

def getChild : Node κ σ → List κ → Node κ σ
  | n, [] => n
  | .leaf _, _ :: _ => emptyNode
  | .children entries, front :: path =>
      getChild ((children entries).getImmediateChild front) path

def updateImmediateChild (n : Node κ σ) (childName : κ) (newChildNode : Node κ σ) : Node κ σ :=
  match n with
  | .leaf value =>
      if newChildNode.isEmpty then .leaf value
      else .children (insert keyComparator childName newChildNode [])
  | .children entries =>
      .children (if newChildNode.isEmpty then remove keyComparator childName entries
        else insert keyComparator childName newChildNode entries)

def updateChild : Node κ σ → List κ → Node κ σ → Node κ σ
  | _, [], newChildNode => newChildNode
  | .leaf value, front :: path, newChildNode =>
      if newChildNode.isEmpty then .leaf value
      else updateImmediateChild (.leaf value) front (updateChild emptyNode path newChildNode)
  | .children entries, front :: path, newChildNode =>
      updateImmediateChild (.children entries) front
        (updateChild ((children entries).getImmediateChild front) path newChildNode)

/-- The children, in the order of their keys. -/
def entries : Node κ σ → List (κ × Node κ σ)
  | .leaf _ => []
  | .children entries => entries

/-- The value of a leaf. -/
def value : Node κ σ → Option σ
  | .leaf value => some value
  | .children _ => none

omit [Comparators κ] in
@[simp] theorem isEmpty_iff {n : Node κ σ} : n.isEmpty = true ↔ n = emptyNode := by
  cases n with
  | leaf value => simp [isEmpty, emptyNode]
  | children entries => simp [isEmpty, emptyNode]

/-! ### Along a path -/

@[simp] theorem getChild_nil (n : Node κ σ) : n.getChild [] = n := by
  cases n <;> rfl

@[simp] theorem getChild_emptyNode (p : List κ) :
    (emptyNode : Node κ σ).getChild p = emptyNode := by
  induction p with
  | nil => rfl
  | cons k p ih => exact ih

theorem getChild_cons (n : Node κ σ) (k : κ) (p : List κ) :
    n.getChild (k :: p) = (n.getImmediateChild k).getChild p := by
  cases n with
  | leaf value => exact (getChild_emptyNode p).symm
  | children entries => rfl

theorem getChild_append (n : Node κ σ) (p q : List κ) :
    n.getChild (p ++ q) = (n.getChild p).getChild q := by
  induction p generalizing n with
  | nil => rw [List.nil_append, getChild_nil]
  | cons k p ih => rw [List.cons_append, getChild_cons, getChild_cons, ih]

@[simp] theorem updateChild_nil (n new : Node κ σ) : n.updateChild [] new = new := by
  cases n <;> rfl

@[simp] theorem updateChild_emptyNode (p : List κ) :
    (emptyNode : Node κ σ).updateChild p emptyNode = emptyNode := by
  induction p with
  | nil => rfl
  | cons k p ih =>
      rw [emptyNode, updateChild]
      change updateImmediateChild emptyNode k (updateChild emptyNode p emptyNode) = _
      rw [ih]
      rfl

theorem updateChild_cons (n : Node κ σ) (k : κ) (p : List κ) (new : Node κ σ) :
    n.updateChild (k :: p) new =
      n.updateImmediateChild k ((n.getImmediateChild k).updateChild p new) := by
  cases n with
  | leaf value =>
      rw [updateChild]
      split_ifs with hnew
      · obtain rfl := isEmpty_iff.mp hnew
        rw [getImmediateChild, updateChild_emptyNode]
        rfl
      · rfl
  | children entries => rfl

theorem updateImmediateChild_ne_emptyNode (n : Node κ σ) (k : κ) {c : Node κ σ}
    (hc : c ≠ emptyNode) : n.updateImmediateChild k c ≠ emptyNode := by
  have hfalse : ¬ c.isEmpty = true := fun h => hc (isEmpty_iff.mp h)
  cases n with
  | leaf value =>
      rw [updateImmediateChild, if_neg hfalse]
      exact fun h => insert_ne_nil _ _ _ (children.inj h)
  | children entries =>
      rw [updateImmediateChild, if_neg hfalse]
      exact fun h => insert_ne_nil _ _ _ (children.inj h)

theorem updateChild_ne_emptyNode (n : Node κ σ) (p : List κ) {new : Node κ σ}
    (h : new ≠ emptyNode) : n.updateChild p new ≠ emptyNode := by
  induction p generalizing n with
  | nil => rwa [updateChild_nil]
  | cons k p ih =>
      rw [updateChild_cons]
      exact n.updateImmediateChild_ne_emptyNode k (ih _)

/-- An update strictly below a leaf turns it into a node with children, unless it removes. -/
theorem value_updateChild_cons (n : Node κ σ) (k : κ) (p : List κ) (new : Node κ σ) :
    (n.updateChild (k :: p) new).value = if new.isEmpty then n.value else none := by
  cases n with
  | leaf value =>
      rw [updateChild]
      split_ifs with hnew
      · rfl
      · have hne : updateChild emptyNode p new ≠ emptyNode :=
          updateChild_ne_emptyNode _ p fun he => hnew (isEmpty_iff.mpr he)
        rw [updateImmediateChild, if_neg fun he => hne (isEmpty_iff.mp he)]
        rfl
  | children entries =>
      rw [updateChild]
      split_ifs <;> rfl

section lawful
variable [LawfulComparators κ]

theorem getImmediateChild_update_self {n : Node κ σ} (h : Sorted keyComparator n.entries) (k : κ)
    (c : Node κ σ) : (n.updateImmediateChild k c).getImmediateChild k = c := by
  cases n with
  | leaf value =>
      rw [updateImmediateChild]
      split_ifs with hc
      · exact (isEmpty_iff.mp hc).symm
      · rw [getImmediateChild, find_insert_self, Option.getD_some]
  | children entries =>
      simp only [Node.entries] at h
      rw [updateImmediateChild, getImmediateChild]
      split_ifs with hc
      · rw [find_remove_self h, Option.getD_none, isEmpty_iff.mp hc]
      · rw [find_insert_self, Option.getD_some]

theorem getImmediateChild_update_ne {n : Node κ σ} (h : Sorted keyComparator n.entries) {k l : κ}
    (hl : l ≠ k) (c : Node κ σ) :
    (n.updateImmediateChild k c).getImmediateChild l = n.getImmediateChild l := by
  have hne : keyComparator l k ≠ .eq := fun he => hl (LawfulEqCmp.eq_of_compare he)
  cases n with
  | leaf value =>
      rw [updateImmediateChild]
      split_ifs with hc
      · rfl
      · simp only [getImmediateChild, find_insert_ne hne, find_nil, Option.getD_none]
  | children entries =>
      simp only [Node.entries] at h
      rw [updateImmediateChild, getImmediateChild, getImmediateChild]
      split_ifs with hc
      · rw [find_remove_ne hne h]
      · rw [find_insert_ne hne]

end lawful

/-! ### Well-formed nodes -/

/-- The children of every node below ascend, and none is empty. -/
def WellFormed (n : Node κ σ) : Prop := ∀ p, Sorted keyComparator (n.getChild p).entries ∧
  ∀ e ∈ (n.getChild p).entries, e.2 ≠ emptyNode

theorem wellFormed_emptyNode : (emptyNode : Node κ σ).WellFormed := fun p => by
  rw [getChild_emptyNode]
  exact ⟨.nil, nofun⟩

theorem wellFormed_leaf (value : σ) : (leaf value : Node κ σ).WellFormed := fun p => by
  cases p with
  | nil => exact ⟨.nil, nofun⟩
  | cons k p => exact ⟨.nil, nofun⟩

namespace WellFormed

variable {n : Node κ σ}

theorem sorted (h : n.WellFormed) : Sorted keyComparator n.entries := by
  simpa using (h []).1

theorem getImmediateChild (h : n.WellFormed) (k : κ) : (n.getImmediateChild k).WellFormed :=
  fun p => getChild_cons n k p ▸ h (k :: p)

theorem getChild (h : n.WellFormed) (p : List κ) : (n.getChild p).WellFormed :=
  fun q => getChild_append n p q ▸ h (p ++ q)

/-- A node is well-formed when its children are. -/
theorem of_children {entries : List (κ × Node κ σ)} (hs : Sorted keyComparator entries)
    (hne : ∀ e ∈ entries, e.2 ≠ emptyNode)
    (h : ∀ k, ((children entries).getImmediateChild k).WellFormed) :
    (children entries).WellFormed
  | [] => ⟨hs, hne⟩
  | k :: p => by
      rw [getChild_cons]
      exact h k p

variable [LawfulComparators κ]

theorem updateImmediateChild (h : n.WellFormed) (k : κ) {c : Node κ σ} (hc : c.WellFormed) :
    (n.updateImmediateChild k c).WellFormed := by
  have hchild : ∀ l, ((n.updateImmediateChild k c).getImmediateChild l).WellFormed := by
    intro l
    by_cases hl : l = k
    · rw [hl, getImmediateChild_update_self h.sorted]
      exact hc
    · rw [getImmediateChild_update_ne h.sorted hl]
      exact h.getImmediateChild l
  cases n with
  | leaf value =>
      rw [Node.updateImmediateChild] at hchild ⊢
      split_ifs at hchild ⊢ with hempty
      · exact wellFormed_leaf value
      · refine of_children (sorted_nil.insert k c) ?_ hchild
        intro e he
        obtain rfl : e = (k, c) := by simpa using mem_of_mem_insert he
        simpa using hempty
  | children entries =>
      obtain ⟨hs, hne⟩ : Sorted keyComparator entries ∧ ∀ e ∈ entries, e.2 ≠ emptyNode := by
        simpa [Node.entries] using h []
      rw [Node.updateImmediateChild] at hchild ⊢
      split_ifs at hchild ⊢ with hempty
      · exact of_children (hs.remove k) (fun e he => hne e ((remove_sublist k entries).subset he))
          hchild
      · refine of_children (hs.insert k c) (fun e he => ?_) hchild
        rcases mem_of_mem_insert he with rfl | he
        · simpa using hempty
        · exact hne e he

theorem updateChild (h : n.WellFormed) (p : List κ) {new : Node κ σ} (hnew : new.WellFormed) :
    (n.updateChild p new).WellFormed := by
  induction p generalizing n with
  | nil => rwa [updateChild_nil]
  | cons k p ih =>
      rw [updateChild_cons]
      exact h.updateImmediateChild k (ih (h.getImmediateChild k))

/-- Seen from a node above the written one, an update is an update along the rest of the path. -/
theorem getChild_updateChild_append (h : n.WellFormed) (p q : List κ) (new : Node κ σ) :
    (n.updateChild (p ++ q) new).getChild p = (n.getChild p).updateChild q new := by
  induction p generalizing n with
  | nil => rw [List.nil_append, getChild_nil, getChild_nil]
  | cons k p ih =>
      rw [List.cons_append, updateChild_cons, getChild_cons, getImmediateChild_update_self h.sorted,
        ih (h.getImmediateChild k), getChild_cons]

/-- Read after write. -/
theorem getChild_updateChild_self (h : n.WellFormed) (p : List κ) (new : Node κ σ) :
    (n.updateChild p new).getChild p = new := by
  have hself := h.getChild_updateChild_append p [] new
  rwa [List.append_nil, updateChild_nil] at hself

/-- **Frame rule** of updates. -/
theorem getChild_updateChild_of_diverge (h : n.WellFormed) {p q : List κ} (hp : ¬ p <+: q)
    (hq : ¬ q <+: p) (new : Node κ σ) : (n.updateChild p new).getChild q = n.getChild q := by
  induction p generalizing n q with
  | nil => exact absurd (List.nil_prefix) hp
  | cons k p ih =>
      cases q with
      | nil => exact absurd (List.nil_prefix) hq
      | cons l q =>
          rw [updateChild_cons, getChild_cons, getChild_cons]
          by_cases hl : l = k
          · subst hl
            rw [getImmediateChild_update_self h.sorted]
            exact ih (h.getImmediateChild l) (fun hle => hp (List.cons_prefix_cons.mpr ⟨rfl, hle⟩))
              fun hle => hq (List.cons_prefix_cons.mpr ⟨rfl, hle⟩)
          · rw [getImmediateChild_update_ne h.sorted hl]

end WellFormed

/-! ### What a node shows -/

/-- The values at the leaves. -/
def view (n : Node κ σ) : View κ σ := fun p => (n.getChild p).value

theorem view_getChild (n : Node κ σ) (p : List κ) : view (n.getChild p) = n.view.below p := by
  funext q
  rw [view, View.below, view, getChild_append]

theorem view_emptyNode : (emptyNode : Node κ σ).view.Blank := fun p => by
  rw [view, getChild_emptyNode]
  rfl

omit [Comparators κ] in
/-- A child of a node is smaller. -/
theorem sizeOf_getImmediateChild_lt {entries : List (κ × Node κ σ)} {k : κ} {c : Node κ σ}
    (h : (k, c) ∈ entries) : sizeOf c < sizeOf (children entries) := by
  have hmem := List.sizeOf_lt_of_mem h
  simp only [Prod.mk.sizeOf_spec, children.sizeOf_spec] at hmem ⊢
  omega

variable [LawfulComparators κ]

namespace WellFormed

variable {n m : Node κ σ}

theorem mem_entries_iff {entries : List (κ × Node κ σ)} (h : (children entries).WellFormed)
    {k : κ} {c : Node κ σ} :
    (k, c) ∈ entries ↔ (children entries).getImmediateChild k = c ∧ c ≠ emptyNode := by
  obtain ⟨hs, hne⟩ : Sorted keyComparator entries ∧ ∀ e ∈ entries, e.2 ≠ emptyNode := by
    simpa [Node.entries] using h []
  rw [hs.mem_iff, Node.getImmediateChild]
  cases hf : find keyComparator k entries with
  | none => simp [eq_comm]
  | some d =>
      have hd := hne (k, d) (hs.mem_iff.mpr hf)
      simp only [Option.some.injEq, Option.getD_some]
      constructor
      · rintro rfl
        exact ⟨rfl, hd⟩
      · exact fun hc => hc.1

/-- A well-formed node that shows nothing is empty. -/
theorem eq_emptyNode_of_blank (h : n.WellFormed) (hb : n.view.Blank) : n = emptyNode := by
  induction hsize : sizeOf n using Nat.strong_induction_on generalizing n with
  | _ size ih =>
      cases n with
      | leaf value => exact absurd (hb []) (Option.some_ne_none value)
      | children entries =>
          cases entries with
          | nil => rfl
          | cons e entries =>
              obtain ⟨k, c⟩ := e
              obtain ⟨hk, hne⟩ := h.mem_entries_iff.mp List.mem_cons_self
              refine absurd (ih (sizeOf c) ?_ (hk ▸ h.getImmediateChild k) (fun p => ?_) rfl) hne
              · exact hsize ▸ sizeOf_getImmediateChild_lt List.mem_cons_self
              · rw [view, ← hk, ← getChild_cons]
                exact hb (k :: p)

theorem blank_iff (h : n.WellFormed) : n.view.Blank ↔ n = emptyNode :=
  ⟨h.eq_emptyNode_of_blank, fun he => he ▸ view_emptyNode⟩

/-- **Extensionality**: well-formed nodes that show the same are equal. -/
theorem ext (hn : n.WellFormed) (hm : m.WellFormed) (h : n.view = m.view) : n = m := by
  induction hsize : sizeOf n using Nat.strong_induction_on generalizing n m with
  | _ size ih =>
      cases n with
      | leaf value =>
          have hvalue := congrFun h []
          cases m with
          | leaf value' => simpa [view, Node.value] using hvalue
          | children entries => simp [view, Node.value] at hvalue
      | children entries =>
          cases m with
          | leaf value =>
              have hvalue := congrFun h []
              simp [view, Node.value] at hvalue
          | children entries' =>
              have hview : ∀ k, ((children entries).getImmediateChild k).view =
                  ((children entries').getImmediateChild k).view := by
                intro k
                have hk := congrArg (View.below · [k]) h
                simpa only [← view_getChild, getChild_cons, getChild_nil] using hk
              have hchild : ∀ k, (children entries).getImmediateChild k =
                  (children entries').getImmediateChild k := by
                intro k
                by_cases hk : (children entries).getImmediateChild k = emptyNode
                · have hblank : ((children entries').getImmediateChild k).view.Blank := by
                    rw [← hview k, hk]
                    exact view_emptyNode
                  rw [hk, (hm.getImmediateChild k).eq_emptyNode_of_blank hblank]
                · refine ih _ ?_ (hn.getImmediateChild k) (hm.getImmediateChild k) (hview k) rfl
                  exact hsize ▸ sizeOf_getImmediateChild_lt (hn.mem_entries_iff.mpr ⟨rfl, hk⟩)
              have hs : Sorted keyComparator entries := hn.sorted
              have hs' : Sorted keyComparator entries' := hm.sorted
              rw [hs.ext hs' fun k => Option.ext fun c => ?_]
              rw [← hs.mem_iff, ← hs'.mem_iff, hn.mem_entries_iff, hm.mem_entries_iff, hchild k]

end WellFormed

/-- **An update of a node is an overwrite of what it shows.** -/
theorem view_updateChild {n new : Node κ σ} (h : n.WellFormed) (hnew : new.WellFormed)
    (p : List κ) : (n.updateChild p new).view = View.overwrite p new.view n.view := by
  funext q
  by_cases hp : p <+: q
  · obtain ⟨r, rfl⟩ := hp
    rw [View.overwrite_append, view, getChild_append, h.getChild_updateChild_self]
    rfl
  · by_cases hq : q <+: p
    · obtain ⟨r, rfl⟩ := hq
      cases r with
      | nil => exact absurd (by simp) hp
      | cons k r =>
          rw [View.overwrite_above, view, h.getChild_updateChild_append, value_updateChild_cons]
          by_cases hb : new.isEmpty = true
          · rw [if_pos hb, if_pos (hnew.blank_iff.mpr (isEmpty_iff.mp hb))]
            rfl
          · rw [if_neg hb, if_neg fun h => hb (isEmpty_iff.mpr (hnew.blank_iff.mp h))]
    · rw [View.overwrite_of_diverge _ _ hp hq, view, h.getChild_updateChild_of_diverge hp hq]
      rfl

/-! ### Replacing what is below a path -/

omit [LawfulComparators κ] in
/-- Above data there is no leaf. -/
theorem view_eq_none_of_above {n : Node κ σ} {p q : List κ} (hq : q <+: p) (hne : q ≠ p)
    (h : n.getChild p ≠ emptyNode) : n.view q = none := by
  obtain ⟨r, rfl⟩ := hq
  cases r with
  | nil => simp at hne
  | cons k r =>
      rw [getChild_append] at h
      rw [view]
      cases hn : n.getChild q with
      | leaf value =>
          rw [hn, getChild_cons] at h
          exact absurd (getChild_emptyNode r) h
      | children entries => rfl

/-- **Two nodes that agree off a path** become equal when the one gets what the other has there. -/
theorem updateChild_eq {n m : Node κ σ} (hn : n.WellFormed) (hm : m.WellFormed) {p : List κ}
    (hdiverge : ∀ q, ¬ p <+: q → ¬ q <+: p → n.view q = m.view q)
    (habove : ∀ q, q <+: p → q ≠ p → m.getChild p = emptyNode → n.view q = m.view q) :
    n.updateChild p (m.getChild p) = m := by
  refine (hn.updateChild p (hm.getChild p)).ext hm ?_
  rw [view_updateChild hn (hm.getChild p)]
  funext q
  by_cases hp : p <+: q
  · obtain ⟨r, rfl⟩ := hp
    rw [View.overwrite_append, view_getChild]
    rfl
  · by_cases hq : q <+: p
    · have hne : q ≠ p := fun he => hp (he ▸ List.prefix_refl _)
      obtain ⟨r, rfl⟩ := hq
      cases r with
      | nil => simp at hne
      | cons k r =>
          rw [View.overwrite_above, (hm.getChild _).blank_iff]
          split_ifs with hempty
          · exact habove q (List.prefix_append _ _) hne hempty
          · exact (view_eq_none_of_above (List.prefix_append _ _) hne hempty).symm
    · rw [View.overwrite_of_diverge _ _ hp hq, hdiverge q hp hq]

theorem WellFormed.updateChild_self {n : Node κ σ} (h : n.WellFormed) (p : List κ) :
    n.updateChild p (n.getChild p) = n := updateChild_eq h h (fun _ _ _ => rfl) fun _ _ _ _ => rfl

theorem WellFormed.updateImmediateChild_self {n : Node κ σ} (h : n.WellFormed) (k : κ) :
    n.updateImmediateChild k (n.getImmediateChild k) = n := by
  have hself := h.updateChild_self [k]
  rwa [updateChild_cons, getChild_cons, getChild_nil, updateChild_nil] at hself

/-! ### Equality of nodes -/

omit [LawfulComparators κ] in
theorem sizeOf_getImmediateChild_le (entries : List (κ × Node κ σ)) (k : κ) :
    sizeOf ((children entries).getImmediateChild k) ≤ sizeOf (children entries) := by
  rw [getImmediateChild]
  cases hf : find keyComparator k entries with
  | none =>
      cases entries with
      | nil => exact le_rfl
      | cons e entries =>
          simp only [Option.getD_none, emptyNode, children.sizeOf_spec, List.nil.sizeOf_spec,
            List.cons.sizeOf_spec]
          omega
  | some c =>
      obtain ⟨l, hl⟩ := exists_mem_of_find hf
      exact (sizeOf_getImmediateChild_lt hl).le

/-- `isEqual:` of two nodes; the priorities are the empty ones. -/
def isEqual [DecidableEq σ] : Node κ σ → Node κ σ → Bool
  | .leaf value, .leaf other => decide (other = value)
  | .leaf _, .children _ => false
  | .children _, .leaf _ => false
  | .children entries, .children others =>
      entries.length == others.length &&
        entries.attach.all fun ⟨(key, node), _h⟩ =>
          isEqual ((children others).getImmediateChild key) node
termination_by n m => sizeOf n + sizeOf m
decreasing_by
  have hlt := sizeOf_getImmediateChild_lt _h
  have hle := sizeOf_getImmediateChild_le others key
  omega

/-- On well-formed nodes `isEqual:` is equality. -/
theorem isEqual_iff [DecidableEq σ] {n m : Node κ σ} (hn : n.WellFormed) (hm : m.WellFormed) :
    n.isEqual m = true ↔ n = m := by
  induction hsize : sizeOf n + sizeOf m using Nat.strong_induction_on generalizing n m with
  | _ size ih =>
      cases n with
      | leaf value =>
          cases m with
          | leaf other => simp [isEqual, eq_comm]
          | children others => simp [isEqual]
      | children entries =>
          cases m with
          | leaf other => simp [isEqual]
          | children others =>
              have hs : Sorted keyComparator entries := hn.sorted
              have hs' : Sorted keyComparator others := hm.sorted
              have hchild : ∀ k c, (k, c) ∈ entries →
                  (isEqual ((children others).getImmediateChild k) c = true ↔
                    (children others).getImmediateChild k = c) := by
                intro k c hc
                have hlt := sizeOf_getImmediateChild_lt hc
                have hle := sizeOf_getImmediateChild_le others k
                refine ih _ (by omega) (hm.getImmediateChild k) ?_ rfl
                exact (hn.mem_entries_iff.mp hc).1 ▸ hn.getImmediateChild k
              rw [isEqual, Bool.and_eq_true, beq_iff_eq, List.all_eq_true]
              constructor
              · rintro ⟨hlen, hall⟩
                have hsub : entries ⊆ others := by
                  rintro ⟨k, c⟩ hc
                  obtain ⟨-, hne⟩ := hn.mem_entries_iff.mp hc
                  have hk := (hchild k c hc).mp (hall ⟨(k, c), hc⟩ (List.mem_attach _ _))
                  exact hm.mem_entries_iff.mpr ⟨hk, hne⟩
                have hperm := (List.Nodup.subperm hs.nodup hsub).perm_of_length_le hlen.ge
                refine congrArg children (hs.ext hs' fun k => Option.ext fun c => ?_)
                rw [← hs.mem_iff, ← hs'.mem_iff, hperm.mem_iff]
              · intro h
                obtain rfl := children.inj h
                refine ⟨rfl, fun ⟨(k, c), hc⟩ _ => (hchild k c hc).mpr ?_⟩
                exact (hn.mem_entries_iff.mp hc).1

end Node

/-- A node of the cache. -/
structure FNode (κ σ : Type) [Comparators κ] where
  node : Node κ σ
  wellFormed : node.WellFormed

end ZipR
