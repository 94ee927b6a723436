import ZipR.CompoundWrite

/-! # The pending writes of a client

`FWriteTree`: the writes the server has not yet answered, in a list and merged into one compound
write, and the event cache computed from them.  Merges and priorities are not modelled.

* **Writes.** `addOverwriteAtPath` records a write; `removeWriteId` takes one out and repairs the
  merged tree by the cheapest of three ways (`removeWriteId_cases`).
* **Invariant.** `Layered`: the merged tree is the patch of the visible writes in their order.
  Adding keeps it; removing keeps it when no earlier visible write is strictly above the removed one
  and no hidden write is pending (`Layered.removeWriteId`), in particular in the order of the
  writes.
* **Event caches.** In a layered tree the cache computed for any path is what the server's data
  shows there after the pending writes (`calculateCompleteEventCacheAtPath_eq`). -/

namespace ZipR

open Std Patches Comparators

variable {κ σ : Type}

/-- What is known of a node: all of it, or only the children it has. -/
@[ext]
structure FCacheNode (κ σ : Type) where
  node : Node κ σ
  isFullyInitialized : Bool

namespace FCacheNode

variable [Comparators κ]

def isCompleteForChild (self : FCacheNode κ σ) (childKey : κ) : Bool :=
  self.isFullyInitialized || self.node.hasChild childKey

def isCompleteForPath (self : FCacheNode κ σ) : List κ → Bool
  | [] => self.isFullyInitialized
  | childKey :: _ => self.isCompleteForChild childKey

end FCacheNode

structure FWriteRecord (κ σ : Type) where
  path : List κ
  overwrite : Node κ σ
  writeId : Int
  visible : Bool

structure FWriteTree (κ σ : Type) where
  visibleWrites : CompoundWrite κ σ
  allWrites : List (FWriteRecord κ σ)
  lastWriteId : Int

namespace FWriteTree

def init : FWriteTree κ σ := ⟨.emptyWrite, [], -1⟩

variable [DecidableEq κ] [Comparators κ]

/-- None when the assertion on the order of the ids fails. -/
def addOverwriteAtPath (T : FWriteTree κ σ) (path : List κ) (newData : Node κ σ) (writeId : Int)
    (visible : Bool) : Option (FWriteTree κ σ) :=
  if T.lastWriteId < writeId then
    some {
      visibleWrites :=
        if visible then T.visibleWrites.addWrite newData path else T.visibleWrites
      allWrites := T.allWrites ++ [⟨path, newData, writeId, visible⟩]
      lastWriteId := writeId }
  else none

def defaultFilter (_ : FWriteRecord κ σ) : Bool := true

def layerTreeFromWrites (writes : List (FWriteRecord κ σ)) (filter : FWriteRecord κ σ → Bool)
    (treeRoot : List κ) : CompoundWrite κ σ :=
  writes.foldl (fun compoundWrite record =>
    if filter record then
      if treeRoot <+: record.path then
        compoundWrite.addWrite record.overwrite (relativePath treeRoot record.path)
      else if record.path <+: treeRoot then
        compoundWrite.addWrite (record.overwrite.getChild (relativePath record.path treeRoot)) []
      else compoundWrite
    else compoundWrite) .emptyWrite

def resetTree (T : FWriteTree κ σ) : FWriteTree κ σ :=
  { T with
    visibleWrites := layerTreeFromWrites T.allWrites defaultFilter []
    lastWriteId :=
      match T.allWrites.getLast? with
      | some lastRecord => lastRecord.writeId
      | none => -1 }

def containsPath (record : FWriteRecord κ σ) (path : List κ) : Bool := decide (record.path <+: path)

/-- The loop of `removeWriteId`, over the other writes with their positions from the last one down:
whether the removed write was visible, and whether it overlaps with others. -/
def overlap (writeToRemove : FWriteRecord κ σ) (index : Nat) :
    List (FWriteRecord κ σ × Nat) → Bool × Bool → Bool × Bool
  | [], flags => flags
  | (currentWrite, i) :: rest, (removedWriteWasVisible, overlapsWithOtherWrites) =>
      if removedWriteWasVisible then
        if currentWrite.visible then
          if index ≤ i ∧ containsPath currentWrite writeToRemove.path then
            overlap writeToRemove index rest (false, overlapsWithOtherWrites)
          else if writeToRemove.path <+: currentWrite.path then
            overlap writeToRemove index rest (removedWriteWasVisible, true)
          else overlap writeToRemove index rest (removedWriteWasVisible, overlapsWithOtherWrites)
        else overlap writeToRemove index rest (removedWriteWasVisible, overlapsWithOtherWrites)
      else (removedWriteWasVisible, overlapsWithOtherWrites)

/-- The answer tells whether views need to reevaluate; none when there is no such write. -/
def removeWriteId (T : FWriteTree κ σ) (writeId : Int) : Option (Bool × FWriteTree κ σ) := do
  let index ← T.allWrites.findIdx? fun record => record.writeId == writeId
  let writeToRemove ← T.allWrites[index]?
  let allWrites := T.allWrites.eraseIdx index
  let (removedWriteWasVisible, overlapsWithOtherWrites) :=
    overlap writeToRemove index allWrites.zipIdx.reverse (writeToRemove.visible, false)
  if !removedWriteWasVisible then
    some (false, { T with allWrites })
  else if overlapsWithOtherWrites then
    some (true, resetTree { T with allWrites })
  else
    some (true, { T with
      allWrites
      visibleWrites := T.visibleWrites.removeWriteAtPath writeToRemove.path })

def removeAllWrites (T : FWriteTree κ σ) : List (FWriteRecord κ σ) × FWriteTree κ σ :=
  (T.allWrites, { T with visibleWrites := .emptyWrite, allWrites := [] })

def calculateCompleteEventCacheAtPath (T : FWriteTree κ σ) (treePath : List κ)
    (completeServerCache : Option (Node κ σ)) (writeIdsToExclude : Option (List Int))
    (includeHiddenWrites : Bool) : Option (Node κ σ) :=
  if writeIdsToExclude.isNone && !includeHiddenWrites then
    match T.visibleWrites.completeNodeAtPath treePath with
    | some shadowingNode => some shadowingNode
    | none =>
        let subMerge := T.visibleWrites.childCompoundWriteAtPath treePath
        if subMerge.isEmpty then completeServerCache
        else if completeServerCache.isNone && !subMerge.hasCompleteWriteAtPath [] then none
        else some (subMerge.applyToNode (completeServerCache.getD .emptyNode))
  else
    let merge := T.visibleWrites.childCompoundWriteAtPath treePath
    if !includeHiddenWrites && merge.isEmpty then completeServerCache
    else if !includeHiddenWrites && completeServerCache.isNone
        && !merge.hasCompleteWriteAtPath [] then none
    else
      let filter := fun record : FWriteRecord κ σ =>
        (record.visible || includeHiddenWrites)
          && (writeIdsToExclude.isNone
            || !(writeIdsToExclude.getD []).contains record.writeId)
          && (containsPath record treePath || decide (treePath <+: record.path))
      let mergeAtPath := layerTreeFromWrites T.allWrites filter treePath
      some (mergeAtPath.applyToNode (completeServerCache.getD .emptyNode))

/-- None when a pending write shadows the path. -/
def calculateEventCacheAfterServerOverwriteAtPath (T : FWriteTree κ σ)
    (treePath childPath : List κ) (existingServerSnap : Node κ σ) : Option (Node κ σ) :=
  let path := treePath ++ childPath
  if T.visibleWrites.hasCompleteWriteAtPath path then none
  else
    let childMerge := T.visibleWrites.childCompoundWriteAtPath path
    if childMerge.isEmpty then some (existingServerSnap.getChild childPath)
    else some (childMerge.applyToNode (existingServerSnap.getChild childPath))

/-- None when the child is not complete. -/
def calculateCompleteChildAtPath (T : FWriteTree κ σ) (treePath : List κ) (childKey : κ)
    (existingServerCache : FCacheNode κ σ) : Option (Node κ σ) :=
  let path := treePath ++ [childKey]
  match T.visibleWrites.completeNodeAtPath path with
  | some shadowingNode => some shadowingNode
  | none =>
      if existingServerCache.isCompleteForChild childKey then
        some ((T.visibleWrites.childCompoundWriteAtPath path).applyToNode
          (existingServerCache.node.getImmediateChild childKey))
      else none

/-- The children that are complete: those of the node and those that are written. -/
def calculateCompleteEventChildrenAtPath (T : FWriteTree κ σ) (treePath : List κ)
    (completeServerChildren : Node κ σ) : Node κ σ :=
  match T.visibleWrites.completeNodeAtPath treePath with
  | some topLevelSet =>
      topLevelSet.entries.foldl (fun n e => n.updateImmediateChild e.1 e.2) .emptyNode
  | none =>
      let merge := T.visibleWrites.childCompoundWriteAtPath treePath
      let completeChildren := completeServerChildren.entries.foldl (fun n e =>
        n.updateImmediateChild e.1 ((merge.childCompoundWriteAtPath [e.1]).applyToNode e.2))
          .emptyNode
      merge.completeChildren.foldl (fun n e => n.updateImmediateChild e.1 e.2) completeChildren

/-! ### The cases of a removal -/

omit [Comparators κ] in
theorem overlap_false (w : FWriteRecord κ σ) (index : Nat) (ws : List (FWriteRecord κ σ × Nat))
    (o : Bool) : overlap w index ws (false, o) = (false, o) := by
  cases ws <;> rfl

omit [Comparators κ] in
theorem overlap_of_visible {w : FWriteRecord κ σ} {index : Nat}
    {ws : List (FWriteRecord κ σ × Nat)} {o : Bool}
    (h : (overlap w index ws (true, o)).1 = true) :
    (∀ e ∈ ws, e.1.visible = true → index ≤ e.2 → ¬ e.1.path <+: w.path) ∧
      ((overlap w index ws (true, o)).2 = true ↔
        o = true ∨ ∃ e ∈ ws, e.1.visible = true ∧ w.path <+: e.1.path) := by
  induction ws generalizing o with
  | nil => simp [overlap]
  | cons e ws ih =>
      obtain ⟨u, i⟩ := e
      simp only [overlap, if_true] at h ⊢
      split_ifs at h ⊢ with hvisible hshadow hcover
      · rw [overlap_false] at h
        cases h
      all_goals
        obtain ⟨hnot, hiff⟩ := ih h
        refine ⟨List.forall_mem_cons.mpr ⟨fun hu hi hup => ?_, hnot⟩, by simp [*]⟩
      · exact hshadow ⟨hi, decide_eq_true hup⟩
      · exact hshadow ⟨hi, decide_eq_true hup⟩
      · exact hvisible hu

omit [Comparators κ] in
theorem overlap_of_shadowed {w : FWriteRecord κ σ} {index : Nat}
    {ws : List (FWriteRecord κ σ × Nat)} {o : Bool}
    (h : (overlap w index ws (true, o)).1 = false) :
    ∃ e ∈ ws, e.1.visible = true ∧ index ≤ e.2 ∧ e.1.path <+: w.path := by
  induction ws generalizing o with
  | nil => cases h
  | cons e ws ih =>
      obtain ⟨u, i⟩ := e
      simp only [overlap, if_true] at h
      split_ifs at h with hvisible hshadow hcover
      · refine ⟨(u, i), List.mem_cons_self, hvisible, hshadow.1, ?_⟩
        simpa [containsPath] using hshadow.2
      all_goals
        obtain ⟨e, he, hrest⟩ := ih h
        exact ⟨e, List.mem_cons_of_mem _ he, hrest⟩

/-- What a removal does with the other writes and the merged tree. -/
inductive Removed (T : FWriteTree κ σ) (pre : List (FWriteRecord κ σ)) (w : FWriteRecord κ σ)
    (post : List (FWriteRecord κ σ)) : Bool × FWriteTree κ σ → Prop
  | hidden (h : w.visible = false) : Removed T pre w post (false, { T with allWrites := pre ++ post })
  | shadowed (h : w.visible = true) (u : FWriteRecord κ σ) (hu : u ∈ post)
      (hvisible : u.visible = true) (hup : u.path <+: w.path) :
      Removed T pre w post (false, { T with allWrites := pre ++ post })
  | rebuilt (h : w.visible = true)
      (hpost : ∀ u ∈ post, u.visible = true → ¬ u.path <+: w.path) :
      Removed T pre w post (true, resetTree { T with allWrites := pre ++ post })
  | cut (h : w.visible = true) (hpost : ∀ u ∈ post, u.visible = true → ¬ u.path <+: w.path)
      (hothers : ∀ u ∈ pre ++ post, u.visible = true → ¬ w.path <+: u.path) :
      Removed T pre w post (true, { T with
        allWrites := pre ++ post
        visibleWrites := T.visibleWrites.removeWriteAtPath w.path })

omit [DecidableEq κ] [Comparators κ] in
/-- The later of the other writes are those at or after the position of the removed one. -/
theorem mem_later_iff {pre post : List (FWriteRecord κ σ)} {u : FWriteRecord κ σ} :
    (∃ i, (u, i) ∈ (pre ++ post).zipIdx ∧ pre.length ≤ i) ↔ u ∈ post := by
  simp only [List.mem_zipIdx_iff_getElem?]
  constructor
  · rintro ⟨i, hi, hle⟩
    rw [List.getElem?_append_right hle] at hi
    exact List.mem_of_getElem? hi
  · intro hu
    obtain ⟨i, hi⟩ := List.getElem?_of_mem hu
    refine ⟨pre.length + i, ?_, Nat.le_add_right _ _⟩
    rw [List.getElem?_append_right (Nat.le_add_right _ _), Nat.add_sub_cancel_left]
    exact hi

theorem findIdx?_split {α : Type} {p : α → Bool} {xs : List α} {i : Nat}
    (h : xs.findIdx? p = some i) : ∃ pre w post, xs = pre ++ w :: post ∧ pre.length = i ∧
      p w = true ∧ ∀ u ∈ pre, p u = false := by
  induction xs generalizing i with
  | nil => cases h
  | cons x xs ih =>
      rw [List.findIdx?_cons] at h
      split_ifs at h with hx
      · exact ⟨[], x, xs, rfl, Option.some.inj h, hx, nofun⟩
      · obtain ⟨j, hj, rfl⟩ := Option.map_eq_some_iff.mp h
        obtain ⟨pre, w, post, rfl, rfl, hw, hpre⟩ := ih hj
        exact ⟨x :: pre, w, post, rfl, rfl, hw, List.forall_mem_cons.mpr ⟨by simpa using hx, hpre⟩⟩

/-- **The cases of a removal.** -/
theorem removeWriteId_cases {T : FWriteTree κ σ} {writeId : Int} {r : Bool × FWriteTree κ σ}
    (h : T.removeWriteId writeId = some r) :
    ∃ pre w post, T.allWrites = pre ++ w :: post ∧ w.writeId = writeId ∧
      (∀ u ∈ pre, u.writeId ≠ writeId) ∧ Removed T pre w post r := by
  obtain ⟨index, hindex, h⟩ := Option.bind_eq_some_iff.mp h
  obtain ⟨pre, w, post, hall, rfl, hw, hpre⟩ := findIdx?_split hindex
  have hget : T.allWrites[pre.length]? = some w := by simp [hall]
  have herase : T.allWrites.eraseIdx pre.length = pre ++ post := by
    rw [hall, List.eraseIdx_append_of_length_le le_rfl, Nat.sub_self]
    rfl
  simp only [hget, herase, Option.bind_eq_bind, Option.bind_some] at h
  refine ⟨pre, w, post, hall, by simpa using hw, fun u hu => by simpa using hpre u hu, ?_⟩
  have hmem : ∀ {u i}, (u, i) ∈ (pre ++ post).zipIdx.reverse ↔ (u, i) ∈ (pre ++ post).zipIdx :=
    List.mem_reverse
  cases hvisible : w.visible with
  | false =>
      rw [hvisible, overlap_false] at h
      obtain rfl := Option.some.inj h
      exact .hidden hvisible
  | true =>
      rw [hvisible] at h
      cases hflag : (overlap w pre.length (pre ++ post).zipIdx.reverse (true, false)).1 with
      | false =>
          obtain ⟨⟨u, i⟩, hu, huv, hle, hup⟩ := overlap_of_shadowed hflag
          simp only [hflag, Bool.not_false, if_true] at h
          obtain rfl := Option.some.inj h
          exact .shadowed hvisible u (mem_later_iff.mp ⟨i, hmem.mp hu, hle⟩) huv hup
      | true =>
          obtain ⟨hnot, hiff⟩ := overlap_of_visible hflag
          have hpost : ∀ u ∈ post, u.visible = true → ¬ u.path <+: w.path := by
            intro u hu huv
            obtain ⟨i, hi, hle⟩ : ∃ i, (u, i) ∈ (pre ++ post).zipIdx ∧ pre.length ≤ i :=
              mem_later_iff.mpr hu
            exact hnot (u, i) (hmem.mpr hi) huv hle
          simp only [hflag, Bool.not_true, Bool.false_eq_true, if_false] at h
          split_ifs at h with hover
          · obtain rfl := Option.some.inj h
            exact .rebuilt hvisible hpost
          · obtain rfl := Option.some.inj h
            refine .cut hvisible hpost fun u hu huv hwu => hover (hiff.mpr (.inr ?_))
            obtain ⟨i, hi⟩ := List.getElem?_of_mem hu
            exact ⟨(u, i), hmem.mpr (List.mem_zipIdx_iff_getElem?.mpr hi), huv, hwu⟩

omit [DecidableEq κ] in
theorem addOverwriteAtPath_eq_some {T T' : FWriteTree κ σ} {path : List κ} {newData : Node κ σ}
    {writeId : Int} {visible : Bool} :
    T.addOverwriteAtPath path newData writeId visible = some T' ↔ T.lastWriteId < writeId ∧ {
      visibleWrites :=
        if visible then T.visibleWrites.addWrite newData path else T.visibleWrites
      allWrites := T.allWrites ++ [⟨path, newData, writeId, visible⟩]
      lastWriteId := writeId } = T' := by
  rw [addOverwriteAtPath, ite_eq_iff]
  simp

/-! ### The merged tree and the writes -/

/-- A write as an overwrite of what a node shows. -/
def shown (r : FWriteRecord κ σ) : List κ × View κ σ := (r.path, r.overwrite.view)

theorem layerTreeFromWrites_snoc (ws : List (FWriteRecord κ σ)) (r : FWriteRecord κ σ)
    (filter : FWriteRecord κ σ → Bool) (root : List κ) :
    layerTreeFromWrites (ws ++ [r]) filter root =
      if filter r then
        if root <+: r.path then
          (layerTreeFromWrites ws filter root).addWrite r.overwrite (relativePath root r.path)
        else if r.path <+: root then
          (layerTreeFromWrites ws filter root).addWrite
            (r.overwrite.getChild (relativePath r.path root)) []
        else layerTreeFromWrites ws filter root
      else layerTreeFromWrites ws filter root := by
  simp [layerTreeFromWrites]

variable [LawfulComparators κ]

/-- Layering writes anew gives the patch of these writes, seen from the root of the layers. -/
theorem layerTreeFromWrites_spec {ws : List (FWriteRecord κ σ)}
    (h : ∀ r ∈ ws, r.overwrite.WellFormed) (filter : FWriteRecord κ σ → Bool) (root : List κ) :
    (layerTreeFromWrites ws filter root).WellFormed ∧
      (layerTreeFromWrites ws filter root).patch =
        (Patch.ofWrites ((ws.filter filter).map shown)).below root := by
  induction ws using List.reverseRecOn with
  | nil => exact ⟨CompoundWrite.wellFormed_emptyWrite, CompoundWrite.patch_emptyWrite⟩
  | append_singleton ws r ih =>
      obtain ⟨hwf, hpatch⟩ := ih fun u hu => h u (List.mem_append_left _ hu)
      have hr : r.overwrite.WellFormed := h r (by simp)
      rw [layerTreeFromWrites_snoc, List.filter_append]
      cases hf : filter r with
      | false => simpa [hf] using And.intro hwf hpatch
      | true =>
          simp only [hf, if_true, List.filter_cons_of_pos, List.filter_nil, List.map_append,
            List.map_singleton, Patch.ofWrites_snoc]
          split_ifs with hbelow habove
          · obtain ⟨q, hq⟩ := hbelow
            refine ⟨hwf.addWrite hr _, ?_⟩
            rw [CompoundWrite.patch_addWrite hwf hr, hpatch, shown, ← hq, Patch.below_write]
            simp [relativePath]
          · obtain ⟨q, rfl⟩ := habove
            refine ⟨hwf.addWrite (hr.getChild _) _, ?_⟩
            rw [CompoundWrite.patch_addWrite hwf (hr.getChild _)]
            funext x
            rw [Patch.below, List.append_assoc, shown, Patch.write_append]
            have hx := Patch.write_append [] x
              (r.overwrite.getChild (relativePath r.path (r.path ++ q))).view
              (layerTreeFromWrites ws filter (r.path ++ q)).patch
            rw [List.nil_append] at hx
            rw [hx, Node.view_getChild]
            simp [relativePath, View.below]
          · refine ⟨hwf, ?_⟩
            rw [hpatch]
            funext x
            have hle : root <+: root ++ x := List.prefix_append _ _
            have hnot : ¬ r.path <+: root ++ x := fun hp =>
              (List.prefix_or_prefix_of_prefix hp hle).elim habove hbelow
            rw [Patch.below, Patch.below, shown,
              Patch.write_of_diverge _ _ hnot fun hp => hbelow (hle.trans hp)]

/-- The pending writes that are visible, as overwrites. -/
def pending (T : FWriteTree κ σ) : List (List κ × View κ σ) :=
  (T.allWrites.filter (·.visible)).map shown

/-- The merged tree is what the visible writes say in their order, and the ids ascend. -/
structure Layered (T : FWriteTree κ σ) : Prop where
  wellFormed : T.visibleWrites.WellFormed
  nodes : ∀ r ∈ T.allWrites, r.overwrite.WellFormed
  patch : T.visibleWrites.patch = Patch.ofWrites T.pending
  ids : T.allWrites.Pairwise (·.writeId < ·.writeId)
  last : ∀ r ∈ T.allWrites, r.writeId ≤ T.lastWriteId

namespace Layered

variable {T : FWriteTree κ σ}

omit [DecidableEq κ] [LawfulComparators κ] in
theorem init : (init : FWriteTree κ σ).Layered where
  wellFormed := CompoundWrite.wellFormed_emptyWrite
  nodes := nofun
  patch := CompoundWrite.patch_emptyWrite
  ids := .nil
  last := nofun

omit [DecidableEq κ] in
theorem addOverwriteAtPath (h : T.Layered) {path : List κ} {newData : Node κ σ} {writeId : Int}
    {visible : Bool} (hnew : newData.WellFormed) {T' : FWriteTree κ σ}
    (hT : T.addOverwriteAtPath path newData writeId visible = some T') : T'.Layered := by
  obtain ⟨hlast, rfl⟩ := addOverwriteAtPath_eq_some.mp hT
  refine ⟨?_, ?_, ?_, ?_, ?_⟩
  · cases visible with
    | false => exact h.wellFormed
    | true => exact h.wellFormed.addWrite hnew path
  · exact List.forall_mem_append.mpr ⟨h.nodes, by simpa using hnew⟩
  · cases visible with
    | false => simpa [pending] using h.patch
    | true =>
        simp [pending, shown, CompoundWrite.patch_addWrite h.wellFormed hnew, h.patch]
  · refine List.pairwise_append.mpr ⟨h.ids, List.pairwise_singleton _ _, fun r hr u hu => ?_⟩
    obtain rfl := List.mem_singleton.mp hu
    exact Int.lt_of_le_of_lt (h.last r hr) hlast
  · refine List.forall_mem_append.mpr ⟨fun r hr => ?_, by simp⟩
    exact Int.le_trans (h.last r hr) (Int.le_of_lt hlast)

omit [DecidableEq κ] [LawfulComparators κ] in
theorem removeAllWrites (T : FWriteTree κ σ) : T.removeAllWrites.2.Layered :=
  ⟨CompoundWrite.wellFormed_emptyWrite, nofun, CompoundWrite.patch_emptyWrite, .nil, nofun⟩

omit [DecidableEq κ] [LawfulComparators κ] in
/-- The writes that are left ascend. -/
theorem rest (h : T.Layered) {pre post : List (FWriteRecord κ σ)} {w : FWriteRecord κ σ}
    (hall : T.allWrites = pre ++ w :: post) :
    (∀ r ∈ pre ++ post, r.overwrite.WellFormed) ∧
      (pre ++ post).Pairwise (·.writeId < ·.writeId) ∧
      ∀ r ∈ pre ++ post, r.writeId ≤ T.lastWriteId := by
  have hsub : (pre ++ post).Sublist T.allWrites :=
    hall ▸ (List.Sublist.refl pre).append (List.sublist_cons_self w post)
  exact ⟨fun r hr => h.nodes r (hsub.subset hr), h.ids.sublist hsub,
    fun r hr => h.last r (hsub.subset hr)⟩

/-- What a rebuild shows: every write that is left, the hidden ones too. -/
theorem patch_resetTree (h : T.Layered) {pre post : List (FWriteRecord κ σ)} {w : FWriteRecord κ σ}
    (hall : T.allWrites = pre ++ w :: post) :
    (resetTree { T with allWrites := pre ++ post }).visibleWrites.WellFormed ∧
      (resetTree { T with allWrites := pre ++ post }).visibleWrites.patch =
        Patch.ofWrites ((pre ++ post).map shown) := by
  obtain ⟨hwf, hpatch⟩ := layerTreeFromWrites_spec (h.rest hall).1 defaultFilter []
  refine ⟨hwf, hpatch.trans ?_⟩
  have hfilter : (pre ++ post).filter defaultFilter = pre ++ post := List.filter_true _
  rw [hfilter]
  rfl

omit [DecidableEq κ] [Comparators κ] [LawfulComparators κ] in
theorem last_of_ascending {ws : List (FWriteRecord κ σ)}
    (h : ws.Pairwise (·.writeId < ·.writeId)) : ∀ r ∈ ws, r.writeId ≤
      match ws.getLast? with
      | some lastRecord => lastRecord.writeId
      | none => -1 := by
  cases ws using List.reverseRecOn with
  | nil => nofun
  | append_singleton ws u =>
      obtain ⟨-, -, hlt⟩ := List.pairwise_append.mp h
      simp only [List.getLast?_append, List.getLast?_singleton, Option.some_or]
      refine List.forall_mem_append.mpr ⟨fun r hr => ?_, by simp⟩
      exact Int.le_of_lt (hlt r hr u (List.mem_singleton_self u))

omit [DecidableEq κ] [LawfulComparators κ] in
theorem pending_eq {pre post : List (FWriteRecord κ σ)} {w : FWriteRecord κ σ}
    (hall : T.allWrites = pre ++ w :: post) (hw : w.visible = true) :
    T.pending = (pre.filter (·.visible)).map shown ++
      shown w :: (post.filter (·.visible)).map shown := by
  simp [pending, hall, hw]

/-- **A removal keeps the tree layered** when no earlier visible write is strictly above the removed
one and no hidden write is pending. -/
theorem removeWriteId (h : T.Layered) {writeId : Int} {r : Bool × FWriteTree κ σ}
    (hr : T.removeWriteId writeId = some r) (hvisible : ∀ u ∈ T.allWrites, u.visible = true)
    (habove : ∀ pre w post, T.allWrites = pre ++ w :: post → w.writeId = writeId →
      ∀ u ∈ pre, ¬ (u.path <+: w.path ∧ u.path ≠ w.path)) : r.2.Layered := by
  obtain ⟨pre, w, post, hall, hw, -, hremoved⟩ := removeWriteId_cases hr
  obtain ⟨hnodes, hids, hlast⟩ := h.rest hall
  have hpre : ∀ u ∈ (pre.filter (·.visible)).map shown,
      ¬ (u.1 <+: (shown w).1 ∧ u.1 ≠ (shown w).1) := by
    intro u hu
    obtain ⟨u', hu', rfl⟩ := List.mem_map.mp hu
    exact habove pre w post hall hw u' (List.mem_of_mem_filter hu')
  cases hremoved with
  | hidden hhidden =>
      have hw' := hvisible w (hall ▸ by simp)
      simp [hhidden] at hw'
  | shadowed hvis u hu huv hup =>
      refine ⟨h.wellFormed, hnodes, ?_, hids, hlast⟩
      have hshadow : ∃ v ∈ (post.filter (·.visible)).map shown, v.1 <+: (shown w).1 :=
        ⟨shown u, List.mem_map_of_mem (List.mem_filter.mpr ⟨hu, huv⟩), hup⟩
      rw [h.patch, pending_eq hall hvis, Patch.ofWrites_shadowed hpre hshadow]
      simp [pending]
  | rebuilt hvis hpost =>
      obtain ⟨hwf, hpatch⟩ := h.patch_resetTree hall
      refine ⟨hwf, hnodes, hpatch.trans ?_, hids, last_of_ascending hids⟩
      have hfilter : (pre ++ post).filter (·.visible) = pre ++ post := by
        refine List.filter_eq_self.mpr fun u hu => hvisible u ?_
        rw [hall]
        exact ((List.Sublist.refl pre).append (List.sublist_cons_self w post)).subset hu
      rw [pending]
      simp only [resetTree, hfilter]
  | cut hvis hpost hothers =>
      have hdiverge : ∀ u ∈ (pre.filter (·.visible)).map shown ++
          (post.filter (·.visible)).map shown,
          ¬ u.1 <+: (shown w).1 ∧ ¬ (shown w).1 <+: u.1 := by
        intro u hu
        rw [← List.map_append, ← List.filter_append] at hu
        obtain ⟨v, hv, rfl⟩ := List.mem_map.mp hu
        obtain ⟨hv, hvv⟩ := List.mem_filter.mp hv
        have hnot := hothers v hv hvv
        refine ⟨fun hup => ?_, hnot⟩
        rcases List.mem_append.mp hv with hv | hv
        · exact habove pre w post hall hw v hv ⟨hup, fun he => hnot (he ▸ List.prefix_refl _)⟩
        · exact hpost v hv hvv hup
      have halone := Patch.ofWrites_alone hdiverge
      have hnone : ∀ q, q <+: w.path → q ≠ w.path → T.visibleWrites.patch q = none := by
        intro q hq hne
        rw [h.patch, pending_eq hall hvis, Patch.ofWrites_eq_none_iff]
        intro u hu huq
        rcases List.mem_append.mp hu with hu | hu
        · exact (hdiverge u (List.mem_append_left _ hu)).1 (huq.trans hq)
        · rcases List.mem_cons.mp hu with rfl | hu
          · exact hne (hq.eq_of_length_le huq.length_le)
          · exact (hdiverge u (List.mem_append_right _ hu)).1 (huq.trans hq)
      refine ⟨h.wellFormed.removeWriteAtPath _, hnodes, ?_, hids, hlast⟩
      rw [CompoundWrite.patch_removeWriteAtPath h.wellFormed hnone, h.patch, pending_eq hall hvis]
      refine halone.trans ?_
      simp [pending]

end Layered

omit [LawfulComparators κ] in
/-- A pending write can be removed. -/
theorem exists_removeWriteId {T : FWriteTree κ σ} {w : FWriteRecord κ σ} (h : w ∈ T.allWrites) :
    ∃ r, T.removeWriteId w.writeId = some r := by
  have hindex : (T.allWrites.findIdx? fun r => r.writeId == w.writeId).isSome = true := by
    rw [List.findIdx?_isSome, List.any_eq_true]
    exact ⟨w, h, by simp⟩
  obtain ⟨index, hindex⟩ := Option.isSome_iff_exists.mp hindex
  obtain ⟨pre, u, post, hall, rfl, -, -⟩ := findIdx?_split hindex
  have hget : T.allWrites[pre.length]? = some u := by simp [hall]
  simp only [removeWriteId, hindex, hget, Option.bind_eq_bind, Option.bind_some]
  split_ifs <;> exact ⟨_, rfl⟩

omit [LawfulComparators κ] in
theorem removed_allWrites {T : FWriteTree κ σ} {pre post : List (FWriteRecord κ σ)}
    {w : FWriteRecord κ σ} {r : Bool × FWriteTree κ σ} (h : Removed T pre w post r) :
    r.2.allWrites = pre ++ post := by
  cases h <;> rfl

omit [LawfulComparators κ] in
/-- The last id stays below a bound of all ids. -/
theorem removed_lastWriteId {T : FWriteTree κ σ} {pre post : List (FWriteRecord κ σ)}
    {w : FWriteRecord κ σ} {r : Bool × FWriteTree κ σ} (h : Removed T pre w post r) {n : Int}
    (hn : -1 < n) (hlast : T.lastWriteId < n) (hids : ∀ u ∈ pre ++ post, u.writeId < n) :
    r.2.lastWriteId < n := by
  cases h with
  | hidden => exact hlast
  | shadowed => exact hlast
  | cut => exact hlast
  | rebuilt =>
      simp only [resetTree]
      split
      · next u hu => exact hids u (List.mem_of_getLast? hu)
      · exact hn

omit [DecidableEq κ] [Comparators κ] [LawfulComparators κ] in
/-- With ascending ids only the first write has its id. -/
theorem eq_first {ws pre post : List (FWriteRecord κ σ)} {w u : FWriteRecord κ σ}
    (hids : (w :: ws).Pairwise (·.writeId < ·.writeId)) (hsplit : w :: ws = pre ++ u :: post)
    (hu : u.writeId = w.writeId) : pre = [] ∧ post = ws := by
  cases pre with
  | nil => exact ⟨rfl, (List.cons.inj hsplit).2.symm⟩
  | cons v pre =>
      obtain ⟨rfl, rfl⟩ := List.cons.inj hsplit
      have hlt := (List.pairwise_cons.mp hids).1 u (by simp)
      omega

omit [LawfulComparators κ] in
/-- The first write can be removed. -/
theorem exists_removeFirst {T : FWriteTree κ σ} {w : FWriteRecord κ σ}
    {ws : List (FWriteRecord κ σ)} (hall : T.allWrites = w :: ws)
    (hids : T.allWrites.Pairwise (·.writeId < ·.writeId)) :
    ∃ r, T.removeWriteId w.writeId = some r ∧ Removed T [] w ws r := by
  obtain ⟨r, hr⟩ := exists_removeWriteId (T := T) (w := w) (by simp [hall])
  obtain ⟨pre, u, post, hsplit, hu, -, hremoved⟩ := removeWriteId_cases hr
  rw [hall] at hids hsplit
  obtain ⟨rfl, rfl⟩ := eq_first hids hsplit hu
  obtain rfl := (List.cons.inj hsplit).1
  exact ⟨r, hr, hremoved⟩

/-! ### What a removal changes -/

omit [DecidableEq κ] [LawfulComparators κ] in
theorem Layered.patch_eq {T : FWriteTree κ σ} (h : T.Layered)
    (hvisible : ∀ r ∈ T.allWrites, r.visible = true) :
    T.visibleWrites.patch = Patch.ofWrites (T.allWrites.map shown) := by
  rw [h.patch, pending, List.filter_eq_self.mpr hvisible]

/-- A write is removed and every earlier one is apart from it. -/
structure RemovesApart (T : FWriteTree κ σ) (pre : List (FWriteRecord κ σ)) (w : FWriteRecord κ σ)
    (post : List (FWriteRecord κ σ)) (T' : FWriteTree κ σ) : Prop where
  all : T.allWrites = pre ++ w :: post
  rest : T'.allWrites = pre ++ post
  patch : T.visibleWrites.patch = Patch.ofWrites (pre.map shown ++ shown w :: post.map shown)
  patch' : T'.visibleWrites.patch = Patch.ofWrites (pre.map shown ++ post.map shown)
  apart : ∀ u ∈ pre.map shown, ¬ u.1 <+: w.path ∧ ¬ w.path <+: u.1

namespace RemovesApart

variable {T T' : FWriteTree κ σ} {pre post : List (FWriteRecord κ σ)} {w : FWriteRecord κ σ}

omit [DecidableEq κ] [LawfulComparators κ] in
theorem not_above (h : RemovesApart T pre w post T') :
    ∀ u ∈ pre.map shown, ¬ (u.1 <+: (shown w).1 ∧ u.1 ≠ (shown w).1) :=
  fun u hu hup => (h.apart u hu).1 hup.1

omit [DecidableEq κ] [LawfulComparators κ] in
/-- Nothing changes below a later write. -/
theorem patch_of_shadowed (h : RemovesApart T pre w post T') {u : FWriteRecord κ σ} (hu : u ∈ post)
    (hup : u.path <+: w.path) : T.visibleWrites.patch = T'.visibleWrites.patch := by
  rw [h.patch, h.patch']
  exact Patch.ofWrites_shadowed h.not_above ⟨_, List.mem_map_of_mem hu, hup⟩

omit [DecidableEq κ] [LawfulComparators κ] in
theorem agreeOff (h : RemovesApart T pre w post T') :
    Patch.AgreeOff w.path T.visibleWrites.patch T'.visibleWrites.patch := by
  rw [h.patch, h.patch']
  exact Patch.agreeOff_ofWrites h.not_above (post.map shown)

omit [DecidableEq κ] [LawfulComparators κ] in
theorem completeNode_eq_none (h : RemovesApart T pre w post T')
    (hpost : ∀ u ∈ post, ¬ u.path <+: w.path) :
    T'.visibleWrites.completeNodeAtPath w.path = none := by
  rw [← CompoundWrite.patch_eq_none_iff, h.patch', Patch.ofWrites_eq_none_iff]
  exact List.forall_mem_append.mpr ⟨fun u hu => (h.apart u hu).1, List.forall_mem_map.mpr hpost⟩

omit [DecidableEq κ] [LawfulComparators κ] in
/-- What another write says was said before. -/
theorem covered (h : RemovesApart T pre w post T') {p : List κ}
    (hp : T'.visibleWrites.patch p ≠ none) :
    T.visibleWrites.patch p = T'.visibleWrites.patch p := by
  by_cases hle : w.path <+: p
  · rw [h.patch', Ne, Patch.ofWrites_eq_none_iff] at hp
    push Not at hp
    obtain ⟨u, hu, hup⟩ := hp
    rw [h.patch, h.patch']
    rcases List.mem_append.mp hu with hu | hu
    · exact ((List.prefix_or_prefix_of_prefix hup hle).elim (h.apart u hu).1
        (h.apart u hu).2).elim
    · exact Patch.ofWrites_covered ⟨u, hu, hup⟩
  · exact h.agreeOff p hle

end RemovesApart

/-- A removal keeps the tree layered when every earlier write is apart from the removed one. -/
theorem Layered.removesApart {T : FWriteTree κ σ} (h : T.Layered)
    (hvisible : ∀ r ∈ T.allWrites, r.visible = true) {writeId : Int} {r : Bool × FWriteTree κ σ}
    (hr : T.removeWriteId writeId = some r)
    (hapart : ∀ pre w post, T.allWrites = pre ++ w :: post → w.writeId = writeId →
      ∀ u ∈ pre, ¬ u.path <+: w.path ∧ ¬ w.path <+: u.path) :
    ∃ pre w post, r.2.Layered ∧ RemovesApart T pre w post r.2 ∧ Removed T pre w post r ∧
      w.writeId = writeId ∧ ∀ u ∈ pre, u.writeId ≠ writeId := by
  obtain ⟨pre, w, post, hall, hw, hpre, hremoved⟩ := removeWriteId_cases hr
  have hlayered : r.2.Layered := h.removeWriteId hr hvisible fun pre w post hsplit hid u hu hup =>
    (hapart pre w post hsplit hid u hu).1 hup.1
  have hrest := removed_allWrites hremoved
  have hvisible' : ∀ u ∈ r.2.allWrites, u.visible = true := fun u hu => hvisible u <| by
    rw [hrest] at hu
    rw [hall]
    exact ((List.Sublist.refl pre).append (List.sublist_cons_self w post)).subset hu
  refine ⟨pre, w, post, hlayered, ⟨hall, hrest, ?_, ?_, ?_⟩, hremoved, hw, hpre⟩
  · rw [h.patch_eq hvisible, hall, List.map_append, List.map_cons]
  · rw [hlayered.patch_eq hvisible', hrest, List.map_append]
  · exact List.forall_mem_map.mpr (hapart pre w post hall hw)

/-! ### Event caches -/

/-- The server's data after writes, one after the other. -/
def after (ws : List (FWriteRecord κ σ)) (server : Node κ σ) : Node κ σ :=
  CompoundWrite.updates server (ws.map fun r => (r.path, r.overwrite))

omit [DecidableEq κ] in
theorem after_spec {ws : List (FWriteRecord κ σ)} (hws : ∀ r ∈ ws, r.overwrite.WellFormed)
    {server : Node κ σ} (hs : server.WellFormed)
    (hclear : ∀ r ∈ ws, server.view.ClearAbove r.path) :
    (after ws server).WellFormed ∧
      (after ws server).view = (Patch.ofWrites (ws.map shown)).overlay server.view ∧
      Patch.Clear (Patch.ofWrites (ws.map shown)) server.view := by
  have hnodes : ∀ w ∈ ws.map fun r => (r.path, r.overwrite), w.2.WellFormed := by
    intro w hw
    obtain ⟨r, hr, rfl⟩ := List.mem_map.mp hw
    exact hws r hr
  have hclear' : ∀ w ∈ ws.map shown, server.view.ClearAbove w.1 := by
    intro w hw
    obtain ⟨r, hr, rfl⟩ := List.mem_map.mp hw
    exact hclear r hr
  obtain ⟨hwf, hview⟩ := CompoundWrite.updates_replay hs hnodes
  refine ⟨hwf, ?_, Patch.clear_ofWrites hclear'⟩
  rw [Patch.overlay_ofWrites hclear', after, hview, List.map_map]
  rfl

omit [DecidableEq κ] in
/-- A compound write that says at a path what writes say puts them over the node there. -/
theorem applyToNode_eq {ws : List (FWriteRecord κ σ)} (hws : ∀ r ∈ ws, r.overwrite.WellFormed)
    {server : Node κ σ} (hs : server.WellFormed)
    (hclear : ∀ r ∈ ws, server.view.ClearAbove r.path) {merge : CompoundWrite κ σ}
    (hm : merge.WellFormed) {path : List κ}
    (hpatch : merge.patch = (Patch.ofWrites (ws.map shown)).below path) :
    merge.applyToNode (server.getChild path) = (after ws server).getChild path := by
  obtain ⟨hwf, hview, hover⟩ := after_spec hws hs hclear
  have hclear' : Patch.Clear merge.patch (server.getChild path).view := by
    intro p q hpq hp hq
    rw [hpatch] at hp hq
    rw [Node.view_getChild]
    exact hover _ _ ((List.prefix_append_right_inj path).mpr hpq) hp hq
  obtain ⟨happly, hview'⟩ := CompoundWrite.view_applyToNode hm (hs.getChild path) hclear'
  refine happly.ext (hwf.getChild path) ?_
  rw [hview', hpatch, Node.view_getChild, Node.view_getChild, hview, Patch.overlay_below]

section caches
variable {T : FWriteTree κ σ} {server : Node κ σ}

/-- The server's data after the visible pending writes. -/
def eventData (T : FWriteTree κ σ) (server : Node κ σ) : Node κ σ :=
  after (T.allWrites.filter (·.visible)) server

/-- The server's data is well-formed and has no leaf strictly above a pending write. -/
structure Serves (T : FWriteTree κ σ) (server : Node κ σ) : Prop where
  wellFormed : server.WellFormed
  clear : ∀ r ∈ T.allWrites, server.view.ClearAbove r.path

omit [DecidableEq κ] in
theorem Layered.eventData_spec (h : T.Layered) (hs : T.Serves server) :
    (T.eventData server).WellFormed ∧
      (T.eventData server).view = T.visibleWrites.patch.overlay server.view := by
  obtain ⟨hwf, hview, -⟩ := after_spec (fun r hr => h.nodes r (List.mem_of_mem_filter hr))
    hs.wellFormed fun r hr => hs.clear r (List.mem_of_mem_filter hr)
  exact ⟨hwf, h.patch ▸ hview⟩

omit [DecidableEq κ] in
theorem Layered.clear (h : T.Layered) (hs : T.Serves server) :
    Patch.Clear T.visibleWrites.patch server.view := by
  obtain ⟨-, -, hclear⟩ := after_spec (fun r hr => h.nodes r (List.mem_of_mem_filter hr))
    hs.wellFormed fun r hr => hs.clear r (List.mem_of_mem_filter hr)
  exact h.patch ▸ hclear

omit [DecidableEq κ] in
/-- Where a pending write shadows a path, it is what the event data are there. -/
theorem Layered.complete_eq (h : T.Layered) (hs : T.Serves server) {path : List κ} {v : Node κ σ}
    (hv : T.visibleWrites.completeNodeAtPath path = some v) :
    v = (T.eventData server).getChild path := by
  obtain ⟨hwf, hview⟩ := h.eventData_spec hs
  refine (h.wellFormed.completeNodeAtPath hv).ext (hwf.getChild path) ?_
  rw [Node.view_getChild, hview, ← Patch.overlay_below,
    CompoundWrite.below_patch_of_complete hv]
  rfl

omit [DecidableEq κ] in
/-- The writes below a path, over what the server has there. -/
theorem Layered.child_eq (h : T.Layered) (hs : T.Serves server) (path : List κ) :
    (T.visibleWrites.childCompoundWriteAtPath path).applyToNode (server.getChild path) =
      (T.eventData server).getChild path := by
  refine applyToNode_eq (fun r hr => h.nodes r (List.mem_of_mem_filter hr)) hs.wellFormed
    (fun r hr => hs.clear r (List.mem_of_mem_filter hr))
    (h.wellFormed.childCompoundWriteAtPath path) ?_
  rw [CompoundWrite.patch_childCompoundWriteAtPath, h.patch, pending]

omit [DecidableEq κ] in
/-- Without writes below a path, the event data are there what the server has. -/
theorem Layered.getChild_of_isEmpty (h : T.Layered) (hs : T.Serves server) {path : List κ}
    (hempty : (T.visibleWrites.childCompoundWriteAtPath path).isEmpty = true) :
    server.getChild path = (T.eventData server).getChild path := by
  obtain ⟨hwf, hview⟩ := h.eventData_spec hs
  refine (hs.wellFormed.getChild path).ext (hwf.getChild path) ?_
  rw [Node.view_getChild, Node.view_getChild, hview, ← Patch.overlay_below,
    ← CompoundWrite.patch_childCompoundWriteAtPath, CompoundWrite.patch_of_isEmpty hempty]
  rfl

/-- **The event cache at every path is what the server's data are there after the pending
writes**; without server data it is the same, or not known. -/
theorem calculateCompleteEventCacheAtPath_eq (h : T.Layered) (hs : T.Serves server)
    (path : List κ) :
    T.calculateCompleteEventCacheAtPath path (some (server.getChild path)) none false =
        some ((T.eventData server).getChild path) ∧
      ∀ n, T.calculateCompleteEventCacheAtPath path none none false = some n →
        n = (T.eventData server).getChild path := by
  simp only [calculateCompleteEventCacheAtPath, Option.isNone_none, Bool.not_false, Bool.and_self,
    if_true]
  cases hv : T.visibleWrites.completeNodeAtPath path with
  | some v =>
      have hv' := h.complete_eq hs hv
      exact ⟨congrArg some hv', fun n hn => (Option.some.inj hn).symm.trans hv'⟩
  | none =>
      have hroot : (T.visibleWrites.childCompoundWriteAtPath path).hasCompleteWriteAtPath [] =
          false := by
        rw [CompoundWrite.hasCompleteWriteAtPath, Option.isSome_eq_false_iff,
          Option.isNone_iff_eq_none, ← CompoundWrite.patch_eq_none_iff,
          CompoundWrite.patch_childCompoundWriteAtPath, Patch.below, List.append_nil,
          CompoundWrite.patch_eq_none_iff, hv]
      constructor
      · simp only [Option.isNone_some, Bool.false_and, Bool.false_eq_true, if_false,
          Option.getD_some]
        split_ifs with hempty
        · rw [h.getChild_of_isEmpty hs hempty]
        · rw [h.child_eq hs]
      · intro n hn
        simp [hroot] at hn

omit [DecidableEq κ] in
theorem calculateEventCacheAfterServerOverwriteAtPath_eq (h : T.Layered) (hs : T.Serves server)
    {treePath childPath : List κ}
    (hv : T.visibleWrites.completeNodeAtPath (treePath ++ childPath) = none) :
    T.calculateEventCacheAfterServerOverwriteAtPath treePath childPath (server.getChild treePath) =
      some ((T.eventData server).getChild (treePath ++ childPath)) := by
  simp only [calculateEventCacheAfterServerOverwriteAtPath, CompoundWrite.hasCompleteWriteAtPath,
    hv, Option.isSome_none, Bool.false_eq_true, if_false, ← Node.getChild_append]
  split_ifs with hempty
  · rw [h.getChild_of_isEmpty hs hempty]
  · rw [h.child_eq hs]

omit [DecidableEq κ] in
theorem calculateCompleteChildAtPath_eq (h : T.Layered) (hs : T.Serves server) (treePath : List κ)
    (childKey : κ) :
    T.calculateCompleteChildAtPath treePath childKey ⟨server.getChild treePath, true⟩ =
      some ((T.eventData server).getChild (treePath ++ [childKey])) := by
  rw [calculateCompleteChildAtPath]
  cases hv : T.visibleWrites.completeNodeAtPath (treePath ++ [childKey]) with
  | some v => exact congrArg some (h.complete_eq hs hv)
  | none =>
      rw [← h.child_eq hs, Node.getChild_append, Node.getChild_cons, Node.getChild_nil]
      rfl

/-! ### When the server's data or the writes change -/

omit [DecidableEq κ] in
/-- New server data at a shadowed path change nothing. -/
theorem Layered.eventData_of_shadowed (h : T.Layered) (hs : T.Serves server) {path : List κ}
    {newData : Node κ σ} (hnew : newData.WellFormed)
    (hs' : T.Serves (server.updateChild path newData))
    (hshadow : T.visibleWrites.completeNodeAtPath path ≠ none) :
    T.eventData (server.updateChild path newData) = T.eventData server := by
  obtain ⟨hwf, hview⟩ := h.eventData_spec hs
  obtain ⟨hwf', hview'⟩ := h.eventData_spec hs'
  refine hwf'.ext hwf ?_
  rw [hview, hview', Node.view_updateChild hs.wellFormed hnew]
  funext q
  cases hq : T.visibleWrites.patch q with
  | some s => simp [Patch.overlay, hq]
  | none =>
      simp only [Patch.overlay, hq, Option.getD_none]
      by_cases hpath : path <+: q
      · obtain ⟨r, rfl⟩ := hpath
        obtain ⟨v, hv⟩ := Option.ne_none_iff_exists'.mp hshadow
        rw [CompoundWrite.patch_eq_none_iff, CompoundWrite.completeNodeAtPath_append hv] at hq
        cases hq
      · by_cases hle : q <+: path
        · have hnone := h.clear hs q path hle hq (mt CompoundWrite.patch_eq_none_iff.mp hshadow)
          rw [View.overwrite, if_neg hpath, hnone, ite_self]
        · rw [View.overwrite_of_diverge _ _ hpath hle]

omit [DecidableEq κ] in
/-- New server data at a path change the event data only from there on. -/
theorem Layered.eventData_updateChild (h : T.Layered) (hs : T.Serves server) {path : List κ}
    {newData : Node κ σ} (hnew : newData.WellFormed)
    (hs' : T.Serves (server.updateChild path newData)) :
    (T.eventData server).updateChild path
        ((T.eventData (server.updateChild path newData)).getChild path) =
      T.eventData (server.updateChild path newData) := by
  obtain ⟨hwf, hview⟩ := h.eventData_spec hs
  obtain ⟨hwf', hview'⟩ := h.eventData_spec hs'
  refine Node.updateChild_eq hwf hwf' (fun q hp hq => ?_) fun q hq hne hempty => ?_
  · rw [hview, hview', Node.view_updateChild hs.wellFormed hnew, Patch.overlay, Patch.overlay,
      View.overwrite_of_diverge _ _ hp hq]
  · rw [hview, hview', Node.view_updateChild hs.wellFormed hnew]
    cases hpatch : T.visibleWrites.patch q with
    | some s => simp [Patch.overlay, hpatch]
    | none =>
        simp only [Patch.overlay, hpatch, Option.getD_none]
        have hnot : ¬ path <+: q := fun hp => hne (hq.eq_of_length_le hp.length_le)
        rw [View.overwrite, if_neg hnot]
        split_ifs with hdata
        · -- Something of the new data is not shown, so a pending write is below the leaf at `q`.
          obtain ⟨x, hx⟩ := not_forall.mp hdata.2
          refine h.clear hs q (path ++ x) (hq.trans (List.prefix_append _ _)) hpatch fun hnone => ?_
          have hshown : (T.eventData (server.updateChild path newData)).view (path ++ x) =
              newData.view x := by
            rw [hview', Patch.overlay, hnone, Node.view_updateChild hs.wellFormed hnew,
              View.overwrite_append]
            rfl
          rw [← hshown, Node.view, Node.getChild_append, hempty, Node.getChild_emptyNode] at hx
          exact hx rfl
        · rfl

omit [DecidableEq κ] in
/-- Event data are equal at a path when the writes say the same from there on. -/
theorem Layered.getChild_eventData_congr {T' : FWriteTree κ σ} (h : T.Layered)
    (hs : T.Serves server) (h' : T'.Layered) (hs' : T'.Serves server) {path : List κ}
    (hpatch : ∀ q, T.visibleWrites.patch (path ++ q) = T'.visibleWrites.patch (path ++ q)) :
    (T.eventData server).getChild path = (T'.eventData server).getChild path := by
  obtain ⟨hwf, hview⟩ := h.eventData_spec hs
  obtain ⟨hwf', hview'⟩ := h'.eventData_spec hs'
  refine (hwf.getChild path).ext (hwf'.getChild path) ?_
  rw [Node.view_getChild, Node.view_getChild, hview, hview']
  funext q
  simp only [View.below, Patch.overlay, hpatch q]

end caches
end FWriteTree
end ZipR
