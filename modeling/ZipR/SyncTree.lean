import ZipR.Views

/-! # The sync tree

`FSyncTree`: the views of a client at their paths and its pending writes.  An operation is made
relative to each view at or below its path or above it, and applied there.  All queries are default
queries, so a sync point is one view with its registrations.

* **Operations.** `applyOperationHelper` walks the tree of sync points; `view_applyOperation` says
  what it does at one of them.
* **Registrations.** A new view is listened to unless a view above it is, and takes the place of the
  listens below it; a view that goes leaves its listen to the views below.
* **Invariant.** `Synced`: every complete view shows the server's data after the pending writes, and
  below it all views are complete.
* **Steps.** User overwrites and server overwrites keep it, acknowledgements and reverts too when
  every earlier pending write is apart from the removed one (`Synced.ackUserWriteWithWriteId`), in
  particular in the order of the writes. -/

namespace ZipR

open Std Patches Comparators SortedEntries

variable {κ σ : Type}

inductive FOperation (κ σ : Type) where
  | overwrite (fromUser : Bool) (path : List κ) (snap : Node κ σ)
  | ackUserWrite (path : List κ) (revert : Bool)
  | listenComplete (path : List κ)

namespace FOperation

def path : FOperation κ σ → List κ
  | .overwrite _ path _ | .ackUserWrite path _ | .listenComplete path => path

/-- The operation at another path. -/
def withPath : FOperation κ σ → List κ → FOperation κ σ
  | .overwrite fromUser _ snap, path => .overwrite fromUser path snap
  | .ackUserWrite _ revert, path => .ackUserWrite path revert
  | .listenComplete _, path => .listenComplete path

variable [Comparators κ]

def operationForChild (childKey : κ) : FOperation κ σ → FOperation κ σ
  | .overwrite fromUser [] snap => .overwrite fromUser [] (snap.getImmediateChild childKey)
  | .overwrite fromUser (_ :: path) snap => .overwrite fromUser path snap
  | .ackUserWrite [] revert => .ackUserWrite [] revert
  | .ackUserWrite (_ :: path) revert => .ackUserWrite path revert
  | .listenComplete [] => .listenComplete []
  | .listenComplete (_ :: path) => .listenComplete path

theorem path_operationForChild (k : κ) (operation : FOperation κ σ) :
    (operation.operationForChild k).path = operation.path.tail := by
  cases operation with
  | overwrite fromUser path snap => cases path <;> rfl
  | ackUserWrite path revert => cases path <;> rfl
  | listenComplete path => cases path <;> rfl

/-! ### Operations seen from a path -/

/-- The operation as a view at the path gets it; none when the view is off its path. -/
def relativeTo [DecidableEq κ] : FOperation κ σ → List κ → Option (FOperation κ σ)
  | operation, [] => some operation
  | operation, k :: p =>
      match operation.path with
      | [] => (operation.operationForChild k).relativeTo p
      | front :: _ => if front = k then (operation.operationForChild k).relativeTo p else none

/-- An operation at or above a view, as the view gets it. -/
def below : FOperation κ σ → List κ → FOperation κ σ
  | .overwrite fromUser _ snap, r => .overwrite fromUser [] (snap.getChild r)
  | .ackUserWrite _ revert, _ => .ackUserWrite [] revert
  | .listenComplete _, _ => .listenComplete []

variable [DecidableEq κ] {operation : FOperation κ σ} {p r : List κ}

theorem relativeTo_cons {k : κ}
    (h : operation.path.head? = none ∨ operation.path.head? = some k) :
    operation.relativeTo (k :: p) = (operation.operationForChild k).relativeTo p := by
  rw [relativeTo]
  cases hp : operation.path with
  | nil => rfl
  | cons front path =>
      rw [hp] at h
      have hfront : front = k := by simpa using h
      simp only [hfront, if_true]

theorem relativeTo_of_diverge (h : ¬ operation.path <+: p) (h' : ¬ p <+: operation.path) :
    operation.relativeTo p = none := by
  induction p generalizing operation with
  | nil => exact absurd List.nil_prefix h'
  | cons k p ih =>
      rw [relativeTo]
      cases hp : operation.path with
      | nil => exact absurd (hp ▸ List.nil_prefix) h
      | cons front path =>
          simp only
          split_ifs with hfront
          · subst hfront
            rw [hp, List.cons_prefix_cons] at h h'
            refine ih ?_ ?_ <;> rw [path_operationForChild, hp, List.tail_cons]
            · exact fun hle => h ⟨rfl, hle⟩
            · exact fun hle => h' ⟨rfl, hle⟩
          · rfl

omit [DecidableEq κ] in
theorem operationForChild_of_cons {k : κ} {path : List κ} (h : operation.path = k :: path) :
    operation.operationForChild k = operation.withPath path := by
  cases operation <;> cases h <;> rfl

/-- A view above the path gets the rest of the path. -/
theorem relativeTo_of_append (h : operation.path = p ++ r) :
    operation.relativeTo p = some (operation.withPath r) := by
  induction p generalizing operation with
  | nil =>
      rw [relativeTo]
      cases operation <;> cases h <;> rfl
  | cons k p ih =>
      rw [relativeTo_cons (.inr (by rw [h]; rfl)), ih]
      · rw [operationForChild_of_cons h]
        cases operation <;> rfl
      · rw [path_operationForChild, h]
        rfl

/-- A view below the path gets what the operation says there. -/
theorem relativeTo_below (h : p = operation.path ++ r) :
    operation.relativeTo p = some (operation.below r) := by
  induction p generalizing operation r with
  | nil =>
      obtain ⟨hpath, rfl⟩ := List.append_eq_nil_iff.mp h.symm
      rw [relativeTo]
      cases operation with
      | overwrite fromUser path snap =>
          obtain rfl : path = [] := hpath
          rw [below, Node.getChild_nil]
      | ackUserWrite path revert =>
          obtain rfl : path = [] := hpath
          rfl
      | listenComplete path =>
          obtain rfl : path = [] := hpath
          rfl
  | cons k p ih =>
      cases hpath : operation.path with
      | nil =>
          rw [hpath, List.nil_append] at h
          subst h
          rw [relativeTo_cons (.inl (by rw [hpath]; rfl)),
            ih (r := p) (by rw [path_operationForChild, hpath]; rfl)]
          cases operation with
          | overwrite fromUser path snap =>
              obtain rfl : path = [] := hpath
              simp only [operationForChild, below, Node.getChild_cons]
          | ackUserWrite path revert =>
              obtain rfl : path = [] := hpath
              rfl
          | listenComplete path =>
              obtain rfl : path = [] := hpath
              rfl
      | cons front path =>
          rw [hpath] at h
          obtain ⟨rfl, hp⟩ := List.cons.inj h
          rw [relativeTo_cons (.inr (by rw [hpath]; rfl)), ih (r := r)]
          · rw [operationForChild_of_cons hpath]
            cases operation <;> rfl
          · rw [path_operationForChild, hpath]
            exact hp

end FOperation

variable [DecidableEq κ] [DecidableEq σ] [Comparators κ]

namespace FViewProcessor

def applyOperationOn (oldViewCache : FViewCache κ σ) (operation : FOperation κ σ)
    (writesCache : FWriteTreeRef κ σ) (optCompleteCache : Option (Node κ σ)) : FViewCache κ σ :=
  match operation with
  | .overwrite true path snap =>
      applyUserOverwriteTo oldViewCache path snap writesCache optCompleteCache
  | .overwrite false path snap => applyServerOverwriteTo oldViewCache path snap writesCache
  | .ackUserWrite path false => ackUserWriteOn oldViewCache path writesCache
  | .ackUserWrite path true => revertUserWriteOn oldViewCache path writesCache
  | .listenComplete path => listenCompleteOldCache oldViewCache path writesCache

end FViewProcessor

open FViewProcessor

/-! ### Views and sync points -/

/-- A registration has a handle, and maybe a callback for the end of its listen. -/
structure FEventRegistration where
  handle : ℕ
  cancelCallback : Bool
  deriving DecidableEq

structure FView (κ σ : Type) where
  viewCache : FViewCache κ σ
  eventRegistrations : List FEventRegistration

namespace FView

def isEmpty (self : FView κ σ) : Bool := self.eventRegistrations.isEmpty

def completeServerCacheFor (self : FView κ σ) (path : List κ) : Option (Node κ σ) :=
  self.viewCache.completeServerSnap.map fun cache => cache.getChild path

def addEventRegistration (self : FView κ σ) (eventRegistration : FEventRegistration) : FView κ σ :=
  { self with eventRegistrations := self.eventRegistrations ++ [eventRegistration] }

/-- All registrations go when no handle is given. -/
def removeEventRegistration (self : FView κ σ) (handle : Option ℕ) : FView κ σ :=
  { self with
    eventRegistrations :=
      match handle with
      | some handle => self.eventRegistrations.filter (·.handle ≠ handle)
      | none => [] }

/-- The registrations that get a cancel event. -/
def cancelEvents (self : FView κ σ) (cancelError : Option String) : List FEventRegistration :=
  if cancelError.isSome then self.eventRegistrations.filter (·.cancelCallback) else []

def applyOperation (self : FView κ σ) (operation : FOperation κ σ)
    (writesCache : FWriteTreeRef κ σ) (optCompleteServerCache : Option (Node κ σ)) : FView κ σ :=
  { self with
    viewCache := applyOperationOn self.viewCache operation writesCache optCompleteServerCache }

end FView

/-- The view of the default query at each sync point, and the pending writes. -/
structure FSyncTree (κ σ : Type) where
  pendingWriteTree : FWriteTree κ σ
  syncPointTree : ImmutableTree κ (FView κ σ)

/-- What the sync tree asks of the `FListenProvider`. -/
inductive ListenRequest (κ : Type) where
  | startListening (path : List κ)
  | stopListening (path : List κ)
  deriving DecidableEq

namespace FSyncTree

def init : FSyncTree κ σ := ⟨.init, .empty⟩

/-- The view at a path. -/
def viewAt (t : ImmutableTree κ (FView κ σ)) (p : List κ) : Option (FView κ σ) :=
  (t.subtreeAtPath p).value

/-! ### Operations -/

/-- The server's data known at a sync point, or already known from above. -/
def resolvedServerCache (serverCache : Option (Node κ σ)) (syncPoint : Option (FView κ σ)) :
    Option (Node κ σ) :=
  serverCache.orElse fun _ => syncPoint.bind fun view => view.completeServerCacheFor []

mutual

def applyOperationDescendantsHelper : ImmutableTree κ (FView κ σ) → FOperation κ σ →
    Option (Node κ σ) → FWriteTreeRef κ σ → ImmutableTree κ (FView κ σ)
  | .mk syncPoint children, operation, serverCache, writesCache =>
      let resolvedServerCache := resolvedServerCache serverCache syncPoint
      .mk (syncPoint.map fun view => view.applyOperation operation writesCache resolvedServerCache)
        (applyOperationToChildren children operation resolvedServerCache writesCache)

/-- The loop over the children of a sync point. -/
def applyOperationToChildren : List (κ × ImmutableTree κ (FView κ σ)) → FOperation κ σ →
    Option (Node κ σ) → FWriteTreeRef κ σ → List (κ × ImmutableTree κ (FView κ σ))
  | [], _, _, _ => []
  | (childKey, childTree) :: children, operation, serverCache, writesCache =>
      (childKey, applyOperationDescendantsHelper childTree (operation.operationForChild childKey)
          (serverCache.map fun n => n.getImmediateChild childKey)
          (writesCache.childWriteTreeRef childKey))
        :: applyOperationToChildren children operation serverCache writesCache

end

def applyOperationHelper (operation : FOperation κ σ) (syncPointTree : ImmutableTree κ (FView κ σ))
    (serverCache : Option (Node κ σ)) (writesCache : FWriteTreeRef κ σ) :
    ImmutableTree κ (FView κ σ) :=
  match _h : operation.path with
  | [] => applyOperationDescendantsHelper syncPointTree operation serverCache writesCache
  | childKey :: _ =>
      let serverCache := resolvedServerCache serverCache syncPointTree.value
      .mk (syncPointTree.value.map fun view => view.applyOperation operation writesCache serverCache)
        (match find stringComparator childKey syncPointTree.children with
          | some childTree =>
              insert stringComparator childKey
                (applyOperationHelper (operation.operationForChild childKey) childTree
                  (serverCache.map fun n => n.getImmediateChild childKey)
                  (writesCache.childWriteTreeRef childKey)) syncPointTree.children
          | none => syncPointTree.children)
termination_by operation.path.length
decreasing_by simp [FOperation.path_operationForChild, _h]

def applyOperationToSyncPoints (self : FSyncTree κ σ) (operation : FOperation κ σ) :
    FSyncTree κ σ :=
  { self with
    syncPointTree :=
      applyOperationHelper operation self.syncPointTree none ⟨[], self.pendingWriteTree⟩ }

def applyUserOverwriteAtPath (self : FSyncTree κ σ) (path : List κ) (newData : Node κ σ)
    (writeId : Int) (visible : Bool) : Option (FSyncTree κ σ) := do
  let pendingWriteTree ← self.pendingWriteTree.addOverwriteAtPath path newData writeId visible
  let self := { self with pendingWriteTree }
  if !visible then some self
  else some (self.applyOperationToSyncPoints (.overwrite true path newData))

def ackUserWriteWithWriteId (self : FSyncTree κ σ) (writeId : Int) (revert : Bool) :
    Option (FSyncTree κ σ) := do
  let write ← self.pendingWriteTree.allWrites.find? fun record => record.writeId == writeId
  let (needToReevaluate, pendingWriteTree) ← self.pendingWriteTree.removeWriteId writeId
  let self := { self with pendingWriteTree }
  if !needToReevaluate then some self
  else some (self.applyOperationToSyncPoints (.ackUserWrite write.path revert))

def applyServerOverwriteAtPath (self : FSyncTree κ σ) (path : List κ) (newData : Node κ σ) :
    FSyncTree κ σ := self.applyOperationToSyncPoints (.overwrite false path newData)

def applyListenCompleteAtPath (self : FSyncTree κ σ) (path : List κ) : FSyncTree κ σ :=
  self.applyOperationToSyncPoints (.listenComplete path)

def removeAllWrites (self : FSyncTree κ σ) : FSyncTree κ σ :=
  let (removedWrites, pendingWriteTree) := self.pendingWriteTree.removeAllWrites
  let self := { self with pendingWriteTree }
  if removedWrites.isEmpty then self
  else self.applyOperationToSyncPoints (.ackUserWrite [] true)

/-! ### Registrations and listens -/

/-- The first complete server cache along a path, at the end of the path. -/
def completeServerCacheOnPath : ImmutableTree κ (FView κ σ) → List κ → Option (Node κ σ)
  | t, [] => t.value.bind fun view => view.completeServerCacheFor []
  | t, k :: p =>
      (t.value.bind fun view => view.completeServerCacheFor (k :: p)).orElse fun _ =>
        completeServerCacheOnPath (t.child k) p

def serverCacheForQuery (self : FSyncTree κ σ) (path : List κ) : FCacheNode κ σ :=
  match completeServerCacheOnPath self.syncPointTree path with
  | some serverCacheNode => ⟨serverCacheNode, true⟩
  | none =>
      let children := (self.syncPointTree.subtreeAtPath path).children
      ⟨children.foldl (fun serverCacheNode child =>
        match child.2.value.bind fun view => view.completeServerCacheFor [] with
        | some completeCache => serverCacheNode.updateImmediateChild child.1 completeCache
        | none => serverCacheNode) .emptyNode, false⟩

/-- The paths of the distinct views of a subtree, in the order of the keys. -/
def collectDistinctViewsForSubTree (subtree : ImmutableTree κ (FView κ σ)) (path : List κ) :
    List (List κ) := (subtree.rootMostValues path).map Prod.fst

/-- A default listener shadows everything below it. -/
def setupListenerOnQuery (self : FSyncTree κ σ) (path : List κ) : List (ListenRequest κ) :=
  let queriesToStop := ImmutableTree.rootMostValuesOf
    (self.syncPointTree.subtreeAtPath path).children path
  .startListening path :: queriesToStop.map fun query => .stopListening query.1

/-- A view for a query that has none. -/
def initialView (self : FSyncTree κ σ) (path : List κ) : FView κ σ :=
  let writesCache : FWriteTreeRef κ σ := ⟨path, self.pendingWriteTree⟩
  let serverCache := self.serverCacheForQuery path
  let eventCache := writesCache.calculateCompleteEventCacheWithCompleteServerCache
    (if serverCache.isFullyInitialized then some serverCache.node else none)
  let eventCacheNode :=
    match eventCache with
    | some eventCache => ⟨eventCache, true⟩
    | none =>
        ⟨writesCache.calculateCompleteEventChildrenWithCompleteServerChildren serverCache.node, false⟩
  ⟨⟨eventCacheNode, serverCache⟩, []⟩

def addEventRegistration (self : FSyncTree κ σ) (eventRegistration : FEventRegistration)
    (path : List κ) : FSyncTree κ σ × List (ListenRequest κ) :=
  let foundAncestorDefaultView := (self.syncPointTree.findRootMostValueAndPath path).isSome
  match viewAt self.syncPointTree path with
  | some view =>
      ({ self with
        syncPointTree :=
          self.syncPointTree.setValue (view.addEventRegistration eventRegistration) path }, [])
  | none =>
      let view := (self.initialView path).addEventRegistration eventRegistration
      let self := { self with syncPointTree := self.syncPointTree.setValue view path }
      (self, if foundAncestorDefaultView then [] else self.setupListenerOnQuery path)

/-- With an error the query is no longer listened to.  The answer has what to ask of the provider and
the registrations that get a cancel event. -/
def removeEventRegistration (self : FSyncTree κ σ) (handle : Option ℕ) (path : List κ)
    (cancelError : Option String) :
    FSyncTree κ σ × List (ListenRequest κ) × List FEventRegistration :=
  match viewAt self.syncPointTree path with
  | some view =>
      let cancelEvents := view.cancelEvents cancelError
      let view := view.removeEventRegistration handle
      if view.isEmpty then
        let self := { self with syncPointTree := self.syncPointTree.removeValueAtPath path }
        let covered := (self.syncPointTree.findRootMostValueAndPath path).isSome
        if covered then (self, [], cancelEvents)
        else
          let newViews :=
            collectDistinctViewsForSubTree (self.syncPointTree.subtreeAtPath path) path
          (self, newViews.map .startListening ++
            (if cancelError.isNone then [.stopListening path] else []), cancelEvents)
      else ({ self with syncPointTree := self.syncPointTree.setValue view path }, [], cancelEvents)
  | none => (self, [], [])

/-! ### What an operation does to one view -/

omit [DecidableEq κ] [DecidableEq σ] in
theorem viewAt_nil (t : ImmutableTree κ (FView κ σ)) : viewAt t [] = t.value := by
  rw [viewAt, ImmutableTree.subtreeAtPath_nil]

omit [DecidableEq κ] [DecidableEq σ] in
theorem viewAt_cons (t : ImmutableTree κ (FView κ σ)) (k : κ) (p : List κ) :
    viewAt t (k :: p) = viewAt (t.child k) p := by
  rw [viewAt, viewAt, ImmutableTree.subtreeAtPath_cons]

omit [DecidableEq κ] [DecidableEq σ] in
theorem viewAt_empty (p : List κ) : viewAt (.empty : ImmutableTree κ (FView κ σ)) p = none := by
  rw [viewAt, ImmutableTree.subtreeAtPath_empty]
  rfl

/-- What a view becomes under the operation it gets, if it gets one. -/
def viewAfter (operation : FOperation κ σ) (writesCache : FWriteTreeRef κ σ) (p : List κ)
    (serverCache : Option (Node κ σ)) (view : FView κ σ) : FView κ σ :=
  match operation.relativeTo p with
  | some operation =>
      view.applyOperation operation ⟨writesCache.path ++ p, writesCache.writeTree⟩ serverCache
  | none => view

theorem viewAfter_nil (operation : FOperation κ σ) (writesCache : FWriteTreeRef κ σ)
    (serverCache : Option (Node κ σ)) (view : FView κ σ) :
    viewAfter operation writesCache [] serverCache view =
      view.applyOperation operation writesCache serverCache := by
  rw [viewAfter, FOperation.relativeTo, List.append_nil]

theorem viewAfter_cons {operation : FOperation κ σ} {k : κ}
    (h : operation.path.head? = none ∨ operation.path.head? = some k)
    (writesCache : FWriteTreeRef κ σ) (p : List κ) (serverCache : Option (Node κ σ))
    (view : FView κ σ) : viewAfter operation writesCache (k :: p) serverCache view =
      viewAfter (operation.operationForChild k) (writesCache.childWriteTreeRef k) p serverCache
        view := by
  rw [viewAfter, viewAfter, FOperation.relativeTo_cons h]
  simp [FWriteTreeRef.childWriteTreeRef]

/-- Every view gets the operation made relative to it, with some of the server's data that are known
above it. -/
def AppliedAt (operation : FOperation κ σ) (writesCache : FWriteTreeRef κ σ) (p : List κ)
    (t t' : ImmutableTree κ (FView κ σ)) : Prop :=
  ∃ serverCache, viewAt t' p = (viewAt t p).map (viewAfter operation writesCache p serverCache)

theorem AppliedAt.cons {operation : FOperation κ σ} {k : κ} {p : List κ}
    {writesCache : FWriteTreeRef κ σ} {t t' : ImmutableTree κ (FView κ σ)}
    (h : operation.path.head? = none ∨ operation.path.head? = some k)
    (hk : AppliedAt (operation.operationForChild k) (writesCache.childWriteTreeRef k) p (t.child k)
      (t'.child k)) : AppliedAt operation writesCache (k :: p) t t' := by
  obtain ⟨serverCache, hview⟩ := hk
  refine ⟨serverCache, ?_⟩
  rw [viewAt_cons, viewAt_cons, hview]
  congr 1
  funext view
  rw [viewAfter_cons h]

theorem appliedAt_empty (operation : FOperation κ σ) (writesCache : FWriteTreeRef κ σ)
    (p : List κ) : AppliedAt operation writesCache p .empty .empty :=
  ⟨none, by rw [viewAt_empty]; rfl⟩

theorem applyOperationToChildren_keys (children : List (κ × ImmutableTree κ (FView κ σ)))
    (operation : FOperation κ σ) (serverCache : Option (Node κ σ))
    (writesCache : FWriteTreeRef κ σ) :
    (applyOperationToChildren children operation serverCache writesCache).map Prod.fst =
      children.map Prod.fst := by
  induction children with
  | nil => rfl
  | cons e children ih =>
      obtain ⟨k, c⟩ := e
      exact congrArg (k :: ·) ih

variable [LawfulComparators κ]

theorem find_applyOperationToChildren (children : List (κ × ImmutableTree κ (FView κ σ)))
    (operation : FOperation κ σ) (serverCache : Option (Node κ σ))
    (writesCache : FWriteTreeRef κ σ) (k : κ) :
    find stringComparator k (applyOperationToChildren children operation serverCache writesCache) =
      (find stringComparator k children).map fun childTree =>
        applyOperationDescendantsHelper childTree (operation.operationForChild k)
          (serverCache.map fun n => n.getImmediateChild k) (writesCache.childWriteTreeRef k) := by
  induction children with
  | nil => rfl
  | cons e children ih =>
      obtain ⟨l, c⟩ := e
      simp only [applyOperationToChildren, find]
      cases hk : stringComparator k l with
      | lt => rfl
      | eq => rw [LawfulEqCmp.eq_of_compare hk, Option.map_some]
      | gt => exact ih

theorem child_applyOperationDescendantsHelper (t : ImmutableTree κ (FView κ σ))
    (operation : FOperation κ σ) (serverCache : Option (Node κ σ))
    (writesCache : FWriteTreeRef κ σ) (k : κ) :
    (applyOperationDescendantsHelper t operation serverCache writesCache).child k =
      match find stringComparator k t.children with
      | some childTree => applyOperationDescendantsHelper childTree (operation.operationForChild k)
          ((resolvedServerCache serverCache t.value).map fun n => n.getImmediateChild k)
          (writesCache.childWriteTreeRef k)
      | none => .empty := by
  obtain ⟨value, children⟩ := t
  rw [applyOperationDescendantsHelper, ImmutableTree.child, ImmutableTree.children,
    ImmutableTree.children, find_applyOperationToChildren]
  cases find stringComparator k children <;> rfl

theorem appliedAt_applyOperationDescendantsHelper {operation : FOperation κ σ}
    (hop : operation.path = []) (t : ImmutableTree κ (FView κ σ))
    (serverCache : Option (Node κ σ)) (writesCache : FWriteTreeRef κ σ) (p : List κ) :
    AppliedAt operation writesCache p t
      (applyOperationDescendantsHelper t operation serverCache writesCache) := by
  induction p generalizing t operation serverCache writesCache with
  | nil =>
      obtain ⟨value, children⟩ := t
      refine ⟨resolvedServerCache serverCache value, ?_⟩
      rw [viewAt_nil, viewAt_nil, applyOperationDescendantsHelper]
      refine congrArg (Option.map · value) ?_
      funext view
      rw [viewAfter_nil]
  | cons k p ih =>
      refine .cons (.inl (by rw [hop]; rfl)) ?_
      rw [child_applyOperationDescendantsHelper, ImmutableTree.child]
      cases find stringComparator k t.children with
      | none => exact appliedAt_empty _ _ p
      | some c => exact ih (by rw [FOperation.path_operationForChild, hop]; rfl) c _ _

theorem ascending_applyOperationDescendantsHelper {t : ImmutableTree κ (FView κ σ)}
    (h : t.Ascending) (operation : FOperation κ σ) (serverCache : Option (Node κ σ))
    (writesCache : FWriteTreeRef κ σ) :
    (applyOperationDescendantsHelper t operation serverCache writesCache).Ascending := by
  intro p
  induction p generalizing t operation serverCache writesCache with
  | nil =>
      obtain ⟨value, children⟩ := t
      have hs : Sorted stringComparator children := h []
      rw [ImmutableTree.subtreeAtPath_nil, applyOperationDescendantsHelper, ImmutableTree.children]
      exact hs.of_keys (applyOperationToChildren_keys _ _ _ _).symm
  | cons k p ih =>
      rw [ImmutableTree.subtreeAtPath_cons, child_applyOperationDescendantsHelper]
      have hchild := h.child k
      rw [ImmutableTree.child] at hchild
      cases hf : find stringComparator k t.children with
      | none => exact ImmutableTree.ascending_empty p
      | some c =>
          rw [hf, Option.getD_some] at hchild
          exact ih hchild _ _ _

omit [LawfulComparators κ] in
theorem applyOperationHelper_nil {operation : FOperation κ σ} (h : operation.path = [])
    (t : ImmutableTree κ (FView κ σ)) (serverCache : Option (Node κ σ))
    (writesCache : FWriteTreeRef κ σ) :
    applyOperationHelper operation t serverCache writesCache =
      applyOperationDescendantsHelper t operation serverCache writesCache := by
  rw [applyOperationHelper]
  split
  · rfl
  · next hcons => rw [h] at hcons; cases hcons

/-- One step along the path of the operation. -/
structure StepsTo (operation : FOperation κ σ) (k : κ) (writesCache : FWriteTreeRef κ σ)
    (serverCache : Option (Node κ σ)) (t t' : ImmutableTree κ (FView κ σ)) : Prop where
  value : t'.value = t.value.map fun view => view.applyOperation operation writesCache serverCache
  sorted : Sorted stringComparator t'.children
  child_self : t'.child k =
    match find stringComparator k t.children with
    | some childTree => applyOperationHelper (operation.operationForChild k) childTree
        (serverCache.map fun n => n.getImmediateChild k) (writesCache.childWriteTreeRef k)
    | none => .empty
  child_ne : ∀ l, l ≠ k → t'.child l = t.child l

theorem applyOperationHelper_cons {operation : FOperation κ σ} {k : κ} {path : List κ}
    (h : operation.path = k :: path) {t : ImmutableTree κ (FView κ σ)}
    (hs : Sorted stringComparator t.children) (serverCache : Option (Node κ σ))
    (writesCache : FWriteTreeRef κ σ) :
    StepsTo operation k writesCache (resolvedServerCache serverCache t.value) t
      (applyOperationHelper operation t serverCache writesCache) := by
  rw [applyOperationHelper]
  split
  · next hnil => rw [h] at hnil; cases hnil
  · next hcons =>
      rw [h] at hcons
      obtain ⟨rfl, -⟩ := List.cons.inj hcons
      cases hf : find stringComparator k t.children with
      | none =>
          refine ⟨rfl, hs, ?_, fun l _ => rfl⟩
          rw [ImmutableTree.child, ImmutableTree.children, hf, Option.getD_none]
      | some c =>
          refine ⟨rfl, hs.insert k _, ?_, fun l hl => ?_⟩
          · rw [ImmutableTree.child, ImmutableTree.children, find_insert_self, Option.getD_some, hf]
          · have hne : stringComparator l k ≠ .eq := fun he => hl (LawfulEqCmp.eq_of_compare he)
            rw [ImmutableTree.child, ImmutableTree.children, find_insert_ne hne,
              ImmutableTree.child]

/-- **What an operation does to the tree**: every view gets the operation made relative to it. -/
theorem view_applyOperationHelper {t : ImmutableTree κ (FView κ σ)} (ht : t.Ascending)
    (operation : FOperation κ σ) (serverCache : Option (Node κ σ))
    (writesCache : FWriteTreeRef κ σ) :
    (applyOperationHelper operation t serverCache writesCache).Ascending ∧
      ∀ p, AppliedAt operation writesCache p t
        (applyOperationHelper operation t serverCache writesCache) := by
  induction hop : operation.path generalizing operation t serverCache writesCache with
  | nil =>
      rw [applyOperationHelper_nil hop]
      exact ⟨ascending_applyOperationDescendantsHelper ht _ _ _,
        appliedAt_applyOperationDescendantsHelper hop t serverCache writesCache⟩
  | cons k path ih =>
      have hs : Sorted stringComparator t.children := by simpa using ht []
      obtain ⟨hvalue, hsorted, hself, hne⟩ := applyOperationHelper_cons hop hs serverCache writesCache
      have hpath : (operation.operationForChild k).path = path := by
        rw [FOperation.path_operationForChild, hop, List.tail_cons]
      have hk : ((applyOperationHelper operation t serverCache writesCache).child k).Ascending ∧
          ∀ p, AppliedAt (operation.operationForChild k) (writesCache.childWriteTreeRef k) p
            (t.child k) ((applyOperationHelper operation t serverCache writesCache).child k) := by
        have hchild := ht.child k
        rw [ImmutableTree.child] at hchild
        rw [hself, ImmutableTree.child]
        cases hf : find stringComparator k t.children with
        | none => exact ⟨ImmutableTree.ascending_empty, appliedAt_empty _ _⟩
        | some c =>
            rw [hf, Option.getD_some] at hchild
            exact ih hchild _ _ _ hpath
      refine ⟨.of_child hsorted fun l => ?_, fun p => ?_⟩
      · by_cases hl : l = k
        · exact hl ▸ hk.1
        · exact hne l hl ▸ ht.child l
      · cases p with
        | nil =>
            refine ⟨resolvedServerCache serverCache t.value, ?_⟩
            rw [viewAt_nil, viewAt_nil, hvalue]
            refine congrArg (Option.map · t.value) ?_
            funext view
            rw [viewAfter_nil]
        | cons l p =>
            by_cases hl : l = k
            · subst hl
              exact .cons (.inr (by rw [hop]; rfl)) (hk.2 p)
            · have hdiv := diverge_of_ne (r := []) (a := k :: path) (b := l :: p) (Ne.symm hl)
                (by simp) (by simp)
              refine ⟨none, ?_⟩
              have hoff : viewAfter operation writesCache (l :: p) none = id := by
                funext view
                rw [viewAfter, FOperation.relativeTo_of_diverge (hop ▸ hdiv.1) (hop ▸ hdiv.2)]
                rfl
              rw [viewAt_cons, viewAt_cons, hne l hl, hoff, Option.map_id, id]

omit [DecidableEq κ] [DecidableEq σ] [Comparators κ] [LawfulComparators κ] in
/-- The three positions of a path against another one. -/
theorem position_cases (o p : List κ) :
    (∃ r, o = p ++ r) ∨ (∃ r, p = o ++ r) ∨ ¬ o <+: p ∧ ¬ p <+: o := by
  by_cases hp : p <+: o
  · obtain ⟨r, rfl⟩ := hp
    exact .inl ⟨r, rfl⟩
  · by_cases ho : o <+: p
    · obtain ⟨r, rfl⟩ := ho
      exact .inr (.inl ⟨r, rfl⟩)
    · exact .inr (.inr ⟨ho, hp⟩)

/-! ### What every operation keeps -/

/-- A view is complete when its server cache is. -/
def Complete (view : FView κ σ) : Prop := view.viewCache.cachedServerSnap.isFullyInitialized = true

/-- The operation brings complete data to the path. -/
def Completes : FOperation κ σ → List κ → Prop
  | .overwrite false path _, p | .listenComplete path, p => path <+: p
  | _, _ => False

omit [LawfulComparators κ] in
theorem complete_applyOperation (view : FView κ σ) (operation : FOperation κ σ)
    (writesCache : FWriteTreeRef κ σ) (serverCache : Option (Node κ σ)) :
    Complete (view.applyOperation operation writesCache serverCache) ↔
      Complete view ∨ Completes operation [] := by
  have hnil : ∀ p : List κ, p.isEmpty = true ↔ p <+: [] := fun p => by
    rw [List.isEmpty_iff, List.prefix_nil]
  cases operation with
  | overwrite fromUser path snap =>
      cases fromUser with
      | false =>
          simp only [Completes, Complete, FView.applyOperation, applyOperationOn,
            isFullyInitialized_applyServerOverwriteTo, Bool.or_eq_true, hnil]
      | true =>
          simp only [Completes, or_false, Complete, FView.applyOperation, applyOperationOn,
            serverSnap_applyUserOverwriteTo]
  | ackUserWrite path revert =>
      cases revert with
      | false =>
          simp only [Completes, or_false, Complete, FView.applyOperation, applyOperationOn,
            isFullyInitialized_ackUserWriteOn]
      | true =>
          simp only [Completes, or_false, Complete, FView.applyOperation, applyOperationOn,
            serverSnap_revertUserWriteOn]
  | listenComplete path =>
      simp only [Completes, Complete, FView.applyOperation, applyOperationOn,
        isFullyInitialized_listenCompleteOldCache, Bool.or_eq_true, hnil]

omit [LawfulComparators κ] in
/-- **The views that an operation completes** are those at and below its path. -/
theorem complete_viewAfter (operation : FOperation κ σ) (writesCache : FWriteTreeRef κ σ)
    (p : List κ) (serverCache : Option (Node κ σ)) (view : FView κ σ) :
    Complete (viewAfter operation writesCache p serverCache view) ↔
      Complete view ∨ Completes operation p := by
  rcases position_cases operation.path p with ⟨r, hr⟩ | ⟨r, hr⟩ | ⟨hpath, hp⟩
  · rw [viewAfter, FOperation.relativeTo_of_append hr, complete_applyOperation]
    refine or_congr_right ?_
    have hprefix : r <+: [] ↔ p ++ r <+: p := by
      rw [List.prefix_nil]
      constructor
      · rintro rfl
        rw [List.append_nil]
      · exact fun h => List.append_right_eq_self.mp (h.eq_of_length_le (by simp))
    cases operation with
    | overwrite fromUser path snap =>
        obtain rfl : path = p ++ r := hr
        cases fromUser with
        | false => exact hprefix
        | true => exact Iff.rfl
    | ackUserWrite path revert => exact Iff.rfl
    | listenComplete path =>
        obtain rfl : path = p ++ r := hr
        exact hprefix
  · rw [viewAfter, FOperation.relativeTo_below hr, complete_applyOperation]
    refine or_congr_right ?_
    have hprefix : ([] : List κ) <+: [] ↔ operation.path <+: p :=
      iff_of_true List.nil_prefix ⟨r, hr.symm⟩
    cases operation with
    | overwrite fromUser path snap =>
        cases fromUser with
        | false => exact hprefix
        | true => exact Iff.rfl
    | ackUserWrite path revert => exact Iff.rfl
    | listenComplete path => exact hprefix
  · rw [viewAfter, FOperation.relativeTo_of_diverge hpath hp, iff_self_or]
    cases operation with
    | overwrite fromUser path snap =>
        cases fromUser with
        | false => exact fun h => absurd h hpath
        | true => exact False.elim
    | ackUserWrite path revert => exact False.elim
    | listenComplete path => exact fun h => absurd h hpath

omit [LawfulComparators κ] in
@[simp] theorem eventRegistrations_viewAfter (operation : FOperation κ σ)
    (writesCache : FWriteTreeRef κ σ) (p : List κ) (serverCache : Option (Node κ σ))
    (view : FView κ σ) : (viewAfter operation writesCache p serverCache view).eventRegistrations =
      view.eventRegistrations := by
  rw [viewAfter]
  split <;> rfl

/-- The views stay, with their registrations, and complete ones stay complete. -/
structure Keeps (t t' : ImmutableTree κ (FView κ σ)) : Prop where
  ascending : t'.Ascending
  registrations : ∀ p, (viewAt t' p).map (·.eventRegistrations) =
    (viewAt t p).map (·.eventRegistrations)
  complete : ∀ p view view', viewAt t p = some view → viewAt t' p = some view' → Complete view →
    Complete view'

namespace Keeps

variable {t t' t'' : ImmutableTree κ (FView κ σ)}

omit [DecidableEq κ] [DecidableEq σ] [LawfulComparators κ] in
theorem refl (h : t.Ascending) : Keeps t t :=
  ⟨h, fun _ => rfl, fun _ _ _ h h' hc => Option.some.inj (h.symm.trans h') ▸ hc⟩

omit [DecidableEq κ] [DecidableEq σ] [LawfulComparators κ] in
theorem isSome (h : Keeps t t') (p : List κ) : (viewAt t' p).isSome = (viewAt t p).isSome := by
  simpa using congrArg Option.isSome (h.registrations p)

omit [DecidableEq κ] [DecidableEq σ] [LawfulComparators κ] in
theorem trans (h : Keeps t t') (h' : Keeps t' t'') : Keeps t t'' := by
  refine ⟨h'.ascending, fun p => (h'.registrations p).trans (h.registrations p),
    fun p v v'' hv hv'' hc => ?_⟩
  obtain ⟨v', hv'⟩ := Option.isSome_iff_exists.mp
    ((h.isSome p).trans (Option.isSome_iff_exists.mpr ⟨v, hv⟩))
  exact h'.complete p v' v'' hv' hv'' (h.complete p v v' hv hv' hc)

end Keeps

/-- **An operation completes** the views at and below its path if it brings data. -/
theorem complete_applyOperationToSyncPoints {self : FSyncTree κ σ}
    (h : self.syncPointTree.Ascending) (operation : FOperation κ σ) {p : List κ}
    {view view' : FView κ σ} (hview : viewAt self.syncPointTree p = some view)
    (hview' : viewAt (self.applyOperationToSyncPoints operation).syncPointTree p = some view') :
    Complete view' ↔ Complete view ∨ Completes operation p := by
  obtain ⟨serverCache, hp⟩ :=
    (view_applyOperationHelper h operation none ⟨[], self.pendingWriteTree⟩).2 p
  rw [hview] at hp
  obtain rfl := Option.some.inj (hp.symm.trans hview')
  exact complete_viewAfter _ _ _ _ _

theorem keeps_applyOperationToSyncPoints (self : FSyncTree κ σ) (h : self.syncPointTree.Ascending)
    (operation : FOperation κ σ) :
    Keeps self.syncPointTree (self.applyOperationToSyncPoints operation).syncPointTree := by
  obtain ⟨hasc, hview⟩ := view_applyOperationHelper h operation none ⟨[], self.pendingWriteTree⟩
  refine ⟨hasc, fun p => ?_, fun p v v' hv hv' hc => ?_⟩
  · obtain ⟨serverCache, hp⟩ := hview p
    rw [applyOperationToSyncPoints, hp, Option.map_map]
    congr 1
    funext view
    exact eventRegistrations_viewAfter _ _ _ _ _
  · exact (complete_applyOperationToSyncPoints h operation hv hv').mpr (.inl hc)

theorem keeps_applyUserOverwriteAtPath {self self' : FSyncTree κ σ}
    (h : self.syncPointTree.Ascending) {path : List κ} {newData : Node κ σ} {writeId : Int}
    {visible : Bool} (hself : self.applyUserOverwriteAtPath path newData writeId visible = some self') :
    Keeps self.syncPointTree self'.syncPointTree := by
  obtain ⟨T, -, hself⟩ := Option.bind_eq_some_iff.mp hself
  simp only at hself
  split_ifs at hself
  · obtain rfl := Option.some.inj hself
    exact .refl h
  · obtain rfl := Option.some.inj hself
    exact keeps_applyOperationToSyncPoints { self with pendingWriteTree := T } h _

theorem keeps_ackUserWriteWithWriteId {self self' : FSyncTree κ σ}
    (h : self.syncPointTree.Ascending) {writeId : Int} {revert : Bool}
    (hself : self.ackUserWriteWithWriteId writeId revert = some self') :
    Keeps self.syncPointTree self'.syncPointTree := by
  obtain ⟨write, -, hself⟩ := Option.bind_eq_some_iff.mp hself
  obtain ⟨⟨needToReevaluate, T⟩, -, hself⟩ := Option.bind_eq_some_iff.mp hself
  simp only at hself
  split_ifs at hself
  · obtain rfl := Option.some.inj hself
    exact .refl h
  · obtain rfl := Option.some.inj hself
    exact keeps_applyOperationToSyncPoints { self with pendingWriteTree := T } h _

theorem keeps_removeAllWrites {self : FSyncTree κ σ} (h : self.syncPointTree.Ascending) :
    Keeps self.syncPointTree self.removeAllWrites.syncPointTree := by
  simp only [removeAllWrites]
  split_ifs
  · exact .refl h
  · exact keeps_applyOperationToSyncPoints
      { self with pendingWriteTree := self.pendingWriteTree.removeAllWrites.2 } h _

omit [LawfulComparators κ] in
theorem pendingWriteTree_removeAllWrites (self : FSyncTree κ σ) :
    self.removeAllWrites.pendingWriteTree = self.pendingWriteTree.removeAllWrites.2 := by
  simp only [removeAllWrites]
  split <;> rfl

/-! ### Views in step with the writes -/

/-- Every view is in step with the server's data and the pending writes, and the views below a
complete one are complete. -/
structure Synced (tree : FSyncTree κ σ) (server : Node κ σ) : Prop where
  layered : tree.pendingWriteTree.Layered
  visible : ∀ r ∈ tree.pendingWriteTree.allWrites, r.visible = true
  serves : tree.pendingWriteTree.Serves server
  ascending : tree.syncPointTree.Ascending
  views : ∀ p view, viewAt tree.syncPointTree p = some view →
    view.viewCache.InStep ⟨p, tree.pendingWriteTree⟩ server
  covering : ∀ p q view view', p <+: q → viewAt tree.syncPointTree p = some view →
    viewAt tree.syncPointTree q = some view' → Complete view → Complete view'

omit [LawfulComparators κ] in
/-- The view after an operation that concerns it from its path on. -/
theorem viewCache_viewAfter_of_append (operation : FOperation κ σ) {p r : List κ}
    (h : operation.path = p ++ r) (T : FWriteTree κ σ) (serverCache : Option (Node κ σ))
    (view : FView κ σ) : (viewAfter operation ⟨[], T⟩ p serverCache view).viewCache =
      applyOperationOn view.viewCache (operation.withPath r) ⟨p, T⟩ serverCache := by
  rw [viewAfter, FOperation.relativeTo_of_append h]
  rfl

omit [LawfulComparators κ] in
theorem viewCache_viewAfter_below (operation : FOperation κ σ) {p r : List κ}
    (h : p = operation.path ++ r) (T : FWriteTree κ σ) (serverCache : Option (Node κ σ))
    (view : FView κ σ) : (viewAfter operation ⟨[], T⟩ p serverCache view).viewCache =
      applyOperationOn view.viewCache (operation.below r) ⟨p, T⟩ serverCache := by
  rw [viewAfter, FOperation.relativeTo_below h]
  rfl

omit [LawfulComparators κ] in
theorem viewAfter_of_diverge (operation : FOperation κ σ) {p : List κ}
    (h : ¬ operation.path <+: p) (h' : ¬ p <+: operation.path) (writesCache : FWriteTreeRef κ σ)
    (serverCache : Option (Node κ σ)) (view : FView κ σ) :
    viewAfter operation writesCache p serverCache view = view := by
  rw [viewAfter, FOperation.relativeTo_of_diverge h h']

omit [DecidableEq σ] [LawfulComparators κ] in
/-- A path is shadowed by the writes at or above it. -/
theorem shadowingWrite_iff {T : FWriteTree κ σ} (h : T.Layered)
    (hvisible : ∀ r ∈ T.allWrites, r.visible = true) {p r : List κ} :
    FWriteTreeRef.shadowingWriteAtPath ⟨p, T⟩ r ≠ none ↔ ∃ u ∈ T.allWrites, u.path <+: p ++ r := by
  rw [FWriteTreeRef.shadowingWriteAtPath, Ne, ← CompoundWrite.patch_eq_none_iff, h.patch,
    FWriteTree.pending, List.filter_eq_self.mpr hvisible, Patch.ofWrites_eq_none_iff]
  simp [FWriteTree.shown]

omit [DecidableEq κ] [DecidableEq σ] [Comparators κ] [LawfulComparators κ] in
theorem Completes.mono {operation : FOperation κ σ} {p q : List κ} (hpq : p <+: q)
    (h : Completes operation p) : Completes operation q := by
  cases operation with
  | overwrite fromUser path snap =>
      cases fromUser with
      | false => exact List.IsPrefix.trans h hpq
      | true => exact h
  | ackUserWrite path revert => exact h
  | listenComplete path => exact List.IsPrefix.trans h hpq

/-- An operation that brings each view up to date keeps them in step. -/
theorem synced_applyOperationToSyncPoints {tree : FSyncTree κ σ} {server server' : Node κ σ}
    (h : tree.Synced server) {T : FWriteTree κ σ} (hlayered : T.Layered)
    (hvisible : ∀ r ∈ T.allWrites, r.visible = true) (hserves : T.Serves server')
    {operation : FOperation κ σ}
    (hviews : ∀ p view serverCache, viewAt tree.syncPointTree p = some view →
      view.viewCache.InStep ⟨p, tree.pendingWriteTree⟩ server →
        (viewAfter operation ⟨[], T⟩ p serverCache view).viewCache.InStep ⟨p, T⟩ server') :
    (({ tree with pendingWriteTree := T } : FSyncTree κ σ).applyOperationToSyncPoints
      operation).Synced server' := by
  obtain ⟨hasc, hview⟩ := view_applyOperationHelper h.ascending operation none ⟨[], T⟩
  have hold : ∀ {p view'}, viewAt (applyOperationHelper operation tree.syncPointTree none
      ⟨[], T⟩) p = some view' → ∃ view serverCache, viewAt tree.syncPointTree p = some view ∧
        viewAfter operation ⟨[], T⟩ p serverCache view = view' := by
    intro p view' hp
    obtain ⟨serverCache, happlied⟩ := hview p
    obtain ⟨view, hold, hafter⟩ := Option.map_eq_some_iff.mp (happlied.symm.trans hp)
    exact ⟨view, serverCache, hold, hafter⟩
  refine ⟨hlayered, hvisible, hserves, hasc, fun p view' hp => ?_,
    fun p q view' wiew' hpq hp hq hcomplete => ?_⟩
  · obtain ⟨view, serverCache, hold, rfl⟩ := hold hp
    exact hviews p view serverCache hold (h.views p view hold)
  · obtain ⟨view, serverCache, hp', rfl⟩ := hold hp
    obtain ⟨wiew, serverCache', hq', rfl⟩ := hold hq
    rw [complete_viewAfter] at hcomplete ⊢
    exact hcomplete.imp (h.covering p q view wiew hpq hp' hq') (Completes.mono hpq)

namespace Synced

variable {self : FSyncTree κ σ} {server : Node κ σ}

omit [DecidableEq κ] [DecidableEq σ] [LawfulComparators κ] in
theorem init : (init : FSyncTree κ σ).Synced .emptyNode where
  layered := .init
  visible := nofun
  serves := ⟨Node.wellFormed_emptyNode, nofun⟩
  ascending := ImmutableTree.ascending_empty
  views p view hp := by rw [FSyncTree.init, viewAt_empty] at hp; cases hp
  covering p q view view' _ hp := by rw [FSyncTree.init, viewAt_empty] at hp; cases hp

/-- **A user overwrite keeps the views in step.** -/
theorem applyUserOverwriteAtPath (h : self.Synced server) {path : List κ} {newData : Node κ σ}
    (hnew : newData.WellFormed) (hclear : server.view.ClearAbove path) {writeId : Int}
    {self' : FSyncTree κ σ}
    (hself : self.applyUserOverwriteAtPath path newData writeId true = some self') :
    self'.Synced server := by
  obtain ⟨T', hT, hself⟩ := Option.bind_eq_some_iff.mp hself
  obtain rfl := Option.some.inj hself
  have hlayered := h.layered.addOverwriteAtPath hnew hT
  obtain ⟨-, rfl⟩ := FWriteTree.addOverwriteAtPath_eq_some.mp hT
  obtain ⟨hdata, -⟩ := h.layered.eventData_spec h.serves
  set T := self.pendingWriteTree
  set T' : FWriteTree κ σ := ⟨if true then T.visibleWrites.addWrite newData path
    else T.visibleWrites, T.allWrites ++ [⟨path, newData, writeId, true⟩], writeId⟩ with hadded
  have hevent : T'.eventData server = (T.eventData server).updateChild path newData := by
    simp [hadded, FWriteTree.eventData, FWriteTree.after, CompoundWrite.updates]
  have hvisible : ∀ r ∈ T'.allWrites, r.visible = true :=
    List.forall_mem_append.mpr ⟨h.visible, by simp⟩
  have hserves : T'.Serves server :=
    ⟨h.serves.wellFormed, List.forall_mem_append.mpr ⟨h.serves.clear, by simpa using hclear⟩⟩
  have hshadow : ∀ p, FWriteTreeRef.shadowingWriteAtPath ⟨p, T'⟩ [] ≠ none →
      path <+: p ∨ FWriteTreeRef.shadowingWriteAtPath ⟨p, T⟩ [] ≠ none := by
    intro p
    rw [shadowingWrite_iff hlayered hvisible, shadowingWrite_iff h.layered h.visible,
      List.append_nil]
    rintro ⟨u, hu, hup⟩
    rcases List.mem_append.mp hu with hu | hu
    · exact .inr ⟨u, hu, hup⟩
    · obtain rfl := List.mem_singleton.mp hu
      exact .inl hup
  refine synced_applyOperationToSyncPoints h hlayered hvisible hserves
    fun p view serverCache _ hview => ?_
  have hchild := hdata.getChild p
  rcases position_cases path p with ⟨r, hr⟩ | ⟨r, hr⟩ | ⟨hpath, hp⟩
  · rw [viewCache_viewAfter_of_append (.overwrite true path newData) hr]
    refine hview.userOverwrite (S := ⟨p, T'⟩) hchild hnew rfl ?_ (fun hs => ?_) serverCache
    · rw [hevent, hr, hdata.getChild_updateChild_append]
    · refine (hshadow p hs).imp_left fun hle => ?_
      exact List.append_right_eq_self.mp ((hr ▸ hle).eq_of_length_le (by simp))
  · rw [viewCache_viewAfter_below (.overwrite true path newData) hr]
    refine hview.userOverwrite (S := ⟨p, T'⟩) hchild (hnew.getChild r) rfl ?_ (fun _ => .inl rfl) serverCache
    rw [hevent, hr, Node.getChild_append, hdata.getChild_updateChild_self, Node.updateChild_nil]
  · rw [viewAfter_of_diverge (.overwrite true path newData) hpath hp]
    refine hview.congr rfl ?_ fun hs => (hshadow p hs).resolve_left hpath
    rw [hevent, hdata.getChild_updateChild_of_diverge hpath hp]

/-- **A server overwrite keeps the views in step.** -/
theorem applyServerOverwriteAtPath (h : self.Synced server) {path : List κ} {newData : Node κ σ}
    (hnew : newData.WellFormed)
    (hserves : self.pendingWriteTree.Serves (server.updateChild path newData)) :
    (self.applyServerOverwriteAtPath path newData).Synced (server.updateChild path newData) := by
  obtain ⟨hdata, -⟩ := h.layered.eventData_spec h.serves
  have hupdate := h.layered.eventData_updateChild h.serves hnew hserves
  have hs := h.serves.wellFormed
  refine synced_applyOperationToSyncPoints h h.layered h.visible hserves
    fun p view serverCache _ hview => ?_
  rcases position_cases path p with ⟨r, hr⟩ | ⟨r, hr⟩ | ⟨hpath, hp⟩
  · rw [viewCache_viewAfter_of_append (.overwrite false path newData) hr]
    refine hview.serverOverwrite h.layered h.serves hserves hnew ?_ ?_ fun hshadow => ?_
    · rw [hr, hs.getChild_updateChild_append]
    · rw [hr] at hupdate ⊢
      rw [← hdata.getChild_updateChild_append, hupdate]
    · rw [FWriteTreeRef.shadowingWriteAtPath, ← hr] at hshadow
      rw [h.layered.eventData_of_shadowed h.serves hnew hserves hshadow]
  · rw [viewCache_viewAfter_below (.overwrite false path newData) hr]
    refine hview.serverOverwrite (r := []) h.layered h.serves hserves (hnew.getChild r) ?_ ?_
      fun hshadow => ?_
    · rw [hr, Node.getChild_append, hs.getChild_updateChild_self, Node.updateChild_nil]
    · rw [List.append_nil, Node.updateChild_nil]
    · obtain ⟨v, hv⟩ := Option.ne_none_iff_exists'.mp hshadow
      rw [FWriteTreeRef.shadowingWriteAtPath, List.append_nil] at hv
      exact (h.layered.complete_eq hserves hv).symm.trans (h.layered.complete_eq h.serves hv)
  · rw [viewAfter_of_diverge (.overwrite false path newData) hpath hp]
    refine hview.congr ?_ ?_ id
    · rw [hs.getChild_updateChild_of_diverge hpath hp]
    · rw [← hupdate, hdata.getChild_updateChild_of_diverge hpath hp]

/-- **The end of a listen keeps the views in step** when its data have come. -/
theorem applyListenCompleteAtPath (h : self.Synced server) {path : List κ} {view : FView κ σ}
    (hview : viewAt self.syncPointTree path = some view) (hcomplete : Complete view) :
    (self.applyListenCompleteAtPath path).Synced server := by
  refine synced_applyOperationToSyncPoints h h.layered h.visible h.serves
    fun p wiew serverCache hwiew hstep => ?_
  rcases position_cases path p with ⟨r, hr⟩ | ⟨r, hr⟩ | ⟨hpath, hp⟩
  · rw [viewCache_viewAfter_of_append (.listenComplete path) hr]
    refine hstep.listenComplete h.layered h.serves fun hnil => ?_
    rw [hnil, List.append_nil] at hr
    exact h.covering path p view wiew (hr ▸ List.prefix_rfl) hview hwiew hcomplete
  · rw [viewCache_viewAfter_below (.listenComplete path) hr]
    exact hstep.listenComplete h.layered h.serves fun _ =>
      h.covering path p view wiew ⟨r, hr.symm⟩ hview hwiew hcomplete
  · rwa [viewAfter_of_diverge (.listenComplete path) hpath hp]

/-- What an acknowledgement or a revert does to one view, when the removed write changed the patch
only from its path on and nowhere that is shadowed still. -/
theorem viewAfter_ackUserWrite {T T' : FWriteTree κ σ} (h : T.Layered) (hs : T.Serves server)
    (h' : T'.Layered) (hs' : T'.Serves server) {path : List κ}
    (hagree : Patch.AgreeOff path T.visibleWrites.patch T'.visibleWrites.patch)
    (hnone : T'.visibleWrites.completeNodeAtPath path = none)
    (hcovered : ∀ p, T'.visibleWrites.patch p ≠ none → T.visibleWrites.patch p =
      T'.visibleWrites.patch p) (revert : Bool) {p : List κ} {view : FView κ σ}
    (hview : view.viewCache.InStep ⟨p, T⟩ server) (serverCache : Option (Node κ σ)) :
    (viewAfter (.ackUserWrite path revert) ⟨[], T'⟩ p serverCache view).viewCache.InStep ⟨p, T'⟩
      server := by
  obtain ⟨hwf, hdata⟩ := h.eventData_spec hs
  obtain ⟨-, hdata'⟩ := h'.eventData_spec hs'
  have hcovered' : ∀ {p}, FWriteTreeRef.shadowingWriteAtPath ⟨p, T'⟩ [] ≠ none →
      FWriteTreeRef.shadowingWriteAtPath ⟨p, T⟩ [] ≠ none := by
    intro p hshadow
    rw [FWriteTreeRef.shadowingWriteAtPath, Ne, ← CompoundWrite.patch_eq_none_iff] at hshadow ⊢
    exact hcovered _ hshadow ▸ hshadow
  rcases position_cases path p with ⟨r, hr⟩ | ⟨r, hr⟩ | ⟨hpath, hp⟩
  · rw [viewCache_viewAfter_of_append (.ackUserWrite path revert) hr]
    have hoff : AgreesOff ((T.eventData server).getChild p) r ((T'.eventData server).getChild p) := by
      intro q hq
      have hpq : ¬ path <+: p ++ q := hr ▸ mt (List.prefix_append_right_inj p).mp hq
      rw [Node.view_getChild, Node.view_getChild, hdata, hdata', View.below, View.below,
        Patch.overlay, Patch.overlay, hagree _ hpq]
    have hnone' : FWriteTreeRef.shadowingWriteAtPath ⟨p, T'⟩ r = none := by
      rw [FWriteTreeRef.shadowingWriteAtPath, ← hr, hnone]
    have hboth := hview.ackUserWrite (S := ⟨p, T'⟩) h hs h' hs' rfl hoff (.inl hnone')
    cases revert with
    | false => exact hboth.1
    | true => exact hboth.2
  · rw [viewCache_viewAfter_below (.ackUserWrite path revert) hr]
    have hoff : AgreesOff ((T.eventData server).getChild p) [] ((T'.eventData server).getChild p) :=
      fun q hq => absurd List.nil_prefix hq
    have hcase : FWriteTreeRef.shadowingWriteAtPath ⟨p, T'⟩ [] = none ∨
        FWriteTreeRef.shadowingWriteAtPath ⟨p, T'⟩ [] ≠ none ∧
          FWriteTreeRef.shadowingWriteAtPath ⟨p, T⟩ [] ≠ none ∧
            (T'.eventData server).getChild p = (T.eventData server).getChild p := by
      cases hshadow : FWriteTreeRef.shadowingWriteAtPath ⟨p, T'⟩ [] with
      | none => exact .inl rfl
      | some v =>
          have hne : FWriteTreeRef.shadowingWriteAtPath ⟨p, T'⟩ [] ≠ none := by simp [hshadow]
          refine .inr ⟨by simp, hcovered' hne, ?_⟩
          -- The view keeps what it shows, which a later write covers.
          refine (h.getChild_eventData_congr hs h' hs' fun q => hcovered _ fun hq => ?_).symm
          rw [FWriteTreeRef.shadowingWriteAtPath, List.append_nil] at hshadow
          rw [CompoundWrite.patch_eq_none_iff, CompoundWrite.completeNodeAtPath_append hshadow] at hq
          cases hq
    have hboth := hview.ackUserWrite (S := ⟨p, T'⟩) h hs h' hs' rfl hoff hcase
    cases revert with
    | false => exact hboth.1
    | true => exact hboth.2
  · rw [viewAfter_of_diverge (.ackUserWrite path revert) hpath hp]
    refine hview.congr rfl ?_ hcovered'
    refine (h.getChild_eventData_congr hs h' hs' fun q => hagree _ fun hq => ?_).symm
    exact (List.prefix_or_prefix_of_prefix hq (List.prefix_append p q)).elim hpath hp

/-- Removing all writes shows the server's data again. -/
theorem removeAllWrites (h : self.Synced server) : self.removeAllWrites.Synced server := by
  set T' := self.pendingWriteTree.removeAllWrites.2 with hT'
  have hlayered : T'.Layered := .removeAllWrites self.pendingWriteTree
  have hserves : T'.Serves server := ⟨h.serves.wellFormed, nofun⟩
  have hnone : ∀ p : List κ, (CompoundWrite.emptyWrite : CompoundWrite κ σ).patch p = none :=
    fun p => by rw [CompoundWrite.patch_emptyWrite]; rfl
  simp only [FSyncTree.removeAllWrites]
  split_ifs with hempty
  · have hall : self.pendingWriteTree.allWrites = [] := List.isEmpty_iff.mp hempty
    have hevent : T'.eventData server = self.pendingWriteTree.eventData server := by
      rw [FWriteTree.eventData, FWriteTree.eventData, hall]
      rfl
    refine ⟨hlayered, nofun, hserves, h.ascending, fun p view hp => ?_, h.covering⟩
    refine (h.views p view hp).congr rfl (congrArg (·.getChild p) hevent) fun hs => ?_
    exact absurd (CompoundWrite.patch_eq_none_iff.mp (hnone _)) hs
  · refine synced_applyOperationToSyncPoints h hlayered nofun hserves
      fun p view serverCache _ hview => ?_
    have hagree : Patch.AgreeOff [] self.pendingWriteTree.visibleWrites.patch
        T'.visibleWrites.patch := fun q hq => absurd List.nil_prefix hq
    exact viewAfter_ackUserWrite h.layered h.serves hlayered hserves hagree
      (CompoundWrite.patch_eq_none_iff.mp (hnone _)) (fun q hq => absurd (hnone q) hq) true hview
      serverCache

/-- **An acknowledgement or a revert keeps the views in step** when every earlier pending write is
apart from the removed one. -/
theorem ackUserWriteWithWriteId (h : self.Synced server) {writeId : Int} {revert : Bool}
    {self' : FSyncTree κ σ} (hself : self.ackUserWriteWithWriteId writeId revert = some self')
    (hapart : ∀ pre w post, self.pendingWriteTree.allWrites = pre ++ w :: post →
      w.writeId = writeId → ∀ u ∈ pre, ¬ u.path <+: w.path ∧ ¬ w.path <+: u.path) :
    self'.Synced server := by
  obtain ⟨write, hwrite, hself⟩ := Option.bind_eq_some_iff.mp hself
  obtain ⟨⟨needToReevaluate, T'⟩, hremove, hself⟩ := Option.bind_eq_some_iff.mp hself
  obtain ⟨pre, w, post, hlayered, hapart, hremoved, hw, hpre⟩ :=
    h.layered.removesApart h.visible hremove hapart
  have hsub : (pre ++ post).Sublist self.pendingWriteTree.allWrites :=
    hapart.all ▸ (List.Sublist.refl pre).append (List.sublist_cons_self w post)
  have hvisible : ∀ r ∈ T'.allWrites, r.visible = true := fun r hr =>
    h.visible r (hsub.subset (hapart.rest ▸ hr))
  have hserves : T'.Serves server :=
    ⟨h.serves.wellFormed, fun r hr => h.serves.clear r (hsub.subset (hapart.rest ▸ hr))⟩
  obtain rfl : write = w := by
    rw [hapart.all, List.find?_append, List.find?_eq_none.mpr (by simpa using hpre)] at hwrite
    simpa [List.find?_cons, hw] using hwrite.symm
  cases hflag : needToReevaluate with
  | false =>
      obtain rfl : { self with pendingWriteTree := T' } = self' := by simpa [hflag] using hself
      have hsame : self.pendingWriteTree.visibleWrites.patch = T'.visibleWrites.patch := by
        cases hremoved with
        | hidden hhidden =>
            have hvis := h.visible write (hapart.all ▸ by simp)
            simp [hhidden] at hvis
        | shadowed hvis u hu huv hup => exact hapart.patch_of_shadowed hu hup
        | rebuilt => cases hflag
        | cut => cases hflag
      refine ⟨hlayered, hvisible, hserves, h.ascending, fun p view hp => ?_, h.covering⟩
      refine (h.views p view hp).congr rfl ?_ fun hs => ?_
      · exact (h.layered.getChild_eventData_congr h.serves hlayered hserves
          fun q => congrFun hsame _).symm
      · rw [FWriteTreeRef.shadowingWriteAtPath, Ne, ← CompoundWrite.patch_eq_none_iff] at hs ⊢
        rwa [hsame]
  | true =>
      obtain rfl : ({ self with pendingWriteTree := T' } : FSyncTree κ σ).applyOperationToSyncPoints
          (.ackUserWrite write.path revert) = self' := by simpa [hflag] using hself
      have hpost : ∀ u ∈ post, ¬ u.path <+: write.path := by
        intro u hu
        have hvis := hvisible u (hapart.rest ▸ List.mem_append_right pre hu)
        cases hremoved with
        | hidden => cases hflag
        | shadowed => cases hflag
        | rebuilt _ hpost => exact hpost u hu hvis
        | cut _ hpost _ => exact hpost u hu hvis
      exact synced_applyOperationToSyncPoints h hlayered hvisible hserves
        fun p view serverCache _ hview => viewAfter_ackUserWrite h.layered h.serves hlayered hserves
          hapart.agreeOff (hapart.completeNode_eq_none hpost) (fun q hq => hapart.covered hq) revert
          hview serverCache

end Synced

/-- **The first pending write can be acknowledged or reverted**, and views in step stay so. -/
theorem exists_ackUserWrite {tree : FSyncTree κ σ} {w : FWriteRecord κ σ}
    {ws : List (FWriteRecord κ σ)} (hall : tree.pendingWriteTree.allWrites = w :: ws)
    (hids : tree.pendingWriteTree.allWrites.Pairwise (·.writeId < ·.writeId)) (revert : Bool) :
    ∃ tree', tree.ackUserWriteWithWriteId w.writeId revert = some tree' ∧
      tree'.pendingWriteTree.allWrites = ws ∧
      (∀ n, -1 < n → tree.pendingWriteTree.lastWriteId < n → (∀ u ∈ ws, u.writeId < n) →
        tree'.pendingWriteTree.lastWriteId < n) ∧
      (tree.syncPointTree.Ascending → Keeps tree.syncPointTree tree'.syncPointTree) ∧
      ∀ server, tree.Synced server → tree'.Synced server := by
  obtain ⟨⟨needToReevaluate, T⟩, hr, hremoved⟩ := FWriteTree.exists_removeFirst hall hids
  have hrest : T.allWrites = ws := FWriteTree.removed_allWrites hremoved
  obtain ⟨tree', htree, htree'⟩ : ∃ tree', tree.ackUserWriteWithWriteId w.writeId revert =
      some tree' ∧ tree'.pendingWriteTree = T := by
    simp only [ackUserWriteWithWriteId, hr, hall, List.find?_cons, beq_self_eq_true,
      Option.bind_eq_bind, Option.bind_some]
    split_ifs <;> exact ⟨_, rfl, rfl⟩
  refine ⟨tree', htree, htree' ▸ hrest, fun n hn hlast hws => ?_,
    fun hasc => keeps_ackUserWriteWithWriteId hasc htree, fun server hs => ?_⟩
  · rw [htree']
    exact FWriteTree.removed_lastWriteId hremoved hn hlast hws
  · refine hs.ackUserWriteWithWriteId htree fun pre u post hsplit hu => ?_
    rw [hall] at hids hsplit
    obtain ⟨rfl, -⟩ := FWriteTree.eq_first hids hsplit hu
    nofun

end FSyncTree
end ZipR
