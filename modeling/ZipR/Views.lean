import ZipR.WriteTree

/-! # Views of the cache

`FView` and `FViewProcessor` for the default query: the view keeps what is known of the server's data
and, beside it, what its listeners are shown, and brings both up to date at each operation by
touching only the child the operation is about.  Events and their listeners are not modelled.

* **Caches.** A cache may be incomplete: until the first data come, the server cache has only the
  children that other views knew, and the event cache those that are written.
* **Operations.** `applyServerOverwriteTo`, `applyUserOverwriteTo`, `ackUserWriteOn`,
  `revertUserWriteOn` and `listenCompleteOldCache`, for paths below the view.
* **The shortcut.** `updateChildIn` compares the child only at the affected path; it is an update of
  the child when the new one differs from the old one only there (`updateChildIn_eq`).
* **Specs.** `InStep` says that a complete cache shows the server's data after the pending writes,
  and one that a pending write covers shows that write; each operation keeps it. -/

namespace ZipR

open Std Patches Comparators

variable {κ σ : Type} [DecidableEq κ] [DecidableEq σ] [Comparators κ]

/-- Neither cache is filtered. -/
@[ext]
structure FViewCache (κ σ : Type) where
  cachedEventSnap : FCacheNode κ σ
  cachedServerSnap : FCacheNode κ σ

namespace FViewCache

def updateEventSnap (self : FViewCache κ σ) (eventSnap : Node κ σ) (complete : Bool) :
    FViewCache κ σ := { self with cachedEventSnap := ⟨eventSnap, complete⟩ }

def updateServerSnap (self : FViewCache κ σ) (serverSnap : Node κ σ) (complete : Bool) :
    FViewCache κ σ := { self with cachedServerSnap := ⟨serverSnap, complete⟩ }

def completeServerSnap (self : FViewCache κ σ) : Option (Node κ σ) :=
  if self.cachedServerSnap.isFullyInitialized then some self.cachedServerSnap.node else none

/-- Both caches are complete. -/
def whole (event server : Node κ σ) : FViewCache κ σ := ⟨⟨event, true⟩, ⟨server, true⟩⟩

end FViewCache

structure FWriteTreeRef (κ σ : Type) where
  path : List κ
  writeTree : FWriteTree κ σ

namespace FWriteTreeRef

def shadowingWriteAtPath (self : FWriteTreeRef κ σ) (path : List κ) : Option (Node κ σ) :=
  self.writeTree.visibleWrites.completeNodeAtPath (self.path ++ path)

def calculateCompleteEventCacheWithCompleteServerCache (self : FWriteTreeRef κ σ)
    (completeServerCache : Option (Node κ σ)) : Option (Node κ σ) :=
  self.writeTree.calculateCompleteEventCacheAtPath self.path completeServerCache none false

def calculateCompleteEventChildrenWithCompleteServerChildren (self : FWriteTreeRef κ σ)
    (completeServerChildren : Node κ σ) : Node κ σ :=
  self.writeTree.calculateCompleteEventChildrenAtPath self.path completeServerChildren

def calculateEventCacheAfterServerOverwriteWithChildPath (self : FWriteTreeRef κ σ)
    (childPath : List κ) (existingServerSnap : Node κ σ) : Option (Node κ σ) :=
  self.writeTree.calculateEventCacheAfterServerOverwriteAtPath self.path childPath
    existingServerSnap

def calculateCompleteChild (self : FWriteTreeRef κ σ) (childKey : κ) (cache : FCacheNode κ σ) :
    Option (Node κ σ) := self.writeTree.calculateCompleteChildAtPath self.path childKey cache

def childWriteTreeRef (self : FWriteTreeRef κ σ) (childKey : κ) : FWriteTreeRef κ σ :=
  ⟨self.path ++ [childKey], self.writeTree⟩

end FWriteTreeRef

namespace FIndexedFilter

def updateChildIn (node : Node κ σ) (childKey : κ) (newChildSnap : Node κ σ)
    (affectedPath : List κ) : Node κ σ :=
  let oldChildSnap := node.getImmediateChild childKey
  if (oldChildSnap.getChild affectedPath).isEqual (newChildSnap.getChild affectedPath)
      && oldChildSnap.isEmpty == newChildSnap.isEmpty then node
  else if node.isLeafNode && newChildSnap.isEmpty then node
  else node.updateImmediateChild childKey newChildSnap

end FIndexedFilter

/-- A child as `FWriteTreeCompleteChildSource` completes it, if it can. -/
def completeChild (writes : FWriteTreeRef κ σ) (viewCache : FViewCache κ σ)
    (optCompleteServerCache : Option (Node κ σ)) (childKey : κ) : Option (Node κ σ) :=
  let node := viewCache.cachedEventSnap
  if node.isCompleteForChild childKey then some (node.node.getImmediateChild childKey)
  else
    let serverNode :=
      match optCompleteServerCache with
      | some optCompleteServerCache => ⟨optCompleteServerCache, true⟩
      | none => viewCache.cachedServerSnap
    writes.calculateCompleteChild childKey serverNode

namespace FViewProcessor

open FIndexedFilter

/-- Its assertion, that the server cache is complete when the path is empty, cannot fail: who calls
it so has just completed the cache. -/
def generateEventCacheAfterServerEvent (viewCache : FViewCache κ σ) (changePath : List κ)
    (writesCache : FWriteTreeRef κ σ) : FViewCache κ σ :=
  let oldEventSnap := viewCache.cachedEventSnap
  if (writesCache.shadowingWriteAtPath changePath).isSome then viewCache
  else
    match changePath with
    | [] =>
        let nodeWithLocalWrites := writesCache.calculateCompleteEventCacheWithCompleteServerCache
          viewCache.completeServerSnap
        viewCache.updateEventSnap (nodeWithLocalWrites.getD .emptyNode) true
    | childKey :: childChangePath =>
        let oldEventChild := oldEventSnap.node.getImmediateChild childKey
        let newEventChild :=
          if oldEventSnap.isCompleteForChild childKey then
            match writesCache.calculateEventCacheAfterServerOverwriteWithChildPath
              (childKey :: childChangePath) viewCache.cachedServerSnap.node with
            | some eventChildUpdate =>
                some (oldEventChild.updateChild childChangePath eventChildUpdate)
            | none => some oldEventChild
          else writesCache.calculateCompleteChild childKey viewCache.cachedServerSnap
        let newEventCache :=
          match newEventChild with
          | some newEventChild =>
              updateChildIn oldEventSnap.node childKey newEventChild childChangePath
          | none => oldEventSnap.node
        viewCache.updateEventSnap newEventCache oldEventSnap.isFullyInitialized

/-- Incomplete children are not updated with what is meant for other listeners. -/
def applyServerOverwriteTo (oldViewCache : FViewCache κ σ) (changePath : List κ)
    (changedSnap : Node κ σ) (writesCache : FWriteTreeRef κ σ) : FViewCache κ σ :=
  let oldServerSnap := oldViewCache.cachedServerSnap
  match changePath with
  | [] =>
      generateEventCacheAfterServerEvent (oldViewCache.updateServerSnap changedSnap true) []
        writesCache
  | childKey :: childChangePath =>
      if !oldServerSnap.isCompleteForPath (childKey :: childChangePath)
          && decide (1 < (childKey :: childChangePath).length) then oldViewCache
      else
        let childNode := oldServerSnap.node.getImmediateChild childKey
        let newChildNode := childNode.updateChild childChangePath changedSnap
        let newServerCache := updateChildIn oldServerSnap.node childKey newChildNode childChangePath
        generateEventCacheAfterServerEvent
          (oldViewCache.updateServerSnap newServerCache oldServerSnap.isFullyInitialized)
          (childKey :: childChangePath) writesCache

def applyUserOverwriteTo (oldViewCache : FViewCache κ σ) (changePath : List κ)
    (changedSnap : Node κ σ) (writesCache : FWriteTreeRef κ σ)
    (optCompleteCache : Option (Node κ σ)) : FViewCache κ σ :=
  let oldEventSnap := oldViewCache.cachedEventSnap
  match changePath with
  | [] => oldViewCache.updateEventSnap changedSnap true
  | childKey :: childChangePath =>
      let oldChild := oldEventSnap.node.getImmediateChild childKey
      let newChild :=
        match childChangePath with
        | [] => changedSnap
        | _ :: _ =>
            match completeChild writesCache oldViewCache optCompleteCache childKey with
            | some childNode => childNode.updateChild childChangePath changedSnap
            | none => .emptyNode
      if !oldChild.isEqual newChild then
        oldViewCache.updateEventSnap
          (updateChildIn oldEventSnap.node childKey newChild childChangePath)
          oldEventSnap.isFullyInitialized
      else oldViewCache

/-- For an acknowledged overwrite.  An incomplete cache gets the children it has once more, as the
merge that `applyServerMergeTo` applies child by child. -/
def ackUserWriteOn (viewCache : FViewCache κ σ) (ackPath : List κ)
    (writesCache : FWriteTreeRef κ σ) : FViewCache κ σ :=
  let serverCache := viewCache.cachedServerSnap
  if (writesCache.shadowingWriteAtPath ackPath).isSome then viewCache
  else if serverCache.isCompleteForPath ackPath then
    applyServerOverwriteTo viewCache ackPath (serverCache.node.getChild ackPath) writesCache
  else if ackPath.isEmpty then
    serverCache.node.entries.foldl (fun curViewCache child =>
      applyServerOverwriteTo curViewCache [child.1] child.2 writesCache) viewCache
  else viewCache

def revertUserWriteOn (viewCache : FViewCache κ σ) (path : List κ)
    (writesCache : FWriteTreeRef κ σ) : FViewCache κ σ :=
  let serverSnap := viewCache.cachedServerSnap
  if (writesCache.shadowingWriteAtPath path).isSome then viewCache
  else
    let oldEventCache := viewCache.cachedEventSnap.node
    let complete := writesCache.calculateCompleteEventCacheWithCompleteServerCache
      viewCache.completeServerSnap
    let newEventCache :=
      match path with
      | [] =>
          if serverSnap.isFullyInitialized then complete.getD .emptyNode
          else writesCache.calculateCompleteEventChildrenWithCompleteServerChildren serverSnap.node
      | childKey :: childPath =>
          let newChild :=
            match writesCache.calculateCompleteChild childKey serverSnap with
            | some newChild => some newChild
            | none =>
                if serverSnap.isCompleteForChild childKey then
                  some (oldEventCache.getImmediateChild childKey)
                else none
          let newEventCache :=
            match newChild with
            | some newChild => updateChildIn oldEventCache childKey newChild childPath
            | none =>
                if oldEventCache.hasChild childKey then
                  updateChildIn oldEventCache childKey .emptyNode childPath
                else oldEventCache
          if newEventCache.isEmpty && serverSnap.isFullyInitialized
              && (complete.getD .emptyNode).isLeafNode then complete.getD .emptyNode
          else newEventCache
    viewCache.updateEventSnap newEventCache
      (serverSnap.isFullyInitialized || (writesCache.shadowingWriteAtPath []).isSome)

def listenCompleteOldCache (viewCache : FViewCache κ σ) (path : List κ)
    (writesCache : FWriteTreeRef κ σ) : FViewCache κ σ :=
  let oldServerNode := viewCache.cachedServerSnap
  generateEventCacheAfterServerEvent
    (viewCache.updateServerSnap oldServerNode.node
      (oldServerNode.isFullyInitialized || path.isEmpty)) path writesCache

/-! ### Updates of one child -/

section specs
variable [LawfulComparators κ]

omit [DecidableEq κ] in
/-- **The comparison at the affected path suffices** when the children are equal as soon as they
agree there. -/
theorem updateChildIn_eq {n new : Node κ σ} (hn : n.WellFormed) (hnew : new.WellFormed) {k : κ}
    {p : List κ}
    (h : (n.getImmediateChild k).getChild p = new.getChild p → n.getImmediateChild k = new) :
    updateChildIn n k new p = n.updateImmediateChild k new := by
  have hold := hn.getImmediateChild k
  rw [updateChildIn]
  split_ifs with hequal hleaf
  · rw [Bool.and_eq_true, Node.isEqual_iff (hold.getChild p) (hnew.getChild p)] at hequal
    rw [← h hequal.1, hn.updateImmediateChild_self]
  · rw [Bool.and_eq_true] at hleaf
    cases n with
    | leaf value => rw [Node.updateImmediateChild, if_pos hleaf.2]
    | children entries => cases hleaf.1
  · rfl

omit [DecidableEq κ] in
theorem updateChildIn_updateChild {n new : Node κ σ} (hn : n.WellFormed) (hnew : new.WellFormed)
    (k : κ) (p : List κ) :
    updateChildIn n k ((n.getImmediateChild k).updateChild p new) p = n.updateChild (k :: p) new := by
  have hold := hn.getImmediateChild k
  rw [updateChildIn_eq hn (hold.updateChild p hnew), Node.updateChild_cons]
  intro hagree
  rw [hold.getChild_updateChild_self] at hagree
  rw [← hagree, hold.updateChild_self]

/-! ### What the operations do to complete caches -/

variable {c : FViewCache κ σ} {R : FWriteTreeRef κ σ} {server e s : Node κ σ}

/-- The children of a complete cache are brought up to date one by one. -/
theorem generate_whole (h : R.writeTree.Layered) (hs : R.writeTree.Serves server)
    (hevent : e.WellFormed) (p : List κ) :
    generateEventCacheAfterServerEvent (.whole e (server.getChild R.path)) p R =
      .whole (if (R.shadowingWriteAtPath p).isSome then e
        else e.updateChild p ((R.writeTree.eventData server).getChild (R.path ++ p)))
          (server.getChild R.path) := by
  unfold generateEventCacheAfterServerEvent
  split_ifs with hshadow
  · rfl
  · cases p with
    | nil =>
        have hcache := (FWriteTree.calculateCompleteEventCacheAtPath_eq h hs R.path).1
        simp only [FViewCache.completeServerSnap, FViewCache.whole, if_true,
          FWriteTreeRef.calculateCompleteEventCacheWithCompleteServerCache, hcache,
          Option.getD_some, List.append_nil, Node.updateChild_nil]
        rfl
    | cons k p =>
        have hnone : R.writeTree.visibleWrites.completeNodeAtPath (R.path ++ k :: p) = none :=
          Option.not_isSome_iff_eq_none.mp hshadow
        have hdata := ((h.eventData_spec hs).1.getChild (R.path ++ k :: p))
        simp only [FViewCache.whole, FCacheNode.isCompleteForChild, Bool.true_or, if_true,
          FWriteTreeRef.calculateEventCacheAfterServerOverwriteWithChildPath,
          FWriteTree.calculateEventCacheAfterServerOverwriteAtPath_eq h hs hnone,
          updateChildIn_updateChild hevent hdata k p]
        rfl

/-- At the root the event data take the place of the event cache. -/
theorem generate_root (h : R.writeTree.Layered) (hs : R.writeTree.Serves server)
    (hshadow : R.shadowingWriteAtPath [] = none) :
    generateEventCacheAfterServerEvent (c.updateServerSnap (server.getChild R.path) true) [] R =
      .whole ((R.writeTree.eventData server).getChild R.path) (server.getChild R.path) := by
  have hcache := (FWriteTree.calculateCompleteEventCacheAtPath_eq h hs R.path).1
  simp only [generateEventCacheAfterServerEvent, hshadow, Option.isSome_none, Bool.false_eq_true,
    if_false, FViewCache.completeServerSnap, FViewCache.updateServerSnap, if_true,
    FWriteTreeRef.calculateCompleteEventCacheWithCompleteServerCache, hcache, Option.getD_some]
  rfl

/-- A server overwrite updates the server cache, and the event cache unless it is shadowed. -/
theorem applyServerOverwriteTo_whole (h : R.writeTree.Layered) (hs : R.writeTree.Serves server)
    (hserver : s.WellFormed) (hevent : e.WellFormed) {p : List κ} {snap : Node κ σ}
    (hsnap : snap.WellFormed) (hnew : s.updateChild p snap = server.getChild R.path) :
    applyServerOverwriteTo (.whole e s) p snap R =
      .whole (if (R.shadowingWriteAtPath p).isSome then e
        else e.updateChild p ((R.writeTree.eventData server).getChild (R.path ++ p)))
          (server.getChild R.path) := by
  rw [← generate_whole h hs hevent]
  cases p with
  | nil =>
      rw [Node.updateChild_nil] at hnew
      rw [applyServerOverwriteTo, hnew]
      rfl
  | cons k p =>
      simp only [applyServerOverwriteTo, FCacheNode.isCompleteForPath, FCacheNode.isCompleteForChild,
        FViewCache.whole, Bool.true_or, Bool.not_true, Bool.false_and, Bool.false_eq_true, if_false,
        updateChildIn_updateChild hserver hsnap k p, hnew]
      rfl

omit [DecidableEq κ] in
/-- A user overwrite updates an event cache that is complete. -/
theorem applyUserOverwriteTo_eq (hc : c.cachedEventSnap = ⟨e, true⟩) (hevent : e.WellFormed)
    (p : List κ) {snap : Node κ σ} (hsnap : snap.WellFormed) (R : FWriteTreeRef κ σ)
    (optCompleteCache : Option (Node κ σ)) :
    applyUserOverwriteTo c p snap R optCompleteCache =
      c.updateEventSnap (e.updateChild p snap) true := by
  cases p with
  | nil => rw [Node.updateChild_nil, applyUserOverwriteTo]
  | cons k p =>
      have hold := hevent.getImmediateChild k
      have hnew : (match p with
          | [] => snap
          | _ :: _ =>
              match completeChild R c optCompleteCache k with
              | some childNode => childNode.updateChild p snap
              | none => .emptyNode) = (e.getImmediateChild k).updateChild p snap := by
        cases p with
        | nil => rw [Node.updateChild_nil]
        | cons l p => simp only [completeChild, hc, FCacheNode.isCompleteForChild, Bool.true_or, if_true]
      simp only [applyUserOverwriteTo, hnew, hc]
      split_ifs with hne
      · rw [updateChildIn_updateChild hevent hsnap k p]
      · rw [Bool.not_eq_true', Bool.not_eq_false, Node.isEqual_iff hold (hold.updateChild p hsnap)]
          at hne
        rw [Node.updateChild_cons, ← hne, hevent.updateImmediateChild_self, FViewCache.updateEventSnap,
          ← hc]

/-- A node agrees off a path with what it becomes. -/
def AgreesOff (n : Node κ σ) (p : List κ) (m : Node κ σ) : Prop :=
  ∀ q, ¬ p <+: q → n.view q = m.view q

omit [DecidableEq κ] [DecidableEq σ] in
theorem AgreesOff.updateChild {m : Node κ σ} {p : List κ} (h : AgreesOff e p m)
    (hevent : e.WellFormed) (hm : m.WellFormed) : e.updateChild p (m.getChild p) = m :=
  Node.updateChild_eq hevent hm (fun q hp _ => h q hp) fun q hq hne _ => h q fun hp =>
    hne (hq.eq_of_length_le hp.length_le)

/-- An acknowledgement brings the event data to the path of the write, unless it is shadowed. -/
theorem ackUserWriteOn_whole (h : R.writeTree.Layered) (hs : R.writeTree.Serves server)
    (hevent : e.WellFormed) {p : List κ}
    (hagree : AgreesOff e p ((R.writeTree.eventData server).getChild R.path))
    (hshadow : R.shadowingWriteAtPath p = none) :
    ackUserWriteOn (.whole e (server.getChild R.path)) p R =
      .whole ((R.writeTree.eventData server).getChild R.path) (server.getChild R.path) := by
  have hserver : (server.getChild R.path).WellFormed := hs.wellFormed.getChild _
  have hcomplete : (FCacheNode.mk (server.getChild R.path) true).isCompleteForPath p = true := by
    cases p <;> rfl
  have hdata := applyServerOverwriteTo_whole h hs hserver hevent (hserver.getChild p)
    (hserver.updateChild_self p)
  rw [hshadow, Option.isSome_none, if_neg Bool.false_ne_true, Node.getChild_append,
    hagree.updateChild hevent ((h.eventData_spec hs).1.getChild _)] at hdata
  simp only [ackUserWriteOn, hshadow, Option.isSome_none, Bool.false_eq_true, if_false,
    FViewCache.whole, hcomplete, if_true]
  exact hdata

/-- So does a reverted write. -/
theorem revertUserWriteOn_whole (h : R.writeTree.Layered) (hs : R.writeTree.Serves server)
    (hevent : e.WellFormed) {p : List κ}
    (hagree : AgreesOff e p ((R.writeTree.eventData server).getChild R.path))
    (hshadow : R.shadowingWriteAtPath p = none) :
    revertUserWriteOn (.whole e (server.getChild R.path)) p R =
      .whole ((R.writeTree.eventData server).getChild R.path) (server.getChild R.path) := by
  have hdata := (h.eventData_spec hs).1.getChild R.path
  have hcache := (FWriteTree.calculateCompleteEventCacheAtPath_eq h hs R.path).1
  cases p with
  | nil =>
      simp only [revertUserWriteOn, hshadow, Option.isSome_none, Bool.false_eq_true, if_false,
        FViewCache.whole, FViewCache.completeServerSnap, if_true,
        FWriteTreeRef.calculateCompleteEventCacheWithCompleteServerCache, hcache, Option.getD_some,
        Bool.or_false]
      rfl
  | cons k p =>
      have hchild := FWriteTree.calculateCompleteChildAtPath_eq h hs R.path k
      have hagree' : AgreesOff e [k] ((R.writeTree.eventData server).getChild R.path) :=
        fun q hq => hagree q fun hp => hq ((List.prefix_append [k] p).trans hp)
      have hupdate := hagree'.updateChild hevent hdata
      rw [Node.updateChild_cons, Node.updateChild_nil, ← Node.getChild_append] at hupdate
      have hnew : updateChildIn e k ((R.writeTree.eventData server).getChild (R.path ++ [k])) p =
          (R.writeTree.eventData server).getChild R.path := by
        rw [updateChildIn_eq hevent ((h.eventData_spec hs).1.getChild _), hupdate]
        intro heq
        refine (hevent.getImmediateChild k).ext ((h.eventData_spec hs).1.getChild _) ?_
        funext q
        by_cases hq : p <+: q
        · obtain ⟨r, rfl⟩ := hq
          rw [Node.view, Node.view, Node.getChild_append, heq, ← Node.getChild_append]
        · have hview := hagree (k :: q) fun hp => hq (List.cons_prefix_cons.mp hp).2
          rw [Node.view, Node.getChild_cons] at hview
          rw [Node.view, hview, Node.view, Node.view, ← Node.getChild_append,
            ← Node.getChild_append, List.append_assoc]
          rfl
      simp only [revertUserWriteOn, hshadow, Option.isSome_none, Bool.false_eq_true, if_false,
        FViewCache.whole, FViewCache.completeServerSnap, if_true, Bool.and_true,
        FWriteTreeRef.calculateCompleteEventCacheWithCompleteServerCache, hcache, Option.getD_some,
        FWriteTreeRef.calculateCompleteChild, hchild, hnew, ite_self, Bool.true_or]
      rfl

/-! ### What the operations leave alone -/

omit [LawfulComparators κ] in
@[simp] theorem serverSnap_generate (c : FViewCache κ σ) (p : List κ) (R : FWriteTreeRef κ σ) :
    (generateEventCacheAfterServerEvent c p R).cachedServerSnap = c.cachedServerSnap := by
  unfold generateEventCacheAfterServerEvent
  split_ifs
  · rfl
  · cases p <;> rfl

omit [LawfulComparators κ] in
/-- Only the first data complete a server cache. -/
theorem isFullyInitialized_applyServerOverwriteTo (c : FViewCache κ σ) (p : List κ)
    (snap : Node κ σ) (R : FWriteTreeRef κ σ) :
    (applyServerOverwriteTo c p snap R).cachedServerSnap.isFullyInitialized =
      (c.cachedServerSnap.isFullyInitialized || p.isEmpty) := by
  cases p with
  | nil => simp [applyServerOverwriteTo, FViewCache.updateServerSnap]
  | cons k p =>
      simp only [applyServerOverwriteTo]
      split_ifs
      · simp
      · simp [FViewCache.updateServerSnap]

omit [DecidableEq κ] [LawfulComparators κ] in
@[simp] theorem serverSnap_applyUserOverwriteTo (c : FViewCache κ σ) (p : List κ)
    (snap : Node κ σ) (R : FWriteTreeRef κ σ) (optCompleteCache : Option (Node κ σ)) :
    (applyUserOverwriteTo c p snap R optCompleteCache).cachedServerSnap = c.cachedServerSnap := by
  cases p with
  | nil => rfl
  | cons k p =>
      simp only [applyUserOverwriteTo]
      split_ifs <;> rfl

omit [LawfulComparators κ] in
theorem isFullyInitialized_ackUserWriteOn (c : FViewCache κ σ) (p : List κ)
    (R : FWriteTreeRef κ σ) : (ackUserWriteOn c p R).cachedServerSnap.isFullyInitialized =
      c.cachedServerSnap.isFullyInitialized := by
  simp only [ackUserWriteOn]
  split_ifs with hshadow hcomplete hempty
  · rfl
  · rw [isFullyInitialized_applyServerOverwriteTo]
    cases p with
    | nil =>
        have hfull : c.cachedServerSnap.isFullyInitialized = true := hcomplete
        simp [hfull]
    | cons k p => simp
  · clear hcomplete
    induction c.cachedServerSnap.node.entries generalizing c with
    | nil => rfl
    | cons e entries ih =>
        rw [List.foldl_cons, ih]
        simp [isFullyInitialized_applyServerOverwriteTo]
  · rfl

omit [LawfulComparators κ] in
@[simp] theorem serverSnap_revertUserWriteOn (c : FViewCache κ σ) (p : List κ)
    (R : FWriteTreeRef κ σ) : (revertUserWriteOn c p R).cachedServerSnap = c.cachedServerSnap := by
  simp only [revertUserWriteOn]
  split_ifs <;> rfl

omit [LawfulComparators κ] in
theorem isFullyInitialized_listenCompleteOldCache (c : FViewCache κ σ) (p : List κ)
    (R : FWriteTreeRef κ σ) :
    (listenCompleteOldCache c p R).cachedServerSnap.isFullyInitialized =
      (c.cachedServerSnap.isFullyInitialized || p.isEmpty) := by
  simp [listenCompleteOldCache, FViewCache.updateServerSnap]

/-! ### Below a pending write -/

section shadowed
variable (hshadow : R.shadowingWriteAtPath [] ≠ none)
include hshadow

omit [DecidableEq κ] [DecidableEq σ] [LawfulComparators κ] in
/-- What is shadowed at a view is shadowed below it. -/
theorem isSome_shadowingWrite (p : List κ) : (R.shadowingWriteAtPath p).isSome = true := by
  obtain ⟨v, hv⟩ := Option.ne_none_iff_exists'.mp hshadow
  rw [FWriteTreeRef.shadowingWriteAtPath, List.append_nil] at hv
  rw [FWriteTreeRef.shadowingWriteAtPath, CompoundWrite.completeNodeAtPath_append hv]
  rfl

omit [LawfulComparators κ] in
theorem generate_of_shadowed (c : FViewCache κ σ) (p : List κ) :
    generateEventCacheAfterServerEvent c p R = c := by
  unfold generateEventCacheAfterServerEvent
  rw [if_pos (isSome_shadowingWrite hshadow p)]

omit [LawfulComparators κ] in
theorem eventSnap_applyServerOverwriteTo (c : FViewCache κ σ) (p : List κ) (snap : Node κ σ) :
    (applyServerOverwriteTo c p snap R).cachedEventSnap = c.cachedEventSnap := by
  cases p with
  | nil => rw [applyServerOverwriteTo, generate_of_shadowed hshadow]; rfl
  | cons k p =>
      simp only [applyServerOverwriteTo, generate_of_shadowed hshadow]
      split_ifs <;> rfl

omit [LawfulComparators κ] in
theorem ackUserWriteOn_of_shadowed (c : FViewCache κ σ) (p : List κ) : ackUserWriteOn c p R = c :=
  if_pos (isSome_shadowingWrite hshadow p)

omit [LawfulComparators κ] in
theorem revertUserWriteOn_of_shadowed (c : FViewCache κ σ) (p : List κ) :
    revertUserWriteOn c p R = c := if_pos (isSome_shadowingWrite hshadow p)

omit [LawfulComparators κ] in
theorem eventSnap_listenCompleteOldCache (c : FViewCache κ σ) (p : List κ) :
    (listenCompleteOldCache c p R).cachedEventSnap = c.cachedEventSnap := by
  rw [listenCompleteOldCache, generate_of_shadowed hshadow]
  rfl

end shadowed

end specs
end FViewProcessor

/-! ### Caches in step with the writes -/

open FViewProcessor

/-- A complete cache shows the server's data after the pending writes, and one below a pending write
shows that write. -/
structure FViewCache.InStep (c : FViewCache κ σ) (R : FWriteTreeRef κ σ) (server : Node κ σ) :
    Prop where
  whole : c.cachedServerSnap.isFullyInitialized = true →
    c = .whole ((R.writeTree.eventData server).getChild R.path) (server.getChild R.path)
  shadowed : R.shadowingWriteAtPath [] ≠ none →
    c.cachedEventSnap = ⟨(R.writeTree.eventData server).getChild R.path, true⟩

namespace FViewCache.InStep

variable {c : FViewCache κ σ} {R S : FWriteTreeRef κ σ} {server server' snap : Node κ σ}
  {r : List κ}

omit [DecidableEq κ] [DecidableEq σ] in
/-- Where neither the data nor the writes change, a cache stays in step. -/
theorem congr (h : c.InStep R server) (hserver : server'.getChild S.path = server.getChild R.path)
    (hevent : (S.writeTree.eventData server').getChild S.path =
      (R.writeTree.eventData server).getChild R.path)
    (hshadow : S.shadowingWriteAtPath [] ≠ none → R.shadowingWriteAtPath [] ≠ none) :
    c.InStep S server' :=
  ⟨fun hc => by rw [hevent, hserver]; exact h.whole hc,
    fun hs => by rw [hevent]; exact h.shadowed (hshadow hs)⟩

variable [LawfulComparators κ]

omit [DecidableEq κ] in
/-- **A user overwrite** shows in a cache that is complete or below a pending write. -/
theorem userOverwrite (h : c.InStep R server)
    (hwf : ((R.writeTree.eventData server).getChild R.path).WellFormed) (hsnap : snap.WellFormed)
    (hserver : server.getChild S.path = server.getChild R.path)
    (hevent : (S.writeTree.eventData server).getChild S.path =
      ((R.writeTree.eventData server).getChild R.path).updateChild r snap)
    (hshadow : S.shadowingWriteAtPath [] ≠ none → r = [] ∨ R.shadowingWriteAtPath [] ≠ none)
    (optCompleteCache : Option (Node κ σ)) :
    (applyUserOverwriteTo c r snap S optCompleteCache).InStep S server := by
  have hshown : c.cachedEventSnap = ⟨(R.writeTree.eventData server).getChild R.path, true⟩ →
      applyUserOverwriteTo c r snap S optCompleteCache =
        c.updateEventSnap ((S.writeTree.eventData server).getChild S.path) true := fun hc => by
    rw [hevent]
    exact applyUserOverwriteTo_eq hc hwf r hsnap S optCompleteCache
  refine ⟨fun hc => ?_, fun hs => ?_⟩
  · rw [serverSnap_applyUserOverwriteTo] at hc
    have hwhole := h.whole hc
    rw [hshown (by rw [hwhole]; rfl), hserver, hwhole]
    rfl
  · rcases hshadow hs with rfl | hs
    · rw [hevent, Node.updateChild_nil]
      rfl
    · rw [hshown (h.shadowed hs)]
      rfl

/-- **New data of the server** show in a cache that is complete or is completed by them. -/
theorem serverOverwrite (h : c.InStep R server) (hlayered : R.writeTree.Layered)
    (hserves : R.writeTree.Serves server) (hserves' : R.writeTree.Serves server')
    (hsnap : snap.WellFormed)
    (hserver : server'.getChild R.path = (server.getChild R.path).updateChild r snap)
    (hevent : (R.writeTree.eventData server').getChild R.path =
      ((R.writeTree.eventData server).getChild R.path).updateChild r
        ((R.writeTree.eventData server').getChild (R.path ++ r)))
    (hshadow : R.shadowingWriteAtPath r ≠ none →
      (R.writeTree.eventData server').getChild R.path =
        (R.writeTree.eventData server).getChild R.path) :
    (applyServerOverwriteTo c r snap R).InStep R server' := by
  have hdata : ∀ {q : Node κ σ}, R.writeTree.Serves q →
      ((R.writeTree.eventData q).getChild R.path).WellFormed := fun hs =>
    (hlayered.eventData_spec hs).1.getChild _
  refine ⟨fun hc => ?_, fun hs => ?_⟩
  · rw [isFullyInitialized_applyServerOverwriteTo, Bool.or_eq_true] at hc
    rcases hc with hc | hr
    · rw [h.whole hc, applyServerOverwriteTo_whole hlayered hserves' (hserves.wellFormed.getChild _)
        (hdata hserves) hsnap hserver.symm]
      split_ifs with hs
      · rw [hshadow (Option.isSome_iff_ne_none.mp hs)]
      · rw [← hevent]
    · obtain rfl := List.isEmpty_iff.mp hr
      rw [Node.updateChild_nil] at hserver
      rw [applyServerOverwriteTo, ← hserver]
      by_cases hs : R.shadowingWriteAtPath [] = none
      · rw [generate_root hlayered hserves' hs]
      · rw [generate_of_shadowed hs, hshadow hs]
        exact FViewCache.ext (h.shadowed hs) rfl
  · have hr := Option.isSome_iff_ne_none.mp (isSome_shadowingWrite hs r)
    rw [eventSnap_applyServerOverwriteTo hs, hshadow hr]
    exact h.shadowed hs

/-- **The end of a listen** changes nothing in a cache that is complete already. -/
theorem listenComplete (h : c.InStep R server) (hlayered : R.writeTree.Layered)
    (hserves : R.writeTree.Serves server)
    (hr : r = [] → c.cachedServerSnap.isFullyInitialized = true) :
    (listenCompleteOldCache c r R).InStep R server := by
  have hdata := (hlayered.eventData_spec hserves).1.getChild R.path
  refine ⟨fun hc => ?_, fun hs => ?_⟩
  · rw [isFullyInitialized_listenCompleteOldCache, Bool.or_eq_true, List.isEmpty_iff] at hc
    have hwhole := h.whole (hc.elim id hr)
    have hsame : listenCompleteOldCache c r R = generateEventCacheAfterServerEvent c r R := by
      rw [listenCompleteOldCache, hwhole]
      rfl
    rw [hsame, hwhole, generate_whole hlayered hserves hdata, Node.getChild_append,
      hdata.updateChild_self, ite_self]
  · rw [eventSnap_listenCompleteOldCache hs]
    exact h.shadowed hs

/-- **A write that was answered**: the cache shows the data after the other writes, or it is below
one of them and stays. -/
theorem ackUserWrite (h : c.InStep R server) (hlayered : R.writeTree.Layered)
    (hserves : R.writeTree.Serves server) (hlayered' : S.writeTree.Layered)
    (hserves' : S.writeTree.Serves server) (hpath : S.path = R.path)
    (hagree : AgreesOff ((R.writeTree.eventData server).getChild R.path) r
      ((S.writeTree.eventData server).getChild S.path))
    (hcase : S.shadowingWriteAtPath r = none ∨ S.shadowingWriteAtPath [] ≠ none ∧
      R.shadowingWriteAtPath [] ≠ none ∧ (S.writeTree.eventData server).getChild S.path =
        (R.writeTree.eventData server).getChild R.path) :
    (ackUserWriteOn c r S).InStep S server ∧ (revertUserWriteOn c r S).InStep S server := by
  have hdata := (hlayered.eventData_spec hserves).1.getChild R.path
  rcases hcase with hnone | ⟨hs, hs', hevent⟩
  · have hroot : ¬ S.shadowingWriteAtPath [] ≠ none := fun hs => by
      have hr := isSome_shadowingWrite hs r
      rw [hnone] at hr
      cases hr
    rw [← hpath] at hdata hagree
    refine ⟨⟨fun hc => ?_, fun hs => absurd hs hroot⟩, ⟨fun hc => ?_, fun hs => absurd hs hroot⟩⟩
    · rw [isFullyInitialized_ackUserWriteOn] at hc
      rw [h.whole hc, ← hpath]
      exact ackUserWriteOn_whole hlayered' hserves' hdata hagree hnone
    · rw [serverSnap_revertUserWriteOn] at hc
      rw [h.whole hc, ← hpath]
      exact revertUserWriteOn_whole hlayered' hserves' hdata hagree hnone
  · rw [ackUserWriteOn_of_shadowed hs, revertUserWriteOn_of_shadowed hs, and_self]
    exact h.congr (by rw [hpath]) hevent fun _ => hs'

end FViewCache.InStep
end ZipR

