import ZipR.Repo

/-! # Steps of the repository

Each event that does not fail is `Handled`: the writes stay accounted for, the views stay in step,
and what is observed is listened to.

* **The app.** Writes, registrations and purges; a purge while completions are held back fails
  (`purge_fails`).
* **The server.** Data, answers and revocations.  The `onComplete` of a failed listen listens again
  before the held back puts are completed; `Answered` says that this is the same as listening before
  the answer. -/

namespace ZipR

open Reactive Patches Comparators Coverage FSyncTree NSMutableDictionary

variable {κ σ : Type}

namespace FRepo

variable [DecidableEq κ] [DecidableEq σ] [Comparators κ]
variable {self self' : FRepo κ σ} {made : List (Int × List κ)}

/-! ### What a step does -/

/-- The write an event makes. -/
def Event.writes (writeId : Int) : Event κ σ → List (FWriteRecord κ σ)
  | .set path newNode => [⟨path, newNode.node, writeId, true⟩]
  | _ => []

/-- The data received so far, after an event. -/
def Event.receive (server : Node κ σ) : Event κ σ → Node κ σ
  | .onDataUpdate path data => server.updateChild path data.node
  | _ => server

/-- No data are strictly above a write. -/
def Event.Clear (repo : FRepo κ σ) (server : Node κ σ) : Event κ σ → Prop
  | .onDataUpdate path data =>
      ∀ r ∈ repo.pending, (server.updateChild path data.node).view.ClearAbove r.path
  | .set path _ => server.view.ClearAbove path
  | _ => True

/-- Data at or above the path arrive. -/
def Event.Arrives (p : List κ) : Event κ σ → Prop
  | .onDataUpdate path _ => path <+: p
  | _ => False

/-- The app takes the registration away. -/
def Event.Removes (p : List κ) (r : FEventRegistration) : Event κ σ → Prop
  | .removeEventRegistration handle path => p = path ∧ ∀ h ∈ handle, r.handle = h
  | _ => False

/-- What an event does to the registrations and to the data of the views. -/
structure Observes (t : ImmutableTree κ (FView κ σ)) (e : Event κ σ)
    (t' : ImmutableTree κ (FView κ σ)) (ps : List (Output κ)) : Prop where
  added : ∀ p r, e = .addEventRegistration r p → Registered t' p r
  new : ∀ p r, Registered t' p r → Registered t p r ∨ e = .addEventRegistration r p
  kept : ∀ p r, r.cancelCallback = true → Registered t p r →
    Registered t' p r ∨ e.Removes p r ∨ ∃ status, .cancelEvent r p status ∈ ps
  complete : ∀ p view view', viewAt t p = some view → viewAt t' p = some view' →
    Complete view ∨ e.Arrives p → Complete view'

namespace Observes

variable {t t' t'' : ImmutableTree κ (FView κ σ)} {e : Event κ σ} {ps : List (Output κ)}

omit [DecidableEq κ] [DecidableEq σ] in
theorem keeps (hadd : ∀ p r, e ≠ .addEventRegistration r p) (harrive : ∀ p, ¬ e.Arrives p)
    (h : Keeps t t') (ps : List (Output κ)) : Observes t e t' ps where
  added p r he := absurd he (hadd p r)
  new _ _ hr := .inl (h.registered.mp hr)
  kept _ _ _ hr := .inl (h.registered.mpr hr)
  complete p view view' hview hview' hc :=
    h.complete p view view' hview hview' (hc.resolve_right (harrive p))

omit [DecidableEq κ] [DecidableEq σ] in
/-- Then views are kept. -/
theorem trans_keeps (h : Observes t e t' ps) (h' : Keeps t' t'') (qs : List (Output κ)) :
    Observes t e t'' (ps ++ qs) := by
  refine ⟨fun p r he => h'.registered.mpr (h.added p r he),
    fun p r hr => h.new p r (h'.registered.mp hr), fun p r hcallback hr => ?_,
    fun p view view'' hview hview'' hc => ?_⟩
  · rcases h.kept p r hcallback hr with hr | hr | ⟨status, hmem⟩
    · exact .inl (h'.registered.mpr hr)
    · exact .inr (.inl hr)
    · exact .inr (.inr ⟨status, List.mem_append_left qs hmem⟩)
  · obtain ⟨view', hview'⟩ := Option.isSome_iff_exists.mp
      ((h'.isSome p).symm.trans (Option.isSome_iff_exists.mpr ⟨view'', hview''⟩))
    exact h'.complete p view' view'' hview' hview'' (h.complete p view view' hview hview' hc)

end Observes

/-- What a step does: the first writes are completed, views in step stay so, and what is observed
is listened to. -/
structure Handled (repo : FRepo κ σ) (e : Event κ σ) (repo' : FRepo κ σ) (ps : List (Output κ)) :
    Prop where
  accounted : repo'.Accounted []
  listening : repo'.Listening
  pending : ∃ acked, repo.pending ++ e.writes repo.writeIdCounter = acked ++ repo'.pending ∧
    completed ps = acked.map key
  counter : repo'.writeIdCounter = repo.writeIdCounter + (e.writes repo.writeIdCounter).length
  synced : ∀ server, repo.serverSyncTree.Synced server → e.Clear repo server →
    repo'.serverSyncTree.Synced (Event.receive server e)
  observes : Observes repo.serverSyncTree.syncPointTree e repo'.serverSyncTree.syncPointTree ps

section lawful
variable [LawfulComparators κ]

/-! ### Requests of the app -/

omit [DecidableEq σ] [LawfulComparators κ] in
/-- **The listens follow the views.** -/
theorem request_spec (h : self.Accounted []) (hl : self.Listening) {tree : FSyncTree κ σ}
    {requests : List (ListenRequest κ)}
    (htree : tree.pendingWriteTree = self.serverSyncTree.pendingWriteTree)
    (hasc : tree.syncPointTree.Ascending) (hregistered : AllRegistered tree.syncPointTree)
    (hrequested : Requested (Topmost (Viewed self.serverSyncTree.syncPointTree)) requests
      (Topmost (Viewed tree.syncPointTree))) :
    ∃ connection, request requests { self with serverSyncTree := tree } =
        .ok { self with serverSyncTree := tree, connection } ∧
      Accounted { self with serverSyncTree := tree, connection } [] ∧
      Listening { self with serverSyncTree := tree, connection } := by
  obtain ⟨connection, hok, hcontinues, hnodup, hlistens, -⟩ :=
    listenProvider_spec h.connection h.pipelined hl.nodup hl.listens hrequested
  refine ⟨connection, ?_, h.continues htree hcontinues, hasc, hregistered, hnodup, hlistens⟩
  rw [request, hok]

omit [DecidableEq κ] [DecidableEq σ] [LawfulComparators κ] in
theorem pending_of_views {tree : FSyncTree κ σ} {connection : RepoConnection κ σ}
    (htree : tree.pendingWriteTree = self.serverSyncTree.pendingWriteTree) {e : Event κ σ}
    (he : e.writes self.writeIdCounter = []) :
    ∃ acked, self.pending ++ e.writes self.writeIdCounter =
        acked ++ FRepo.pending { self with serverSyncTree := tree, connection } ∧
      completed ([] : List (Output κ)) = acked.map key := by
  refine ⟨[], ?_, rfl⟩
  rw [he, List.append_nil, FRepo.pending, FRepo.pending, htree]
  rfl

omit [DecidableEq σ] in
theorem handled_addEventRegistration (h : self.Accounted []) (hl : self.Listening)
    (eventRegistration : FEventRegistration) (path : List κ) :
    ∃ self' ps, self.addEventRegistration eventRegistration path = .ok (self', ps) ∧
      Handled self (.addEventRegistration eventRegistration path) self' ps := by
  have htree := pendingWriteTree_addEventRegistration self.serverSyncTree eventRegistration path
  have hregistered := registered_addEventRegistration self.serverSyncTree eventRegistration path
  obtain ⟨connection, hok, hacc, hlisten⟩ := request_spec h hl htree
    (ascending_addEventRegistration hl.ascending _ _)
    (allRegistered_addEventRegistration hl.registered _ _)
    (requested_addEventRegistration hl.ascending _ _)
  refine ⟨_, [], ?_, hacc, hlisten, pending_of_views htree rfl, (Int.add_zero _).symm,
    fun server hs _ => hs.addEventRegistration eventRegistration path, ?_⟩
  · simp only [addEventRegistration, hok]
    rfl
  · refine ⟨fun p r he => ?_, fun p r hr => ?_, fun p r _ hr => .inl ((hregistered p r).mpr (.inl hr)),
      fun p view view' hview hview' hc => ?_⟩
    · obtain ⟨rfl, rfl⟩ := Event.addEventRegistration.inj he
      exact (hregistered _ _).mpr (.inr ⟨rfl, rfl⟩)
    · rcases (hregistered p r).mp hr with hr | ⟨rfl, rfl⟩
      · exact .inl hr
      · exact .inr rfl
    · have hcomplete : Complete view := hc.resolve_right id
      rw [viewAt_addEventRegistration] at hview'
      split_ifs at hview' with hp
      · subst hp
        rw [observedView, hview] at hview'
        exact Option.some.inj hview' ▸ hcomplete
      · exact Option.some.inj (hview.symm.trans hview') ▸ hcomplete

omit [DecidableEq σ] in
/-- A view that stays when registrations go has the same caches. -/
theorem complete_removeEventRegistration {tree : FSyncTree κ σ}
    (hasc : tree.syncPointTree.Ascending) {handle : Option ℕ} {path : List κ}
    {cancelError : Option String} {p : List κ} {view view' : FView κ σ}
    (hview : viewAt tree.syncPointTree p = some view)
    (hview' : viewAt (tree.removeEventRegistration handle path cancelError).1.syncPointTree p =
      some view') (hcomplete : Complete view) : Complete view' := by
  rw [viewAt_removeEventRegistration hasc] at hview'
  split_ifs at hview' with hp
  · rw [← hp, hview, Option.bind_some] at hview'
    split_ifs at hview'
    exact Option.some.inj hview' ▸ hcomplete
  · exact Option.some.inj (hview.symm.trans hview') ▸ hcomplete

omit [DecidableEq σ] in
theorem handled_removeEventRegistration (h : self.Accounted []) (hl : self.Listening)
    (handle : Option ℕ) (path : List κ) :
    ∃ self' ps, self.removeEventRegistration handle path = .ok (self', ps) ∧
      Handled self (.removeEventRegistration handle path) self' ps := by
  have htree := pendingWriteTree_removeEventRegistration self.serverSyncTree handle path none
  have hregistered := registered_removeEventRegistration hl.ascending handle path none
  obtain ⟨connection, hok, hacc, hlisten⟩ := request_spec h hl htree
    (ascending_removeEventRegistration hl.ascending _ _ _)
    (allRegistered_removeEventRegistration hl.ascending hl.registered _ _ _)
    (requested_removeEventRegistration hl.ascending _ _)
  refine ⟨_, [], ?_, hacc, hlisten, pending_of_views htree rfl, (Int.add_zero _).symm,
    fun server hs _ => hs.removeEventRegistration handle path none, nofun,
    fun p r hr => .inl ((hregistered p r).mp hr).1, fun p r _ hr => ?_,
    fun p view view' hview hview' hc =>
      complete_removeEventRegistration hl.ascending hview hview' (hc.resolve_right id)⟩
  · simp only [removeEventRegistration, hok]
    rfl
  · by_cases hremoves : p = path ∧ ∀ h ∈ handle, r.handle = h
    · exact .inr (.inl hremoves)
    · exact .inl ((hregistered p r).mpr ⟨hr, hremoves⟩)

theorem handled_onDataUpdate (h : self.Accounted []) (hl : self.Listening) (path : List κ)
    (data : FNode κ σ) :
    Handled self (.onDataUpdate path data) (self.onDataUpdate path data.node) [] := by
  have hkeeps := keeps_applyOperationToSyncPoints self.serverSyncTree hl.ascending
    (.overwrite false path data.node)
  refine ⟨h.views rfl, hl.keeps hkeeps rfl, pending_of_views rfl rfl, (Int.add_zero _).symm,
    fun server hs hclear => ?_, nofun, fun p r hr => .inl (hkeeps.registered.mp hr),
    fun p r _ hr => .inl (hkeeps.registered.mpr hr), fun p view view' hview hview' hc => ?_⟩
  · exact hs.applyServerOverwriteAtPath data.wellFormed
      ⟨hs.serves.wellFormed.updateChild path data.wellFormed, hclear⟩
  · exact (complete_applyOperationToSyncPoints hl.ascending _ hview hview').mpr hc

omit [LawfulComparators κ] in
/-- The write id is new, so the write is added; its put is still to be made. -/
theorem applyUserOverwrite_spec (h : self.Accounted []) (path : List κ) (newNode : Node κ σ) :
    ∃ tree, self.serverSyncTree.applyUserOverwriteAtPath path newNode self.writeIdCounter true =
        some tree ∧
      FRepo.pending { self with serverSyncTree := tree, writeIdCounter := self.writeIdCounter + 1 } =
        self.pending ++ [⟨path, newNode, self.writeIdCounter, true⟩] ∧
      Accounted { self with serverSyncTree := tree, writeIdCounter := self.writeIdCounter + 1 }
        [(self.writeIdCounter, path)] := by
  obtain ⟨T, hT⟩ : ∃ T, self.serverSyncTree.pendingWriteTree.addOverwriteAtPath path newNode
      self.writeIdCounter true = some T := by
    rw [FWriteTree.addOverwriteAtPath, if_pos h.last]
    exact ⟨_, rfl⟩
  obtain ⟨-, hT'⟩ := FWriteTree.addOverwriteAtPath_eq_some.mp hT
  obtain ⟨tree, htree, hpending⟩ : ∃ tree, self.serverSyncTree.applyUserOverwriteAtPath path
      newNode self.writeIdCounter true = some tree ∧ tree.pendingWriteTree = T := by
    simp only [FSyncTree.applyUserOverwriteAtPath, hT, Option.bind_eq_bind, Option.bind_some]
    exact ⟨_, rfl, rfl⟩
  have hall : FRepo.pending { self with
      serverSyncTree := tree
      writeIdCounter := self.writeIdCounter + 1 } =
        self.pending ++ [⟨path, newNode, self.writeIdCounter, true⟩] := by
    rw [pending, hpending, ← hT']
    rfl
  refine ⟨tree, htree, hall, h.connection, h.pipelined, h.statuses, ?_, ?_, ?_, ?_,
    Int.le_add_one h.counter⟩
  · rw [hall]
    refine List.pairwise_append.mpr ⟨h.ids, List.pairwise_singleton _ _, fun r hr u hu => ?_⟩
    rw [List.mem_singleton.mp hu]
    exact h.issued r hr
  · rw [hall, List.map_append, h.waiting, List.append_nil]
    rfl
  · rw [hall]
    refine List.forall_mem_append.mpr ⟨fun r hr => Int.lt_add_one_of_le (h.issued r hr).le, ?_⟩
    rw [List.forall_mem_singleton]
    exact Int.lt_succ _
  · rw [hpending, ← hT']
    exact Int.lt_succ _

theorem handled_set (h : self.Accounted []) (hl : self.Listening) (path : List κ)
    (newNode : FNode κ σ) : ∃ self' ps, self.set path newNode.node = .ok (self', ps) ∧
      Handled self (.set path newNode) self' ps := by
  obtain ⟨tree, htree, hall, haccounted⟩ := applyUserOverwrite_spec h path newNode.node
  obtain ⟨connection, tree', ps, acked, hok, hacc, hlistens, hacks, hcompleted⟩ :=
    connectionStep_spec (e := .putData (path, newNode.node) none (self.writeIdCounter, path))
      haccounted trivial rfl (fun _ h => by cases h) (by simp) (by simp) id
  have hwritten := keeps_applyUserOverwriteAtPath hl.ascending htree
  have hkeeps := hwritten.trans (hacks.keeps hwritten.ascending)
  refine ⟨_, ps, by rw [set, htree]; exact hok, hacc, hl.keeps hkeeps hlistens,
    ⟨acked, ?_, hcompleted⟩, rfl, fun server hs hclear => ?_, .keeps (by simp) (fun _ => id) hkeeps ps⟩
  · rw [Event.writes, ← hall]
    exact hacks.allWrites
  · exact hacks.synced server (hs.applyUserOverwriteAtPath newNode.wellFormed hclear htree)

end lawful

section lawful
variable [LawfulComparators κ]

/-! ### Purges -/

omit [LawfulComparators κ] in
/-- The completions of cancelled writes change nothing. -/
theorem callbacks_cancelled (self : FRepo κ σ) {os : List (NetworkOutput κ σ)}
    (hlistens : ∀ query status, .listenComplete query status ∉ os)
    (h : ∀ d ∈ FPersistentConnection.completions os, d.2 = kFErrorWriteCanceled) :
    ∃ ps, callbacks os self = .ok (self, ps) ∧
      completed ps = (FPersistentConnection.completions os).map Prod.fst := by
  induction os with
  | nil => exact ⟨[], rfl, rfl⟩
  | cons o os ih =>
      have hlistens' : ∀ query status, .listenComplete query status ∉ os := fun query status hmem =>
        hlistens query status (List.mem_cons_of_mem o hmem)
      cases o with
      | onComplete block status errorReason =>
          obtain ⟨writeId, path⟩ := block
          have hstatus : status = kFErrorWriteCanceled := h _ List.mem_cons_self
          obtain ⟨ps, hps, hcompleted⟩ := ih hlistens' fun d hd => h d (List.mem_cons_of_mem _ hd)
          refine ⟨callOnComplete writeId path status errorReason :: ps, ?_, ?_⟩
          · rw [callbacks, callback, ackWrite, if_pos hstatus]
            simp only [bind, Except.bind, pure, Except.pure, hps]
            rfl
          · exact congrArg ((writeId, path) :: ·) hcompleted
      | listenComplete query status => exact absurd List.mem_cons_self (hlistens query status)
      | _ =>
          obtain ⟨ps, hps, hcompleted⟩ := ih hlistens' h
          refine ⟨[] ++ ps, ?_, hcompleted⟩
          simp only [callbacks, callback, bind, Except.bind, hps]
          rfl

open FPersistentConnection in
omit [DecidableEq κ] [DecidableEq σ] [Comparators κ] [LawfulComparators κ] in
/-- What the connection does when nothing is held back: all puts that wait are cancelled. -/
theorem purge_spec {s : RepoConnection κ σ} (h : s.Invariant) (hp : s.Pipelined)
    (hheld : s.putsToAck = []) :
    s.purgeOutstandingWrites.1.Invariant ∧ s.purgeOutstandingWrites.1.Pipelined ∧
      s.purgeOutstandingWrites.1.listens = s.listens ∧
      (∀ query status, .listenComplete query status ∉ s.purgeOutstandingWrites.2) ∧
      completions s.purgeOutstandingWrites.2 = s.waiting.map fun block =>
        (block, kFErrorWriteCanceled) := by
  obtain ⟨connection, os, hok, hlife, heffect⟩ :=
    does_purgeOutstandingWrites h.lifecycle h.requests
  obtain ⟨rfl, rfl⟩ := Prod.mk.inj (Except.ok.inj hok)
  obtain ⟨hlistens, hnone⟩ := quiet_purgeOutstandingWrites (s := s) _ _ rfl
  obtain ⟨hpipelined, -⟩ := heffect.ordered h hlife hp trivial
  refine ⟨⟨hlife, heffect.requests h.requests,
    heffect.restored h.lifecycle hlife h.requests h.restored⟩, hpipelined, hlistens, hnone, ?_⟩
  rw [completions_purgeOutstandingWrites h.requests, acknowledged, waiting, hheld]
  simp [Function.comp_def]

open FPersistentConnection in
theorem handled_purge (h : self.Accounted []) (hl : self.Listening)
    (hheld : self.connection.putsToAck = []) :
    ∃ self' ps, self.purgeOutstandingWrites = .ok (self', ps) ∧
      Handled self .purgeOutstandingWrites self' ps := by
  obtain ⟨hinv, hpipelined, hlistens, hnone, hdone⟩ := purge_spec h.connection h.pipelined hheld
  set connection := self.connection.purgeOutstandingWrites.1
  obtain ⟨ps, hps, hcompleted⟩ := callbacks_cancelled { self with
    serverSyncTree := self.serverSyncTree.removeAllWrites
    connection } hnone (hdone ▸ List.forall_mem_map.mpr fun block _ => rfl)
  have htree := self.serverSyncTree.pendingWriteTree_removeAllWrites
  have hkeeps := keeps_removeAllWrites hl.ascending
  have hnil : FRepo.pending { self with
      serverSyncTree := self.serverSyncTree.removeAllWrites
      connection } = [] := congrArg FWriteTree.allWrites htree
  have hack : ∀ put ∈ connection.putsToAck, put.status ≠ kFErrorWriteCanceled :=
    fun put hput => by cases hput
  refine ⟨_, ps, hps, ⟨hinv, hpipelined, hack, ?_, ?_, ?_, ?_, h.counter⟩, hl.keeps hkeeps hlistens,
    ⟨self.pending, ?_, ?_⟩, (Int.add_zero _).symm, fun server hs _ => hs.removeAllWrites,
    .keeps (by simp) (fun _ => id) hkeeps ps⟩
  · rw [hnil]
    exact .nil
  · rw [hnil]
    rfl
  · rw [hnil]
    simp
  · rw [htree]
    exact h.last
  · rw [hnil]
    rfl
  · rw [hcompleted, hdone, h.waiting]
    simp [Function.comp_def]

omit [LawfulComparators κ] in
/-- **A purge while completions are held back fails**: their writes are removed before they are
acknowledged. -/
theorem purge_fails (h : self.Accounted []) (hheld : self.connection.putsToAck ≠ []) :
    self.purgeOutstandingWrites = .error .noWriteWithId := by
  obtain ⟨put, puts, hputs⟩ := List.exists_cons_of_ne_nil hheld
  have hstatus : put.status ≠ kFErrorWriteCanceled :=
    h.statuses put (hputs ▸ List.mem_cons_self)
  have hall : self.serverSyncTree.removeAllWrites.pendingWriteTree.allWrites = [] :=
    congrArg FWriteTree.allWrites self.serverSyncTree.pendingWriteTree_removeAllWrites
  have hnone : ∀ revert, self.serverSyncTree.removeAllWrites.ackUserWriteWithWriteId put.block.1
      revert = none := fun revert => by
    simp [ackUserWriteWithWriteId, hall]
  simp only [purgeOutstandingWrites, connectionStep, FPersistentConnection.step,
    FPersistentConnection.purgeOutstandingWrites, FPersistentConnection.ackPuts, hputs, List.map_cons,
    List.cons_append, callbacks, callback, ackWrite, if_neg hstatus, hnone]
  rfl

/-! ### Answers to listens -/

omit [DecidableEq κ] [Comparators κ] [LawfulComparators κ] in
theorem completed_cancelEvents (registrations : List FEventRegistration) (path : List κ)
    (status : String) :
    completed (registrations.map fun r => .cancelEvent r path status) = [] := by
  induction registrations with
  | nil => rfl
  | cons r registrations ih => exact ih

omit [DecidableEq κ] [Comparators κ] [LawfulComparators κ] in
theorem completed_append (os ps : List (Output κ)) :
    completed (os ++ ps) = completed os ++ completed ps := List.filterMap_append

/-- The tree when a listen failed. -/
def failedTree (self : FRepo κ σ) (path : List κ) (status : String) : FSyncTree κ σ :=
  (self.serverSyncTree.removeEventRegistration none path (some status)).1

/-- The cancel events of a listen that failed. -/
def cancelled (self : FRepo κ σ) (path : List κ) (status : String) : List (Output κ) :=
  (self.serverSyncTree.removeEventRegistration none path (some status)).2.2.map fun registration =>
    .cancelEvent registration path status

omit [DecidableEq σ] in
theorem observes_failed (hl : self.Listening) {e : Event κ σ}
    (hadd : ∀ p r, e ≠ .addEventRegistration r p) (harrive : ∀ p, ¬ e.Arrives p) (path : List κ)
    (status : String) : Observes self.serverSyncTree.syncPointTree e
      (self.failedTree path status).syncPointTree (self.cancelled path status) := by
  have hregistered :=
    registered_removeEventRegistration hl.ascending none path (some status)
  refine ⟨fun p r he => absurd he (hadd p r), fun p r hr => .inl ((hregistered p r).mp hr).1,
    fun p r hcallback hr => ?_, fun p view view' hview hview' hc =>
      complete_removeEventRegistration hl.ascending hview hview' (hc.resolve_right (harrive p))⟩
  by_cases hp : p = path
  · subst hp
    exact .inr (.inr ⟨status, List.mem_map_of_mem (mem_cancelEvents hr hcallback status)⟩)
  · exact .inl ((hregistered p r).mpr ⟨hr, fun hnot => hp hnot.1⟩)

/-- What the provider is asked when a listen failed. -/
theorem onComplete_failed (hl : self.Listening) {path : List κ}
    (htop : Topmost (Viewed self.serverSyncTree.syncPointTree) path) {status : String}
    (hstatus : status ≠ "ok") : ∃ starts : List (List κ), path ∉ starts ∧
      Requested (fun q => Topmost (Viewed self.serverSyncTree.syncPointTree) q ∧ q ≠ path)
        (starts.map .startListening)
        (Topmost (Viewed (self.failedTree path status).syncPointTree)) ∧
      ∀ connection : RepoConnection κ σ,
        onComplete path status { self with connection } =
          (request (starts.map .startListening)
            { self with serverSyncTree := self.failedTree path status, connection }).map
              fun repo => (repo, self.cancelled path status) := by
  obtain ⟨starts, hstarts, hpath, hrequested⟩ := requested_failed hl.ascending htop status
  refine ⟨starts, hpath, hrequested, fun connection => ?_⟩
  simp only [onComplete, if_neg hstatus, hstarts]
  rfl

omit [DecidableEq κ] [DecidableEq σ] [LawfulComparators κ] in
theorem exists_complete {path : List κ} (h : self.hasData path = true) :
    ∃ view, viewAt self.serverSyncTree.syncPointTree path = some view ∧ Complete view := by
  rw [hasData, Option.any_eq_true] at h
  exact h

omit [DecidableEq σ] in
/-- The listens that are left when one failed are those of the topmost paths that are left. -/
theorem listening_failed (hl : self.Listening) {path : List κ} {status : String}
    {connection : RepoConnection κ σ} (hnodup : (connection.listens.map Prod.fst).Nodup)
    (hlistens : ∀ q, q ∈ connection.listens.map Prod.fst ↔
      Topmost (Viewed (self.failedTree path status).syncPointTree) q) :
    Listening { self with serverSyncTree := self.failedTree path status, connection } :=
  ⟨ascending_removeEventRegistration hl.ascending _ _ _,
    allRegistered_removeEventRegistration hl.ascending hl.registered _ _ _, hnodup, hlistens⟩

omit [DecidableEq σ] in
theorem not_viewed_failedTree (hl : self.Listening) (path : List κ) (status : String) :
    ¬ Viewed (self.failedTree path status).syncPointTree path := by
  intro hviewed
  refine hviewed ?_
  rw [failedTree, viewAt_removeEventRegistration hl.ascending, if_pos rfl]
  cases viewAt self.serverSyncTree.syncPointTree path <;> rfl

/-- What the `onComplete` of a listen does before the puts that were held back are completed: `sent`
is the connection if the listens it makes had been made before the answer. -/
structure Answered (repo : FRepo κ σ) (rn : ℕ) (listenSpec : FOutstandingQuery (List κ))
    (status : String) (e : Event κ σ) (tree : FSyncTree κ σ) (sent answered : RepoConnection κ σ)
    (ps : List (Output κ)) : Prop where
  callbacks : ∃ connection o o', { repo.connection with
      requestCBHash := removeObjectForKey rn repo.connection.requestCBHash }.answerListen listenSpec
        status = (connection, o) ∧
    { sent with requestCBHash := removeObjectForKey rn sent.requestCBHash }.answerListen listenSpec
      status = (answered, o') ∧
    callbacks o { repo with connection } =
      .ok ({ repo with serverSyncTree := tree, connection := answered }, ps)
  continues : repo.connection.Continues sent
  pendingWriteTree : tree.pendingWriteTree = repo.serverSyncTree.pendingWriteTree
  listening : Listening { repo with serverSyncTree := tree, connection := answered }
  observes : Observes repo.serverSyncTree.syncPointTree e tree.syncPointTree ps
  completed : completed ps = []
  synced : ∀ server, repo.serverSyncTree.Synced server → tree.Synced server

variable {rn : ℕ} {status : String} {data : Option String} {listenSpec : FOutstandingQuery (List κ)}
  {e : Event κ σ}

omit [LawfulComparators κ] in
/-- A listen that is no longer current is not called back. -/
theorem answered_other (h : self.Accounted []) (hl : self.Listening)
    (hadd : ∀ p r, e ≠ .addEventRegistration r p) (harrive : ∀ p, ¬ e.Arrives p)
    (hcurrent : objectForKey listenSpec.query self.connection.listens ≠ some listenSpec) :
    Answered self rn listenSpec status e self.serverSyncTree self.connection
      { self.connection with
        requestCBHash := removeObjectForKey rn self.connection.requestCBHash } [] := by
  have hkeeps : Keeps self.serverSyncTree.syncPointTree self.serverSyncTree.syncPointTree :=
    .refl hl.ascending
  have hanswer : { self.connection with
      requestCBHash := removeObjectForKey rn self.connection.requestCBHash }.answerListen listenSpec
        status = ({ self.connection with
          requestCBHash := removeObjectForKey rn self.connection.requestCBHash }, []) := by
    rw [FPersistentConnection.answerListen, if_neg hcurrent]
  exact ⟨⟨_, [], [], hanswer, hanswer, rfl⟩, .refl h.connection h.pipelined, rfl,
    hl.keeps hkeeps rfl, .keeps hadd harrive hkeeps [], rfl, fun _ hs => hs⟩

/-- A listen is complete. -/
theorem answered_ok (h : self.Accounted []) (hl : self.Listening)
    (hadd : ∀ p r, e ≠ .addEventRegistration r p) (harrive : ∀ p, ¬ e.Arrives p)
    (hcurrent : objectForKey listenSpec.query self.connection.listens = some listenSpec)
    (hdata : self.hasData listenSpec.query = true) :
    Answered self rn listenSpec "ok" e
      (self.serverSyncTree.applyListenCompleteAtPath listenSpec.query) self.connection
      { self.connection with
        requestCBHash := removeObjectForKey rn self.connection.requestCBHash } [] := by
  have hkeeps := keeps_applyOperationToSyncPoints self.serverSyncTree hl.ascending
    (.listenComplete listenSpec.query)
  have hanswer : { self.connection with
      requestCBHash := removeObjectForKey rn self.connection.requestCBHash }.answerListen listenSpec
        "ok" = ({ self.connection with
          requestCBHash := removeObjectForKey rn self.connection.requestCBHash },
            [.listenComplete listenSpec.query "ok"]) := by
    rw [FPersistentConnection.answerListen, if_pos hcurrent]
    rfl
  refine ⟨⟨_, _, _, hanswer, hanswer, ?_⟩, .refl h.connection h.pipelined, rfl, hl.keeps hkeeps rfl,
    .keeps hadd harrive hkeeps [], rfl, fun server hs => ?_⟩
  · simp only [FRepo.callbacks, callback, onComplete, if_true]
    rfl
  · obtain ⟨view, hview, hcomplete⟩ := exists_complete hdata
    exact hs.applyListenCompleteAtPath hview hcomplete

/-- A listen failed: the views below its path are listened to, as if before the answer. -/
theorem answered_failed (h : self.Accounted []) (hl : self.Listening)
    (hadd : ∀ p r, e ≠ .addEventRegistration r p) (harrive : ∀ p, ¬ e.Arrives p)
    (hc : objectForKey rn self.connection.requestCBHash = some (.listen listenSpec))
    (hcurrent : objectForKey listenSpec.query self.connection.listens = some listenSpec)
    (hok : status ≠ "ok") : ∃ sent, Answered self rn listenSpec status e
      (self.failedTree listenSpec.query status) sent (sent.failed rn listenSpec.query)
      (self.cancelled listenSpec.query status) := by
  set path := listenSpec.query with hpath
  have htop : Topmost (Viewed self.serverSyncTree.syncPointTree) path :=
    (hl.listens path).mp (mem_keys_iff.mpr (by simp [hcurrent]))
  have hrn : rn < self.connection.requestNumber := by
    obtain ⟨pre, post, hash, -⟩ := objectForKey_eq_some h.connection.requests.ascending hc
    exact h.connection.requests.numbers (rn, .listen listenSpec) (hash ▸ by simp)
  obtain ⟨starts, hstart, hrequested, hcallback⟩ := onComplete_failed hl htop hok
  have hstop : .stopListening path ∉ starts.map ListenRequest.startListening := by simp
  have hstart' : .startListening path ∉ starts.map ListenRequest.startListening := by
    simpa using hstart
  obtain ⟨sent, hsent, hcontinues, hnodup, hlistens, hother⟩ :=
    listenProvider_spec h.connection h.pipelined hl.nodup hl.listens
      (hrequested.insert htop hstart' hstop)
  have hcurrent' : objectForKey path sent.listens = some listenSpec :=
    (hother path hstart' hstop).trans hcurrent
  have hanswer : ∀ s : RepoConnection κ σ, objectForKey path s.listens = some listenSpec →
      { s with requestCBHash := removeObjectForKey rn s.requestCBHash }.answerListen listenSpec
        status = (s.failed rn path, [.listenComplete path status]) := fun s hs => by
    rw [FPersistentConnection.answerListen, if_pos hs, if_pos hok]
    rfl
  refine ⟨sent, ⟨_, _, _, hanswer _ hcurrent, hanswer _ hcurrent', ?_⟩, hcontinues,
    pendingWriteTree_removeEventRegistration _ _ _ _,
    listening_failed hl (nodup_removeObjectForKey hnodup) fun q => ?_,
    observes_failed hl hadd harrive path status, completed_cancelEvents _ _ _,
    fun server hs => hs.removeEventRegistration none path (some status)⟩
  · have hfailed := listenProvider_failed (s := self.connection) hstart hrn
    rw [hsent] at hfailed
    simp only [FRepo.callbacks, callback, hcallback, request, hfailed, Except.map, bind, Except.bind,
      pure, Except.pure, List.append_nil]
  · refine mem_keys_removeObjectForKey.trans ?_
    rw [hlistens]
    constructor
    · rintro ⟨hq | rfl, hne⟩
      · exact hq
      · exact absurd rfl hne
    · exact fun hq => ⟨.inl hq, fun he => not_viewed_failedTree hl path status (he ▸ hq.1)⟩

/-- **The answer to a listen**: its `onComplete` is called, and then the puts that were held back may
be completed. -/
theorem handled_onResponse (h : self.Accounted []) (hl : self.Listening)
    (hc : objectForKey rn self.connection.requestCBHash = some (.listen listenSpec))
    (hr : self.connection.realtime = some .connected)
    (horder : self.InOrder (.network (.response rn status data))) :
    ∃ self' ps, self.onDataMessage rn status data = .ok (self', ps) ∧
      Handled self (.network (.response rn status data)) self' ps := by
  obtain ⟨hinOrder, hstatuses, hdata⟩ := horder
  have hstatus : status ≠ kFErrorWriteCanceled := hstatuses status rfl
  have hadd : ∀ p r, Event.network (.response rn status data) ≠
      (.addEventRegistration r p : Event κ σ) := by simp
  have harrive : ∀ p, ¬ Event.Arrives p (.network (.response rn status data) : Event κ σ) :=
    fun _ => id
  obtain ⟨tree, sent, answered, ps, hanswered⟩ : ∃ tree sent answered ps,
      Answered self rn listenSpec status (.network (.response rn status data)) tree sent answered
        ps := by
    by_cases hcurrent : objectForKey listenSpec.query self.connection.listens = some listenSpec
    · by_cases hok : status = "ok"
      · subst hok
        simp only [DataFirst, hc] at hdata
        exact ⟨_, _, _, _, answered_ok h hl hadd harrive hcurrent (hdata trivial hcurrent)⟩
      · obtain ⟨sent, hanswered⟩ := answered_failed h hl hadd harrive hc hcurrent hok
        exact ⟨_, sent, _, _, hanswered⟩
    · exact ⟨_, _, _, _, answered_other h hl hadd harrive hcurrent⟩
  obtain ⟨connection, o, o', hanswer, hsent, hcallbacks⟩ := hanswered.callbacks
  obtain ⟨cbs, hsends⟩ := hanswered.continues.sends
  obtain ⟨connection', os, tree', qs, acked, hflush, hqs, hacc, hlistens, hacks, hcompleted⟩ :=
    listenAnswered_spec (h.continues hanswered.pendingWriteTree hanswered.continues)
      (hanswered.continues.objectForKey hc) (hsends.realtime.trans hr)
      (hanswered.continues.answersInOrder h.connection.requests hc rfl hinOrder) hstatus hsent
  have hkeeps : Keeps tree.syncPointTree tree'.syncPointTree :=
    hacks.keeps hanswered.listening.ascending
  refine ⟨_, ps ++ qs, ?_, hacc, hanswered.listening.keeps hkeeps hlistens, ⟨acked, ?_, ?_⟩,
    (Int.add_zero _).symm, fun server hs _ => hacks.synced server (hanswered.synced server hs),
    hanswered.observes.trans_keeps hkeeps qs⟩
  · simp only [onDataMessage, hc, onResponse, hanswer, hcallbacks, bind, Except.bind, hflush, hqs]
    rfl
  · refine (List.append_nil _).trans (Eq.trans ?_ hacks.allWrites)
    exact congrArg FWriteTree.allWrites hanswered.pendingWriteTree.symm
  · rw [completed_append, hanswered.completed, hcompleted, List.nil_append]

/-- **A revoked listen** is one that failed. -/
theorem handled_onListenRevoked (h : self.Accounted []) (hl : self.Listening) (path : List κ)
    (hr : self.connection.realtime = some .connected) :
    ∃ self' ps, self.connectionStep (.listenRevoked fun query => query = path) = .ok (self', ps) ∧
      Handled self (.onListenRevoked path) self' ps := by
  obtain ⟨revoked, hstep, hcontinues, hrevoked⟩ := FPersistentConnection.continues_listenRevoked
    h.connection h.pipelined hr hl.nodup path
  have hnodup : (revoked.listens.map Prod.fst).Nodup := hrevoked ▸ nodup_removeObjectForKey hl.nodup
  have hkeys : ∀ q, q ∈ revoked.listens.map Prod.fst ↔
      Topmost (Viewed self.serverSyncTree.syncPointTree) q ∧ q ≠ path := fun q => by
    rw [hrevoked, mem_keys_removeObjectForKey, hl.listens]
  have hadd : ∀ p r, Event.onListenRevoked path ≠ (.addEventRegistration r p : Event κ σ) := by simp
  have harrive : ∀ p, ¬ Event.Arrives p (.onListenRevoked path : Event κ σ) := fun _ => id
  by_cases htop : Topmost (Viewed self.serverSyncTree.syncPointTree) path
  · rw [if_pos ((hl.listens path).mpr htop)] at hstep
    have hdenied : "permission_denied" ≠ "ok" := by decide
    obtain ⟨starts, -, hrequested, hcallback⟩ := onComplete_failed hl htop hdenied
    obtain ⟨connection, hsent, hcontinues', hnodup', hlistens, -⟩ :=
      listenProvider_spec hcontinues.invariant hcontinues.pipelined hnodup hkeys hrequested
    have htree := pendingWriteTree_removeEventRegistration self.serverSyncTree none path
      (some "permission_denied")
    refine ⟨_, self.cancelled path "permission_denied", ?_,
      h.continues htree (hcontinues.trans hcontinues'), listening_failed hl hnodup' hlistens,
      ⟨[], ?_, completed_cancelEvents _ _ _⟩, (Int.add_zero _).symm,
      fun server hs _ => hs.removeEventRegistration none path (some "permission_denied"),
      observes_failed hl hadd harrive path "permission_denied"⟩
    · simp only [connectionStep, hstep, callbacks, callback, hcallback, request, hsent, Except.map,
        bind, Except.bind, pure, Except.pure, List.append_nil]
      rfl
    · exact (List.append_nil _).trans (congrArg FWriteTree.allWrites htree.symm)
  · rw [if_neg fun hmem => htop ((hl.listens path).mp hmem)] at hstep
    have hkeeps : Keeps self.serverSyncTree.syncPointTree self.serverSyncTree.syncPointTree :=
      .refl hl.ascending
    refine ⟨{ self with connection := revoked }, [], ?_, h.continues rfl hcontinues,
      ⟨hl.ascending, hl.registered, hnodup, fun q => (hkeys q).trans ?_⟩,
      ⟨[], List.append_nil _, rfl⟩, (Int.add_zero _).symm, fun _ hs _ => hs,
      .keeps hadd harrive hkeeps []⟩
    · simp only [connectionStep, hstep, callbacks]
    · exact and_iff_left_of_imp fun hq he => htop (he ▸ hq)

/-- Only the server's errors and purges while completions are held back fail. -/
def Event.Fails (repo : FRepo κ σ) : Event κ σ → Prop
  | .network (.requestError _) => True
  | .purgeOutstandingWrites => repo.connection.putsToAck ≠ []
  | _ => False

theorem handled_connectionStep (h : self.Accounted []) (hl : self.Listening) {e : NetworkEvent κ σ}
    (hen : self.Enabled (.network e)) (horder : self.InOrder (.network e))
    (herror : ∀ error, e ≠ .requestError error) (hquiet : ¬ self.connection.ConcernsListens e) :
    ∃ self' ps, self.connectionStep e = .ok (self', ps) ∧ Handled self (.network e) self' ps := by
  have hblocks : e.blocks = [] := by
    cases e with
    | putData => exact absurd hen.1 id
    | _ => rfl
  have hpurge : e ≠ .purgeOutstandingWrites := fun he => by
    subst he
    exact hen.1
  obtain ⟨connection, tree, ps, acked, hok, hacc, hlistens, hacks, hcompleted⟩ :=
    connectionStep_spec (hblocks ▸ h) hen.2 horder.1 horder.2.1 hpurge herror hquiet
  have hkeeps := hacks.keeps hl.ascending
  exact ⟨_, ps, hok, hacc, hl.keeps hkeeps hlistens,
    ⟨acked, (List.append_nil _).trans hacks.allWrites, hcompleted⟩, (Int.add_zero _).symm,
    fun server hs _ => hacks.synced server hs, .keeps (by simp) (fun _ => id) hkeeps ps⟩

theorem handled_network (h : self.Accounted []) (hl : self.Listening) {e : NetworkEvent κ σ}
    (hen : self.Enabled (.network e)) (horder : self.InOrder (.network e))
    (herror : ∀ error, e ≠ .requestError error) :
    ∃ self' ps, self.network e = .ok (self', ps) ∧ Handled self (.network e) self' ps := by
  cases e with
  | response rn status data =>
      rw [network, onDataMessage]
      by_cases hlisten : self.connection.ConcernsListens (.response rn status data)
      · obtain ⟨listenSpec, hc⟩ := hlisten
        exact handled_onResponse h hl hc hen.2 horder
      · have hstep := handled_connectionStep h hl hen horder herror hlisten
        split
        · next listenSpec hc => exact absurd ⟨listenSpec, hc⟩ hlisten
        · exact hstep
  | listen query => exact absurd hen.1 id
  | unlisten query => exact absurd hen.1 id
  | listenRevoked atPath => exact absurd hen.1 id
  | _ => exact handled_connectionStep h hl hen horder herror id

/-- **One step** that does not fail keeps the writes and the views in step and the listens up to
date. -/
theorem handled_step (h : self.Accounted []) (hl : self.Listening) {e : Event κ σ}
    (hen : self.Enabled e) (horder : self.InOrder e) (hfails : ¬ e.Fails self) :
    ∃ self' ps, self.step e = .ok (self', ps) ∧ Handled self e self' ps := by
  cases e with
  | network e =>
      refine handled_network h hl hen horder fun error he => ?_
      subst he
      exact hfails trivial
  | onListenRevoked path => exact handled_onListenRevoked h hl path hen
  | onDataUpdate path data => exact ⟨_, _, rfl, handled_onDataUpdate h hl path data⟩
  | set path newNode => exact handled_set h hl path newNode
  | addEventRegistration eventRegistration path =>
      exact handled_addEventRegistration h hl eventRegistration path
  | removeEventRegistration handle path => exact handled_removeEventRegistration h hl handle path
  | purgeOutstandingWrites => exact handled_purge h hl (not_not.mp hfails)

end lawful

end FRepo
end ZipR
