import ZipR.Observers
import ZipR.Keys
import ZipR.Listens

/-! # The repository

`FRepo` puts the sync tree and the connection together: a write shows in the views at once, becomes
a put of the connection, and leaves the pending writes when its put completes; the connection
listens for the views, and a listen that fails takes its view away.

* **Events.** What happens to the connection, the data and the revocations that the server sends,
  and the requests of the app.
* **Requests.** The connection does what the sync tree asks (`listenProvider_spec`).
* **Invariants.** `Accounted`: the pending writes are the puts that wait.  `Listening`: the
  connection listens to the topmost paths that have views.
* **Completions.** A step of the connection takes the first pending writes out
  (`connectionStep_spec`, `listenAnswered_spec`).

Writes have no priorities and belong to no transactions, and all queries are default queries. -/

namespace ZipR

open Reactive Patches Comparators Coverage FSyncTree NSMutableDictionary

variable {κ σ : Type}

/-- A put carries its path and its data; its completion block holds the id and the path. -/
abbrev RepoConnection (κ σ : Type) := FPersistentConnection (List κ × Node κ σ) (Int × List κ) (List κ)

abbrev NetworkEvent (κ σ : Type) :=
  FPersistentConnection.Event (List κ × Node κ σ) (Int × List κ) (List κ)

abbrev NetworkOutput (κ σ : Type) :=
  FPersistentConnection.Output (List κ × Node κ σ) (Int × List κ) (List κ)

structure FRepo (κ σ : Type) where
  serverSyncTree : FSyncTree κ σ
  connection : RepoConnection κ σ
  writeIdCounter : Int

namespace FRepo

inductive Assertion where
  | connection (assertion : ZipR.Assertion)
  | olderWriteOnNewerOnes
  | noWriteWithId

inductive Output (κ : Type) where
  /-- The completion of a write, with the status and the reason when it failed. -/
  | onComplete (writeId : Int) (path : List κ) (error : Option (String × Option String))
  | cancelEvent (eventRegistration : FEventRegistration) (path : List κ) (error : String)

/-- The client makes no requests of the connection but through the repository. -/
inductive Event (κ σ : Type) [Comparators κ] where
  | network (e : NetworkEvent κ σ)
  | onListenRevoked (path : List κ)
  | onDataUpdate (path : List κ) (data : FNode κ σ)
  | set (path : List κ) (newNode : FNode κ σ)
  | addEventRegistration (eventRegistration : FEventRegistration) (path : List κ)
  | removeEventRegistration (handle : Option ℕ) (path : List κ)
  | purgeOutstandingWrites

def init : FRepo κ σ := ⟨.init, .init, 0⟩

variable [DecidableEq κ] [DecidableEq σ] [Comparators κ]

/-- The listens and unlistens that the sync tree asks for. -/
def listenProvider : List (ListenRequest κ) → RepoConnection κ σ →
    Except ZipR.Assertion (RepoConnection κ σ)
  | [], connection => .ok connection
  | .startListening path :: requests, connection => do
      let (connection, _) ← connection.listen path
      listenProvider requests connection
  | .stopListening path :: requests, connection => do
      let (connection, _) ← connection.unlisten path
      listenProvider requests connection

def request (requests : List (ListenRequest κ)) (self : FRepo κ σ) : Except Assertion (FRepo κ σ) :=
  match listenProvider requests self.connection with
  | .ok connection => .ok { self with connection }
  | .error assertion => .error (.connection assertion)

def callOnComplete (writeId : Int) (path : List κ) (status : String) (errorReason : Option String) :
    Output κ :=
  .onComplete writeId path
    (if status = kFWPResponseForActionStatusOk then none else some (status, errorReason))

/-- A cancelled write was removed already. -/
def ackWrite (writeId : Int) (status : String) (self : FRepo κ σ) : Except Assertion (FRepo κ σ) :=
  if status = kFErrorWriteCanceled then .ok self
  else
    match self.serverSyncTree.ackUserWriteWithWriteId writeId
      (status ≠ kFWPResponseForActionStatusOk) with
    | some serverSyncTree => .ok { self with serverSyncTree }
    | none => .error .noWriteWithId

/-- The `onComplete` of a listen: when it failed all listeners of its query go. -/
def onComplete (query : List κ) (status : String) (self : FRepo κ σ) :
    Except Assertion (FRepo κ σ × List (Output κ)) :=
  if status = "ok" then
    .ok ({ self with serverSyncTree := self.serverSyncTree.applyListenCompleteAtPath query }, [])
  else do
    let (serverSyncTree, requests, cancelEvents) :=
      self.serverSyncTree.removeEventRegistration none query (some status)
    let self ← { self with serverSyncTree }.request requests
    return (self, cancelEvents.map fun registration => .cancelEvent registration query status)

/-- The connection calls the completion blocks of the puts and of the listens. -/
def callback (o : NetworkOutput κ σ) (self : FRepo κ σ) :
    Except Assertion (FRepo κ σ × List (Output κ)) :=
  match o with
  | .onComplete (writeId, path) status errorReason => do
      let self ← self.ackWrite writeId status
      return (self, [callOnComplete writeId path status errorReason])
  | .listenComplete query status => self.onComplete query status
  | _ => .ok (self, [])

def callbacks : List (NetworkOutput κ σ) → FRepo κ σ →
    Except Assertion (FRepo κ σ × List (Output κ))
  | [], self => .ok (self, [])
  | o :: os, self => do
      let (self, ps) ← self.callback o
      let (self, qs) ← callbacks os self
      return (self, ps ++ qs)

def connectionStep (e : NetworkEvent κ σ) (self : FRepo κ σ) :
    Except Assertion (FRepo κ σ × List (Output κ)) :=
  match self.connection.step e with
  | .ok (connection, os) => callbacks os { self with connection }
  | .error assertion => .error (.connection assertion)

/-- The answer to a listen: its `onComplete` may listen to other queries before the puts that were
held back are completed. -/
def onResponse (listenSpec : FOutstandingQuery (List κ)) (status : String) (self : FRepo κ σ) :
    Except Assertion (FRepo κ σ × List (Output κ)) := do
  let (connection, os) := self.connection.answerListen listenSpec status
  let (self, ps) ← callbacks os { self with connection }
  match self.connection.listenAnswered with
  | .ok (connection, os) =>
      let (self, qs) ← callbacks os { self with connection }
      return (self, ps ++ qs)
  | .error assertion => .error (.connection assertion)

def onDataMessage (rn : ℕ) (status : String) (data : Option String) (self : FRepo κ σ) :
    Except Assertion (FRepo κ σ × List (Output κ)) :=
  match objectForKey rn self.connection.requestCBHash with
  | some (.listen listenSpec) =>
      let connection := { self.connection with
        requestCBHash := removeObjectForKey rn self.connection.requestCBHash }
      { self with connection }.onResponse listenSpec status
  | _ => self.connectionStep (.response rn status data)

def network (e : NetworkEvent κ σ) (self : FRepo κ σ) :
    Except Assertion (FRepo κ σ × List (Output κ)) :=
  match e with
  | .response rn status data => self.onDataMessage rn status data
  | e => self.connectionStep e

def set (path : List κ) (newNode : Node κ σ) (self : FRepo κ σ) :
    Except Assertion (FRepo κ σ × List (Output κ)) :=
  let writeId := self.writeIdCounter
  match self.serverSyncTree.applyUserOverwriteAtPath path newNode writeId true with
  | some serverSyncTree =>
      connectionStep (.putData (path, newNode) none (writeId, path))
        { self with serverSyncTree, writeIdCounter := writeId + 1 }
  | none => .error .olderWriteOnNewerOnes

def onDataUpdate (path : List κ) (data : Node κ σ) (self : FRepo κ σ) : FRepo κ σ :=
  { self with serverSyncTree := self.serverSyncTree.applyServerOverwriteAtPath path data }

def addEventRegistration (eventRegistration : FEventRegistration) (path : List κ)
    (self : FRepo κ σ) : Except Assertion (FRepo κ σ × List (Output κ)) := do
  let (serverSyncTree, requests) := self.serverSyncTree.addEventRegistration eventRegistration path
  let self ← { self with serverSyncTree }.request requests
  return (self, [])

def removeEventRegistration (handle : Option ℕ) (path : List κ) (self : FRepo κ σ) :
    Except Assertion (FRepo κ σ × List (Output κ)) := do
  let (serverSyncTree, requests, _) :=
    self.serverSyncTree.removeEventRegistration handle path none
  let self ← { self with serverSyncTree }.request requests
  return (self, [])

def purgeOutstandingWrites (self : FRepo κ σ) : Except Assertion (FRepo κ σ × List (Output κ)) :=
  connectionStep .purgeOutstandingWrites
    { self with serverSyncTree := self.serverSyncTree.removeAllWrites }

def step (self : FRepo κ σ) : Event κ σ → Except Assertion (FRepo κ σ × List (Output κ))
  | .network e => self.network e
  | .onListenRevoked path => self.connectionStep (.listenRevoked fun query => query = path)
  | .onDataUpdate path data => .ok (self.onDataUpdate path data.node, [])
  | .set path newNode => self.set path newNode.node
  | .addEventRegistration eventRegistration path => self.addEventRegistration eventRegistration path
  | .removeEventRegistration handle path => self.removeEventRegistration handle path
  | .purgeOutstandingWrites => self.purgeOutstandingWrites

/-- Listens, unlistens, puts and purges are made by the repository only, and data and revocations
are events of their own. -/
def OfNetwork : NetworkEvent κ σ → Prop
  | .listen _ | .unlisten _ | .putData _ _ _ | .purgeOutstandingWrites | .listenRevoked _ => False
  | _ => True

/-- Data and revocations come over a ready connection. -/
def Enabled (self : FRepo κ σ) : Event κ σ → Prop
  | .network e => OfNetwork e ∧ self.connection.Enabled e
  | .onListenRevoked _ | .onDataUpdate _ _ => self.connection.realtime = some .connected
  | _ => True

variable (κ σ) in
def machine : Machine (FRepo κ σ) (Event κ σ) (Output κ) Assertion where
  start self := self = init
  enabled := Enabled
  step := step

instance (e : NetworkEvent κ σ) : Decidable (OfNetwork e) := by
  cases e with
  | listen _ | unlisten _ | putData _ _ _ | purgeOutstandingWrites | listenRevoked _ =>
      exact instDecidableFalse
  | _ => exact instDecidableTrue

instance (self : FRepo κ σ) (e : Event κ σ) : Decidable (self.Enabled e) := by
  cases e with
  | network e => exact inferInstanceAs (Decidable (OfNetwork e ∧ self.connection.Enabled e))
  | onListenRevoked _ | onDataUpdate _ _ =>
      exact inferInstanceAs (Decidable (self.connection.realtime = some .connected))
  | _ => exact instDecidableTrue

/-- The view at a path has its data. -/
def hasData (self : FRepo κ σ) (path : List κ) : Bool :=
  (viewAt self.serverSyncTree.syncPointTree path).any fun view =>
    view.viewCache.cachedServerSnap.isFullyInitialized

/-- A server that says a listen is complete has sent its data before. -/
def DataFirst (self : FRepo κ σ) : NetworkEvent κ σ → Prop
  | .response rn status _ =>
      match objectForKey rn self.connection.requestCBHash with
      | some (.listen listenSpec) => status = "ok" →
          objectForKey listenSpec.query self.connection.listens = some listenSpec →
            self.hasData listenSpec.query = true
      | _ => True
  | _ => True

/-- The server answers in the order of the requests and never with the status of a cancelled write,
no put completes at once while others are held back, and data come before their listen is
complete. -/
def InOrder (self : FRepo κ σ) : Event κ σ → Prop
  | .network e => self.connection.AnswersInOrder e ∧ (∀ st ∈ e.status, st ≠ kFErrorWriteCanceled) ∧
      self.DataFirst e
  | _ => True

variable (κ σ) in
def inOrder : Machine (FRepo κ σ) (Event κ σ) (Output κ) Assertion := (machine κ σ).restrict InOrder

instance (self : FRepo κ σ) (e : NetworkEvent κ σ) : Decidable (self.DataFirst e) := by
  cases e with
  | response rn status data =>
      unfold DataFirst
      dsimp only
      split <;> infer_instance
  | _ => exact instDecidableTrue

instance (self : FRepo κ σ) (e : Event κ σ) : Decidable (self.InOrder e) := by
  cases e with
  | network e =>
      exact inferInstanceAs (Decidable (_ ∧ (∀ st ∈ e.status, st ≠ kFErrorWriteCanceled) ∧ _))
  | _ => exact inferInstanceAs (Decidable True)

instance (self : FRepo κ σ) (e : Event κ σ) : Decidable ((inOrder κ σ).enabled self e) :=
  inferInstanceAs (Decidable (self.Enabled e ∧ self.InOrder e))

/-! ### Requests of the sync tree -/

section provider
variable {s : RepoConnection κ σ} {L L' : List κ → Prop} {requests : List (ListenRequest κ)}

open FPersistentConnection in
omit [DecidableEq σ] [Comparators κ] in
/-- **The provider does what it is asked**: no path is listened to twice. -/
theorem listenProvider_spec (h : s.Invariant) (hp : s.Pipelined)
    (hnodup : (s.listens.map Prod.fst).Nodup) (hL : ∀ q, q ∈ s.listens.map Prod.fst ↔ L q)
    (hr : Requested L requests L') : ∃ s', listenProvider requests s = .ok s' ∧ Continues s s' ∧
      (s'.listens.map Prod.fst).Nodup ∧ (∀ q, q ∈ s'.listens.map Prod.fst ↔ L' q) ∧
      ∀ q, .startListening q ∉ requests → .stopListening q ∉ requests →
        objectForKey q s'.listens = objectForKey q s.listens := by
  induction requests generalizing s L with
  | nil =>
      refine ⟨s, rfl, .refl h hp, hnodup, fun q => (hL q).trans ?_, fun _ _ _ => rfl⟩
      simpa using (hr.listened q).symm
  | cons r requests ih =>
      cases r with
      | startListening p =>
          have hfresh : objectForKey p s.listens = none :=
            objectForKey_eq_none.mpr fun hmem => hr.fresh p List.mem_cons_self ((hL p).mp hmem)
          obtain ⟨t, os, hok, hcontinues, hlistens⟩ := continues_listen h hp hfresh
          have hkeys : ∀ q, q ∈ t.listens.map Prod.fst ↔ L q ∨ q = p := fun q => by
            rw [hlistens, mem_keys_setObject, hL]
          obtain ⟨s', hs', hcontinues', hnodup', hL', hother⟩ := ih hcontinues.invariant
            hcontinues.pipelined (hlistens ▸ nodup_setObject hnodup _) hkeys hr.of_startListening
          refine ⟨s', ?_, hcontinues.trans hcontinues', hnodup', hL', fun q hstart hstop => ?_⟩
          · rw [listenProvider, hok]
            exact hs'
          · simp only [List.mem_cons, not_or] at hstart hstop
            have hne : q ≠ p := fun he => hstart.1 (he ▸ rfl)
            rw [hother q hstart.2 hstop.2, hlistens, objectForKey_setObject_ne hne]
      | stopListening p =>
          obtain ⟨t, os, hok, hcontinues, hlistens⟩ := continues_unlisten h hp p
          have hkeys : ∀ q, q ∈ t.listens.map Prod.fst ↔ L q ∧ q ≠ p := fun q => by
            rw [hlistens, mem_keys_removeObjectForKey, hL]
          obtain ⟨s', hs', hcontinues', hnodup', hL', hother⟩ := ih hcontinues.invariant
            hcontinues.pipelined (hlistens ▸ nodup_removeObjectForKey hnodup) hkeys hr.of_stopListening
          refine ⟨s', ?_, hcontinues.trans hcontinues', hnodup', hL', fun q hstart hstop => ?_⟩
          · rw [listenProvider, hok]
            exact hs'
          · simp only [List.mem_cons, not_or] at hstart hstop
            have hne : q ≠ p := fun he => hstop.1 (he ▸ rfl)
            rw [hother q hstart.2 hstop.2, hlistens, objectForKey_removeObjectForKey_ne hne]

omit [DecidableEq σ] [Comparators κ] in
/-- Listening after a failed listen is listening before its answer. -/
theorem listenProvider_failed {starts : List (List κ)} {rn : ℕ} {path : List κ}
    (hpath : path ∉ starts) (hrn : rn < s.requestNumber) :
    listenProvider (starts.map .startListening) (s.failed rn path) =
      (listenProvider (starts.map .startListening) s).map fun s' => s'.failed rn path := by
  induction starts generalizing s with
  | nil => rfl
  | cons q starts ih =>
      have hne : q ≠ path := fun he => hpath (he ▸ List.mem_cons_self)
      rw [List.map_cons, listenProvider, listenProvider,
        FPersistentConnection.listen_failed hne (Nat.ne_of_lt hrn)]
      cases hok : s.listen q with
      | error assertion => rfl
      | ok r =>
          have hnumber := FPersistentConnection.requestNumber_listen hok
          exact ih (fun hmem => hpath (List.mem_cons_of_mem q hmem)) (hrn.trans_le hnumber)

end provider

/-! ### The pending writes and the puts that wait -/

/-- What a completion block holds. -/
def key (r : FWriteRecord κ σ) : Int × List κ := (r.writeId, r.path)

/-- The writes whose completion has not been called. -/
def pending (self : FRepo κ σ) : List (FWriteRecord κ σ) :=
  self.serverSyncTree.pendingWriteTree.allWrites

/-- The completions that are called. -/
def completed (os : List (Output κ)) : List (Int × List κ) :=
  os.filterMap fun
    | .onComplete writeId path _ => some (writeId, path)
    | .cancelEvent _ _ _ => none

/-- The first writes of a sync tree are taken out. -/
structure Acks (tree : FSyncTree κ σ) (acked : List (FWriteRecord κ σ)) (tree' : FSyncTree κ σ) :
    Prop where
  allWrites : tree.pendingWriteTree.allWrites = acked ++ tree'.pendingWriteTree.allWrites
  last : ∀ n, -1 < n → tree.pendingWriteTree.lastWriteId < n →
    (∀ u ∈ tree.pendingWriteTree.allWrites, u.writeId < n) → tree'.pendingWriteTree.lastWriteId < n
  keeps : tree.syncPointTree.Ascending → Keeps tree.syncPointTree tree'.syncPointTree
  synced : ∀ server, tree.Synced server → tree'.Synced server

variable {self self' : FRepo κ σ} {made : List (Int × List κ)}

omit [DecidableEq κ] [DecidableEq σ] in
theorem Acks.refl (tree : FSyncTree κ σ) : Acks tree [] tree :=
  ⟨rfl, fun _ _ hlast _ => hlast, .refl, fun _ hs => hs⟩

omit [DecidableEq κ] [DecidableEq σ] in
theorem Acks.trans {tree tree' tree'' : FSyncTree κ σ} {acked acked' : List (FWriteRecord κ σ)}
    (h : Acks tree acked tree') (h' : Acks tree' acked' tree'') :
    Acks tree (acked ++ acked') tree'' := by
  refine ⟨by rw [h.allWrites, h'.allWrites, List.append_assoc], fun n hn hlast hids => ?_,
    fun hasc => (h.keeps hasc).trans (h'.keeps (h.keeps hasc).ascending),
    fun server hs => h'.synced server (h.synced server hs)⟩
  refine h'.last n hn (h.last n hn hlast hids) fun u hu => hids u ?_
  rw [h.allWrites]
  exact List.mem_append_right _ hu

section lawful
variable [LawfulComparators κ]

/-- The completion of the first pending write takes it out. -/
theorem ackWrite_first {w : FWriteRecord κ σ} {ws : List (FWriteRecord κ σ)}
    (hall : self.pending = w :: ws) (hids : self.pending.Pairwise (·.writeId < ·.writeId))
    {status : String} (hstatus : status ≠ kFErrorWriteCanceled) :
    ∃ tree, self.ackWrite w.writeId status = .ok { self with serverSyncTree := tree } ∧
      Acks self.serverSyncTree [w] tree := by
  obtain ⟨tree, htree, hws, hlast, hkeeps, hsynced⟩ :=
    FSyncTree.exists_ackUserWrite hall hids (status ≠ kFWPResponseForActionStatusOk)
  refine ⟨tree, by rw [ackWrite, if_neg hstatus, htree], ?_, fun n hn hn' hall' => ?_, hkeeps,
    hsynced⟩
  · rw [hws]
    exact hall
  · refine hlast n hn hn' fun u hu => hall' u ?_
    change u ∈ self.pending
    rw [hall]
    exact List.mem_cons_of_mem w hu

/-- **The completions of the first pending writes** take them out, one after the other. -/
theorem callbacks_spec (self : FRepo κ σ) {os : List (NetworkOutput κ σ)}
    (hlistens : ∀ query status, .listenComplete query status ∉ os)
    {acked rest : List (FWriteRecord κ σ)} (hall : self.pending = acked ++ rest)
    (hids : self.pending.Pairwise (·.writeId < ·.writeId))
    (hdone : (FPersistentConnection.completions os).map Prod.fst = acked.map key)
    (hstatuses : ∀ d ∈ FPersistentConnection.completions os, d.2 ≠ kFErrorWriteCanceled) :
    ∃ tree ps, callbacks os self = .ok ({ self with serverSyncTree := tree }, ps) ∧
      Acks self.serverSyncTree acked tree ∧ completed ps = acked.map key := by
  induction os generalizing self acked with
  | nil =>
      obtain rfl : acked = [] := List.map_eq_nil_iff.mp hdone.symm
      exact ⟨_, [], rfl, .refl _, rfl⟩
  | cons o os ih =>
      have hlistens' : ∀ query status, .listenComplete query status ∉ os := fun query status hmem =>
        hlistens query status (List.mem_cons_of_mem o hmem)
      cases o with
      | onComplete block status errorReason =>
          obtain ⟨writeId, path⟩ := block
          cases acked with
          | nil => cases hdone
          | cons w acked =>
              obtain ⟨hw, hrest⟩ := List.cons.inj hdone
              obtain ⟨hwid, hwpath⟩ := Prod.mk.inj hw
              have hne : status ≠ kFErrorWriteCanceled := hstatuses _ List.mem_cons_self
              obtain ⟨tree, htree, hacks⟩ := ackWrite_first hall hids hne
              have hpending : self.pending = [w] ++ tree.pendingWriteTree.allWrites :=
                hacks.allWrites
              have hnext : acked ++ rest = tree.pendingWriteTree.allWrites :=
                (List.cons.inj (hall.symm.trans hpending)).2
              obtain ⟨tree', ps, hps, hacks', hcompleted⟩ :=
                ih { self with serverSyncTree := tree } hlistens' hnext.symm
                  (List.pairwise_append.mp (hpending ▸ hids)).2.1 hrest
                  fun d hd => hstatuses d (List.mem_cons_of_mem _ hd)
              refine ⟨tree', callOnComplete writeId path status errorReason :: ps, ?_,
                hacks.trans hacks', ?_⟩
              · rw [callbacks, callback, hwid, htree]
                simp only [bind, Except.bind, pure, Except.pure, hps]
                rfl
              · rw [List.map_cons, ← hw, ← hcompleted]
                rfl
      | listenComplete query status => exact absurd List.mem_cons_self (hlistens query status)
      | _ =>
          obtain ⟨tree, ps, hps, hacks, hcompleted⟩ := ih self hlistens' hall hids hdone hstatuses
          refine ⟨tree, [] ++ ps, ?_, hacks, hcompleted⟩
          simp only [callbacks, callback, bind, Except.bind, hps]
          rfl

end lawful
/-- The pending writes are the puts that wait or are being made, and their ids ascend below the next
one. -/
structure Accounted (repo : FRepo κ σ) (made : List (Int × List κ)) : Prop where
  connection : repo.connection.Invariant
  pipelined : repo.connection.Pipelined
  statuses : ∀ put ∈ repo.connection.putsToAck, put.status ≠ kFErrorWriteCanceled
  ids : repo.pending.Pairwise (·.writeId < ·.writeId)
  waiting : repo.pending.map key = repo.connection.waiting ++ made
  issued : ∀ r ∈ repo.pending, r.writeId < repo.writeIdCounter
  last : repo.serverSyncTree.pendingWriteTree.lastWriteId < repo.writeIdCounter
  counter : 0 ≤ repo.writeIdCounter

namespace Accounted

omit [DecidableEq κ] [DecidableEq σ] [Comparators κ] in
theorem init : (init : FRepo κ σ).Accounted [] where
  connection := FPersistentConnection.invariant_init
  pipelined := FPersistentConnection.pipelined_init
  statuses := nofun
  ids := .nil
  waiting := rfl
  issued := nofun
  last := (by decide : (-1 : Int) < 0)
  counter := le_rfl

omit [DecidableEq κ] [DecidableEq σ] [Comparators κ] in
/-- Requests may be sent and views may change. -/
theorem continues (h : self.Accounted []) {tree : FSyncTree κ σ}
    (htree : tree.pendingWriteTree = self.serverSyncTree.pendingWriteTree)
    {connection : RepoConnection κ σ} (hc : self.connection.Continues connection) :
    Accounted { self with serverSyncTree := tree, connection } [] := by
  have hpending : FRepo.pending { self with serverSyncTree := tree, connection } = self.pending :=
    congrArg FWriteTree.allWrites htree
  obtain ⟨cbs, hsends⟩ := hc.sends
  refine ⟨hc.invariant, hc.pipelined, ?_, hpending ▸ h.ids, ?_, hpending ▸ h.issued, ?_, h.counter⟩
  · rw [hsends.putsToAck]
    exact h.statuses
  · rw [hpending, hsends.waiting]
    exact h.waiting
  · rw [htree]
    exact h.last

omit [DecidableEq κ] [DecidableEq σ] [Comparators κ] in
theorem views (h : self.Accounted []) {tree : FSyncTree κ σ}
    (htree : tree.pendingWriteTree = self.serverSyncTree.pendingWriteTree) :
    Accounted { self with serverSyncTree := tree } [] :=
  h.continues htree (.refl h.connection h.pipelined)

omit [DecidableEq κ] [DecidableEq σ] in
/-- The writes that are left when the first ones are taken out. -/
theorem acks (h : self.Accounted made) {acked : List (FWriteRecord κ σ)}
    (hacks : Acks self.serverSyncTree acked self'.serverSyncTree)
    (hcounter : self'.writeIdCounter = self.writeIdCounter)
    (hconnection : self'.connection.Invariant) (hpipelined : self'.connection.Pipelined)
    (hstatuses : ∀ put ∈ self'.connection.putsToAck, put.status ≠ kFErrorWriteCanceled)
    (hwaiting : self'.pending.map key = self'.connection.waiting) : self'.Accounted [] := by
  have hpending : self.pending = acked ++ self'.pending := hacks.allWrites
  have hcount := h.counter
  refine ⟨hconnection, hpipelined, hstatuses, (List.pairwise_append.mp (hpending ▸ h.ids)).2.1,
    by rw [hwaiting, List.append_nil], fun r hr => ?_, ?_, hcounter ▸ h.counter⟩
  · rw [hcounter]
    exact h.issued r (hpending ▸ List.mem_append_right _ hr)
  · rw [hcounter]
    exact hacks.last _ (by omega) h.last h.issued

end Accounted

/-- Every view has a registration, and the connection listens to the topmost paths with views. -/
structure Listening (repo : FRepo κ σ) : Prop where
  ascending : repo.serverSyncTree.syncPointTree.Ascending
  registered : AllRegistered repo.serverSyncTree.syncPointTree
  nodup : (repo.connection.listens.map Prod.fst).Nodup
  listens : ∀ q, q ∈ repo.connection.listens.map Prod.fst ↔
    Topmost (Viewed repo.serverSyncTree.syncPointTree) q

namespace Listening

omit [DecidableEq κ] [DecidableEq σ] in
theorem init : (init : FRepo κ σ).Listening where
  ascending := ImmutableTree.ascending_empty
  registered p hp := absurd (viewAt_empty p) hp
  nodup := .nil
  listens q := iff_of_false (by simp [FRepo.init, FPersistentConnection.init])
    fun htop => htop.1 (viewAt_empty q)

omit [DecidableEq κ] [DecidableEq σ] in
theorem keeps (h : self.Listening)
    (hkeeps : Keeps self.serverSyncTree.syncPointTree self'.serverSyncTree.syncPointTree)
    (hlistens : self'.connection.listens = self.connection.listens) : self'.Listening := by
  refine ⟨hkeeps.ascending, hkeeps.allRegistered h.registered, hlistens ▸ h.nodup, fun q => ?_⟩
  rw [hlistens, h.listens]
  exact topmost_congr fun p => (hkeeps.viewed p).symm

end Listening

/-! ### Steps of the connection -/

section lawful
variable [LawfulComparators κ]

open FPersistentConnection in
/-- What the connection completes is taken out of the pending writes. -/
theorem completions_spec (h : self.Accounted made) {e : NetworkEvent κ σ}
    (hmade : e.blocks = made) {connection : RepoConnection κ σ} (hlife : connection.Lifecycle)
    {os : List (NetworkOutput κ σ)} (heffect : Effect self.connection e connection (completions os))
    (horder : self.connection.AnswersInOrder e) (hstatus : ∀ st ∈ e.status, st ≠ kFErrorWriteCanceled)
    (hpurge : e ≠ .purgeOutstandingWrites) {os' : List (NetworkOutput κ σ)}
    (hos : completions os' = completions os)
    (hlistens : ∀ query status, .listenComplete query status ∉ os') :
    ∃ tree ps acked, callbacks os' { self with connection } =
        .ok ({ self with connection, serverSyncTree := tree }, ps) ∧
      Accounted { self with connection, serverSyncTree := tree } [] ∧
      Acks self.serverSyncTree acked tree ∧ FRepo.completed ps = acked.map key := by
  subst hmade
  have hinv : connection.Invariant := ⟨hlife, heffect.requests h.connection.requests,
    heffect.restored h.connection.lifecycle hlife h.connection.requests h.connection.restored⟩
  obtain ⟨hpipelined, hdone⟩ := heffect.ordered h.connection hlife h.pipelined horder
  obtain ⟨hstatuses, hheld⟩ := heffect.statuses (P := (· ≠ kFErrorWriteCanceled)) h.statuses hstatus
    (by decide) fun he => absurd he hpurge
  obtain ⟨acked, rest, hpending, hacked, hrest⟩ :=
    List.map_eq_append_iff.mp (h.waiting.trans hdone.symm)
  rw [← hos] at hstatuses hacked
  obtain ⟨tree, ps, hps, hacks, hcompleted⟩ := callbacks_spec { self with connection } hlistens
    hpending h.ids hacked.symm hstatuses
  refine ⟨tree, ps, acked, hps, ?_, hacks, hcompleted⟩
  refine h.acks hacks rfl hinv hpipelined hheld ?_
  have htree : tree.pendingWriteTree.allWrites = rest :=
    List.append_cancel_left (hacks.allWrites.symm.trans hpending)
  rw [← hrest, ← htree]
  rfl

open FPersistentConnection in
/-- **A step of the connection** that leaves the listens alone completes the first pending writes. -/
theorem connectionStep_spec {e : NetworkEvent κ σ} (h : self.Accounted e.blocks)
    (hen : self.connection.Enabled e) (horder : self.connection.AnswersInOrder e)
    (hstatus : ∀ st ∈ e.status, st ≠ kFErrorWriteCanceled) (hpurge : e ≠ .purgeOutstandingWrites)
    (herror : ∀ error, e ≠ .requestError error) (hquiet : ¬ self.connection.ConcernsListens e) :
    ∃ connection tree ps acked,
      self.connectionStep e = .ok ({ self with connection, serverSyncTree := tree }, ps) ∧
      Accounted { self with connection, serverSyncTree := tree } [] ∧
      connection.listens = self.connection.listens ∧
      Acks self.serverSyncTree acked tree ∧ FRepo.completed ps = acked.map key := by
  obtain ⟨connection, os, hok, hlife, heffect⟩ :=
    does_step h.connection.lifecycle h.connection.requests hen herror
  obtain ⟨hlistens, hnone⟩ := quiet_step hquiet connection os hok
  obtain ⟨tree, ps, acked, hps, hacc, hacks, hcompleted⟩ :=
    completions_spec h rfl hlife heffect horder hstatus hpurge rfl hnone
  exact ⟨connection, tree, ps, acked, by rw [connectionStep, hok]; exact hps, hacc, hlistens, hacks,
    hcompleted⟩

open FPersistentConnection in
/-- **After the `onComplete` of a listen** the puts that were held back may complete. -/
theorem listenAnswered_spec (h : self.Accounted []) {rn : ℕ} {status : String} {data : Option String}
    {listenSpec : FOutstandingQuery (List κ)}
    (hc : objectForKey rn self.connection.requestCBHash = some (.listen listenSpec))
    (hr : self.connection.realtime = some .connected)
    (horder : self.connection.AnswersInOrder (.response rn status data))
    (hstatus : status ≠ kFErrorWriteCanceled) {answered : RepoConnection κ σ}
    {o : List (NetworkOutput κ σ)}
    (hanswered : { self.connection with
      requestCBHash := removeObjectForKey rn self.connection.requestCBHash }.answerListen listenSpec
        status = (answered, o)) :
    ∃ connection os tree ps acked, answered.listenAnswered = .ok (connection, os) ∧
      callbacks os { self with connection } =
        .ok ({ self with connection, serverSyncTree := tree }, ps) ∧
      Accounted { self with connection, serverSyncTree := tree } [] ∧
      connection.listens = answered.listens ∧
      Acks self.serverSyncTree acked tree ∧ FRepo.completed ps = acked.map key := by
  obtain ⟨connection, os', hok, hlife, heffect⟩ :=
    does_step h.connection.lifecycle h.connection.requests (e := .response rn status data) hr (by simp)
  rw [step_response_of_listen hc, FPersistentConnection.onResponse, hanswered] at hok
  cases hflush : answered.listenAnswered with
  | error assertion =>
      simp only [hflush] at hok
      cases hok
  | ok outcome =>
      obtain ⟨connection', os⟩ := outcome
      simp only [hflush] at hok
      obtain ⟨rfl, rfl⟩ := Prod.mk.inj (Except.ok.inj hok)
      obtain ⟨hlistens, hnone⟩ := quiet_listenAnswered connection' os hflush
      have hsilent : completions o = [] := by
        obtain ⟨listens, o', hpair, ho⟩ := answerListen_eq { self.connection with
          requestCBHash := removeObjectForKey rn self.connection.requestCBHash } listenSpec status
        obtain ⟨-, rfl⟩ := Prod.mk.inj (hanswered.symm.trans hpair)
        exact ho
      obtain ⟨tree, ps, acked, hps, hacc, hacks, hcompleted⟩ :=
        completions_spec h rfl hlife heffect horder (by simpa [Event.status] using hstatus)
          (by simp)
          (by rw [completions_append, hsilent, List.nil_append]) hnone
      exact ⟨connection', os, tree, ps, acked, rfl, hps, hacc, hlistens, hacks, hcompleted⟩

end lawful

end FRepo
end ZipR
