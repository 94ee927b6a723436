import ZipR.Connection

/-! # The steps of a connection

* **State.** `Lifecycle`: the connection state fits the connection.  `Requests`: requests and puts
  are numbered in their order, and the listens without an answer are counted.
* **Requests.** `Sends`: requests were sent and nothing else changed (`sent_restoreState`).
* **Closing.** `Closes`: what was sent has no answer any more.
* **Steps.** `Effect` lists what a step does to the requests and the puts; `does_step` says that
  every handler does one of these things, without a failed assertion. -/

namespace ZipR

open Reactive NSMutableDictionary

/-! ### Dictionaries in the order of their keys -/

theorem objectForKey_eq_none {κ β : Type} [DecidableEq κ] {d : List (κ × β)} {k : κ} :
    objectForKey k d = none ↔ k ∉ d.map Prod.fst := by
  rw [objectForKey, List.lookup_eq_none_iff]
  simp only [List.mem_map, not_exists, not_and, bne_iff_ne, ne_eq]
  exact ⟨fun h e he hek => h e he hek.symm, fun h e he hek => h e he hek.symm⟩

section dictionaries
variable {β : Type} {d : List (ℕ × β)} {k : ℕ} {v : β}

/-- The keys ascend. -/
def Ascending (d : List (ℕ × β)) : Prop := d.Pairwise fun e f => e.1 < f.1

theorem Ascending.filter (h : Ascending d) (p : ℕ × β → Bool) : Ascending (d.filter p) :=
  List.Pairwise.filter p h

theorem Ascending.nodup (h : Ascending d) : (d.map Prod.fst).Nodup :=
  List.pairwise_map.mpr (h.imp Nat.ne_of_lt)

theorem setObject_eq (h : ∀ e ∈ d, e.1 < k) : setObject v k d = d ++ [(k, v)] := by
  have hkeep : d.filter (fun e => e.1 ≠ k) = d :=
    List.filter_eq_self.mpr fun e he => decide_eq_true (Nat.ne_of_lt (h e he))
  rw [setObject, removeObjectForKey, hkeep]

theorem removeObjectForKey_eq {pre post : List (ℕ × β)} (h : Ascending (pre ++ (k, v) :: post)) :
    removeObjectForKey k (pre ++ (k, v) :: post) = pre ++ post := by
  obtain ⟨-, hpost, hlt⟩ := List.pairwise_append.mp h
  obtain ⟨hk, -⟩ := List.pairwise_cons.mp hpost
  have hpre : pre.filter (fun e => e.1 ≠ k) = pre := List.filter_eq_self.mpr fun e he =>
    decide_eq_true (Nat.ne_of_lt (hlt e he (k, v) List.mem_cons_self))
  have hpost' : post.filter (fun e => e.1 ≠ k) = post := List.filter_eq_self.mpr fun e he =>
    decide_eq_true (Nat.ne_of_gt (hk e he))
  simp only [removeObjectForKey, List.filter_append, List.filter_cons, hpre, hpost']
  simp

/-- An entry that is found, and the dictionary without it. -/
theorem objectForKey_eq_some (h : Ascending d) (hk : objectForKey k d = some v) :
    ∃ pre post, d = pre ++ (k, v) :: post ∧ removeObjectForKey k d = pre ++ post := by
  obtain ⟨pre, post, rfl, -⟩ := List.lookup_eq_some_iff.mp hk
  exact ⟨pre, post, rfl, removeObjectForKey_eq h⟩

theorem sortedKeys_eq (h : Ascending d) :
    FPersistentConnection.sortedKeys d = d.map Prod.fst := by
  rw [FPersistentConnection.sortedKeys]
  exact List.Pairwise.insertionSort_eq (List.pairwise_map.mpr (h.imp Nat.le_of_lt))

theorem Ascending.concat (h : Ascending d) (hk : ∀ e ∈ d, e.1 < k) : Ascending (d ++ [(k, v)]) :=
  List.pairwise_append.mpr ⟨h, List.pairwise_singleton _ _, fun e he f hf => by
    obtain rfl := List.mem_singleton.mp hf
    exact hk e he⟩

end dictionaries

namespace FPersistentConnection

variable {ρ χ ι : Type}

/-! ### The state of a connection -/

/-- The state of the underlying connection. -/
def linkOf : ConnectionState → Option FConnectionState
  | .disconnected | .gettingToken => none
  | .connecting => some .connecting
  | .authenticating | .connected => some .connected

/-- A retry is scheduled only when disconnected, and a token that is still fetched for the last
attempt arrives before a connection is opened. -/
structure Lifecycle (s : FPersistentConnection ρ χ ι) : Prop where
  realtime : s.realtime = linkOf s.connectionState
  scheduled : s.scheduledRetry ≠ none → s.connectionState = .disconnected
  nodup : s.fetches.Nodup
  fetching : ∀ a ∈ s.fetches, a ≤ s.currentFetchTokenAttempt
  current : s.currentFetchTokenAttempt ∈ s.fetches →
    s.connectionState = .disconnected ∨ s.connectionState = .gettingToken

def isListen : RequestCallback ι → Bool
  | .listen _ => true
  | _ => false

/-- The callbacks that wait, in the order of their requests. -/
def callbacks (s : FPersistentConnection ρ χ ι) : List (RequestCallback ι) :=
  s.requestCBHash.map Prod.snd

/-- Requests and puts are numbered in their order, and listens without an answer are counted. -/
structure Requests (s : FPersistentConnection ρ χ ι) : Prop where
  ascending : Ascending s.requestCBHash
  numbers : ∀ e ∈ s.requestCBHash, e.1 < s.requestNumber
  closed : s.realtime ≠ some .connected → s.requestCBHash = []
  unacked : s.unackedListensCount = s.callbacks.countP isListen
  puts : Ascending s.outstandingPuts
  counter : ∀ e ∈ s.outstandingPuts, e.1 < s.putCounter
  indices : ∀ i, .put i ∈ s.callbacks → i < s.putCounter

/-- The puts that are completed: their blocks and statuses. -/
def completions (os : List (Output ρ χ ι)) : List (χ × String) :=
  os.filterMap fun
    | .onComplete block status _ => some (block, status)
    | _ => none

@[simp] theorem completions_append (os ps : List (Output ρ χ ι)) :
    completions (os ++ ps) = completions os ++ completions ps := by
  simp [completions]

/-- The completions that are held back. -/
def acknowledged (s : FPersistentConnection ρ χ ι) : List (χ × String) :=
  s.putsToAck.map fun put => (put.block, put.status)

@[simp] theorem acknowledged_blocks (s : FPersistentConnection ρ χ ι) :
    s.acknowledged.map Prod.fst = s.putsToAck.map (·.block) := by
  simp [acknowledged, Function.comp_def]

/-- The blocks of the puts that wait for their completion, the held back ones first. -/
def waiting (s : FPersistentConnection ρ χ ι) : List χ :=
  s.putsToAck.map (·.block) ++ s.outstandingPuts.map (·.2.onCompleteBlock)

/-! ### Sending requests -/

/-- What identifies a put, whether it is sent or not. -/
def tag (e : ℕ × FOutstandingPut ρ χ) : ℕ × Option String × χ := (e.1, e.2.hash, e.2.onCompleteBlock)

/-- The part of the state that requests do not touch. -/
def link (s : FPersistentConnection ρ χ ι) :
    ConnectionState × Option FConnectionState × Option Bool × List ℕ × ℕ :=
  (s.connectionState, s.realtime, s.scheduledRetry, s.fetches, s.currentFetchTokenAttempt)

/-- The requests that wait, and the puts. -/
def queue (s : FPersistentConnection ρ χ ι) : List (ℕ × RequestCallback ι) × ℕ ×
    List (ℕ × FOutstandingPut ρ χ) × ℕ × List (FTupleCallbackStatus χ) × ℕ :=
  (s.requestCBHash, s.requestNumber, s.outstandingPuts, s.putCounter, s.putsToAck,
    s.unackedListensCount)

/-- Requests with these callbacks are sent. -/
structure Sends (s s' : FPersistentConnection ρ χ ι) (cbs : List (RequestCallback ι)) : Prop where
  link : s'.link = s.link
  putsToAck : s'.putsToAck = s.putsToAck
  putCounter : s'.putCounter = s.putCounter
  unacked : s'.unackedListensCount = s.unackedListensCount + cbs.countP isListen
  number : s.requestNumber ≤ s'.requestNumber
  hash : ∃ new, s'.requestCBHash = s.requestCBHash ++ new ∧ new.map Prod.snd = cbs ∧
    Ascending new ∧ ∀ e ∈ new, s.requestNumber ≤ e.1 ∧ e.1 < s'.requestNumber
  puts : s'.outstandingPuts.map tag = s.outstandingPuts.map tag

variable {s s' s'' : FPersistentConnection ρ χ ι}

theorem Lifecycle.congr (h : s.Lifecycle) (hlink : s'.link = s.link) : s'.Lifecycle := by
  simp only [link, Prod.mk.injEq] at hlink
  obtain ⟨hstate, hrealtime, hscheduled, hfetches, hcurrent⟩ := hlink
  exact ⟨hrealtime.trans (hstate ▸ h.realtime), hstate ▸ hscheduled ▸ h.scheduled,
    hfetches ▸ h.nodup, hfetches ▸ hcurrent ▸ h.fetching,
    hfetches ▸ hcurrent ▸ hstate ▸ h.current⟩

namespace Sends

variable {cbs cbs' : List (RequestCallback ι)}

theorem refl : Sends s s [] :=
  ⟨rfl, rfl, rfl, rfl, le_rfl, ⟨[], by simp [Ascending]⟩, rfl⟩

theorem trans (h : Sends s s' cbs) (h' : Sends s' s'' cbs') : Sends s s'' (cbs ++ cbs') := by
  refine ⟨h'.link.trans h.link, h'.putsToAck.trans h.putsToAck, h'.putCounter.trans h.putCounter,
    ?_, h.number.trans h'.number, ?_, h'.puts.trans h.puts⟩
  · rw [h'.unacked, h.unacked, List.countP_append, Nat.add_assoc]
  · obtain ⟨new, hnew, hcbs, hasc, hlt⟩ := h.hash
    obtain ⟨new', hnew', hcbs', hasc', hlt'⟩ := h'.hash
    refine ⟨new ++ new', by rw [hnew', hnew, List.append_assoc], by simp [hcbs, hcbs'], ?_, ?_⟩
    · exact List.pairwise_append.mpr ⟨hasc, hasc', fun e he f hf =>
        lt_of_lt_of_le (hlt e he).2 (hlt' f hf).1⟩
    · exact List.forall_mem_append.mpr ⟨fun e he => ⟨(hlt e he).1, lt_of_lt_of_le (hlt e he).2
        h'.number⟩, fun e he => ⟨h.number.trans (hlt' e he).1, (hlt' e he).2⟩⟩

/-- Only the link and the queue count. -/
theorem congr {t t' : FPersistentConnection ρ χ ι} (h : Sends s s' cbs) (hlink : t.link = s.link)
    (hqueue : t.queue = s.queue) (hlink' : t'.link = s'.link) (hqueue' : t'.queue = s'.queue) :
    Sends t t' cbs := by
  obtain ⟨hl, hack, hcounter, hunacked, hnumber, hhash, hputs⟩ := h
  simp only [queue, Prod.mk.injEq] at hqueue hqueue'
  obtain ⟨h₁, h₂, h₃, h₄, h₅, h₆⟩ := hqueue
  obtain ⟨h₁', h₂', h₃', h₄', h₅', h₆'⟩ := hqueue'
  exact ⟨by rw [hlink', hl, hlink], by rw [h₅', hack, h₅], by rw [h₄', hcounter, h₄],
    by rw [h₆', hunacked, h₆], by rw [h₂, h₂']; exact hnumber, by rw [h₁, h₁', h₂, h₂']; exact hhash,
    by rw [h₃', hputs, h₃]⟩

theorem callbacks (h : Sends s s' cbs) : s'.callbacks = s.callbacks ++ cbs := by
  obtain ⟨new, hnew, rfl, -⟩ := h.hash
  rw [FPersistentConnection.callbacks, hnew, List.map_append]
  rfl

theorem keys (h : Sends s s' cbs) :
    s'.outstandingPuts.map Prod.fst = s.outstandingPuts.map Prod.fst := by
  simpa [tag, Function.comp_def] using congrArg (List.map fun t => t.1) h.puts

theorem waiting (h : Sends s s' cbs) : s'.waiting = s.waiting := by
  have hblocks : s'.outstandingPuts.map (·.2.onCompleteBlock) =
      s.outstandingPuts.map (·.2.onCompleteBlock) := by
    simpa [tag, Function.comp_def] using congrArg (List.map fun t => t.2.2) h.puts
  rw [FPersistentConnection.waiting, FPersistentConnection.waiting, h.putsToAck, hblocks]

theorem connectionState (h : Sends s s' cbs) : s'.connectionState = s.connectionState :=
  congrArg Prod.fst h.link

theorem realtime (h : Sends s s' cbs) : s'.realtime = s.realtime :=
  congrArg (fun l => l.2.1) h.link

theorem requests (h : Sends s s' cbs) (hs : s.Requests) (hr : s.realtime = some .connected)
    (hindices : ∀ i, .put i ∈ cbs → i < s.putCounter) : s'.Requests := by
  have hcallbacks := h.callbacks
  have hkeys := h.keys
  obtain ⟨new, hnew, hcbs, hasc, hlt⟩ := h.hash
  refine ⟨?_, ?_, ?_, ?_, ?_, ?_, ?_⟩
  · rw [hnew]
    exact List.pairwise_append.mpr ⟨hs.ascending, hasc, fun e he f hf =>
      lt_of_lt_of_le (hs.numbers e he) (hlt f hf).1⟩
  · rw [hnew]
    exact List.forall_mem_append.mpr ⟨fun e he => lt_of_lt_of_le (hs.numbers e he) h.number,
      fun e he => (hlt e he).2⟩
  · rw [h.realtime]
    exact fun hne => absurd hr hne
  · rw [h.unacked, hs.unacked, hcallbacks, List.countP_append]
  · exact List.pairwise_map.mp (hkeys ▸ List.pairwise_map.mpr hs.puts)
  · rw [h.putCounter]
    have hmem : ∀ i ∈ s.outstandingPuts.map Prod.fst, i < s.putCounter :=
      List.forall_mem_map.mpr hs.counter
    exact List.forall_mem_map.mp (hkeys ▸ hmem)
  · intro i hi
    rw [hcallbacks] at hi
    rw [h.putCounter]
    exact (List.mem_append.mp hi).elim (hs.indices i) (hindices i)

end Sends

theorem sendAction_eq (h : ∀ e ∈ s.requestCBHash, e.1 < s.requestNumber)
    (hr : s.realtime = some .connected) (request : Request ρ ι)
    (callback : Option (RequestCallback ι)) :
    s.sendAction request callback = .ok ({ s with
      requestNumber := s.requestNumber + 1
      requestCBHash := s.requestCBHash ++ callback.toList.map fun c => (s.requestNumber, c) },
      [.sendRequest s.requestNumber request]) := by
  have hset := fun c : RequestCallback ι => setObject_eq (v := c) h
  cases callback with
  | none => simp [sendAction, hr, pure, bind, Except.bind, Except.pure]
  | some c => simp [sendAction, hr, hset, pure, bind, Except.bind, Except.pure]

/-- Requests were sent with these callbacks, and no put was completed. -/
def Sent (s : FPersistentConnection ρ χ ι) (cbs : List (RequestCallback ι))
    (r : Except Assertion (Outcome ρ χ ι)) : Prop :=
  ∃ s' os, r = .ok (s', os) ∧ Sends s s' cbs ∧ completions os = []

theorem sent_sendAction (h : ∀ e ∈ s.requestCBHash, e.1 < s.requestNumber)
    (hr : s.realtime = some .connected) (request : Request ρ ι)
    {callback : Option (RequestCallback ι)} (hcb : ∀ c ∈ callback, isListen c = false) :
    Sent s callback.toList (s.sendAction request callback) := by
  refine ⟨_, _, sendAction_eq h hr request callback, ?_, rfl⟩
  cases callback with
  | none => exact ⟨rfl, rfl, rfl, rfl, Nat.le_succ _, ⟨[], by simp [Ascending]⟩, rfl⟩
  | some c =>
      have hc := hcb c rfl
      exact ⟨rfl, rfl, rfl, by simp [hc], Nat.le_succ _, ⟨_, rfl, by simp, by simp [Ascending],
        by simp⟩, rfl⟩

theorem sent_sendListen (h : ∀ e ∈ s.requestCBHash, e.1 < s.requestNumber)
    (hr : s.realtime = some .connected) (listenSpec : FOutstandingQuery ι) :
    Sent s [.listen listenSpec] (s.sendListen listenSpec) := by
  rw [sendListen, sendAction_eq h hr]
  exact ⟨_, _, rfl, ⟨rfl, rfl, rfl, rfl, Nat.le_succ _, ⟨_, rfl, by simp, by simp [Ascending],
    by simp⟩, rfl⟩, rfl⟩

theorem sent_sendPut (h : ∀ e ∈ s.requestCBHash, e.1 < s.requestNumber)
    (hr : s.realtime = some .connected) (hstate : s.connectionState = .connected) (index : ℕ)
    (hindex : index ∈ s.outstandingPuts.map Prod.fst) : Sent s [.put index] (s.sendPut index) := by
  have hcan : s.canSendWrites = true := decide_eq_true hstate
  rw [sendPut, if_pos hcan]
  cases hput : objectForKey index s.outstandingPuts with
  | none => exact absurd hindex (objectForKey_eq_none.mp hput)
  | some put =>
      have hsend := sendAction_eq (s := { s with
        outstandingPuts := setSent index s.outstandingPuts }) h hr (.put put.request put.hash)
        (some (.put index))
      refine ⟨_, _, hsend, ⟨rfl, rfl, rfl, rfl, Nat.le_succ _, ⟨_, rfl, by simp, by simp [Ascending],
        by simp⟩, ?_⟩, rfl⟩
      simp only [setSent, List.map_map]
      refine List.map_congr_left fun e _ => ?_
      simp only [Function.comp_apply, tag]
      split_ifs <;> rfl

/-- Sending one request for each element of a list. -/
theorem sent_forEach {α : Type} {f : α → FPersistentConnection ρ χ ι → Except Assertion
      (Outcome ρ χ ι)} {cb : α → RequestCallback ι} {as : List α}
    (h : ∀ a ∈ as, ∀ t cbs, Sends s t cbs → Sent t [cb a] (f a t)) {t : FPersistentConnection ρ χ ι}
    {cbs : List (RequestCallback ι)} (ht : Sends s t cbs) : Sent t (as.map cb) (forEach f as t) := by
  induction as generalizing t cbs with
  | nil => exact ⟨t, [], rfl, .refl, rfl⟩
  | cons a as ih =>
      obtain ⟨t', os, hf, hsends, hos⟩ := h a List.mem_cons_self t cbs ht
      obtain ⟨t'', ps, hrest, hsends', hps⟩ :=
        ih (fun b hb => h b (List.mem_cons_of_mem a hb)) (ht.trans hsends)
      refine ⟨t'', os ++ ps, ?_, hsends.trans hsends', by rw [completions_append, hos, hps]; rfl⟩
      rw [forEach, hf]
      simp only [bind, Except.bind, hrest]
      rfl

theorem Sends.numbers {cbs : List (RequestCallback ι)} (h : Sends s s' cbs)
    (hs : ∀ e ∈ s.requestCBHash, e.1 < s.requestNumber) :
    ∀ e ∈ s'.requestCBHash, e.1 < s'.requestNumber := by
  obtain ⟨new, hnew, -, -, hlt⟩ := h.hash
  rw [hnew]
  exact List.forall_mem_append.mpr ⟨fun e he => lt_of_lt_of_le (hs e he) h.number,
    fun e he => (hlt e he).2⟩

/-- The callbacks of the requests that restore the state. -/
def restoring (s : FPersistentConnection ρ χ ι) : List (RequestCallback ι) :=
  (s.listens.map fun e => .listen e.2) ++ (s.outstandingPuts.map Prod.fst).map .put

/-- **The state is restored** by sending all listens and then all puts in their order. -/
theorem sent_restoreState (h : ∀ e ∈ s.requestCBHash, e.1 < s.requestNumber)
    (hputs : Ascending s.outstandingPuts) (hr : s.realtime = some .connected)
    (hstate : s.connectionState = .connected) : Sent s s.restoring s.restoreState := by
  have hlisten : ∀ q ∈ s.listens.map Prod.snd, ∀ t cbs, Sends s t cbs →
      Sent t [.listen q] (t.sendListen q) := fun q _ t cbs ht =>
    sent_sendListen (ht.numbers h) (ht.realtime.trans hr) q
  obtain ⟨t, os, hos, hsends, hnone⟩ := sent_forEach hlisten .refl
  have hput : ∀ i ∈ s.outstandingPuts.map Prod.fst, ∀ u cbs, Sends s u cbs →
      Sent u [.put i] (u.sendPut i) := fun i hi u cbs hu =>
    sent_sendPut (hu.numbers h) (hu.realtime.trans hr) (hu.connectionState.trans hstate)
      i (hu.keys ▸ hi)
  obtain ⟨u, ps, hps, hsends', hnone'⟩ := sent_forEach hput hsends
  refine ⟨u, os ++ ps, ?_, ?_, by rw [completions_append, hnone, hnone']; rfl⟩
  · have hsorted : sortedKeys t.outstandingPuts = s.outstandingPuts.map Prod.fst := by
      rw [sortedKeys, hsends.keys]
      exact sortedKeys_eq hputs
    rw [restoreState, if_pos hstate, hos]
    simp only [bind, Except.bind, hsorted, hps]
    rfl
  · have hcbs := hsends.trans hsends'
    rwa [List.map_map] at hcbs

theorem sent_sendAuth (h : ∀ e ∈ s.requestCBHash, e.1 < s.requestNumber)
    (hr : s.realtime = some .connected) (hstate : s.connected = true) {credential : String}
    (htoken : s.authToken = some credential) (restore : Bool) :
    Sent s [.auth restore] (s.sendAuthAndRestoreStateAfterComplete restore) := by
  rw [sendAuthAndRestoreStateAfterComplete, if_pos hstate, htoken]
  exact sent_sendAction h hr _ (by simp [isListen])

/-! ### Closing -/

/-- The sent transactions are completed on a disconnect. -/
def cancelled (s : FPersistentConnection ρ χ ι) : List (χ × String) :=
  (s.outstandingPuts.filter fun e => isSentTransaction e.2).map fun e =>
    (e.2.onCompleteBlock, kFTransactionDisconnect)

/-- The connection is closed: what was sent has no answer any more. -/
structure Closes (s s' : FPersistentConnection ρ χ ι) : Prop where
  connectionState : s'.connectionState = .disconnected
  realtime : s'.realtime = none
  hash : s'.requestCBHash = []
  unacked : s'.unackedListensCount = 0
  puts : s'.outstandingPuts = s.outstandingPuts.filter fun e => !isSentTransaction e.2
  putsToAck : s'.putsToAck = s.putsToAck
  putCounter : s'.putCounter = s.putCounter
  fetches : s'.fetches = s.fetches
  current : s'.currentFetchTokenAttempt = s.currentFetchTokenAttempt

theorem Closes.lifecycle (h : Closes s s') (hs : s.Lifecycle) : s'.Lifecycle :=
  ⟨h.realtime.trans (congrArg linkOf h.connectionState).symm, fun _ => h.connectionState,
    h.fetches ▸ hs.nodup, h.fetches ▸ h.current ▸ hs.fetching, fun _ => .inl h.connectionState⟩

theorem tryScheduleReconnect_spec (h : s.connectionState = .disconnected) :
    ∃ s', s.tryScheduleReconnect = .ok s' ∧ ∃ force retry, s' = { s with
      forceAuthTokenRefresh := force
      scheduledRetry := retry } := by
  rw [tryScheduleReconnect, if_pos h]
  split_ifs
  · exact ⟨_, rfl, _, _, rfl⟩
  · exact ⟨_, rfl, _, _, rfl⟩

theorem onDisconnect_spec (s : FPersistentConnection ρ χ ι) :
    ∃ s' os, s.onDisconnect = .ok (s', os) ∧ Closes s s' ∧ completions os = s.cancelled := by
  have hcancelled : completions (s.cancelSentTransactions.2 ++ [.onDisconnect]) = s.cancelled := by
    simp [completions, cancelSentTransactions, cancelled, List.filterMap_map]
  obtain ⟨t, ht, force, scheduled, rfl⟩ := tryScheduleReconnect_spec (s := { s with
    connectionState := .disconnected
    realtime := none
    outstandingPuts := s.outstandingPuts.filter fun e => !isSentTransaction e.2
    requestCBHash := []
    unackedListensCount := 0 }) rfl
  cases hre : s.interruptReasons.isEmpty with
  | true =>
      simp only [onDisconnect, cancelSentTransactions, shouldReconnect, hre, if_true, bind,
        Except.bind, ht]
      exact ⟨_, _, rfl, ⟨rfl, rfl, rfl, rfl, rfl, rfl, rfl, rfl, rfl⟩, hcancelled⟩
  | false =>
      simp only [onDisconnect, cancelSentTransactions, shouldReconnect, hre, Bool.false_eq_true,
        if_false, bind, Except.bind]
      exact ⟨_, _, rfl, ⟨rfl, rfl, rfl, rfl, rfl, rfl, rfl, rfl, rfl⟩, hcancelled⟩

/-- Closing an open connection. -/
theorem close_spec (hr : s.realtime ≠ none) :
    ∃ s' os, s.close = .ok (s', os) ∧ Closes s s' ∧ completions os = s.cancelled := by
  obtain ⟨state, hstate⟩ := Option.ne_none_iff_exists'.mp hr
  rw [close, hstate]
  exact onDisconnect_spec s

/-! ### What a step can do -/

/-- Neither the answer that restores the state nor one to a put. -/
def Plain (c : RequestCallback ι) : Prop := c ≠ .auth true ∧ ∀ i, c ≠ .put i

/-- The blocks of the puts an event makes. -/
def Event.blocks : Event ρ χ ι → List χ
  | .putData _ _ block => [block]
  | _ => []

/-- What a step does to the requests and the puts, with what it completes. -/
inductive Effect (s : FPersistentConnection ρ χ ι) :
    Event ρ χ ι → FPersistentConnection ρ χ ι → List (χ × String) → Prop
  /-- At most the way to a new connection goes on. -/
  | idle {e : Event ρ χ ι} {s' : FPersistentConnection ρ χ ι} (hqueue : s'.queue = s.queue)
      (hready : s'.realtime = some .connected ↔ s.realtime = some .connected)
      (hstate : s'.realtime = some .connected → s'.connectionState = s.connectionState)
      (he : e.blocks = []) : Effect s e s' []
  | closes {e : Event ρ χ ι} {s' : FPersistentConnection ρ χ ι} (h : Closes s s')
      (he : e.blocks = []) : Effect s e s' s.cancelled
  | sends {e : Event ρ χ ι} {s' : FPersistentConnection ρ χ ι} {cbs : List (RequestCallback ι)}
      (hr : s.realtime = some .connected) (h : Sends s s' cbs) (hcbs : ∀ c ∈ cbs, Plain c)
      (he : e.blocks = []) : Effect s e s' []
  | authenticates {s' : FPersistentConnection ρ χ ι} {cbs : List (RequestCallback ι)}
      (hr : s.realtime = some .connecting) (hcbs : ∀ c ∈ cbs, c = .stats)
      (h : Sends { s with realtime := some .connected, connectionState := .authenticating } s'
        (cbs ++ [.auth true])) : Effect s .handshake s' []
  | opens {s' : FPersistentConnection ρ χ ι} {cbs : List (RequestCallback ι)}
      (hr : s.realtime = some .connecting) (hcbs : ∀ c ∈ cbs, Plain c)
      (h : Sends { s with realtime := some .connected, connectionState := .connected } s'
        (cbs ++ (s.outstandingPuts.map Prod.fst).map .put)) : Effect s .handshake s' []
  | keeps {request : ρ} {hash : Option String} {block : χ} {s' : FPersistentConnection ρ χ ι}
      (hstate : s.connectionState ≠ .connected) (h : s' = { s with
        putCounter := s.putCounter + 1
        outstandingPuts := s.outstandingPuts ++ [(s.putCounter, ⟨request, hash, block, false⟩)] }) :
      Effect s (.putData request hash block) s' []
  | sendsPut {request : ρ} {hash : Option String} {block : χ} {s' : FPersistentConnection ρ χ ι}
      (hstate : s.connectionState = .connected) (hr : s.realtime = some .connected)
      (h : Sends { s with
        putCounter := s.putCounter + 1
        outstandingPuts := s.outstandingPuts ++ [(s.putCounter, ⟨request, hash, block, false⟩)] } s'
        [.put s.putCounter]) : Effect s (.putData request hash block) s' []
  | purges : Effect s .purgeOutstandingWrites { s with putsToAck := [], outstandingPuts := [] }
      (s.acknowledged ++ s.outstandingPuts.map fun e => (e.2.onCompleteBlock, kFErrorWriteCanceled))
  | answersOther {rn : ℕ} {status : String} {data : Option String}
      {pre post : List (ℕ × RequestCallback ι)} {c : RequestCallback ι}
      (hash : s.requestCBHash = pre ++ (rn, c) :: post)
      (hc : c = .stats ∨ ∃ i, c = .put i ∧ i ∉ s.outstandingPuts.map Prod.fst) :
      Effect s (.response rn status data) { s with requestCBHash := pre ++ post } []
  | answersAuth {rn : ℕ} {status : String} {data : Option String}
      {pre post : List (ℕ × RequestCallback ι)}
      (hash : s.requestCBHash = pre ++ (rn, .auth false) :: post) :
      Effect s (.response rn status data)
        { s with requestCBHash := pre ++ post, connectionState := .connected } []
  | answersRestore {rn : ℕ} {status : String} {data : Option String}
      {pre post : List (ℕ × RequestCallback ι)} {s' : FPersistentConnection ρ χ ι}
      {cbs : List (RequestCallback ι)} (hash : s.requestCBHash = pre ++ (rn, .auth true) :: post)
      (hcbs : ∀ c ∈ cbs, Plain c)
      (h : Sends { s with requestCBHash := pre ++ post, connectionState := .connected } s'
        (cbs ++ (s.outstandingPuts.map Prod.fst).map .put)) : Effect s (.response rn status data) s' []
  | answersPut {rn index : ℕ} {status : String} {data : Option String}
      {pre post : List (ℕ × RequestCallback ι)} {before after : List (ℕ × FOutstandingPut ρ χ)}
      {put : FOutstandingPut ρ χ} (hash : s.requestCBHash = pre ++ (rn, .put index) :: post)
      (hputs : s.outstandingPuts = before ++ (index, put) :: after)
      (hlisten : s.unackedListensCount = 0) : Effect s (.response rn status data)
        { s with requestCBHash := pre ++ post, outstandingPuts := before ++ after }
        [(put.onCompleteBlock, status)]
  | holdsPut {rn index : ℕ} {status : String} {data : Option String}
      {pre post : List (ℕ × RequestCallback ι)} {before after : List (ℕ × FOutstandingPut ρ χ)}
      {put : FOutstandingPut ρ χ} (hash : s.requestCBHash = pre ++ (rn, .put index) :: post)
      (hputs : s.outstandingPuts = before ++ (index, put) :: after) :
      Effect s (.response rn status data) { s with
        requestCBHash := pre ++ post
        outstandingPuts := before ++ after
        putsToAck := s.putsToAck ++ [⟨put.onCompleteBlock, status, data⟩] } []
  | answersListen {rn : ℕ} {status : String} {data : Option String}
      {pre post : List (ℕ × RequestCallback ι)} {listenSpec : FOutstandingQuery ι}
      {listens : List (ι × FOutstandingQuery ι)}
      (hash : s.requestCBHash = pre ++ (rn, .listen listenSpec) :: post) : Effect s (.response rn status data) { s with
        requestCBHash := pre ++ post
        listens
        unackedListensCount := s.unackedListensCount - 1 } []
  | flushes {rn : ℕ} {status : String} {data : Option String}
      {pre post : List (ℕ × RequestCallback ι)} {listenSpec : FOutstandingQuery ι}
      {listens : List (ι × FOutstandingQuery ι)}
      (hash : s.requestCBHash = pre ++ (rn, .listen listenSpec) :: post) :
      Effect s (.response rn status data) { s with
        requestCBHash := pre ++ post
        listens
        unackedListensCount := s.unackedListensCount - 1
        putsToAck := [] } s.acknowledged

/-- A handler runs without a failed assertion, with this effect. -/
def Does (s : FPersistentConnection ρ χ ι) (e : Event ρ χ ι)
    (r : Except Assertion (Outcome ρ χ ι)) : Prop :=
  ∃ s' os, r = .ok (s', os) ∧ s'.Lifecycle ∧ Effect s e s' (completions os)

theorem eq_connecting {state : ConnectionState} (h : linkOf state = some .connecting) :
    state = .connecting := by
  cases state <;> simp_all [linkOf]

theorem connected_iff (h : s.Lifecycle) : s.connected = true ↔ s.realtime = some .connected := by
  rw [connected, h.realtime]
  cases s.connectionState <;> simp [linkOf]

/-- Closing a connection whose other state has changed already. -/
theorem close_of_puts {t : FPersistentConnection ρ χ ι} (hputs : t.outstandingPuts = s.outstandingPuts)
    (hack : t.putsToAck = s.putsToAck) (hcounter : t.putCounter = s.putCounter)
    (hfetches : t.fetches = s.fetches)
    (hcurrent : t.currentFetchTokenAttempt = s.currentFetchTokenAttempt) (hr : t.realtime ≠ none) :
    ∃ s' os, t.close = .ok (s', os) ∧ Closes s s' ∧ completions os = s.cancelled := by
  obtain ⟨s', os, hs', hcloses, hos⟩ := close_spec hr
  refine ⟨s', os, hs', ⟨hcloses.connectionState, hcloses.realtime, hcloses.hash, hcloses.unacked,
    hcloses.puts.trans (by rw [hputs]), hcloses.putsToAck.trans hack,
    hcloses.putCounter.trans hcounter, hcloses.fetches.trans hfetches,
    hcloses.current.trans hcurrent⟩, ?_⟩
  rw [hos, cancelled, hputs, cancelled]

/-- The state of a connection that is ready. -/
theorem Lifecycle.ready (h : s.Lifecycle) (hr : s.realtime ≠ none) {state : ConnectionState}
    (hstate : linkOf state = some .connected) (hlink : s'.link =
      (state, some .connected, s.scheduledRetry, s.fetches, s.currentFetchTokenAttempt)) :
    s'.Lifecycle := by
  simp only [link, Prod.mk.injEq] at hlink
  obtain ⟨hstate', hrealtime, hscheduled, hfetches, hcurrent⟩ := hlink
  have hopen : ¬ (s.connectionState = .disconnected ∨ s.connectionState = .gettingToken) := by
    rintro (hs | hs) <;> exact hr (by rw [h.realtime, hs]; rfl)
  refine ⟨by rw [hrealtime, hstate', hstate], fun hne => ?_, hfetches ▸ h.nodup,
    hfetches ▸ hcurrent ▸ h.fetching, fun hmem => ?_⟩
  · exact absurd (.inl (h.scheduled (hscheduled ▸ hne))) hopen
  · exact absurd (h.current (hcurrent ▸ hfetches ▸ hmem)) hopen

section links
variable {e : Event ρ χ ι} (h : s.Lifecycle) (he : e.blocks = [])
include h he

theorem does_close {t : FPersistentConnection ρ χ ι} (hputs : t.outstandingPuts = s.outstandingPuts)
    (hack : t.putsToAck = s.putsToAck) (hcounter : t.putCounter = s.putCounter)
    (hfetches : t.fetches = s.fetches)
    (hcurrent : t.currentFetchTokenAttempt = s.currentFetchTokenAttempt) (hr : t.realtime ≠ none) :
    Does s e t.close := by
  obtain ⟨s', os, hs', hcloses, hos⟩ := close_of_puts hputs hack hcounter hfetches hcurrent hr
  exact ⟨s', os, hs', hcloses.lifecycle h, hos ▸ .closes hcloses he⟩

theorem does_interrupt (reason : InterruptReason) : Does s e (s.interruptForReason reason) := by
  unfold interruptForReason
  dsimp only
  split
  · next state hr =>
      have hr' : s.realtime ≠ none := fun hnone => by rw [hr] at hnone; cases hnone
      obtain ⟨s', os, hs', hcloses, hos⟩ := close_of_puts (s := s) (t := { s with
        interruptReasons := s.interruptReasons.insert reason }) rfl rfl rfl rfl rfl hr'
      have hcloses' : Closes s { s' with realtime := none } := ⟨hcloses.connectionState, rfl,
        hcloses.hash, hcloses.unacked, hcloses.puts, hcloses.putsToAck, hcloses.putCounter,
        hcloses.fetches, hcloses.current⟩
      rw [hs']
      exact ⟨_, os, rfl, hcloses'.lifecycle h, hos ▸ .closes hcloses' he⟩
  · next hr =>
      refine ⟨_, _, rfl, ⟨hr, fun _ => rfl, h.nodup, h.fetching, fun _ => .inl rfl⟩,
        .idle rfl Iff.rfl (fun hready => ?_) he⟩
      rw [hr] at hready
      cases hready

theorem does_reconnect {t : FPersistentConnection ρ χ ι} (hlink : t.link = s.link)
    (hqueue : t.queue = s.queue) (hstate : s.connectionState = .disconnected) :
    Does s e (do return (← t.tryScheduleReconnect, [])) := by
  have ht := h.congr hlink
  have hstate' : t.connectionState = .disconnected := (congrArg Prod.fst hlink).trans hstate
  have hr : t.realtime = none := by rw [ht.realtime, hstate']; rfl
  have hr' : s.realtime = none := by rw [h.realtime, hstate]; rfl
  obtain ⟨s', hs', force, scheduled, rfl⟩ := tryScheduleReconnect_spec hstate'
  rw [hs']
  exact ⟨_, [], rfl, ⟨ht.realtime, fun _ => hstate', ht.nodup, ht.fetching, fun _ => .inl hstate'⟩,
    .idle hqueue (by simp [hr, hr']) (by simp [hr]) he⟩

/-- A step that changes at most the way to a connection. -/
theorem does_idle {s' : FPersistentConnection ρ χ ι} {os : List (Output ρ χ ι)}
    (hlink : s'.link = s.link) (hqueue : s'.queue = s.queue) (hos : completions os = []) :
    Does s e (.ok (s', os)) := by
  have hreal : s'.realtime = s.realtime := congrArg (fun l => l.2.1) hlink
  exact ⟨s', os, rfl, h.congr hlink, hos ▸ .idle hqueue (by rw [hreal])
    (fun _ => congrArg Prod.fst hlink) he⟩

theorem does_resume (reason : InterruptReason) : Does s e (s.resumeForReason reason) := by
  unfold resumeForReason
  dsimp only
  split_ifs with hre
  · have hstate : s.connectionState = .disconnected := of_decide_eq_true (Bool.and_eq_true _ _ ▸ hre).2
    exact does_reconnect h he rfl rfl hstate
  · exact does_idle h he rfl rfl rfl

theorem does_enteringForeground : Does s e s.enteringForeground := by
  unfold enteringForeground
  split_ifs with hstate
  · exact does_reconnect h he rfl rfl hstate
  · exact does_idle h he rfl rfl rfl

theorem does_retry : Does s e s.retry := by
  unfold retry
  split
  · exact does_idle h he rfl rfl rfl
  · next force hforce =>
      have hstate := h.scheduled (by simp [hforce])
      have hr : s.realtime = none := by rw [h.realtime, hstate]; rfl
      rw [if_pos hstate]
      refine ⟨_, _, rfl, ⟨hr, fun hne => absurd rfl hne, ?_, ?_, fun _ => .inr rfl⟩,
        .idle rfl Iff.rfl (by simp [hr]) he⟩
      · refine List.nodup_append.mpr ⟨h.nodup, List.nodup_singleton _, fun a ha b hb => ?_⟩
        obtain rfl := List.mem_singleton.mp hb
        exact Nat.ne_of_lt (Nat.lt_succ_of_le (h.fetching a ha))
      · exact List.forall_mem_append.mpr
          ⟨fun a ha => Nat.le_succ_of_le (h.fetching a ha), by simp⟩

theorem does_token {attempt : ℕ} (hattempt : attempt ∈ s.fetches)
    (result : Option (Option String)) : Does s e (s.fetchTokenCallback attempt result) := by
  have hfetching : ∀ a ∈ s.fetches.erase attempt, a ≤ s.currentFetchTokenAttempt := fun a ha =>
    h.fetching a (List.mem_of_mem_erase ha)
  have hnodup := h.nodup.erase attempt
  unfold fetchTokenCallback
  dsimp only
  by_cases hcurrent : attempt = s.currentFetchTokenAttempt
  · rw [if_pos hcurrent]
    subst hcurrent
    have hnot : s.currentFetchTokenAttempt ∉ s.fetches.erase s.currentFetchTokenAttempt :=
      h.nodup.not_mem_erase
    have hr : s.realtime = none := by
      rw [h.realtime]
      rcases h.current hattempt with hstate | hstate <;> rw [hstate] <;> rfl
    cases result with
    | none =>
        obtain ⟨s', hs', force, scheduled, rfl⟩ := tryScheduleReconnect_spec (s := { s with
          fetches := s.fetches.erase s.currentFetchTokenAttempt
          connectionState := .disconnected }) rfl
        simp only [hs', bind, Except.bind]
        exact ⟨_, [], rfl, ⟨hr, fun _ => rfl, hnodup, hfetching, fun _ => .inl rfl⟩,
          .idle rfl Iff.rfl (by simp [hr]) he⟩
    | some token =>
        dsimp only
        split_ifs with hgetting hdisconnected
        · have hscheduled : s.scheduledRetry = none := by
            by_contra hne
            rw [h.scheduled hne] at hgetting
            cases hgetting
          rw [openNetworkConnectionWithToken, if_pos hgetting]
          exact ⟨_, [], rfl, ⟨rfl, fun hne => absurd hscheduled hne, hnodup, hfetching,
            fun hmem => absurd hmem hnot⟩, .idle rfl (by simp [hr]) (by simp) he⟩
        · exact ⟨_, [], rfl, ⟨h.realtime, h.scheduled, hnodup, hfetching,
            fun hmem => absurd hmem hnot⟩, .idle rfl Iff.rfl (fun _ => rfl) he⟩
        · exact absurd (h.current hattempt) (not_or.mpr ⟨hdisconnected, hgetting⟩)
  · rw [if_neg hcurrent]
    exact ⟨_, [], rfl, ⟨h.realtime, h.scheduled, hnodup, hfetching,
      fun hmem => h.current (List.mem_of_mem_erase hmem)⟩, .idle rfl Iff.rfl (fun _ => rfl) he⟩

end links

theorem Sends.withState {cbs : List (RequestCallback ι)} (h : Sends s s' cbs)
    (state : ConnectionState) :
    Sends { s with connectionState := state } { s' with connectionState := state } cbs := by
  obtain ⟨hlink, hack, hcounter, hunacked, hnumber, hhash, hputs⟩ := h
  simp only [FPersistentConnection.link, Prod.mk.injEq] at hlink
  exact ⟨by simp only [FPersistentConnection.link, hlink], hack, hcounter, hunacked, hnumber, hhash,
    hputs⟩

theorem plain_listens (ls : List (ι × FOutstandingQuery ι)) :
    ∀ c ∈ ls.map fun e => RequestCallback.listen e.2, Plain c := by
  intro c hc
  obtain ⟨q, -, rfl⟩ := List.mem_map.mp hc
  exact ⟨nofun, nofun⟩

/-- Without a token the state is restored at once, otherwise after the authentication. -/
theorem restoreAuth_spec (h : ∀ e ∈ s.requestCBHash, e.1 < s.requestNumber)
    (hputs : Ascending s.outstandingPuts) (hr : s.realtime = some .connected)
    (hstate : s.connectionState = .connecting) :
    Sent { s with connectionState := .authenticating } [.auth true] s.restoreAuth ∨
      Sent { s with connectionState := .connected } s.restoring s.restoreAuth := by
  generalize hres : s.restoreAuth = r
  rw [restoreAuth, if_pos hstate] at hres
  subst hres
  split
  · exact .inr (sent_restoreState (s := { s with connectionState := .connected }) h hputs hr rfl)
  · next credential htoken =>
      exact .inl (sent_sendAuth (s := { s with connectionState := .authenticating }) h hr rfl htoken
        true)

/-- **The handshake** sends the listens and the puts at once, or asks for the authentication. -/
theorem does_onReady (h : s.Lifecycle) (hq : s.Requests) (hr : s.realtime = some .connecting) :
    Does s .handshake s.onReady := by
  have hclosed : s.requestCBHash = [] := hq.closed (by rw [hr]; nofun)
  have hstate : s.connectionState = .connecting := eq_connecting (h.realtime.symm.trans hr)
  have hopen : s.realtime ≠ none := by rw [hr]; nofun
  obtain ⟨cbs, hcbs, u, os, hos, hsends, hnone⟩ : ∃ cbs, (∀ c ∈ cbs, c = .stats) ∧
      Sent { s with realtime := some .connected } cbs
        (if s.firstConnection then
          { s with realtime := some .connected }.sendAction .stats (some .stats)
        else .ok ({ s with realtime := some .connected }, [])) := by
    split_ifs
    · refine ⟨[.stats], by simp, ?_⟩
      exact sent_sendAction (s := { s with realtime := some .connected }) (by simp [hclosed]) rfl _
        (by simp [isListen])
    · exact ⟨[], nofun, _, [], rfl, .refl, rfl⟩
  have hnumbers := hsends.numbers (by simp [hclosed])
  have hkeys : u.outstandingPuts.map Prod.fst = s.outstandingPuts.map Prod.fst := hsends.keys
  have hputs : Ascending u.outstandingPuts :=
    List.pairwise_map.mp (hkeys ▸ List.pairwise_map.mpr hq.puts)
  simp only [onReady, hos, bind, Except.bind]
  rcases restoreAuth_spec hnumbers hputs hsends.realtime (hsends.connectionState.trans hstate) with
    ⟨v, ps, hv, hsends', hnone'⟩ | ⟨v, ps, hv, hsends', hnone'⟩
  all_goals
    have hdone : completions (os ++ ps ++ [.onConnect]) = [] := by
      rw [completions_append, completions_append, hnone, hnone']
      rfl
    have hboth := (hsends.withState _).trans hsends'
    rw [hv]
    refine ⟨{ v with firstConnection := false }, _, rfl, h.ready hopen rfl hboth.link, ?_⟩
    rw [hdone]
  · exact .authenticates hr hcbs (hboth.congr rfl rfl rfl rfl)
  · rw [restoring, hkeys, ← List.append_assoc] at hboth
    have hplain : ∀ c ∈ cbs, Plain c := fun c hc => hcbs c hc ▸ ⟨nofun, nofun⟩
    exact .opens hr (List.forall_mem_append.mpr ⟨hplain, plain_listens _⟩) (hboth.congr rfl rfl rfl rfl)

theorem does_sent {e : Event ρ χ ι} {cbs : List (RequestCallback ι)} {t : FPersistentConnection ρ χ ι}
    {r : Except Assertion (Outcome ρ χ ι)} (h : s.Lifecycle) (hr : s.realtime = some .connected)
    (hsent : Sent t cbs r) (hlink : t.link = s.link) (hqueue : t.queue = s.queue)
    (hcbs : ∀ c ∈ cbs, Plain c) (he : e.blocks = []) :
    Does s e r := by
  obtain ⟨s', os, rfl, hsends, hos⟩ := hsent
  have hsends' : Sends s s' cbs := hsends.congr hlink.symm hqueue.symm rfl rfl
  exact ⟨s', os, rfl, h.congr hsends'.link, hos ▸ .sends hr hsends' hcbs he⟩

theorem does_refreshAuthToken (h : s.Lifecycle) (hq : s.Requests) (token : Option String) :
    Does s (.refreshAuthToken token) (s.refreshAuthToken token) := by
  unfold refreshAuthToken
  dsimp only
  split_ifs with hconnected
  · have hr := (connected_iff h).mp hconnected
    cases token with
    | none =>
        have hsent := sent_sendAction (s := { s with authToken := none }) hq.numbers hr .unauth
          fun c (hc : c ∈ none) => nomatch hc
        exact does_sent h hr hsent rfl rfl nofun rfl
    | some credential =>
        have hsent := sent_sendAuth (s := { s with authToken := some credential }) hq.numbers hr
          hconnected rfl false
        exact does_sent h hr hsent rfl rfl (by simp [Plain]) rfl
  · exact does_idle h rfl rfl rfl rfl

theorem does_putData (h : s.Lifecycle) (hq : s.Requests) (request : ρ) (hash : Option String)
    (block : χ) : Does s (.putData request hash block) (s.putInternal request hash block) := by
  have hset := setObject_eq (v := (⟨request, hash, block, false⟩ : FOutstandingPut ρ χ)) hq.counter
  unfold putInternal
  simp only [hset]
  split_ifs with hcan
  · have hstate : s.connectionState = .connected := of_decide_eq_true hcan
    have hr : s.realtime = some .connected := by rw [h.realtime, hstate]; rfl
    obtain ⟨s', os, hs', hsends, hos⟩ := sent_sendPut (s := { s with
      putCounter := s.putCounter + 1
      outstandingPuts := s.outstandingPuts ++ [(s.putCounter, ⟨request, hash, block, false⟩)] })
      hq.numbers hr hstate s.putCounter (by simp)
    rw [hs']
    exact ⟨s', os, rfl, h.congr hsends.link, hos ▸ .sendsPut hstate hr hsends⟩
  · exact ⟨_, [], rfl, h.congr rfl, .keeps (fun hstate => hcan (decide_eq_true hstate)) rfl⟩

/-- What is held back is completed first, then every outstanding put is cancelled. -/
theorem completions_purgeOutstandingWrites (hq : s.Requests) :
    completions s.purgeOutstandingWrites.2 = s.acknowledged ++
      s.outstandingPuts.map fun e => (e.2.onCompleteBlock, kFErrorWriteCanceled) := by
  have hfound : ∀ e ∈ s.outstandingPuts, objectForKey e.1 s.outstandingPuts = some e.2 := by
    intro e he
    cases hput : objectForKey e.1 s.outstandingPuts with
    | none => exact absurd (List.mem_map_of_mem he) (objectForKey_eq_none.mp hput)
    | some put =>
        obtain ⟨pre, post, hsplit, -⟩ := objectForKey_eq_some hq.puts hput
        have hmem : (e.1, put) ∈ s.outstandingPuts := by simp [hsplit]
        have heq := List.inj_on_of_nodup_map hq.puts.nodup hmem he rfl
        rw [← heq]
  have hcancelled : ((s.outstandingPuts.map Prod.fst).filterMap fun key =>
      (objectForKey key s.outstandingPuts).map fun put =>
        (.onComplete put.onCompleteBlock kFErrorWriteCanceled none : Output ρ χ ι)) =
      s.outstandingPuts.map fun e => .onComplete e.2.onCompleteBlock kFErrorWriteCanceled none := by
    rw [List.filterMap_map, ← List.filterMap_eq_map]
    exact List.filterMap_congr fun e he => by simp [hfound e he]
  simp only [purgeOutstandingWrites, ackPuts, sortedKeys_eq hq.puts, hcancelled, completions_append]
  simp [completions, acknowledged, List.filterMap_map]

theorem does_purgeOutstandingWrites (h : s.Lifecycle) (hq : s.Requests) :
    Does s .purgeOutstandingWrites (.ok s.purgeOutstandingWrites) :=
  ⟨_, _, rfl, h.congr rfl, completions_purgeOutstandingWrites hq ▸ .purges⟩

section steps
variable [DecidableEq ι]

theorem does_listen (h : s.Lifecycle) (hq : s.Requests) {query : ι}
    (hquery : (objectForKey query s.listens).isNone) : Does s (.listen query) (s.listen query) := by
  have hnone : ¬ (objectForKey query s.listens).isSome = true := by simpa using hquery
  unfold listen
  rw [if_neg hnone]
  dsimp only
  split_ifs with hconnected
  · have hr := (connected_iff h).mp hconnected
    have hsent := sent_sendListen (s := { s with
      listens := setObject ⟨query, s.objects⟩ query s.listens
      objects := s.objects + 1 }) hq.numbers hr ⟨query, s.objects⟩
    exact does_sent h hr hsent rfl rfl (by simp [Plain]) rfl
  · exact does_idle h rfl rfl rfl rfl

theorem does_unlisten (h : s.Lifecycle) (hq : s.Requests) (query : ι) :
    Does s (.unlisten query) (s.unlisten query) := by
  unfold unlisten
  split
  · dsimp only
    split_ifs with hconnected
    · have hr := (connected_iff h).mp hconnected
      have hsent := sent_sendAction (s := { s with
        listens := removeObjectForKey query s.listens }) hq.numbers hr (.unlisten query)
        fun c (hc : c ∈ none) => nomatch hc
      exact does_sent h hr hsent rfl rfl nofun rfl
    · exact does_idle h rfl rfl rfl rfl
  · exact does_idle h rfl rfl rfl rfl

/-! ### Answers -/

theorem answerListen_eq (s : FPersistentConnection ρ χ ι) (listenSpec : FOutstandingQuery ι)
    (status : String) : ∃ listens o, s.answerListen listenSpec status = ({ s with listens }, o) ∧
      completions o = [] := by
  rw [answerListen]
  split_ifs
  · exact ⟨_, _, rfl, rfl⟩
  · exact ⟨_, _, rfl, rfl⟩
  · exact ⟨s.listens, _, rfl, rfl⟩

section answers
variable {rn : ℕ} {status : String} {data : Option String} {pre post : List (ℕ × RequestCallback ι)}
variable (h : s.Lifecycle) (hq : s.Requests) (hr : s.realtime = some .connected)
include h hq hr

omit [DecidableEq ι] in
theorem does_authCallback {restore : Bool}
    (hash : s.requestCBHash = pre ++ (rn, .auth restore) :: post) :
    Does s (.response rn status data)
      ({ s with requestCBHash := pre ++ post }.authCallback restore status) := by
  have hopen : s.realtime ≠ none := by rw [hr]; nofun
  have hnumbers : ∀ e ∈ pre ++ post, e.1 < s.requestNumber := fun e he =>
    hq.numbers e (hash ▸ List.append_subset.mpr ⟨List.subset_append_left _ _,
      fun _ hpost => List.mem_append_right _ (List.mem_cons_of_mem _ hpost)⟩ he)
  unfold authCallback
  dsimp only
  split_ifs with hok hrestore
  · obtain ⟨s', os, hs', hsends, hos⟩ := sent_restoreState (s := { s with
      requestCBHash := pre ++ post
      connectionState := .connected }) hnumbers hq.puts hr rfl
    rw [hs']
    refine ⟨s', os, rfl, h.ready hopen rfl (hsends.link.trans (by rw [link, hr])), ?_⟩
    rw [hos]
    exact .answersRestore (hrestore ▸ hash) (plain_listens _) hsends
  · obtain rfl : restore = false := by simpa using hrestore
    exact ⟨_, [], rfl, h.ready hopen rfl (by rw [link, hr]), .answersAuth hash⟩
  · exact does_close h rfl rfl rfl rfl rfl rfl (by simp [hr])

omit [DecidableEq ι] hr in
theorem does_putCallback {index : ℕ} (hash : s.requestCBHash = pre ++ (rn, .put index) :: post) :
    Does s (.response rn status data)
      (.ok ({ s with requestCBHash := pre ++ post }.putCallback index status data)) := by
  unfold putCallback
  split
  · next put hput =>
      obtain ⟨before, after, hputs, hremove⟩ := objectForKey_eq_some hq.puts hput
      simp only [hremove]
      split_ifs with hlisten
      · exact ⟨_, _, rfl, h.congr rfl, .answersPut hash hputs hlisten⟩
      · exact ⟨_, _, rfl, h.congr rfl, .holdsPut hash hputs⟩
  · next hput =>
      exact ⟨_, [], rfl, h.congr rfl,
        .answersOther hash (.inr ⟨index, rfl, objectForKey_eq_none.mp hput⟩)⟩

omit hr in
theorem does_onResponse {listenSpec : FOutstandingQuery ι}
    (hash : s.requestCBHash = pre ++ (rn, .listen listenSpec) :: post) :
    Does s (.response rn status data)
      ({ s with requestCBHash := pre ++ post }.onResponse listenSpec status) := by
  have hcount : s.unackedListensCount ≠ 0 := by
    rw [hq.unacked, callbacks, hash]
    simp [isListen]
  obtain ⟨listens, o, hpair, ho⟩ :=
    answerListen_eq { s with requestCBHash := pre ++ post } listenSpec status
  simp only [onResponse, listenAnswered, hpair, if_neg hcount]
  split_ifs with hmore
  · refine ⟨_, _, rfl, h.congr rfl, ?_⟩
    have hos : completions (o ++ s.ackPuts.2) = s.acknowledged := by
      rw [completions_append, ho]
      simp [ackPuts, completions, acknowledged, List.filterMap_map]
    exact hos ▸ .flushes hash
  · refine ⟨_, _, rfl, h.congr rfl, ?_⟩
    have hos : completions (o ++ []) = [] := by rw [List.append_nil, ho]
    exact hos ▸ .answersListen hash

theorem does_onDataMessage :
    Does s (.response rn status data) (s.onDataMessage rn status data) := by
  unfold onDataMessage
  split
  · next c hc =>
      obtain ⟨pre, post, hash, hremove⟩ := objectForKey_eq_some hq.ascending hc
      simp only [hremove]
      cases c with
      | auth restore => exact does_authCallback h hq hr hash
      | put index => exact does_putCallback h hq hash
      | listen listenSpec => exact does_onResponse h hq hash
      | stats => exact ⟨_, [], rfl, h.congr rfl, .answersOther hash (.inl rfl)⟩
  · exact does_idle h rfl rfl rfl rfl

end answers

/-- **What a step can do**: unless the server reports an error no assertion fails, and the effect is
one of those above. -/
theorem does_step (h : s.Lifecycle) (hq : s.Requests) {e : Event ρ χ ι} (he : s.Enabled e)
    (herror : ∀ error, e ≠ .requestError error) : Does s e (s.step e) := by
  cases e with
  | interrupt reason => exact does_interrupt h rfl reason
  | resume reason => exact does_resume h rfl reason
  | enteringForeground => exact does_enteringForeground h rfl
  | retry => exact does_retry h rfl
  | token attempt token => exact does_token h rfl he token
  | handshake => exact does_onReady h hq he
  | connectionLost => exact does_close h rfl rfl rfl rfl rfl rfl (Option.isSome_iff_ne_none.mp he)
  | shutdown => exact does_interrupt h rfl _
  | response rn status data => exact does_onDataMessage h hq he
  | requestError error => exact absurd rfl (herror error)
  | authRevoked =>
      have hr : s.realtime = some .connected := he
      exact does_close h rfl rfl rfl rfl rfl rfl (by simp [hr])
  | listenRevoked atPath => exact does_idle h rfl rfl rfl (by simp [completions, List.filterMap_map])
  | refreshAuthToken token => exact does_refreshAuthToken h hq token
  | listen query => exact does_listen h hq he
  | unlisten query => exact does_unlisten h hq query
  | putData request hash block => exact does_putData h hq request hash block
  | purgeOutstandingWrites => exact does_purgeOutstandingWrites h hq

end steps

end FPersistentConnection
end ZipR
