import ZipR.Delivery

/-! # The listens of a connection

`FPersistentConnection` keeps the listens of the client over every disconnect.

* **Frame.** Only listens, unlistens, answers to listens and revocations touch them: every other
  handler is `Quiet`.
* **Requests.** `Continues`: a listen or an unlisten completes no put and keeps the order of the
  answers.
* **Failed listens.** The callback of a failed listen may listen again before the puts that were
  held back are completed; that is the same as listening first (`listen_failed`). -/

namespace ZipR

open Reactive NSMutableDictionary

/-! ### Dictionaries -/

section dictionaries
variable {κ β : Type} [DecidableEq κ] {d : List (κ × β)} {k l : κ}

theorem objectForKey_removeObjectForKey_ne (h : l ≠ k) :
    objectForKey l (removeObjectForKey k d) = objectForKey l d := by
  induction d with
  | nil => rfl
  | cons e d ih =>
      obtain ⟨j, v⟩ := e
      rw [removeObjectForKey, List.filter_cons]
      by_cases hj : j = k
      · have hl : (l == j) = false := by simp [hj, h]
        rw [if_neg (by simp [hj]), objectForKey, objectForKey, List.lookup_cons, hl]
        exact ih
      · rw [if_pos (by simp [hj]), objectForKey, objectForKey, List.lookup_cons, List.lookup_cons]
        cases l == j with
        | true => rfl
        | false => exact ih

theorem objectForKey_setObject_ne (h : l ≠ k) (v : β) :
    objectForKey l (setObject v k d) = objectForKey l d := by
  have hl : (l == k) = false := by simp [h]
  rw [setObject, objectForKey, List.lookup_append, List.lookup_cons, hl]
  simpa [objectForKey] using objectForKey_removeObjectForKey_ne (d := d) h

theorem mem_keys_iff : k ∈ d.map Prod.fst ↔ objectForKey k d ≠ none :=
  (not_iff_comm.mp objectForKey_eq_none.symm).symm

theorem mem_keys_setObject (v : β) : l ∈ (setObject v k d).map Prod.fst ↔
    l ∈ d.map Prod.fst ∨ l = k := by
  by_cases hl : l = k
  · simp [setObject, hl]
  · rw [mem_keys_iff, objectForKey_setObject_ne hl, ← mem_keys_iff, or_iff_left hl]

theorem mem_keys_removeObjectForKey : l ∈ (removeObjectForKey k d).map Prod.fst ↔
    l ∈ d.map Prod.fst ∧ l ≠ k := by
  by_cases hl : l = k
  · simp [removeObjectForKey, hl]
  · rw [mem_keys_iff, objectForKey_removeObjectForKey_ne hl, ← mem_keys_iff, and_iff_left hl]

/-- Different keys can be set and removed in any order. -/
theorem removeObjectForKey_setObject_ne (h : k ≠ l) (v : β) :
    removeObjectForKey k (setObject v l d) = setObject v l (removeObjectForKey k d) := by
  have hlk : l ≠ k := h.symm
  simp only [setObject, removeObjectForKey, List.filter_append, List.filter_filter, Bool.and_comm]
  simp [hlk]

theorem nodup_removeObjectForKey (h : (d.map Prod.fst).Nodup) :
    ((removeObjectForKey k d).map Prod.fst).Nodup :=
  h.sublist (List.filter_sublist.map Prod.fst)

theorem nodup_setObject (h : (d.map Prod.fst).Nodup) (v : β) :
    ((setObject v k d).map Prod.fst).Nodup := by
  rw [setObject, List.map_append, List.map_singleton, List.nodup_append]
  refine ⟨nodup_removeObjectForKey h, List.nodup_singleton k, fun l hl k' hk' he => ?_⟩
  obtain rfl := List.mem_singleton.mp hk'
  exact (mem_keys_removeObjectForKey.mp hl).2 he

end dictionaries

namespace FPersistentConnection

variable {ρ χ ι : Type} {s s' s'' : FPersistentConnection ρ χ ι}

/-! ### Handlers that leave the listens alone -/

def Quiet (s : FPersistentConnection ρ χ ι) (r : Except Assertion (Outcome ρ χ ι)) : Prop :=
  ∀ s' os, r = .ok (s', os) → s'.listens = s.listens ∧ ∀ query status, .listenComplete query status ∉ os

theorem Quiet.error (assertion : Assertion) : Quiet s (.error assertion) := nofun

theorem Quiet.ok {os : List (Output ρ χ ι)} (h : s'.listens = s.listens)
    (hos : ∀ query status, .listenComplete query status ∉ os) : Quiet s (.ok (s', os)) := by
  rintro t ps ⟨⟩
  exact ⟨h, hos⟩

theorem Quiet.bind {r : Except Assertion (Outcome ρ χ ι)}
    {f : Outcome ρ χ ι → Except Assertion (Outcome ρ χ ι)} (hr : Quiet s r)
    (hf : ∀ s' os, s'.listens = s.listens → (∀ query status, .listenComplete query status ∉ os) →
      Quiet s (f (s', os))) : Quiet s (r >>= f) := by
  cases r with
  | error assertion => exact .error assertion
  | ok outcome =>
      obtain ⟨hlistens, hos⟩ := hr outcome.1 outcome.2 rfl
      exact hf outcome.1 outcome.2 hlistens hos

/-- Only the listens count. -/
theorem Quiet.congr {r : Except Assertion (Outcome ρ χ ι)} (h : Quiet s r)
    (hlistens : s.listens = s'.listens) : Quiet s' r := fun t os ht => by
  rw [← hlistens]
  exact h t os ht

theorem quiet_sendAction (request : Request ρ ι) (callback : Option (RequestCallback ι)) :
    Quiet s (s.sendAction request callback) := by
  unfold sendAction
  cases s.realtime with
  | none => cases callback <;> exact .ok rfl (by simp)
  | some state =>
      cases state with
      | connecting => exact .error _
      | connected => cases callback <;> exact .ok rfl (by simp)

theorem quiet_sendPut (index : ℕ) : Quiet s (s.sendPut index) := by
  unfold sendPut
  split
  · split
    · exact .error _
    · exact (quiet_sendAction _ _).congr rfl
  · exact .error _

theorem quiet_sendListen (listenSpec : FOutstandingQuery ι) : Quiet s (s.sendListen listenSpec) :=
  (quiet_sendAction _ _).bind fun _ _ hlistens hos => .ok hlistens hos

theorem quiet_forEach {α : Type} {f : α → FPersistentConnection ρ χ ι → Except Assertion
      (Outcome ρ χ ι)} (h : ∀ a t, Quiet t (f a t)) (as : List α) : Quiet s (forEach f as s) := by
  induction as generalizing s with
  | nil => exact .ok rfl (by simp)
  | cons a as ih =>
      refine (h a s).bind fun t os hlistens hos => (ih.congr hlistens).bind fun u ps hu hps => ?_
      exact .ok hu fun query status hmem =>
        (List.mem_append.mp hmem).elim (hos query status) (hps query status)

theorem quiet_restoreState : Quiet s s.restoreState := by
  unfold restoreState
  split
  · refine (quiet_forEach (fun a t => quiet_sendListen a) _).bind fun t os hlistens hos => ?_
    refine ((quiet_forEach (fun a t => quiet_sendPut a) _).congr hlistens).bind
      fun u ps hu hps => .ok hu fun query status hmem => ?_
    exact (List.mem_append.mp hmem).elim (hos query status) (hps query status)
  · exact .error _

theorem quiet_sendAuth (restoreStateAfterComplete : Bool) :
    Quiet s (s.sendAuthAndRestoreStateAfterComplete restoreStateAfterComplete) := by
  unfold sendAuthAndRestoreStateAfterComplete
  split
  · split
    · exact .error _
    · exact quiet_sendAction _ _
  · exact .error _

theorem quiet_restoreAuth : Quiet s s.restoreAuth := by
  unfold restoreAuth
  split
  · split
    · exact quiet_restoreState.congr rfl
    · exact (quiet_sendAuth true).congr rfl
  · exact .error _

theorem not_listenComplete_map {α : Type} {f : α → Output ρ χ ι}
    (hf : ∀ a query status, f a ≠ .listenComplete query status) (as : List α) (query : ι)
    (status : String) : .listenComplete query status ∉ as.map f := by
  intro hmem
  obtain ⟨a, -, ha⟩ := List.mem_map.mp hmem
  exact hf a query status ha

/-- Scheduling a retry leaves the listens alone. -/
theorem listens_tryScheduleReconnect (h : s.tryScheduleReconnect = .ok s') :
    s'.listens = s.listens := by
  unfold tryScheduleReconnect at h
  split_ifs at h <;> cases h <;> rfl

theorem quiet_onDisconnect : Quiet s s.onDisconnect := by
  intro s' os h
  simp only [onDisconnect, bind, Except.bind, pure, Except.pure] at h
  split at h
  · cases h
  · next t ht =>
      cases h
      refine ⟨?_, fun query status hmem => ?_⟩
      · split_ifs at ht
        · exact (listens_tryScheduleReconnect ht).trans rfl
        · cases ht
          rfl
      · rcases List.mem_append.mp hmem with hmem | hmem
        · exact not_listenComplete_map (by simp) _ query status hmem
        · simp at hmem

theorem quiet_close : Quiet s s.close := by
  unfold close
  split
  · exact quiet_onDisconnect
  · exact .ok rfl (by simp)

theorem quiet_interruptForReason (reason : InterruptReason) :
    Quiet s (s.interruptForReason reason) := by
  unfold interruptForReason
  dsimp only
  split
  · exact (quiet_close.congr rfl).bind fun t os hlistens hos => .ok hlistens hos
  · exact .ok rfl (by simp)

/-- A retry may be scheduled, and nothing else happens. -/
theorem quiet_retried {t : FPersistentConnection ρ χ ι} (h : t.listens = s.listens) :
    Quiet s (t.tryScheduleReconnect >>= fun t => .ok (t, [])) := by
  intro s' os hok
  cases hretry : t.tryScheduleReconnect with
  | error assertion =>
      rw [hretry] at hok
      cases hok
  | ok u =>
      rw [hretry] at hok
      cases hok
      exact ⟨(listens_tryScheduleReconnect hretry).trans h, by simp⟩

theorem quiet_resumeForReason (reason : InterruptReason) : Quiet s (s.resumeForReason reason) := by
  unfold resumeForReason
  dsimp only
  split
  · exact quiet_retried rfl
  · exact .ok rfl (by simp)

theorem quiet_enteringForeground : Quiet s s.enteringForeground := by
  unfold enteringForeground
  split
  · exact quiet_retried rfl
  · exact .ok rfl (by simp)

theorem quiet_retry : Quiet s s.retry := by
  unfold retry
  split
  · exact .ok rfl (by simp)
  · dsimp only
    split
    · exact .ok rfl (by simp)
    · exact .error _

theorem quiet_fetchTokenCallback (attempt : ℕ) (result : Option (Option String)) :
    Quiet s (s.fetchTokenCallback attempt result) := by
  unfold fetchTokenCallback openNetworkConnectionWithToken
  dsimp only
  split
  · split
    · exact quiet_retried rfl
    · split_ifs
      · exact .ok rfl (by simp)
      · exact .ok rfl (by simp)
      · exact .error _
  · exact .ok rfl (by simp)

theorem quiet_onReady : Quiet s s.onReady := by
  unfold onReady
  dsimp only
  have hstats : Quiet s (if s.firstConnection then
      { s with realtime := some .connected }.sendAction .stats (some .stats)
      else .ok ({ s with realtime := some .connected }, [])) := by
    split
    · exact (quiet_sendAction _ _).congr rfl
    · exact .ok rfl (by simp)
  refine hstats.bind fun t os hlistens hos => (quiet_restoreAuth.congr hlistens).bind
    fun u ps hu hps => .ok hu fun query status hmem => ?_
  rw [List.mem_append, List.mem_append] at hmem
  rcases hmem with (hmem | hmem) | hmem
  · exact hos query status hmem
  · exact hps query status hmem
  · simp at hmem

theorem quiet_authCallback (restoreStateAfterComplete : Bool) (status : String) :
    Quiet s (s.authCallback restoreStateAfterComplete status) := by
  unfold authCallback
  dsimp only
  split
  · split
    · exact quiet_restoreState.congr rfl
    · exact .ok rfl (by simp)
  · exact quiet_close.congr rfl

theorem quiet_putCallback (index : ℕ) (status : String) (errorReason : Option String) :
    Quiet s (.ok (s.putCallback index status errorReason)) := by
  unfold putCallback
  split
  · dsimp only
    split <;> exact .ok rfl (by simp)
  · exact .ok rfl (by simp)

theorem quiet_refreshAuthToken (token : Option String) : Quiet s (s.refreshAuthToken token) := by
  unfold refreshAuthToken
  dsimp only
  split
  · split
    · exact (quiet_sendAuth false).congr rfl
    · exact (quiet_sendAction _ _).congr rfl
  · exact .ok rfl (by simp)

theorem quiet_putInternal (request : ρ) (hash : Option String) (block : χ) :
    Quiet s (s.putInternal request hash block) := by
  unfold putInternal
  dsimp only
  split
  · exact (quiet_sendPut _).congr rfl
  · exact .ok rfl (by simp)

theorem quiet_listenAnswered : Quiet s s.listenAnswered := by
  unfold listenAnswered
  split_ifs
  · exact .error _
  · dsimp only
    split_ifs
    · exact .ok rfl (not_listenComplete_map (by simp) _)
    · exact .ok rfl (by simp)

theorem quiet_purgeOutstandingWrites : Quiet s (.ok s.purgeOutstandingWrites) := by
  refine .ok rfl fun query status hmem => ?_
  rcases List.mem_append.mp hmem with hmem | hmem
  · exact not_listenComplete_map (by simp) _ query status hmem
  · obtain ⟨key, -, hkey⟩ := List.mem_filterMap.mp hmem
    obtain ⟨put, -, hput⟩ := Option.map_eq_some_iff.mp hkey
    cases hput

section quiet
variable [DecidableEq ι]

/-- The events that may touch the listens. -/
def ConcernsListens (s : FPersistentConnection ρ χ ι) : Event ρ χ ι → Prop
  | .listen _ | .unlisten _ | .listenRevoked _ => True
  | .response rn _ _ => ∃ listenSpec, objectForKey rn s.requestCBHash = some (.listen listenSpec)
  | _ => False

/-- **Every other event** leaves the listens alone. -/
theorem quiet_step {e : Event ρ χ ι} (he : ¬ s.ConcernsListens e) : Quiet s (s.step e) := by
  cases e with
  | interrupt reason => exact quiet_interruptForReason reason
  | resume reason => exact quiet_resumeForReason reason
  | enteringForeground => exact quiet_enteringForeground
  | retry => exact quiet_retry
  | token attempt token => exact quiet_fetchTokenCallback attempt token
  | handshake => exact quiet_onReady
  | connectionLost => exact quiet_close
  | shutdown => exact quiet_interruptForReason _
  | response rn status data =>
      rw [step, onDataMessage]
      split
      · next onMessage hcallback =>
          cases onMessage with
          | auth restore => exact (quiet_authCallback restore status).congr rfl
          | put index => exact (quiet_putCallback index status data).congr rfl
          | listen listenSpec => exact absurd ⟨listenSpec, hcallback⟩ he
          | stats => exact .ok rfl (by simp)
      · exact .ok rfl (by simp)
  | requestError error => exact .error _
  | authRevoked => exact quiet_close.congr rfl
  | listenRevoked atPath => exact absurd trivial he
  | refreshAuthToken token => exact quiet_refreshAuthToken token
  | listen query => exact absurd trivial he
  | unlisten query => exact absurd trivial he
  | putData request hash block => exact quiet_putInternal request hash block
  | purgeOutstandingWrites => exact quiet_purgeOutstandingWrites

end quiet

/-! ### Requests between the answers -/

/-- Requests were sent that complete no put, and the answers stay in order. -/
structure Continues (s s' : FPersistentConnection ρ χ ι) : Prop where
  invariant : s'.Invariant
  pipelined : s'.Pipelined
  sends : ∃ cbs, Sends s s' cbs

theorem Continues.refl (h : s.Invariant) (hp : s.Pipelined) : Continues s s := ⟨h, hp, [], .refl⟩

theorem Continues.trans (h : Continues s s') (h' : Continues s' s'') : Continues s s'' := by
  obtain ⟨cbs, hsends⟩ := h.sends
  obtain ⟨cbs', hsends'⟩ := h'.sends
  exact ⟨h'.invariant, h'.pipelined, _, hsends.trans hsends'⟩

/-- A request that waits still waits after later ones. -/
theorem Continues.objectForKey (h : Continues s s') {rn : ℕ} {c : RequestCallback ι}
    (hc : objectForKey rn s.requestCBHash = some c) : objectForKey rn s'.requestCBHash = some c := by
  obtain ⟨cbs, hsends⟩ := h.sends
  obtain ⟨new, hnew, -⟩ := hsends.hash
  rw [hnew, NSMutableDictionary.objectForKey, List.lookup_append, ← NSMutableDictionary.objectForKey,
    hc, Option.some_or]

theorem Continues.answersInOrder (h : Continues s s') (hq : s.Requests) {rn : ℕ}
    {c : RequestCallback ι} (hc : NSMutableDictionary.objectForKey rn s.requestCBHash = some c)
    (hput : isPut c = false) {status : String} {data : Option String}
    (horder : s.AnswersInOrder (.response rn status data)) :
    s'.AnswersInOrder (.response rn status data) := by
  obtain ⟨cbs, hsends⟩ := h.sends
  obtain ⟨new, hnew, -⟩ := hsends.hash
  obtain ⟨pre, post, hash, -⟩ := List.lookup_eq_some_iff.mp hc
  obtain rfl := pre_eq_nil hq hash horder
  intro e he
  rw [hnew, hash] at he
  obtain rfl : (rn, c) = e := by simpa using he
  exact ⟨rfl, fun hput' => by cases hput.symm.trans hput'⟩

section listens
variable [DecidableEq ι] {query : ι}

theorem sends_listen (h : s.Lifecycle) (hq : s.Requests)
    (hquery : objectForKey query s.listens = none) : ∃ s' os cbs,
      s.listen query = .ok (s', os) ∧ Sends s s' cbs ∧
        s'.listens = setObject ⟨query, s.objects⟩ query s.listens := by
  have hnot : ¬ (objectForKey query s.listens).isSome = true := by simp [hquery]
  unfold listen
  rw [if_neg hnot]
  dsimp only
  split_ifs with hconnected
  · have hr := (connected_iff h).mp hconnected
    set t : FPersistentConnection ρ χ ι := { s with
      listens := setObject ⟨query, s.objects⟩ query s.listens
      objects := s.objects + 1 }
    obtain ⟨s', os, hok, hsends, -⟩ := sent_sendListen (s := t) hq.numbers hr ⟨query, s.objects⟩
    exact ⟨s', os, _, hok, hsends.congr rfl rfl rfl rfl, (quiet_sendListen _ s' os hok).1⟩
  · exact ⟨_, [], [], rfl, Sends.refl.congr rfl rfl rfl rfl, rfl⟩

theorem sends_unlisten (h : s.Lifecycle) (hq : s.Requests) (query : ι) : ∃ s' os cbs,
    s.unlisten query = .ok (s', os) ∧ Sends s s' cbs ∧
      s'.listens = removeObjectForKey query s.listens := by
  unfold unlisten
  split
  · dsimp only
    split_ifs with hconnected
    · have hr := (connected_iff h).mp hconnected
      set t : FPersistentConnection ρ χ ι := { s with listens := removeObjectForKey query s.listens }
      obtain ⟨s', os, hok, hsends, -⟩ := sent_sendAction (s := t) hq.numbers hr (.unlisten query)
        fun c (hc : c ∈ none) => nomatch hc
      exact ⟨s', os, _, hok, hsends.congr rfl rfl rfl rfl, (quiet_sendAction _ _ s' os hok).1⟩
    · exact ⟨_, [], [], rfl, Sends.refl.congr rfl rfl rfl rfl, rfl⟩
  · next hnone =>
      refine ⟨s, [], [], rfl, .refl, (List.filter_eq_self.mpr fun e he => ?_).symm⟩
      have hkey := objectForKey_eq_none.mp hnone
      exact decide_eq_true fun hek => hkey (hek ▸ List.mem_map_of_mem he)

/-- **A new listen** is kept and may be sent. -/
theorem continues_listen (h : s.Invariant) (hp : s.Pipelined)
    (hquery : objectForKey query s.listens = none) : ∃ s' os, s.listen query = .ok (s', os) ∧
      Continues s s' ∧ s'.listens = setObject ⟨query, s.objects⟩ query s.listens := by
  obtain ⟨s', os, cbs, hok, hsends, hlistens⟩ := sends_listen h.lifecycle h.requests hquery
  have hen : s.Enabled (.listen query) := by simp [Enabled, hquery]
  obtain ⟨hinv, hp', -⟩ := hp.step h (e := .listen query) ⟨⟨hen, trivial⟩, hok⟩
  exact ⟨s', os, hok, ⟨hinv, hp', cbs, hsends⟩, hlistens⟩

theorem continues_unlisten (h : s.Invariant) (hp : s.Pipelined) (query : ι) : ∃ s' os,
    s.unlisten query = .ok (s', os) ∧ Continues s s' ∧
      s'.listens = removeObjectForKey query s.listens := by
  obtain ⟨s', os, cbs, hok, hsends, hlistens⟩ := sends_unlisten h.lifecycle h.requests query
  obtain ⟨hinv, hp', -⟩ := hp.step h (e := .unlisten query) ⟨⟨trivial, trivial⟩, hok⟩
  exact ⟨s', os, hok, ⟨hinv, hp', cbs, hsends⟩, hlistens⟩

/-! ### Revoked listens -/

/-- **Revoking** the listen of a query. -/
theorem continues_listenRevoked (h : s.Invariant) (hp : s.Pipelined)
    (hr : s.realtime = some .connected) (hnodup : (s.listens.map Prod.fst).Nodup) (query : ι) :
    ∃ s', s.step (.listenRevoked fun q => q = query) = .ok (s',
        if query ∈ s.listens.map Prod.fst then [.listenComplete query "permission_denied"] else []) ∧
      Continues s s' ∧ s'.listens = removeObjectForKey query s.listens := by
  have hfilter : s.listens.filter (fun l => !decide (l.1 = query)) =
      removeObjectForKey query s.listens := List.filter_congr fun l _ => by simp
  have hkeys : (s.listens.filter fun l => decide (l.1 = query)).map Prod.fst =
      if query ∈ s.listens.map Prod.fst then [query] else [] := by
    have hmap : (s.listens.filter fun l => decide (l.1 = query)).map Prod.fst =
        (s.listens.map Prod.fst).filter fun q => decide (q = query) := by
      rw [List.filter_map]
      rfl
    rw [hmap, List.filter_eq]
    split_ifs with hquery
    · rw [List.count_eq_one_of_mem hnodup hquery, List.replicate_one]
    · rw [List.count_eq_zero_of_not_mem hquery, List.replicate_zero]
  have hos : (s.listens.filter fun l => decide (l.1 = query)).map
        (fun l => (.listenComplete l.1 "permission_denied" : Output ρ χ ι)) =
      if query ∈ s.listens.map Prod.fst then [.listenComplete query "permission_denied"] else [] := by
    have hcomp := congrArg (List.map fun q =>
      (.listenComplete q "permission_denied" : Output ρ χ ι)) hkeys
    rw [List.map_map] at hcomp
    refine hcomp.trans ?_
    split_ifs <;> rfl
  have hstep : s.step (.listenRevoked fun q => q = query) = .ok ({ s with
      listens := removeObjectForKey query s.listens },
      if query ∈ s.listens.map Prod.fst then [.listenComplete query "permission_denied"]
      else []) := by
    simp only [step, onListenRevoked, hfilter, hos]
  obtain ⟨hinv, hp', -⟩ := hp.step h (e := .listenRevoked fun q => q = query) ⟨⟨hr, trivial⟩, hstep⟩
  exact ⟨_, hstep, ⟨hinv, hp', [], Sends.refl.congr rfl rfl rfl rfl⟩, rfl⟩

/-! ### Answers to listens -/

/-- The state in which the `onComplete` of a failed listen is called. -/
def failed (rn : ℕ) (query : ι) (s : FPersistentConnection ρ χ ι) : FPersistentConnection ρ χ ι :=
  { s with
    requestCBHash := removeObjectForKey rn s.requestCBHash
    listens := removeObjectForKey query s.listens }

/-- An answer and a later request can be exchanged. -/
theorem sendListen_failed {rn : ℕ} (hrn : rn ≠ s.requestNumber) (listenSpec : FOutstandingQuery ι) :
    (s.failed rn query).sendListen listenSpec =
      (s.sendListen listenSpec).map fun r => (r.1.failed rn query, r.2) := by
  have hset : ∀ v, setObject v s.requestNumber (removeObjectForKey rn s.requestCBHash) =
      removeObjectForKey rn (setObject v s.requestNumber s.requestCBHash) := fun v =>
    (removeObjectForKey_setObject_ne hrn v).symm
  simp only [sendListen, sendAction, failed, hset]
  cases s.realtime with
  | none => rfl
  | some state => cases state <;> rfl

/-- **Listening again after a failed listen** is the same as listening before its answer. -/
theorem listen_failed {rn : ℕ} {q : ι} (hq : q ≠ query) (hrn : rn ≠ s.requestNumber) :
    (s.failed rn query).listen q = (s.listen q).map fun r => (r.1.failed rn query, r.2) := by
  have hlookup : objectForKey q (s.failed rn query).listens = objectForKey q s.listens :=
    objectForKey_removeObjectForKey_ne hq
  unfold listen
  rw [hlookup]
  cases (objectForKey q s.listens).isSome with
  | true => rfl
  | false =>
      set t : FPersistentConnection ρ χ ι := { s with
        listens := setObject ⟨q, s.objects⟩ q s.listens
        objects := s.objects + 1 } with ht
      have hfailed : { s.failed rn query with
          listens := setObject ⟨q, (s.failed rn query).objects⟩ q (s.failed rn query).listens
          objects := (s.failed rn query).objects + 1 } = t.failed rn query := by
        simp only [failed, ht, removeObjectForKey_setObject_ne hq.symm]
      have hconnected : (t.failed rn query).connected = t.connected := rfl
      simp only [Bool.false_eq_true, if_false, hfailed, hconnected]
      split_ifs
      · exact sendListen_failed (s := t) hrn _
      · rfl

theorem requestNumber_listen {q : ι} {os : List (Output ρ χ ι)} (h : s.listen q = .ok (s', os)) :
    s.requestNumber ≤ s'.requestNumber := by
  simp only [listen, sendListen, sendAction, bind, Except.bind, pure, Except.pure] at h
  split_ifs at h
  · cases hr : s.realtime with
    | none =>
        simp only [hr] at h
        cases h
        exact Nat.le_succ _
    | some state =>
        cases state with
        | connecting => simp [hr] at h
        | connected =>
            simp only [hr] at h
            cases h
            exact Nat.le_succ _
  · cases h
    exact le_rfl

/-- What the block for the answer to a listen does. -/
theorem step_response_of_listen {rn : ℕ} {listenSpec : FOutstandingQuery ι}
    (hc : objectForKey rn s.requestCBHash = some (.listen listenSpec)) (status : String)
    (data : Option String) : s.step (.response rn status data) =
      { s with requestCBHash := removeObjectForKey rn s.requestCBHash }.onResponse listenSpec
        status := by
  simp only [step, onDataMessage, hc, callback]

end listens

end FPersistentConnection
end ZipR
