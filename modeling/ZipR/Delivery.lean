import ZipR.Requests

/-! # The delivery of puts

What holds of a connection in every run, whatever the network and the server do.

* **Safety.** No assertion fails (`machine_fails_iff`).
* **Accounting.** Every put completes once or still waits (`puts_accounted`), and on a connection
  whose state is restored every outstanding put has been sent (`outstanding_sent`).
* **Order.** When the server answers in the order of the requests, puts complete in the order in
  which they were made (`puts_ordered`), except after a disconnect that leaves completions held
  back. -/

namespace ZipR

open Reactive NSMutableDictionary

namespace FPersistentConnection

variable {ρ χ ι : Type} {s s' : FPersistentConnection ρ χ ι}

/-! ### Invariants -/

theorem Requests.congr (h : s.Requests) (hqueue : s'.queue = s.queue)
    (hready : s'.realtime = some .connected ↔ s.realtime = some .connected) : s'.Requests := by
  simp only [queue, Prod.mk.injEq] at hqueue
  obtain ⟨h₁, h₂, h₃, h₄, -, h₆⟩ := hqueue
  exact ⟨h₁ ▸ h.ascending, h₁ ▸ h₂ ▸ h.numbers, fun hne => h₁.trans (h.closed (mt hready.mpr hne)),
    by rw [h₆, h.unacked, callbacks, callbacks, h₁], h₃ ▸ h.puts, h₃ ▸ h₄ ▸ h.counter,
    by rw [callbacks, h₁, h₄]; exact h.indices⟩

section removal
variable {rn : ℕ} {c : RequestCallback ι} {pre post : List (ℕ × RequestCallback ι)}

/-- A request that waits was sent over a connection that is ready. -/
theorem Requests.ready (h : s.Requests) (hash : s.requestCBHash = pre ++ (rn, c) :: post) :
    s.realtime = some .connected := by
  by_contra hne
  have hclosed := hash.symm.trans (h.closed hne)
  simp at hclosed

theorem callbacks_eq (hash : s.requestCBHash = pre ++ (rn, c) :: post) :
    s.callbacks = pre.map Prod.snd ++ c :: post.map Prod.snd := by
  simp [callbacks, hash]

/-- The count after the answer to a listen. -/
theorem Requests.unacked_of_listen {listenSpec : FOutstandingQuery ι} (h : s.Requests)
    (hash : s.requestCBHash = pre ++ (rn, .listen listenSpec) :: post) :
    s.unackedListensCount - 1 + [RequestCallback.listen listenSpec].countP isListen =
      s.unackedListensCount := by
  have hcount : s.unackedListensCount ≠ 0 := by
    rw [h.unacked, callbacks_eq hash]
    simp [isListen]
  simp only [isListen, List.countP_cons, List.countP_nil, if_true]
  omega

/-- An answer takes its request out. -/
theorem Requests.answered (h : s.Requests) (hash : s.requestCBHash = pre ++ (rn, c) :: post)
    (hhash : s'.requestCBHash = pre ++ post) (hnumber : s'.requestNumber = s.requestNumber)
    (hr : s'.realtime = s.realtime)
    (hunacked : s'.unackedListensCount + [c].countP isListen = s.unackedListensCount)
    (hputs : s'.outstandingPuts.Sublist s.outstandingPuts)
    (hcounter : s'.putCounter = s.putCounter) : s'.Requests := by
  have hsub : (pre ++ post).Sublist s.requestCBHash :=
    hash ▸ (List.Sublist.refl pre).append (List.sublist_cons_self _ post)
  refine ⟨hhash ▸ h.ascending.sublist hsub, ?_, fun hne => ?_, ?_, h.puts.sublist hputs, ?_, ?_⟩
  · rw [hhash, hnumber]
    exact fun e he => h.numbers e (hsub.subset he)
  · exact absurd (hr.trans (h.ready hash)) hne
  · have hcount := h.unacked
    rw [callbacks_eq hash, List.countP_append, List.countP_cons] at hcount
    rw [callbacks, hhash, List.map_append, List.countP_append]
    simp only [List.countP_cons, List.countP_nil] at hunacked
    omega
  · rw [hcounter]
    exact fun e he => h.counter e (hputs.subset he)
  · intro i hi
    rw [callbacks, hhash] at hi
    rw [hcounter]
    exact h.indices i ((hsub.map Prod.snd).subset hi)

end removal

/-- **Requests and puts stay numbered in their order.** -/
theorem Effect.requests {e : Event ρ χ ι} {done : List (χ × String)} (he : Effect s e s' done)
    (h : s.Requests) : s'.Requests := by
  have hkeys : ∀ i, RequestCallback.put i ∈ (s.outstandingPuts.map Prod.fst).map
      (RequestCallback.put : ℕ → RequestCallback ι) → i < s.putCounter := by
    intro i hi
    obtain ⟨j, hj, hij⟩ := List.mem_map.mp hi
    obtain ⟨e, he, rfl⟩ := List.mem_map.mp hj
    cases hij
    exact h.counter e he
  have hasc : ∀ put, Ascending (s.outstandingPuts ++ [(s.putCounter, put)]) := fun put =>
    h.puts.concat h.counter
  have hcount : ∀ put, ∀ e ∈ s.outstandingPuts ++ [(s.putCounter, put)], e.1 < s.putCounter + 1 :=
    fun put => List.forall_mem_append.mpr ⟨fun e he => Nat.lt_succ_of_lt (h.counter e he), by simp⟩
  cases he with
  | idle hqueue hready => exact h.congr hqueue hready
  | closes hc =>
      have hnil : s'.callbacks = [] := by rw [callbacks, hc.hash]; rfl
      refine ⟨hc.hash ▸ .nil, by rw [hc.hash]; simp, fun _ => hc.hash, by rw [hc.unacked, hnil]; rfl,
        hc.puts ▸ h.puts.filter _, ?_, by rw [hnil]; simp⟩
      rw [hc.puts, hc.putCounter]
      exact fun e he => h.counter e (List.mem_of_mem_filter he)
  | sends hr hs hcbs => exact hs.requests h hr fun i hi => absurd rfl ((hcbs _ hi).2 i)
  | authenticates hr hcbs hs =>
      refine hs.requests ⟨h.ascending, h.numbers, fun hne => absurd rfl hne, h.unacked, h.puts,
        h.counter, h.indices⟩ rfl fun i hi => ?_
      rcases List.mem_append.mp hi with hi | hi
      · cases hcbs _ hi
      · simp at hi
  | opens hr hcbs hs =>
      refine hs.requests ⟨h.ascending, h.numbers, fun hne => absurd rfl hne, h.unacked, h.puts,
        h.counter, h.indices⟩ rfl fun i hi => ?_
      rcases List.mem_append.mp hi with hi | hi
      · exact absurd rfl ((hcbs _ hi).2 i)
      · exact hkeys i hi
  | keeps hstate hs =>
      subst hs
      exact ⟨h.ascending, h.numbers, h.closed, h.unacked, hasc _, hcount _,
        fun i hi => Nat.lt_succ_of_lt (h.indices i hi)⟩
  | sendsPut hstate hr hs =>
      refine hs.requests ⟨h.ascending, h.numbers, h.closed, h.unacked, hasc _, hcount _,
        fun i hi => Nat.lt_succ_of_lt (h.indices i hi)⟩ hr fun i hi => ?_
      cases List.mem_singleton.mp hi
      exact Nat.lt_succ_self _
  | purges => exact ⟨h.ascending, h.numbers, h.closed, h.unacked, .nil, by simp, h.indices⟩
  | answersOther hash hc =>
      refine h.answered hash rfl rfl rfl ?_ (.refl _) rfl
      rcases hc with rfl | ⟨i, rfl, -⟩ <;> rfl
  | answersAuth hash => exact h.answered hash rfl rfl rfl rfl (.refl _) rfl
  | @answersRestore rn status data pre post _ cbs hash hcbs hs =>
      have ht : Requests { s with requestCBHash := pre ++ post, connectionState := .connected } :=
        h.answered hash rfl rfl rfl rfl (.refl _) rfl
      refine hs.requests ht (h.ready hash) fun i hi => ?_
      rcases List.mem_append.mp hi with hi | hi
      · exact absurd rfl ((hcbs _ hi).2 i)
      · exact hkeys i hi
  | answersPut hash hputs =>
      exact h.answered hash rfl rfl rfl rfl
        (hputs ▸ (List.Sublist.refl _).append (List.sublist_cons_self _ _)) rfl
  | holdsPut hash hputs =>
      exact h.answered hash rfl rfl rfl rfl
        (hputs ▸ (List.Sublist.refl _).append (List.sublist_cons_self _ _)) rfl
  | answersListen hash =>
      exact h.answered hash rfl rfl rfl (h.unacked_of_listen hash) (.refl _) rfl
  | flushes hash => exact h.answered hash rfl rfl rfl (h.unacked_of_listen hash) (.refl _) rfl

theorem ready_of_state (h : s.Lifecycle)
    (hstate : s.connectionState = .authenticating ∨ s.connectionState = .connected) :
    s.realtime = some .connected := by
  rw [h.realtime]
  rcases hstate with hstate | hstate <;> rw [hstate] <;> rfl

theorem state_of_ready (h : s.Lifecycle) (hr : s.realtime = some .connected) :
    s.connectionState = .authenticating ∨ s.connectionState = .connected := by
  have hconnected := (connected_iff h).mpr hr
  simpa [connected] using hconnected

/-- Once the state is restored, every outstanding put has been sent on this connection; until then
the authentication that restores it has no answer. -/
structure Restored (s : FPersistentConnection ρ χ ι) : Prop where
  authenticating : s.connectionState = .authenticating → .auth true ∈ s.callbacks
  connected : s.connectionState = .connected → .auth true ∈ s.callbacks ∨
    ∀ i ∈ s.outstandingPuts.map Prod.fst, .put i ∈ s.callbacks

section removal
variable {rn : ℕ} {c d : RequestCallback ι} {pre post : List (ℕ × RequestCallback ι)}

/-- What remains when a request is answered. -/
theorem mem_callbacks_of_ne (hash : s.requestCBHash = pre ++ (rn, c) :: post) (hne : d ≠ c)
    (hd : d ∈ s.callbacks) : d ∈ (pre ++ post).map Prod.snd := by
  rw [callbacks_eq hash] at hd
  rw [List.map_append]
  rcases List.mem_append.mp hd with hd | hd
  · exact List.mem_append_left _ hd
  · exact List.mem_append_right _ ((List.mem_cons.mp hd).resolve_left hne)

theorem Restored.answered (h : s.Restored) (hash : s.requestCBHash = pre ++ (rn, c) :: post)
    (hstate : s'.connectionState = s.connectionState) (hhash : s'.requestCBHash = pre ++ post)
    (hkeys : ∀ i ∈ s'.outstandingPuts.map Prod.fst,
      i ∈ s.outstandingPuts.map Prod.fst ∧ .put i ≠ c) (hc : .auth true ≠ c) : s'.Restored := by
  have hrest : s'.callbacks = (pre ++ post).map Prod.snd := congrArg (List.map Prod.snd) hhash
  refine ⟨fun ha => ?_, fun hcon => ?_⟩
  · rw [hrest]
    exact mem_callbacks_of_ne hash hc (h.authenticating (hstate.symm.trans ha))
  · rw [hrest]
    refine (h.connected (hstate.symm.trans hcon)).imp (mem_callbacks_of_ne hash hc) ?_
    exact fun hsent i hi => mem_callbacks_of_ne hash (hkeys i hi).2 (hsent i (hkeys i hi).1)

/-- The puts without the answered one. -/
theorem Requests.keys_of_remove (h : s.Requests) {index : ℕ} {put : FOutstandingPut ρ χ}
    {before after : List (ℕ × FOutstandingPut ρ χ)}
    (hputs : s.outstandingPuts = before ++ (index, put) :: after) :
    ∀ i ∈ (before ++ after).map Prod.fst, i ∈ s.outstandingPuts.map Prod.fst ∧
      RequestCallback.put i ≠ (.put index : RequestCallback ι) := by
  have hnodup := h.puts.nodup
  rw [hputs, List.map_append, List.map_cons, List.nodup_middle, List.nodup_cons] at hnodup
  intro i hi
  rw [hputs]
  refine ⟨?_, fun he => ?_⟩
  · simp only [List.map_append, List.map_cons, List.mem_append, List.mem_cons] at hi ⊢
    tauto
  · cases he
    exact hnodup.1 (by simpa using hi)

end removal

/-- **What is restored stays sent**: every outstanding put waits for its answer. -/
theorem Effect.restored {e : Event ρ χ ι} {done : List (χ × String)} (he : Effect s e s' done)
    (h : s.Lifecycle) (h' : s'.Lifecycle) (hq : s.Requests) (hs : s.Restored) : s'.Restored := by
  cases he with
  | idle hqueue hready hstate =>
      have hsame : s'.connectionState = .authenticating ∨ s'.connectionState = .connected →
          s'.connectionState = s.connectionState := fun hs' => hstate (ready_of_state h' hs')
      simp only [queue, Prod.mk.injEq] at hqueue
      obtain ⟨hhash, -, hputs, -, -, -⟩ := hqueue
      refine ⟨fun ha => ?_, fun hc => ?_⟩
      · rw [callbacks, hhash]
        exact hs.authenticating ((hsame (.inl ha)).symm.trans ha)
      · rw [callbacks, hhash, hputs]
        exact hs.connected ((hsame (.inr hc)).symm.trans hc)
  | closes hc => exact ⟨fun ha => (by cases hc.connectionState.symm.trans ha),
      fun hcon => (by cases hc.connectionState.symm.trans hcon)⟩
  | sends hr hsends hcbs =>
      have hstate := hsends.connectionState.symm
      refine ⟨fun ha => ?_, fun hc => ?_⟩
      · rw [hsends.callbacks]
        exact List.mem_append_left _ (hs.authenticating (hstate.trans ha))
      · rw [hsends.callbacks, hsends.keys]
        exact (hs.connected (hstate.trans hc)).imp (List.mem_append_left _)
          fun hsent i hi => List.mem_append_left _ (hsent i hi)
  | authenticates hr hcbs hsends =>
      refine ⟨fun _ => ?_, fun hc => ?_⟩
      · rw [hsends.callbacks]
        simp
      · cases hsends.connectionState.symm.trans hc
  | opens hr hcbs hsends =>
      refine ⟨fun ha => (by cases hsends.connectionState.symm.trans ha), fun _ => .inr ?_⟩
      rw [hsends.callbacks, hsends.keys]
      exact fun i hi => List.mem_append_right _ (List.mem_append_right _ (List.mem_map_of_mem hi))
  | keeps hstate hs' => exact hs' ▸ ⟨hs.authenticating, fun hc => absurd hc hstate⟩
  | sendsPut hstate hr hsends =>
      have hstate' := hsends.connectionState.trans hstate
      refine ⟨fun ha => (by cases hstate'.symm.trans ha), fun _ => ?_⟩
      rw [hsends.callbacks, hsends.keys]
      refine (hs.connected hstate).imp (List.mem_append_left _) fun hsent i hi => ?_
      rw [List.map_append] at hi
      rcases List.mem_append.mp hi with hi | hi
      · exact List.mem_append_left _ (hsent i hi)
      · obtain rfl : i = s.putCounter := by simpa using hi
        exact List.mem_append_right _ (List.mem_singleton_self _)
  | purges => exact ⟨hs.authenticating, fun _ => .inr (by simp)⟩
  | answersOther hash hc =>
      refine hs.answered hash rfl rfl (fun i hi => ⟨hi, ?_⟩) ?_
      · rcases hc with rfl | ⟨j, rfl, hj⟩
        · simp
        · rintro ⟨⟩
          exact hj hi
      · rcases hc with rfl | ⟨j, rfl, -⟩ <;> simp
  | answersAuth hash =>
      refine ⟨by simp, fun _ => ?_⟩
      rcases state_of_ready h (hq.ready hash) with ha | hc
      · exact .inl (mem_callbacks_of_ne hash (by simp) (hs.authenticating ha))
      · exact (hs.connected hc).imp (mem_callbacks_of_ne hash (by simp))
          fun hsent i hi => mem_callbacks_of_ne hash (by simp) (hsent i hi)
  | answersRestore hash hcbs hsends =>
      refine ⟨fun ha => (by cases hsends.connectionState.symm.trans ha), fun _ => .inr ?_⟩
      rw [hsends.callbacks, hsends.keys]
      exact fun i hi => List.mem_append_right _ (List.mem_append_right _ (List.mem_map_of_mem hi))
  | answersPut hash hputs => exact hs.answered hash rfl rfl (hq.keys_of_remove hputs) (by simp)
  | holdsPut hash hputs => exact hs.answered hash rfl rfl (hq.keys_of_remove hputs) (by simp)
  | answersListen hash => exact hs.answered hash rfl rfl (fun i hi => ⟨hi, by simp⟩) (by simp)
  | flushes hash => exact hs.answered hash rfl rfl (fun i hi => ⟨hi, by simp⟩) (by simp)

/-- The blocks of the puts that are completed. -/
def completed (os : List (Output ρ χ ι)) : List χ := (completions os).map Prod.fst

@[simp] theorem completed_append (os ps : List (Output ρ χ ι)) :
    completed (os ++ ps) = completed os ++ completed ps := by
  simp [completed]

/-- Where nothing is completed or made, the same puts wait. -/
theorem accounts_of_waiting {e : Event ρ χ ι} (he : e.blocks = []) (h : s'.waiting = s.waiting) :
    ([] ++ s'.waiting).Perm (s.waiting ++ e.blocks) := by
  rw [he, h, List.append_nil, List.nil_append]

/-- **Every put completes once or still waits**, in one step. -/
theorem Effect.accounts {e : Event ρ χ ι} {done : List (χ × String)} (he : Effect s e s' done) :
    (done.map Prod.fst ++ s'.waiting).Perm (s.waiting ++ e.blocks) := by
  cases he with
  | idle hqueue hready hstate he =>
      simp only [queue, Prod.mk.injEq] at hqueue
      exact accounts_of_waiting he (by rw [waiting, waiting, hqueue.2.2.1, hqueue.2.2.2.2.1])
  | closes hc he =>
      have hsplit := (List.filter_append_perm (fun e => isSentTransaction e.2)
        s.outstandingPuts).map (·.2.onCompleteBlock)
      rw [List.map_append] at hsplit
      rw [he, List.append_nil, waiting, waiting, hc.putsToAck, hc.puts, cancelled, List.map_map]
      exact (List.perm_append_comm_assoc _ _ _).trans (hsplit.append_left _)
  | sends hr hs hcbs he => exact accounts_of_waiting he hs.waiting
  | authenticates hr hcbs hs => exact accounts_of_waiting rfl hs.waiting
  | opens hr hcbs hs => exact accounts_of_waiting rfl hs.waiting
  | keeps hstate hs =>
      subst hs
      simp [waiting, Event.blocks]
  | sendsPut hstate hr hs =>
      rw [hs.waiting]
      simp [waiting, Event.blocks]
  | purges => simp [waiting, Event.blocks, Function.comp_def]
  | answersOther hash hc => exact accounts_of_waiting rfl rfl
  | answersAuth hash => exact accounts_of_waiting rfl rfl
  | answersRestore hash hcbs hs => exact accounts_of_waiting rfl hs.waiting
  | answersPut hash hputs =>
      simp only [waiting, Event.blocks, hputs, List.map_append, List.map_cons, List.append_nil,
        List.map_nil]
      refine (List.perm_append_comm_assoc _ _ _).trans ?_
      rw [List.singleton_append]
      exact List.perm_middle.symm.append_left _
  | holdsPut hash hputs =>
      simp only [waiting, Event.blocks, hputs, List.map_append, List.map_cons, List.append_nil,
        List.map_nil, List.nil_append, List.append_assoc, List.singleton_append]
      exact List.perm_middle.symm.append_left _
  | answersListen hash => exact accounts_of_waiting rfl rfl
  | flushes hash => simp [waiting, Event.blocks]

/-- The status of an answer. -/
def Event.status : Event ρ χ ι → Option String
  | .response _ status _ => some status
  | _ => none

/-- Unless the writes are purged, a put completes with the status of its answer, or it was a
transaction that the disconnect cancels. -/
theorem Effect.statuses {e : Event ρ χ ι} {done : List (χ × String)} (he : Effect s e s' done)
    {P : String → Prop} (hack : ∀ put ∈ s.putsToAck, P put.status) (hstatus : ∀ st ∈ e.status, P st)
    (hcancel : P kFTransactionDisconnect) (hpurge : e = .purgeOutstandingWrites → P kFErrorWriteCanceled) :
    (∀ d ∈ done, P d.2) ∧ ∀ put ∈ s'.putsToAck, P put.status := by
  have hheld : ∀ d ∈ s.acknowledged, P d.2 := List.forall_mem_map.mpr hack
  cases he with
  | idle hqueue =>
      simp only [queue, Prod.mk.injEq] at hqueue
      exact ⟨by simp, hqueue.2.2.2.2.1 ▸ hack⟩
  | closes hc => exact ⟨List.forall_mem_map.mpr fun e _ => hcancel, hc.putsToAck ▸ hack⟩
  | sends hr hs => exact ⟨by simp, hs.putsToAck ▸ hack⟩
  | authenticates hr hcbs hs => exact ⟨by simp, hs.putsToAck ▸ hack⟩
  | opens hr hcbs hs => exact ⟨by simp, hs.putsToAck ▸ hack⟩
  | keeps hstate hs => exact ⟨by simp, hs ▸ hack⟩
  | sendsPut hstate hr hs => exact ⟨by simp, hs.putsToAck ▸ hack⟩
  | purges =>
      exact ⟨List.forall_mem_append.mpr ⟨hheld, List.forall_mem_map.mpr fun e _ => hpurge rfl⟩, by simp⟩
  | answersOther => exact ⟨by simp, hack⟩
  | answersAuth => exact ⟨by simp, hack⟩
  | answersRestore hash hcbs hs => exact ⟨by simp, hs.putsToAck ▸ hack⟩
  | answersPut => exact ⟨by simpa using hstatus _ rfl, hack⟩
  | holdsPut => exact ⟨by simp, List.forall_mem_append.mpr ⟨hack, by simpa using hstatus _ rfl⟩⟩
  | answersListen => exact ⟨by simp, hack⟩
  | flushes => exact ⟨hheld, by simp⟩

/-! ### A connection that is lost -/

/-- A connection is opened without a token. -/
def opened : List (Event String String String) :=
  [.resume .waitingForOpen, .retry, .token 1 (some none), .handshake, .response 1 "ok" none]

/-- A put is made, a listen after it, and the put is answered first. -/
def held : List (Event String String String) :=
  opened ++ [.putData "/a" none "a", .listen "/q", .response 2 "ok" none]

/-- The connection is lost and opened again, and both puts are answered. -/
def heldAndLost : List (Event String String String) :=
  held ++ [.connectionLost, .putData "/b" none "b", .retry, .token 2 (some none), .handshake,
    .response 4 "ok" none, .response 5 "ok" none]

/-- A put is answered but held back, a transaction is cancelled, and the new connection gets the
listen and another put. -/
def resent : List (Event String String String) :=
  opened ++ [.putData "/a" none "a", .putData "/t" (some "hash") "t", .listen "/q",
    .response 2 "ok" none, .connectionLost, .putData "/b" none "b", .retry, .token 2 (some none),
    .handshake]

/-! ### Runs -/

/-- What holds of a connection at any time. -/
structure Invariant (s : FPersistentConnection ρ χ ι) : Prop where
  lifecycle : s.Lifecycle
  requests : s.Requests
  restored : s.Restored

theorem invariant_init : (init : FPersistentConnection ρ χ ι).Invariant where
  lifecycle := ⟨rfl, fun h => absurd rfl h, .nil, nofun, nofun⟩
  requests := ⟨.nil, nofun, fun _ => rfl, rfl, .nil, nofun, nofun⟩
  restored := ⟨nofun, nofun⟩

/-- The blocks of the puts that were made. -/
def blocks (es : List (Event ρ χ ι)) : List χ := es.flatMap Event.blocks

@[simp] theorem blocks_snoc (es : List (Event ρ χ ι)) (e : Event ρ χ ι) :
    blocks (es ++ [e]) = blocks es ++ e.blocks := by
  simp [blocks]

section runs
variable [DecidableEq ι]

/-- **One step keeps the invariant**, and says what it does to the puts. -/
theorem Invariant.step (h : s.Invariant) {e : Event ρ χ ι} {os : List (Output ρ χ ι)}
    (hs : (machine ρ χ ι).Step s e os s') : s'.Invariant ∧ Effect s e s' (completions os) := by
  have herror : ∀ error, e ≠ .requestError error := by
    rintro error rfl
    cases hs.2
  obtain ⟨t, ps, hok, hlife, heffect⟩ := does_step h.lifecycle h.requests hs.1 herror
  obtain ⟨rfl, rfl⟩ := Prod.mk.inj (Except.ok.inj (hok.symm.trans hs.2))
  exact ⟨⟨hlife, heffect.requests h.requests,
    heffect.restored h.lifecycle hlife h.requests h.restored⟩, heffect⟩

theorem invariant_of_run {es : List (Event ρ χ ι)} {os : List (Output ρ χ ι)}
    (h : (machine ρ χ ι).Run init es os s) : s.Invariant :=
  h.invariant (fun _ _ _ _ hinv hs => (hinv.step hs).1) invariant_init

/-- **No assertion fails** in any run, whatever the network, the server and the client do; the only
exception is the one for an error that the server reports. -/
theorem machine_fails_iff {es : List (Event ρ χ ι)} {os : List (Output ρ χ ι)}
    (h : (machine ρ χ ι).Run init es os s) {e : Event ρ χ ι} (he : s.Enabled e)
    (assertion : Assertion) : s.step e = .error assertion ↔
      ∃ error, e = .requestError error ∧ assertion = .firebaseDatabaseServerError error := by
  constructor
  · intro hfails
    by_contra hnot
    have herror : ∀ error, e ≠ .requestError error := by
      rintro error rfl
      exact hnot ⟨error, rfl, (Except.error.inj hfails).symm⟩
    have hinv := invariant_of_run h
    obtain ⟨s', ps, hok, -⟩ := does_step hinv.lifecycle hinv.requests he herror
    cases hok.symm.trans hfails
  · rintro ⟨error, rfl, rfl⟩
    rfl

theorem machine_fails_sample : ∃ os s,
    (machine String String String).Run init heldAndLost os s ∧
    ∀ assertion, s.step .connectionLost = .error assertion ↔
      ∃ error, Event.connectionLost = (.requestError error : Event String String String) ∧
        assertion = .firebaseDatabaseServerError error := by
  obtain ⟨os, s, hr, he⟩ := Machine.Run.exists_of_exec (M := machine String String String)
    (s := init) (l := heldAndLost) (Q := fun s _ => s.Enabled .connectionLost) (by decide +kernel)
    (by decide +kernel)
  exact ⟨os, s, hr, machine_fails_iff hr he⟩

/-- **No put is lost and none completes twice**: the puts that were made are those that completed
and those that wait. -/
theorem puts_accounted {es : List (Event ρ χ ι)} {os : List (Output ρ χ ι)}
    (h : (machine ρ χ ι).Run init es os s) : (completed os ++ s.waiting).Perm (blocks es) := by
  refine h.history (P := fun es os s => (completed os ++ s.waiting).Perm (blocks es)) (.refl _) ?_
  intro es os t e ps t' hrun ih hs
  have hstep := ((invariant_of_run hrun).step hs).2.accounts
  rw [completed_append, blocks_snoc, List.append_assoc]
  refine (hstep.append_left _).trans ?_
  rw [← List.append_assoc]
  exact ih.append_right _

theorem puts_accounted_sample : ∃ os s,
    (machine String String String).Run init resent os s ∧ completed os = ["t"] ∧
    s.waiting = ["a", "b"] ∧ (completed os ++ s.waiting).Perm ["a", "t", "b"] := by
  obtain ⟨os, s, hr, hdone, hwaiting⟩ := Machine.Run.exists_of_exec
    (M := machine String String String) (s := init) (l := resent)
    (Q := fun s os => completed os = ["t"] ∧ s.waiting = ["a", "b"]) (by decide +kernel)
    (by decide +kernel)
  exact ⟨os, s, hr, hdone, hwaiting, puts_accounted hr⟩

/-- **Every outstanding put has been sent** on a connection whose state is restored, and every
listen without an answer is counted. -/
theorem outstanding_sent {es : List (Event ρ χ ι)} {os : List (Output ρ χ ι)}
    (h : (machine ρ χ ι).Run init es os s) (hstate : s.connectionState = .connected)
    (hrestored : .auth true ∉ s.callbacks) :
    (∀ e ∈ s.outstandingPuts, .put e.1 ∈ s.callbacks) ∧
      s.unackedListensCount = s.callbacks.countP isListen := by
  have hinv := invariant_of_run h
  refine ⟨fun e he => ?_, hinv.requests.unacked⟩
  exact (hinv.restored.connected hstate).resolve_left hrestored e.1 (List.mem_map_of_mem he)

theorem outstanding_sent_sample : ∃ os s,
    (machine String String String).Run init resent os s ∧ s.outstandingPuts.length = 1 ∧
    s.unackedListensCount = 1 ∧ (∀ e ∈ s.outstandingPuts, .put e.1 ∈ s.callbacks) ∧
      s.unackedListensCount = s.callbacks.countP isListen := by
  obtain ⟨os, s, hr, hstate, hauth, hputs, hlistens⟩ := Machine.Run.exists_of_exec
    (M := machine String String String) (s := init) (l := resent)
    (Q := fun s _ => s.connectionState = .connected ∧ .auth true ∉ s.callbacks ∧
      s.outstandingPuts.length = 1 ∧ s.unackedListensCount = 1) (by decide +kernel)
    (by decide +kernel)
  exact ⟨os, s, hr, hputs, hlistens, outstanding_sent hr hstate hauth⟩

end runs

/-! ### Answers in the order of the requests -/

/-- The puts whose answers are awaited, in the order of the requests. -/
def putIndices (cbs : List (RequestCallback ι)) : List ℕ :=
  cbs.filterMap fun
    | .put i => some i
    | _ => none

@[simp] theorem putIndices_append (cbs cbs' : List (RequestCallback ι)) :
    putIndices (cbs ++ cbs') = putIndices cbs ++ putIndices cbs' := List.filterMap_append

@[simp] theorem putIndices_put_cons (i : ℕ) (cbs : List (RequestCallback ι)) :
    putIndices (.put i :: cbs) = i :: putIndices cbs := rfl

theorem putIndices_of_plain {cbs : List (RequestCallback ι)} (h : ∀ c ∈ cbs, Plain c) :
    putIndices cbs = [] := by
  refine List.filterMap_eq_nil_iff.mpr fun c hc => ?_
  cases c with
  | put i => exact absurd rfl ((h _ hc).2 i)
  | _ => rfl

theorem putIndices_puts (keys : List ℕ) :
    putIndices (keys.map (RequestCallback.put : ℕ → RequestCallback ι)) = keys := by
  simp [putIndices, List.filterMap_map]

theorem mem_putIndices {cbs : List (RequestCallback ι)} {i : ℕ} :
    i ∈ putIndices cbs ↔ .put i ∈ cbs := by
  rw [putIndices, List.mem_filterMap]
  constructor
  · rintro ⟨c, hc, hi⟩
    cases c with
    | put j =>
        obtain rfl : j = i := by simpa using hi
        exact hc
    | _ => cases hi
  · exact fun h => ⟨_, h, rfl⟩

def isPut : RequestCallback ι → Bool
  | .put _ => true
  | _ => false

/-- The server answers in the order of the requests, puts belong to no transaction, and nothing is
held back when a put completes at once. -/
def AnswersInOrder (s : FPersistentConnection ρ χ ι) : Event ρ χ ι → Prop
  | .response rn _ _ => ∀ e ∈ s.requestCBHash.head?,
      e.1 = rn ∧ (isPut e.2 = true → s.unackedListensCount = 0 → s.putsToAck = [])
  | .putData _ hash _ => hash = none
  | _ => True

/-- The answers to the outstanding puts will arrive in the order of the puts. -/
structure Pipelined (s : FPersistentConnection ρ χ ι) : Prop where
  plain : ∀ e ∈ s.outstandingPuts, e.2.hash = none
  authenticating : s.connectionState = .authenticating → ∃ before after,
    s.callbacks = before ++ .auth true :: after ∧ (∀ c ∈ before, c = .stats) ∧ ∀ c ∈ after, Plain c
  connected : s.connectionState = .connected → .auth true ∉ s.callbacks ∧
    (putIndices s.callbacks).filter (· ∈ s.outstandingPuts.map Prod.fst) =
      s.outstandingPuts.map Prod.fst

theorem Sends.plain {cbs : List (RequestCallback ι)} (h : Sends s s' cbs)
    (hs : ∀ e ∈ s.outstandingPuts, e.2.hash = none) : ∀ e ∈ s'.outstandingPuts, e.2.hash = none := by
  have hhash : s'.outstandingPuts.map (·.2.hash) = s.outstandingPuts.map (·.2.hash) := by
    simpa [tag, Function.comp_def] using congrArg (List.map fun t => t.2.1) h.puts
  have hall : ∀ o ∈ s.outstandingPuts.map (·.2.hash), o = none := List.forall_mem_map.mpr hs
  exact List.forall_mem_map.mp (hhash ▸ hall)

/-- In order, the answered request is the first one. -/
theorem pre_eq_nil {rn : ℕ} {status : String} {data : Option String} {c : RequestCallback ι}
    {pre post : List (ℕ × RequestCallback ι)} (hq : s.Requests)
    (hash : s.requestCBHash = pre ++ (rn, c) :: post)
    (horder : s.AnswersInOrder (.response rn status data)) : pre = [] := by
  cases pre with
  | nil => rfl
  | cons e pre =>
      have hhead := (horder e (by simp [hash])).1
      have hasc := hq.ascending
      rw [hash] at hasc
      have hlt := (List.pairwise_cons.mp hasc).1 (rn, c) (by simp)
      exact absurd hhead (Nat.ne_of_lt hlt)

/-- The first request is answered. -/
theorem Pipelined.tail (h : s.Pipelined) {c : RequestCallback ι} {cbs : List (RequestCallback ι)}
    (hc : s.callbacks = c :: cbs) (hne : c ≠ .auth true)
    (hstate : s'.connectionState = s.connectionState) (hcbs : s'.callbacks = cbs)
    (hplain : ∀ e ∈ s'.outstandingPuts, e.2.hash = none)
    (hkeys : (putIndices (c :: cbs)).filter (· ∈ s.outstandingPuts.map Prod.fst) =
        s.outstandingPuts.map Prod.fst →
      (putIndices cbs).filter (· ∈ s'.outstandingPuts.map Prod.fst) =
        s'.outstandingPuts.map Prod.fst) : s'.Pipelined := by
  refine ⟨hplain, fun ha => ?_, fun hcon => ?_⟩
  · obtain ⟨before, after, hsplit, hstats, hafter⟩ := h.authenticating (hstate.symm.trans ha)
    rw [hc] at hsplit
    cases before with
    | nil => exact absurd (List.cons.inj hsplit).1 hne
    | cons d before =>
        exact ⟨before, after, hcbs.trans (List.cons.inj hsplit).2,
          fun d hd => hstats d (List.mem_cons_of_mem _ hd), hafter⟩
  · obtain ⟨hauth, hindices⟩ := h.connected (hstate.symm.trans hcon)
    rw [hc] at hauth hindices
    rw [hcbs]
    exact ⟨fun hmem => hauth (List.mem_cons_of_mem _ hmem), hkeys hindices⟩

theorem Pipelined.state_of_head (h : s.Pipelined) (hl : s.Lifecycle)
    (hr : s.realtime = some .connected) {c : RequestCallback ι} {cbs : List (RequestCallback ι)}
    (hc : s.callbacks = c :: cbs) (hstats : c ≠ .stats) (hauth : c ≠ .auth true) :
    s.connectionState = .connected := by
  refine (state_of_ready hl hr).resolve_left fun ha => ?_
  obtain ⟨before, after, hsplit, hbefore, -⟩ := h.authenticating ha
  rw [hc] at hsplit
  cases before with
  | nil => exact hauth (List.cons.inj hsplit).1
  | cons d before => exact hstats ((List.cons.inj hsplit).1.trans (hbefore d List.mem_cons_self))

/-- In a pipeline the first answered put that is outstanding is the first outstanding one. -/
theorem Pipelined.first (h : s.Pipelined) (hl : s.Lifecycle) (hq : s.Requests) {index : ℕ}
    {cbs : List (RequestCallback ι)} (hc : s.callbacks = .put index :: cbs)
    (hr : s.realtime = some .connected) {before after : List (ℕ × FOutstandingPut ρ χ)}
    {put : FOutstandingPut ρ χ} (hputs : s.outstandingPuts = before ++ (index, put) :: after) :
    s.connectionState = .connected ∧ before = [] ∧
      (putIndices cbs).filter (· ∈ after.map Prod.fst) = after.map Prod.fst := by
  have hconnected := h.state_of_head hl hr hc nofun nofun
  have hindices := (h.connected hconnected).2
  have hmem : index ∈ s.outstandingPuts.map Prod.fst := by simp [hputs]
  rw [hc, putIndices_put_cons, List.filter_cons, if_pos (decide_eq_true hmem)] at hindices
  have hbefore : before = [] := by
    cases before with
    | nil => rfl
    | cons e before =>
        rw [hputs] at hindices
        have hasc := hq.puts
        rw [hputs] at hasc
        have hlt := (List.pairwise_cons.mp hasc).1 (index, put) (by simp)
        exact absurd (List.cons.inj hindices).1 (Nat.ne_of_gt hlt)
  subst hbefore
  refine ⟨hconnected, rfl, ?_⟩
  have hkeys : s.outstandingPuts.map Prod.fst = index :: after.map Prod.fst := by simp [hputs]
  rw [hkeys] at hindices
  have hrest := (List.cons.inj hindices).2
  have hsub : (fun i => decide (i ∈ after.map Prod.fst)) = fun i =>
      decide (i ∈ after.map Prod.fst) && decide (i ∈ index :: after.map Prod.fst) := by
    funext i
    by_cases hi : i ∈ after.map Prod.fst
    · simp [hi]
    · simp [hi]
  calc (putIndices cbs).filter (fun i => decide (i ∈ after.map Prod.fst))
      = ((putIndices cbs).filter (fun i => decide (i ∈ index :: after.map Prod.fst))).filter
          fun i => decide (i ∈ after.map Prod.fst) := by rw [List.filter_filter, ← hsub]
    _ = (after.map Prod.fst).filter fun i => decide (i ∈ after.map Prod.fst) := by rw [hrest]
    _ = after.map Prod.fst := List.filter_eq_self.mpr fun i hi => decide_eq_true hi

/-! ### What each effect does to the pipeline -/

namespace Pipelined

theorem idle (hp : s.Pipelined) (hqueue : s'.queue = s.queue)
    (hstate : s'.realtime = some .connected → s'.connectionState = s.connectionState)
    (h' : s'.Lifecycle) : s'.Pipelined := by
  have hsame : s'.connectionState = .authenticating ∨ s'.connectionState = .connected →
      s'.connectionState = s.connectionState := fun hs' => hstate (ready_of_state h' hs')
  simp only [queue, Prod.mk.injEq] at hqueue
  obtain ⟨hhash, -, hputs, -⟩ := hqueue
  refine ⟨hputs ▸ hp.plain, fun ha => ?_, fun hc => ?_⟩
  · rw [callbacks, hhash]
    exact hp.authenticating ((hsame (.inl ha)).symm.trans ha)
  · rw [callbacks, hhash, hputs]
    exact hp.connected ((hsame (.inr hc)).symm.trans hc)

/-- No put is cancelled by a disconnect. -/
theorem outstandingPuts_of_closes (hp : s.Pipelined) (hc : Closes s s') :
    s'.outstandingPuts = s.outstandingPuts ∧ s.cancelled = [] := by
  have hnone : ∀ e ∈ s.outstandingPuts, isSentTransaction e.2 = false := fun e he => by
    simp [isSentTransaction, hp.plain e he]
  refine ⟨hc.puts.trans (List.filter_eq_self.mpr fun e he => by simp [hnone e he]), ?_⟩
  rw [cancelled, List.filter_eq_nil_iff.mpr fun e he => by simp [hnone e he]]
  rfl

theorem closes (hp : s.Pipelined) (hc : Closes s s') : s'.Pipelined :=
  ⟨(hp.outstandingPuts_of_closes hc).1 ▸ hp.plain,
    fun ha => (by cases hc.connectionState.symm.trans ha),
    fun hcon => (by cases hc.connectionState.symm.trans hcon)⟩

theorem sends (hp : s.Pipelined) {cbs : List (RequestCallback ι)} (hs : Sends s s' cbs)
    (hcbs : ∀ c ∈ cbs, Plain c) : s'.Pipelined := by
  have hstate := hs.connectionState.symm
  refine ⟨hs.plain hp.plain, fun ha => ?_, fun hc => ?_⟩
  · obtain ⟨before, after, hsplit, hstats, hafter⟩ := hp.authenticating (hstate.trans ha)
    refine ⟨before, after ++ _, ?_, hstats, List.forall_mem_append.mpr ⟨hafter, hcbs⟩⟩
    rw [hs.callbacks, hsplit, List.append_assoc, List.cons_append]
  · obtain ⟨hauth, hindices⟩ := hp.connected (hstate.trans hc)
    rw [hs.callbacks, hs.keys, putIndices_append, putIndices_of_plain hcbs, List.append_nil]
    exact ⟨fun hmem => (List.mem_append.mp hmem).elim hauth fun hmem => absurd rfl (hcbs _ hmem).1,
      hindices⟩

/-- The credential is sent first on a new connection. -/
theorem authenticates (hp : s.Pipelined) (hnil : s.callbacks = []) {cbs : List (RequestCallback ι)}
    (hcbs : ∀ c ∈ cbs, c = .stats)
    (hs : Sends { s with realtime := some .connected, connectionState := .authenticating } s'
      (cbs ++ [.auth true])) : s'.Pipelined := by
  refine ⟨hs.plain hp.plain, fun _ => ⟨_, [], ?_, hcbs, by simp⟩,
    fun hc => (by cases hs.connectionState.symm.trans hc)⟩
  have hcallbacks := hs.callbacks
  change s'.callbacks = s.callbacks ++ _ at hcallbacks
  rw [hcallbacks, hnil, List.nil_append]

/-- A restored state: all outstanding puts are sent, in their order and last. -/
theorem restores {t : FPersistentConnection ρ χ ι} {cbs : List (RequestCallback ι)}
    (hs : Sends t s' (cbs ++ (t.outstandingPuts.map Prod.fst).map .put))
    (hplain : ∀ e ∈ t.outstandingPuts, e.2.hash = none) (hstate : t.connectionState = .connected)
    (hcallbacks : ∀ c ∈ t.callbacks, Plain c) (hcbs : ∀ c ∈ cbs, Plain c) : s'.Pipelined := by
  have hall : ∀ c ∈ t.callbacks ++ cbs, Plain c := List.forall_mem_append.mpr ⟨hcallbacks, hcbs⟩
  have hconnected := hs.connectionState.trans hstate
  refine ⟨hs.plain hplain, fun ha => (by cases hconnected.symm.trans ha), fun _ => ?_⟩
  rw [hs.callbacks, ← List.append_assoc, hs.keys, putIndices_append, putIndices_of_plain hall,
    putIndices_puts, List.nil_append]
  refine ⟨fun hmem => ?_, List.filter_eq_self.mpr fun i hi => decide_eq_true hi⟩
  rcases List.mem_append.mp hmem with hmem | hmem
  · exact absurd rfl (hall _ hmem).1
  · simp at hmem

theorem plain_concat (hp : s.Pipelined) {put : FOutstandingPut ρ χ} (hput : put.hash = none) :
    ∀ e ∈ s.outstandingPuts ++ [(s.putCounter, put)], e.2.hash = none :=
  List.forall_mem_append.mpr ⟨hp.plain, List.forall_mem_singleton.mpr hput⟩

/-- A put is sent last. -/
theorem sendsPut (hp : s.Pipelined) (hq : s.Requests) {put : FOutstandingPut ρ χ}
    (hs : Sends { s with
      putCounter := s.putCounter + 1
      outstandingPuts := s.outstandingPuts ++ [(s.putCounter, put)] } s' [.put s.putCounter])
    (hput : put.hash = none) (hstate : s.connectionState = .connected) : s'.Pipelined := by
  have hstate' := hs.connectionState.trans hstate
  have hcallbacks := hs.callbacks
  change s'.callbacks = s.callbacks ++ _ at hcallbacks
  refine ⟨hs.plain (hp.plain_concat hput), fun ha => (by cases hstate'.symm.trans ha), fun _ => ?_⟩
  obtain ⟨hauth, hindices⟩ := hp.connected hstate
  -- the requests on their way are about earlier puts
  have hearlier : ∀ i ∈ putIndices s.callbacks,
      decide (i ∈ s.outstandingPuts.map Prod.fst ++ [s.putCounter]) =
        decide (i ∈ s.outstandingPuts.map Prod.fst) := fun i hi => by
    have hne := Nat.ne_of_lt (hq.indices i (mem_putIndices.mp hi))
    simp [hne]
  have hsingle : putIndices [RequestCallback.put s.putCounter] = [s.putCounter] :=
    putIndices_puts (ι := ι) [s.putCounter]
  rw [hcallbacks, hs.keys, putIndices_append, hsingle, List.map_append, List.map_singleton,
    List.filter_append, List.filter_congr hearlier, hindices]
  refine ⟨fun hmem => (List.mem_append.mp hmem).elim hauth (by simp), ?_⟩
  simp

theorem purges (hp : s.Pipelined) : ({ s with
    putsToAck := []
    outstandingPuts := [] } : FPersistentConnection ρ χ ι).Pipelined :=
  ⟨by simp, hp.authenticating, fun hc =>
    ⟨(hp.connected hc).1, List.filter_eq_nil_iff.mpr fun i _ => by simp⟩⟩

/-- Behind an authentication that restores the state nothing else is awaited. -/
theorem plain_of_restore (hp : s.Pipelined) (hl : s.Lifecycle) (hr : s.realtime = some .connected)
    {cbs : List (RequestCallback ι)} (hc : s.callbacks = .auth true :: cbs) : ∀ c ∈ cbs, Plain c := by
  have ha : s.connectionState = .authenticating :=
    (state_of_ready hl hr).resolve_right fun hcon => (hp.connected hcon).1 (by simp [hc])
  obtain ⟨before, after, hsplit, hstats, hafter⟩ := hp.authenticating ha
  rw [hc] at hsplit
  cases before with
  | nil => exact (List.cons.inj hsplit).2 ▸ hafter
  | cons d before => cases (List.cons.inj hsplit).1.trans (hstats d List.mem_cons_self)

/-- The first outstanding put is answered. -/
theorem answersPut (hp : s.Pipelined) (h : s.Invariant) {rn index : ℕ}
    {post : List (ℕ × RequestCallback ι)} {after : List (ℕ × FOutstandingPut ρ χ)}
    {put : FOutstandingPut ρ χ} (hash : s.requestCBHash = (rn, .put index) :: post)
    (hputs : s.outstandingPuts = (index, put) :: after)
    (hstate : s'.connectionState = s.connectionState) (hhash : s'.requestCBHash = post)
    (hafter : s'.outstandingPuts = after) : s'.Pipelined := by
  have hash' : s.requestCBHash = [] ++ (rn, .put index) :: post := hash
  have hputs' : s.outstandingPuts = [] ++ (index, put) :: after := hputs
  have hcallbacks : s.callbacks = .put index :: post.map Prod.snd := callbacks_eq hash'
  obtain ⟨-, -, hfirst⟩ := hp.first h.lifecycle h.requests hcallbacks (h.requests.ready hash') hputs'
  refine hp.tail hcallbacks (by simp) hstate (by rw [callbacks, hhash]) ?_ fun _ => ?_
  · exact fun e he => hp.plain e (by rw [hputs]; exact List.mem_cons_of_mem _ (hafter ▸ he))
  · rw [hafter]
    exact hfirst

end Pipelined

/-- **In order, the completed puts are the first ones that wait.** -/
theorem Effect.ordered {e : Event ρ χ ι} {done : List (χ × String)} (he : Effect s e s' done)
    (h : s.Invariant) (h' : s'.Lifecycle) (hp : s.Pipelined) (horder : s.AnswersInOrder e) :
    s'.Pipelined ∧ done.map Prod.fst ++ s'.waiting = s.waiting ++ e.blocks := by
  have hq := h.requests
  have hclosed : s.realtime = some .connecting → s.callbacks = [] := fun hr => by
    rw [callbacks, hq.closed (by rw [hr]; simp)]
    rfl
  cases he with
  | idle hqueue hready hstate he =>
      refine ⟨hp.idle hqueue hstate h', ?_⟩
      simp only [queue, Prod.mk.injEq] at hqueue
      rw [he, List.append_nil, waiting, waiting, hqueue.2.2.1, hqueue.2.2.2.2.1, List.map_nil,
        List.nil_append]
  | closes hc he =>
      obtain ⟨hputs, hcancelled⟩ := hp.outstandingPuts_of_closes hc
      refine ⟨hp.closes hc, ?_⟩
      rw [hcancelled, he, List.append_nil, waiting, waiting, hputs, hc.putsToAck, List.map_nil,
        List.nil_append]
  | sends hr hs hcbs he =>
      refine ⟨hp.sends hs hcbs, ?_⟩
      rw [he, List.append_nil, hs.waiting, List.map_nil, List.nil_append]
  | authenticates hr hcbs hs =>
      refine ⟨hp.authenticates (hclosed hr) hcbs hs, ?_⟩
      rw [hs.waiting]
      simp [waiting, Event.blocks]
  | opens hr hcbs hs =>
      have hnone : ∀ c ∈ s.callbacks, Plain c := by simp [hclosed hr]
      refine ⟨Pipelined.restores hs hp.plain rfl hnone hcbs, ?_⟩
      rw [hs.waiting]
      simp [waiting, Event.blocks]
  | keeps hstate hs =>
      subst hs
      refine ⟨⟨hp.plain_concat horder, hp.authenticating, fun hc => absurd hc hstate⟩, ?_⟩
      simp [waiting, Event.blocks]
  | sendsPut hstate hr hs =>
      refine ⟨hp.sendsPut hq hs horder hstate, ?_⟩
      rw [hs.waiting]
      simp [waiting, Event.blocks]
  | purges => exact ⟨hp.purges, by simp [waiting, Event.blocks, Function.comp_def]⟩
  | @answersOther rn status data pre post c hash hc =>
      obtain rfl := pre_eq_nil hq hash horder
      refine ⟨hp.tail (callbacks_eq hash) ?_ rfl rfl hp.plain fun hkeys => ?_, ?_⟩
      · rcases hc with rfl | ⟨i, rfl, -⟩ <;> simp
      · rcases hc with rfl | ⟨i, rfl, hi⟩
        · exact hkeys
        · rwa [putIndices_put_cons, List.filter_cons, if_neg (mt of_decide_eq_true hi)] at hkeys
      · simp [waiting, Event.blocks]
  | answersAuth hash =>
      obtain rfl := pre_eq_nil hq hash horder
      have hcallbacks := callbacks_eq hash
      have hstate := hp.state_of_head h.lifecycle (hq.ready hash) hcallbacks (by simp) (by simp)
      refine ⟨hp.tail hcallbacks (by simp) hstate.symm rfl hp.plain id, ?_⟩
      simp [waiting, Event.blocks]
  | answersRestore hash hcbs hs =>
      obtain rfl := pre_eq_nil hq hash horder
      have hpost := hp.plain_of_restore h.lifecycle (hq.ready hash) (callbacks_eq hash)
      refine ⟨Pipelined.restores hs hp.plain rfl hpost hcbs, ?_⟩
      rw [hs.waiting]
      simp [waiting, Event.blocks]
  | answersPut hash hputs hlisten =>
      obtain rfl := pre_eq_nil hq hash horder
      have hack : s.putsToAck = [] := (horder _ (by rw [hash]; rfl)).2 rfl hlisten
      obtain ⟨-, rfl, -⟩ := hp.first h.lifecycle hq (callbacks_eq hash) (hq.ready hash) hputs
      exact ⟨hp.answersPut h hash hputs rfl rfl rfl, by simp [waiting, Event.blocks, hputs, hack]⟩
  | holdsPut hash hputs =>
      obtain rfl := pre_eq_nil hq hash horder
      obtain ⟨-, rfl, -⟩ := hp.first h.lifecycle hq (callbacks_eq hash) (hq.ready hash) hputs
      exact ⟨hp.answersPut h hash hputs rfl rfl rfl, by simp [waiting, Event.blocks, hputs]⟩
  | answersListen hash =>
      obtain rfl := pre_eq_nil hq hash horder
      exact ⟨hp.tail (callbacks_eq hash) (by simp) rfl rfl hp.plain id, by simp [waiting, Event.blocks]⟩
  | flushes hash =>
      obtain rfl := pre_eq_nil hq hash horder
      exact ⟨hp.tail (callbacks_eq hash) (by simp) rfl rfl hp.plain id, by simp [waiting, Event.blocks]⟩

theorem pipelined_init : (init : FPersistentConnection ρ χ ι).Pipelined := ⟨nofun, nofun, nofun⟩

instance (s : FPersistentConnection ρ χ ι) (e : Event ρ χ ι) : Decidable (s.AnswersInOrder e) :=
  match e with
  | .response rn _ _ => inferInstanceAs (Decidable (∀ e ∈ s.requestCBHash.head?,
      e.1 = rn ∧ (isPut e.2 = true → s.unackedListensCount = 0 → s.putsToAck = [])))
  | .putData _ hash _ => inferInstanceAs (Decidable (hash = none))
  | .interrupt _ | .resume _ | .enteringForeground | .retry | .token _ _ | .handshake
  | .connectionLost | .shutdown | .requestError _ | .authRevoked | .listenRevoked _
  | .refreshAuthToken _
  | .listen _ | .unlisten _ | .purgeOutstandingWrites => instDecidableTrue

section order
variable [DecidableEq ι]

variable (ρ χ ι) in
/-- Connections to a server that answers in order. -/
def inOrder : Machine (FPersistentConnection ρ χ ι) (Event ρ χ ι) (Output ρ χ ι) Assertion :=
  (machine ρ χ ι).restrict AnswersInOrder

instance (s : FPersistentConnection ρ χ ι) (e : Event ρ χ ι) :
    Decidable ((inOrder ρ χ ι).enabled s e) :=
  inferInstanceAs (Decidable (s.Enabled e ∧ s.AnswersInOrder e))

/-- **One step in order** completes the first of the waiting puts. -/
theorem Pipelined.step (h : s.Invariant) (hp : s.Pipelined) {e : Event ρ χ ι}
    {os : List (Output ρ χ ι)} (hs : (inOrder ρ χ ι).Step s e os s') :
    s'.Invariant ∧ s'.Pipelined ∧ completed os ++ s'.waiting = s.waiting ++ e.blocks := by
  obtain ⟨hs, horder⟩ := Machine.restrict_step.mp hs
  obtain ⟨h', heffect⟩ := h.step hs
  exact ⟨h', heffect.ordered h h'.lifecycle hp horder⟩

/-- **Puts complete in the order in which they were made**, through any number of disconnects, when
the server answers in order and no completion is held back while a put completes at once. -/
theorem puts_ordered {es : List (Event ρ χ ι)} {os : List (Output ρ χ ι)}
    (h : (inOrder ρ χ ι).Run init es os s) : completed os ++ s.waiting = blocks es := by
  suffices hall : s.Invariant ∧ s.Pipelined ∧ completed os ++ s.waiting = blocks es from hall.2.2
  refine h.history (P := fun es os s => s.Invariant ∧ s.Pipelined ∧
    completed os ++ s.waiting = blocks es) ⟨invariant_init, pipelined_init, rfl⟩ ?_
  rintro es os t e ps t' - ⟨hinv, hp, ih⟩ hs
  obtain ⟨hinv', hp', hstep⟩ := Pipelined.step hinv hp hs
  refine ⟨hinv', hp', ?_⟩
  rw [completed_append, blocks_snoc, List.append_assoc, hstep, ← List.append_assoc, ih]

end order

theorem puts_ordered_sample : ∃ os s, (inOrder String String String).Run init heldAndLost os s ∧
    completed os ++ s.waiting = ["a", "b"] := by
  obtain ⟨os, s, hr, -⟩ := Machine.Run.exists_of_exec (M := inOrder String String String)
    (s := init) (l := heldAndLost) (Q := fun _ _ => True) (by decide +kernel) (by decide +kernel)
  exact ⟨os, s, hr, puts_ordered hr⟩

/-- Without a listen to wait for, the put that was held back is overtaken. -/
example : ((machine String String String).exec init (held ++ [.connectionLost, .unlisten "/q",
    .putData "/b" none "b", .retry, .token 2 (some none), .handshake, .response 4 "ok" none])).map
      (fun r => (completed r.2, r.1.waiting)) = .ok (["b"], ["a"]) := rfl

end FPersistentConnection
end ZipR
