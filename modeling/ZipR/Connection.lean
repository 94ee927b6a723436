import Mathlib.Data.List.Sort
import ZipR.Machine

/-! # The connection to the database server

`FPersistentConnection`: it opens a connection, opens it again whenever it is lost, and keeps the
listens and the writes ("puts") of the client until the server has answered them.

* **Requests.** Each gets a number; its callback waits in `requestCBHash` for the answer.
* **Puts.** A put stays in `outstandingPuts` until it is answered and is sent again on every new
  connection.  Its completion is held back in `putsToAck` while a listen has no answer.
* **Lifecycle.** A retry fetches a token, then a connection is opened and authenticated, and then
  `restoreState` sends all listens and puts.  Interrupts close the connection.

Dictionaries are lists of their entries, and counters are natural numbers: the source's `int`
request numbers and `unsigned long` put counter do not wrap in the runs that are modelled.
`Assertion` says which assertion or exception stops the program.  Delays, statistics and actions for
the server to run on a disconnect are not modelled. -/

namespace ZipR

open Reactive

/-! ### Dictionaries -/

namespace NSMutableDictionary

variable {κ β : Type} [DecidableEq κ]

def objectForKey (k : κ) (d : List (κ × β)) : Option β := d.lookup k

def removeObjectForKey (k : κ) (d : List (κ × β)) : List (κ × β) := d.filter fun e => e.1 ≠ k

def setObject (v : β) (k : κ) (d : List (κ × β)) : List (κ × β) :=
  removeObjectForKey k d ++ [(k, v)]

end NSMutableDictionary

open NSMutableDictionary

/-! ### State -/

inductive ConnectionState where
  | disconnected
  | gettingToken
  | connecting
  | authenticating
  | connected
  deriving DecidableEq

/-- The states of an `FConnection` that is not closed. -/
inductive FConnectionState where
  | connecting
  | connected
  deriving DecidableEq

inductive InterruptReason where
  | serverKill
  | waitingForOpen
  | repoInterrupt
  deriving DecidableEq

def kFWPResponseForActionStatusOk : String := "ok"
def kFTransactionDisconnect : String := "disconnect"
def kFErrorWriteCanceled : String := "write_canceled"

structure FOutstandingPut (ρ χ : Type) where
  request : ρ
  hash : Option String
  onCompleteBlock : χ
  sent : Bool

def FOutstandingPut.markSent {ρ χ : Type} (put : FOutstandingPut ρ χ) : FOutstandingPut ρ χ :=
  { put with sent := true }

/-- Two listens of one query are different objects. -/
structure FOutstandingQuery (ι : Type) where
  query : ι
  object : ℕ
  deriving DecidableEq

structure FTupleCallbackStatus (χ : Type) where
  block : χ
  status : String
  errorReason : Option String

inductive RequestCallback (ι : Type) where
  | auth (restoreStateAfterComplete : Bool)
  | put (index : ℕ)
  | listen (listenSpec : FOutstandingQuery ι)
  | stats
  deriving DecidableEq

inductive Request (ρ ι : Type) where
  | auth (credential : String)
  | unauth
  | put (request : ρ) (hash : Option String)
  | listen (query : ι)
  | unlisten (query : ι)
  | stats

inductive Assertion where
  | notInDisconnectedState
  | wrongStateToOpen
  | expectedDisconnected
  | notConnected
  | noCredential
  | wrongStateToRestoreAuth
  | notConnectedToRestore
  | cannotSendWrites
  | noSuchPut
  | listenedTwice
  | negativeUnackedListens
  | unconnectedFConnection
  | firebaseDatabaseServerError (reason : String)

/-- Puts carry a request `ρ` and a completion block `χ`; `ι` is the type of queries. -/
structure FPersistentConnection (ρ χ ι : Type) where
  connectionState : ConnectionState
  firstConnection : Bool
  realtime : Option FConnectionState
  listens : List (ι × FOutstandingQuery ι)
  outstandingPuts : List (ℕ × FOutstandingPut ρ χ)
  putCounter : ℕ
  requestNumber : ℕ
  requestCBHash : List (ℕ × RequestCallback ι)
  unackedListensCount : ℕ
  putsToAck : List (FTupleCallbackStatus χ)
  interruptReasons : List InterruptReason
  /-- The retry that is scheduled, and whether it forces a fresh token. -/
  scheduledRetry : Option Bool
  authToken : Option String
  forceAuthTokenRefresh : Bool
  currentFetchTokenAttempt : ℕ
  /-- The attempts whose token has not arrived. -/
  fetches : List ℕ
  /-- The number of listens so far. -/
  objects : ℕ

namespace FPersistentConnection

variable {ρ χ ι : Type}

inductive Output (ρ χ ι : Type) where
  | sendRequest (rn : ℕ) (request : Request ρ ι)
  | fetchToken (forceRefresh : Bool) (attempt : ℕ)
  | onComplete (block : χ) (status : String) (errorReason : Option String)
  | listenComplete (query : ι) (status : String)
  | onConnect
  | onDisconnect

inductive Event (ρ χ ι : Type) where
  | interrupt (reason : InterruptReason)
  | resume (reason : InterruptReason)
  /-- The network became reachable, or the app enters the foreground. -/
  | enteringForeground
  | retry
  /-- The token of an attempt, or none when there was an error. -/
  | token (attempt : ℕ) (token : Option (Option String))
  | handshake
  | connectionLost
  | shutdown
  | response (rn : ℕ) (status : String) (data : Option String)
  /-- A message of the server that is an error. -/
  | requestError (error : String)
  | authRevoked
  | listenRevoked (atPath : ι → Bool)
  | refreshAuthToken (token : Option String)
  | listen (query : ι)
  | unlisten (query : ι)
  | putData (request : ρ) (hash : Option String) (block : χ)
  | purgeOutstandingWrites

/-- After `initWithRepoInfo`, which interrupts the connection until it is opened. -/
def init : FPersistentConnection ρ χ ι where
  connectionState := .disconnected
  firstConnection := true
  realtime := none
  listens := []
  outstandingPuts := []
  putCounter := 1
  requestNumber := 1
  requestCBHash := []
  unackedListensCount := 0
  putsToAck := []
  interruptReasons := [.waitingForOpen]
  scheduledRetry := none
  authToken := none
  forceAuthTokenRefresh := false
  currentFetchTokenAttempt := 0
  fetches := []
  objects := 0

/-- What a handler leaves behind: the next state and the outputs. -/
abbrev Outcome (ρ χ ι : Type) := FPersistentConnection ρ χ ι × List (Output ρ χ ι)

def forEach {α : Type} (f : α → FPersistentConnection ρ χ ι → Except Assertion (Outcome ρ χ ι)) :
    List α → FPersistentConnection ρ χ ι → Except Assertion (Outcome ρ χ ι)
  | [], self => .ok (self, [])
  | a :: as, self => do
      let (self, o) ← f a self
      let (self, os) ← forEach f as self
      return (self, o ++ os)

def connected (self : FPersistentConnection ρ χ ι) : Bool :=
  self.connectionState = .authenticating || self.connectionState = .connected

def canSendWrites (self : FPersistentConnection ρ χ ι) : Bool := self.connectionState = .connected

def shouldReconnect (self : FPersistentConnection ρ χ ι) : Bool := self.interruptReasons.isEmpty

/-! ### Requests -/

/-- A message to no connection is lost; one to a connection that is not ready is an exception. -/
def sendAction (request : Request ρ ι) (callback : Option (RequestCallback ι))
    (self : FPersistentConnection ρ χ ι) : Except Assertion (Outcome ρ χ ι) := do
  let rn := self.requestNumber
  let self := { self with requestNumber := rn + 1 }
  let o ← match self.realtime with
    | none => Except.ok []
    | some .connecting => .error .unconnectedFConnection
    | some .connected => .ok [.sendRequest rn request]
  match callback with
  | some onMessage =>
      return ({ self with requestCBHash := setObject onMessage rn self.requestCBHash }, o)
  | none => return (self, o)

/-- The put with this index is marked as sent. -/
def setSent (index : ℕ) (puts : List (ℕ × FOutstandingPut ρ χ)) : List (ℕ × FOutstandingPut ρ χ) :=
  puts.map fun e => if e.1 = index then (e.1, e.2.markSent) else e

def sendPut (index : ℕ) (self : FPersistentConnection ρ χ ι) : Except Assertion (Outcome ρ χ ι) :=
  if self.canSendWrites then
    match objectForKey index self.outstandingPuts with
    | none => .error .noSuchPut
    | some put =>
        let self := { self with outstandingPuts := setSent index self.outstandingPuts }
        self.sendAction (.put put.request put.hash) (some (.put index))
  else .error .cannotSendWrites

def sendListen (listenSpec : FOutstandingQuery ι) (self : FPersistentConnection ρ χ ι) :
    Except Assertion (Outcome ρ χ ι) := do
  let (self, o) ← self.sendAction (.listen listenSpec.query) (some (.listen listenSpec))
  return ({ self with unackedListensCount := self.unackedListensCount + 1 }, o)

def sendAuthAndRestoreStateAfterComplete (restoreStateAfterComplete : Bool)
    (self : FPersistentConnection ρ χ ι) : Except Assertion (Outcome ρ χ ι) :=
  if self.connected then
    match self.authToken with
    | none => .error .noCredential
    | some credential => self.sendAction (.auth credential) (some (.auth restoreStateAfterComplete))
  else .error .notConnected

/-- The keys in the order of `compare:`. -/
def sortedKeys {β : Type} (d : List (ℕ × β)) : List ℕ := (d.map Prod.fst).insertionSort (· ≤ ·)

def restoreState (self : FPersistentConnection ρ χ ι) : Except Assertion (Outcome ρ χ ι) :=
  if self.connectionState = .connected then do
    let (self, os) ← forEach sendListen (self.listens.map Prod.snd) self
    let (self, ps) ← forEach sendPut (sortedKeys self.outstandingPuts) self
    return (self, os ++ ps)
  else .error .notConnectedToRestore

def restoreAuth (self : FPersistentConnection ρ χ ι) : Except Assertion (Outcome ρ χ ι) :=
  if self.connectionState = .connecting then
    match self.authToken with
    | none => { self with connectionState := .connected }.restoreState
    | some _ => { self with connectionState := .authenticating }.sendAuthAndRestoreStateAfterComplete true
  else .error .wrongStateToRestoreAuth

def ackPuts (self : FPersistentConnection ρ χ ι) : Outcome ρ χ ι :=
  ({ self with putsToAck := [] },
    self.putsToAck.map fun put => .onComplete put.block put.status put.errorReason)

/-! ### Opening and closing -/

def tryScheduleReconnect (self : FPersistentConnection ρ χ ι) :
    Except Assertion (FPersistentConnection ρ χ ι) :=
  if self.shouldReconnect then
    if self.connectionState = .disconnected then
      .ok { self with
        forceAuthTokenRefresh := false
        scheduledRetry := some self.forceAuthTokenRefresh }
    else .error .notInDisconnectedState
  else .ok self

/-- A put with a hash belongs to a transaction. -/
def isSentTransaction (put : FOutstandingPut ρ χ) : Bool := put.hash.isSome && put.sent

def cancelSentTransactions (self : FPersistentConnection ρ χ ι) : Outcome ρ χ ι :=
  ({ self with outstandingPuts := self.outstandingPuts.filter fun e => !isSentTransaction e.2 },
    (self.outstandingPuts.filter fun e => isSentTransaction e.2).map fun e =>
      .onComplete e.2.onCompleteBlock kFTransactionDisconnect
        (some "Client was disconnected while running a transaction"))

def onDisconnect (self : FPersistentConnection ρ χ ι) : Except Assertion (Outcome ρ χ ι) := do
  let self := { self with connectionState := .disconnected, realtime := none }
  let (self, cancelled) := self.cancelSentTransactions
  let self := { self with requestCBHash := [], unackedListensCount := 0 }
  let self ← (if self.shouldReconnect then self.tryScheduleReconnect else .ok self)
  return (self, cancelled ++ [.onDisconnect])

/-- Close the connection, which calls `onDisconnect`. -/
def close (self : FPersistentConnection ρ χ ι) : Except Assertion (Outcome ρ χ ι) :=
  match self.realtime with
  | some _ => self.onDisconnect
  | none => .ok (self, [])

def interruptForReason (reason : InterruptReason) (self : FPersistentConnection ρ χ ι) :
    Except Assertion (Outcome ρ χ ι) :=
  let self := { self with interruptReasons := self.interruptReasons.insert reason }
  match self.realtime with
  | some _ => do
      let (self, o) ← self.close
      return ({ self with realtime := none }, o)
  | none => .ok ({ self with scheduledRetry := none, connectionState := .disconnected }, [])

def resumeForReason (reason : InterruptReason) (self : FPersistentConnection ρ χ ι) :
    Except Assertion (Outcome ρ χ ι) := do
  let self := { self with interruptReasons := self.interruptReasons.filter (· ≠ reason) }
  if self.shouldReconnect && self.connectionState = .disconnected then
    return (← self.tryScheduleReconnect, [])
  else return (self, [])

def enteringForeground (self : FPersistentConnection ρ χ ι) : Except Assertion (Outcome ρ χ ι) := do
  if self.connectionState = .disconnected then return (← self.tryScheduleReconnect, [])
  else return (self, [])

/-- The block of a scheduled retry. -/
def retry (self : FPersistentConnection ρ χ ι) : Except Assertion (Outcome ρ χ ι) :=
  match self.scheduledRetry with
  | none => .ok (self, [])
  | some forceRefresh =>
      let self := { self with scheduledRetry := none }
      if self.connectionState = .disconnected then
        let thisFetchTokenAttempt := self.currentFetchTokenAttempt + 1
        .ok ({ self with
          connectionState := .gettingToken
          currentFetchTokenAttempt := thisFetchTokenAttempt
          fetches := self.fetches ++ [thisFetchTokenAttempt] },
          [.fetchToken forceRefresh thisFetchTokenAttempt])
      else .error .notInDisconnectedState

def openNetworkConnectionWithToken (token : Option String) (self : FPersistentConnection ρ χ ι) :
    Except Assertion (Outcome ρ χ ι) :=
  if self.connectionState = .gettingToken then
    .ok ({ self with authToken := token, connectionState := .connecting, realtime := some .connecting },
      [])
  else .error .wrongStateToOpen

/-- The block that gets the token of an attempt. -/
def fetchTokenCallback (thisFetchTokenAttempt : ℕ) (result : Option (Option String))
    (self : FPersistentConnection ρ χ ι) : Except Assertion (Outcome ρ χ ι) :=
  let self := { self with fetches := self.fetches.erase thisFetchTokenAttempt }
  if thisFetchTokenAttempt = self.currentFetchTokenAttempt then
    match result with
    | none => do return (← { self with connectionState := .disconnected }.tryScheduleReconnect, [])
    | some token =>
        if self.connectionState = .gettingToken then self.openNetworkConnectionWithToken token
        else if self.connectionState = .disconnected then .ok (self, [])
        else .error .expectedDisconnected
  else .ok (self, [])

/-- The handshake of the server makes the connection ready. -/
def onReady (self : FPersistentConnection ρ χ ι) : Except Assertion (Outcome ρ χ ι) := do
  let self := { self with realtime := some .connected }
  let (self, os) ← (if self.firstConnection then self.sendAction .stats (some .stats)
    else .ok (self, []))
  let (self, ps) ← self.restoreAuth
  return ({ self with firstConnection := false }, os ++ ps ++ [.onConnect])

/-! ### Answers -/

/-- The block for the answer to an authentication. -/
def authCallback (restoreStateAfterComplete : Bool) (status : String)
    (self : FPersistentConnection ρ χ ι) : Except Assertion (Outcome ρ χ ι) :=
  let self := { self with connectionState := .connected }
  if status = kFWPResponseForActionStatusOk then
    if restoreStateAfterComplete then self.restoreState else .ok (self, [])
  else { self with authToken := none, forceAuthTokenRefresh := true }.close

/-- The block for the answer to a put.  Indices are never used again, so a put that is there is
the one that was sent. -/
def putCallback (index : ℕ) (status : String) (errorReason : Option String)
    (self : FPersistentConnection ρ χ ι) : Outcome ρ χ ι :=
  match objectForKey index self.outstandingPuts with
  | some currentPut =>
      let self := { self with outstandingPuts := removeObjectForKey index self.outstandingPuts }
      if self.unackedListensCount = 0 then
        (self, [.onComplete currentPut.onCompleteBlock status errorReason])
      else
        ({ self with
          putsToAck := self.putsToAck ++ [⟨currentPut.onCompleteBlock, status, errorReason⟩] }, [])
  | none => (self, [])

variable [DecidableEq ι]

/-- Nothing happens when the listen was removed, and maybe made again, before it was answered. -/
def answerListen (listenSpec : FOutstandingQuery ι) (status : String)
    (self : FPersistentConnection ρ χ ι) : Outcome ρ χ ι :=
  if objectForKey listenSpec.query self.listens = some listenSpec then
    (if status ≠ "ok" then
        { self with listens := removeObjectForKey listenSpec.query self.listens }
      else self,
      [.listenComplete listenSpec.query status])
  else (self, [])

/-- What the block for the answer to a listen does after its `onComplete`. -/
def listenAnswered (self : FPersistentConnection ρ χ ι) : Except Assertion (Outcome ρ χ ι) :=
  if self.unackedListensCount = 0 then .error .negativeUnackedListens
  else
    let self := { self with unackedListensCount := self.unackedListensCount - 1 }
    if self.unackedListensCount = 0 then .ok self.ackPuts else .ok (self, [])

/-- The block for the answer to a listen, when its `onComplete` makes no requests. -/
def onResponse (listenSpec : FOutstandingQuery ι) (status : String)
    (self : FPersistentConnection ρ χ ι) : Except Assertion (Outcome ρ χ ι) := do
  let (self, o) := self.answerListen listenSpec status
  let (self, os) ← self.listenAnswered
  return (self, o ++ os)

def callback (onMessage : RequestCallback ι) (status : String) (data : Option String)
    (self : FPersistentConnection ρ χ ι) : Except Assertion (Outcome ρ χ ι) :=
  match onMessage with
  | .auth restoreStateAfterComplete => self.authCallback restoreStateAfterComplete status
  | .put index => .ok (self.putCallback index status data)
  | .listen listenSpec => self.onResponse listenSpec status
  | .stats => .ok (self, [])

def onDataMessage (rn : ℕ) (status : String) (data : Option String)
    (self : FPersistentConnection ρ χ ι) : Except Assertion (Outcome ρ χ ι) :=
  match objectForKey rn self.requestCBHash with
  | some onMessage =>
      { self with requestCBHash := removeObjectForKey rn self.requestCBHash }.callback onMessage status
        data
  | none => .ok (self, [])

def onAuthRevokedWithStatus (self : FPersistentConnection ρ χ ι) : Except Assertion (Outcome ρ χ ι) :=
  { self with authToken := none, forceAuthTokenRefresh := true }.close

def onListenRevoked (atPath : ι → Bool) (self : FPersistentConnection ρ χ ι) :
    Outcome ρ χ ι :=
  ({ self with listens := self.listens.filter fun e => !atPath e.1 },
    (self.listens.filter fun e => atPath e.1).map fun e => .listenComplete e.1 "permission_denied")

/-! ### Requests of the client -/

def refreshAuthToken (token : Option String) (self : FPersistentConnection ρ χ ι) :
    Except Assertion (Outcome ρ χ ι) :=
  let self := { self with authToken := token }
  if self.connected then
    match token with
    | some _ => self.sendAuthAndRestoreStateAfterComplete false
    | none => self.sendAction .unauth none
  else .ok (self, [])

def listen (query : ι) (self : FPersistentConnection ρ χ ι) : Except Assertion (Outcome ρ χ ι) :=
  if (objectForKey query self.listens).isSome then .error .listenedTwice
  else
    let outstanding : FOutstandingQuery ι := ⟨query, self.objects⟩
    let self := { self with
      listens := setObject outstanding query self.listens
      objects := self.objects + 1 }
    if self.connected then self.sendListen outstanding else .ok (self, [])

def unlisten (query : ι) (self : FPersistentConnection ρ χ ι) : Except Assertion (Outcome ρ χ ι) :=
  match objectForKey query self.listens with
  | some _ =>
      let self := { self with listens := removeObjectForKey query self.listens }
      if self.connected then self.sendAction (.unlisten query) none else .ok (self, [])
  | none => .ok (self, [])

def putInternal (request : ρ) (hash : Option String) (block : χ)
    (self : FPersistentConnection ρ χ ι) : Except Assertion (Outcome ρ χ ι) :=
  let index := self.putCounter
  let self := { self with
    putCounter := index + 1
    outstandingPuts := setObject ⟨request, hash, block, false⟩ index self.outstandingPuts }
  if self.canSendWrites then self.sendPut index else .ok (self, [])

def purgeOutstandingWrites (self : FPersistentConnection ρ χ ι) :
    Outcome ρ χ ι :=
  let (self, os) := self.ackPuts
  let cancelled := (sortedKeys self.outstandingPuts).filterMap fun key =>
    (objectForKey key self.outstandingPuts).map fun put =>
      .onComplete put.onCompleteBlock kFErrorWriteCanceled none
  ({ self with outstandingPuts := [] }, os ++ cancelled)

def step (self : FPersistentConnection ρ χ ι) : Event ρ χ ι → Except Assertion (Outcome ρ χ ι)
  | .interrupt reason => self.interruptForReason reason
  | .resume reason => self.resumeForReason reason
  | .enteringForeground => self.enteringForeground
  | .retry => self.retry
  | .token attempt token => self.fetchTokenCallback attempt token
  | .handshake => self.onReady
  | .connectionLost => self.close
  | .shutdown => self.interruptForReason .serverKill
  | .response rn status data => self.onDataMessage rn status data
  | .requestError error => .error (.firebaseDatabaseServerError error)
  | .authRevoked => self.onAuthRevokedWithStatus
  | .listenRevoked atPath => .ok (self.onListenRevoked atPath)
  | .refreshAuthToken token => self.refreshAuthToken token
  | .listen query => self.listen query
  | .unlisten query => self.unlisten query
  | .putData request hash block => self.putInternal request hash block
  | .purgeOutstandingWrites => .ok self.purgeOutstandingWrites

/-- What can happen: a token arrives once, messages come over a ready connection, and no query is
listened to twice. -/
def Enabled (self : FPersistentConnection ρ χ ι) : Event ρ χ ι → Prop
  | .retry => self.scheduledRetry.isSome
  | .token attempt _ => attempt ∈ self.fetches
  | .handshake => self.realtime = some .connecting
  | .connectionLost | .shutdown => self.realtime.isSome
  | .response _ _ _ | .requestError _ | .authRevoked | .listenRevoked _ =>
      self.realtime = some .connected
  | .listen query => (objectForKey query self.listens).isNone
  | _ => True

instance (self : FPersistentConnection ρ χ ι) (e : Event ρ χ ι) : Decidable (self.Enabled e) := by
  cases e with
  | retry => exact inferInstanceAs (Decidable (self.scheduledRetry.isSome = true))
  | token attempt _ => exact inferInstanceAs (Decidable (attempt ∈ self.fetches))
  | handshake => exact inferInstanceAs (Decidable (self.realtime = some .connecting))
  | connectionLost | shutdown => exact inferInstanceAs (Decidable (self.realtime.isSome = true))
  | response _ _ _ | requestError _ | authRevoked | listenRevoked _ =>
      exact inferInstanceAs (Decidable (self.realtime = some .connected))
  | listen query => exact inferInstanceAs (Decidable ((objectForKey query self.listens).isNone = true))
  | _ => exact instDecidableTrue

variable (ρ χ ι) in
def machine : Machine (FPersistentConnection ρ χ ι) (Event ρ χ ι) (Output ρ χ ι) Assertion where
  start self := self = init
  enabled := Enabled
  step := step

instance (self : FPersistentConnection ρ χ ι) (e : Event ρ χ ι) :
    Decidable ((machine ρ χ ι).enabled self e) := inferInstanceAs (Decidable (self.Enabled e))

end FPersistentConnection
end ZipR
