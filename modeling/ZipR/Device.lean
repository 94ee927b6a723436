import ZipR.Session
import ZipR.Location

/-! # The app and its location manager

`App` lets a pending location completion run at any time.  Here the completions go through
`Location`, whose dispatch groups decide when they run, if they do.

* **Calls.** An event of the app passes its new requests to `getCurrentLocation`; a process start
  makes a new `Location`.
* **Replies.** A block of the location's queue runs its completion in the app.  The reload blocks
  of the app's own queue may run between them in any order.
* `device_refines_app`: what a device does, its app does with the same outputs.  Whatever holds of
  every run of the app therefore holds of the app on every device. -/

namespace ZipR

open Reactive

structure Device where
  app : App
  location : Location LocationCompletion

namespace Device

inductive Event where
  | launch (signOutError : Bool)
  | app (e : ZipR.Event)
  | location (e : Location.Event LocationCompletion)

/-- The event neither starts the process nor runs a location completion. -/
def Local : ZipR.Event → Prop
  | .launch _ | .locationReply _ _ => False
  | _ => True

/-- The requests of the second state that the first does not have yet. -/
def newRequests (app app' : App) : List LocationCompletion :=
  app'.locationRequests.drop app.locationRequests.length

/-- What the outputs of the location do to the app. -/
def deliver (P : Platform) (app : App) (os : List (Location.Output LocationCompletion)) : App :=
  os.foldl (fun app o =>
    match o with
    | .requestLocation => app
    | .completed completion coordinate =>
        app.locationReply P (app.locationRequests.idxOf completion) coordinate) app

def step (P : Platform) (d : Device) :
    Event → Except (Trap ⊕ UnbalancedLeave) (Device × List Output)
  | .launch signOutError => .ok (⟨d.app.launch signOutError, .init⟩, [])
  | .app e =>
      match d.app.step P e with
      | .error trap => .error (.inl trap)
      | .ok (app, os) =>
          .ok (⟨app, (newRequests d.app app).foldl Location.getCurrentLocation d.location⟩, os)
  | .location e =>
      match d.location.step e with
      | .error trap => .error (.inr trap)
      | .ok (location, os) => .ok (⟨deliver P d.app os, location⟩, [])

def Enabled (d : Device) : Event → Prop
  | .launch _ => True
  | .app e => Local e ∧ d.app.Enabled e
  | .location (.getCurrentLocation _) => False
  | .location e => d.location.Enabled e

def machine (P : Platform) : Machine Device Event Output (Trap ⊕ UnbalancedLeave) where
  start d := (App.machine P).start d.app ∧ d.location = .init
  enabled := Enabled
  step := step P

variable {P : Platform} {d d' : Device}

/-- Local events only add requests. -/
theorem locationRequests_prefix {app app' : App} {e : ZipR.Event} (he : Local e) {os : List Output}
    (hs : (App.machine P).Step app e os app') :
    app.locationRequests <+: app'.locationRequests := by
  cases e with
  | launch _ => exact he.elim
  | locationReply _ _ => exact he.elim
  | tabBarDidAppear =>
      obtain ⟨requests, _, rfl, -⟩ := App.tabBarDidAppear_cases hs.2
      exact List.prefix_append _ requests
  | didSignIn login account =>
      obtain ⟨requests, rfl, -⟩ := App.didSignIn_cases hs.2
      exact List.prefix_append _ requests
  | signOutTapped signOutError =>
      rcases App.signOutTapped_cases hs.2 with ⟨-, rfl⟩ | ⟨-, rfl⟩ <;> exact List.prefix_refl _
  | _ =>
      have hsame := (App.sameSession_of_quiet hs trivial).1
      exact hsame.locationRequests ▸ List.prefix_refl _

/-- The location holds what is passed to it. -/
theorem held_calls (location : Location LocationCompletion) (requests : List LocationCompletion) :
    (requests.foldl Location.getCurrentLocation location).held.Perm (location.held ++ requests) := by
  induction requests generalizing location with
  | nil => simp
  | cons completion requests ih =>
      have hcall : (Location.machine LocationCompletion).Step location
          (.getCurrentLocation completion) [.requestLocation]
          (location.getCurrentLocation completion) := ⟨trivial, rfl⟩
      have hheld : (location.getCurrentLocation completion).held.Perm
          (location.held ++ [completion]) := Location.completions_step hcall
      have hrest := (ih (location.getCurrentLocation completion)).trans (hheld.append_right requests)
      rwa [List.append_assoc] at hrest

/-- The app of the device waits for what its location holds. -/
def Abstracts (d : Device) (app : App) : Prop :=
  d.app = app ∧ app.locationRequests.Perm d.location.held

/-- A completion the location runs is a reply the app waits for. -/
theorem reply_of_held {app : App} {completion : LocationCompletion} {held : List LocationCompletion}
    (h : app.locationRequests.Perm (completion :: held)) (coordinate : Option Coordinate) :
    (App.machine P).Step app
      (.locationReply (app.locationRequests.idxOf completion) coordinate) []
      (app.locationReply P (app.locationRequests.idxOf completion) coordinate) ∧
    (app.locationReply P (app.locationRequests.idxOf completion)
      coordinate).locationRequests.Perm held := by
  have hmem : completion ∈ app.locationRequests := h.mem_iff.mpr List.mem_cons_self
  refine ⟨⟨List.idxOf_lt_length_iff.mpr hmem, rfl⟩, ?_⟩
  rw [App.locationReply_locationRequests, ← List.erase_eq_eraseIdx_of_idxOf rfl]
  simpa using h.erase completion

/-- Every step of a device is matched by its app. -/
theorem app_step {app : App} (h : d.Abstracts app) {e : Event} {os : List Output}
    (hs : (machine P).Step d e os d') :
    ∃ js app', (App.machine P).Run app js os app' ∧ d'.Abstracts app' := by
  obtain ⟨rfl, hperm⟩ := h
  obtain ⟨hen, hs⟩ := hs
  cases e with
  | launch signOutError =>
      obtain ⟨rfl, rfl⟩ := Prod.mk.inj (Except.ok.inj hs)
      exact ⟨[.launch signOutError], _, .single ⟨trivial, rfl⟩, rfl, .refl _⟩
  | app e =>
      simp only [machine, step] at hs
      cases ha : d.app.step P e with
      | error trap => rw [ha] at hs; cases hs
      | ok r =>
          obtain ⟨app, o⟩ := r
          rw [ha] at hs
          obtain ⟨rfl, rfl⟩ := Prod.mk.inj (Except.ok.inj hs)
          have happ : (App.machine P).Step d.app e o app := ⟨hen.2, ha⟩
          refine ⟨[e], app, .single happ, rfl, ?_⟩
          obtain ⟨new, hnew⟩ := locationRequests_prefix hen.1 happ
          have hrequests : newRequests d.app app = new := by
            rw [newRequests, ← hnew, List.drop_left]
          rw [hrequests, ← hnew]
          exact (hperm.append_right new).trans (held_calls d.location new).symm
  | location e =>
      simp only [machine, step] at hs
      cases hl : d.location.step e with
      | error trap => rw [hl] at hs; cases hs
      | ok r =>
          obtain ⟨location, o⟩ := r
          rw [hl] at hs
          obtain ⟨rfl, rfl⟩ := Prod.mk.inj (Except.ok.inj hs)
          have hstep : (Location.machine LocationCompletion).Step d.location e o location := by
            refine ⟨?_, hl⟩
            cases e with
            | getCurrentLocation _ => exact hen.elim
            | _ => exact hen
          have hheld := Location.completions_step hstep
          cases Location.change hstep with
          | call _ => exact hen.elim
          | unheard _ => exact ⟨[], _, .refl, rfl, hperm⟩
          | left _ _ =>
              refine ⟨[], _, .refl, rfl, hperm.trans ?_⟩
              simpa [Location.completed, Location.passed] using hheld.symm
          | failed => exact ⟨[], _, .refl, rfl, hperm⟩
          | @block completion blocks coordinate _ =>
              have hnext : d.location.held.Perm (completion ::
                  Location.held { d.location.setGroup none with mainQueue := blocks }) := by
                simpa [Location.completed, Location.passed] using hheld.symm
              obtain ⟨hreply, hrest⟩ := reply_of_held (P := P) (hperm.trans hnext) coordinate
              exact ⟨_, _, .single hreply, rfl, hrest⟩

/-- **A device refines its app**: the app of a device with a real location manager goes through a
run of the app with the same outputs, in which every location completion runs at most once. -/
theorem device_refines_app {d₀ : Device} (h₀ : (machine P).start d₀) {is : List Event}
    {os : List Output} (h : (machine P).Run d₀ is os d) :
    ∃ js, (App.machine P).Run d₀.app js os d.app := by
  have hstart : d₀.Abstracts d₀.app := by
    obtain ⟨⟨flag, account, signOutError, happ⟩, hlocation⟩ := h₀
    rw [Abstracts, happ, hlocation]
    exact ⟨rfl, .refl _⟩
  obtain ⟨js, app, hr, rfl, -⟩ :=
    h.simulate (R := Abstracts) (fun _ _ _ _ _ ha hs => app_step ha hs) hstart
  exact ⟨js, hr⟩

instance (e : ZipR.Event) : Decidable (Local e) :=
  match e with
  | .launch _ | .locationReply _ _ => instDecidableFalse
  | .tabBarDidAppear | .messageBoardDidLoad | .messageBoardDidAppear | .recentActivityWillAppear
  | .signOutTapped _ | .didSignIn _ _ | .fetchAnswer _ _ | .mainQueueBlock | .commitDelete _
  | .selectRow _ | .postButtonTapped _ _ _ | .postComment _ _ _ => instDecidableTrue

instance (d : Device) (e : Event) : Decidable ((machine P).enabled d e) := by
  cases e with
  | launch _ => exact inferInstanceAs (Decidable True)
  | app e => exact inferInstanceAs (Decidable (Local e ∧ d.app.Enabled e))
  | location e =>
      cases e with
      | getCurrentLocation _ => exact inferInstanceAs (Decidable False)
      | didUpdateLocations => exact inferInstanceAs (Decidable (d.location.Enabled .didUpdateLocations))
      | didFailWithError => exact inferInstanceAs (Decidable (d.location.Enabled .didFailWithError))
      | mainQueueBlock coordinate =>
          exact inferInstanceAs (Decidable (d.location.Enabled (.mainQueueBlock coordinate)))

/-- A user signs in, and the location manager has an update. -/
def signedIn : List Event :=
  [.app .tabBarDidAppear, .app (.didSignIn 0 App.accountA), .location .didUpdateLocations,
    .location (.mainQueueBlock (some App.home))]

theorem device_refines_app_sample : ∃ os d, (machine .decimal).Run ⟨App.firstLaunch, .init⟩
      signedIn os d ∧ d.app.shared.user = some (loggedUser .decimal "A" App.home) ∧
    ∃ js, (App.machine .decimal).Run App.firstLaunch js os d.app := by
  obtain ⟨os, d, hr, huser⟩ := Machine.Run.exists_of_exec (M := machine .decimal)
    (s := ⟨App.firstLaunch, .init⟩) (l := signedIn)
    (Q := fun d _ => d.app.shared.user = some (loggedUser .decimal "A" App.home))
    (by decide +kernel) (by decide +kernel)
  exact ⟨os, d, hr, huser, device_refines_app ⟨App.start_firstLaunch _, rfl⟩ hr⟩

end Device
end ZipR
