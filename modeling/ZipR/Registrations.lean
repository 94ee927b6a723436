import ZipR.Refresh

/-! # Registrations of the message board

The message board registers for `UserWasLoggedIn` in `viewDidLoad` and for `Deletion` in
`viewDidAppear`, and never takes a registration back.  A view loads once and appears any number of
times.

* `registrations_of_run`: how often it is registered for each name, told from the events.
* `refreshes_of_step`: a posting makes it fetch once for each registration.

`one_refresh_iff` says in which runs every posting makes it fetch just once. -/

namespace ZipR

open Reactive

namespace App

variable {P : Platform} {s₀ app app' : App} {is : List Event} {os : List Output}

/-! ### What is registered -/

/-- The appearances of the message board since the process started. -/
def appearances (is : List Event) : ℕ :=
  is.foldl (fun n e =>
    match e with
    | .launch _ => 0
    | .messageBoardDidAppear => n + 1
    | _ => n) 0

/-- The view of the message board has loaded since the process started. -/
def loaded (is : List Event) : Bool :=
  is.foldl (fun b e =>
    match e with
    | .launch _ => false
    | .messageBoardDidLoad => true
    | _ => b) false

theorem appearances_concat (is : List Event) (e : Event) : appearances (is ++ [e]) =
    match e with
    | .launch _ => 0
    | .messageBoardDidAppear => appearances is + 1
    | _ => appearances is := by
  unfold appearances
  rw [List.foldl_concat]

theorem loaded_concat (is : List Event) (e : Event) : loaded (is ++ [e]) =
    match e with
    | .launch _ => false
    | .messageBoardDidLoad => true
    | _ => loaded is := by
  unfold loaded
  rw [List.foldl_concat]

/-- What the message board observes, and whether its view has loaded. -/
def observed (app : App) : List NotificationName × Bool :=
  (app.observers, app.messageBoard.viewLoaded)

/-- Only a launch and the two life-cycle methods change it. -/
def observe (observed : List NotificationName × Bool) : Event → List NotificationName × Bool
  | .launch _ => ([], false)
  | .messageBoardDidLoad => (.UserWasLoggedIn :: observed.1, true)
  | .messageBoardDidAppear => (.Deletion :: observed.1, observed.2)
  | _ => observed

theorem observed_step {e : Event} (hs : (machine P).Step app e os app') :
    app'.observed = observe app.observed e := by
  obtain ⟨hen, hs⟩ := hs
  cases e with
  | launch _ | messageBoardDidLoad | messageBoardDidAppear =>
      obtain ⟨rfl, -⟩ := Prod.mk.inj (Except.ok.inj hs)
      rfl
  | tabBarDidAppear =>
      obtain ⟨_, _, rfl, -⟩ := tabBarDidAppear_cases hs
      rfl
  | recentActivityWillAppear =>
      rcases recentActivityWillAppear_cases hs with rfl | ⟨_, -, rfl⟩ <;> rfl
  | signOutTapped signOutError =>
      rcases signOutTapped_cases hs with ⟨-, rfl⟩ | ⟨-, rfl⟩ <;> rfl
  | didSignIn login account =>
      obtain ⟨_, rfl, -⟩ := didSignIn_cases hs
      rfl
  | locationReply request coordinate =>
      obtain ⟨rfl, -⟩ := Prod.mk.inj (Except.ok.inj hs)
      rw [observed, locationReply_observers, locationReply_messageBoard]
      rfl
  | fetchAnswer id answer =>
      obtain ⟨call, -, rfl, ⟨-, rfl, -⟩ | ⟨records, -, hc, -⟩⟩ := fetchAnswer_cases hen.1 hs
      · rfl
      · rcases complete_cases hc with ⟨_, _, _, -, -, rfl⟩ | ⟨_, -, -, rfl⟩ | ⟨_, -, -, rfl⟩ <;> rfl
  | mainQueueBlock =>
      obtain ⟨rfl, -⟩ := Prod.mk.inj (Except.ok.inj hs)
      obtain ⟨_, _, _, hblock, -⟩ := mainQueueBlock_eq app
      rw [hblock]
      rfl
  | commitDelete row =>
      obtain ⟨p, -, rfl, -⟩ := commitDelete_cases hs
      simp only [observed, reloadRecentActivity, removeRows, post_observers, post_messageBoard]
      rfl
  | selectRow row =>
      obtain ⟨p, -, rfl, -⟩ := selectRow_cases hs
      rfl
  | postButtonTapped form now uuid =>
      rcases postButtonTapped_cases hs with ⟨rfl, -⟩ | ⟨_, _, -, -, rfl, -⟩ <;> rfl
  | postComment detail commentText uuid =>
      obtain ⟨rfl, -⟩ := postComment_cases hs
      rfl

/-- **What is registered**, told from the events. -/
theorem registrations_of_run (h₀ : (machine P).start s₀) (h : (machine P).Run s₀ is os app) :
    app.messageBoard.viewLoaded = loaded is ∧
      app.observers.count .Deletion = appearances is ∧
      app.observers.count .UserWasLoggedIn = if loaded is then 1 else 0 := by
  refine h.history (P := fun is _ app => app.messageBoard.viewLoaded = loaded is ∧
    app.observers.count .Deletion = appearances is ∧
    app.observers.count .UserWasLoggedIn = if loaded is then 1 else 0) ?_ ?_
  · obtain ⟨flag, account, signOutError, rfl⟩ := h₀
    exact ⟨rfl, rfl, rfl⟩
  · rintro is os app e o app' - ⟨hloaded, hdeletion, hlogin⟩ hs
    obtain ⟨hobservers, hview⟩ := Prod.mk.inj (observed_step hs)
    rw [hobservers, hview, loaded_concat, appearances_concat]
    cases e with
    | launch _ => exact ⟨rfl, rfl, rfl⟩
    | messageBoardDidLoad =>
        have hfirst : loaded is = false := hloaded.symm.trans hs.1
        simpa [observe, observed, hfirst] using And.intro hdeletion hlogin
    | messageBoardDidAppear => simpa [observe, observed] using ⟨hloaded, hdeletion, hlogin⟩
    | _ => exact ⟨hloaded, hdeletion, hlogin⟩

/-! ### What a posting does -/

/-- The name an event posts. -/
def postedName : Event → Option NotificationName
  | .commitDelete _ => some .Deletion
  | .locationReply _ (some _) => some .UserWasLoggedIn
  | _ => none

/-- The message board has called `fetchPosts` this often. -/
def Refreshes (n : ℕ) (app app' : App) : Prop :=
  ∃ calls, app'.fetches = app.fetches ++ calls ∧ calls.length = n ∧
    ∀ call ∈ calls, call.completion = .updateViews ∧
      app.messageBoard.postController = some call.postController

theorem Refreshes.unique {n m : ℕ} (h : Refreshes n app app') (h' : Refreshes m app app') :
    n = m := by
  obtain ⟨calls, hcalls, rfl, -⟩ := h
  obtain ⟨calls', hcalls', rfl, -⟩ := h'
  rw [List.append_cancel_left (hcalls.symm.trans hcalls')]

/-- **A posting makes the message board fetch once for each registration.** -/
theorem refreshes_of_step (hw : app.Wired) {e : Event} (hs : (machine P).Step app e os app')
    {name : NotificationName} (hname : postedName e = some name) :
    Refreshes (app.observers.count name) app app' := by
  suffices hfetches : app'.fetches = app.fetches ++ (List.range (app.observers.count name)).map
      fun k => ⟨app.nextFetch + k, app.tabBar.postController, .updateViews⟩ by
    refine ⟨_, hfetches, by simp, ?_⟩
    intro call hcall
    obtain ⟨k, -, rfl⟩ := List.mem_map.mp hcall
    exact ⟨rfl, hw.messageBoard⟩
  cases e with
  | commitDelete row =>
      obtain rfl : NotificationName.Deletion = name := Option.some.inj hname
      exact commitDelete_fetches hw hs
  | locationReply request coordinate =>
      cases coordinate with
      | none => cases hname
      | some coordinate =>
          obtain rfl : NotificationName.UserWasLoggedIn = name := Option.some.inj hname
          obtain ⟨hen, hs⟩ := hs
          obtain ⟨rfl, -⟩ := Prod.mk.inj (Except.ok.inj hs)
          obtain ⟨completion, hc⟩ : ∃ completion, app.locationRequests[request]? = some completion :=
            ⟨_, List.getElem?_eq_getElem hen⟩
          simp only [App.locationReply, hc, locationCompletion]
          refine post_fetches ?_ .UserWasLoggedIn
          exact hw.messageBoard
  | _ => cases hname

/-- Each posting makes the message board fetch just once; one for a deletion counts when the board
has appeared. -/
def OneRefreshEach (P : Platform) (s₀ : App) (is : List Event) : Prop :=
  ∀ pre e post ps t o t', is = pre ++ e :: post → (machine P).Run s₀ pre ps t →
    (machine P).Step t e o t' →
    (postedName e = some .Deletion → 0 < appearances pre → Refreshes 1 t t') ∧
      (postedName e = some .UserWasLoggedIn → Refreshes 1 t t')

/-- **When one deletion is one refresh.**  In a run each posting makes the message board fetch just
once, if and only if nothing is deleted once the board has appeared twice, and no login is posted
before its view has loaded. -/
theorem one_refresh_iff (h₀ : (machine P).start s₀) (h : (machine P).Run s₀ is os app) :
    OneRefreshEach P s₀ is ↔ ∀ pre e post, is = pre ++ e :: post →
      (postedName e = some .Deletion → appearances pre ≤ 1) ∧
        (postedName e = some .UserWasLoggedIn → loaded pre = true) := by
  constructor
  · rintro hall pre e post rfl
    obtain ⟨t, ps, o, t', hr, hs⟩ := h.exists_step
    obtain ⟨-, hdeletion, hlogin⟩ := registrations_of_run h₀ hr
    have hw := wired_of_reachable ⟨s₀, pre, ps, h₀, hr⟩
    obtain ⟨hone, hone'⟩ := hall pre e post ps t o t' rfl hr hs
    refine ⟨fun hname => ?_, fun hname => ?_⟩
    · have hmany := refreshes_of_step hw hs hname
      rw [hdeletion] at hmany
      by_contra hlt
      have heq := hmany.unique (hone hname (by omega))
      omega
    · have hmany := refreshes_of_step hw hs hname
      rw [hlogin] at hmany
      have heq := hmany.unique (hone' hname)
      by_contra hload
      simp [hload] at heq
  · intro hall pre e post ps t o t' he hr hs
    obtain ⟨-, hdeletion, hlogin⟩ := registrations_of_run h₀ hr
    have hw := wired_of_reachable ⟨s₀, pre, ps, h₀, hr⟩
    obtain ⟨hfew, hloaded⟩ := hall pre e post he
    refine ⟨fun hname hpos => ?_, fun hname => ?_⟩
    · have hmany := refreshes_of_step hw hs hname
      have hone : appearances pre = 1 := by
        have hle := hfew hname
        omega
      rwa [hdeletion, hone] at hmany
    · have hmany := refreshes_of_step hw hs hname
      rwa [hlogin, if_pos (hloaded hname)] at hmany

/-! One client with one post. -/

/-- The user signs in, and looks at the post on the recent activity screen. -/
def oneRow : List Event :=
  [.messageBoardDidLoad, .messageBoardDidAppear, .tabBarDidAppear, .didSignIn 0 accountA,
    .locationReply 0 (some home), .recentActivityWillAppear,
    .fetchAnswer 1 (.value (.object [World.storedSample "6F96-8B86"])), .mainQueueBlock]

/-- The message board is selected again before the post is deleted. -/
theorem refreshed_twice : ∃ os app o app',
    (machine .decimal).Run firstLaunch (oneRow ++ [.messageBoardDidAppear]) os app ∧
    (machine .decimal).Step app (.commitDelete 0) o app' ∧
    app'.fetches = app.fetches ++ [⟨2, 0, .updateViews⟩, ⟨3, 0, .updateViews⟩] := by
  obtain ⟨os, app, hr, hen, ⟨app', o⟩, hs, hfetches⟩ := Machine.Run.exists_of_exec
    (M := machine .decimal) (s := firstLaunch) (l := oneRow ++ [.messageBoardDidAppear])
    (Q := fun app _ => (machine .decimal).enabled app (.commitDelete 0) ∧
      ∃ r ∈ ((machine .decimal).step app (.commitDelete 0)).toOption,
        r.1.fetches = app.fetches ++ [⟨2, 0, .updateViews⟩, ⟨3, 0, .updateViews⟩])
    (by decide +kernel) (by decide +kernel)
  exact ⟨os, app, o, app', hr, Machine.Step.of_mem_toOption hen hs, hfetches⟩

theorem one_refresh_sample : OneRefreshEach .decimal firstLaunch (oneRow ++ [.commitDelete 0]) := by
  obtain ⟨os, app, hr, -⟩ := Machine.Run.exists_of_exec (M := machine .decimal) (s := firstLaunch)
    (l := oneRow ++ [.commitDelete 0]) (Q := fun _ _ => True) (by decide +kernel)
    (by decide +kernel)
  exact (one_refresh_iff (start_firstLaunch _) hr).mpr (by
    rw [Machine.forall_split_iff]
    decide +kernel)

end App
end ZipR
