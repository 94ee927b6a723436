import ZipR.Session
import ZipR.Fetches
import ZipR.Feed

/-! # Many clients, one database

A world is the shared database and one app on each of any number of devices, numbered by `ℕ`.

* **Steps.** An event happens on one device; the writes its handler sends are applied to the
  database in their order.
* **Environment.** A fetch is answered with the `Posts` node as it is, its entries in any order,
  or cancelled.  UUIDs are UUID strings and never repeat.  Coordinates and times are finite numbers.
* `world_refines_database`: the updates of a run of the world are a run of the database in which
  every post comes from a create form; in particular no client ever writes to a bad path.  What
  holds of the database (`store_refines_board`, `feed_correct`) therefore holds in every world.
* `WorldInvariant.created`: every post a client holds was created by some client, and is as it
  was created. -/

namespace ZipR

open Reactive JsonTree App

structure World where
  database : Database
  clients : ℕ → App

namespace World

/-- The updates among the outputs of all clients, in their order. -/
def updates (os : List (ℕ × Output)) : List Update := App.updates (os.map Prod.snd)

@[simp] theorem updates_append (os ps : List (ℕ × Output)) :
    updates (os ++ ps) = updates os ++ updates ps := by
  simp [updates]

@[simp] theorem updates_map_client (c : ℕ) (os : List Output) :
    updates (os.map (Prod.mk c)) = App.updates os := by
  simp [updates, Function.comp_def]

theorem mem_client_updates {c : ℕ} {u : Update} {os : List Output} :
    (c, .write u) ∈ os.map (Prod.mk c) ↔ u ∈ App.updates os := by
  simp [mem_updates]

/-- The part of a list that belongs to one client. -/
def ofClient {α : Type} (c : ℕ) (l : List (ℕ × α)) : List α :=
  l.filterMap fun i => if i.1 = c then some i.2 else none

@[simp] theorem ofClient_append {α : Type} (c : ℕ) (l l' : List (ℕ × α)) :
    ofClient c (l ++ l') = ofClient c l ++ ofClient c l' := by
  simp [ofClient]

@[simp] theorem ofClient_map_self {α : Type} (c : ℕ) (l : List α) :
    ofClient c (l.map (Prod.mk c)) = l := by
  simp [ofClient]

theorem ofClient_map_ne {α : Type} {c d : ℕ} (h : d ≠ c) (l : List α) :
    ofClient c (l.map (Prod.mk d)) = [] := by
  simp [ofClient, h]

def step (P : Platform) (w : World) (i : ℕ × Event) :
    Except Trap (World × List (ℕ × Output)) := do
  let (app, os) ← (w.clients i.1).step P i.2
  let (database, _) ← Database.machine.exec w.database (App.updates os)
  return (⟨database, Function.update w.clients i.1 app⟩, os.map (Prod.mk i.1))

/-- What the rest of the world can answer and draw. -/
def Possible (P : Platform) (w : World) : Event → Prop
  | .fetchAnswer _ (.value snapshot) => Enumerates (w.database.tree.get ["Posts"]) snapshot
  | .locationReply _ (some coordinate) =>
      P.Finite coordinate.latitude ∧ P.Finite coordinate.longitude
  | .postButtonTapped _ now uuid => P.Finite now ∧ P.UUID uuid ∧ w.database.Fresh uuid
  | .postComment _ _ uuid => w.database.Fresh uuid
  | _ => True

/-- Clients that start with the app not running, and an empty database. -/
def machine (P : Platform) : Machine World (ℕ × Event) (ℕ × Output) Trap where
  start w := w.database = .empty ∧ ∀ c, (App.machine P).start (w.clients c)
  enabled w i := (w.clients i.1).Enabled i.2 ∧ w.Possible P i.2
  step := step P

instance {P : Platform} [∀ x, Decidable (P.Finite x)] [∀ s, Decidable (P.UUID s)] (w : World)
    (e : Event) : Decidable (w.Possible P e) :=
  match e with
  | .fetchAnswer _ (.value snapshot) =>
      inferInstanceAs (Decidable (Enumerates (w.database.tree.get ["Posts"]) snapshot))
  | .locationReply _ (some coordinate) =>
      inferInstanceAs (Decidable (P.Finite coordinate.latitude ∧ P.Finite coordinate.longitude))
  | .postButtonTapped _ now uuid =>
      inferInstanceAs (Decidable (P.Finite now ∧ P.UUID uuid ∧ w.database.Fresh uuid))
  | .postComment _ _ uuid => inferInstanceAs (Decidable (w.database.Fresh uuid))
  | .fetchAnswer _ .cancelled | .locationReply _ none | .launch _ | .tabBarDidAppear
  | .messageBoardDidLoad | .messageBoardDidAppear | .recentActivityWillAppear | .signOutTapped _
  | .didSignIn _ _ | .mainQueueBlock | .commitDelete _ | .selectRow _ => isTrue trivial

instance {P : Platform} [∀ x, Decidable (P.Finite x)] [∀ s, Decidable (P.UUID s)] (w : World)
    (i : ℕ × Event) : Decidable ((machine P).enabled w i) :=
  inferInstanceAs (Decidable ((w.clients i.1).Enabled i.2 ∧ w.Possible P i.2))

variable {P : Platform} {w w' : World} {i : ℕ × Event} {o : List (ℕ × Output)}

/-- A step of the world is a step of one client, and its updates. -/
theorem step_inv (hs : (machine P).Step w i o w') :
    ∃ os, (App.machine P).Step (w.clients i.1) i.2 os (w'.clients i.1) ∧
      o = os.map (Prod.mk i.1) ∧ (∀ c, c ≠ i.1 → w'.clients c = w.clients c) ∧
      ∃ us, Database.machine.exec w.database (App.updates os) = .ok (w'.database, us) := by
  obtain ⟨⟨hen, -⟩, hs⟩ := hs
  simp only [machine, step] at hs
  cases ha : (w.clients i.1).step P i.2 with
  | error e => rw [ha] at hs; cases hs
  | ok r =>
      obtain ⟨app, os⟩ := r
      cases hd : Database.machine.exec w.database (App.updates os) with
      | error e => simp only [ha, hd, bind, Except.bind] at hs; cases hs
      | ok q =>
          obtain ⟨database, us⟩ := q
          simp only [ha, hd, bind, Except.bind, pure, Except.pure] at hs
          obtain ⟨rfl, rfl⟩ := Prod.mk.inj (Except.ok.inj hs)
          exact ⟨os, ⟨hen, ha.trans (by simp only [Function.update_self])⟩, rfl,
            fun c hc => Function.update_of_ne hc _ _, us, hd⟩

/-! ### The world refines the database -/

/-- The post was created by one of the updates, and is as it is read back. -/
def Created (us : List Update) (p : Post) : Prop :=
  ∃ uuid new, .createPost uuid new ∈ us ∧ p = (new.post uuid).readBack

theorem Created.append {us : List Update} {p : Post} (h : Created us p) (vs : List Update) :
    Created (us ++ vs) p := by
  obtain ⟨uuid, new, hm, rfl⟩ := h
  exact ⟨uuid, new, List.mem_append_left _ hm, rfl⟩

/-- The bookkeeping of the database knows the created posts. -/
theorem mem_created_of_run {us : List Update} {qs : List Unit} {d : Database}
    (h : Database.machine.Run .empty us qs d) {uuid : String} {new : NewPost}
    (hm : .createPost uuid new ∈ us) : uuid ∈ d.created := by
  refine h.history (P := fun us _ d => ∀ uuid new, .createPost uuid new ∈ us → uuid ∈ d.created)
    ?_ ?_ uuid new hm
  · intro _ _ hm
    cases hm
  · intro us qs d u q d' hr ih hs uuid new hm
    rw [(invariant_of_run hr).step_eq hs]
    rcases List.mem_append.mp hm with hm | hm
    · have hold := ih uuid new hm
      cases u with
      | createPost _ _ => exact List.mem_cons_of_mem _ hold
      | _ => exact hold
    · obtain rfl := List.mem_singleton.mp hm
      exact List.mem_cons_self

/-- What every world satisfies after the updates `us`. -/
structure WorldInvariant (P : Platform) (us : List Update) (w : World) : Prop where
  run : ∃ qs, (postedMachine P).Run .empty us qs w.database
  created : ∀ c, (w.clients c).AllPosts (Created us)
  located : ∀ c r user, ((w.clients c).controllers r).user = some user → ∃ name coordinate,
    P.Finite coordinate.latitude ∧ P.Finite coordinate.longitude ∧
      user = loggedUser P name coordinate

namespace WorldInvariant

variable {us : List Update}

theorem start (h : (machine P).start w) : WorldInvariant P [] w where
  run := ⟨[], h.1 ▸ .refl⟩
  created c := by
    obtain ⟨flag, account, signOutError, hc⟩ := h.2 c
    rw [hc]
    exact allPosts_launch ..
  located c r user hu := by
    obtain ⟨flag, account, signOutError, hc⟩ := h.2 c
    rw [hc] at hu
    cases hu

theorem mem_created (h : WorldInvariant P us w) {p : Post} (hp : Created us p) :
    ∃ id, p.id = some id ∧ id ∈ w.database.created := by
  obtain ⟨qs, hr⟩ := h.run
  obtain ⟨uuid, new, hm, rfl⟩ := hp
  exact ⟨uuid, rfl, mem_created_of_run hr.of_restrict hm⟩

/-- Every write of a client is an enabled update, of a post from a create form if of any. -/
theorem along (h : WorldInvariant P us w) {c : ℕ} {e : Event} (he : w.Possible P e)
    {vs : List Update} (hs : Sends P (w.clients c) e vs) :
    (postedMachine P).Along (postedMachine P).enabled w.database vs := by
  obtain ⟨qs, hr⟩ := h.run
  have hinv := invariant_of_run hr.of_restrict
  have hone : ∀ u, w.database.Enabled u → Posted P u →
      (postedMachine P).Along (postedMachine P).enabled w.database [u] := by
    intro u hu hposted
    refine ⟨⟨hu, hposted⟩, ?_⟩
    split <;> trivial
  cases hs with
  | nothing => trivial
  | @post form now uuid r new hboard hnew =>
      obtain ⟨controller, user, hc, hu, -⟩ :=
        CreateMessageBoardViewController.postMessageBoard_eq_some hnew
      obtain rfl := Option.some.inj hc
      obtain ⟨name, coordinate, hlat, hlong, rfl⟩ := h.located c r user hu
      exact hone _ he.2.2 ⟨he.2.1, form, _, name, coordinate, now, hlat, hlong, he.1, hu, hnew⟩
  | @comment detail commentText self uuid author description postID hself hnew =>
      obtain ⟨p, r, user, hp, hid, -⟩ := newComment_eq_some hnew
      obtain ⟨id, hid', hcreated⟩ := h.mem_created ((h.created c).details self hself p hp)
      obtain rfl := Option.some.inj (hid'.symm.trans hid)
      exact hone _ ⟨he, hcreated⟩ trivial
  | @delete row p hp =>
      obtain ⟨id, hid, hcreated⟩ :=
        h.mem_created ((h.created c).usersPosts p (List.mem_of_getElem? hp))
      rw [hid, Option.getD_some]
      refine ⟨⟨hcreated, trivial⟩, ?_⟩
      have hstep := (hinv.exists_step (u := .removePost id) hcreated).2
      change (postedMachine P).step w.database (.removePost id) = _ at hstep
      rw [hstep]
      refine ⟨⟨List.mem_cons_self, trivial⟩, ?_⟩
      split <;> trivial

/-- What a fetch brings was created. -/
theorem created_of_answer (h : WorldInvariant P us w) {records : List (String × Json)}
    (he : Enumerates (w.database.tree.get ["Posts"]) (.object records)) :
    ∀ p ∈ PostController.decodePosts records, ∃ id new, (boardOf us).posts id = some (new.post id) ∧
      .createPost id new ∈ us ∧ p = (new.post id).readBack := by
  obtain ⟨qs, hr⟩ := h.run
  have hinv := invariant_of_run hr.of_restrict
  intro p hp
  obtain ⟨id, q, hq, rfl⟩ := ((hinv.decodePosts he.entries).2 p).mp hp
  obtain ⟨new, hm, rfl⟩ := created_of_board hq
  exact ⟨id, new, hq, hm, rfl⟩

theorem step (h : WorldInvariant P us w) (hs : (machine P).Step w i o w') :
    WorldInvariant P (us ++ updates o) w' := by
  obtain ⟨os, hclient, rfl, hothers, vs, hexec⟩ := step_inv hs
  have hpossible : w.Possible P i.2 := hs.1.2
  rw [updates_map_client]
  obtain ⟨qs, hr⟩ := h.run
  refine ⟨?_, fun c => ?_, fun c r user hu => ?_⟩
  · have halong := h.along hpossible (sends hclient)
    have hexec' : (postedMachine P).exec w.database (App.updates os) = .ok (w'.database, vs) :=
      (Machine.exec_restrict ..).trans hexec
    exact ⟨_, hr.append (Machine.Run.of_exec halong hexec')⟩
  · by_cases hc : c = i.1
    · subst hc
      refine AllPosts.step ((h.created _).imp fun p hp => hp.append _) hclient ?_
      intro id records he p hp
      rw [he] at hpossible
      obtain ⟨id, new, -, hm, rfl⟩ := h.created_of_answer hpossible p hp
      exact ⟨id, new, List.mem_append_left _ hm, rfl⟩
    · rw [hothers c hc]
      exact (h.created c).imp fun p hp => hp.append _
  · by_cases hc : c = i.1
    · subst hc
      rcases user_step hclient hu with hu | ⟨request, coordinate, completion, -, he, rfl⟩
      · exact h.located _ r user hu
      · rw [he] at hpossible
        exact ⟨completion.name, coordinate, hpossible.1, hpossible.2, rfl⟩
    · rw [hothers c hc] at hu
      exact h.located c r user hu

end WorldInvariant

theorem worldInvariant_of_run {w₀ : World} (h₀ : (machine P).start w₀) {is : List (ℕ × Event)}
    {os : List (ℕ × Output)} (h : (machine P).Run w₀ is os w) :
    WorldInvariant P (updates os) w := by
  refine h.history (P := fun _ os w => WorldInvariant P (updates os) w) (.start h₀) ?_
  intro is os w i o w' _ ih hs
  rw [updates_append]
  exact ih.step hs

/-- **The world refines the database**: the updates of all clients, in the order in which they are
sent, are a run of the database whose posts come from create forms. -/
theorem world_refines_database {w₀ : World} (h₀ : (machine P).start w₀) {is : List (ℕ × Event)}
    {os : List (ℕ × Output)} (h : (machine P).Run w₀ is os w) :
    ∃ qs, (postedMachine P).Run .empty (updates os) qs w.database :=
  (worldInvariant_of_run h₀ h).run

/-- **In a world each client runs its app.** -/
theorem client_run {w₀ : World} {is : List (ℕ × Event)} {os : List (ℕ × Output)}
    (h : (machine P).Run w₀ is os w) (c : ℕ) :
    (App.machine P).Run (w₀.clients c) (ofClient c is) (ofClient c os) (w.clients c) := by
  refine h.history (P := fun is os w =>
    (App.machine P).Run (w₀.clients c) (ofClient c is) (ofClient c os) (w.clients c)) .refl ?_
  intro is os w i o w' _ ih hs
  obtain ⟨os', hclient, rfl, hothers, -⟩ := step_inv hs
  rw [ofClient_append, ofClient_append]
  by_cases hc : i.1 = c
  · subst hc
    rw [ofClient_map_self]
    have hi : ofClient i.1 [i] = [i.2] := ofClient_map_self i.1 [i.2]
    rw [hi]
    exact ih.snoc hclient
  · have hi : ofClient c [i] = [] := ofClient_map_ne hc [i.2]
    rw [hi, ofClient_map_ne hc, List.append_nil, List.append_nil, hothers c (Ne.symm hc)]
    exact ih

theorem client_reachable {w₀ : World} (h₀ : (machine P).start w₀) {is : List (ℕ × Event)}
    {os : List (ℕ × Output)} (h : (machine P).Run w₀ is os w) (c : ℕ) :
    (App.machine P).Reachable (w.clients c) :=
  ⟨_, _, _, h₀.2 c, client_run h c⟩

/-- An empty database and clients that start for the first time. -/
def emptyWorld : World := ⟨.empty, fun _ => firstLaunch⟩

theorem start_emptyWorld (P : Platform) : (machine P).start emptyWorld :=
  ⟨rfl, fun _ => start_firstLaunch _⟩

end World
end ZipR
