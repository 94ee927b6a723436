import ZipR.Refresh

/-! # Whose posts are deleted

Recent activity lists the posts whose author string is the name of the current user, and deletes
from that list.  No record says which account created it, and a sign-out leaves the list as it is.

* `FilledFor`: the list was last filled while the controller held a user of this name.
* `CreatedUnder`: the post was created on a client whose controller held a user of this name.
* `deletion_matches_author`: what is deleted was created under the name the list was filled for, up
  to canonical equivalence.
* `creator_deletes`: where the list was filled in the session in which it is deleted from, and no
  reply and no sign-in is late, the account signed in has the name of the account that created the
  post; so it is that account, unless two accounts share a name (`namesake_deletes`).  After a
  sign-out nobody is signed in (`deleted_after_signOut`). -/

namespace ZipR

open Reactive JsonTree App

namespace App

variable {P : Platform} {app app' : App}

/-- The name `viewWillAppear` selects by. -/
def userName (app : App) : String := (app.shared.user.map CurrentUser.name).getD ""

/-- The list of recent activity is filled by name, and otherwise only loses posts. -/
theorem usersPosts_step (hw : app.Wired) (hn : app.Numbered) {e : Event} {os : List Output}
    (hs : (machine P).Step app e os app') :
    (∃ call answer, e = .fetchAnswer call.id answer ∧ completions os = [call] ∧
      call.completion = .viewWillAppear ∧
      ∀ p ∈ app'.recentActivity.usersPosts, P.same p.author app.userName) ∨
    ((∀ p ∈ app'.recentActivity.usersPosts, p ∈ app.recentActivity.usersPosts) ∧
      ∀ call ∈ completions os, call.completion ≠ .viewWillAppear) := by
  have hdata := dataStep hs
  rcases completions_step hs with hnil | ⟨call, hcall, records, rfl, hone⟩
  · refine .inr ⟨?_, fun call hcall => by rw [hnil] at hcall; cases hcall⟩
    cases hdata with
    | launch _ => exact fun _ hp => by cases hp
    | issue hi => exact fun p hp => hi.recentActivity ▸ hp
    | drop _ => exact fun _ hp => hp
    | @complete call records _ hcall hc =>
        -- the completion would be among the outputs
        rcases hn.answer_cases hcall hs with ⟨hd, -, -⟩ | ⟨_, -, -, rfl⟩
        · exact absurd rfl (hd records)
        · cases hnil
    | block =>
        obtain ⟨_, _, _, hblock, -⟩ := mainQueueBlock_eq app
        rw [hblock]
        exact fun _ hp => hp
    | @delete row q _ =>
        intro p hp
        have hkept : p ∈ (app.removeRows P q.id).recentActivity.usersPosts :=
          (Issued.post (app.removeRows P q.id) .Deletion).recentActivity ▸ hp
        exact (List.mem_filter.mp hkept).1
    | select _ => exact fun _ hp => hp
  · rcases hn.answer_cases hcall hs with ⟨hd, -, -⟩ | ⟨records', -, hc, rfl⟩
    · exact absurd rfl (hd records)
    · rcases complete_cases hc with ⟨_, _, _, hx, -, rfl⟩ | ⟨_, hx, -, rfl⟩ | ⟨usersPosts, hx, hu, rfl⟩
      · exact .inr ⟨fun _ hp => hp, by simp [completions, hx]⟩
      · exact .inr ⟨fun _ hp => hp, by simp [completions, hx]⟩
      · refine .inl ⟨call, _, rfl, hone, hx, fun p hp => ?_⟩
        have hmem := (filterPostsByUserandDate_perm hu).mem_iff.mp hp
        have hauthor := of_decide_eq_true (List.mem_filter.mp hmem).2
        rw [removeFetch_controllers, setPosts_user, hw.fetches call hcall] at hauthor
        exact hauthor

/-- The client starts or signs out. -/
def EndsSession : Event → Prop
  | .launch _ => True
  | .signOutTapped signOutError => signOutError = false
  | _ => False

/-- The user of the tabs, the account signed in and the listed posts have this name. -/
structure Owned (P : Platform) (name : String) (app : App) : Prop where
  user : ∃ user, app.shared.user = some user ∧ user.name = name
  account : ∃ account, app.currentUser = some account ∧ account.displayName = some name
  listed : ∀ p ∈ app.recentActivity.usersPosts, P.same p.author name

/-- **A session keeps its name**: a timely event other than a start or a sign-out changes neither the
name of the user nor that of the account, and what it lists has that name. -/
theorem Owned.step {name : String} (h : app.Owned P name) (hw : app.Wired) (hn : app.Numbered)
    {e : Event} {os : List Output} (hs : (machine P).Step app e os app') (ht : app.Timely e)
    (he : ¬ EndsSession e) : app'.Owned P name := by
  obtain ⟨user, huser, hname⟩ := h.user
  obtain ⟨account, haccount, hdisplay⟩ := h.account
  have hlisted : ∀ p ∈ app'.recentActivity.usersPosts, P.same p.author name := by
    rcases usersPosts_step hw hn hs with ⟨_, _, -, -, -, hall⟩ | ⟨hsub, -⟩
    · have huserName : app.userName = name := by rw [userName, huser]; exact hname
      exact huserName ▸ hall
    · exact fun p hp => h.listed p (hsub p hp)
  have hen := hs.1
  cases e with
  | launch _ => exact absurd trivial he
  | tabBarDidAppear =>
      obtain ⟨_, _, rfl, -⟩ := tabBarDidAppear_cases hs.2
      exact ⟨h.user, h.account, hlisted⟩
  | signOutTapped signOutError =>
      rcases signOutTapped_cases hs.2 with ⟨-, rfl⟩ | ⟨hno, -⟩
      · exact h
      · exact absurd hno he
  | didSignIn login account' =>
      have hdisplay' := ht user huser
      obtain ⟨_, rfl, -⟩ := didSignIn_cases hs.2
      exact ⟨h.user, ⟨account', rfl, hname ▸ hdisplay'⟩, hlisted⟩
  | locationReply request coordinate =>
      obtain ⟨rfl, -⟩ := Prod.mk.inj (Except.ok.inj hs.2)
      refine ⟨?_, ⟨account, by simpa using haccount, hdisplay⟩, hlisted⟩
      rw [shared, locationReply_tabBar]
      cases coordinate with
      | none => exact ⟨user, (locationReply_none_user ..).trans huser, hname⟩
      | some coordinate =>
          obtain ⟨completion, hc⟩ : ∃ completion, app.locationRequests[request]? = some completion :=
            ⟨_, List.getElem?_eq_getElem hen⟩
          rw [locationReply_user hc]
          by_cases hr : app.recipient completion = some app.tabBar.postController
          · obtain ⟨account', ha, hdisplay'⟩ := ht completion hc hr
            obtain rfl := Option.some.inj (haccount.symm.trans ha)
            refine ⟨_, if_pos hr, ?_⟩
            exact Option.some.inj (hdisplay'.symm.trans hdisplay)
          · exact ⟨user, (if_neg hr).trans huser, hname⟩
  | _ =>
      obtain ⟨hsame, -⟩ := sameSession_of_quiet hs trivial
      refine ⟨⟨user, ?_, hname⟩, ⟨account, hsame.currentUser.trans haccount, hdisplay⟩, hlisted⟩
      rw [shared, hsame.tabBar, hsame.user]
      exact huser

end App

namespace World

variable {P : Platform} {w₀ w w' : World} {is : List (ℕ × Event)} {os : List (ℕ × Output)}

/-- The client's tabs hold a user of this name, which is that of an account that has signed in on
the client. -/
def Named (w₀ : World) (c : ℕ) (pre : List (ℕ × Event)) (v : World) (name : String) : Prop :=
  ∃ user account, (v.clients c).shared.user = some user ∧ user.name = name ∧
    HasSignedIn (w₀.clients c) (ofClient c pre) account ∧ account.displayName = some name

/-- The run passes an answer on which the client fills its recent activity with the posts of this
name, and no later one does. -/
def FilledFor (P : Platform) (w₀ : World) (c : ℕ) (is : List (ℕ × Event)) (w : World)
    (name : String) : Prop :=
  ∃ pre ps v call answer o v' post qs, is = pre ++ (c, .fetchAnswer call.id answer) :: post ∧
    (machine P).Run w₀ pre ps v ∧
    (machine P).Step v (c, .fetchAnswer call.id answer) (o.map (Prod.mk c)) v' ∧
    (machine P).Run v' post qs w ∧
    completions o = [call] ∧ call.completion = .viewWillAppear ∧
    ((v.clients c).shared.user = none ∧ name = "" ∨ Named w₀ c pre v name) ∧
    ∀ call ∈ completions (ofClient c qs), call.completion ≠ .viewWillAppear

/-- The run passes a step on which a client whose controller holds a user of this name creates the
post. -/
def CreatedUnder (P : Platform) (w₀ : World) (is : List (ℕ × Event)) (id name : String) : Prop :=
  ∃ pre ps v c e o v' new, pre ++ [(c, e)] <+: is ∧ (machine P).Run w₀ pre ps v ∧
    (machine P).Step v (c, e) (o.map (Prod.mk c)) v' ∧ .createPost id new ∈ App.updates o ∧
    new.author = name ∧ Named w₀ c pre v name

theorem named_of_user (h₀ : (machine P).start w₀) (h : (machine P).Run w₀ is os w) {c : ℕ}
    {user : CurrentUser} (hu : (w.clients c).shared.user = some user) :
    Named w₀ c is w user.name := by
  obtain ⟨account, hacc, hname⟩ := user_hasSignedIn (h₀.2 c) (client_run h c) hu
  exact ⟨user, account, hu, rfl, hacc, hname⟩

theorem FilledFor.snoc {c : ℕ} {name : String} (h : FilledFor P w₀ c is w name) {i : ℕ × Event}
    {o : List (ℕ × Output)} (hs : (machine P).Step w i o w')
    (ho : ∀ call ∈ completions (ofClient c o), call.completion ≠ .viewWillAppear) :
    FilledFor P w₀ c (is ++ [i]) w' name := by
  obtain ⟨pre, ps, v, call, answer, p, v', post, qs, rfl, hr, hfill, hr', hp, hc, hn, hqs⟩ := h
  refine ⟨pre, ps, v, call, answer, p, v', post ++ [i], qs ++ o, by simp, hr, hfill, hr'.snoc hs,
    hp, hc, hn, fun call hcall => ?_⟩
  rw [ofClient_append, completions_append] at hcall
  rcases List.mem_append.mp hcall with hcall | hcall
  · exact hqs call hcall
  · exact ho call hcall

/-- **Every list is filled by name**: each post recent activity lists has the name the list was
last filled for. -/
theorem usersPosts_filled (h₀ : (machine P).start w₀) (h : (machine P).Run w₀ is os w) (c : ℕ) :
    ∀ p ∈ (w.clients c).recentActivity.usersPosts, ∃ name, P.same p.author name ∧
      FilledFor P w₀ c is w name := by
  refine h.history (P := fun is _ w => ∀ p ∈ (w.clients c).recentActivity.usersPosts, ∃ name,
    P.same p.author name ∧ FilledFor P w₀ c is w name) ?_ ?_
  · obtain ⟨flag, account, signOutError, hc⟩ := h₀.2 c
    rw [hc]
    intro p hp
    cases hp
  · intro is os w i o w' hr ih hs p hp
    obtain ⟨o', hclient, rfl, hothers, -⟩ := step_inv hs
    obtain ⟨d, e⟩ := i
    by_cases hc : c = d
    · subst hc
      have hreach := client_reachable h₀ hr c
      rcases usersPosts_step (wired_of_reachable hreach) (numbered_of_reachable hreach) hclient with
        ⟨call, answer, rfl, hone, hx, hall⟩ | ⟨hsub, hnot⟩
      · refine ⟨_, hall p hp, is, os, w, call, answer, o', w', [], [], rfl, hr, hs, .refl, hone, hx,
          ?_, fun _ hm => by cases hm⟩
        cases hu : (w.clients c).shared.user with
        | none => exact .inl ⟨rfl, by rw [userName, hu]; rfl⟩
        | some user =>
            have hname : (w.clients c).userName = user.name := by rw [userName, hu]; rfl
            exact .inr (hname ▸ named_of_user h₀ hr hu)
      · obtain ⟨name, hsame, hfilled⟩ := ih p (hsub p hp)
        refine ⟨name, hsame, hfilled.snoc hs ?_⟩
        rw [ofClient_map_self]
        exact hnot
    · rw [hothers c hc] at hp
      obtain ⟨name, hsame, hfilled⟩ := ih p hp
      refine ⟨name, hsame, hfilled.snoc hs ?_⟩
      rw [ofClient_map_ne (Ne.symm hc)]
      exact fun _ hm => by cases hm

/-- A created post was created under the name of its author. -/
theorem createdUnder_of_mem (h₀ : (machine P).start w₀) (h : (machine P).Run w₀ is os w)
    {id : String} {new : NewPost} (hm : .createPost id new ∈ updates os) :
    CreatedUnder P w₀ is id new.author := by
  obtain ⟨⟨c', out⟩, hout, rfl : out = _⟩ := List.mem_map.mp (mem_updates.mp hm)
  obtain ⟨pre, ps, v, ⟨c, e⟩, o, v', hp, hr, hs, ho⟩ := h.exists_step_of_mem hout
  obtain ⟨o', hclient, rfl, -, -⟩ := step_inv hs
  obtain ⟨_, hm', he⟩ := List.mem_map.mp ho
  obtain rfl := (Prod.mk.inj he).2
  have hsent := mem_updates.mpr hm'
  obtain ⟨user, huser, hname⟩ := authors_shared (wired_of_reachable (client_reachable h₀ hr c))
    (sends hclient) hsent (show Authors new.author (.createPost id new) from rfl)
  exact ⟨pre, ps, v, c, e, o', v', new, hp, hr, hs, hsent, rfl,
    hname ▸ named_of_user h₀ hr huser⟩

/-- **Deletions go by name.**  In every run of any number of clients, a post that recent activity
deletes was created on some client while its user had some name, and the list it is deleted from
was last filled while the user of the deleting client had a name equal to that one (or, for an
empty one, while there was none).  On both clients the name is that of an account that has signed in
there. -/
theorem deletion_matches_author (h₀ : (machine P).start w₀) (h : (machine P).Run w₀ is os w)
    {c row : ℕ} {o : List (ℕ × Output)} (hs : (machine P).Step w (c, .commitDelete row) o w')
    {id : String} (hid : (c, .write (.removePost id)) ∈ o) :
    ∃ author name, CreatedUnder P w₀ is id author ∧ P.same author name ∧
      FilledFor P w₀ c is w name := by
  obtain ⟨-, new, hnew, hlisted⟩ := commitDelete_deletes h₀ h hs hid
  obtain ⟨name, hsame, hfilled⟩ := usersPosts_filled h₀ h c _ hlisted
  exact ⟨new.author, name, createdUnder_of_mem h₀ h hnew, hsame, hfilled⟩

/-! ### Deleting in the session that filled the list -/

/-- No client gets a late reply or signs in late. -/
def timelyMachine (P : Platform) : Machine World (ℕ × Event) (ℕ × Output) Trap :=
  (machine P).restrict fun w i => (w.clients i.1).Timely i.2

instance [∀ x, Decidable (P.Finite x)] [∀ s, Decidable (P.UUID s)] (w : World) (i : ℕ × Event) :
    Decidable ((timelyMachine P).enabled w i) :=
  inferInstanceAs (Decidable ((machine P).enabled w i ∧ (w.clients i.1).Timely i.2))

theorem currentIdentity_of_timely (h₀ : (machine P).start w₀)
    (h : (timelyMachine P).Run w₀ is os w) (c : ℕ) : (w.clients c).CurrentIdentity := by
  refine h.history (P := fun _ _ w => (w.clients c).CurrentIdentity) ?_ ?_
  · obtain ⟨flag, account, signOutError, hc⟩ := h₀.2 c
    rw [hc]
    exact currentIdentity_of_none rfl
  · intro is os w i o w' hr ih hs
    obtain ⟨hs, htimely⟩ := Machine.restrict_step.mp hs
    obtain ⟨o', hclient, -, hothers, -⟩ := step_inv hs
    by_cases hc : c = i.1
    · subst hc
      have hw := wired_of_reachable (client_reachable h₀ hr.of_restrict i.1)
      exact (currentIdentity_step_iff hw ih hclient).mpr htimely
    · rw [hothers c hc]
      exact ih

/-- The list was filled while the tabs held a user, and the client has neither started nor signed out
since. -/
def FilledInSession (P : Platform) (w₀ : World) (c : ℕ) (is : List (ℕ × Event)) : Prop :=
  ∃ pre ps v call answer o v' post, is = pre ++ (c, .fetchAnswer call.id answer) :: post ∧
    (machine P).Run w₀ pre ps v ∧
    (machine P).Step v (c, .fetchAnswer call.id answer) (o.map (Prod.mk c)) v' ∧
    completions o = [call] ∧ call.completion = .viewWillAppear ∧
    (v.clients c).shared.user ≠ none ∧ ∀ i ∈ post, i.1 = c → ¬ EndsSession i.2

/-- The run passes a step on which a client with this account signed in creates the post. -/
def CreatedBy (P : Platform) (w₀ : World) (is : List (ℕ × Event)) (id : String)
    (account : Account) : Prop :=
  ∃ pre ps v c e o v' new, pre ++ [(c, e)] <+: is ∧ (machine P).Run w₀ pre ps v ∧
    (machine P).Step v (c, e) (o.map (Prod.mk c)) v' ∧ .createPost id new ∈ App.updates o ∧
    (v.clients c).currentUser = some account

/-- The account was signed in on some client at the start, or has signed in on one since. -/
def SignedIn (w₀ : World) (is : List (ℕ × Event)) (account : Account) : Prop :=
  ∃ c, HasSignedIn (w₀.clients c) (ofClient c is) account

/-- The accounts have equal names. -/
def Namesakes (P : Platform) (a b : Account) : Prop :=
  ∃ name name', a.displayName = some name ∧ b.displayName = some name' ∧ P.same name name'

theorem SignedIn.mono {pre : List (ℕ × Event)} {account : Account} (h : SignedIn w₀ pre account)
    (hp : pre <+: is) : SignedIn w₀ is account := by
  obtain ⟨c, h⟩ := h
  obtain ⟨post, rfl⟩ := hp
  refine ⟨c, h.imp_right fun ⟨login, hm⟩ => ⟨login, ?_⟩⟩
  rw [ofClient_append]
  exact List.mem_append_left _ hm

/-- Where the list was filled in the session, it is owned by the name of that session. -/
theorem owned_of_filledInSession (h₀ : (machine P).start w₀)
    (h : (timelyMachine P).Run w₀ is os w) {c : ℕ} (hf : FilledInSession P w₀ c is) :
    ∃ name, (w.clients c).Owned P name := by
  refine h.history (P := fun is _ w => FilledInSession P w₀ c is → ∃ name, (w.clients c).Owned P name)
    ?_ ?_ hf
  · rintro ⟨pre, _, _, _, _, _, _, post, heq, -⟩
    simp at heq
  · rintro is os w i o w' hr ih hs ⟨pre, ps, v, call, answer, q, v', post, heq, hr', hfill, hone,
      hcall, huser, hpost⟩
    obtain ⟨hs, htimely⟩ := Machine.restrict_step.mp hs
    obtain ⟨o', hclient, rfl, hothers, -⟩ := step_inv hs
    rcases List.eq_nil_or_concat post with rfl | ⟨post, j, rfl⟩
    · -- the list is filled in this step
      obtain ⟨rfl, rfl⟩ : is = pre ∧ i = (c, .fetchAnswer call.id answer) := by
        simpa using List.append_inj' heq rfl
      obtain ⟨rfl, -⟩ := hr.of_restrict.unique hr'
      obtain ⟨-, ho⟩ := hs.unique hfill
      have ho : completions o' = [call] := by
        rwa [List.map_injective_iff.mpr (fun _ _ h => (Prod.mk.inj h).2) ho]
      obtain ⟨user, huser⟩ := Option.ne_none_iff_exists'.mp huser
      obtain ⟨account, haccount, hdisplay⟩ := currentIdentity_of_timely h₀ hr c user huser
      obtain ⟨hsame, -⟩ := sameSession_of_quiet hclient trivial
      have hreach := client_reachable h₀ hr.of_restrict c
      rcases usersPosts_step (wired_of_reachable hreach) (numbered_of_reachable hreach) hclient with
        ⟨_, _, -, -, -, hall⟩ | ⟨-, hnot⟩
      · have hname : (w.clients c).userName = user.name := by rw [userName, huser]; rfl
        refine ⟨user.name, ⟨user, ?_, rfl⟩, ⟨account, hsame.currentUser.trans haccount, hdisplay⟩,
          hname ▸ hall⟩
        rw [shared, hsame.tabBar, hsame.user]
        exact huser
      · exact absurd hcall (hnot call (ho ▸ List.mem_singleton_self call))
    · obtain ⟨rfl, rfl⟩ : is = pre ++ (c, .fetchAnswer call.id answer) :: post ∧ i = j := by
        have heq' : is ++ [i] = (pre ++ (c, .fetchAnswer call.id answer) :: post) ++ [j] := by
          simpa using heq
        simpa using List.append_inj' heq' rfl
      simp only [List.concat_eq_append, List.forall_mem_append, List.forall_mem_singleton] at hpost
      obtain ⟨name, howned⟩ := ih ⟨pre, ps, v, call, answer, q, v', post, rfl, hr', hfill, hone,
        hcall, huser, hpost.1⟩
      by_cases hc : c = i.1
      · subst hc
        have hreach := client_reachable h₀ hr.of_restrict i.1
        exact ⟨name, howned.step (wired_of_reachable hreach) (numbered_of_reachable hreach) hclient
          htimely (hpost.2 rfl)⟩
      · exact ⟨name, hothers c hc ▸ howned⟩

/-- A client that creates a post has an account of its author's name signed in. -/
theorem createdBy_of_mem (h₀ : (machine P).start w₀) (h : (timelyMachine P).Run w₀ is os w)
    {id : String} {new : NewPost} (hm : .createPost id new ∈ updates os) :
    ∃ account, CreatedBy P w₀ is id account ∧ SignedIn w₀ is account ∧
      account.displayName = some new.author := by
  obtain ⟨⟨c', out⟩, hout, rfl : out = _⟩ := List.mem_map.mp (mem_updates.mp hm)
  obtain ⟨pre, ps, v, ⟨c, e⟩, o, v', hp, hr, hs, ho⟩ := h.exists_step_of_mem hout
  obtain ⟨hs, -⟩ := Machine.restrict_step.mp hs
  obtain ⟨o', hclient, rfl, -, -⟩ := step_inv hs
  obtain ⟨_, hm', he⟩ := List.mem_map.mp ho
  obtain rfl := (Prod.mk.inj he).2
  have hsent := mem_updates.mpr hm'
  obtain ⟨user, huser, hname⟩ := authors_shared
    (wired_of_reachable (client_reachable h₀ hr.of_restrict c)) (sends hclient) hsent
    (show Authors new.author (.createPost id new) from rfl)
  obtain ⟨account, haccount, hdisplay⟩ := currentIdentity_of_timely h₀ hr c user huser
  have hsigned : SignedIn w₀ pre account :=
    ⟨c, currentUser_hasSignedIn (client_run hr.of_restrict c) haccount⟩
  exact ⟨account, ⟨pre, ps, v, c, e, o', v', new, hp, hr.of_restrict, hs, hsent, haccount⟩,
    hsigned.mono ((List.prefix_append pre [(c, e)]).trans hp), hname ▸ hdisplay⟩

/-- What is created has not been created before. -/
theorem not_created_of_creates (h₀ : (machine P).start w₀) (h : (machine P).Run w₀ is os w) {c : ℕ}
    {e : Event} {o : List Output} (hs : (machine P).Step w (c, e) (o.map (Prod.mk c)) w')
    {id : String} {new : NewPost} (hm : .createPost id new ∈ App.updates o) (new' : NewPost) :
    .createPost id new' ∉ updates os := by
  intro hbefore
  obtain ⟨qs, hposted⟩ := world_refines_database h₀ h
  have hdrawn := (invariant_of_run hposted.of_restrict).drawn id
    (mem_created_of_run hposted.of_restrict hbefore)
  obtain ⟨o', hclient, ho, -, -⟩ := step_inv hs
  obtain rfl : o = o' := List.map_injective_iff.mpr (fun _ _ h => (Prod.mk.inj h).2) ho
  have hpossible : w.Possible P e := hs.1.2
  have hsends := sends hclient
  generalize App.updates o = us at hm hsends
  cases hsends with
  | nothing => cases hm
  | post _ _ =>
      obtain ⟨rfl, -⟩ := Update.createPost.inj (List.mem_singleton.mp hm)
      exact hpossible.2.2.2 hdrawn
  | comment _ _ => simp at hm
  | delete _ => simp [PostController.deletePostandItsComments] at hm

/-- **A post has one creator.** -/
theorem CreatedBy.unique (h₀ : (machine P).start w₀) {id : String} {a b : Account}
    (ha : CreatedBy P w₀ is id a) (hb : CreatedBy P w₀ is id b) : a = b := by
  obtain ⟨pre, ps, v, c, e, o, v', new, hp, hr, hs, hm, hcur⟩ := ha
  obtain ⟨pre', ps', u, d, f, o', u', new', hp', hr', hs', hm', hcur'⟩ := hb
  have hlater : ∀ {pre pre' : List (ℕ × Event)} {ps ps' : List (ℕ × Output)} {v v' u u' : World}
      {c d : ℕ} {e f : Event} {o o' : List Output} {new new' : NewPost},
      (machine P).Run w₀ pre ps v → (machine P).Step v (c, e) (o.map (Prod.mk c)) v' →
      .createPost id new ∈ App.updates o → (machine P).Run w₀ pre' ps' u →
      (machine P).Step u (d, f) (o'.map (Prod.mk d)) u' → .createPost id new' ∈ App.updates o' →
      ¬ pre ++ [(c, e)] <+: pre' := by
    rintro pre pre' ps ps' v v' u u' c d e f o o' new new' hr hs hm hr' hs' hm' ⟨post, rfl⟩
    obtain ⟨t, qs, rs, hcut, -, rfl⟩ := hr'.append_inv
    obtain ⟨-, rfl⟩ := (hr.snoc hs).unique hcut
    refine not_created_of_creates h₀ hr' hs' hm' new ?_
    rw [updates_append, updates_append, updates_map_client]
    exact List.mem_append_left _ (List.mem_append_right _ hm)
  have heq : pre ++ [(c, e)] = pre' ++ [(d, f)] := by
    rcases List.prefix_or_prefix_of_prefix hp hp' with hle | hle
    · exact (List.prefix_concat_iff.mp hle).resolve_right (hlater hr hs hm hr' hs' hm')
    · exact ((List.prefix_concat_iff.mp hle).resolve_right (hlater hr' hs' hm' hr hs hm)).symm
  obtain ⟨rfl, he⟩ := List.append_inj' heq rfl
  obtain ⟨rfl, -⟩ := Prod.mk.inj (List.singleton_inj.mp he)
  obtain ⟨rfl, -⟩ := hr.unique hr'
  exact Option.some.inj (hcur.symm.trans hcur')

/-- **When only the creator deletes.**  In every run of any number of clients without late replies
and sign-ins, take a swipe-delete from a list that was filled, while the tabs held a user, since the
client last started or signed out.  It is sent while an account is signed in, the post has one
creator, and the two have equal names; so they are one account if no two accounts that sign in have
equal names. -/
theorem creator_deletes (h₀ : (machine P).start w₀) (h : (timelyMachine P).Run w₀ is os w)
    {c row : ℕ} {o : List (ℕ × Output)} (hs : (machine P).Step w (c, .commitDelete row) o w')
    (hfilled : FilledInSession P w₀ c is) {id : String} (hid : (c, .write (.removePost id)) ∈ o) :
    ∃ account creator, (w.clients c).currentUser = some account ∧
      (∀ a, CreatedBy P w₀ is id a ↔ a = creator) ∧ Namesakes P creator account ∧
      ((∀ a b, SignedIn w₀ is a → SignedIn w₀ is b → Namesakes P a b → a = b) →
        creator = account) := by
  obtain ⟨-, new, hnew, hlisted⟩ := commitDelete_deletes h₀ h.of_restrict hs hid
  obtain ⟨creator, hcreated, hsigned, hname⟩ := createdBy_of_mem h₀ h hnew
  obtain ⟨name, howned⟩ := owned_of_filledInSession h₀ h hfilled
  obtain ⟨account, haccount, hdisplay⟩ := howned.account
  have hsame : P.same new.author name := howned.listed _ hlisted
  have hnamesakes : Namesakes P creator account := ⟨_, _, hname, hdisplay, hsame⟩
  have hsigned' : SignedIn w₀ is account :=
    ⟨c, currentUser_hasSignedIn (client_run h.of_restrict c) haccount⟩
  refine ⟨account, creator, haccount, fun a => ⟨fun ha => ha.unique h₀ hcreated, ?_⟩, hnamesakes,
    fun hdistinct => hdistinct _ _ hsigned hsigned' hnamesakes⟩
  rintro rfl
  exact hcreated

/-- One client signs in and posts. -/
def postedA : List (ℕ × Event) :=
  signedIn ++ [(0, .postButtonTapped sampleForm 1580774400 "6F96-8B86")]

/-- It looks at its own posts. -/
def opensOwn : List (ℕ × Event) :=
  [(0, .recentActivityWillAppear),
    (0, .fetchAnswer 2 (.value (.object [storedSample "6F96-8B86"]))), (0, .mainQueueBlock)]

/-- The list outlives the session: after the sign-out, before the next answer, nobody is signed in. -/
theorem deleted_after_signOut : (machine .decimal).start emptyWorld ∧ ∃ os w w' o,
    (machine .decimal).Run emptyWorld
      (postedA ++ opensOwn ++ [(0, .signOutTapped false), (0, .recentActivityWillAppear)]) os w ∧
    (0, .write (.createPost "6F96-8B86" sampleNew)) ∈ os ∧ (w.clients 0).currentUser = none ∧
    (machine .decimal).Step w (0, .commitDelete 0) o w' ∧
    (0, .write (.removePost "6F96-8B86")) ∈ o := by
  obtain ⟨os, w, hr, hnew, hnobody, hen, ⟨w', o⟩, hs, hid⟩ := Machine.Run.exists_of_exec
    (M := machine .decimal) (s := emptyWorld)
    (l := postedA ++ opensOwn ++ [(0, .signOutTapped false), (0, .recentActivityWillAppear)])
    (Q := fun w os => (0, .write (.createPost "6F96-8B86" sampleNew)) ∈ os ∧
      (w.clients 0).currentUser = none ∧ (machine .decimal).enabled w (0, .commitDelete 0) ∧
      ∃ r ∈ ((machine .decimal).step w (0, .commitDelete 0)).toOption,
        (0, .write (.removePost "6F96-8B86")) ∈ r.2)
    (by decide +kernel) (by decide +kernel)
  exact ⟨start_emptyWorld _, os, w, w', o, hr, hnew, hnobody, Machine.Step.of_mem_toOption hen hs, hid⟩

/-- Another client signs in with another account and posts. -/
def postedB : List (ℕ × Event) :=
  [(1, .tabBarDidAppear), (1, .didSignIn 0 accountB), (1, .locationReply 0 (some home)),
    (1, .postButtonTapped sampleForm 1580774500 "B42D-00CF")]

/-- The first client fetches both posts for its own list. -/
def fillsOwn : ℕ × Event :=
  (0, .fetchAnswer 2 (.value (.object [storedSample "6F96-8B86",
    ("B42D-00CF", ((sampleBy "B" home 1580774500).post "B42D-00CF").stored)])))

theorem distinct_accounts {a : Account}
    (h : SignedIn emptyWorld (postedA ++ postedB ++ [(0, .recentActivityWillAppear), fillsOwn,
      (0, .mainQueueBlock)]) a) : a = accountA ∨ a = accountB := by
  obtain ⟨c, hnobody | ⟨login, hm⟩⟩ := h
  · cases hnobody
  · obtain ⟨⟨d, e⟩, hm, he⟩ := List.mem_filterMap.mp hm
    split at he
    · obtain rfl := Option.some.inj he
      simp only [postedA, postedB, signedIn, fillsOwn, List.cons_append, List.nil_append,
        List.mem_cons, Prod.mk.injEq, reduceCtorEq, and_false, false_or, or_false,
        Event.didSignIn.injEq, List.not_mem_nil] at hm
      rcases hm with ⟨-, -, rfl⟩ | ⟨-, -, rfl⟩
      · exact .inl rfl
      · exact .inr rfl
    · cases he

theorem creator_deletes_sample : ∃ os w w' o,
    (timelyMachine .decimal).Run emptyWorld (postedA ++ postedB ++
      [(0, .recentActivityWillAppear), fillsOwn, (0, .mainQueueBlock)]) os w ∧
    (machine .decimal).Step w (0, .commitDelete 0) o w' ∧
    (0, .write (.removePost "6F96-8B86")) ∈ o ∧ (w.clients 0).currentUser = some accountA ∧
    CreatedBy .decimal emptyWorld (postedA ++ postedB ++
      [(0, .recentActivityWillAppear), fillsOwn, (0, .mainQueueBlock)]) "6F96-8B86" accountA := by
  obtain ⟨os, v, hr, huser, hen, ⟨v', o⟩, hs, ho, hen', ⟨w, o'⟩, hs', hcur, hen'', ⟨w', o''⟩, hs'',
    hid⟩ := Machine.Run.exists_of_exec (M := timelyMachine .decimal) (s := emptyWorld)
    (l := postedA ++ postedB ++ [(0, .recentActivityWillAppear)])
    (Q := fun v _ => (v.clients 0).shared.user ≠ none ∧
      (timelyMachine .decimal).enabled v fillsOwn ∧
      ∃ r ∈ ((timelyMachine .decimal).step v fillsOwn).toOption,
        r.2 = [(0, .completed ⟨2, 0, .viewWillAppear⟩)] ∧
        (timelyMachine .decimal).enabled r.1 (0, .mainQueueBlock) ∧
        ∃ r' ∈ ((timelyMachine .decimal).step r.1 (0, .mainQueueBlock)).toOption,
          (r'.1.clients 0).currentUser = some accountA ∧
          (machine .decimal).enabled r'.1 (0, .commitDelete 0) ∧
          ∃ r'' ∈ ((machine .decimal).step r'.1 (0, .commitDelete 0)).toOption,
            (0, .write (.removePost "6F96-8B86")) ∈ r''.2)
    (by decide +kernel) (by decide +kernel)
  have hfill := Machine.Step.of_mem_toOption hen hs
  have hblock := Machine.Step.of_mem_toOption hen' hs'
  have hdelete := Machine.Step.of_mem_toOption hen'' hs''
  have hrun := (hr.snoc hfill).snoc hblock
  simp only [List.append_assoc, List.cons_append, List.nil_append] at hrun
  have hfilled : FilledInSession .decimal emptyWorld 0 (postedA ++ (postedB ++
      [(0, .recentActivityWillAppear), fillsOwn, (0, .mainQueueBlock)])) :=
    ⟨_, os, v, ⟨2, 0, .viewWillAppear⟩, _, [.completed ⟨2, 0, .viewWillAppear⟩], v',
      [(0, .mainQueueBlock)], by simp [fillsOwn], hr.of_restrict,
      ho ▸ (Machine.restrict_step.mp hfill).1, rfl, rfl, huser, by simp [EndsSession]⟩
  obtain ⟨account, creator, haccount, hcreated, -, hsame⟩ :=
    creator_deletes (start_emptyWorld _) hrun hdelete hfilled hid
  obtain rfl : creator = account := hsame fun a b ha hb hnames => by
    rw [← List.append_assoc] at ha hb
    rcases distinct_accounts ha with rfl | rfl <;> rcases distinct_accounts hb with rfl | rfl
    · rfl
    · obtain ⟨_, _, hname, hname', hsame⟩ := hnames
      cases hname
      cases hname'
      exact absurd hsame (by decide +kernel)
    · obtain ⟨_, _, hname, hname', hsame⟩ := hnames
      cases hname
      cases hname'
      exact absurd hsame (by decide +kernel)
    · rfl
  obtain rfl := Option.some.inj (haccount.symm.trans hcur)
  rw [← List.append_assoc] at hrun hcreated
  exact ⟨_, w, w', o'', hrun, hdelete, hid, hcur, (hcreated _).mpr rfl⟩

/-! Another client, with another name and with the same. -/

def namesakeA : Account := ⟨"uid-c", some "A"⟩

/-- Another client signs in with a namesake and looks at its own posts. -/
def namesakeOpens : List (ℕ × Event) :=
  [(1, .tabBarDidAppear), (1, .didSignIn 0 namesakeA), (1, .locationReply 0 (some home)),
    (1, .recentActivityWillAppear),
    (1, .fetchAnswer 0 (.value (.object [storedSample "6F96-8B86"]))), (1, .mainQueueBlock)]

/-- The namesake deletes a post it did not create. -/
theorem namesake_deletes : (machine .decimal).start emptyWorld ∧ ∃ os w,
    (machine .decimal).Run emptyWorld (postedA ++ namesakeOpens ++ [(1, .commitDelete 0)]) os w ∧
    (∃ new, (0, .write (.createPost "6F96-8B86" new)) ∈ os) ∧
    (1, .write (.removePost "6F96-8B86")) ∈ os ∧
    (w.clients 0).currentUser = some accountA ∧ (w.clients 1).currentUser = some namesakeA := by
  obtain ⟨os, w, hr, hnew, hq⟩ := Machine.Run.exists_of_exec (M := machine .decimal)
    (s := emptyWorld) (l := postedA ++ namesakeOpens ++ [(1, .commitDelete 0)])
    (Q := fun w os => (0, .write (.createPost "6F96-8B86" sampleNew)) ∈ os ∧
      (1, .write (.removePost "6F96-8B86")) ∈ os ∧
      (w.clients 0).currentUser = some accountA ∧ (w.clients 1).currentUser = some namesakeA)
    (by decide +kernel) (by decide +kernel)
  exact ⟨start_emptyWorld _, os, w, hr, ⟨_, hnew⟩, hq⟩

theorem deletion_matches_author_sample : ∃ os w,
    (machine .decimal).Run emptyWorld (postedA ++ namesakeOpens) os w ∧
    ∃ author name, CreatedUnder .decimal emptyWorld (postedA ++ namesakeOpens) "6F96-8B86" author ∧
      Platform.decimal.same author name ∧ FilledFor .decimal emptyWorld 1 (postedA ++ namesakeOpens) w name := by
  obtain ⟨os, w, hr, hen, ⟨w', o⟩, hs, hid⟩ := Machine.Run.exists_of_exec (M := machine .decimal)
    (s := emptyWorld) (l := postedA ++ namesakeOpens)
    (Q := fun w _ => (machine .decimal).enabled w (1, .commitDelete 0) ∧
      ∃ r ∈ ((machine .decimal).step w (1, .commitDelete 0)).toOption,
        (1, .write (.removePost "6F96-8B86")) ∈ r.2)
    (by decide +kernel) (by decide +kernel)
  have hdelete := Machine.Step.of_mem_toOption hen hs
  exact ⟨os, w, hr, deletion_matches_author (start_emptyWorld _) hr hdelete hid⟩

end World
end ZipR
