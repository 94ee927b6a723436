import ZipR.RepoSteps

/-! # Runs of the repository

What holds however the app, the network and the server go on, when the server answers in order.

* **Safety.** Apart from an error of the server only a purge while completions are held back fails
  (`repo_fails_iff`).
* **Views.** Every complete view shows the data received so far after the writes whose completion has
  not been called (`views_of_run`).
* **Listens.** What is observed is listened to, and no registration is lost without notice
  (`observed_of_run`). -/

namespace ZipR

open Reactive Patches Comparators Coverage FSyncTree NSMutableDictionary

variable {κ σ : Type}

namespace FRepo

variable [DecidableEq κ] [DecidableEq σ] [Comparators κ]
variable {self self' : FRepo κ σ}

section lawful
variable [LawfulComparators κ]

/-! ### Runs -/

/-- The writes that are made, with their ids. -/
def writes (es : List (Event κ σ)) : List (FWriteRecord κ σ) :=
  es.foldl (fun ws e => ws ++ e.writes ws.length) []

/-- The data received so far. -/
def received (es : List (Event κ σ)) : Node κ σ := es.foldl Event.receive .emptyNode

/-- Inner paths have no value: what is received has none there, and a write is below inner paths. -/
def Event.Fits (inner : List κ → Prop) : Event κ σ → Prop
  | .set path _ => ∀ q, q <+: path → q ≠ path → inner q
  | .onDataUpdate path data => ∀ q, inner (path ++ q) → data.node.view q = none
  | _ => True

omit [DecidableEq κ] [DecidableEq σ] [LawfulComparators κ] in
theorem writes_snoc (es : List (Event κ σ)) (e : Event κ σ) :
    writes (es ++ [e]) = writes es ++ e.writes (writes es).length := by
  simp [writes]

omit [DecidableEq κ] [DecidableEq σ] [LawfulComparators κ] in
theorem received_snoc (es : List (Event κ σ)) (e : Event κ σ) :
    received (es ++ [e]) = Event.receive (received es) e := by
  simp [received]

omit [DecidableEq κ] [DecidableEq σ] in
/-- Inner paths keep having no value. -/
theorem inner_receive {inner : List κ → Prop} {server : Node κ σ} (hs : server.WellFormed)
    (h : ∀ q, inner q → server.view q = none) {e : Event κ σ} (he : e.Fits inner) {q : List κ}
    (hq : inner q) : (Event.receive server e).view q = none := by
  cases e with
  | onDataUpdate path data =>
      rw [Event.receive, Node.view_updateChild hs data.wellFormed]
      rcases position_cases path q with ⟨r, rfl⟩ | ⟨r, rfl⟩ | ⟨hpath, hdiverge⟩
      · cases r with
        | nil =>
            have hself := View.overwrite_append q [] data.node.view server.view
            rw [List.append_nil] at hself
            rw [List.append_nil, hself]
            exact he [] (by simpa using hq)
        | cons k r =>
            rw [View.overwrite_above, h q hq, ite_self]
      · rw [View.overwrite_append]
        exact he r hq
      · rw [View.overwrite_of_diverge _ _ hpath hdiverge]
        exact h q hq
  | _ => exact h q hq

variable {es : List (Event κ σ)} {os : List (Output κ)}

/-- What holds after a run. -/
structure Ran (inner : List κ → Prop) (es : List (Event κ σ)) (os : List (Output κ))
    (repo : FRepo κ σ) : Prop where
  accounted : repo.Accounted []
  listening : repo.Listening
  pending : ∃ acked, writes es = acked ++ repo.pending ∧ completed os = acked.map key
  counter : repo.writeIdCounter = (writes es).length
  synced : (∀ e ∈ es, e.Fits inner) → repo.serverSyncTree.Synced (received es) ∧
    (∀ q, inner q → (received es).view q = none) ∧
    ∀ r ∈ writes es, ∀ q, q <+: r.path → q ≠ r.path → inner q

omit [DecidableEq κ] [DecidableEq σ] in
theorem Ran.snoc {inner : List κ → Prop} (h : Ran inner es os self) {e : Event κ σ}
    {ps : List (Output κ)} (hs : Handled self e self' ps) :
    Ran inner (es ++ [e]) (os ++ ps) self' := by
  obtain ⟨acked, hacked, hcompleted⟩ := h.pending
  obtain ⟨acked', hacked', hcompleted'⟩ := hs.pending
  rw [h.counter] at hacked'
  have hcount := hs.counter
  rw [h.counter] at hcount
  refine ⟨hs.accounted, hs.listening, ⟨acked ++ acked', ?_, ?_⟩, ?_, fun hfits => ?_⟩
  · rw [writes_snoc, List.append_assoc, ← hacked', ← List.append_assoc, ← hacked]
  · rw [completed_append, hcompleted, hcompleted', List.map_append]
  · rw [writes_snoc, List.length_append, hcount]
    rfl
  · rw [List.forall_mem_append] at hfits
    obtain ⟨hsynced, hinner, hwrites⟩ := h.synced hfits.1
    have he : e.Fits inner := hfits.2 e (List.mem_singleton_self e)
    have hinner' : ∀ q, inner q → (Event.receive (received es) e).view q = none := fun q =>
      inner_receive hsynced.serves.wellFormed hinner he
    have hpending : ∀ r ∈ self.pending, ∀ q, q <+: r.path → q ≠ r.path → inner q := fun r hr =>
      hwrites r (hacked ▸ List.mem_append_right _ hr)
    have hclear : e.Clear self (received es) := by
      cases e with
      | onDataUpdate path data => exact fun r hr q hq hne => hinner' q (hpending r hr q hq hne)
      | set path newNode => exact fun q hq hne => hinner q (he q hq hne)
      | _ => trivial
    rw [received_snoc, writes_snoc]
    refine ⟨hs.synced _ hsynced hclear, hinner', List.forall_mem_append.mpr ⟨hwrites, ?_⟩⟩
    cases e with
    | set path newNode => exact List.forall_mem_singleton.mpr he
    | _ => nofun

omit [LawfulComparators κ] in
theorem step_fails (h : self.Accounted []) {e : Event κ σ} (he : e.Fails self) :
    ∃ assertion, self.step e = .error assertion := by
  cases e with
  | network e =>
      cases e with
      | requestError error => exact ⟨_, rfl⟩
      | _ => exact he.elim
  | purgeOutstandingWrites => exact ⟨_, purge_fails h he⟩
  | _ => exact he.elim

/-- A step that is taken did not fail. -/
theorem handled_of_step (h : self.Accounted []) (hl : self.Listening) {e : Event κ σ}
    {ps : List (Output κ)} (hs : (inOrder κ σ).Step self e ps self') : Handled self e self' ps := by
  obtain ⟨⟨hen, hstep⟩, horder⟩ := Machine.restrict_step.mp hs
  have hfails : ¬ e.Fails self := fun he => by
    obtain ⟨assertion, herror⟩ := step_fails h he
    cases herror.symm.trans hstep
  obtain ⟨t, qs, hok, hhandled⟩ := handled_step h hl hen horder hfails
  obtain ⟨rfl, rfl⟩ := Prod.mk.inj (Except.ok.inj (hok.symm.trans hstep))
  exact hhandled

theorem ran_of_run (inner : List κ → Prop) (h : (inOrder κ σ).Run init es os self) :
    Ran inner es os self := by
  refine h.history (P := Ran inner) ?_ fun es os s e ps s' _ ih hs =>
    ih.snoc (handled_of_step ih.accounted ih.listening hs)
  exact ⟨.init, .init, ⟨[], rfl, rfl⟩, rfl, fun _ =>
    ⟨FSyncTree.Synced.init, fun q _ => Node.view_emptyNode q, nofun⟩⟩

/-- The registrations and the data of the views after more events. -/
structure Observed (repo : FRepo κ σ) (es : List (Event κ σ)) (os : List (Output κ))
    (repo' : FRepo κ σ) : Prop where
  accounted : repo'.Accounted []
  listening : repo'.Listening
  new : ∀ p r, Registered repo'.serverSyncTree.syncPointTree p r →
    Registered repo.serverSyncTree.syncPointTree p r ∨ .addEventRegistration r p ∈ es
  kept : ∀ p r, r.cancelCallback = true → Registered repo.serverSyncTree.syncPointTree p r →
    Registered repo'.serverSyncTree.syncPointTree p r ∨ (∃ e ∈ es, e.Removes p r) ∨
      ∃ status, .cancelEvent r p status ∈ os
  complete : ∀ p, (∀ r, .addEventRegistration r p ∉ es) →
    repo.hasData p = true ∨ (∃ e ∈ es, e.Arrives p) →
      Viewed repo'.serverSyncTree.syncPointTree p → repo'.hasData p = true

omit [DecidableEq κ] [DecidableEq σ] [LawfulComparators κ] in
theorem hasData_of_complete {p : List κ} {view : FView κ σ}
    (hview : viewAt self.serverSyncTree.syncPointTree p = some view) (hcomplete : Complete view) :
    self.hasData p = true := by
  rw [hasData, hview]
  exact hcomplete

omit [DecidableEq κ] [DecidableEq σ] [LawfulComparators κ] in
theorem Observed.snoc {repo : FRepo κ σ} (h : Observed repo es os self) {e : Event κ σ}
    {ps : List (Output κ)} (hs : Handled self e self' ps) :
    Observed repo (es ++ [e]) (os ++ ps) self' := by
  refine ⟨hs.accounted, hs.listening, fun p r hr => ?_, fun p r hcallback hr => ?_,
    fun p hadd hdata hviewed => ?_⟩
  · rcases hs.observes.new p r hr with hr | rfl
    · exact (h.new p r hr).imp_right fun hmem => List.mem_append_left [e] hmem
    · exact .inr (List.mem_append_right es List.mem_cons_self)
  · rcases h.kept p r hcallback hr with hr | ⟨e', he', hremoves⟩ | ⟨status, hmem⟩
    · rcases hs.observes.kept p r hcallback hr with hr | hremoves | ⟨status, hmem⟩
      · exact .inl hr
      · exact .inr (.inl ⟨e, List.mem_append_right es List.mem_cons_self, hremoves⟩)
      · exact .inr (.inr ⟨status, List.mem_append_right os hmem⟩)
    · exact .inr (.inl ⟨e', List.mem_append_left [e] he', hremoves⟩)
    · exact .inr (.inr ⟨status, List.mem_append_left ps hmem⟩)
  · -- the view was there before, with a registration
    obtain ⟨r, hr⟩ := hs.listening.registered p hviewed
    have hold : Viewed self.serverSyncTree.syncPointTree p :=
      ((hs.observes.new p r hr).resolve_right fun he => hadd r
        (List.mem_append_right es (he ▸ List.mem_cons_self))).viewed
    obtain ⟨view, hview⟩ := Option.ne_none_iff_exists'.mp hold
    obtain ⟨view', hview'⟩ := Option.ne_none_iff_exists'.mp hviewed
    refine hasData_of_complete hview' (hs.observes.complete p view view' hview hview' ?_)
    have hbefore : repo.hasData p = true ∨ (∃ e ∈ es, e.Arrives p) → Complete view := fun hdata => by
      obtain ⟨wiew, hwiew, hcomplete⟩ := exists_complete
        (h.complete p (fun r hmem => hadd r (List.mem_append_left [e] hmem)) hdata hold)
      exact Option.some.inj (hwiew.symm.trans hview) ▸ hcomplete
    rcases hdata with hdata | ⟨e', he', harrives⟩
    · exact .inl (hbefore (.inl hdata))
    · rcases List.mem_append.mp he' with he' | he'
      · exact .inl (hbefore (.inr ⟨e', he', harrives⟩))
      · exact .inr (List.mem_singleton.mp he' ▸ harrives)

theorem observed_of_later (h : self.Accounted []) (hl : self.Listening)
    (hr : (inOrder κ σ).Run self es os self') : Observed self es os self' := by
  refine hr.history (P := Observed self) ?_ fun es os s e ps s' _ ih hs =>
    ih.snoc (handled_of_step ih.accounted ih.listening hs)
  exact ⟨h, hl, fun p r hr => .inl hr, fun p r _ hr => .inl hr,
    fun p _ hdata _ => hdata.resolve_right (by simp)⟩

end lawful

section sample
open FUtilities

/-! ### A run -/

def posts : Key := ⟨[80, 111, 115, 116, 115], by rintro ⟨n, hn⟩; simp at hn⟩
def first : Key := ⟨[97], by rintro ⟨n, hn⟩; simp at hn⟩
def second : Key := ⟨[98], by rintro ⟨n, hn⟩; simp at hn⟩

def text (value : String) : FNode Key String := ⟨.leaf value, Node.wellFormed_leaf value⟩

/-- The posts with the first one. -/
def stored : FNode Key String :=
  ⟨Node.emptyNode.updateChild [first] (text "a").node,
    Node.wellFormed_emptyNode.updateChild [first] (text "a").wellFormed⟩

/-- A connection is opened. -/
def opened : List (Event Key String) :=
  [.network (.resume .waitingForOpen), .network .retry, .network (.token 1 (some none)),
    .network .handshake, .network (.response 1 "ok" none)]

/-- The posts are observed and their data come; the first one is observed below them. -/
def observing : List (Event Key String) :=
  opened ++ [.addEventRegistration ⟨1, true⟩ [posts], .onDataUpdate [posts] stored,
    .network (.response 2 "ok" none), .addEventRegistration ⟨2, false⟩ [posts, first]]

/-- A second post is made while the connection is lost. -/
def postedOffline : List (Event Key String) :=
  observing ++ [.network .connectionLost, .set [posts, second] (text "b")]

/-- No value is at the root and at the posts. -/
def Inner (p : List Key) : Prop := p = [] ∨ p = [posts]

theorem fits_postedOffline : ∀ e ∈ postedOffline, e.Fits Inner := by
  simp only [postedOffline, observing, opened, List.cons_append, List.nil_append, List.forall_mem_cons,
    Event.Fits, List.not_mem_nil, false_imp_iff, implies_true, and_true, true_and]
  constructor
  · intro q hq
    obtain rfl : q = [] := by simpa [Inner] using hq
    decide +kernel
  · intro q hq hne
    have hposts : q <+: [] ++ [posts] :=
      (List.prefix_concat_iff.mp (hq : q <+: [posts] ++ [second])).resolve_left hne
    exact (List.prefix_concat_iff.mp hposts).symm.imp List.prefix_nil.mp id

variable [LawfulComparators κ] {es es' : List (Event κ σ)} {os os' : List (Output κ)}

/-! ### Results -/

/-- **Every complete view shows the received data after the pending writes**: those whose completion
has not been called, in their order.  A view at or below a pending write shows it even without data. -/
theorem views_of_run {inner : List κ → Prop} (h : (inOrder κ σ).Run init es os self)
    (hfits : ∀ e ∈ es, e.Fits inner) :
    ∃ acked pending, writes es = acked ++ pending ∧ completed os = acked.map key ∧
      ∀ p view, viewAt self.serverSyncTree.syncPointTree p = some view →
        (Complete view → view.viewCache = .whole
          ((FWriteTree.after pending (received es)).getChild p) ((received es).getChild p)) ∧
        ((∃ w ∈ pending, w.path <+: p) → view.viewCache.cachedEventSnap =
          ⟨(FWriteTree.after pending (received es)).getChild p, true⟩) := by
  have hran := ran_of_run inner h
  obtain ⟨hsynced, -⟩ := hran.synced hfits
  obtain ⟨acked, hacked, hcompleted⟩ := hran.pending
  refine ⟨acked, self.pending, hacked, hcompleted, fun p view hp => ?_⟩
  have hshown : self.serverSyncTree.pendingWriteTree.eventData (received es) =
      FWriteTree.after self.pending (received es) := by
    rw [FWriteTree.eventData, List.filter_eq_self.mpr hsynced.visible]
    rfl
  obtain ⟨hwhole, hshadowed⟩ := hsynced.views p view hp
  rw [hshown] at hwhole hshadowed
  refine ⟨hwhole, fun hcovered => hshadowed ?_⟩
  obtain ⟨w, hw, hwp⟩ := hcovered
  refine (shadowingWrite_iff hsynced.layered hsynced.visible).mpr ⟨w, hw, ?_⟩
  rw [List.append_nil]
  exact hwp

theorem views_of_run_sample : ∃ os s, (inOrder Key String).Run init postedOffline os s ∧
    s.pending.length = 1 ∧ s.hasData [posts] = true ∧ s.hasData [posts, first] = true ∧
    ∃ acked pending, writes postedOffline = acked ++ pending ∧ completed os = acked.map key ∧
      ∀ p view, viewAt s.serverSyncTree.syncPointTree p = some view →
        (Complete view → view.viewCache = .whole
          ((FWriteTree.after pending (received postedOffline)).getChild p)
          ((received postedOffline).getChild p)) ∧
        ((∃ w ∈ pending, w.path <+: p) → view.viewCache.cachedEventSnap =
          ⟨(FWriteTree.after pending (received postedOffline)).getChild p, true⟩) := by
  obtain ⟨os, s, hr, hpending, hposts, hfirst⟩ := Machine.Run.exists_of_exec
    (M := inOrder Key String) (s := init) (l := postedOffline)
    (Q := fun s _ => s.pending.length = 1 ∧ s.hasData [posts] = true ∧
      s.hasData [posts, first] = true) (by decide +kernel) (by decide +kernel)
  exact ⟨os, s, hr, hpending, hposts, hfirst, views_of_run hr fits_postedOffline⟩

/-- **What is observed is listened to**: a path has a view as long as it has registrations, the
connection listens to the topmost of these paths, so that each has exactly one listen at or above it.
Registrations come and go by the app's requests, or they get a cancel event; and a view has data once
they came. -/
theorem observed_of_run (h : (inOrder κ σ).Run init es os self)
    (hr : (inOrder κ σ).Run self es' os' self') :
    (∀ p, Viewed self'.serverSyncTree.syncPointTree p ↔
      ∃ r, Registered self'.serverSyncTree.syncPointTree p r) ∧
    (∀ q, q ∈ self'.connection.listens.map Prod.fst ↔
      Topmost (Viewed self'.serverSyncTree.syncPointTree) q) ∧
    (∀ p, Viewed self'.serverSyncTree.syncPointTree p →
      ∃! q, q <+: p ∧ q ∈ self'.connection.listens.map Prod.fst) ∧
    (∀ p r, Registered self'.serverSyncTree.syncPointTree p r →
      Registered self.serverSyncTree.syncPointTree p r ∨ .addEventRegistration r p ∈ es') ∧
    (∀ p r ps t, (inOrder κ σ).Step self' (.addEventRegistration r p) ps t →
      Registered t.serverSyncTree.syncPointTree p r) ∧
    (∀ p r, r.cancelCallback = true → Registered self.serverSyncTree.syncPointTree p r →
      Registered self'.serverSyncTree.syncPointTree p r ∨ (∃ e ∈ es', e.Removes p r) ∨
        ∃ status, .cancelEvent r p status ∈ os') ∧
    ∀ p, (∀ r, .addEventRegistration r p ∉ es') →
      self.hasData p = true ∨ (∃ e ∈ es', e.Arrives p) →
        Viewed self'.serverSyncTree.syncPointTree p → self'.hasData p = true := by
  have hran := ran_of_run (fun _ => False) h
  have hobserved := observed_of_later hran.accounted hran.listening hr
  have hlistening := hobserved.listening
  refine ⟨fun p => ⟨hlistening.registered p, fun hp => ?_⟩, hlistening.listens,
    fun p hp => ?_, hobserved.new, fun p r ps t hs => ?_, hobserved.kept, hobserved.complete⟩
  · obtain ⟨r, hr⟩ := hp
    exact hr.viewed
  · simp only [hlistening.listens]
    exact existsUnique_topmost ⟨p, List.prefix_rfl, hp⟩
  · exact (handled_of_step hobserved.accounted hlistening hs).observes.added p r rfl

/-- The listen of the posts is revoked, and the first one is listened to instead. -/
theorem observed_of_run_sample : ∃ os s os' s', (inOrder Key String).Run init observing os s ∧
    (inOrder Key String).Run s [.onListenRevoked [posts]] os' s' ∧
    s'.connection.listens.map Prod.fst = [[posts, first]] ∧
    ∃! q, q <+: [posts, first] ∧ q ∈ s'.connection.listens.map Prod.fst := by
  obtain ⟨os, s', hrun, hlistens, hdata⟩ := Machine.Run.exists_of_exec (M := inOrder Key String)
    (s := init) (l := observing ++ [.onListenRevoked [posts]])
    (Q := fun s _ => s.connection.listens.map Prod.fst = [[posts, first]] ∧
      s.hasData [posts, first] = true) (by decide +kernel) (by decide +kernel)
  obtain ⟨s, os, os', hr, hr', rfl⟩ := hrun.append_inv
  obtain ⟨view, hview, -⟩ := exists_complete hdata
  obtain ⟨-, -, hcovered, -⟩ := observed_of_run hr hr'
  exact ⟨os, s, os', s', hr, hr', hlistens, hcovered _ (by simp [Viewed, hview])⟩

end sample

end FRepo
end ZipR
