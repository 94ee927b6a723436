import Mathlib.Data.List.Nodup
import ZipR.SyncTree
import ZipR.Coverage

/-! # Observed paths

What the registrations of the sync tree ask of the listen provider.  A path is observed while it has
a view, and only the topmost observed paths are listened to.

* **Registrations.** `addEventRegistration` makes a view when there is none, and
  `removeEventRegistration` takes it away with its last registration.
* **Listens.** `Requested`: the requests lead from the topmost paths that were observed to those that
  are; a view that goes because its listen failed has no listen to stop.
* **Views in step.** A new view has the data of a complete view above it, or waits for its first
  data. -/

namespace ZipR

open Std Patches Comparators Coverage

variable {κ σ : Type} [DecidableEq κ] [DecidableEq σ] [Comparators κ] [LawfulComparators κ]

namespace FSyncTree

/-! ### The tree of views -/

/-- The path has a view. -/
def Viewed (t : ImmutableTree κ (FView κ σ)) (p : List κ) : Prop := viewAt t p ≠ none

variable {t : ImmutableTree κ (FView κ σ)} {p q : List κ}

omit [DecidableEq σ] in
theorem viewAt_setValue (t : ImmutableTree κ (FView κ σ)) (view : FView κ σ) (p q : List κ) :
    viewAt (t.setValue view p) q = if q = p then some view else viewAt t q := by
  rcases t.value_subtreeAtPath_setValue view (p := p) (q := q) with ⟨hvalue, rfl⟩ | ⟨hvalue, hne⟩
  · rw [if_pos rfl, viewAt, hvalue]
  · rw [if_neg hne, viewAt, hvalue, viewAt]

omit [DecidableEq σ] in
theorem viewAt_removeValueAtPath (h : t.Ascending) (p q : List κ) :
    viewAt (t.removeValueAtPath p) q = if q = p then none else viewAt t q :=
  ImmutableTree.value_subtreeAtPath_removeValueAtPath h p q

omit [DecidableEq κ] [DecidableEq σ] [LawfulComparators κ] in
theorem viewAt_subtreeAtPath (t : ImmutableTree κ (FView κ σ)) (p q : List κ) :
    viewAt (t.subtreeAtPath p) q = viewAt t (p ++ q) := by
  induction p generalizing t with
  | nil => rw [ImmutableTree.subtreeAtPath_nil, List.nil_append]
  | cons k p ih => rw [ImmutableTree.subtreeAtPath_cons, ih, List.cons_append, viewAt_cons]

omit [DecidableEq κ] [DecidableEq σ] [LawfulComparators κ] in
/-- A path is covered when a view is on it. -/
theorem covered_iff : (t.findRootMostValueAndPath p).isSome = true ↔ Covered (Viewed t) p := by
  rw [Option.isSome_iff_ne_none, Ne, ImmutableTree.rootMost_eq_none_iff]
  push Not
  rfl

omit [DecidableEq κ] [DecidableEq σ] in
/-- **The distinct views of a subtree** are its topmost ones. -/
theorem mem_collectDistinctViewsForSubTree (h : t.Ascending) :
    q ∈ collectDistinctViewsForSubTree t p ↔ ∃ s, q = p ++ s ∧ Topmost (Viewed t) s := by
  rw [collectDistinctViewsForSubTree, List.mem_map]
  constructor
  · rintro ⟨⟨q, view⟩, hmem, rfl⟩
    obtain ⟨s, rfl, hroot⟩ := (ImmutableTree.mem_rootMostValues h).mp hmem
    obtain ⟨hvalue, htop⟩ := ImmutableTree.rootMost_self_iff.mp hroot
    have hview : viewAt t s = some view := hvalue
    exact ⟨s, rfl, by rw [Viewed, hview]; nofun, htop⟩
  · rintro ⟨s, rfl, hviewed, htop⟩
    obtain ⟨view, hview⟩ := Option.ne_none_iff_exists'.mp hviewed
    exact ⟨(p ++ s, view), (ImmutableTree.mem_rootMostValues h).mpr
      ⟨s, rfl, ImmutableTree.rootMost_self_iff.mpr ⟨hview, htop⟩⟩, rfl⟩

omit [DecidableEq κ] [DecidableEq σ] in
theorem nodup_collectDistinctViewsForSubTree (h : t.Ascending) (p : List κ) :
    (collectDistinctViewsForSubTree t p).Nodup := by
  refine List.pairwise_map.mpr ((ImmutableTree.rootMostValues_pairwise h p).imp ?_)
  exact fun hdiverge he => hdiverge.1 (he ▸ List.prefix_rfl)

omit [DecidableEq κ] [DecidableEq σ] [LawfulComparators κ] in
/-- The topmost views of a subtree, seen from the root. -/
theorem topmost_subtreeAtPath (t : ImmutableTree κ (FView κ σ)) (p s : List κ) :
    Topmost (Viewed (t.subtreeAtPath p)) s ↔
      Viewed t (p ++ s) ∧ ∀ r, p <+: r → r <+: p ++ s → Viewed t r → r = p ++ s := by
  have hviewed : ∀ r, Viewed (t.subtreeAtPath p) r ↔ Viewed t (p ++ r) := fun r => by
    rw [Viewed, viewAt_subtreeAtPath, Viewed]
  rw [Topmost, hviewed]
  refine and_congr_right fun _ => ⟨?_, fun htop r hr hr' => ?_⟩
  · rintro htop r ⟨u, rfl⟩ hr hr'
    rw [htop u ((List.prefix_append_right_inj p).mp hr) ((hviewed u).mpr hr')]
  · exact List.append_cancel_left (htop _ (List.prefix_append p r)
      ((List.prefix_append_right_inj p).mpr hr) ((hviewed r).mp hr'))

/-! ### The registrations of a path -/

/-- The registration is at the path. -/
def Registered (t : ImmutableTree κ (FView κ σ)) (p : List κ) (r : FEventRegistration) : Prop :=
  ∃ view, viewAt t p = some view ∧ r ∈ view.eventRegistrations

/-- Every view has a registration. -/
def AllRegistered (t : ImmutableTree κ (FView κ σ)) : Prop :=
  ∀ p, Viewed t p → ∃ r, Registered t p r

section registered
variable {t' : ImmutableTree κ (FView κ σ)} {r : FEventRegistration}

omit [DecidableEq κ] [DecidableEq σ] [LawfulComparators κ] in
theorem Registered.viewed (h : Registered t p r) : Viewed t p := by
  obtain ⟨view, hview, -⟩ := h
  rw [Viewed, hview]
  nofun

omit [DecidableEq κ] [DecidableEq σ] [LawfulComparators κ] in
theorem Keeps.viewed (h : Keeps t t') (p : List κ) : Viewed t' p ↔ Viewed t p := by
  rw [Viewed, Viewed, ← Option.isSome_iff_ne_none, ← Option.isSome_iff_ne_none, h.isSome p]

omit [DecidableEq κ] [DecidableEq σ] [LawfulComparators κ] in
theorem Keeps.registered (h : Keeps t t') : Registered t' p r ↔ Registered t p r := by
  have hiff : ∀ s : ImmutableTree κ (FView κ σ), Registered s p r ↔
      ∃ rs ∈ (viewAt s p).map (·.eventRegistrations), r ∈ rs := fun s => by simp [Registered]
  rw [hiff, hiff, h.registrations p]

omit [DecidableEq κ] [DecidableEq σ] [LawfulComparators κ] in
theorem Keeps.allRegistered (h : Keeps t t') (hall : AllRegistered t) : AllRegistered t' :=
  fun p hp => (hall p ((h.viewed p).mp hp)).imp fun _ hr => h.registered.mpr hr

end registered

/-! ### Requests to the provider -/

/-- The requests lead from the paths that are listened to to others: no path is listened to twice. -/
structure Requested (L : List κ → Prop) (requests : List (ListenRequest κ)) (L' : List κ → Prop) :
    Prop where
  fresh : ∀ p, .startListening p ∈ requests → ¬ L p
  nodup : requests.Nodup
  apart : ∀ p, .startListening p ∈ requests → .stopListening p ∉ requests
  listened : ∀ q, L' q ↔ L q ∧ .stopListening q ∉ requests ∨ .startListening q ∈ requests

namespace Requested

variable {L L' : List κ → Prop}

omit [DecidableEq κ] [Comparators κ] [LawfulComparators κ] in
theorem nil (h : ∀ q, L' q ↔ L q) : Requested L [] L' :=
  ⟨nofun, .nil, nofun, fun q => by simp [h q]⟩

omit [DecidableEq κ] [Comparators κ] [LawfulComparators κ] in
/-- A new path takes the place of others. -/
theorem setup {stops : List (List κ)} (hnodup : stops.Nodup) (hp : ¬ L p) (hstop : p ∉ stops)
    (h : ∀ q, L' q ↔ q = p ∨ L q ∧ q ∉ stops) :
    Requested L (.startListening p :: stops.map .stopListening) L' := by
  refine ⟨fun q hq => ?_, ?_, fun q hq => ?_, fun q => (h q).trans ?_⟩
  · obtain rfl : q = p := by simpa using hq
    exact hp
  · exact List.nodup_cons.mpr ⟨by simp, hnodup.map fun _ _ => ListenRequest.stopListening.inj⟩
  · obtain rfl : q = p := by simpa using hq
    simpa using hstop
  · simp [or_comm]

omit [DecidableEq κ] [Comparators κ] [LawfulComparators κ] in
/-- Other paths take the place of one that goes. -/
theorem teardown {starts : List (List κ)} (hnodup : starts.Nodup) (hfresh : ∀ q ∈ starts, ¬ L q)
    (hstart : p ∉ starts) (h : ∀ q, L' q ↔ L q ∧ q ≠ p ∨ q ∈ starts) :
    Requested L (starts.map .startListening ++ [.stopListening p]) L' := by
  refine ⟨fun q hq => hfresh q (by simpa using hq), ?_, fun q hq => ?_, fun q => (h q).trans ?_⟩
  · refine List.nodup_append.mpr ⟨hnodup.map fun _ _ => ListenRequest.startListening.inj,
      List.nodup_singleton _, ?_⟩
    simp
  · have hne : q ≠ p := by
      rintro rfl
      exact hstart (by simpa using hq)
    simpa using hne
  · simp

omit [DecidableEq κ] [Comparators κ] [LawfulComparators κ] in
/-- Nothing is left to stop when the listen failed. -/
theorem failed {starts : List (List κ)} (hnodup : starts.Nodup) (hfresh : ∀ q ∈ starts, ¬ L q)
    (h : ∀ q, L' q ↔ L q ∨ q ∈ starts) : Requested L (starts.map .startListening) L' := by
  refine ⟨fun q hq => hfresh q (by simpa using hq), hnodup.map fun _ _ => ListenRequest.startListening.inj,
    by simp, fun q => (h q).trans (by simp)⟩

omit [DecidableEq κ] [Comparators κ] [LawfulComparators κ] in
theorem of_startListening {requests : List (ListenRequest κ)}
    (h : Requested L (.startListening p :: requests) L') : Requested (fun q => L q ∨ q = p) requests L' := by
  obtain ⟨hnot, hnodup⟩ := List.nodup_cons.mp h.nodup
  have hstop := h.apart p List.mem_cons_self
  refine ⟨fun q hq => ?_, hnodup, fun q hq => ?_, fun q => (h.listened q).trans ?_⟩
  · rintro (hL | rfl)
    · exact h.fresh q (List.mem_cons_of_mem _ hq) hL
    · exact hnot hq
  · exact fun hmem => h.apart q (List.mem_cons_of_mem _ hq) (List.mem_cons_of_mem _ hmem)
  · by_cases hq : q = p
    · subst hq
      simp only [List.mem_cons, not_or] at hstop
      simp [hstop.2]
    · simp [hq]

omit [DecidableEq κ] [Comparators κ] [LawfulComparators κ] in
theorem of_stopListening {requests : List (ListenRequest κ)}
    (h : Requested L (.stopListening p :: requests) L') : Requested (fun q => L q ∧ q ≠ p) requests L' := by
  refine ⟨fun q hq hL => h.fresh q (List.mem_cons_of_mem _ hq) hL.1, (List.nodup_cons.mp h.nodup).2,
    fun q hq hmem => h.apart q (List.mem_cons_of_mem _ hq) (List.mem_cons_of_mem _ hmem),
    fun q => (h.listened q).trans ?_⟩
  simp [and_assoc]

omit [DecidableEq κ] [Comparators κ] [LawfulComparators κ] in
/-- A listen that is left alone can be counted or not. -/
theorem insert {requests : List (ListenRequest κ)} (h : Requested (fun q => L q ∧ q ≠ p) requests L')
    (hp : L p) (hstart : .startListening p ∉ requests) (hstop : .stopListening p ∉ requests) :
    Requested L requests fun q => L' q ∨ q = p := by
  refine ⟨fun q hq hL => ?_, h.nodup, h.apart, fun q => ?_⟩
  · exact h.fresh q hq ⟨hL, fun he => hstart (he ▸ hq)⟩
  · rw [h.listened]
    by_cases hq : q = p
    · subst hq
      exact iff_of_true (.inr rfl) (.inl ⟨hp, hstop⟩)
    · simp [hq]

end Requested

/-! ### New registrations -/

variable {self : FSyncTree κ σ} {path : List κ}

/-- The view that a new registration joins. -/
def observedView (self : FSyncTree κ σ) (path : List κ) : FView κ σ :=
  (viewAt self.syncPointTree path).getD (self.initialView path)

omit [DecidableEq σ] in
theorem viewAt_addEventRegistration (self : FSyncTree κ σ) (eventRegistration : FEventRegistration)
    (path q : List κ) :
    viewAt (self.addEventRegistration eventRegistration path).1.syncPointTree q =
      if q = path then some ((self.observedView path).addEventRegistration eventRegistration)
      else viewAt self.syncPointTree q := by
  rw [addEventRegistration, observedView]
  cases hview : viewAt self.syncPointTree path with
  | some view => exact viewAt_setValue _ _ _ _
  | none => exact viewAt_setValue _ _ _ _

omit [DecidableEq σ] [LawfulComparators κ] in
theorem pendingWriteTree_addEventRegistration (self : FSyncTree κ σ)
    (eventRegistration : FEventRegistration) (path : List κ) :
    (self.addEventRegistration eventRegistration path).1.pendingWriteTree = self.pendingWriteTree := by
  rw [addEventRegistration]
  cases viewAt self.syncPointTree path <;> rfl

omit [DecidableEq σ] in
theorem ascending_addEventRegistration (h : self.syncPointTree.Ascending)
    (eventRegistration : FEventRegistration) (path : List κ) :
    (self.addEventRegistration eventRegistration path).1.syncPointTree.Ascending := by
  rw [addEventRegistration]
  cases viewAt self.syncPointTree path <;> exact h.setValue _ _

omit [DecidableEq σ] in
theorem viewed_addEventRegistration (self : FSyncTree κ σ) (eventRegistration : FEventRegistration)
    (path q : List κ) :
    Viewed (self.addEventRegistration eventRegistration path).1.syncPointTree q ↔
      Viewed self.syncPointTree q ∨ q = path := by
  rw [Viewed, viewAt_addEventRegistration]
  split_ifs with hq
  · exact iff_of_true nofun (.inr hq)
  · exact ⟨.inl, fun h => h.resolve_right hq⟩

omit [DecidableEq σ] in
/-- **A new registration** is at its path, and the others stay. -/
theorem registered_addEventRegistration (self : FSyncTree κ σ)
    (eventRegistration : FEventRegistration) (path p : List κ) (r : FEventRegistration) :
    Registered (self.addEventRegistration eventRegistration path).1.syncPointTree p r ↔
      Registered self.syncPointTree p r ∨ p = path ∧ r = eventRegistration := by
  rw [Registered, viewAt_addEventRegistration]
  by_cases hp : p = path
  · subst hp
    have hold : r ∈ (self.observedView p).eventRegistrations ↔ Registered self.syncPointTree p r := by
      rw [Registered, observedView]
      cases viewAt self.syncPointTree p with
      | some view => simp
      | none => simp [initialView]
    simp [FView.addEventRegistration, hold]
  · simp [hp, Registered]

omit [DecidableEq σ] in
theorem allRegistered_addEventRegistration (h : AllRegistered self.syncPointTree)
    (eventRegistration : FEventRegistration) (path : List κ) :
    AllRegistered (self.addEventRegistration eventRegistration path).1.syncPointTree := by
  intro p hp
  rcases (viewed_addEventRegistration self eventRegistration path p).mp hp with hp | rfl
  · obtain ⟨r, hr⟩ := h p hp
    exact ⟨r, (registered_addEventRegistration self _ path p r).mpr (.inl hr)⟩
  · exact ⟨_, (registered_addEventRegistration self _ p p _).mpr (.inr ⟨rfl, rfl⟩)⟩

omit [DecidableEq κ] [DecidableEq σ] in
/-- A new listener shadows the listens below it. -/
theorem mem_queriesToStop {W : List κ → Prop} (ht : t.Ascending)
    (hW : ∀ q, Viewed t q ↔ W q ∨ q = path) (hpath : ¬ W path) :
    let stops := collectDistinctViewsForSubTree (.mk none (t.subtreeAtPath path).children) path
    path ∉ stops ∧ stops.Nodup ∧ ∀ q, Topmost W q → (q ∈ stops ↔ path <+: q) := by
  set below : ImmutableTree κ (FView κ σ) := .mk none (t.subtreeAtPath path).children with hbelow
  have hasc : below.Ascending := .of_child (ht path) fun k => (ht.subtreeAtPath path).child k
  have hview : ∀ s, Viewed below s ↔ W (path ++ s) ∧ s ≠ [] := by
    intro s
    cases s with
    | nil => exact iff_of_false (fun h => h rfl) fun h => h.2 rfl
    | cons k s =>
        have hcons : viewAt below (k :: s) = viewAt t (path ++ k :: s) := by
          rw [← viewAt_subtreeAtPath, viewAt_cons, viewAt_cons]
          rfl
        rw [Viewed, hcons]
        refine (hW _).trans ⟨fun h => ⟨h.resolve_right (by simp), List.cons_ne_nil _ _⟩, fun h => .inl h.1⟩
  refine ⟨fun hmem => ?_, nodup_collectDistinctViewsForSubTree hasc path, fun q hq => ?_⟩
  · obtain ⟨s, hs, hviewed, -⟩ := (mem_collectDistinctViewsForSubTree hasc).mp hmem
    exact ((hview s).mp hviewed).2 (List.append_right_eq_self.mp hs.symm)
  · rw [mem_collectDistinctViewsForSubTree hasc]
    constructor
    · rintro ⟨s, rfl, -⟩
      exact List.prefix_append path s
    · rintro ⟨s, rfl⟩
      refine ⟨s, rfl, (hview s).mpr ⟨hq.1, ?_⟩, fun r hr hviewed => ?_⟩
      · rintro rfl
        exact hpath (by simpa using hq.1)
      · exact List.append_cancel_left
          (hq.2 _ ((List.prefix_append_right_inj path).mpr hr) ((hview r).mp hviewed).1)

omit [DecidableEq σ] in
/-- **The listens of a new registration** are those of the topmost observed paths. -/
theorem requested_addEventRegistration (h : self.syncPointTree.Ascending)
    (eventRegistration : FEventRegistration) (path : List κ) :
    Requested (Topmost (Viewed self.syncPointTree))
      (self.addEventRegistration eventRegistration path).2
      (Topmost (Viewed (self.addEventRegistration eventRegistration path).1.syncPointTree)) := by
  have hasc := ascending_addEventRegistration h eventRegistration path
  have hW := viewed_addEventRegistration self eventRegistration path
  generalize hnew : self.addEventRegistration eventRegistration path = new at hasc hW
  rw [addEventRegistration] at hnew
  cases hview : viewAt self.syncPointTree path with
  | some view =>
      rw [hview] at hnew
      subst hnew
      have hpath : Viewed self.syncPointTree path := by rw [Viewed, hview]; nofun
      refine .nil fun q => topmost_congr fun r => (hW r).trans ?_
      exact or_iff_left_of_imp fun hr => hr ▸ hpath
  | none =>
      rw [hview] at hnew
      have hpath : ¬ Viewed self.syncPointTree path := fun hviewed => hviewed hview
      by_cases hcovered : Covered (Viewed self.syncPointTree) path
      · have hfound := covered_iff.mpr hcovered
        simp only [hfound, if_true] at hnew
        subst hnew
        exact .nil fun q => topmost_insert_of_covered hW hcovered hpath
      · have hfound := mt covered_iff.mp hcovered
        simp only [hfound] at hnew
        obtain ⟨hstop, hnodup, hmem⟩ := mem_queriesToStop hasc hW hpath
        have hrequests : new.2 = .startListening path :: (collectDistinctViewsForSubTree
            (.mk none (new.1.syncPointTree.subtreeAtPath path).children) path).map
              .stopListening := by
          rw [← hnew, collectDistinctViewsForSubTree, List.map_map]
          rfl
        rw [hrequests]
        refine .setup hnodup (fun htop => hpath htop.1) hstop fun q => ?_
        rw [topmost_insert hW hcovered]
        exact or_congr_right (and_congr_right fun hq => not_congr (hmem q hq).symm)

/-! ### Registrations that go -/

omit [DecidableEq κ] [DecidableEq σ] [LawfulComparators κ] in
/-- The tree that is left. -/
theorem removeEventRegistration_fst (self : FSyncTree κ σ) (handle : Option ℕ) (path : List κ)
    (cancelError : Option String) : (self.removeEventRegistration handle path cancelError).1 =
      match viewAt self.syncPointTree path with
      | some view =>
          if (view.removeEventRegistration handle).isEmpty then
            { self with syncPointTree := self.syncPointTree.removeValueAtPath path }
          else { self with
            syncPointTree := self.syncPointTree.setValue (view.removeEventRegistration handle) path }
      | none => self := by
  rw [removeEventRegistration]
  cases viewAt self.syncPointTree path with
  | none => rfl
  | some view =>
      simp only
      split_ifs <;> rfl

omit [DecidableEq κ] [DecidableEq σ] [LawfulComparators κ] in
theorem pendingWriteTree_removeEventRegistration (self : FSyncTree κ σ) (handle : Option ℕ)
    (path : List κ) (cancelError : Option String) :
    (self.removeEventRegistration handle path cancelError).1.pendingWriteTree =
      self.pendingWriteTree := by
  rw [removeEventRegistration_fst]
  split
  · split_ifs <;> rfl
  · rfl

omit [DecidableEq κ] [DecidableEq σ] in
theorem ascending_removeEventRegistration (h : self.syncPointTree.Ascending) (handle : Option ℕ)
    (path : List κ) (cancelError : Option String) :
    (self.removeEventRegistration handle path cancelError).1.syncPointTree.Ascending := by
  rw [removeEventRegistration_fst]
  split
  · split_ifs
    · exact h.removeValueAtPath path
    · exact h.setValue _ _
  · exact h

omit [DecidableEq σ] in
theorem viewAt_removeEventRegistration (h : self.syncPointTree.Ascending) (handle : Option ℕ)
    (path : List κ) (cancelError : Option String) (q : List κ) :
    viewAt (self.removeEventRegistration handle path cancelError).1.syncPointTree q =
      if q = path then (viewAt self.syncPointTree path).bind fun view =>
        if (view.removeEventRegistration handle).isEmpty then none
        else some (view.removeEventRegistration handle)
      else viewAt self.syncPointTree q := by
  rw [removeEventRegistration_fst]
  cases hview : viewAt self.syncPointTree path with
  | none =>
      split_ifs with hq
      · exact hq ▸ hview
      · rfl
  | some view =>
      simp only [Option.bind_some]
      by_cases hempty : (view.removeEventRegistration handle).isEmpty = true
      · rw [if_pos hempty, if_pos hempty, viewAt_removeValueAtPath h]
      · rw [if_neg hempty, if_neg hempty, viewAt_setValue]

omit [DecidableEq σ] in
/-- **The registrations with the handle go**, or all of the path when no handle is given. -/
theorem registered_removeEventRegistration (h : self.syncPointTree.Ascending) (handle : Option ℕ)
    (path : List κ) (cancelError : Option String) (p : List κ) (r : FEventRegistration) :
    Registered (self.removeEventRegistration handle path cancelError).1.syncPointTree p r ↔
      Registered self.syncPointTree p r ∧ ¬ (p = path ∧ ∀ h ∈ handle, r.handle = h) := by
  rw [Registered, viewAt_removeEventRegistration h]
  by_cases hp : p = path
  · subst hp
    rw [if_pos rfl, Registered]
    cases viewAt self.syncPointTree p with
    | none => simp
    | some view =>
        have hleft : r ∈ (view.removeEventRegistration handle).eventRegistrations ↔
            r ∈ view.eventRegistrations ∧ ¬ ∀ h ∈ handle, r.handle = h := by
          cases handle <;> simp [FView.removeEventRegistration]
        have hempty : r ∈ (view.removeEventRegistration handle).eventRegistrations →
            ¬ (view.removeEventRegistration handle).isEmpty = true := fun hr he => by
          rw [FView.isEmpty, List.isEmpty_iff] at he
          rw [he] at hr
          cases hr
        simp only [Option.bind_some, Option.some.injEq, exists_eq_left', true_and, ← hleft]
        constructor
        · rintro ⟨view', hview', hr⟩
          split_ifs at hview'
          exact Option.some.inj hview' ▸ hr
        · exact fun hr => ⟨_, if_neg (hempty hr), hr⟩
  · simp [hp, Registered]

omit [DecidableEq σ] in
theorem allRegistered_removeEventRegistration (hasc : self.syncPointTree.Ascending)
    (h : AllRegistered self.syncPointTree) (handle : Option ℕ) (path : List κ)
    (cancelError : Option String) :
    AllRegistered (self.removeEventRegistration handle path cancelError).1.syncPointTree := by
  intro p hp
  rw [Viewed, viewAt_removeEventRegistration hasc] at hp
  split_ifs at hp with hpath
  · obtain ⟨view', hview'⟩ := Option.ne_none_iff_exists'.mp hp
    obtain ⟨view, hview, hleft⟩ := Option.bind_eq_some_iff.mp hview'
    split_ifs at hleft with hempty
    obtain ⟨r, rs, hr⟩ : ∃ r rs, (view.removeEventRegistration handle).eventRegistrations = r :: rs :=
      List.exists_cons_of_ne_nil fun hnil => hempty (List.isEmpty_iff.mpr hnil)
    refine ⟨r, view', ?_, ?_⟩
    · rw [viewAt_removeEventRegistration hasc, if_pos hpath, hview']
    · rw [← Option.some.inj hleft, hr]
      exact List.mem_cons_self
  · obtain ⟨r, hr⟩ := h p hp
    exact ⟨r, (registered_removeEventRegistration hasc handle path cancelError p r).mpr
      ⟨hr, fun hnot => hpath hnot.1⟩⟩

omit [DecidableEq κ] [DecidableEq σ] in
/-- Without the path, the topmost views below it come back. -/
theorem mem_newViews {W : List κ → Prop} (ht : t.Ascending)
    (hW : ∀ q, Viewed t q ↔ W q ∧ q ≠ path) (hpath : W path)
    (htop : ¬ Covered (Viewed t) path) :
    let starts := collectDistinctViewsForSubTree (t.subtreeAtPath path) path
    path ∉ starts ∧ starts.Nodup ∧ (∀ q ∈ starts, ¬ Topmost W q) ∧
      ∀ q, Topmost (Viewed t) q ↔ Topmost W q ∧ q ≠ path ∨ q ∈ starts := by
  have hasc := ht.subtreeAtPath path
  have hmem : ∀ q, q ∈ collectDistinctViewsForSubTree (t.subtreeAtPath path) path ↔
      path <+: q ∧ Viewed t q ∧ ∀ r, path <+: r → r <+: q → Viewed t r → r = q := by
    intro q
    rw [mem_collectDistinctViewsForSubTree hasc]
    constructor
    · rintro ⟨s, rfl, hs⟩
      exact ⟨List.prefix_append path s, (topmost_subtreeAtPath t path s).mp hs⟩
    · rintro ⟨⟨s, rfl⟩, hs⟩
      exact ⟨s, rfl, (topmost_subtreeAtPath t path s).mpr hs⟩
  refine ⟨fun hstart => ?_, nodup_collectDistinctViewsForSubTree hasc path, fun q hq htopq => ?_,
    fun q => ?_⟩
  · exact ((hW path).mp ((hmem path).mp hstart).2.1).2 rfl
  · obtain ⟨hle, hviewed, -⟩ := (hmem q).mp hq
    exact ((hW q).mp hviewed).2 (htopq.2 path hle hpath).symm
  · rw [topmost_remove hW fun r hr hviewed => htop ⟨r, hr, hviewed⟩, hmem]

omit [DecidableEq σ] in
theorem viewed_removeValueAtPath (h : t.Ascending) (p q : List κ) :
    Viewed (t.removeValueAtPath p) q ↔ Viewed t q ∧ q ≠ p := by
  rw [Viewed, viewAt_removeValueAtPath h]
  split_ifs with hq
  · exact iff_of_false (fun hne => hne rfl) fun hne => hne.2 hq
  · exact (and_iff_left hq).symm

section last
variable {view : FView κ σ} {handle : Option ℕ}
variable (hview : viewAt self.syncPointTree path = some view)
  (hempty : (view.removeEventRegistration handle).isEmpty = true)
include hview hempty

omit [DecidableEq κ] [DecidableEq σ] [LawfulComparators κ] in
/-- The last registration of a view goes. -/
theorem removeEventRegistration_last (cancelError : Option String) :
    self.removeEventRegistration handle path cancelError =
      ({ self with syncPointTree := self.syncPointTree.removeValueAtPath path },
        if ((self.syncPointTree.removeValueAtPath path).findRootMostValueAndPath path).isSome then []
        else (collectDistinctViewsForSubTree
          ((self.syncPointTree.removeValueAtPath path).subtreeAtPath path) path).map .startListening ++
            if cancelError.isNone then [.stopListening path] else [],
        view.cancelEvents cancelError) := by
  simp only [removeEventRegistration, hview, hempty, if_true]
  split_ifs <;> rfl

omit [DecidableEq σ] in
theorem requested_last (h : self.syncPointTree.Ascending) :
    Requested (Topmost (Viewed self.syncPointTree))
      (self.removeEventRegistration handle path none).2.1
      (Topmost (Viewed (self.syncPointTree.removeValueAtPath path))) := by
  have hW := viewed_removeValueAtPath h path
  have hpath : Viewed self.syncPointTree path := by rw [Viewed, hview]; nofun
  rw [removeEventRegistration_last hview hempty]
  by_cases hcovered : Covered (Viewed (self.syncPointTree.removeValueAtPath path)) path
  · simp only [covered_iff.mpr hcovered, if_true]
    exact .nil fun q => topmost_remove_of_covered hW hcovered
  · obtain ⟨hstart, hnodup, hfresh, htopmost⟩ :=
      mem_newViews (h.removeValueAtPath path) hW hpath hcovered
    simp only [mt covered_iff.mp hcovered, Option.isNone_none, if_true, Bool.false_eq_true, if_false]
    exact .teardown hnodup hfresh hstart htopmost

end last

omit [DecidableEq σ] in
/-- **The listens when registrations go** are those of the topmost paths that are left. -/
theorem requested_removeEventRegistration (h : self.syncPointTree.Ascending) (handle : Option ℕ)
    (path : List κ) :
    Requested (Topmost (Viewed self.syncPointTree))
      (self.removeEventRegistration handle path none).2.1
      (Topmost (Viewed (self.removeEventRegistration handle path none).1.syncPointTree)) := by
  cases hview : viewAt self.syncPointTree path with
  | none =>
      have hsame : self.removeEventRegistration handle path none = (self, [], []) := by
        rw [removeEventRegistration, hview]
      rw [hsame]
      exact .nil fun q => Iff.rfl
  | some view =>
      by_cases hempty : (view.removeEventRegistration handle).isEmpty = true
      · have hlast := requested_last hview hempty h
        rwa [removeEventRegistration_last hview hempty] at hlast ⊢
      · have hsame : (self.removeEventRegistration handle path none).2.1 = [] := by
          simp only [removeEventRegistration, hview, hempty, Bool.false_eq_true, if_false]
        rw [hsame]
        refine .nil fun q => topmost_congr fun r => ?_
        rw [Viewed, viewAt_removeEventRegistration h, hview, Option.bind_some, if_neg hempty]
        split_ifs with hr
        · refine iff_of_true nofun ?_
          rw [hr, Viewed, hview]
          nofun
        · exact Iff.rfl

omit [DecidableEq σ] in
/-- **When a listen failed** all registrations of its path go. -/
theorem requested_failed (h : self.syncPointTree.Ascending)
    (htop : Topmost (Viewed self.syncPointTree) path) (status : String) :
    ∃ starts : List (List κ), (self.removeEventRegistration none path (some status)).2.1 =
        starts.map .startListening ∧ path ∉ starts ∧
      Requested (fun q => Topmost (Viewed self.syncPointTree) q ∧ q ≠ path)
        (starts.map .startListening)
        (Topmost (Viewed (self.removeEventRegistration none path (some status)).1.syncPointTree)) := by
  obtain ⟨view, hview⟩ := Option.ne_none_iff_exists'.mp htop.1
  have hempty : (view.removeEventRegistration none).isEmpty = true := rfl
  have hW := viewed_removeValueAtPath h path
  have hcovered : ¬ Covered (Viewed (self.syncPointTree.removeValueAtPath path)) path := by
    rintro ⟨r, hr, hviewed⟩
    obtain ⟨hviewed, hne⟩ := (hW r).mp hviewed
    exact hne (htop.2 r hr hviewed)
  obtain ⟨hstart, hnodup, hfresh, htopmost⟩ :=
    mem_newViews (h.removeValueAtPath path) hW htop.1 hcovered
  rw [removeEventRegistration_last hview hempty]
  simp only [mt covered_iff.mp hcovered, Option.isNone_some, Bool.false_eq_true, if_false,
    List.append_nil]
  exact ⟨_, rfl, hstart, .failed hnodup (fun q hq hold => hfresh q hq hold.1) htopmost⟩

omit [DecidableEq κ] [DecidableEq σ] [LawfulComparators κ] in
/-- When a listen failed every registration with a callback gets a cancel event. -/
theorem mem_cancelEvents {r : FEventRegistration} (hr : Registered self.syncPointTree path r)
    (hcallback : r.cancelCallback = true) (status : String) :
    r ∈ (self.removeEventRegistration none path (some status)).2.2 := by
  obtain ⟨view, hview, hr⟩ := hr
  rw [removeEventRegistration_last hview rfl]
  exact List.mem_filter.mpr ⟨hr, hcallback⟩

/-! ### Views in step -/

omit [DecidableEq κ] [DecidableEq σ] [LawfulComparators κ] in
theorem completeServerCacheFor_eq_some {view : FView κ σ} {c : Node κ σ} :
    view.completeServerCacheFor p = some c ↔
      Complete view ∧ view.viewCache.cachedServerSnap.node.getChild p = c := by
  rw [FView.completeServerCacheFor, FViewCache.completeServerSnap, Complete, Option.map_eq_some_iff]
  split_ifs with hfull
  · simp [hfull]
  · simp [hfull]

omit [DecidableEq κ] [DecidableEq σ] [LawfulComparators κ] in
/-- The first complete view on a path gives the data at its end. -/
theorem completeServerCacheOnPath_eq_some {c : Node κ σ}
    (h : completeServerCacheOnPath t p = some c) : ∃ r s view, p = r ++ s ∧
      viewAt t r = some view ∧ Complete view ∧
        view.viewCache.cachedServerSnap.node.getChild s = c := by
  induction p generalizing t with
  | nil =>
      obtain ⟨view, hview, hc⟩ := Option.bind_eq_some_iff.mp h
      obtain ⟨hcomplete, hc⟩ := completeServerCacheFor_eq_some.mp hc
      exact ⟨[], [], view, rfl, (viewAt_nil t).trans hview, hcomplete, hc⟩
  | cons k p ih =>
      rw [completeServerCacheOnPath, Option.orElse_eq_or, Option.or_eq_some_iff] at h
      rcases h with h | ⟨-, h⟩
      · obtain ⟨view, hview, hc⟩ := Option.bind_eq_some_iff.mp h
        obtain ⟨hcomplete, hc⟩ := completeServerCacheFor_eq_some.mp hc
        exact ⟨[], k :: p, view, rfl, (viewAt_nil t).trans hview, hcomplete, hc⟩
      · obtain ⟨r, s, view, rfl, hview, hrest⟩ := ih h
        exact ⟨k :: r, s, view, rfl, (viewAt_cons t k r).trans hview, hrest⟩

omit [DecidableEq κ] [DecidableEq σ] [LawfulComparators κ] in
theorem isSome_completeServerCacheOnPath {view : FView κ σ} {r s : List κ}
    (hview : viewAt t r = some view) (hcomplete : Complete view) :
    (completeServerCacheOnPath t (r ++ s)).isSome = true := by
  induction r generalizing t with
  | nil =>
      rw [viewAt_nil] at hview
      have hc := completeServerCacheFor_eq_some (p := s).mpr ⟨hcomplete, rfl⟩
      cases s with
      | nil => simp [completeServerCacheOnPath, hview, hc]
      | cons k s => simp [completeServerCacheOnPath, hview, hc]
  | cons k r ih =>
      rw [viewAt_cons] at hview
      rw [List.cons_append, completeServerCacheOnPath]
      cases t.value.bind fun view => view.completeServerCacheFor (k :: (r ++ s)) with
      | some c => rfl
      | none => exact ih hview

omit [DecidableEq σ] [LawfulComparators κ] in
/-- A new view is complete when data are known above it. -/
theorem serverSnap_initialView (self : FSyncTree κ σ) (path : List κ) :
    (self.initialView path).viewCache.cachedServerSnap = self.serverCacheForQuery path := rfl

omit [DecidableEq κ] [DecidableEq σ] [LawfulComparators κ] in
theorem isFullyInitialized_serverCacheForQuery (self : FSyncTree κ σ) (path : List κ) :
    (self.serverCacheForQuery path).isFullyInitialized =
      (completeServerCacheOnPath self.syncPointTree path).isSome := by
  rw [serverCacheForQuery]
  cases completeServerCacheOnPath self.syncPointTree path <;> rfl

namespace Synced

variable {server : Node κ σ}

omit [DecidableEq κ] [DecidableEq σ] [LawfulComparators κ] in
/-- The server's data known at a path. -/
theorem serverCacheForQuery (h : self.Synced server)
    (hfull : (self.serverCacheForQuery path).isFullyInitialized = true) :
    self.serverCacheForQuery path = ⟨server.getChild path, true⟩ := by
  rw [isFullyInitialized_serverCacheForQuery, Option.isSome_iff_exists] at hfull
  obtain ⟨c, hc⟩ := hfull
  obtain ⟨r, s, view, rfl, hview, hcomplete, rfl⟩ := completeServerCacheOnPath_eq_some hc
  rw [FSyncTree.serverCacheForQuery, hc, (h.views r view hview).whole hcomplete,
    Node.getChild_append]
  rfl

omit [DecidableEq σ] in
/-- **A new view is in step**, with the data known above it or without data. -/
theorem initialView (h : self.Synced server) (path : List κ) :
    (self.initialView path).viewCache.InStep ⟨path, self.pendingWriteTree⟩ server := by
  obtain ⟨hsome, hnone⟩ :=
    FWriteTree.calculateCompleteEventCacheAtPath_eq h.layered h.serves path
  refine ⟨fun hfull => ?_, fun hshadow => ?_⟩
  · rw [serverSnap_initialView] at hfull
    have hcache := h.serverCacheForQuery hfull
    simp only [FSyncTree.initialView, hcache, if_true,
      FWriteTreeRef.calculateCompleteEventCacheWithCompleteServerCache, hsome]
    rfl
  · obtain ⟨v, hv⟩ := Option.ne_none_iff_exists'.mp hshadow
    rw [FWriteTreeRef.shadowingWriteAtPath, List.append_nil] at hv
    have hcache : ∀ c, self.pendingWriteTree.calculateCompleteEventCacheAtPath path c none false =
        some v := fun c => by
      simp [FWriteTree.calculateCompleteEventCacheAtPath, hv]
    simp only [FSyncTree.initialView,
      FWriteTreeRef.calculateCompleteEventCacheWithCompleteServerCache, hcache,
      h.layered.complete_eq h.serves hv]

omit [DecidableEq σ] in
/-- **A new registration keeps the views in step.** -/
theorem addEventRegistration (h : self.Synced server) (eventRegistration : FEventRegistration)
    (path : List κ) : (self.addEventRegistration eventRegistration path).1.Synced server := by
  have hpending := pendingWriteTree_addEventRegistration self eventRegistration path
  have hview := viewAt_addEventRegistration self eventRegistration path
  refine ⟨hpending ▸ h.layered, hpending ▸ h.visible, hpending ▸ h.serves,
    ascending_addEventRegistration h.ascending _ _, fun p view hp => ?_,
    fun p q view view' hpq hp hq hcomplete => ?_⟩
  · rw [hpending]
    rw [hview] at hp
    split_ifs at hp with hpath
    · subst hpath
      obtain rfl := Option.some.inj hp
      change (self.observedView p).viewCache.InStep _ _
      rw [observedView]
      cases hold : viewAt self.syncPointTree p with
      | some view => exact h.views p view hold
      | none => exact h.initialView p
    · exact h.views p view hp
  · -- the view that completes another one was there before, or it is new and below a complete one
    have habove : ∃ r wiew, r <+: p ∧ viewAt self.syncPointTree r = some wiew ∧ Complete wiew := by
      rw [hview] at hp
      split_ifs at hp with hpath
      · obtain rfl := Option.some.inj hp
        change Complete (self.observedView path) at hcomplete
        rw [observedView] at hcomplete
        cases hold : viewAt self.syncPointTree path with
        | some wiew => exact ⟨p, wiew, List.prefix_rfl, hpath ▸ hold, by rwa [hold] at hcomplete⟩
        | none =>
            rw [hold, Option.getD_none, Complete, serverSnap_initialView,
              isFullyInitialized_serverCacheForQuery, Option.isSome_iff_exists] at hcomplete
            obtain ⟨c, hc⟩ := hcomplete
            obtain ⟨r, s, wiew, hpath', hwiew, hcomplete, -⟩ := completeServerCacheOnPath_eq_some hc
            exact ⟨r, wiew, ⟨s, by rw [hpath, hpath']⟩, hwiew, hcomplete⟩
      · exact ⟨p, view, List.prefix_rfl, hp, hcomplete⟩
    obtain ⟨r, wiew, hrp, hr, hcomplete⟩ := habove
    rw [hview] at hq
    split_ifs at hq with hpath
    · obtain rfl := Option.some.inj hq
      change Complete (self.observedView path)
      rw [observedView]
      cases hold : viewAt self.syncPointTree path with
      | some old => exact h.covering r path wiew old (hrp.trans (hpath ▸ hpq)) hr hold hcomplete
      | none =>
          obtain ⟨s, hs⟩ := hrp.trans hpq
          rw [Option.getD_none, Complete, serverSnap_initialView,
            isFullyInitialized_serverCacheForQuery, ← hpath, ← hs]
          exact isSome_completeServerCacheOnPath hr hcomplete
    · exact h.covering r q wiew view' (hrp.trans hpq) hr hq hcomplete

omit [DecidableEq σ] in
theorem removeEventRegistration (h : self.Synced server) (handle : Option ℕ)
    (path : List κ) (cancelError : Option String) :
    (self.removeEventRegistration handle path cancelError).1.Synced server := by
  have hpending := pendingWriteTree_removeEventRegistration self handle path cancelError
  have hold : ∀ {p view}, viewAt (self.removeEventRegistration handle path
      cancelError).1.syncPointTree p = some view → ∃ view', viewAt self.syncPointTree p = some view' ∧
        view.viewCache = view'.viewCache := by
    intro p view hp
    rw [viewAt_removeEventRegistration h.ascending] at hp
    split_ifs at hp with hpath
    · obtain ⟨view', hview', hp⟩ := Option.bind_eq_some_iff.mp hp
      split_ifs at hp
      exact ⟨view', hpath ▸ hview', Option.some.inj hp ▸ rfl⟩
    · exact ⟨view, hp, rfl⟩
  refine ⟨hpending ▸ h.layered, hpending ▸ h.visible, hpending ▸ h.serves,
    ascending_removeEventRegistration h.ascending _ _ _, fun p view hp => ?_,
    fun p q view wiew hpq hp hq hcomplete => ?_⟩
  · obtain ⟨view', hview', hcache⟩ := hold hp
    rw [hpending, hcache]
    exact h.views p view' hview'
  · obtain ⟨view', hp', hcache⟩ := hold hp
    obtain ⟨wiew', hq', hcache'⟩ := hold hq
    rw [Complete, hcache] at hcomplete
    rw [Complete, hcache']
    exact h.covering p q view' wiew' hpq hp' hq' hcomplete

end Synced
end FSyncTree
end ZipR
