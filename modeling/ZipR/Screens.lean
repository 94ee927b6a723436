import ZipR.Session
import ZipR.Fetches

/-! # The rows on screen

A table shows the rows of its last `reloadData`, the code reads the array behind it.  A fetch
completion replaces the array at once and only enqueues the reload; swiping a row away does both
in one go.

* `rows_current_of_no_reload`: as long as no reload of a table is queued, its rows are the array.
* `acted_row_shown`: then the row acted on is the row shown, for swipes and for selections.
* `wrong_row_deleted`: between a completion and its reload a swipe may delete another post than
  the one swiped. -/

namespace ZipR

open Reactive JsonTree

namespace App

variable {P : Platform} {app app' : App}

/-- Tables without a queued reload show the array behind them. -/
structure Settled (app : App) : Prop where
  messageBoard : .reloadMessageBoard ∉ app.mainQueue →
    app.messageBoard.rows = app.messageBoard.localPosts
  recentActivity : .reloadRecentActivity ∉ app.mainQueue →
    app.recentActivity.rows = app.recentActivity.usersPosts

theorem Settled.issued (h : app.Settled) (hi : Issued app app') : app'.Settled where
  messageBoard := by
    rw [hi.mainQueue, hi.boardRows, hi.localPosts]
    exact h.messageBoard
  recentActivity := by
    rw [hi.mainQueue, hi.recentActivity]
    exact h.recentActivity

theorem Settled.complete (h : app.Settled) {call : FetchCall}
    (hc : app.complete P call = .ok app') : app'.Settled := by
  rcases complete_cases hc with ⟨_, _, localPosts, -, -, rfl⟩ | ⟨localPosts, -, -, rfl⟩ |
    ⟨usersPosts, -, -, rfl⟩
  · exact ⟨fun hq => absurd (by simp) hq, fun hq => h.recentActivity fun hm => hq (by simp [hm])⟩
  · exact ⟨fun hq => absurd (by simp) hq, fun hq => h.recentActivity fun hm => hq (by simp [hm])⟩
  · exact ⟨fun hq => h.messageBoard fun hm => hq (by simp [hm]), fun hq => absurd (by simp) hq⟩

theorem Settled.mainQueueBlock (h : app.Settled) : app.mainQueueBlock.Settled := by
  unfold App.mainQueueBlock
  split
  · exact h
  · rename_i blocks hq
    refine ⟨fun _ => rfl, fun hb => h.recentActivity fun hm => hb ?_⟩
    simpa [hq] using hm
  · rename_i blocks hq
    refine ⟨fun hb => h.messageBoard fun hm => hb ?_, fun _ => rfl⟩
    simpa [hq] using hm

theorem Settled.step (h : app.Settled) {e : Event} {os : List Output}
    (hs : (machine P).Step app e os app') : app'.Settled := by
  cases dataStep hs with
  | launch _ => exact ⟨fun _ => rfl, fun _ => rfl⟩
  | issue hi => exact h.issued hi
  | drop _ => exact ⟨h.messageBoard, h.recentActivity⟩
  | @complete call records _ _ hc =>
      have hfilled : ((app.setPosts call.postController
          (PostController.decodePosts records)).removeFetch call.id).Settled :=
        ⟨h.messageBoard, h.recentActivity⟩
      exact hfilled.complete hc
  | block => exact h.mainQueueBlock
  | @delete row p _ =>
      have hi := Issued.post (app.removeRows P p.id) .Deletion
      refine ⟨fun hq => ?_, fun _ => rfl⟩
      have hrows := h.messageBoard fun hm => hq (by rw [reloadRecentActivity, hi.mainQueue]; exact hm)
      rw [reloadRecentActivity, hi.boardRows, hi.localPosts]
      exact hrows
  | select _ => exact ⟨h.messageBoard, h.recentActivity⟩

/-- **Rows are current unless a reload is queued**, in every reachable state. -/
theorem rows_current_of_no_reload (h : (machine P).Reachable app) : app.Settled := by
  refine h.invariant ?_ fun _ _ _ _ hi hs => hi.step hs
  rintro _ ⟨flag, account, signOutError, rfl⟩
  exact ⟨fun _ => rfl, fun _ => rfl⟩

/-! ### Acting on a row -/

/-- No reload of the table acted on is queued. -/
def Calm (app : App) : Event → Prop
  | .commitDelete _ => .reloadRecentActivity ∉ app.mainQueue
  | .selectRow _ => .reloadMessageBoard ∉ app.mainQueue
  | _ => True

/-- **The row acted on is the row shown.**  In every reachable state, a touch of a displayed row
while no reload of its table is queued finds in the array the post shown on that row: a swipe
does not trap out of range and deletes that very post, a selection shows that very post. -/
theorem acted_row_shown (h : (machine P).Reachable app) :
    (∀ row, app.Enabled (.commitDelete row) → app.Calm (.commitDelete row) →
      ∃ p, app.recentActivity.rows[row]? = some p ∧
        app.recentActivity.usersPosts[row]? = some p ∧
        step P app (.commitDelete row) ≠ .error .indexOutOfRange ∧
        ∀ os app', (machine P).Step app (.commitDelete row) os app' →
          os = (PostController.deletePostandItsComments (p.id.getD "")).map .write) ∧
    ∀ row, app.Enabled (.selectRow row) → app.Calm (.selectRow row) →
      ∃ p, app.messageBoard.rows[row]? = some p ∧
        app.messageBoard.localPosts[row]? = some p ∧
        ∃ app', (machine P).Step app (.selectRow row) [.detail p] app' := by
  have hsettled := rows_current_of_no_reload h
  have hwired := wired_of_reachable h
  constructor
  · intro row hrow hcalm
    have heq := hsettled.recentActivity hcalm
    obtain ⟨p, hp⟩ : ∃ p, app.recentActivity.rows[row]? = some p :=
      ⟨_, List.getElem?_eq_getElem hrow⟩
    refine ⟨p, hp, heq ▸ hp, ?_, ?_⟩
    · intro herr
      cases commitDelete_eq_error (heq ▸ hp) herr
    · intro os app' hs
      obtain ⟨q, hq, -, rfl⟩ := commitDelete_cases hs.2
      obtain rfl : p = q := Option.some.inj ((heq ▸ hp).symm.trans hq)
      rw [if_neg (by rw [hwired.recentActivity]; simp)]
  · intro row hrow hcalm
    have heq := hsettled.messageBoard hcalm
    obtain ⟨p, hp⟩ : ∃ p, app.messageBoard.rows[row]? = some p :=
      ⟨_, List.getElem?_eq_getElem hrow⟩
    have hl : app.messageBoard.localPosts[row]? = some p := heq ▸ hp
    have hs : app.selectRow row = .ok ({ app with
        details := app.details ++ [⟨app.messageBoard.postController, some p⟩] }, [.detail p]) := by
      simp only [selectRow, hl]
    exact ⟨p, hp, hl, _, hrow, hs⟩

/-! Two posts of one author, the older fetched first. -/

def olderRecord : String × Json :=
  ("6F96-8B86", (NewPost.post "6F96-8B86"
    ⟨"A", "Older", "First post", ["news"], "37.5", "-122.25", "1580774400.0"⟩).record)

def newerRecord : String × Json :=
  ("B42D-00CF", (NewPost.post "B42D-00CF"
    ⟨"A", "Newer", "Second post", ["food"], "37.5", "-122.25", "1580774500.0"⟩).record)

/-- The older post is on screen. -/
def olderShown : List Event :=
  loginA ++ [.locationReply 0 (some home), .recentActivityWillAppear,
    .fetchAnswer 0 (.value (.object [olderRecord])), .mainQueueBlock]

/-- A fetch has brought both posts, but its reload is still queued. -/
def bothFetched : List Event :=
  olderShown ++ [.recentActivityWillAppear,
    .fetchAnswer 1 (.value (.object [olderRecord, newerRecord]))]

theorem wrong_row_deleted : ∃ s os s', (machine .decimal).Reachable s ∧
    s.recentActivity.rows[0]?.bind Post.id = some "6F96-8B86" ∧
    (machine .decimal).Step s (.commitDelete 0) os s' ∧
    os = (PostController.deletePostandItsComments "B42D-00CF").map .write := by
  obtain ⟨ps, s, hr, hen, hrow, hdel⟩ := Machine.Run.exists_of_exec (M := machine .decimal)
    (s := firstLaunch) (l := bothFetched)
    (Q := fun s _ => s.Enabled (.commitDelete 0) ∧
      s.recentActivity.rows[0]?.bind Post.id = some "6F96-8B86" ∧
      (step .decimal s (.commitDelete 0)).toOption.map Prod.snd =
        some ((PostController.deletePostandItsComments "B42D-00CF").map .write))
    (by decide +kernel) (by decide +kernel)
  cases hs : step .decimal s (.commitDelete 0) with
  | error e => rw [hs] at hdel; cases hdel
  | ok r =>
      obtain ⟨s', os⟩ := r
      rw [hs] at hdel
      exact ⟨s, os, s', ⟨_, _, ps, start_firstLaunch _, hr⟩, hrow, ⟨hen, hs⟩, Option.some.inj hdel⟩

theorem acted_row_shown_sample : ∃ s p, (machine .decimal).Reachable s ∧
    s.recentActivity.rows[0]? = some p ∧ s.recentActivity.usersPosts[0]? = some p := by
  obtain ⟨ps, s, hr, hen, hcalm⟩ := Machine.Run.exists_of_exec (M := machine .decimal)
    (s := firstLaunch) (l := olderShown)
    (Q := fun s _ => 0 < s.recentActivity.rows.length ∧ .reloadRecentActivity ∉ s.mainQueue)
    (by decide +kernel) (by decide +kernel)
  have hreach : (machine .decimal).Reachable s := ⟨_, _, ps, start_firstLaunch _, hr⟩
  obtain ⟨p, hrow, hpost, -⟩ := (acted_row_shown hreach).1 0 hen hcalm
  exact ⟨s, p, hreach, hrow, hpost⟩

end App
end ZipR
