import Mathlib.Data.List.Basic

/-! # Dispatch groups

A counter with blocks that wait for it to come back to zero.

* **Counting.** `enter` adds one, `leave` takes one away; a `leave` at zero stops the program.
* **Waiting.** `notify` keeps its block until the count is zero, and hands it out at once when it
  already is.  Blocks that are handed out are enqueued by the caller, in the order of their
  `notify` calls.

Blocks only wait while the count is positive, which the structure itself carries.  `leave` neither
loses a block nor makes one up (`leave_perm`). -/

namespace Reactive

structure DispatchGroup (β : Type) where
  count : ℕ
  blocks : List β
  settled : count = 0 → blocks = []
deriving DecidableEq, Repr

/-- `leave` was called at zero. -/
inductive UnbalancedLeave where
  | unbalancedLeave
deriving DecidableEq, Repr

namespace DispatchGroup

variable {β : Type}

def new : DispatchGroup β := ⟨0, [], fun _ => rfl⟩

def enter (g : DispatchGroup β) : DispatchGroup β :=
  ⟨g.count + 1, g.blocks, fun h => absurd h (Nat.succ_ne_zero _)⟩

/-- The group after `leave`, and the blocks to enqueue. -/
def leave (g : DispatchGroup β) : Except UnbalancedLeave (DispatchGroup β × List β) :=
  match g.count with
  | 0 => .error .unbalancedLeave
  | 1 => .ok (new, g.blocks)
  | n + 2 => .ok (⟨n + 1, g.blocks, fun h => absurd h (Nat.succ_ne_zero _)⟩, [])

/-- The group after `notify`, and the blocks to enqueue. -/
def notify (g : DispatchGroup β) (block : β) : DispatchGroup β × List β :=
  if h : g.count = 0 then (g, [block])
  else (⟨g.count, g.blocks ++ [block], fun h₀ => absurd h₀ h⟩, [])

theorem leave_perm {g g' : DispatchGroup β} {ready : List β} (h : g.leave = .ok (g', ready)) :
    (ready ++ g'.blocks).Perm g.blocks := by
  unfold leave at h
  split at h
  · cases h
  · obtain ⟨rfl, rfl⟩ := Prod.mk.inj (Except.ok.inj h)
    simp [new]
  · obtain ⟨rfl, rfl⟩ := Prod.mk.inj (Except.ok.inj h)
    simp

theorem leave_count {g g' : DispatchGroup β} {ready : List β} (h : g.leave = .ok (g', ready)) :
    g.count = g'.count + 1 := by
  unfold leave at h
  split at h
  · cases h
  · obtain ⟨rfl, rfl⟩ := Prod.mk.inj (Except.ok.inj h)
    assumption
  · obtain ⟨rfl, rfl⟩ := Prod.mk.inj (Except.ok.inj h)
    assumption

theorem leave_error_iff {g : DispatchGroup β} : g.leave = .error .unbalancedLeave ↔ g.count = 0 := by
  unfold leave
  split <;> simp_all

end DispatchGroup
end Reactive
