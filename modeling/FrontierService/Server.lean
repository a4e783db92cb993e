import FrontierService.Basic
import Mathlib.Data.List.Perm.Basic

/-!
# The query server's accept loop

`start_service` acquires a permit of `threading.BoundedSemaphore(8)`, accepts a connection
and starts a thread running `incoming_connection_handler`, whose `finally` releases the
permit. The loop and the workers interleave arbitrarily, and `accept`, `settimeout` or
`start` may raise. `released` is an auxiliary log, not program state: the workers whose
`release()` returned.
-/

namespace FrontierService

/-- `threading.BoundedSemaphore`: the counter and the initial value it may not exceed. -/
structure BoundedSemaphore where
  value : Nat
  initialValue : Nat
  deriving DecidableEq, Repr

namespace BoundedSemaphore

def new (value : Nat) : BoundedSemaphore := ⟨value, value⟩

/-- `acquire()`: blocks, here is not enabled, while the counter is 0. -/
def acquire (s : BoundedSemaphore) : Option BoundedSemaphore :=
  if s.value = 0 then none else some { s with value := s.value - 1 }

/-- `release()`: `ValueError` when the counter would pass the initial value. -/
def release (s : BoundedSemaphore) : Except PyExc BoundedSemaphore :=
  if s.value + 1 > s.initialValue then .error .valueError else .ok { s with value := s.value + 1 }

end BoundedSemaphore

/-- Where the accept loop is. -/
inductive LoopPc
  /-- at `semaphore.acquire()` -/
  | acquire
  /-- holding a permit, before the worker is started -/
  | holding
  /-- `accept`, `settimeout` or `Thread.start` raised; the permit is kept -/
  | exited
  deriving DecidableEq, Repr

structure Server where
  semaphore : BoundedSemaphore
  loop : LoopPc
  live : List Nat
  nextWorker : Nat
  released : List Nat
  deriving DecidableEq, Repr

inductive ServerEvent
  | acquire
  /-- `accept`, `settimeout(60)` and the worker's `start` succeed. -/
  | accept
  /-- One of them raises. -/
  | acceptFails
  /-- Worker `w`'s `comm_thread` returned or raised `outcome`; the `finally` runs either way. -/
  | finish (w : Nat) (outcome : Except PyExc Unit)

namespace Server

def init : Server := ⟨BoundedSemaphore.new 8, .acquire, [], 0, []⟩

/-- One step of the loop or of a worker; `none` when it is not enabled. A worker whose
`release()` raised ends without returning the permit. -/
def step (s : Server) : ServerEvent → Option Server
  | .acquire =>
    if s.loop = .acquire then
      s.semaphore.acquire.map fun sem => { s with semaphore := sem, loop := .holding }
    else none
  | .accept =>
    if s.loop = .holding then
      some { s with loop := .acquire, live := s.live ++ [s.nextWorker], nextWorker := s.nextWorker + 1 }
    else none
  | .acceptFails => if s.loop = .holding then some { s with loop := .exited } else none
  | .finish w _ =>
    if w ∈ s.live then
      match s.semaphore.release with
      | .ok sem => some { s with semaphore := sem, live := s.live.erase w, released := s.released ++ [w] }
      | .error _ => some { s with live := s.live.erase w }
    else none

/-- The permit the loop holds from `acquire` until the worker is started. -/
def loopHeld (s : Server) : Nat := if s.loop = .acquire then 0 else 1

structure Inv (s : Server) : Prop where
  conserved : s.semaphore.value + s.loopHeld + s.live.length = 8
  bound : s.semaphore.initialValue = 8
  accounted : (s.released ++ s.live).Perm (List.range s.nextWorker)

theorem inv_init : Inv init := ⟨rfl, rfl, List.Perm.refl _⟩

/-- A live worker's `release()` returns. -/
theorem release_of_live {s : Server} (h : Inv s) {w : Nat} (hw : w ∈ s.live) :
    s.semaphore.release = .ok { s.semaphore with value := s.semaphore.value + 1 } := by
  have hlen := List.length_pos_of_mem hw
  have := h.conserved
  unfold BoundedSemaphore.release
  rw [if_neg (by rw [h.bound]; omega)]

theorem inv_step {s s' : Server} {e : ServerEvent} (h : Inv s) (hs : s.step e = some s') : Inv s' := by
  have hc := h.conserved
  cases e with
  | acquire =>
    simp only [step, BoundedSemaphore.acquire] at hs
    split at hs <;> [skip; cases hs]
    rename_i hloop
    split at hs <;> cases hs
    rename_i hv
    refine ⟨?_, h.bound, h.accounted⟩
    simp only [loopHeld, hloop, if_true] at hc
    simp only [loopHeld, reduceCtorEq, if_false]
    omega
  | accept =>
    simp only [step] at hs
    split at hs <;> cases hs
    rename_i hloop
    refine ⟨?_, h.bound, ?_⟩
    · simp only [loopHeld, hloop, reduceCtorEq, if_false] at hc
      simp only [loopHeld, if_true, List.length_append, List.length_singleton]
      omega
    · rw [List.range_succ, ← List.append_assoc]
      exact h.accounted.append_right _
  | acceptFails =>
    simp only [step] at hs
    split at hs <;> cases hs
    rename_i hloop
    exact ⟨by simpa [loopHeld, hloop] using hc, h.bound, h.accounted⟩
  | finish w outcome =>
    simp only [step] at hs
    split at hs <;> [skip; cases hs]
    rename_i hw
    rw [release_of_live h hw] at hs
    cases hs
    have hlen := List.length_erase_of_mem hw
    have hpos := List.length_pos_of_mem hw
    refine ⟨?_, h.bound, ?_⟩
    · simp only [loopHeld] at hc ⊢
      rw [hlen]
      omega
    · refine List.Perm.trans ?_ h.accounted
      rw [List.append_assoc, List.singleton_append]
      exact (List.perm_cons_erase hw).symm.append_left _

/-- In every run, permits available, held and live workers add up to 8, each worker releases
once, and no `release()` raises `ValueError`. -/
theorem permits_conserved (evs : List ServerEvent) (s : Server)
    (h : runSteps step init evs = some s) :
    s.semaphore.value + (if s.loop = .acquire then 0 else 1) + s.live.length = 8 ∧
      s.live.length ≤ 8 ∧
      (s.released ++ s.live).Perm (List.range s.nextWorker) ∧
      ∀ w ∈ s.live, s.semaphore.release = .ok { s.semaphore with value := s.semaphore.value + 1 } := by
  have hinv := runSteps_invariant step Inv (fun _ _ _ => inv_step) inv_init h
  have hc := hinv.conserved
  exact ⟨hc, by unfold loopHeld at hc; omega, hinv.accounted, fun _ hw => release_of_live hinv hw⟩

/-- Two workers, the first raising in `comm_thread`, then a failed `accept`. -/
theorem permits_conserved_two_workers :
    ∃ s, runSteps step init [.acquire, .accept, .acquire, .accept,
        .finish 0 (.error .assertionError), .acquire, .acceptFails] = some s ∧
      s.semaphore.value + (if s.loop = .acquire then 0 else 1) + s.live.length = 8 ∧
      s.live.length ≤ 8 ∧
      (s.released ++ s.live).Perm (List.range s.nextWorker) ∧
      ∀ w ∈ s.live, s.semaphore.release = .ok { s.semaphore with value := s.semaphore.value + 1 } :=
  ⟨_, rfl, permits_conserved [.acquire, .accept, .acquire, .accept,
    .finish 0 (.error .assertionError), .acquire, .acceptFails] _ rfl⟩

end Server

end FrontierService
