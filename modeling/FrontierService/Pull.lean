import FrontierService.RamStore

/-!
# Pulling one peer's frontiers

`manage_peer_frontiers` hands `frontier_read_iter(s)` to `add_fronts_from_iter`, which
calls `next` until `StopIteration`; an exception of a read or of the backend leaves the
loop. `read_frontier_response` and `is_end_marker` are not under src/: a stream is the list
of results of the successive reads, `closed` is what a read raises once it is used up, and
the end-marker test is a parameter.
-/

namespace FrontierService

section Pull

variable {σ ε : Type} (isEndMarker : FrontierEntry → Bool) (closed : ε)

/-- `add_fronts_from_iter(frontier_read_iter(s), peer)`: the backend after the loop, and the
exception that left it (`none` for `StopIteration`). -/
def addFrontsFromIter (add : σ → FrontierEntry → σ × Option ε) (db : σ) :
    List (Except ε FrontierEntry) → σ × Option ε
  | [] => (db, some closed)
  | .error e :: _ => (db, some e)
  | .ok front :: reads =>
    if isEndMarker front then (db, none)
    else match add db front with
      | (db', none) => addFrontsFromIter add db' reads
      | (db', some e) => (db', some e)

/-- The records of a stream before its first end marker or failed read. -/
def recordsBefore : List (Except ε FrontierEntry) → List FrontierEntry
  | [] => []
  | .error _ :: _ => []
  | .ok front :: reads => if isEndMarker front then [] else front :: recordsBefore reads

/-- How a stream ends: `none` at an end marker, else the exception of the failing read. -/
def streamEnd : List (Except ε FrontierEntry) → Option ε
  | [] => some closed
  | .error e :: _ => some e
  | .ok front :: reads => if isEndMarker front then none else streamEnd reads

/-- `add` on each of `fs` in order, up to and including the first call that raises. -/
def addAll (add : σ → FrontierEntry → σ × Option ε) (db : σ) : List FrontierEntry → σ × Option ε
  | [] => (db, none)
  | f :: fs => match add db f with
    | (db', none) => addAll add db' fs
    | (db', some e) => (db', some e)

theorem addFrontsFromIter_eq (add : σ → FrontierEntry → σ × Option ε) (db : σ)
    (reads : List (Except ε FrontierEntry)) :
    addFrontsFromIter isEndMarker closed add db reads =
      match addAll add db (recordsBefore isEndMarker reads) with
      | (db', none) => (db', streamEnd isEndMarker closed reads)
      | r => r := by
  induction reads generalizing db with
  | nil => rfl
  | cons r reads ih =>
    rcases r with e | front
    · rfl
    · by_cases hm : isEndMarker front
      · simp [addFrontsFromIter, recordsBefore, streamEnd, addAll, hm]
      · simp only [addFrontsFromIter, recordsBefore, streamEnd, addAll, hm, Bool.false_eq_true,
          if_false]
        rcases add db front with ⟨db', _ | e⟩
        · exact ih db'
        · rfl

theorem addAll_pure (g : σ → FrontierEntry → σ) (db : σ) (fs : List FrontierEntry) :
    addAll (fun d f => (g d f, none)) db fs = (fs.foldl g db, (none : Option ε)) := by
  induction fs generalizing db with
  | nil => rfl
  | cons f fs ih => exact ih (g db f)

theorem recordsBefore_not_endMarker (reads : List (Except ε FrontierEntry)) :
    ∀ f ∈ recordsBefore isEndMarker reads, isEndMarker f = false := by
  induction reads with
  | nil => simp [recordsBefore]
  | cons r reads ih =>
    rcases r with e | front
    · simp [recordsBefore]
    · by_cases hm : isEndMarker front
      · simp [recordsBefore, hm]
      · simp only [recordsBefore, hm, Bool.false_eq_true, if_false, List.mem_cons]
        rintro f (rfl | hf)
        · simpa using hm
        · exact ih f hf

/-- Nothing after an end marker is read. -/
theorem addFrontsFromIter_endMarker (add : σ → FrontierEntry → σ × Option ε) (db : σ)
    (pre : List (Except ε FrontierEntry)) {m : FrontierEntry} (hm : isEndMarker m = true)
    (post : List (Except ε FrontierEntry)) :
    addFrontsFromIter isEndMarker closed add db (pre ++ .ok m :: post) =
      addFrontsFromIter isEndMarker closed add db (pre ++ [.ok m]) := by
  induction pre generalizing db with
  | nil => simp [addFrontsFromIter, hm]
  | cons r pre ih =>
    rcases r with e | front
    · rfl
    · simp only [List.cons_append, addFrontsFromIter]
      split
      · rfl
      · rcases add db front with ⟨db', _ | e⟩
        · exact ih db'
        · rfl

end Pull

/-- The backend sees each record before the first end marker or failed read once, in order,
until an add raises; in memory the result is the fold of upserts. -/
theorem pull_adds_records_in_order {σ ε : Type} (isEndMarker : FrontierEntry → Bool) (closed : ε) :
    (∀ (add : σ → FrontierEntry → σ × Option ε) db reads,
      addFrontsFromIter isEndMarker closed add db reads =
        match addAll add db (recordsBefore isEndMarker reads) with
        | (db', none) => (db', streamEnd isEndMarker closed reads)
        | r => r) ∧
    (∀ reads : List (Except ε FrontierEntry), ∀ f ∈ recordsBefore isEndMarker reads,
      isEndMarker f = false) ∧
    (∀ (add : σ → FrontierEntry → σ × Option ε) db pre m post, isEndMarker m = true →
      addFrontsFromIter isEndMarker closed add db (pre ++ .ok m :: post) =
        addFrontsFromIter isEndMarker closed add db (pre ++ [.ok m])) ∧
    ∀ cs reads,
      (addFrontsFromIter isEndMarker closed (fun s f => (s.call (.add f), none))
          (RamStore.empty.runCalls cs) reads).1.contents =
        (recordsBefore isEndMarker reads).foldl Contents.upsert (RamStore.empty.runCalls cs).contents ∧
      (addFrontsFromIter isEndMarker closed (fun s f => (s.call (.add f), none))
          (RamStore.empty.runCalls cs) reads).2 = streamEnd isEndMarker closed reads := by
  refine ⟨addFrontsFromIter_eq isEndMarker closed, recordsBefore_not_endMarker isEndMarker,
    fun add db pre m post hm => addFrontsFromIter_endMarker isEndMarker closed add db pre hm post,
    fun cs reads => ?_⟩
  rw [addFrontsFromIter_eq, addAll_pure]
  have hinv := (RamStore.runCalls_inv_contents RamStore.inv_empty cs).1
  have hrun := RamStore.runCalls_inv_contents hinv ((recordsBefore isEndMarker reads).map .add)
  simp only [RamStore.runCalls, List.foldl_map] at hrun
  exact ⟨hrun.2, rfl⟩

/-- A counting backend and a stream whose first read is an end marker, followed by a record
that is never read. -/
theorem pull_adds_records_in_order_marker_first :
    (fun f : FrontierEntry => f.account == zeros 32) ⟨zeros 32, zeros 32⟩ = true ∧
      addFrontsFromIter (fun f => f.account == zeros 32) PyExc.socketClosed
          (fun (n : Nat) _ => (n + 1, none)) 0
          ([] ++ .ok ⟨zeros 32, zeros 32⟩ :: [.ok ⟨List.replicate 32 1, List.replicate 32 0xAA⟩]) =
        addFrontsFromIter (fun f => f.account == zeros 32) PyExc.socketClosed
          (fun (n : Nat) _ => (n + 1, none)) 0 ([] ++ [.ok ⟨zeros 32, zeros 32⟩]) :=
  ⟨by decide, (@pull_adds_records_in_order Nat PyExc (fun f => f.account == zeros 32) PyExc.socketClosed).2.2.1
    _ _ _ _ _ (by decide)⟩

end FrontierService
