import FrontierService.Crawl
import FrontierService.Pull
import FrontierService.Query

/-!
# The whole service

`frontier_service` over `store_in_ram_interface`: the crawl thread, one `comm_thread`
worker per connection and the threads that edit the blacklist, interleaved. A step is one
`read_frontier_response` of the current pull with the `add_frontier` it feeds, a request's
`recv`, parse and lookup, one entry of `server_packet.serialise`'s loop, or a `sendall`.
Stored entries are shared objects updated in place, so a reply may pair hashes of different
moments. `read_frontier_response` and `is_end_marker` are not under src/: each read's result
is carried by its event, a failed `connect` is a first read that fails, and the end-marker
test is a parameter.
-/

namespace FrontierService

/-- A `comm_thread` worker. -/
inductive Worker
  /-- In `server_packet(frontiers).serialise()`: the bytes so far, and the references still
  to serialise (`none` is the `None` that `get_frontier` returns). -/
  | serialising (data : Bytes) (pending : List (Option Nat))
  /-- The bytes sent, or the exception that ended the thread. -/
  | finished (reply : Except PyExc Bytes)

namespace Worker

/-- `comm_thread` up to the loop of `serialise`: parse, lookup, and the header. -/
def start (store : RamStore) (data : Bytes) : Worker :=
  match ClientPacket.parse data with
  | .error e => .finished (.error e)
  | .ok p =>
    let frontiers := if p.isAllZero then store.getAll.map some else [store.getFrontier p.account]
    match (⟨frontiers.length⟩ : ServerPacketHeader).serialise with
    | .ok hdr => .serialising hdr frontiers
    | .error e => .finished (.error e)

/-- One iteration of `serialise`'s loop, reading the entry's fields now. -/
def serialiseNext (heap : Nat → FrontierEntry) : Worker → Option Worker
  | .serialising data (some r :: pending) => some (.serialising (data ++ (heap r).serialise) pending)
  | .serialising _ (none :: _) => some (.finished (.error .attributeError))
  | _ => none

/-- The terminator, then `sendall`. -/
def send : Worker → Option Worker
  | .serialising data [] => some (.finished (.ok (data ++ zeros 64)))
  | _ => none

/-- The rest of `serialise`'s loop and the `sendall`, with no other thread between them. -/
def drain (heap : Nat → FrontierEntry) (data : Bytes) : List (Option Nat) → Except PyExc Bytes
  | [] => .ok (data ++ zeros 64)
  | none :: _ => .error .attributeError
  | some r :: pending => drain heap (data ++ (heap r).serialise) pending

/-- What a worker sends when it runs to its end with no other thread between its steps. -/
def aloneReply (heap : Nat → FrontierEntry) : Worker → Except PyExc Bytes
  | .serialising data pending => drain heap data pending
  | .finished reply => reply

theorem drain_map_some (heap : Nat → FrontierEntry) (data : Bytes) (is : List Nat) :
    drain heap data (is.map some) = .ok (data ++ ServerPacket.body (is.map heap) ++ zeros 64) := by
  induction is generalizing data with
  | nil => simp [drain, ServerPacket.body]
  | cons i is ih => simp [drain, ih, ServerPacket.body]

/-- Run alone, a worker computes what `comm_thread` does in one go. -/
theorem aloneReply_start (s : RamStore) (data : Bytes) :
    (start s data).aloneReply s.heap = commThread s.lookups data := by
  unfold start commThread
  cases ClientPacket.parse data with
  | error e => rfl
  | ok p =>
    by_cases hz : p.isAllZero
    · simp only [hz, if_true, RamStore.lookups, List.length_map]
      cases hh : (⟨s.getAll.length⟩ : ServerPacketHeader).serialise <;>
        simp [hz, aloneReply, drain_map_some, ServerPacket.serialise, ServerPacket.header, hh, bind,
          Except.bind, pure, Except.pure]
    · have hh : (⟨1⟩ : ServerPacketHeader).serialise = .ok ([magic] ++ toBytesBE 8 1) := rfl
      cases hg : s.getFrontier p.account <;>
        simp [hz, hh, hg, aloneReply, drain, RamStore.lookups, ServerPacket.serialise, ServerPacket.header,
          ServerPacket.body, bind, Except.bind, pure, Except.pure]

end Worker

/-- The running service: the crawl thread's state, the backend, and the workers started so far
in order of their connections. -/
structure Process where
  service : Service
  store : RamStore
  workers : List Worker

inductive ProcessEvent
  /-- A step of the crawl thread other than a read, or of another thread. -/
  | service (e : CrawlEvent)
  /-- The current pull's next `read_frontier_response` gives `r`. -/
  | read (r : Except PeerError FrontierEntry)
  /-- A connection whose request arrives as `segments` starts a worker. -/
  | request (segments : List Bytes)
  /-- Worker `k` serialises its next entry. -/
  | serialiseNext (k : Nat)
  /-- Worker `k` sends its packet. -/
  | send (k : Nat)

def ProcessEvent.isRequest : ProcessEvent → Bool
  | .request _ => true
  | _ => false

/-- How `manage_peer_frontiers` ends, from the exception that left `add_fronts_from_iter`. -/
def PullOutcome.ofExc : Option PeerError → PullOutcome
  | none => .completed
  | some e => .raised e

/-- The accounts a reply to `data` lists against the stored entries `contents`: every stored
account for the all-zero request, the requested one when it is stored. -/
def requestedAccounts (contents : List FrontierEntry) (data : Bytes) : List Bytes :=
  match ClientPacket.parse data with
  | .ok p =>
    if p.isAllZero then contents.map FrontierEntry.account
    else if (Contents.lookupHash contents p.account).isSome then [p.account] else []
  | .error _ => []

/-- The entry pairs its account with the hash that the records `recs` give it after some prefix
at least `start` records long: a moment from the `start`-th record on. -/
def HeldSince (recs : List FrontierEntry) (start : Nat) (f : FrontierEntry) : Prop :=
  ∃ cut, start ≤ cut ∧ cut ≤ recs.length ∧
    Contents.lookupHash ((recs.take cut).foldl Contents.upsert []) f.account = some f.frontierHash

/-- A worker requested after the records `start`, against the store and all records `recs`:
its serialised entries are moments since the request, its references still stored. -/
def WorkerOk (store : RamStore) (start recs : List FrontierEntry) (data : Bytes) : Worker → Prop
  | .serialising bytes pending => ∃ done hdr,
      (⟨done.length + pending.length⟩ : ServerPacketHeader).serialise = .ok hdr ∧
      bytes = hdr ++ ServerPacket.body done ∧ (∀ f ∈ done, HeldSince recs start.length f) ∧
      (∀ i, some i ∈ pending → i ∈ store.frontiers) ∧
      ∀ is : List Nat, pending = is.map some →
        done.map FrontierEntry.account ++ is.map (fun i => (store.heap i).account) =
          requestedAccounts (start.foldl Contents.upsert []) data
  | .finished (.ok reply) => ∃ fs, (ServerPacket.mk fs).serialise = .ok reply ∧
      fs.map FrontierEntry.account = requestedAccounts (start.foldl Contents.upsert []) data ∧
      ∀ f ∈ fs, HeldSince recs start.length f
  | .finished (.error _) => True

/-- The later store holds the earlier one's references, with their accounts. -/
def RamStore.Grows (s s' : RamStore) : Prop :=
  ∀ i ∈ s.frontiers, i ∈ s'.frontiers ∧ (s'.heap i).account = (s.heap i).account

theorem heldSince_append {recs : List FrontierEntry} {start : Nat} {f : FrontierEntry}
    (h : HeldSince recs start f) (more : List FrontierEntry) : HeldSince (recs ++ more) start f := by
  obtain ⟨cut, h1, h2, h3⟩ := h
  exact ⟨cut, h1, by simp only [List.length_append]; omega, by rwa [List.take_append_of_le_length h2]⟩

theorem RamStore.grows_runCalls_adds {s : RamStore} (h : RamStore.Inv s) (fs : List FrontierEntry) :
    s.Grows (s.runCalls (fs.map .add)) :=
  fun i hi => ⟨(RamStore.runCalls_adds_frontiers s fs).subset hi,
    RamStore.runCalls_account s _ (h.allocated i hi)⟩

/-- A stored reference's entry holds its account's stored hash. -/
theorem RamStore.lookupHash_heap {s : RamStore} (h : RamStore.Inv s) {i : Nat} (hi : i ∈ s.frontiers) :
    Contents.lookupHash s.contents (s.heap i).account = some (s.heap i).frontierHash :=
  (Contents.mem_iff_lookupHash h.unique _ _).mp (List.mem_map_of_mem _ hi)

section Workers

variable {s s' : RamStore} {start recs : List FrontierEntry} {data : Bytes}

theorem workerOk_mono {w : Worker} (h : WorkerOk s start recs data w) (hg : s.Grows s')
    (more : List FrontierEntry) : WorkerOk s' start (recs ++ more) data w := by
  match w with
  | .serialising bytes pending =>
    obtain ⟨done, hdr, hh, hb, hheld, hrefs, hacc⟩ := h
    refine ⟨done, hdr, hh, hb, fun f hf => heldSince_append (hheld f hf) more,
      fun i hi => (hg i (hrefs i hi)).1, fun is his => ?_⟩
    rw [← hacc is his]
    congr 1
    exact List.map_congr_left fun i hi => (hg i (hrefs i (his ▸ List.mem_map_of_mem _ hi))).2
  | .finished (.ok reply) =>
    obtain ⟨fs, hser, hacc, hheld⟩ := h
    exact ⟨fs, hser, hacc, fun f hf => heldSince_append (hheld f hf) more⟩
  | .finished (.error _) => trivial

/-- A new worker: its references are the stored ones it looked up, for the requested accounts. -/
theorem workerOk_start (hinv : RamStore.Inv s) (hcont : s.contents = recs.foldl Contents.upsert []) :
    WorkerOk s recs recs data (Worker.start s data) := by
  unfold Worker.start
  split
  · exact True.intro
  · rename_i p hp
    dsimp only
    split
    · rename_i hdr hh
      refine ⟨[], hdr, by simpa using hh, by simp, by simp, fun i hi => ?_, fun is his => ?_⟩
      · split at hi
        · simpa [RamStore.getAll] using hi
        · simp only [List.mem_singleton, Option.some.injEq] at hi
          exact List.mem_of_find?_eq_some hi.symm
      · simp only [requestedAccounts, hp, ← hcont, List.nil_append]
        split at his
        · rename_i hz
          obtain rfl := List.map_injective_iff.mpr (Option.some_injective _) his.symm
          simp [hz, RamStore.getAll, RamStore.contents]
        · rename_i hz
          rw [if_neg hz]
          obtain ⟨i, rfl⟩ := List.length_eq_one.mp (by simpa using congrArg List.length his.symm)
          simp only [List.map_cons, List.map_nil, List.cons.injEq, and_true] at his
          have hacc : (s.heap i).account = p.account := by simpa using List.find?_some his
          have hmem := List.mem_of_find?_eq_some his
          rw [← hacc, RamStore.lookupHash_heap hinv hmem]
          rfl
    · exact True.intro

/-- One entry serialised: the hash read now is its account's hash at this moment. -/
theorem workerOk_serialiseNext (hinv : RamStore.Inv s) (hcont : s.contents = recs.foldl Contents.upsert [])
    (hle : start.length ≤ recs.length) {w w' : Worker} (h : WorkerOk s start recs data w)
    (hw : w.serialiseNext s.heap = some w') : WorkerOk s start recs data w' := by
  match w, hw with
  | .serialising bytes (some i :: pending), hw =>
    cases hw
    obtain ⟨done, hdr, hh, hb, hheld, hrefs, hacc⟩ := h
    have hi := hrefs i (List.mem_cons_self _ _)
    refine ⟨done ++ [s.heap i], hdr, by simpa [Nat.add_assoc, Nat.add_comm 1] using hh, ?_, fun f hf => ?_,
      fun j hj => hrefs j (List.mem_cons_of_mem _ hj), fun is his => ?_⟩
    · simp [hb, ServerPacket.body, List.flatMap_append]
    · rcases List.mem_append.mp hf with hf | hf
      · exact hheld f hf
      · rw [List.mem_singleton.mp hf]
        refine ⟨recs.length, hle, le_rfl, ?_⟩
        rw [List.take_length, ← hcont]
        exact RamStore.lookupHash_heap hinv hi
    · simpa using hacc (i :: is) (by rw [his]; rfl)
  | .serialising bytes (none :: pending), hw =>
    cases hw
    exact True.intro

theorem workerOk_send {w w' : Worker} (h : WorkerOk s start recs data w) (hw : w.send = some w') :
    WorkerOk s start recs data w' := by
  match w, hw with
  | .serialising bytes [], hw =>
    cases hw
    obtain ⟨done, hdr, hh, hb, hheld, _, hacc⟩ := h
    refine ⟨done, ?_, by simpa using hacc [] rfl, hheld⟩
    simp only [List.length_nil, Nat.add_zero] at hh
    simp [ServerPacket.serialise, ServerPacket.header, hh, hb, bind, Except.bind, pure, Except.pure]

end Workers

section Step

variable (isEndMarker : FrontierEntry → Bool)

/-- The record an event hands to `add_frontier`. -/
def ProcessEvent.records : ProcessEvent → List FrontierEntry
  | .read (.ok f) => if isEndMarker f then [] else [f]
  | _ => []

/-- The crawl machine's events for an event: a read ends the pull at an end marker or an
exception. -/
def ProcessEvent.crawlEvents : ProcessEvent → List CrawlEvent
  | .service e => [e]
  | .read (.ok f) => if isEndMarker f then [.pullNext .completed] else []
  | .read (.error e) => [.pullNext (.raised e)]
  | _ => []

namespace Process

def init (clock : Time) : Process := ⟨Service.init clock, RamStore.empty, []⟩

/-- One step of a thread; `none` when it is not enabled. -/
def step (n : Process) : ProcessEvent → Option Process
  | .service (.pullNext _) => none
  | .service e => (n.service.step e).map fun s => { n with service := s }
  | .read r =>
    match n.service.pc, r with
    | .pass (p :: rest), .ok f =>
      if isEndMarker f then some { n with service := n.service.pullOne p rest .completed }
      else some { n with store := n.store.call (.add f) }
    | .pass (p :: rest), .error e => some { n with service := n.service.pullOne p rest (.raised e) }
    | _, _ => none
  | .request segments =>
    some { n with workers := n.workers ++ [Worker.start n.store (recv segments 33).1] }
  | .serialiseNext k =>
    n.workers[k]?.bind fun w => (w.serialiseNext n.store.heap).map fun w' =>
      { n with workers := n.workers.set k w' }
  | .send k => n.workers[k]?.bind fun w => w.send.map fun w' => { n with workers := n.workers.set k w' }

/-- What a step does to the crawl thread and the store: the crawl machine's step, and the
record it hands over added. -/
theorem step_spec {n n' : Process} {e : ProcessEvent} (h : step isEndMarker n e = some n') :
    runSteps Service.step n.service (e.crawlEvents isEndMarker) = some n'.service ∧
      n'.store = n.store.runCalls ((e.records isEndMarker).map .add) := by
  cases e with
  | service ce =>
    cases ce
    case pullNext => cases h
    all_goals
      simp only [step, Option.map_eq_some'] at h
      obtain ⟨s, hs, rfl⟩ := h
      exact ⟨by simp [ProcessEvent.crawlEvents, runSteps, hs], rfl⟩
  | read r =>
    simp only [step] at h
    split at h
    · rename_i p rest f hpc
      by_cases hm : isEndMarker f
      · simp only [hm, if_true, Option.some.injEq] at h
        subst h
        exact ⟨by simp [ProcessEvent.crawlEvents, hm, runSteps, Service.step, hpc], by
          simp [ProcessEvent.records, hm, RamStore.runCalls]⟩
      · simp only [hm, Bool.false_eq_true, if_false, Option.some.injEq] at h
        subst h
        exact ⟨by simp [ProcessEvent.crawlEvents, hm, runSteps], by
          simp [ProcessEvent.records, hm, RamStore.runCalls]⟩
    · rename_i p rest e hpc
      cases h
      exact ⟨by simp [ProcessEvent.crawlEvents, runSteps, Service.step, hpc], rfl⟩
    · cases h
  | request segments =>
    cases h
    exact ⟨rfl, rfl⟩
  | serialiseNext k =>
    simp only [step, Option.bind_eq_some, Option.map_eq_some'] at h
    obtain ⟨_, _, _, _, rfl⟩ := h
    exact ⟨rfl, rfl⟩
  | send k =>
    simp only [step, Option.bind_eq_some, Option.map_eq_some'] at h
    obtain ⟨_, _, _, _, rfl⟩ := h
    exact ⟨rfl, rfl⟩

/-- What a step does to the workers: nothing, a new one for a request, or one step of one. -/
theorem step_workers {n n' : Process} {e : ProcessEvent} (h : step isEndMarker n e = some n') :
    (e.isRequest = false ∧ n'.workers = n.workers) ∨
    (∃ segments, e = .request segments ∧ n'.store = n.store ∧
      n'.workers = n.workers ++ [Worker.start n.store (recv segments 33).1]) ∨
    (∃ k w w', n.workers[k]? = some w ∧
      (e = .serialiseNext k ∧ w.serialiseNext n.store.heap = some w' ∨ e = .send k ∧ w.send = some w') ∧
      n'.store = n.store ∧ n'.workers = n.workers.set k w') := by
  cases e with
  | service ce =>
    cases ce
    case pullNext => cases h
    all_goals
      simp only [step, Option.map_eq_some'] at h
      obtain ⟨s, -, rfl⟩ := h
      exact .inl ⟨rfl, rfl⟩
  | read r =>
    refine .inl ⟨rfl, ?_⟩
    simp only [step] at h
    split at h
    · split at h <;> cases h <;> rfl
    · cases h; rfl
    · cases h
  | request segments => cases h; exact .inr (.inl ⟨segments, rfl, rfl, rfl⟩)
  | serialiseNext k =>
    simp only [step, Option.bind_eq_some, Option.map_eq_some'] at h
    obtain ⟨w, hw, w', hw', rfl⟩ := h
    exact .inr (.inr ⟨k, w, w', hw, .inl ⟨rfl, hw'⟩, rfl, rfl⟩)
  | send k =>
    simp only [step, Option.bind_eq_some, Option.map_eq_some'] at h
    obtain ⟨w, hw, w', hw', rfl⟩ := h
    exact .inr (.inr ⟨k, w, w', hw, .inr ⟨rfl, hw'⟩, rfl, rfl⟩)

/-- A run of the service is a run of the crawl machine on the crawl thread's state, and one
sequence of adds on the store: every record its reads delivered, in order. -/
theorem runSteps_spec {n n' : Process} {evs : List ProcessEvent}
    (h : runSteps (step isEndMarker) n evs = some n') :
    runSteps Service.step n.service (evs.flatMap (ProcessEvent.crawlEvents isEndMarker)) = some n'.service ∧
      n'.store = n.store.runCalls ((evs.flatMap (ProcessEvent.records isEndMarker)).map .add) := by
  induction evs generalizing n with
  | nil => cases h; exact ⟨rfl, rfl⟩
  | cons e evs ih =>
    simp only [runSteps, Option.bind_eq_some] at h
    obtain ⟨m, hm, hrun⟩ := h
    obtain ⟨hs, hstore⟩ := step_spec isEndMarker hm
    obtain ⟨ihs, ihstore⟩ := ih hrun
    refine ⟨by rw [List.flatMap_cons, runSteps_append, hs, Option.some_bind, ihs], ?_⟩
    rw [ihstore, hstore, ← RamStore.runCalls_append, List.flatMap_cons, List.map_append]

/-- A pull read to its end, an end marker or a failed read, leaves the store and the crawl
thread as `add_fronts_from_iter` over the same stream does. -/
theorem runSteps_pull {n : Process} {p : Peer} {rest : List Peer} (hpc : n.service.pc = .pass (p :: rest))
    (fs : List FrontierEntry) (hfs : ∀ f ∈ fs, isEndMarker f = false) (last : Except PeerError FrontierEntry)
    (hlast : ∀ f, last = .ok f → isEndMarker f = true) (closed : PeerError) :
    runSteps (step isEndMarker) n ((fs.map Except.ok ++ [last]).map .read) = some { n with
      service := n.service.pullOne p rest (PullOutcome.ofExc (addFrontsFromIter isEndMarker closed
        (fun s f => (s.call (.add f), none)) n.store (fs.map Except.ok ++ [last])).2),
      store := (addFrontsFromIter isEndMarker closed (fun s f => (s.call (.add f), none)) n.store
        (fs.map Except.ok ++ [last])).1 } := by
  induction fs generalizing n with
  | nil =>
    cases last with
    | error e => simp [runSteps, step, hpc, addFrontsFromIter, PullOutcome.ofExc]
    | ok f => simp [runSteps, step, hpc, addFrontsFromIter, hlast f rfl, PullOutcome.ofExc]
  | cons f fs ih =>
    have hf := hfs f (List.mem_cons_self _ _)
    have hstep : step isEndMarker n (.read (.ok f)) = some { n with store := n.store.call (.add f) } := by
      simp [step, hpc, hf]
    rw [List.map_cons, List.cons_append, List.map_cons, runSteps, hstep, Option.some_bind,
      @ih { n with store := n.store.call (.add f) } hpc fun g hg => hfs g (List.mem_cons_of_mem _ hg)]
    simp [addFrontsFromIter, hf]

theorem drain_runs (m : Process) (k : Nat) (data : Bytes) (pending : List (Option Nat))
    (hk : m.workers[k]? = some (.serialising data pending)) :
    ∃ wevs, (∀ e ∈ wevs, e = .serialiseNext k ∨ e = .send k) ∧
      runSteps (step isEndMarker) m wevs =
        some { m with workers := m.workers.set k (.finished (Worker.drain m.store.heap data pending)) } := by
  induction pending generalizing m data with
  | nil => exact ⟨[.send k], by simp, by simp [runSteps, step, hk, Worker.send, Worker.drain]⟩
  | cons r pending ih =>
    cases r with
    | none =>
      exact ⟨[.serialiseNext k], by simp, by simp [runSteps, step, hk, Worker.serialiseNext, Worker.drain]⟩
    | some r =>
      have hlt : k < m.workers.length := (List.getElem?_eq_some_iff.mp hk).1
      obtain ⟨wevs, hev, hrun⟩ := ih { m with
        workers := m.workers.set k (.serialising (data ++ (m.store.heap r).serialise) pending) }
        (data ++ (m.store.heap r).serialise) (by simp [List.getElem?_set, hlt])
      refine ⟨.serialiseNext k :: wevs, by simpa using hev, ?_⟩
      simp only [runSteps, step, hk, Worker.serialiseNext, Option.some_bind, Option.map_some']
      rw [hrun]
      simp [Worker.drain]

/-- Run with no other thread between its steps, a worker sends what `comm_thread` computes on
the store as it stood at the request. -/
theorem worker_alone_answers_as_commThread (n : Process) (segments : List Bytes) :
    ∃ wevs, (∀ e ∈ wevs, e = .serialiseNext n.workers.length ∨ e = .send n.workers.length) ∧
      runSteps (step isEndMarker) n (.request segments :: wevs) =
        some { n with workers := n.workers ++ [.finished (commThreadOn n.store.lookups segments)] } := by
  rw [commThreadOn, ← Worker.aloneReply_start]
  cases hw : Worker.start n.store (recv segments 33).1 with
  | serialising data pending =>
    obtain ⟨wevs, hev, hrun⟩ := drain_runs isEndMarker
      { n with workers := n.workers ++ [.serialising data pending] } n.workers.length data pending (by simp)
    refine ⟨wevs, hev, ?_⟩
    simp only [runSteps, step, hw, Option.some_bind]
    rw [hrun]
    simp [Worker.aloneReply]
  | finished reply => exact ⟨[], by simp, by simp [runSteps, step, hw, Worker.aloneReply]⟩

/-- Worker `k` was started by the `k`-th request of `evs` and is, against `store`, as
`WorkerOk` says. -/
def WorkerTraced (evs : List ProcessEvent) (store : RamStore) (k : Nat) (w : Worker) : Prop :=
  ∃ pre post segments, evs = pre ++ .request segments :: post ∧ pre.countP ProcessEvent.isRequest = k ∧
    WorkerOk store (pre.flatMap (ProcessEvent.records isEndMarker))
      (evs.flatMap (ProcessEvent.records isEndMarker)) (recv segments 33).1 w

/-- What a run from the start has built: the store is the fold of the records delivered, and
there is one worker per request, each as `WorkerOk` says since its request. -/
structure Reached (evs : List ProcessEvent) (n : Process) : Prop where
  inv : RamStore.Inv n.store
  contents : n.store.contents = (evs.flatMap (ProcessEvent.records isEndMarker)).foldl Contents.upsert []
  count : n.workers.length = evs.countP ProcessEvent.isRequest
  workers : ∀ k w, n.workers[k]? = some w → WorkerTraced isEndMarker evs n.store k w

theorem workerTraced_snoc {evs : List ProcessEvent} {s s' : RamStore} {k : Nat} {w : Worker}
    (h : WorkerTraced isEndMarker evs s k w) (hg : s.Grows s') (e : ProcessEvent) :
    WorkerTraced isEndMarker (evs ++ [e]) s' k w := by
  obtain ⟨pre, post, segments, rfl, hk, hw⟩ := h
  refine ⟨pre, post ++ [e], segments, by simp, hk, ?_⟩
  rw [List.flatMap_append]
  exact workerOk_mono hw hg _

theorem reached_init (t0 : Time) : Reached isEndMarker [] (init t0) :=
  ⟨RamStore.inv_empty, rfl, rfl, fun k w h => by simp [init] at h⟩

/-- The worker a request starts is traced to that request. -/
theorem workerTraced_start {evs : List ProcessEvent} {n : Process} (hr : Reached isEndMarker evs n)
    (segments : List Bytes) :
    WorkerTraced isEndMarker (evs ++ [.request segments]) n.store n.workers.length
      (Worker.start n.store (recv segments 33).1) :=
  ⟨evs, [], segments, rfl, hr.count.symm,
    by simpa [ProcessEvent.records] using workerOk_start hr.inv hr.contents⟩

/-- A worker's own step keeps it traced: the store and the records delivered are unchanged. -/
theorem workerTraced_own_step {evs : List ProcessEvent} {n : Process} (hr : Reached isEndMarker evs n)
    {k : Nat} {w w' : Worker} (hk : n.workers[k]? = some w) {e : ProcessEvent}
    (hwk : e = .serialiseNext k ∧ w.serialiseNext n.store.heap = some w' ∨ e = .send k ∧ w.send = some w') :
    WorkerTraced isEndMarker (evs ++ [e]) n.store k w' := by
  obtain ⟨pre, post, segments, rfl, hcount, hwo⟩ := hr.workers k w hk
  have hle : (pre.flatMap (ProcessEvent.records isEndMarker)).length ≤
      ((pre ++ .request segments :: post).flatMap (ProcessEvent.records isEndMarker)).length := by simp
  refine ⟨pre, post ++ [e], segments, by simp, hcount, ?_⟩
  rcases hwk with ⟨rfl, hwk⟩ | ⟨rfl, hwk⟩
  · simpa [ProcessEvent.records] using workerOk_serialiseNext hr.inv hr.contents hle hwo hwk
  · simpa [ProcessEvent.records] using workerOk_send hwo hwk

theorem reached_step {evs : List ProcessEvent} {n n' : Process} {e : ProcessEvent}
    (hr : Reached isEndMarker evs n) (h : step isEndMarker n e = some n') :
    Reached isEndMarker (evs ++ [e]) n' := by
  obtain ⟨-, hstore⟩ := step_spec isEndMarker h
  obtain ⟨hinv', hcont'⟩ := RamStore.runCalls_adds hr.inv (e.records isEndMarker)
  have hgrow : n.store.Grows n'.store := hstore ▸ RamStore.grows_runCalls_adds hr.inv _
  refine ⟨hstore ▸ hinv', by simp [hstore, hcont', hr.contents], ?_, fun j v hv => ?_⟩
  · rcases step_workers isEndMarker h with ⟨hreq, hw⟩ | ⟨segments, rfl, -, hw⟩ |
      ⟨k, w, w', -, (⟨rfl, -⟩ | ⟨rfl, -⟩), -, hw⟩
    · simp [hw, hr.count, List.countP_append, hreq]
    all_goals simp [hw, hr.count, List.countP_append, ProcessEvent.isRequest]
  · rcases step_workers isEndMarker h with ⟨-, hw⟩ | ⟨segments, rfl, hst, hw⟩ |
      ⟨k, w, w', hk, hwk, hst, hw⟩
    · rw [hw] at hv
      exact workerTraced_snoc isEndMarker (hr.workers j v hv) hgrow _
    · rw [hw] at hv
      by_cases hj : j < n.workers.length
      · rw [List.getElem?_append_left hj] at hv
        exact workerTraced_snoc isEndMarker (hr.workers j v hv) hgrow _
      · obtain rfl : j = n.workers.length := by
          have := (List.getElem?_eq_some_iff.mp hv).1
          simp only [List.length_append, List.length_singleton] at this
          omega
        rw [List.getElem?_concat_length, Option.some.injEq] at hv
        rw [hst, ← hv]
        exact workerTraced_start isEndMarker hr segments
    · rw [hw] at hv
      by_cases hjk : j = k
      · subst hjk
        rw [List.getElem?_set_self (List.getElem?_eq_some_iff.mp hk).1, Option.some.injEq] at hv
        rw [hst, ← hv]
        exact workerTraced_own_step isEndMarker hr hk hwk
      · rw [List.getElem?_set_ne (Ne.symm hjk)] at hv
        exact workerTraced_snoc isEndMarker (hr.workers j v hv) hgrow _

theorem reached_run (t0 : Time) (evs : List ProcessEvent) (n : Process)
    (h : runSteps (step isEndMarker) (init t0) evs = some n) : Reached isEndMarker evs n := by
  induction evs using List.reverseRecOn generalizing n with
  | nil => cases h; exact reached_init isEndMarker t0
  | append_singleton evs e ih =>
    rw [runSteps_snoc, Option.bind_eq_some] at h
    obtain ⟨m, hm, hstep⟩ := h
    exact reached_step isEndMarker (ih m hm) hstep

/-- Each stored entry is a record some pull delivered. -/
theorem mem_foldl_upsert {l : List FrontierEntry} {fs : List FrontierEntry} {f : FrontierEntry}
    (h : f ∈ fs.foldl Contents.upsert l) : f ∈ l ∨ f ∈ fs := by
  induction fs generalizing l with
  | nil => exact .inl h
  | cons g fs ih =>
    rcases ih h with h | h
    · rw [Contents.upsert_eq_upsertOn, upsertOn] at h
      split at h
      · obtain ⟨x, hx, rfl⟩ := List.mem_map.mp h
        split
        · exact .inr (List.mem_cons_self _ _)
        · exact .inl hx
      · rcases List.mem_append.mp h with h | h
        · exact .inl h
        · exact .inr (List.mem_singleton.mp h ▸ List.mem_cons_self _ _)
    · exact .inr (List.mem_cons_of_mem _ h)

/-- Along every interleaving, the store holds each account's last pulled hash, and a reply
lists the accounts requested, each with a hash it held since the request. -/
theorem replies_pair_accounts_with_pulled_hashes (t0 : Time) (evs : List ProcessEvent) (n : Process)
    (h : runSteps (step isEndMarker) (init t0) evs = some n) :
    n.store.contents = (evs.flatMap (ProcessEvent.records isEndMarker)).foldl Contents.upsert [] ∧
      (n.store.contents.map FrontierEntry.account).Nodup ∧
      (∀ f ∈ n.store.contents, f ∈ evs.flatMap (ProcessEvent.records isEndMarker)) ∧
      ∀ k reply, n.workers[k]? = some (.finished (.ok reply)) →
        ∃ pre post segments fs, evs = pre ++ .request segments :: post ∧
          pre.countP ProcessEvent.isRequest = k ∧ (ServerPacket.mk fs).serialise = .ok reply ∧
          fs.map FrontierEntry.account = requestedAccounts
            ((pre.flatMap (ProcessEvent.records isEndMarker)).foldl Contents.upsert []) (recv segments 33).1 ∧
          ∀ f ∈ fs, HeldSince (evs.flatMap (ProcessEvent.records isEndMarker))
            (pre.flatMap (ProcessEvent.records isEndMarker)).length f := by
  have hr := reached_run isEndMarker t0 evs n h
  refine ⟨hr.contents, hr.inv.unique, fun f hf => ?_, fun k reply hk => ?_⟩
  · rw [hr.contents] at hf
    exact (mem_foldl_upsert hf).resolve_left (List.not_mem_nil _)
  · obtain ⟨pre, post, segments, hevs, hcount, fs, hser, hacc, hheld⟩ := hr.workers k _ hk
    exact ⟨pre, post, segments, fs, hevs, hcount, hser, hacc, hheld⟩

/-- A pass of both accounts, an all-zero request, and a second pass between the worker's
two entries. -/
def exampleQuery : List ProcessEvent :=
  [.service (.crawl [examplePeer]), .service .mergeNext, .service .startPass,
    .read (.ok ⟨List.replicate 32 1, List.replicate 32 0xA1⟩),
    .read (.ok ⟨List.replicate 32 2, List.replicate 32 0xB1⟩),
    .request [[magic] ++ zeros 32], .serialiseNext 0,
    .read (.ok ⟨List.replicate 32 1, List.replicate 32 0xA2⟩),
    .read (.ok ⟨List.replicate 32 2, List.replicate 32 0xB2⟩),
    .serialiseNext 0, .send 0]

theorem replies_pair_accounts_with_pulled_hashes_mixed :
    ∃ n reply, runSteps (step fun f => f.account == zeros 32) (init 0) exampleQuery = some n ∧
      n.workers = [.finished (.ok reply)] ∧
      (ServerPacket.mk [⟨List.replicate 32 1, List.replicate 32 0xA1⟩,
        ⟨List.replicate 32 2, List.replicate 32 0xB2⟩]).serialise = .ok reply ∧
      (∀ cut ≤ 4, ¬ (Contents.lookupHash (((exampleQuery.flatMap (ProcessEvent.records fun f =>
          f.account == zeros 32)).take cut).foldl Contents.upsert []) (List.replicate 32 1) =
            some (List.replicate 32 0xA1) ∧
        Contents.lookupHash (((exampleQuery.flatMap (ProcessEvent.records fun f =>
          f.account == zeros 32)).take cut).foldl Contents.upsert []) (List.replicate 32 2) =
            some (List.replicate 32 0xB2))) ∧
      n.store.contents = (exampleQuery.flatMap (ProcessEvent.records fun f => f.account == zeros 32)).foldl
        Contents.upsert [] ∧
      (n.store.contents.map FrontierEntry.account).Nodup ∧
      (∀ f ∈ n.store.contents, f ∈ exampleQuery.flatMap (ProcessEvent.records fun f => f.account == zeros 32)) ∧
      ∀ k reply, n.workers[k]? = some (.finished (.ok reply)) →
        ∃ pre post segments fs, exampleQuery = pre ++ .request segments :: post ∧
          pre.countP ProcessEvent.isRequest = k ∧ (ServerPacket.mk fs).serialise = .ok reply ∧
          fs.map FrontierEntry.account = requestedAccounts
            ((pre.flatMap (ProcessEvent.records fun f => f.account == zeros 32)).foldl Contents.upsert [])
            (recv segments 33).1 ∧
          ∀ f ∈ fs, HeldSince (exampleQuery.flatMap (ProcessEvent.records fun f => f.account == zeros 32))
            (pre.flatMap (ProcessEvent.records fun f => f.account == zeros 32)).length f :=
  ⟨_, _, rfl, rfl, rfl, by decide,
    replies_pair_accounts_with_pulled_hashes (fun f => f.account == zeros 32) 0 exampleQuery _ rfl⟩

/-- References `get_all` returned, read at any later point of the run, keep their accounts
and give each its last pulled hash by then. -/
theorem get_all_references_read_later (t0 : Time) (evs evs' : List ProcessEvent) (n n' : Process)
    (h : runSteps (step isEndMarker) (init t0) evs = some n)
    (h' : runSteps (step isEndMarker) n evs' = some n') :
    (n.store.getAll.map n'.store.heap).map FrontierEntry.account =
        n.store.contents.map FrontierEntry.account ∧
      ∀ f ∈ n.store.getAll.map n'.store.heap,
        Contents.lookupHash (((evs ++ evs').flatMap (ProcessEvent.records isEndMarker)).foldl
          Contents.upsert []) f.account = some f.frontierHash := by
  have hr := reached_run isEndMarker t0 evs n h
  have hstore := (runSteps_spec isEndMarker h').2
  have hr' := reached_run isEndMarker t0 (evs ++ evs') n'
    (by rw [runSteps_append, h, Option.some_bind]; exact h')
  refine ⟨by rw [hstore]; exact RamStore.getAll_accounts_stable hr.inv _, fun f hf => ?_⟩
  obtain ⟨r, hr, rfl⟩ := List.mem_map.mp hf
  have hr'' : r ∈ n'.store.frontiers := by
    rw [hstore]; exact (RamStore.runCalls_adds_frontiers n.store _).subset hr
  rw [← hr'.contents]
  exact RamStore.lookupHash_heap hr'.inv hr''

/-- A peer whose stream gives one record and then an end marker, pulled in the first pass. -/
def examplePass : List ProcessEvent :=
  [.service (.crawl [examplePeer]), .service .mergeNext, .service .startPass,
    .read (.ok ⟨List.replicate 32 1, List.replicate 32 0xAA⟩), .read (.ok ⟨zeros 32, zeros 32⟩)]

/-- The next pass, in which the same peer's stream updates the record's hash. -/
def exampleSecondPass : List ProcessEvent :=
  [.service .endPass, .service (.crawl [examplePeer]), .service .mergeNext, .service .startPass,
    .read (.ok ⟨List.replicate 32 1, List.replicate 32 0xBB⟩), .read (.ok ⟨zeros 32, zeros 32⟩)]

theorem get_all_references_read_later_second_pass :
    ∃ n n', runSteps (step fun f => f.account == zeros 32) (init 0) examplePass = some n ∧
      runSteps (step fun f => f.account == zeros 32) n exampleSecondPass = some n' ∧
      (n.store.getAll.map n'.store.heap).map FrontierEntry.account =
        n.store.contents.map FrontierEntry.account ∧
      ∀ f ∈ n.store.getAll.map n'.store.heap,
        Contents.lookupHash (((examplePass ++ exampleSecondPass).flatMap
          (ProcessEvent.records fun f => f.account == zeros 32)).foldl Contents.upsert []) f.account =
          some f.frontierHash :=
  ⟨_, _, rfl, rfl, get_all_references_read_later (fun f => f.account == zeros 32) 0
    examplePass exampleSecondPass _ _ rfl rfl⟩

end Process

end Step

end FrontierService
