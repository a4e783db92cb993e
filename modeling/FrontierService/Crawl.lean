import FrontierService.Blacklist
import Mathlib.Data.List.Nodup

/-!
# The peer registry and the crawl loop

`frontier_service.run` repeats `fetch_peers` (filter, assert, `merge_peers`) and
`single_pass` (pull from every registered peer, `deduct_score(200)` on a failure the
`except` clause names). The crawl thread is a step machine with one event per loop
iteration, and the other threads' blacklist edits and the clock interleave anywhere. An
exception `single_pass` does not catch ends the thread. What a pull writes to storage is
left to the service model.
-/

namespace FrontierService

/-- Modelled from the spec: `pynanocoin.ip_addr` is not under src/. An address is its
16-byte IPv6 form, and `is_ipv4` holds of the IPv4-mapped addresses `::ffff:a.b.c.d`. -/
structure IpAddr where
  bytes : Bytes
  deriving DecidableEq, Repr

def IpAddr.isIpv4 (ip : IpAddr) : Bool := ip.bytes.take 12 = zeros 10 ++ [255, 255]

/-- Modelled from the spec: `peer.Peer` is not under src/. The service reads its address,
port and score; two peers are `==` when address and port agree. -/
structure Peer where
  ip : IpAddr
  port : Nat
  score : Int

namespace Peer

instance : BEq Peer := ⟨fun p q => p.ip == q.ip && p.port == q.port⟩

/-- A peer's identity for `==`, `in` and the blacklist. -/
def key (p : Peer) : IpAddr × Nat := (p.ip, p.port)

/-- Modelled from the spec: `deduct_score(n)` lowers the score by `n`. -/
def deductScore (p : Peer) (score : Nat) : Peer := { p with score := p.score - score }

theorem beq_iff (p q : Peer) : (p == q) = true ↔ p.key = q.key := by
  show (p.ip == q.ip && p.port == q.port) = true ↔ _
  simp [key]

@[simp] theorem deductScore_key (p : Peer) (n : Nat) : (p.deductScore n).key = p.key := rfl

end Peer

/-- The exceptions a pull can raise: those of `connect`, `sendall` and `recv`, and the
peer protocol's. -/
inductive PeerError
  | connectionRefused
  | timeout
  | pyNanoCoin
  | slowPeer
  | connectionReset
  | brokenPipe
  | otherOSError
  | other
  deriving DecidableEq, Repr

/-- `except (ConnectionRefusedError, socket.timeout, PyNanoCoinException, FrontierServiceSlowPeer)`. -/
def PeerError.caught : PeerError → Bool
  | .connectionRefused | .timeout | .pyNanoCoin | .slowPeer => true
  | _ => false

/-- How one `manage_peer_frontiers(p)` call ended. -/
inductive PullOutcome
  | completed
  | raised (e : PeerError)
  deriving DecidableEq, Repr

/-- Where the crawl thread is in `run`. -/
inductive Pc
  /-- About to call `fetch_peers`. -/
  | fetch
  /-- In `merge_peers`, with the candidates not yet looked at. -/
  | merge (todo : List Peer)
  /-- In `single_pass`, with the registered peers not yet pulled. -/
  | pass (todo : List Peer)
  /-- `run` raised; the daemon thread is gone. -/
  | stopped

structure Service where
  peers : List Peer
  blacklist : BlacklistManager Peer
  ready : Bool
  clock : Time
  pc : Pc

inductive CrawlEvent
  /-- `fetch_peers` gets `reply` from `peercrawler.get_peers_from_service`. -/
  | crawl (reply : List Peer)
  /-- One iteration of `merge_peers`. -/
  | mergeNext
  /-- `merge_peers` returns and `single_pass` starts. -/
  | startPass
  /-- One iteration of `single_pass`. -/
  | pullNext (outcome : PullOutcome)
  /-- `single_pass` returns and `run` sets `ready`. -/
  | endPass
  | blacklistAdd (p : Peer)
  | blacklistRemove (p : Peer)
  | tick (dt : Nat)

namespace Service

/-- `frontier_service.__init__`, the blacklist being `blacklist_manager(Peer, 1800)`. -/
def init (clock : Time) : Service := ⟨[], BlacklistManager.new (fun _ => true) (some 1800), false, clock, .fetch⟩

/-- The filter of `fetch_peers`. -/
def fetchPeers (reply : List Peer) : List Peer :=
  reply.filter fun p => decide (1000 ≤ p.score) && p.ip.isIpv4

/-- `not self.blacklist.is_blacklisted(p) and p not in self.peers`; the lookup comes first
and may expire an entry. -/
def admits (s : Service) (p : Peer) : Bool :=
  !(s.blacklist.isBlacklisted p s.clock).1 && !(s.peers.any (· == p))

/-- One iteration of `merge_peers`. -/
def mergeOne (s : Service) (p : Peer) : Service :=
  { s with
    blacklist := (s.blacklist.isBlacklisted p s.clock).2
    peers := if s.admits p then s.peers ++ [p] else s.peers }

/-- `p.deduct_score(200)`, `p` being the registered object `==` to it. -/
def deduct (peers : List Peer) (p : Peer) : List Peer :=
  peers.map fun q => if q == p then q.deductScore 200 else q

/-- One iteration of `single_pass` for `p`, the rest of the pass being `rest`. -/
def pullOne (s : Service) (p : Peer) (rest : List Peer) : PullOutcome → Service
  | .completed => { s with pc := .pass rest }
  | .raised e => if e.caught then { s with peers := deduct s.peers p, pc := .pass rest }
    else { s with pc := .stopped }

def step (s : Service) : CrawlEvent → Option Service
  | .crawl reply => match s.pc with
    | .fetch => some { s with
        pc := if (fetchPeers reply).isEmpty then .stopped else .merge (fetchPeers reply) }
    | _ => none
  | .mergeNext => match s.pc with
    | .merge (p :: rest) => some { s.mergeOne p with pc := .merge rest }
    | _ => none
  | .startPass => match s.pc with
    | .merge [] => some { s with pc := .pass s.peers }
    | _ => none
  | .pullNext outcome => match s.pc with
    | .pass (p :: rest) => some (s.pullOne p rest outcome)
    | _ => none
  | .endPass => match s.pc with
    | .pass [] => some { s with ready := true, pc := .fetch }
    | _ => none
  | .blacklistAdd p => some (match s.blacklist.addItem p s.clock with
    | .ok bl => { s with blacklist := bl }
    | .error _ => s)
  | .blacklistRemove p => some { s with blacklist := s.blacklist.removeItem p }
  | .tick dt => some { s with clock := s.clock + dt }

/-- Everything one step of the crawl thread or of another thread can do. -/
theorem step_cases {s s' : Service} {e : CrawlEvent} (h : s.step e = some s') :
    (∃ reply, e = .crawl reply ∧ s.pc = .fetch ∧ s' = { s with
      pc := if (fetchPeers reply).isEmpty then .stopped else .merge (fetchPeers reply) }) ∨
    (∃ p rest, e = .mergeNext ∧ s.pc = .merge (p :: rest) ∧ s' = { s.mergeOne p with pc := .merge rest }) ∨
    (e = .startPass ∧ s.pc = .merge [] ∧ s' = { s with pc := .pass s.peers }) ∨
    (∃ p rest o, e = .pullNext o ∧ s.pc = .pass (p :: rest) ∧ s' = s.pullOne p rest o) ∨
    (e = .endPass ∧ s.pc = .pass [] ∧ s' = { s with ready := true, pc := .fetch }) ∨
    (∃ p bl, (e = .blacklistAdd p ∨ e = .blacklistRemove p) ∧ s' = { s with blacklist := bl }) ∨
    (∃ dt, e = .tick dt ∧ s' = { s with clock := s.clock + dt }) := by
  cases e with
  | crawl reply =>
    simp only [step] at h; split at h <;> simp only [Option.some.injEq, reduceCtorEq] at h
    exact .inl ⟨reply, rfl, by assumption, h.symm⟩
  | mergeNext =>
    simp only [step] at h; split at h <;> simp only [Option.some.injEq, reduceCtorEq] at h
    exact .inr (.inl ⟨_, _, rfl, by assumption, h.symm⟩)
  | startPass =>
    simp only [step] at h; split at h <;> simp only [Option.some.injEq, reduceCtorEq] at h
    exact .inr (.inr (.inl ⟨rfl, by assumption, h.symm⟩))
  | pullNext o =>
    simp only [step] at h; split at h <;> simp only [Option.some.injEq, reduceCtorEq] at h
    exact .inr (.inr (.inr (.inl ⟨_, _, o, rfl, by assumption, h.symm⟩)))
  | endPass =>
    simp only [step] at h; split at h <;> simp only [Option.some.injEq, reduceCtorEq] at h
    exact .inr (.inr (.inr (.inr (.inl ⟨rfl, by assumption, h.symm⟩))))
  | blacklistAdd p =>
    simp only [step, Option.some.injEq] at h
    refine .inr (.inr (.inr (.inr (.inr (.inl ⟨p, ?_⟩)))))
    split at h
    · exact ⟨_, .inl rfl, h.symm⟩
    · exact ⟨s.blacklist, .inl rfl, h.symm⟩
  | blacklistRemove p =>
    simp only [step, Option.some.injEq] at h
    exact .inr (.inr (.inr (.inr (.inr (.inl ⟨p, _, .inr rfl, h.symm⟩)))))
  | tick dt =>
    simp only [step, Option.some.injEq] at h
    exact .inr (.inr (.inr (.inr (.inr (.inr ⟨dt, rfl, h.symm⟩)))))

theorem deduct_keys (peers : List Peer) (p : Peer) :
    (deduct peers p).map Peer.key = peers.map Peer.key := by
  simp only [deduct, List.map_map]
  exact List.map_congr_left fun q _ => by by_cases hq : (q == p) = true <;> simp [hq]

theorem pullOne_peers (s : Service) (p : Peer) (rest : List Peer) (o : PullOutcome) :
    (s.pullOne p rest o).peers = s.peers ∨ (s.pullOne p rest o).peers = deduct s.peers p := by
  cases o with
  | completed => exact .inl rfl
  | raised err => by_cases hc : err.caught <;> simp [pullOne, hc]

theorem pullOne_pc (s : Service) (p : Peer) (rest : List Peer) (o : PullOutcome) :
    (s.pullOne p rest o).pc = .pass rest ∨ (s.pullOne p rest o).pc = .stopped := by
  cases o with
  | completed => exact .inl rfl
  | raised err => by_cases hc : err.caught <;> simp [pullOne, hc]

/-- The registry's identities only grow, by appending. -/
theorem step_keys {s s' : Service} {e : CrawlEvent} (h : s.step e = some s') :
    ∃ added, s'.peers.map Peer.key = s.peers.map Peer.key ++ added := by
  rcases step_cases h with ⟨_, _, _, rfl⟩ | ⟨p, _, _, _, rfl⟩ | ⟨_, _, rfl⟩ | ⟨p, rest, o, _, _, rfl⟩ |
    ⟨_, _, rfl⟩ | ⟨_, _, _, rfl⟩ | ⟨_, _, rfl⟩
  · exact ⟨[], by simp⟩
  · by_cases ha : s.admits p <;> simp [mergeOne, ha]
  · exact ⟨[], by simp⟩
  · rcases pullOne_peers s p rest o with hp | hp <;> rw [hp]
    · exact ⟨[], by simp⟩
    · exact ⟨[], by rw [deduct_keys, List.append_nil]⟩
  all_goals exact ⟨[], by simp⟩

end Service

/-! ### What the registry records -/

/-- A registered peer as the crawl's bookkeeping sees it: the peer as `merge_peers` added
it, and how many of its pulls failed with an exception `single_pass` catches. -/
structure Ledger where
  merged : Peer
  failures : Nat

def Ledger.current (l : Ledger) : Peer :=
  { l.merged with score := l.merged.score - 200 * l.failures }

namespace Service

/-- The ledger's step, taken alongside the service's from the same state. -/
def ledgerStep (s : Service) (ls : List Ledger) : CrawlEvent → List Ledger
  | .mergeNext => match s.pc with
    | .merge (p :: _) => if s.admits p then ls ++ [⟨p, 0⟩] else ls
    | _ => ls
  | .pullNext (.raised e) => match s.pc with
    | .pass (p :: _) =>
      if e.caught then ls.map fun l => if l.merged == p then { l with failures := l.failures + 1 } else l
      else ls
    | _ => ls
  | _ => ls

def stepLedger (sl : Service × List Ledger) (e : CrawlEvent) : Option (Service × List Ledger) :=
  (sl.1.step e).map fun s' => (s', ledgerStep sl.1 sl.2 e)

theorem runSteps_stepLedger_fst (evs : List CrawlEvent) (s : Service) (ls : List Ledger) :
    (runSteps stepLedger (s, ls) evs).map Prod.fst = runSteps step s evs := by
  induction evs generalizing s ls with
  | nil => rfl
  | cons e evs ih =>
    simp only [runSteps, stepLedger]
    cases s.step e with
    | none => rfl
    | some s' => exact ih s' _

/-- The registry is the ledger's current peers, merged with a good score and an IPv4
address, one per identity. -/
structure RegistryInv (s : Service) (ls : List Ledger) : Prop where
  realized : s.peers = ls.map Ledger.current
  merged_ok : ∀ l ∈ ls, 1000 ≤ l.merged.score ∧ l.merged.ip.isIpv4 = true
  keys_nodup : (s.peers.map Peer.key).Nodup
  merge_todo : ∀ todo, s.pc = .merge todo → ∀ p ∈ todo, 1000 ≤ p.score ∧ p.ip.isIpv4 = true
  pass_todo : ∀ todo, s.pc = .pass todo → (todo.map Peer.key).Nodup

theorem registryInv_init (t0 : Time) : RegistryInv (init t0) [] :=
  ⟨rfl, by simp, by simp [init], by simp [init], by simp [init]⟩

@[simp] theorem current_key (l : Ledger) : l.current.key = l.merged.key := rfl

theorem deduct_current (ls : List Ledger) (p : Peer) :
    deduct (ls.map Ledger.current) p =
      (ls.map fun l => if l.merged == p then { l with failures := l.failures + 1 } else l).map
        Ledger.current := by
  simp only [deduct, List.map_map]
  refine List.map_congr_left fun l _ => ?_
  have hkey : (l.current == p) = (l.merged == p) := by
    apply Bool.eq_iff_iff.mpr; rw [Peer.beq_iff, Peer.beq_iff, current_key]
  simp only [Function.comp]
  rw [hkey]
  by_cases hl : (l.merged == p) = true
  · rw [if_pos hl, if_pos hl]
    simp only [Ledger.current, Peer.deductScore, Peer.mk.injEq, true_and]
    omega
  · rw [if_neg hl, if_neg hl]

theorem not_mem_keys_of_admits {s : Service} {p : Peer} (h : s.admits p = true) :
    p.key ∉ s.peers.map Peer.key := by
  simp only [admits, Bool.and_eq_true, Bool.not_eq_true', List.any_eq_false] at h
  simp only [List.mem_map, not_exists, not_and]
  exact fun q hq hk => h.2 q hq ((Peer.beq_iff q p).mpr hk)

/-- `merge_peers` on the next reported peer: an admitted peer enters the ledger with no
failures. -/
theorem registryInv_mergeNext {s : Service} {ls : List Ledger} {p : Peer} {rest : List Peer}
    (hinv : RegistryInv s ls) (hpc : s.pc = .merge (p :: rest)) :
    RegistryInv { s.mergeOne p with pc := .merge rest } (ledgerStep s ls .mergeNext) := by
  have hp := hinv.merge_todo _ hpc p (List.mem_cons_self p rest)
  have hrest : ∀ todo, Pc.merge rest = .merge todo →
      ∀ q ∈ todo, 1000 ≤ q.score ∧ q.ip.isIpv4 = true := fun todo htodo q hq => by
    simp only [Pc.merge.injEq] at htodo; subst htodo
    exact hinv.merge_todo _ hpc q (List.mem_cons_of_mem p hq)
  simp only [ledgerStep, hpc]
  by_cases ha : s.admits p
  · simp only [ha, if_true]
    refine ⟨by simp [mergeOne, ha, hinv.realized, Ledger.current], ?_, ?_, hrest, by simp⟩
    · intro l hl
      rcases List.mem_append.mp hl with hl | hl
      · exact hinv.merged_ok l hl
      · simp only [List.mem_singleton] at hl; subst hl; exact hp
    · have hnew := not_mem_keys_of_admits ha
      simp only [List.mem_map, not_exists, not_and] at hnew
      simpa [mergeOne, ha, List.nodup_append] using ⟨hinv.keys_nodup, hnew⟩
  · simp only [ha, Bool.false_eq_true, if_false]
    exact ⟨by simp [mergeOne, ha, hinv.realized], hinv.merged_ok,
      by simpa [mergeOne, ha] using hinv.keys_nodup, hrest, by simp⟩

/-- A pull of the pass's next peer: a caught exception counts one failure of that peer. -/
theorem registryInv_pullNext {s : Service} {ls : List Ledger} {p : Peer} {rest : List Peer}
    (o : PullOutcome) (hinv : RegistryInv s ls) (hpc : s.pc = .pass (p :: rest)) :
    RegistryInv (s.pullOne p rest o) (ledgerStep s ls (.pullNext o)) := by
  have hrest : (rest.map Peer.key).Nodup := (List.nodup_cons.mp (by
    simpa using hinv.pass_todo _ hpc)).2
  cases o with
  | completed =>
    exact ⟨hinv.realized, hinv.merged_ok, hinv.keys_nodup, by simp [pullOne],
      fun todo htodo => by simp only [pullOne, Pc.pass.injEq] at htodo; subst htodo; exact hrest⟩
  | raised err =>
    simp only [ledgerStep, hpc]
    by_cases hc : err.caught
    · simp only [pullOne, hc, if_true]
      refine ⟨by rw [hinv.realized, deduct_current], fun l hl => ?_,
        by rw [deduct_keys]; exact hinv.keys_nodup, by simp,
        fun todo htodo => by simp only [Pc.pass.injEq] at htodo; subst htodo; exact hrest⟩
      obtain ⟨l0, hl0, rfl⟩ := List.mem_map.mp hl
      split <;> exact hinv.merged_ok l0 hl0
    · simp only [pullOne, hc, Bool.false_eq_true, if_false]
      exact ⟨hinv.realized, hinv.merged_ok, hinv.keys_nodup, by simp, by simp⟩

theorem registryInv_step {s s' : Service} {ls : List Ledger} {e : CrawlEvent}
    (hinv : RegistryInv s ls) (h : s.step e = some s') : RegistryInv s' (ledgerStep s ls e) := by
  rcases step_cases h with ⟨reply, rfl, hpc, rfl⟩ | ⟨p, rest, rfl, hpc, rfl⟩ | ⟨rfl, hpc, rfl⟩ |
    ⟨p, rest, o, rfl, hpc, rfl⟩ | ⟨rfl, hpc, rfl⟩ | ⟨q, bl, he, rfl⟩ | ⟨dt, rfl, rfl⟩
  · refine ⟨hinv.realized, hinv.merged_ok, hinv.keys_nodup, fun todo htodo p hp => ?_, ?_⟩
    · split at htodo <;> simp only [Pc.merge.injEq, reduceCtorEq] at htodo
      subst htodo
      simpa [fetchPeers] using (List.mem_filter.mp hp).2
    · intro todo htodo; split at htodo <;> simp at htodo
  · exact registryInv_mergeNext hinv hpc
  · exact ⟨hinv.realized, hinv.merged_ok, hinv.keys_nodup, by simp,
      fun todo htodo => by simp only [Pc.pass.injEq] at htodo; subst htodo; exact hinv.keys_nodup⟩
  · exact registryInv_pullNext o hinv hpc
  · exact ⟨hinv.realized, hinv.merged_ok, hinv.keys_nodup, by simp, by simp⟩
  · have : ledgerStep s ls e = ls := by rcases he with rfl | rfl <;> rfl
    rw [this]
    exact ⟨hinv.realized, hinv.merged_ok, hinv.keys_nodup, hinv.merge_todo, hinv.pass_todo⟩
  · exact ⟨hinv.realized, hinv.merged_ok, hinv.keys_nodup, hinv.merge_todo, hinv.pass_todo⟩

/-- The ledger keeps every entry's merged peer, and only appends. -/
theorem ledgerStep_merged (s : Service) (ls : List Ledger) (e : CrawlEvent) :
    ∃ added, (ledgerStep s ls e).map Ledger.merged = ls.map Ledger.merged ++ added := by
  unfold ledgerStep
  split
  · split
    · split
      · exact ⟨_, List.map_append _ _ _⟩
      · exact ⟨[], by simp⟩
    · exact ⟨[], by simp⟩
  · split
    · split
      · refine ⟨[], ?_⟩
        simp only [List.map_map, List.append_nil]
        exact List.map_congr_left fun l _ => by simp only [Function.comp]; split <;> rfl
      · exact ⟨[], by simp⟩
    · exact ⟨[], by simp⟩
  · exact ⟨[], by simp⟩

end Service

/-- What the registry keeps: each registered peer, one per identity, is a peer as first merged
with 200 taken off per failed pull, and a pass pulls each peer at most once. -/
structure Accounting (s : Service) (ls : List Ledger) : Prop where
  keeps_keys : ∀ e s', s.step e = some s' →
    ∃ added, s'.peers.map Peer.key = s.peers.map Peer.key ++ added
  keeps_merged : ∀ e, ∃ added, (s.ledgerStep ls e).map Ledger.merged = ls.map Ledger.merged ++ added
  realized : s.peers = ls.map Ledger.current
  merged_ok : ∀ l ∈ ls, 1000 ≤ l.merged.score ∧ l.merged.ip.isIpv4 = true
  keys_nodup : (s.peers.map Peer.key).Nodup
  pulled_once : ∀ todo, s.pc = .pass todo → (todo.map Peer.key).Nodup

/-- Along every run, with blacklist calls and clock ticks interleaved, the registry keeps its
accounting. -/
theorem crawl_registry_accounting (t0 : Time) (evs : List CrawlEvent) (s : Service)
    (h : runSteps Service.step (Service.init t0) evs = some s) :
    ∃ ls, runSteps Service.stepLedger (Service.init t0, []) evs = some (s, ls) ∧ Accounting s ls := by
  have hproj := Service.runSteps_stepLedger_fst evs (Service.init t0) []
  rw [h] at hproj
  obtain ⟨⟨s1, ls⟩, hrun, hs⟩ := Option.map_eq_some'.mp hproj
  simp only at hs; subst hs
  have hinv := runSteps_invariant Service.stepLedger (fun sl => Service.RegistryInv sl.1 sl.2)
    (fun sl e sl' hi hstep => by
      obtain ⟨s', hs', rfl⟩ := Option.map_eq_some'.mp hstep
      exact Service.registryInv_step hi hs')
    (Service.registryInv_init t0) hrun
  exact ⟨ls, hrun, fun e s' hs' => Service.step_keys hs', Service.ledgerStep_merged s1 ls,
    hinv.realized, hinv.merged_ok, hinv.keys_nodup, hinv.pass_todo⟩

/-- `::ffff:10.0.0.1`, port 7075, score 1000. -/
def examplePeer : Peer := ⟨⟨zeros 10 ++ [255, 255, 10, 0, 0, 1]⟩, 7075, 1000⟩

theorem crawl_registry_accounting_two_failures :
    ∃ s, runSteps Service.step (Service.init 0)
        [.crawl [examplePeer], .mergeNext, .startPass, .pullNext (.raised .timeout), .endPass,
          .crawl [{ examplePeer with score := 3000 }], .mergeNext, .startPass,
          .pullNext (.raised .connectionRefused)] = some s ∧
      ∃ ls, runSteps Service.stepLedger (Service.init 0, [])
        [.crawl [examplePeer], .mergeNext, .startPass, .pullNext (.raised .timeout), .endPass,
          .crawl [{ examplePeer with score := 3000 }], .mergeNext, .startPass,
          .pullNext (.raised .connectionRefused)] = some (s, ls) ∧ Accounting s ls :=
  ⟨_, rfl, crawl_registry_accounting 0 _ _ rfl⟩

/-- The spec's case: two failed pulls take 400 off, and the rediscovered copy with a fresh
score is not merged. -/
example : (runSteps Service.step (Service.init 0)
    [.crawl [examplePeer], .mergeNext, .startPass, .pullNext (.raised .timeout), .endPass,
      .crawl [{ examplePeer with score := 3000 }], .mergeNext, .startPass,
      .pullNext (.raised .connectionRefused)]).map (fun s => s.peers.map Peer.score) = some [600] :=
  rfl

/-! ### The blacklist is read when a peer is merged, and only then -/

namespace Service

/-- A `merge_peers` iteration of the run added a peer with identity `k` when `is_blacklisted`
answered `False`. -/
def AdmittedIn (t0 : Time) (evs : List CrawlEvent) (k : IpAddr × Nat) : Prop :=
  ∃ pre post s1 q rest1, evs = pre ++ .mergeNext :: post ∧
    runSteps step (init t0) pre = some s1 ∧ s1.pc = .merge (q :: rest1) ∧ q.key = k ∧
    (s1.blacklist.isBlacklisted q s1.clock).1 = false ∧ (s1.peers.any (· == q)) = false

theorem admittedIn_snoc {t0 : Time} {evs : List CrawlEvent} {k : IpAddr × Nat}
    (h : AdmittedIn t0 evs k) (e : CrawlEvent) : AdmittedIn t0 (evs ++ [e]) k := by
  obtain ⟨pre, post, s1, q, rest1, rfl, h1⟩ := h
  exact ⟨pre, post ++ [e], s1, q, rest1, by simp, h1⟩

/-- Every registered identity was admitted, and every peer a pass has left to pull is
registered. -/
theorem admitted_run (t0 : Time) (evs : List CrawlEvent) (s : Service)
    (h : runSteps step (init t0) evs = some s) :
    (∀ k ∈ s.peers.map Peer.key, AdmittedIn t0 evs k) ∧
      ∀ todo, s.pc = .pass todo → ∀ p ∈ todo, p.key ∈ s.peers.map Peer.key := by
  induction evs using List.reverseRecOn generalizing s with
  | nil =>
    simp only [runSteps, Option.some.injEq] at h; subst h
    exact ⟨by simp [init], by simp [init]⟩
  | append_singleton evs e ih =>
    rw [runSteps_snoc, Option.bind_eq_some] at h
    obtain ⟨s0, h0, hs⟩ := h
    obtain ⟨hadm, htodo⟩ := ih s0 h0
    have old : ∀ k ∈ s0.peers.map Peer.key, AdmittedIn t0 (evs ++ [e]) k :=
      fun k hk => admittedIn_snoc (hadm k hk) e
    rcases step_cases hs with ⟨reply, rfl, hpc, rfl⟩ | ⟨p, rest, rfl, hpc, rfl⟩ | ⟨rfl, hpc, rfl⟩ |
      ⟨p, rest, o, rfl, hpc, rfl⟩ | ⟨rfl, hpc, rfl⟩ | ⟨q, bl, he, rfl⟩ | ⟨dt, rfl, rfl⟩
    · exact ⟨old, fun todo ht => by split at ht <;> simp at ht⟩
    · refine ⟨fun k hk => ?_, fun todo ht => by simp at ht⟩
      simp only [mergeOne] at hk
      split at hk
      · rename_i ha
        rcases List.mem_append.mp (List.map_append Peer.key _ _ ▸ hk) with hk | hk
        · exact old k hk
        · simp only [List.map_cons, List.map_nil, List.mem_singleton] at hk; subst hk
          simp only [admits, Bool.and_eq_true, Bool.not_eq_true'] at ha
          exact ⟨evs, [], s0, p, rest, rfl, h0, hpc, rfl, ha.1, ha.2⟩
      · exact old k hk
    · exact ⟨old, fun todo ht p hp => by
        simp only [Pc.pass.injEq] at ht; subst ht; exact List.mem_map_of_mem _ hp⟩
    · have hkeys : (s0.pullOne p rest o).peers.map Peer.key = s0.peers.map Peer.key := by
        rcases pullOne_peers s0 p rest o with hp | hp <;> rw [hp]; exact deduct_keys _ _
      refine ⟨hkeys ▸ old, fun todo ht p' hp' => ?_⟩
      rcases pullOne_pc s0 p rest o with h | h <;> rw [h] at ht <;> cases ht
      exact hkeys ▸ htodo _ hpc p' (List.mem_cons_of_mem p hp')
    · exact ⟨old, fun todo ht => by simp at ht⟩
    · exact ⟨old, htodo⟩
    · exact ⟨old, htodo⟩

end Service

/-- A blacklisted peer is kept out of the registry, not out of a pass: every pulled peer was
admitted when `is_blacklisted` answered `False`. -/
theorem crawled_peer_was_admitted (t0 : Time) (evs : List CrawlEvent) (s : Service)
    (h : runSteps Service.step (Service.init t0) evs = some s) (p : Peer) (rest : List Peer)
    (hpc : s.pc = .pass (p :: rest)) :
    Service.AdmittedIn t0 evs p.key := by
  obtain ⟨hadm, htodo⟩ := Service.admitted_run t0 evs s h
  exact hadm _ (htodo _ hpc p (List.mem_cons_self p rest))

theorem crawled_peer_was_admitted_example :
    (∃ s, runSteps Service.step (Service.init 0) [.crawl [examplePeer], .mergeNext, .startPass] = some s ∧
      s.pc = .pass [examplePeer]) ∧
    Service.AdmittedIn 0 [.crawl [examplePeer], .mergeNext, .startPass] examplePeer.key :=
  ⟨⟨_, rfl, rfl⟩, crawled_peer_was_admitted 0 [.crawl [examplePeer], .mergeNext, .startPass] _ rfl
    examplePeer [] rfl⟩

/-- A peer blacklisted after it entered the registry is crawled again: here the pass is about
to pull `examplePeer` while `is_blacklisted(examplePeer)` answers `True`. -/
theorem blacklisted_peer_still_crawled :
    ∃ s, runSteps Service.step (Service.init 0)
        [.crawl [examplePeer], .mergeNext, .startPass, .pullNext .completed, .endPass,
          .blacklistAdd examplePeer, .crawl [examplePeer], .mergeNext, .startPass] = some s ∧
      s.pc = .pass [examplePeer] ∧ (s.blacklist.isBlacklisted examplePeer s.clock).1 = true :=
  ⟨_, rfl, rfl, rfl⟩

/-! ### A pass and the exceptions it catches -/

/-- The pull ends with an exception `single_pass` catches, so 200 are taken off. -/
def PullOutcome.deducts : PullOutcome → Bool
  | .completed => false
  | .raised e => e.caught

/-- The pull ends with an exception `single_pass` does not catch. -/
def PullOutcome.escapes : PullOutcome → Bool
  | .completed => false
  | .raised e => !e.caught

namespace Service

theorem pullOne_of_not_escapes (s : Service) (p : Peer) (rest : List Peer) {o : PullOutcome}
    (h : o.escapes = false) :
    s.pullOne p rest o =
      { s with peers := (if o.deducts then deduct s.peers p else s.peers), pc := .pass rest } := by
  cases o with
  | completed => rfl
  | raised e =>
    simp only [PullOutcome.escapes, Bool.not_eq_false'] at h
    simp [pullOne, PullOutcome.deducts, h]

theorem pullOne_of_escapes (s : Service) (p : Peer) (rest : List Peer) {o : PullOutcome}
    (h : o.escapes = true) : s.pullOne p rest o = { s with pc := .stopped } := by
  cases o with
  | completed => cases h
  | raised e =>
    simp only [PullOutcome.escapes, Bool.not_eq_true'] at h
    simp [pullOne, h]

/-- Pulls of `pre` that `single_pass` survives: each peer whose pull raised a caught exception
loses 200, in pull order, and the pass goes on with `rest`. -/
theorem runSteps_pulls (s : Service) (pre rest : List Peer) (outcome : Peer → PullOutcome)
    (hpc : s.pc = .pass (pre ++ rest)) (hpre : ∀ q ∈ pre, (outcome q).escapes = false) :
    runSteps step s (pre.map fun q => .pullNext (outcome q)) = some { s with
      peers := (pre.foldl (fun peers q => if (outcome q).deducts then deduct peers q else peers) s.peers),
      pc := .pass rest } := by
  induction pre generalizing s with
  | nil => cases s; simp_all [runSteps]
  | cons q pre ih =>
    have hstep : s.step (.pullNext (outcome q)) = some (s.pullOne q (pre ++ rest) (outcome q)) := by
      simp [step, hpc]
    rw [List.map_cons, runSteps, hstep, Option.some_bind,
      pullOne_of_not_escapes _ _ _ (hpre q (List.mem_cons_self q pre)),
      ih _ rfl fun r hr => hpre r (List.mem_cons_of_mem q hr)]
    rfl

/-- Once an exception has left `run`, the crawl thread does nothing more: only the other
threads' blacklist calls and the clock move. -/
theorem stopped_run {s s' : Service} {evs : List CrawlEvent} (hs : s.pc = .stopped)
    (h : runSteps step s evs = some s') : s'.pc = .stopped ∧ s'.peers = s.peers :=
  runSteps_invariant step (fun t => t.pc = .stopped ∧ t.peers = s.peers)
    (fun t e t' ht hstep => by
      rcases step_cases hstep with ⟨_, _, hpc, _⟩ | ⟨_, _, _, hpc, _⟩ | ⟨_, hpc, _⟩ |
        ⟨_, _, _, _, hpc, _⟩ | ⟨_, hpc, _⟩ | ⟨_, _, _, rfl⟩ | ⟨_, _, rfl⟩ <;>
        first | (rw [ht.1] at hpc; cases hpc) | exact ht)
    ⟨hs, rfl⟩ h

end Service

/-- A pull raising an exception `single_pass` does not name costs `p` nothing and ends the
crawl thread; the pulls before it have lost 200 each. -/
theorem uncaught_pull_error_ends_crawl (s : Service) (pre : List Peer) (p : Peer) (post : List Peer)
    (outcome : Peer → PullOutcome) (hpc : s.pc = .pass (pre ++ p :: post))
    (hpre : ∀ q ∈ pre, (outcome q).escapes = false) (hp : (outcome p).escapes = true) :
    ∃ s', runSteps Service.step s ((pre ++ [p]).map fun q => .pullNext (outcome q)) = some s' ∧
      s'.pc = .stopped ∧
      s'.peers =
        pre.foldl (fun peers q => if (outcome q).deducts then Service.deduct peers q else peers) s.peers ∧
      ∀ evs s'', runSteps Service.step s' evs = some s'' → s''.pc = .stopped ∧ s''.peers = s'.peers := by
  have hstep : ∀ t : Service, t.pc = .pass (p :: post) →
      t.step (.pullNext (outcome p)) = some { t with pc := .stopped } := fun t ht => by
    rw [← Service.pullOne_of_escapes t p post hp]
    simp [Service.step, ht]
  refine ⟨{ s with
      peers := (pre.foldl (fun peers q => if (outcome q).deducts then Service.deduct peers q else peers) s.peers),
      pc := .stopped }, ?_, rfl, rfl, fun evs s'' h => Service.stopped_run rfl h⟩
  rw [List.map_append, runSteps_append, Service.runSteps_pulls s pre (p :: post) outcome hpc hpre,
    Option.some_bind, List.map_singleton, runSteps, hstep _ rfl]
  rfl

/-- A registry of two peers whose first pull is reset by the peer. -/
theorem uncaught_pull_error_ends_crawl_reset :
    ∃ s', runSteps Service.step
        { Service.init 0 with
          peers := [examplePeer, { examplePeer with port := 7076 }]
          pc := .pass [examplePeer, { examplePeer with port := 7076 }] }
        [.pullNext (.raised .connectionReset)] = some s' ∧
      s'.pc = .stopped ∧ s'.peers = [examplePeer, { examplePeer with port := 7076 }] ∧
      ∀ evs s'', runSteps Service.step s' evs = some s'' → s''.pc = .stopped ∧ s''.peers = s'.peers :=
  uncaught_pull_error_ends_crawl
    { Service.init 0 with
      peers := [examplePeer, { examplePeer with port := 7076 }]
      pc := .pass [examplePeer, { examplePeer with port := 7076 }] }
    [] examplePeer [{ examplePeer with port := 7076 }] (fun _ => .raised .connectionReset) rfl
    (fun _ h => absurd h (List.not_mem_nil _)) rfl

/-! ### Why `merge_peers` refuses a peer -/

namespace Peer

/-- `==` compares identities, so it is symmetric and transitive. -/
instance : PartialEquivBEq Peer where
  symm h := (beq_iff _ _).mpr ((beq_iff _ _).mp h).symm
  trans h1 h2 := (beq_iff _ _).mpr (((beq_iff _ _).mp h1).trans ((beq_iff _ _).mp h2))

end Peer

namespace Service

/-- What one step does to the blacklist: nothing, or the one call that `merge_peers`'
`is_blacklisted`, or another thread's `add_item` or `remove_item`, makes at the current clock. -/
theorem step_blacklist {s s' : Service} {e : CrawlEvent} (h : s.step e = some s') :
    (s'.blacklist = s.blacklist ∧ ∀ q, e ≠ .blacklistRemove q) ∨
    (∃ p, e = .mergeNext ∧ s'.blacklist = s.blacklist.apply (.call (.isBlacklisted p s.clock))) ∨
    (∃ p, e = .blacklistAdd p ∧ s'.blacklist = s.blacklist.apply (.call (.addItem p s.clock))) ∨
    (∃ p, e = .blacklistRemove p ∧ s'.blacklist = s.blacklist.apply (.call (.removeItem p))) := by
  rcases step_cases h with ⟨_, rfl, _, rfl⟩ | ⟨p, _, rfl, _, rfl⟩ | ⟨rfl, _, rfl⟩ |
    ⟨p, rest, o, rfl, _, rfl⟩ | ⟨rfl, _, rfl⟩ | ⟨p, bl, rfl | rfl, -⟩ | ⟨_, rfl, rfl⟩
  · exact .inl ⟨rfl, fun _ => by simp⟩
  · exact .inr (.inl ⟨p, rfl, rfl⟩)
  · exact .inl ⟨rfl, fun _ => by simp⟩
  · refine .inl ⟨?_, fun _ => by simp⟩
    cases o with
    | completed => rfl
    | raised err => by_cases hc : err.caught <;> simp [pullOne, hc]
  · exact .inl ⟨rfl, fun _ => by simp⟩
  · refine .inr (.inr (.inl ⟨p, rfl, ?_⟩))
    simp only [step, Option.some.injEq] at h
    subst h
    simp only [BlacklistManager.apply]
    split <;> rename_i heq <;> rw [heq]
  · refine .inr (.inr (.inr ⟨p, rfl, ?_⟩))
    simp only [step, Option.some.injEq] at h
    subst h
    rfl
  · exact .inl ⟨rfl, fun _ => by simp⟩

/-- A step keeps the blacklist's items distinct and its TTL. -/
theorem step_blacklist_wf {s s' : Service} {e : CrawlEvent} (h : s.step e = some s')
    (hd : BlacklistManager.ItemsDistinct s.blacklist.blacklist) :
    BlacklistManager.ItemsDistinct s'.blacklist.blacklist ∧ s'.blacklist.expiryTime = s.blacklist.expiryTime := by
  rcases step_blacklist h with ⟨hbl, -⟩ | ⟨p, -, hbl⟩ | ⟨p, -, hbl⟩ | ⟨p, -, hbl⟩ <;> rw [hbl]
  · exact ⟨hd, rfl⟩
  all_goals exact ⟨BlacklistManager.itemsDistinct_apply hd _, BlacklistManager.apply_call_expiryTime _ _⟩

/-- Every blacklist entry was made by a `blacklistAdd` event of the run, at the clock reading
of the state its prefix reached, and no `blacklistRemove` of a peer `==` to it came after. -/
def BlacklistTraced (t0 : Time) (evs : List CrawlEvent) (s : Service) : Prop :=
  ∀ en ∈ s.blacklist.blacklist, ∃ pre post s1, evs = pre ++ .blacklistAdd en.item :: post ∧
    runSteps step (init t0) pre = some s1 ∧ s1.clock = en.time ∧
    ∀ q, .blacklistRemove q ∈ post → (q == en.item) = false

theorem blacklistTraced_step {t0 : Time} {evs : List CrawlEvent} {s s' : Service} {e : CrawlEvent}
    (hrun : runSteps step (init t0) evs = some s) (hd : BlacklistManager.ItemsDistinct s.blacklist.blacklist)
    (ht : BlacklistTraced t0 evs s) (hs : s.step e = some s') : BlacklistTraced t0 (evs ++ [e]) s' := by
  intro en hen
  have old : en ∈ s.blacklist.blacklist → (∀ q, e = .blacklistRemove q → (q == en.item) = false) →
      ∃ pre post s1, evs ++ [e] = pre ++ .blacklistAdd en.item :: post ∧
        runSteps step (init t0) pre = some s1 ∧ s1.clock = en.time ∧
        ∀ q, .blacklistRemove q ∈ post → (q == en.item) = false := by
    intro hmem hrem
    obtain ⟨pre, post, s1, rfl, h1, hc, hpost⟩ := ht en hmem
    refine ⟨pre, post ++ [e], s1, by simp, h1, hc, fun q hq => ?_⟩
    rcases List.mem_append.mp hq with hq | hq
    · exact hpost q hq
    · exact hrem q (List.mem_singleton.mp hq).symm
  rcases step_blacklist hs with ⟨hbl, hne⟩ | ⟨p, rfl, hbl⟩ | ⟨p, rfl, hbl⟩ | ⟨p, rfl, hbl⟩ <;>
    rw [hbl] at hen
  case inl => exact old hen fun q hq => absurd hq (hne q)
  case inr.inl =>
    rcases BlacklistManager.mem_apply hen with hmem | ⟨hop, -⟩
    · exact old hmem fun q hq => by cases hq
    · cases hop
  case inr.inr.inl =>
    rcases BlacklistManager.mem_apply hen with hmem | ⟨hop, -⟩
    · exact old hmem fun q hq => by cases hq
    · simp only [BlacklistOp.call.injEq, BlacklistCall.addItem.injEq] at hop
      obtain ⟨rfl, hc⟩ := hop
      exact ⟨evs, [], s, rfl, hrun, hc, fun q hq => absurd hq (List.not_mem_nil _)⟩
  case inr.inr.inr =>
    rcases BlacklistManager.mem_apply hen with hmem | ⟨hop, -⟩
    · exact old hmem fun q hq => by cases hq; exact BlacklistManager.absent_removeItem hd _ en hen
    · cases hop

/-- Along every run the blacklist keeps distinct items and its TTL of 1800, and every entry is
traced to the `blacklistAdd` that made it. -/
theorem blacklistTraced_run (t0 : Time) (evs : List CrawlEvent) (s : Service)
    (h : runSteps step (init t0) evs = some s) :
    BlacklistManager.ItemsDistinct s.blacklist.blacklist ∧ s.blacklist.expiryTime = some 1800 ∧
      BlacklistTraced t0 evs s := by
  induction evs using List.reverseRecOn generalizing s with
  | nil =>
    simp only [runSteps, Option.some.injEq] at h; subst h
    exact ⟨List.Pairwise.nil, rfl, fun en hen => absurd hen (List.not_mem_nil _)⟩
  | append_singleton evs e ih =>
    rw [runSteps_snoc, Option.bind_eq_some] at h
    obtain ⟨s0, h0, hs⟩ := h
    obtain ⟨hd, hexp, ht⟩ := ih s0 h0
    obtain ⟨hd', hexp'⟩ := step_blacklist_wf hs hd
    exact ⟨hd', hexp'.trans hexp, blacklistTraced_step h0 hd ht hs⟩

end Service

/-- `merge_peers` refuses a candidate only when it is registered or an `add_item` of the run
blacklisted it within the TTL and no `remove_item` came since. -/
theorem merge_refuses_only_listed_peers (t0 : Time) (evs : List CrawlEvent) (s : Service)
    (h : runSteps Service.step (Service.init t0) evs = some s) (p : Peer) (href : s.admits p = false) :
    s.peers.any (· == p) = true ∨ ∃ pre post q s1, evs = pre ++ .blacklistAdd q :: post ∧
      (p == q) = true ∧ runSteps Service.step (Service.init t0) pre = some s1 ∧
      s.clock - s1.clock ≤ 1800 ∧ ∀ q', CrawlEvent.blacklistRemove q' ∈ post → (q' == p) = false := by
  simp only [Service.admits, Bool.and_eq_false_iff, Bool.not_eq_false'] at href
  rcases href with hbl | hreg
  · obtain ⟨-, hexp, ht⟩ := Service.blacklistTraced_run t0 evs s h
    obtain ⟨en, hen, hx, httl⟩ := BlacklistManager.isBlacklisted_true hbl
    obtain ⟨pre, post, s1, hevs, h1, hc, hpost⟩ := ht en hen
    refine .inr ⟨pre, post, en.item, s1, hevs, hx, h1, hc ▸ httl 1800 hexp, fun q' hq' => ?_⟩
    exact Bool.eq_false_iff.mpr fun hq => by simpa [BEq.trans hq hx] using hpost q' hq'
  · exact .inl hreg

/-- `examplePeer` blacklisted at 0 and offered by the crawler at 60. -/
theorem merge_refuses_only_listed_peers_blacklisted :
    ∃ s, runSteps Service.step (Service.init 0)
        [.blacklistAdd examplePeer, .tick 60, .crawl [examplePeer]] = some s ∧ s.admits examplePeer = false ∧
      (s.peers.any (· == examplePeer) = true ∨ ∃ pre post q s1,
        [CrawlEvent.blacklistAdd examplePeer, .tick 60, .crawl [examplePeer]] = pre ++ .blacklistAdd q :: post ∧
        (examplePeer == q) = true ∧ runSteps Service.step (Service.init 0) pre = some s1 ∧
        s.clock - s1.clock ≤ 1800 ∧ ∀ q', CrawlEvent.blacklistRemove q' ∈ post → (q' == examplePeer) = false) :=
  ⟨_, rfl, rfl, merge_refuses_only_listed_peers 0
    [.blacklistAdd examplePeer, .tick 60, .crawl [examplePeer]] _ rfl examplePeer rfl⟩

end FrontierService
