import FrontierService.Codec
import FrontierService.Crawl
import Mathlib.Data.Finset.Card

/-!
# The relational backend

`my_sql_db` keeps `peers_stored`, a cache of pending `Frontiers` rows and a connection.
`add_frontier` registers an unseen peer, appends the row, and once more than `BATCH_SIZE`
rows are pending clears the cache and sends them as one `INSERT ... ON DUPLICATE KEY
UPDATE`. The tables are those of `create_db_structure_frontier_service`, with `port` and
`score` MySQL `INT`s; a statement takes effect on this connection at once, and one MySQL
rejects has no effect and raises. The server's log of batch statements is kept beside the
tables, so that what each batch carries can be stated.
-/

namespace FrontierService

abbrev PeerId := IpAddr × Nat

/-- A row of `Frontiers`. -/
structure FrontierRow where
  peerId : PeerId
  account : Bytes
  frontierHash : Bytes
  deriving DecidableEq, Repr

/-- The primary key of `Frontiers`. -/
def FrontierRow.key (r : FrontierRow) : PeerId × Bytes := (r.peerId, r.account)

/-- A row of `Peers`. -/
structure PeerRow where
  peerId : PeerId
  ipAddress : IpAddr
  port : Nat
  score : Int
  deriving DecidableEq, Repr

/-- The value fits a MySQL `int` column. -/
def intFits (x : Int) : Bool := decide (-2147483648 ≤ x ∧ x < 2147483648)

/-- `port` and `score` fit their `int` columns; `insertPeer` is modelled for such rows only,
as MySQL rejects the others. -/
def PeerRow.fits (row : PeerRow) : Bool := intFits row.port && intFits row.score

structure Tables where
  peers : List PeerRow
  frontiers : List FrontierRow

inductive SqlError
  /-- 1452: an inserted `Frontiers` row names a `peer_id` with no `Peers` row. -/
  | noReferencedRow
  /-- 1451: a deleted `Peers` row is still referenced from `Frontiers`. -/
  | rowIsReferenced
  /-- 1054: `Frontiers` has no column `account`. -/
  | unknownColumn
  /-- 1241: `SELECT (account_hash, frontier_hash)` selects a row value, not columns. -/
  | operandColumns
  deriving DecidableEq, Repr

namespace Tables

def empty : Tables := ⟨[], []⟩

def hasPeer (t : Tables) (id : PeerId) : Bool := t.peers.any fun r => r.peerId = id

/-- `INSERT INTO Peers ... ON DUPLICATE KEY UPDATE port = port`: an existing row is kept. -/
def insertPeer (t : Tables) (row : PeerRow) : Tables :=
  if t.hasPeer row.peerId then t else { t with peers := t.peers ++ [row] }

/-- `INSERT INTO Frontiers ... ON DUPLICATE KEY UPDATE frontier_hash = VALUES(frontier_hash)`:
row by row on the primary key, and no row at all when one breaks the foreign key. -/
def insertFrontiers (t : Tables) (rows : List FrontierRow) : Except SqlError Tables :=
  if rows.all fun r => t.hasPeer r.peerId then
    .ok { t with frontiers := rows.foldl (upsertOn FrontierRow.key) t.frontiers }
  else .error .noReferencedRow

/-- `DELETE FROM Frontiers WHERE peer_id = ...`. -/
def deleteFrontiersOf (t : Tables) (id : PeerId) : Tables :=
  { t with frontiers := t.frontiers.filter fun r => r.peerId ≠ id }

/-- `DELETE FROM Peers WHERE peer_id = ...`, refused while `Frontiers` references the row. -/
def deletePeer (t : Tables) (id : PeerId) : Except SqlError Tables :=
  if t.frontiers.any fun r => r.peerId = id then .error .rowIsReferenced
  else .ok { t with peers := t.peers.filter fun r => r.peerId ≠ id }

theorem hasPeer_insertPeer (t : Tables) (row : PeerRow) (id : PeerId) (h : t.hasPeer id) :
    (t.insertPeer row).hasPeer id := by
  unfold insertPeer; split
  · exact h
  · simp only [hasPeer] at h ⊢; simp [List.any_append, h]

theorem mem_insertPeer {t : Tables} {row r : PeerRow} (h : r ∈ (t.insertPeer row).peers) :
    r ∈ t.peers ∨ r = row := by
  unfold insertPeer at h; split at h
  · exact .inl h
  · simpa using h

theorem insertPeer_frontiers (t : Tables) (row : PeerRow) : (t.insertPeer row).frontiers = t.frontiers := by
  unfold insertPeer; split <;> rfl

theorem hasPeer_insertPeer_self (t : Tables) (row : PeerRow) : (t.insertPeer row).hasPeer row.peerId := by
  unfold insertPeer; split
  · assumption
  · simp [hasPeer]

end Tables

structure MySqlDb where
  peersStored : List Peer
  cache : List FrontierRow
  tables : Tables
  /-- The batch `INSERT`s sent on the connection, in order, as the server's log records them. -/
  batchesSent : List (List FrontierRow)

namespace MySqlDb

/-- `BATCH_SIZE`. -/
def batchSize : Nat := 1024

def empty : MySqlDb := ⟨[], [], Tables.empty, []⟩

/-- The row `add_frontier` appends for `frontier` from `peer`. -/
def row (frontier : FrontierEntry) (peer : Peer) : FrontierRow :=
  ⟨peer.key, frontier.account, frontier.frontierHash⟩

/-- The row `add_peer_to_db` inserts for `peer`. -/
def peerRow (peer : Peer) : PeerRow := ⟨peer.key, peer.ip, peer.port, peer.score⟩

def addPeerToDb (db : MySqlDb) (peer : Peer) : MySqlDb :=
  { db with tables := db.tables.insertPeer (peerRow peer) }

/-- `cursor.execute` of the batch `INSERT` for `rows`: the server logs it and runs it. -/
def executeBatch (db : MySqlDb) (rows : List FrontierRow) : MySqlDb × Option SqlError :=
  match db.tables.insertFrontiers rows with
  | .ok t => ({ db with tables := t, batchesSent := db.batchesSent ++ [rows] }, none)
  | .error e => ({ db with batchesSent := db.batchesSent ++ [rows] }, some e)

/-- `__add_batch`: the statement is built from the cache, the cache cleared, then it runs. -/
def addBatch (db : MySqlDb) : MySqlDb × Option SqlError :=
  { db with cache := [] }.executeBatch db.cache

/-- `add_frontier`: the state after the call, and the error it raised. -/
def addFrontier (db : MySqlDb) (frontier : FrontierEntry) (peer : Peer) : MySqlDb × Option SqlError :=
  let db := if db.peersStored.any (· == peer) then db
    else { db.addPeerToDb peer with peersStored := db.peersStored ++ [peer] }
  let db := { db with cache := db.cache ++ [row frontier peer] }
  if db.cache.length > batchSize then db.addBatch else (db, none)

/-- `remove_peer_data`: both deletes, then `commit`. -/
def removePeerData (db : MySqlDb) (p : Peer) : MySqlDb × Option SqlError :=
  let t := db.tables.deleteFrontiersOf p.key
  match t.deletePeer p.key with
  | .ok t' => ({ db with tables := t' }, none)
  | .error e => ({ db with tables := t }, some e)

/-- `remove_frontier`: `remove_peer_data`, then `DELETE FROM Frontiers WHERE account = '%s'`,
which names no column of `Frontiers`. `peers_stored` is left as it was. -/
def removeFrontier (db : MySqlDb) (_frontier : FrontierEntry) (peer : Peer) :
    MySqlDb × Option SqlError :=
  match db.removePeerData peer with
  | (db, some e) => (db, some e)
  | (db, none) => (db, some .unknownColumn)

/-- `SELECT COUNT(*) from Frontiers`. -/
def countFrontiers (db : MySqlDb) : Nat := db.tables.frontiers.length

/-- `get_frontier`'s `SELECT (account_hash, frontier_hash) FROM Frontiers WHERE ...`. -/
def getFrontier (_db : MySqlDb) (_account : Bytes) : Except SqlError FrontierRow :=
  .error .operandColumns

/-- `get_all` raises `NotImplementedError`. -/
def getAll (_db : MySqlDb) : Except PyExc (List FrontierEntry) := .error .notImplementedError

end MySqlDb

inductive SqlCall
  | add (e : FrontierEntry) (p : Peer)
  | remove (e : FrontierEntry) (p : Peer)

def MySqlDb.call (db : MySqlDb) : SqlCall → MySqlDb × Option SqlError
  | .add e p => db.addFrontier e p
  | .remove e p => db.removeFrontier e p

/-- The calls in order: the state after them, and the errors they raised. -/
def runSqlCalls (db : MySqlDb) : List SqlCall → MySqlDb × List SqlError
  | [] => (db, [])
  | c :: cs => ((runSqlCalls (db.call c).1 cs).1, (db.call c).2.toList ++ (runSqlCalls (db.call c).1 cs).2)

theorem runSqlCalls_append (db : MySqlDb) (cs ds : List SqlCall) :
    runSqlCalls db (cs ++ ds) =
      ((runSqlCalls (runSqlCalls db cs).1 ds).1,
        (runSqlCalls db cs).2 ++ (runSqlCalls (runSqlCalls db cs).1 ds).2) := by
  induction cs generalizing db with
  | nil => rfl
  | cons c cs ih => simp [runSqlCalls, ih]

/-! ### Adds only -/

namespace MySqlDb

/-- Every peer `peers_stored` names, and every pending row's peer, has a `Peers` row, and the
cache is not past a flush. -/
structure AddInv (db : MySqlDb) : Prop where
  stored : ∀ p ∈ db.peersStored, db.tables.hasPeer p.key
  pending : ∀ r ∈ db.cache, db.tables.hasPeer r.peerId
  cache_le : db.cache.length ≤ batchSize
  fits : ∀ r ∈ db.tables.peers, r.fits = true

theorem addInv_empty : AddInv empty := ⟨by simp [empty], by simp [empty], by simp [empty], by simp [empty, Tables.empty]⟩

/-- After the registration step of `add_frontier` the peer has a `Peers` row, and every row
that had one still has it. -/
theorem registered_hasPeer {db : MySqlDb} (h : AddInv db) {p : Peer} (hp : (peerRow p).fits = true) :
    AddInv { (if db.peersStored.any (· == p) then db
        else { db.addPeerToDb p with peersStored := db.peersStored ++ [p] }) with cache := db.cache } ∧
      (if db.peersStored.any (· == p) then db
        else { db.addPeerToDb p with peersStored := db.peersStored ++ [p] }).tables.hasPeer p.key ∧
      (if db.peersStored.any (· == p) then db
        else { db.addPeerToDb p with peersStored := db.peersStored ++ [p] }).cache = db.cache ∧
      (if db.peersStored.any (· == p) then db
        else { db.addPeerToDb p with peersStored := db.peersStored ++ [p] }).tables.frontiers =
        db.tables.frontiers := by
  by_cases hs : db.peersStored.any (· == p)
  · rw [if_pos hs]
    obtain ⟨q, hq, hqp⟩ := List.any_eq_true.mp hs
    exact ⟨h, (Peer.beq_iff q p).mp hqp ▸ h.stored q hq, rfl, rfl⟩
  · rw [if_neg hs]
    have hmono := fun id => Tables.hasPeer_insertPeer db.tables (peerRow p) id
    refine ⟨⟨fun q hq => ?_, fun r hr => hmono _ (h.pending r hr), h.cache_le, fun r hr => ?_⟩,
      Tables.hasPeer_insertPeer_self _ _, rfl, Tables.insertPeer_frontiers _ _⟩
    · rcases List.mem_append.mp hq with hq | hq
      · exact hmono _ (h.stored q hq)
      · simp only [List.mem_singleton] at hq; subst hq; exact Tables.hasPeer_insertPeer_self _ _
    · rcases Tables.mem_insertPeer hr with hr | rfl
      · exact h.fits r hr
      · exact hp

/-- One `add_frontier` from a state of an add-only run: no statement fails, and either the
row is pending or the whole cache with it is upserted. -/
theorem addFrontier_of_inv {db : MySqlDb} (h : AddInv db) (e : FrontierEntry) {p : Peer}
    (hp : (peerRow p).fits = true) :
    (db.addFrontier e p).2 = none ∧ AddInv (db.addFrontier e p).1 ∧
      if db.cache.length = batchSize then
        (db.addFrontier e p).1.cache = [] ∧ (db.addFrontier e p).1.tables.frontiers =
          (db.cache ++ [row e p]).foldl (upsertOn FrontierRow.key) db.tables.frontiers
      else
        (db.addFrontier e p).1.cache = db.cache ++ [row e p] ∧
          (db.addFrontier e p).1.tables.frontiers = db.tables.frontiers := by
  obtain ⟨hinv1, hkey, hcache, hfront⟩ := registered_hasPeer h hp
  unfold addFrontier
  generalize (if db.peersStored.any (· == p) then db
      else { db.addPeerToDb p with peersStored := db.peersStored ++ [p] }) = db1 at hinv1 hkey hcache hfront
  have hall : ∀ r ∈ db1.cache ++ [row e p], db1.tables.hasPeer r.peerId := by
    intro r hr
    rcases List.mem_append.mp hr with hr | hr
    · exact hinv1.pending r (hcache ▸ hr)
    · simp only [List.mem_singleton] at hr; subst hr; exact hkey
  have hlen := h.cache_le
  by_cases hfull : db.cache.length = batchSize
  · have hgt : (db1.cache ++ [row e p]).length > batchSize := by simp [hcache, hfull]
    simp only [hgt, if_true, hfull, addBatch, executeBatch, Tables.insertFrontiers, List.all_eq_true]
    rw [if_pos (fun r hr => hall r hr)]
    simp only [true_and]
    exact ⟨⟨hinv1.stored, by simp, by simp, hinv1.fits⟩, by rw [hcache, hfront]⟩
  · have hle : ¬ (db1.cache ++ [row e p]).length > batchSize := by
      simp only [hcache, List.length_append, List.length_singleton]; omega
    simp only [hle, if_false, hfull, true_and]
    refine ⟨⟨hinv1.stored, hall, ?_, hinv1.fits⟩, by rw [hcache], hfront⟩
    simp only [hcache, List.length_append, List.length_singleton]; omega

end MySqlDb

/-- The row of one add call. -/
def rowOf (c : FrontierEntry × Peer) : FrontierRow := MySqlDb.row c.1 c.2

/-- `add_frontier` calls from an empty database. -/
def addRun (cs : List (FrontierEntry × Peer)) : MySqlDb × List SqlError :=
  runSqlCalls MySqlDb.empty (cs.map fun c => .add c.1 c.2)

/-- The calls whose rows a batch statement has written: all but the last `n % 1025`. -/
def flushedCalls (cs : List (FrontierEntry × Peer)) : List (FrontierEntry × Peer) :=
  cs.take (1025 * (cs.length / 1025))

/-- The calls whose rows are still in the cache. -/
def pendingCalls (cs : List (FrontierEntry × Peer)) : List (FrontierEntry × Peer) :=
  cs.drop (1025 * (cs.length / 1025))

/-- The last row with key `k`. -/
def lastRow (rows : List FrontierRow) (k : PeerId × Bytes) : Option FrontierRow :=
  rows.foldl (fun acc r => if r.key = k then some r else acc) none

theorem addRun_snoc (cs : List (FrontierEntry × Peer)) (c : FrontierEntry × Peer) :
    addRun (cs ++ [c]) = (((addRun cs).1.addFrontier c.1 c.2).1,
      (addRun cs).2 ++ ((addRun cs).1.addFrontier c.1 c.2).2.toList) := by
  simp [addRun, runSqlCalls_append, runSqlCalls, MySqlDb.call]

/-- An add-only run never raises; its cache holds the pending calls' rows and its table the
flushed calls' rows, upserted in order. -/
theorem addRun_state (cs : List (FrontierEntry × Peer)) (hfit : ∀ c ∈ cs, (MySqlDb.peerRow c.2).fits = true) :
    (addRun cs).2 = [] ∧ MySqlDb.AddInv (addRun cs).1 ∧
      (addRun cs).1.cache = (pendingCalls cs).map rowOf ∧
      (addRun cs).1.tables.frontiers = ((flushedCalls cs).map rowOf).foldl (upsertOn FrontierRow.key) [] := by
  induction cs using List.reverseRecOn with
  | nil => exact ⟨rfl, MySqlDb.addInv_empty, rfl, rfl⟩
  | append_singleton cs c ih =>
    obtain ⟨herr, hinv, hcache, hfront⟩ := ih fun d hd => hfit d (List.mem_append_left _ hd)
    obtain ⟨herr', hinv', hstep⟩ := MySqlDb.addFrontier_of_inv hinv c.1 (hfit c (by simp))
    rw [addRun_snoc, herr, herr']
    refine ⟨rfl, hinv', ?_⟩
    have hclen : (addRun cs).1.cache.length = cs.length % 1025 := by
      rw [hcache, List.length_map, pendingCalls, List.length_drop]; omega
    have hq : 1025 * (cs.length / 1025) ≤ cs.length := Nat.mul_div_le _ _
    split at hstep
    · rename_i hfull
      obtain ⟨hc', hf'⟩ := hstep
      have hn : 1025 * ((cs ++ [c]).length / 1025) = cs.length + 1 := by
        simp only [List.length_append, List.length_singleton]
        simp only [MySqlDb.batchSize] at hfull; omega
      refine ⟨by rw [hc', pendingCalls, hn]; simp, ?_⟩
      rw [hf', flushedCalls, hn, hcache, hfront, ← List.foldl_append,
        show cs.length + 1 = (cs ++ [c]).length by simp, List.take_length, ← List.append_assoc,
        ← List.map_append, pendingCalls, flushedCalls, List.take_append_drop, List.map_append]
      rfl
    · rename_i hfull
      obtain ⟨hc', hf'⟩ := hstep
      have hn : (cs ++ [c]).length / 1025 = cs.length / 1025 := by
        simp only [List.length_append, List.length_singleton]
        simp only [MySqlDb.batchSize] at hfull; omega
      refine ⟨?_, ?_⟩
      · rw [hc', hcache, pendingCalls, pendingCalls, hn, List.drop_append_of_le_length hq]
        simp [rowOf]
      · rw [hf', hfront, flushedCalls, flushedCalls, hn, List.take_append_of_le_length hq]

theorem lookupOn_foldl_upsertOn (rows l : List FrontierRow) (k : PeerId × Bytes) :
    lookupOn FrontierRow.key (rows.foldl (upsertOn FrontierRow.key) l) k =
      rows.foldl (fun acc r => if r.key = k then some r else acc) (lookupOn FrontierRow.key l k) := by
  induction rows generalizing l with
  | nil => rfl
  | cons r rows ih => simp only [List.foldl_cons, ih, lookupOn_upsertOn]

theorem foldl_last_isSome (rows : List FrontierRow) (k : PeerId × Bytes) (acc : Option FrontierRow) :
    (rows.foldl (fun acc r => if r.key = k then some r else acc) acc).isSome ↔
      acc.isSome ∨ k ∈ rows.map FrontierRow.key := by
  induction rows generalizing acc with
  | nil => simp
  | cons r rows ih =>
    rw [List.foldl_cons, ih, List.map_cons, List.mem_cons]
    by_cases hr : r.key = k
    · simp [hr]
    · simp [hr, Ne.symm hr]

theorem foldl_upsertOn_nodup (rows l : List FrontierRow) (h : (l.map FrontierRow.key).Nodup) :
    ((rows.foldl (upsertOn FrontierRow.key) l).map FrontierRow.key).Nodup := by
  induction rows generalizing l with
  | nil => exact h
  | cons r rows ih => exact ih _ (upsertOn_keys_nodup _ h r)

/-- After any adds from empty, of peers whose columns fit: `Frontiers` holds the last flushed
hash per (peer, account), and the last calls, fewer than 1025, are pending. -/
theorem mysql_adds_refine_table (cs : List (FrontierEntry × Peer))
    (hfit : ∀ c ∈ cs, (MySqlDb.peerRow c.2).fits = true) :
    (addRun cs).2 = [] ∧ (∀ r ∈ (addRun cs).1.tables.peers, r.fits = true) ∧
      (addRun cs).1.cache = (pendingCalls cs).map rowOf ∧ (pendingCalls cs).length < 1025 ∧
      (∀ k, lookupOn FrontierRow.key (addRun cs).1.tables.frontiers k =
        lastRow ((flushedCalls cs).map rowOf) k) ∧
      (addRun cs).1.countFrontiers =
        ((flushedCalls cs).map fun c => (c.2.key, c.1.account)).toFinset.card := by
  obtain ⟨herr, hinv, hcache, hfront⟩ := addRun_state cs hfit
  have hlookup : ∀ k, lookupOn FrontierRow.key (addRun cs).1.tables.frontiers k =
      lastRow ((flushedCalls cs).map rowOf) k := fun k => by
    rw [hfront, lookupOn_foldl_upsertOn]; rfl
  refine ⟨herr, hinv.fits, hcache, by simp only [pendingCalls, List.length_drop]; omega, hlookup, ?_⟩
  have hnodup := foldl_upsertOn_nodup ((flushedCalls cs).map rowOf) [] List.nodup_nil
  rw [← hfront] at hnodup
  have hkeys : ((flushedCalls cs).map fun c => (c.2.key, c.1.account)) =
      ((flushedCalls cs).map rowOf).map FrontierRow.key := by
    rw [List.map_map]; rfl
  have hset : ((addRun cs).1.tables.frontiers.map FrontierRow.key).toFinset =
      (((flushedCalls cs).map rowOf).map FrontierRow.key).toFinset := Finset.ext fun k => by
    rw [List.mem_toFinset, List.mem_toFinset, mem_keys_iff, hlookup, lastRow, foldl_last_isSome]
    simp
  rw [MySqlDb.countFrontiers, ← List.length_map _ FrontierRow.key, ← List.toFinset_card_of_nodup hnodup,
    hset, hkeys]

def exampleFrontier : FrontierEntry := ⟨List.replicate 32 1, List.replicate 32 0xAA⟩

/-- One add from `examplePeer`, whose port and score fit their columns. -/
theorem mysql_adds_refine_table_one_add :
    (∀ c ∈ [(exampleFrontier, examplePeer)], (MySqlDb.peerRow c.2).fits = true) ∧
      (addRun [(exampleFrontier, examplePeer)]).2 = [] ∧
      (∀ r ∈ (addRun [(exampleFrontier, examplePeer)]).1.tables.peers, r.fits = true) ∧
      (addRun [(exampleFrontier, examplePeer)]).1.cache =
        (pendingCalls [(exampleFrontier, examplePeer)]).map rowOf ∧
      (pendingCalls [(exampleFrontier, examplePeer)]).length < 1025 ∧
      (∀ k, lookupOn FrontierRow.key (addRun [(exampleFrontier, examplePeer)]).1.tables.frontiers k =
        lastRow ((flushedCalls [(exampleFrontier, examplePeer)]).map rowOf) k) ∧
      (addRun [(exampleFrontier, examplePeer)]).1.countFrontiers =
        ((flushedCalls [(exampleFrontier, examplePeer)]).map fun c => (c.2.key, c.1.account)).toFinset.card :=
  have hfit : ∀ c ∈ [(exampleFrontier, examplePeer)], (MySqlDb.peerRow c.2).fits = true :=
    fun c hc => by rw [List.mem_singleton.mp hc]; rfl
  ⟨hfit, mysql_adds_refine_table [(exampleFrontier, examplePeer)] hfit⟩

/-- A single add from an empty database is still pending: `count_frontiers` is 0 with one
account added. -/
theorem pending_add_not_counted :
    (addRun [(exampleFrontier, examplePeer)]).1.countFrontiers = 0 ∧
      ([exampleFrontier].map FrontierEntry.account).toFinset.card = 1 :=
  ⟨rfl, by decide⟩

/-- `examplePeer` on another port. -/
def secondPeer : Peer := { examplePeer with port := 7076 }

/-- Rows are per (peer, account): one account added from two peers is counted twice. -/
theorem two_peers_one_account_two_rows :
    (addRun ((exampleFrontier, examplePeer) :: List.replicate 1024 (exampleFrontier, secondPeer))).1.cache = [] ∧
      (addRun ((exampleFrontier, examplePeer) ::
        List.replicate 1024 (exampleFrontier, secondPeer))).1.countFrontiers = 2 ∧
      (((exampleFrontier, examplePeer) :: List.replicate 1024 (exampleFrontier, secondPeer)).map
        fun c => c.1.account).toFinset.card = 1 := by
  have hfit : ∀ c ∈ (exampleFrontier, examplePeer) :: List.replicate 1024 (exampleFrontier, secondPeer),
      (MySqlDb.peerRow c.2).fits = true := by
    intro c hc
    rcases List.mem_cons.mp hc with rfl | hc
    · decide
    · rw [(List.mem_replicate.mp hc).2]; decide
  obtain ⟨-, -, hcache, hfront⟩ := addRun_state _ hfit
  have hfirst : upsertOn FrontierRow.key (upsertOn FrontierRow.key [] (rowOf (exampleFrontier, examplePeer)))
      (rowOf (exampleFrontier, secondPeer)) =
      [rowOf (exampleFrontier, examplePeer), rowOf (exampleFrontier, secondPeer)] := by decide
  have hagain : upsertOn FrontierRow.key [rowOf (exampleFrontier, examplePeer), rowOf (exampleFrontier, secondPeer)]
      (rowOf (exampleFrontier, secondPeer)) =
      [rowOf (exampleFrontier, examplePeer), rowOf (exampleFrontier, secondPeer)] := by decide
  have hfix : ∀ n, (List.replicate n (rowOf (exampleFrontier, secondPeer))).foldl (upsertOn FrontierRow.key)
      [rowOf (exampleFrontier, examplePeer), rowOf (exampleFrontier, secondPeer)] =
      [rowOf (exampleFrontier, examplePeer), rowOf (exampleFrontier, secondPeer)] := by
    intro n
    induction n with
    | zero => rfl
    | succ n ih => rw [List.replicate_succ, List.foldl_cons, hagain, ih]
  have hlen : ((exampleFrontier, examplePeer) :: List.replicate 1024 (exampleFrontier, secondPeer)).length = 1025 := by
    rw [List.length_cons, List.length_replicate]
  refine ⟨by rw [hcache, pendingCalls, List.drop_eq_nil_of_le (by omega)]; rfl, ?_, ?_⟩
  · rw [MySqlDb.countFrontiers, hfront, flushedCalls, List.take_of_length_le (by omega), List.map_cons,
      List.map_replicate, List.replicate_succ, List.foldl_cons, List.foldl_cons, hfirst, hfix]
    rfl
  · rw [List.map_cons, List.map_replicate, List.toFinset_cons,
      List.toFinset_replicate_of_ne_zero (by decide), Finset.insert_eq_of_mem (Finset.mem_singleton_self _),
      Finset.card_singleton]

/-- `get_frontier` raises on every call: MySQL rejects its `SELECT` of a row value. -/
theorem MySqlDb.getFrontier_raises (db : MySqlDb) (account : Bytes) :
    db.getFrontier account = .error .operandColumns :=
  rfl

/-! ### Removes -/

/-- Adds from a peer `peers_stored` already names, while the cache stays within a batch,
only append to the cache. -/
theorem runSqlCalls_adds_pending (db : MySqlDb) (e : FrontierEntry) (p : Peer) (k : Nat)
    (hp : db.peersStored.any (· == p)) (hk : db.cache.length + k ≤ MySqlDb.batchSize) :
    runSqlCalls db (List.replicate k (.add e p)) =
      ({ db with cache := db.cache ++ List.replicate k (MySqlDb.row e p) }, []) := by
  induction k generalizing db with
  | zero => simp [runSqlCalls]
  | succ k ih =>
    have hle : ¬ (db.cache ++ [MySqlDb.row e p]).length > MySqlDb.batchSize := by
      simp only [List.length_append, List.length_singleton]; omega
    have hstep : db.call (.add e p) = ({ db with cache := db.cache ++ [MySqlDb.row e p] }, none) := by
      simp only [MySqlDb.call, MySqlDb.addFrontier, hp, if_true, hle, if_false]
    rw [List.replicate_succ, runSqlCalls, hstep]
    dsimp only
    rw [ih { db with cache := db.cache ++ [MySqlDb.row e p] } hp (by simp; omega)]
    simp [List.replicate_succ]

/-- The add that overflows the cache runs the batch, and the foreign key rejects it when the
peer has no `Peers` row. -/
theorem addFrontier_batch_rejected (db : MySqlDb) (e : FrontierEntry) (p : Peer)
    (hp : db.peersStored.any (· == p)) (hfull : db.cache.length = MySqlDb.batchSize)
    (hno : db.tables.hasPeer p.key = false) : (db.addFrontier e p).2 = some .noReferencedRow := by
  have hgt : (db.cache ++ [MySqlDb.row e p]).length > MySqlDb.batchSize := by simp [hfull]
  have hrej : ¬ (db.cache ++ [MySqlDb.row e p]).all fun r => db.tables.hasPeer r.peerId := by
    simp only [List.all_append, List.all_cons, List.all_nil, Bool.and_true, Bool.and_eq_true,
      not_and]
    intro _; simpa [MySqlDb.row] using hno
  simp only [MySqlDb.addFrontier, hp, if_true, hgt, MySqlDb.addBatch, MySqlDb.executeBatch, Tables.insertFrontiers,
    hrej, Bool.false_eq_true, if_false]

/-- An add and a remove from one peer: its row is pending, `peers_stored` still names it, its
`Peers` row is gone, and `remove_frontier` raised on its last statement. -/
theorem runSqlCalls_add_remove :
    runSqlCalls MySqlDb.empty [.add exampleFrontier examplePeer, .remove exampleFrontier examplePeer] =
      (⟨[examplePeer], [MySqlDb.row exampleFrontier examplePeer], Tables.empty, []⟩, [.unknownColumn]) :=
  rfl

/-- Then 1023 more adds from the peer fill the cache without a statement. -/
theorem runSqlCalls_add_remove_adds :
    runSqlCalls MySqlDb.empty ([.add exampleFrontier examplePeer, .remove exampleFrontier examplePeer] ++
        List.replicate 1023 (.add exampleFrontier examplePeer)) =
      (⟨[examplePeer], [MySqlDb.row exampleFrontier examplePeer] ++
        List.replicate 1023 (MySqlDb.row exampleFrontier examplePeer), Tables.empty, []⟩, [.unknownColumn]) := by
  rw [runSqlCalls_append, runSqlCalls_add_remove,
    runSqlCalls_adds_pending _ _ _ 1023 (by decide) (by decide)]
  rfl

theorem runSqlCalls_singleton (db : MySqlDb) (c : SqlCall) :
    runSqlCalls db [c] = ((db.call c).1, (db.call c).2.toList) := by
  simp [runSqlCalls]

/-- The 1024th add after the removal runs a batch from 1024 pending rows, and it is rejected. -/
theorem runSqlCalls_add_remove_batch :
    runSqlCalls MySqlDb.empty ([.add exampleFrontier examplePeer, .remove exampleFrontier examplePeer] ++
        List.replicate 1024 (.add exampleFrontier examplePeer)) =
      ((MySqlDb.addFrontier ⟨[examplePeer], [MySqlDb.row exampleFrontier examplePeer] ++
          List.replicate 1023 (MySqlDb.row exampleFrontier examplePeer), Tables.empty, []⟩
          exampleFrontier examplePeer).1, [.unknownColumn, .noReferencedRow]) := by
  conv_lhs => rw [List.replicate_succ', ← List.append_assoc, runSqlCalls_append]
  rw [runSqlCalls_add_remove_adds, runSqlCalls_singleton, MySqlDb.call,
    addFrontier_batch_rejected ⟨[examplePeer],
      [MySqlDb.row exampleFrontier examplePeer] ++ List.replicate 1023 (MySqlDb.row exampleFrontier examplePeer),
      Tables.empty, []⟩ _ _ (by decide) (by rw [List.length_append, List.length_replicate]; rfl) rfl]
  dsimp only
  rfl

/-- `remove_frontier` deletes the peer's `Peers` row but not its `peers_stored` entry, so a
later batch with its rows is rejected. -/
theorem removed_peer_breaks_foreign_key :
    (runSqlCalls MySqlDb.empty
        [.add exampleFrontier examplePeer, .remove exampleFrontier examplePeer]).1.peersStored =
        [examplePeer] ∧
      (runSqlCalls MySqlDb.empty
        [.add exampleFrontier examplePeer, .remove exampleFrontier examplePeer]).1.tables.hasPeer
        examplePeer.key = false ∧
      (runSqlCalls MySqlDb.empty
        ([.add exampleFrontier examplePeer, .remove exampleFrontier examplePeer] ++
          List.replicate 1024 (.add exampleFrontier examplePeer))).2 =
        [.unknownColumn, .noReferencedRow] := by
  exact ⟨rfl, rfl, by rw [runSqlCalls_add_remove_batch]⟩

/-! ### The batch statements -/

namespace MySqlDb

theorem addBatch_cache (db : MySqlDb) : db.addBatch.1.cache = [] := by
  unfold addBatch executeBatch; split <;> rfl

/-- `__add_batch` sends the whole cache as one statement, whether or not it fails. -/
theorem addBatch_sent (db : MySqlDb) : db.addBatch.1.batchesSent = db.batchesSent ++ [db.cache] := by
  unfold addBatch executeBatch; split <;> rfl

theorem addBatch_error_tables {db : MySqlDb} (h : db.addBatch.2 ≠ none) : db.addBatch.1.tables = db.tables := by
  unfold addBatch executeBatch at h ⊢
  split
  · rename_i heq; rw [heq] at h; exact absurd rfl h
  · rfl

/-- A batch that does not fail upserts the rows it sent into `Frontiers`, in order. -/
theorem addBatch_ok_frontiers {db : MySqlDb} (h : db.addBatch.2 = none) :
    db.addBatch.1.tables.frontiers = db.cache.foldl (upsertOn FrontierRow.key) db.tables.frontiers := by
  unfold addBatch executeBatch at h ⊢
  split
  · rename_i t heq
    unfold Tables.insertFrontiers at heq
    split at heq <;> cases heq
    rfl
  · rename_i heq; rw [heq] at h; cases h

/-- Registering the peer leaves the cache, the `Frontiers` table and the log as they were. -/
theorem addFrontier_registered (db : MySqlDb) (e : FrontierEntry) (p : Peer) :
    ∃ db1 : MySqlDb, db1.cache = db.cache ∧ db1.tables.frontiers = db.tables.frontiers ∧
      db1.batchesSent = db.batchesSent ∧
      db.addFrontier e p = if (db.cache ++ [row e p]).length > batchSize
        then { db1 with cache := db.cache ++ [row e p] }.addBatch
        else ({ db1 with cache := db.cache ++ [row e p] }, none) := by
  by_cases hs : db.peersStored.any (· == p)
  · exact ⟨db, rfl, rfl, rfl, by simp only [addFrontier, hs, if_true]⟩
  · exact ⟨{ db.addPeerToDb p with peersStored := db.peersStored ++ [p] }, rfl,
      Tables.insertPeer_frontiers _ _, rfl, by simp only [addFrontier, hs, Bool.false_eq_true, if_false]; rfl⟩

/-- A call that raises has run a batch that failed: the cache is empty and the `Frontiers`
table is as before the call. -/
theorem addFrontier_error {db : MySqlDb} {e : FrontierEntry} {p : Peer}
    (h : (db.addFrontier e p).2 ≠ none) :
    (db.addFrontier e p).1.cache = [] ∧ (db.addFrontier e p).1.tables.frontiers = db.tables.frontiers := by
  obtain ⟨db1, -, hf, -, hrun⟩ := addFrontier_registered db e p
  rw [hrun] at h ⊢
  by_cases hgt : (db.cache ++ [row e p]).length > batchSize
  · simp only [hgt, if_true] at h ⊢
    exact ⟨addBatch_cache _, (congrArg Tables.frontiers (addBatch_error_tables h)).trans hf⟩
  · simp only [hgt, if_false] at h
    exact absurd rfl h

/-- One call: the row is pending, or the cache with it went out as one statement of 1025 rows,
upserted into `Frontiers` unless the call raised. -/
theorem addFrontier_sent {db : MySqlDb} (h : db.cache.length ≤ batchSize) (e : FrontierEntry) (p : Peer) :
    (db.addFrontier e p).1.cache.length ≤ batchSize ∧
      ∃ sent, (db.addFrontier e p).1.batchesSent = db.batchesSent ++ sent ∧
        (∀ rows ∈ sent, rows.length = batchSize + 1) ∧
        sent.flatten ++ (db.addFrontier e p).1.cache = db.cache ++ [row e p] ∧
        ((db.addFrontier e p).2 = none → (db.addFrontier e p).1.tables.frontiers =
          sent.flatten.foldl (upsertOn FrontierRow.key) db.tables.frontiers) := by
  obtain ⟨db1, hc, hf, hs, hrun⟩ := addFrontier_registered db e p
  rw [hrun]
  by_cases hgt : (db.cache ++ [row e p]).length > batchSize
  · simp only [hgt, if_true, addBatch_cache, List.length_nil, Nat.zero_le, true_and]
    refine ⟨[db.cache ++ [row e p]], by rw [addBatch_sent, hs], ?_, by simp, fun hok => ?_⟩
    · simp only [List.mem_singleton, forall_eq]
      simp only [List.length_append, List.length_singleton] at hgt ⊢; omega
    · rw [addBatch_ok_frontiers hok]; simp [hf]
  · simp only [hgt, if_false]
    simp only [List.length_append, List.length_singleton] at hgt
    exact ⟨by simp only [List.length_append, List.length_singleton]; omega, [], by simp [hs],
      by simp, by simp, fun _ => hf⟩

end MySqlDb

/-- From a cache within a batch, along any adds: what `addFrontier_sent` says of one call. -/
theorem runSqlCalls_adds_sent (cs : List (FrontierEntry × Peer)) (db : MySqlDb)
    (h : db.cache.length ≤ MySqlDb.batchSize) :
    (∀ n, (runSqlCalls db ((cs.take n).map fun c => .add c.1 c.2)).1.cache.length ≤ MySqlDb.batchSize) ∧
      ∃ sent, (runSqlCalls db (cs.map fun c => .add c.1 c.2)).1.batchesSent = db.batchesSent ++ sent ∧
        (∀ rows ∈ sent, rows.length = MySqlDb.batchSize + 1) ∧
        sent.flatten ++ (runSqlCalls db (cs.map fun c => .add c.1 c.2)).1.cache = db.cache ++ cs.map rowOf ∧
        ((runSqlCalls db (cs.map fun c => .add c.1 c.2)).2 = [] →
          (runSqlCalls db (cs.map fun c => .add c.1 c.2)).1.tables.frontiers =
            sent.flatten.foldl (upsertOn FrontierRow.key) db.tables.frontiers) := by
  induction cs generalizing db with
  | nil =>
    exact ⟨fun n => by simpa [runSqlCalls] using h, [], by simp [runSqlCalls], by simp,
      by simp [runSqlCalls], fun _ => rfl⟩
  | cons c cs ih =>
    obtain ⟨hle, sent, hsent, hrows, hsplit, htab⟩ := MySqlDb.addFrontier_sent h c.1 c.2
    obtain ⟨ihle, sent', hsent', hrows', hsplit', htab'⟩ := ih _ hle
    simp only [List.map_cons, runSqlCalls, MySqlDb.call] at hsent' hsplit' htab' ⊢
    refine ⟨fun n => ?_, sent ++ sent', by rw [hsent', hsent, List.append_assoc], fun rows hr => ?_, ?_,
      fun hok => ?_⟩
    · cases n with
      | zero => simpa [runSqlCalls] using h
      | succ n => simpa [runSqlCalls, MySqlDb.call] using ihle n
    · rcases List.mem_append.mp hr with hr | hr
      · exact hrows rows hr
      · exact hrows' rows hr
    · rw [List.flatten_append, List.append_assoc, hsplit', ← List.append_assoc, hsplit, List.append_assoc]
      rfl
    · rw [List.append_eq_nil] at hok
      have hnone : (db.addFrontier c.1 c.2).2 = none := by
        cases hx : (db.addFrontier c.1 c.2).2
        · rfl
        · simp [hx] at hok
      rw [htab' hok.2, htab hnone, List.flatten_append, List.foldl_append]

/-- Along any adds, every batch sent carries 1025 rows, the rows sent then the cache are the
calls' rows in order, and `Frontiers` is the sent rows upserted. -/
theorem batches_carry_every_row (ps : List Peer) (t : Tables) (cs : List (FrontierEntry × Peer)) :
    (∀ n, (runSqlCalls ⟨ps, [], t, []⟩ ((cs.take n).map fun c => .add c.1 c.2)).1.cache.length ≤ 1024) ∧
      (∀ rows ∈ (runSqlCalls ⟨ps, [], t, []⟩ (cs.map fun c => .add c.1 c.2)).1.batchesSent,
        rows.length = 1025) ∧
      (runSqlCalls ⟨ps, [], t, []⟩ (cs.map fun c => .add c.1 c.2)).1.batchesSent.flatten ++
          (runSqlCalls ⟨ps, [], t, []⟩ (cs.map fun c => .add c.1 c.2)).1.cache = cs.map rowOf ∧
      ((runSqlCalls ⟨ps, [], t, []⟩ (cs.map fun c => .add c.1 c.2)).2 = [] →
        (runSqlCalls ⟨ps, [], t, []⟩ (cs.map fun c => .add c.1 c.2)).1.tables.frontiers =
          (runSqlCalls ⟨ps, [], t, []⟩ (cs.map fun c => .add c.1 c.2)).1.batchesSent.flatten.foldl
            (upsertOn FrontierRow.key) t.frontiers) := by
  obtain ⟨hle, sent, hsent, hrows, hsplit, htab⟩ := runSqlCalls_adds_sent cs ⟨ps, [], t, []⟩ (Nat.zero_le _)
  simp only [List.nil_append] at hsent hsplit
  exact ⟨hle, hsent ▸ hrows, hsent ▸ hsplit, hsent ▸ htab⟩

/-- The statement of a fresh connection's single add raises nothing. -/
theorem batches_carry_every_row_one_add :
    (runSqlCalls ⟨[], [], Tables.empty, []⟩ ([(exampleFrontier, examplePeer)].map fun c => .add c.1 c.2)).2 = [] ∧
      (runSqlCalls ⟨[], [], Tables.empty, []⟩ ([(exampleFrontier, examplePeer)].map fun c => .add c.1 c.2)).1.tables.frontiers =
        (runSqlCalls ⟨[], [], Tables.empty, []⟩
          ([(exampleFrontier, examplePeer)].map fun c => .add c.1 c.2)).1.batchesSent.flatten.foldl
          (upsertOn FrontierRow.key) Tables.empty.frontiers :=
  ⟨rfl, (batches_carry_every_row [] Tables.empty [(exampleFrontier, examplePeer)]).2.2.2 rfl⟩

/-- `__add_batch` clears the cache before its statement runs, so a rejected batch's rows are
neither pending nor stored. -/
theorem failed_batch_loses_pending_rows :
    (∀ (db : MySqlDb) e p, (db.addFrontier e p).2 ≠ none →
      (db.addFrontier e p).1.cache = [] ∧
        (db.addFrontier e p).1.tables.frontiers = db.tables.frontiers) ∧
      (runSqlCalls MySqlDb.empty ([.add exampleFrontier examplePeer, .remove exampleFrontier examplePeer] ++
        List.replicate 1023 (.add exampleFrontier examplePeer))).1.cache.length = 1024 ∧
      (runSqlCalls MySqlDb.empty ([.add exampleFrontier examplePeer, .remove exampleFrontier examplePeer] ++
        List.replicate 1024 (.add exampleFrontier examplePeer))).2 = [.unknownColumn, .noReferencedRow] ∧
      (runSqlCalls MySqlDb.empty ([.add exampleFrontier examplePeer, .remove exampleFrontier examplePeer] ++
        List.replicate 1024 (.add exampleFrontier examplePeer))).1.cache = [] ∧
      (runSqlCalls MySqlDb.empty ([.add exampleFrontier examplePeer, .remove exampleFrontier examplePeer] ++
        List.replicate 1024 (.add exampleFrontier examplePeer))).1.tables.frontiers = [] := by
  have hrej := addFrontier_batch_rejected ⟨[examplePeer], [MySqlDb.row exampleFrontier examplePeer] ++
    List.replicate 1023 (MySqlDb.row exampleFrontier examplePeer), Tables.empty, []⟩ exampleFrontier
    examplePeer (by decide) (by rw [List.length_append, List.length_replicate]; rfl) rfl
  obtain ⟨hc, hf⟩ := MySqlDb.addFrontier_error (by rw [hrej]; exact Option.some_ne_none _)
  refine ⟨fun _ _ _ => MySqlDb.addFrontier_error, ?_, ?_⟩
  · rw [runSqlCalls_add_remove_adds, List.length_append, List.length_replicate]; rfl
  · simp only [runSqlCalls_add_remove_batch, hc, hf, true_and]
    rfl

end FrontierService
