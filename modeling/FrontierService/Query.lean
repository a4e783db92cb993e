import FrontierService.RamStore

/-!
# Answering a client

`comm_thread` reads one `s.recv(33)`, parses it, and answers with every stored frontier
for the all-zero account or with the one matching frontier; the client functions read the
answer back. A connection is what each side sends: the server's reply is the bytes of its
one `sendall`, or nothing when `comm_thread` raises. Here the lookup and the serialisation
are one step; the service model splits them.
-/

namespace FrontierService

/-- The two lookups `comm_thread` makes on `self.database_interface`; `none` is `None`. -/
structure Lookups where
  getAll : Except PyExc (List FrontierEntry)
  getFrontier : Bytes → Except PyExc (Option FrontierEntry)

/-- The in-memory backend's answers, read through the heap as `comm_thread` serialises them. -/
def RamStore.lookups (s : RamStore) : Lookups :=
  ⟨.ok (s.getAll.map s.heap), fun a => .ok ((s.getFrontier a).map s.heap)⟩

/-- The bytes `comm_thread` sends for the request `data`. -/
def commThread (db : Lookups) (data : Bytes) : Except PyExc Bytes := do
  let cPacket ← ClientPacket.parse data
  if cPacket.isAllZero then
    let frontiers ← db.getAll
    (ServerPacket.mk frontiers).serialise
  else
    match ← db.getFrontier cPacket.account with
    | some frontier => (ServerPacket.mk [frontier]).serialise
    -- `server_packet([None]).serialise()` calls `None.serialise()`
    | none => .error .attributeError

/-- `s.recv(bufsize)`: at most `bufsize` bytes of the first segment delivered, `b''` once the
peer has closed, and what is left to read. -/
def recv (segments : List Bytes) (bufsize : Nat) : Bytes × List Bytes :=
  match segments with
  | [] => ([], [])
  | seg :: rest => (seg.take bufsize, if seg.length ≤ bufsize then rest else seg.drop bufsize :: rest)

/-- `comm_thread(s)`: one `s.recv(33)`, then the answer to the bytes it returned. -/
def commThreadOn (db : Lookups) (segments : List Bytes) : Except PyExc Bytes :=
  commThread db (recv segments 33).1

/-- What reaches the client: the reply, or nothing once the worker raised. -/
def reply : Except PyExc Bytes → Bytes
  | .ok data => data
  | .error _ => []

/-- Modelled from the spec: `read_socket` (pynanocoin, not under src/) returns exactly
`n` bytes of the stream, and a short read is an error. -/
def readSocket (stream : Bytes) (n : Nat) : Except PyExc (Bytes × Bytes) :=
  if n ≤ stream.length then .ok (stream.take n, stream.drop n) else .error .socketClosed

/-- The client's side once its request is sent: `stream` is what the server sent. -/
def getAllFrontiersPacketFromService (stream : Bytes) : Except PyExc ServerPacket := do
  let (hdrData, rest) ← readSocket stream 9
  let sHdr ← ServerPacketHeader.parse hdrData
  let (frontData, _) ← readSocket rest (64 * sHdr.noOfFrontiers + 64)
  ServerPacket.parse sHdr frontData

/-- The single-account client reads a fixed 128 bytes after the header. -/
def getAccountsFrontierPacketFromService (account stream : Bytes) : Except PyExc ServerPacket := do
  if account.length ≠ 32 then throw .assertionError
  let (hdrData, rest) ← readSocket stream 9
  let sHdr ← ServerPacketHeader.parse hdrData
  let (frontData, _) ← readSocket rest 128
  ServerPacket.parse sHdr frontData

/-- A whole connection of the all-frontiers client. -/
def queryAll (db : Lookups) : Except PyExc ServerPacket :=
  getAllFrontiersPacketFromService (reply (commThread db (ClientPacket.serialise ⟨zeros 32⟩)))

/-- A whole connection of the single-account client. -/
def queryAccount (db : Lookups) (account : Bytes) : Except PyExc ServerPacket :=
  getAccountsFrontierPacketFromService account
    (reply (commThread db (ClientPacket.serialise ⟨account⟩)))

theorem readSocket_append {xs : Bytes} (ys : Bytes) {n : Nat} (h : xs.length = n) :
    readSocket (xs ++ ys) n = .ok (xs, ys) := by
  subst h; simp [readSocket]

theorem serialise_eq {fs : List FrontierEntry} (hlen : fs.length < 2 ^ 64) :
    (ServerPacket.mk fs).serialise =
      .ok ([magic] ++ toBytesBE 8 fs.length ++ (ServerPacket.body fs ++ zeros 64)) := by
  simp only [ServerPacket.serialise, ServerPacket.header, ServerPacketHeader.serialise_of_lt hlen]
  simp [bind, Except.bind, pure, Except.pure]

theorem parse_header {n : Nat} (h : n < 2 ^ 64) :
    ServerPacketHeader.parse ([magic] ++ toBytesBE 8 n) = .ok ⟨n⟩ := by
  simpa using ServerPacketHeader.parse_serialise h []

/-- The all-frontiers client reads back any well-formed reply the server serialised. -/
theorem getAllFrontiersPacketFromService_reply {fs : List FrontierEntry}
    (hwf : ∀ f ∈ fs, f.WellFormed) (hlen : fs.length < 2 ^ 64) :
    getAllFrontiersPacketFromService
      ([magic] ++ toBytesBE 8 fs.length ++ (ServerPacket.body fs ++ zeros 64)) = .ok ⟨fs⟩ := by
  have h2 : (ServerPacket.body fs ++ zeros 64).length = 64 * fs.length + 64 := by
    simp [ServerPacket.body_length hwf]
  rw [getAllFrontiersPacketFromService, readSocket_append _ (by simp)]
  simp only [bind, Except.bind, parse_header hlen]
  rw [← List.append_nil (ServerPacket.body fs ++ zeros 64), readSocket_append _ h2]
  exact ServerPacket.parse_body hwf

/-- The single-account client reads back a reply of one well-formed entry. -/
theorem getAccountsFrontierPacketFromService_reply {f : FrontierEntry} (hwf : f.WellFormed)
    {account : Bytes} (ha : account.length = 32) :
    getAccountsFrontierPacketFromService account
      ([magic] ++ toBytesBE 8 1 ++ (ServerPacket.body [f] ++ zeros 64)) = .ok ⟨[f]⟩ := by
  have hwf' : ∀ g ∈ [f], g.WellFormed := by simpa using hwf
  have h2 : (ServerPacket.body [f] ++ zeros 64).length = 128 := by
    rw [List.length_append, ServerPacket.body_length hwf']; rfl
  rw [getAccountsFrontierPacketFromService, if_neg (by simp [ha])]
  simp only [bind, Except.bind, pure, Except.pure]
  rw [readSocket_append _ (by simp)]
  simp only [parse_header (show 1 < 2 ^ 64 by decide)]
  rw [← List.append_nil (ServerPacket.body [f] ++ zeros 64), readSocket_append _ h2]
  exact ServerPacket.parse_body hwf'

theorem commThread_allZero (db : Lookups) :
    commThread db (ClientPacket.serialise ⟨zeros 32⟩) =
      db.getAll.bind fun frontiers => (ServerPacket.mk frontiers).serialise := by
  simp only [commThread, ClientPacket.parse_serialise (zeros_length 32)]
  rfl

/-- An account's request on the in-memory backend: the entry holding its stored hash, or, when
nothing is stored for it, `AttributeError` and no reply. -/
theorem commThread_account_ram (s : RamStore) {a : Bytes} (ha : a.length = 32) (hz : a ≠ zeros 32) :
    commThread s.lookups (ClientPacket.serialise ⟨a⟩) =
      match Contents.lookupHash s.contents a with
      | some hsh => (ServerPacket.mk [⟨a, hsh⟩]).serialise
      | none => .error .attributeError := by
  have hfind : (s.getFrontier a).map s.heap = s.contents.find? fun x => x.account = a :=
    RamStore.getFrontier_map_heap s a
  simp only [commThread, ClientPacket.parse_serialise ha, ClientPacket.isAllZero, hz, RamStore.lookups,
    hfind, Contents.lookupHash, lookupOn, bind, Except.bind, decide_False]
  cases hf : s.contents.find? fun x => x.account = a with
  | none => rfl
  | some f =>
    have hfa : f.account = a := by simpa using List.find?_some hf
    subst hfa
    rfl

/-- For the all-zero account the server sends `server_packet(get_all())`, and the client
reads back exactly the stored entries, in order. -/
theorem query_all_ram (s : RamStore) (hwf : ∀ f ∈ s.contents, f.WellFormed)
    (hlen : s.countFrontiers < 2 ^ 64) :
    commThread s.lookups (ClientPacket.serialise ⟨zeros 32⟩) =
        (ServerPacket.mk (s.getAll.map s.heap)).serialise ∧
      queryAll s.lookups = .ok ⟨s.getAll.map s.heap⟩ := by
  have hlen' : (s.getAll.map s.heap).length < 2 ^ 64 := by
    simpa [RamStore.getAll, RamStore.countFrontiers] using hlen
  have hsend : commThread s.lookups (ClientPacket.serialise ⟨zeros 32⟩) =
      (ServerPacket.mk (s.getAll.map s.heap)).serialise := commThread_allZero s.lookups
  refine ⟨hsend, ?_⟩
  rw [queryAll, hsend, serialise_eq hlen']
  exact getAllFrontiersPacketFromService_reply hwf hlen'

/-- For a stored account the server sends `server_packet([entry])`, and the client reads
back that entry. -/
theorem query_stored_account_ram (s : RamStore) {a : Bytes} (ha : a.length = 32)
    (hz : a ≠ zeros 32) {r : Nat} (hr : s.getFrontier a = some r) (hwf : (s.heap r).WellFormed) :
    commThread s.lookups (ClientPacket.serialise ⟨a⟩) = (ServerPacket.mk [s.heap r]).serialise ∧
      queryAccount s.lookups a = .ok ⟨[s.heap r]⟩ := by
  have hsend : commThread s.lookups (ClientPacket.serialise ⟨a⟩) =
      (ServerPacket.mk [s.heap r]).serialise := by
    simp [commThread, ClientPacket.parse_serialise ha, ClientPacket.isAllZero, hz, RamStore.lookups,
      hr, bind, Except.bind]
  refine ⟨hsend, ?_⟩
  rw [queryAccount, hsend, serialise_eq (by simp)]
  exact getAccountsFrontierPacketFromService_reply hwf ha

/-- An account that is not stored gets no reply: `comm_thread` raises on
`None.serialise()`. -/
theorem unstored_account_gets_no_reply :
    commThread RamStore.empty.lookups (ClientPacket.serialise ⟨List.replicate 32 1⟩) =
        .error .attributeError ∧
      queryAccount RamStore.empty.lookups (List.replicate 32 1) = .error .socketClosed ∧
      (ServerPacket.mk []).serialise = .ok ([magic] ++ zeros 8 ++ zeros 64) ∧
      getAccountsFrontierPacketFromService (List.replicate 32 1) ([magic] ++ zeros 8 ++ zeros 64) =
        .error .socketClosed :=
  ⟨rfl, rfl, rfl, rfl⟩

/-- `comm_thread` answers the first 33 bytes of the first segment, and raises when that
segment is shorter. -/
theorem commThreadOn_cons (db : Lookups) (seg : Bytes) (rest : List Bytes) :
    commThreadOn db (seg :: rest) =
      if seg.length < 33 then .error .assertionError else commThread db (seg.take 33) := by
  simp only [commThreadOn, recv]
  split
  · rename_i hlt
    simp [commThread, ClientPacket.parse, show ¬ 33 ≤ seg.length by omega, bind, Except.bind]
  · rfl

/-- A request split over segments gets no reply: `comm_thread` parses only the first
segment. -/
theorem split_request_gets_no_reply :
    (∀ db (seg : Bytes) rest, seg.length < 33 → commThreadOn db (seg :: rest) = .error .assertionError) ∧
      reply (commThreadOn RamStore.empty.lookups [[magic] ++ zeros 32]) = [magic] ++ zeros 8 ++ zeros 64 ∧
      reply (commThreadOn RamStore.empty.lookups [[magic], zeros 32]) = [] := by
  refine ⟨fun db seg rest h => by rw [commThreadOn_cons, if_pos h], rfl, rfl⟩

end FrontierService
