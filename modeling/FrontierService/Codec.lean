import FrontierService.Basic

/-!
# The local client protocol

`client_packet`, `server_packet_header` and `server_packet` of `frontier_service.py`. A
request is `K` and a 32-byte account; a reply is `K`, an 8-byte big-endian count, one
64-byte record per frontier and a 64-byte zero terminator. Parsing fails by `assert`, and
a count that needs more than 8 bytes raises `OverflowError`. `server_packet.parse` keeps
its two loop indices, so the round trips check the slice arithmetic record by record.
-/

namespace FrontierService

/-- Modelled from the spec: `frontier_request.frontier_entry` is not under src/.
An entry holds an account and a frontier hash and serialises as their concatenation. -/
structure FrontierEntry where
  account : Bytes
  frontierHash : Bytes
  deriving DecidableEq, Repr

namespace FrontierEntry

def serialise (f : FrontierEntry) : Bytes := f.account ++ f.frontierHash

/-- Both fields are 32 bytes, as in a record read from a peer. -/
def WellFormed (f : FrontierEntry) : Prop := f.account.length = 32 ∧ f.frontierHash.length = 32

instance (f : FrontierEntry) : Decidable f.WellFormed := inferInstanceAs (Decidable (_ ∧ _))

theorem serialise_length {f : FrontierEntry} (h : f.WellFormed) : f.serialise.length = 64 := by
  simp [serialise, h.1, h.2]

end FrontierEntry

structure ClientPacket where
  account : Bytes
  deriving DecidableEq, Repr

namespace ClientPacket

def parse (data : Bytes) : Except PyExc ClientPacket :=
  if data.length = 33 then
    if data.head? = some magic then .ok ⟨data.drop 1⟩ else .error .assertionError
  else .error .assertionError

def isAllZero (p : ClientPacket) : Bool := p.account = zeros 32

def serialise (p : ClientPacket) : Bytes := [magic] ++ p.account

theorem parse_serialise {a : Bytes} (h : a.length = 32) : parse (serialise ⟨a⟩) = .ok ⟨a⟩ := by
  simp [parse, serialise, h]

/-- `parse` accepts exactly the 33-byte strings starting with `K`, and gives them back. -/
theorem parse_map_serialise (d : Bytes) :
    (parse d).map serialise =
      if d.length = 33 ∧ d.head? = some magic then .ok d else .error .assertionError := by
  cases d with
  | nil => rfl
  | cons b rest =>
    by_cases hb : b = magic
    · subst hb
      by_cases hl : rest.length = 32 <;> simp [parse, serialise, hl, Except.map]
    · simp [parse, hb, Ne.symm hb, Except.map]

end ClientPacket

structure ServerPacketHeader where
  noOfFrontiers : Nat
  deriving DecidableEq, Repr

namespace ServerPacketHeader

def serialise (h : ServerPacketHeader) : Except PyExc Bytes := do
  let count ← intToBytes h.noOfFrontiers 8
  pure ([magic] ++ count)

/-- `data[0]` raises `IndexError` on an empty string; `data[1:9]` may be short. -/
def parse : Bytes → Except PyExc ServerPacketHeader
  | [] => .error .indexError
  | b :: rest => if b = magic then .ok ⟨fromBytesBE (rest.take 8)⟩ else .error .assertionError

theorem serialise_of_lt {n : Nat} (h : n < 2 ^ 64) :
    serialise ⟨n⟩ = .ok ([magic] ++ toBytesBE 8 n) := by
  have : n < 256 ^ 8 := by simpa using h
  simp only [serialise, intToBytes, if_pos this]
  rfl

theorem parse_serialise {n : Nat} (h : n < 2 ^ 64) (rest : Bytes) :
    parse ([magic] ++ toBytesBE 8 n ++ rest) = .ok ⟨n⟩ := by
  have hmod : n % 256 ^ 8 = n := Nat.mod_eq_of_lt (by simpa using h)
  have htake : (toBytesBE 8 n ++ rest).take 8 = toBytesBE 8 n := by
    simp [List.take_append_eq_append_take, toBytesBE_length]
  simp only [List.singleton_append, List.cons_append, List.nil_append, parse, if_true, htake,
    fromBytesBE_toBytesBE, hmod]

/-- A count read from 8 bytes serialises back to them. -/
theorem serialise_fromBytesBE {xs : Bytes} (h : xs.length = 8) :
    serialise ⟨fromBytesBE xs⟩ = .ok ([magic] ++ xs) := by
  have hlt : fromBytesBE xs < 2 ^ 64 := by simpa [h] using fromBytesBE_lt xs
  have hbytes := toBytesBE_fromBytesBE xs
  rw [h] at hbytes
  rw [serialise_of_lt hlt, hbytes]

end ServerPacketHeader

/-- `server_packet`; its header is always `server_packet_header(len(frontiers))`. -/
structure ServerPacket where
  frontiers : List FrontierEntry
  deriving DecidableEq, Repr

namespace ServerPacket

def header (p : ServerPacket) : ServerPacketHeader := ⟨p.frontiers.length⟩

def body (frontiers : List FrontierEntry) : Bytes := frontiers.flatMap FrontierEntry.serialise

@[simp] theorem body_nil : body [] = [] := rfl

@[simp] theorem body_cons (f : FrontierEntry) (fs : List FrontierEntry) :
    body (f :: fs) = f.serialise ++ body fs := rfl

def serialise (p : ServerPacket) : Except PyExc Bytes := do
  let hdr ← p.header.serialise
  pure (hdr ++ body p.frontiers ++ zeros 64)

/-- The loop of `server_packet.parse`: `count` records from `start_index`/`end_index` on. -/
def parseRecords (data : Bytes) : Nat → Nat → Nat → List FrontierEntry
  | 0, _, _ => []
  | count + 1, startIndex, endIndex =>
    ⟨slice data startIndex (endIndex - 32), slice data (endIndex - 32) endIndex⟩ ::
      parseRecords data count (startIndex + 64) (endIndex + 64)

def parse (hdr : ServerPacketHeader) (data : Bytes) : Except PyExc ServerPacket :=
  if data.length = 64 * hdr.noOfFrontiers + 64 then
    .ok ⟨parseRecords data hdr.noOfFrontiers 0 64⟩
  else .error .assertionError

theorem body_length {fs : List FrontierEntry} (h : ∀ f ∈ fs, f.WellFormed) :
    (body fs).length = 64 * fs.length := by
  induction fs with
  | nil => rfl
  | cons f fs ih =>
    simp only [body_cons, List.length_append, List.length_cons] at ih ⊢
    rw [ih (fun g hg => h g (List.mem_cons_of_mem f hg)),
      FrontierEntry.serialise_length (h f (List.mem_cons_self f fs))]
    omega

/-- Skipping a 64-byte prefix shifts both loop indices by 64. -/
theorem parseRecords_shift (xs ys : Bytes) (hx : xs.length = 64) (count s e : Nat) (he : 32 ≤ e) :
    parseRecords (xs ++ ys) count (s + 64) (e + 64) = parseRecords ys count s e := by
  induction count generalizing s e with
  | zero => rfl
  | succ count ih =>
    have h1 : e + 64 - 32 = xs.length + (e - 32) := by omega
    simp only [parseRecords, h1, ih (s + 64) (e + 64) (by omega)]
    rw [show s + 64 = xs.length + s by omega, slice_append_right,
      show e + 64 = xs.length + e by omega, slice_append_right]

theorem parseRecords_body {fs : List FrontierEntry} (h : ∀ f ∈ fs, f.WellFormed) (tail : Bytes) :
    parseRecords (body fs ++ tail) fs.length 0 64 = fs := by
  induction fs with
  | nil => rfl
  | cons f fs ih =>
    have hf := h f (List.mem_cons_self f fs)
    have hrest := ih (fun g hg => h g (List.mem_cons_of_mem f hg))
    have hshift := parseRecords_shift f.serialise (body fs ++ tail)
      (FrontierEntry.serialise_length hf) fs.length 0 64 (by omega)
    have hacc : slice f.serialise 0 32 = f.account := by
      simp [slice, FrontierEntry.serialise, hf.1]
    have hhash : slice f.serialise 32 64 = f.frontierHash := by
      simp [slice, FrontierEntry.serialise, hf.1, hf.2]
    have hlen := FrontierEntry.serialise_length hf
    simp only [Nat.zero_add, Nat.reduceAdd] at hshift
    simp only [body_cons, List.length_cons, List.append_assoc, parseRecords,
      Nat.reduceSub, Nat.zero_add, Nat.reduceAdd]
    rw [slice_append_left _ _ _ _ (by omega), slice_append_left _ _ _ _ (by omega), hacc, hhash,
      hshift, hrest]

theorem parse_body {fs : List FrontierEntry} (h : ∀ f ∈ fs, f.WellFormed) :
    parse ⟨fs.length⟩ (body fs ++ zeros 64) = .ok ⟨fs⟩ := by
  simp [parse, body_length h, parseRecords_body h]

theorem parseRecords_length (data : Bytes) (n s e : Nat) : (parseRecords data n s e).length = n := by
  induction n generalizing s e with
  | zero => rfl
  | succ n ih => simp [parseRecords, ih]

/-- The records the loop reads from `start_index` on serialise back to the bytes they span. -/
theorem body_parseRecords (data : Bytes) (n s : Nat) :
    body (parseRecords data n s (s + 64)) = slice data s (s + 64 * n) := by
  induction n generalizing s with
  | zero => simp [parseRecords, slice]
  | succ n ih =>
    rw [parseRecords, body_cons, FrontierEntry.serialise, ih, show s + 64 - 32 = s + 32 by omega,
      slice_append_slice data s (s + 32) (s + 64) (by omega) (by omega),
      slice_append_slice data s (s + 64) (s + 64 + 64 * n) (by omega) (by omega)]
    congr 1
    omega

/-- The decoding of a whole reply `d`, as `get_all_frontiers_packet_from_service` runs it. -/
theorem parse_take_drop_cons (b : UInt8) (rest : Bytes) :
    (do let hdr ← ServerPacketHeader.parse ((b :: rest).take 9)
        parse hdr ((b :: rest).drop 9)) =
      if b = magic then parse ⟨fromBytesBE (rest.take 8)⟩ (rest.drop 8) else .error .assertionError := by
  by_cases hb : b = magic <;> simp [ServerPacketHeader.parse, hb, bind, Except.bind, List.take_take]

/-- A reply decodes exactly when it starts with `K` and its body is as long as the count in
`d[1:9]` says; the packet is then the records of the body. -/
theorem decode_eq_ok {d : Bytes} {p : ServerPacket} :
    (ServerPacketHeader.parse (d.take 9) >>= fun hdr => parse hdr (d.drop 9)) = .ok p ↔
      d.head? = some magic ∧ (d.drop 9).length = 64 * fromBytesBE (slice d 1 9) + 64 ∧
        p = ⟨parseRecords (d.drop 9) (fromBytesBE (slice d 1 9)) 0 64⟩ := by
  cases d with
  | nil => simp [ServerPacketHeader.parse, bind, Except.bind]
  | cons b rest =>
    rw [parse_take_drop_cons]
    by_cases hb : b = magic
    · subst hb
      have hslice : slice (magic :: rest) 1 9 = rest.take 8 := rfl
      simp only [hslice, if_true, parse, List.drop_succ_cons, List.head?_cons, List.length_drop]
      split <;> simp [*, eq_comm]
    · simp [hb, Ne.symm hb]

/-- A decoded reply whose last 64 bytes are zero serialises back to itself. -/
theorem serialise_of_decode {d : Bytes} {p : ServerPacket}
    (hdec : (ServerPacketHeader.parse (d.take 9) >>= fun hdr => parse hdr (d.drop 9)) = .ok p)
    (htail : d.drop (d.length - 64) = zeros 64) : p.serialise = .ok d := by
  obtain ⟨hd, hl, rfl⟩ := decode_eq_ok.mp hdec
  obtain _ | ⟨b, rest⟩ := d
  · cases hd
  cases hd
  have hslice : slice (magic :: rest) 1 9 = rest.take 8 := rfl
  simp only [hslice, List.drop_succ_cons, List.length_drop] at hl ⊢
  have hbody := body_parseRecords (rest.drop 8) (fromBytesBE (rest.take 8)) 0
  have hzeros : zeros 64 = (rest.drop 8).drop (64 * fromBytesBE (rest.take 8)) := by
    rw [← htail, List.drop_drop,
      show (magic :: rest).length - 64 = 8 + 64 * fromBytesBE (rest.take 8) + 1 by simp; omega]
    rfl
  simp only [slice, Nat.zero_add, List.drop_zero, Nat.sub_zero] at hbody
  simp only [serialise, header, parseRecords_length,
    ServerPacketHeader.serialise_fromBytesBE (show (rest.take 8).length = 8 by simp; omega), hbody, hzeros]
  simp [bind, Except.bind, pure, Except.pure, List.take_append_drop]

end ServerPacket

/-- Decoding undoes encoding: a request gives back its account, a reply of fewer than
`2 ^ 64` well-formed entries its entries in order. -/
theorem protocol_roundtrip :
    (∀ a : Bytes, a.length = 32 →
      (ClientPacket.parse (ClientPacket.serialise ⟨a⟩)).map ClientPacket.account = .ok a) ∧
    (∀ fs : List FrontierEntry, (∀ f ∈ fs, f.WellFormed) → fs.length < 2 ^ 64 →
      ∃ d, (ServerPacket.serialise ⟨fs⟩) = .ok d ∧ d.length = 9 + 64 * fs.length + 64 ∧
        (ServerPacketHeader.parse (d.take 9)).map ServerPacketHeader.noOfFrontiers = .ok fs.length ∧
        (do let hdr ← ServerPacketHeader.parse (d.take 9)
            ServerPacket.parse hdr (d.drop 9)).map ServerPacket.frontiers = .ok fs) := by
  refine ⟨fun a ha => by rw [ClientPacket.parse_serialise ha]; rfl, fun fs hwf hlen => ?_⟩
  have hser : ServerPacket.serialise ⟨fs⟩ =
      .ok ([magic] ++ toBytesBE 8 fs.length ++ ServerPacket.body fs ++ zeros 64) := by
    simp only [ServerPacket.serialise, ServerPacket.header, ServerPacketHeader.serialise_of_lt hlen]
    rfl
  have htake : ([magic] ++ toBytesBE 8 fs.length ++ ServerPacket.body fs ++ zeros 64).take 9 =
      [magic] ++ toBytesBE 8 fs.length := by simp [List.take_append_eq_append_take]
  have hdrop : ([magic] ++ toBytesBE 8 fs.length ++ ServerPacket.body fs ++ zeros 64).drop 9 =
      ServerPacket.body fs ++ zeros 64 := by simp [List.drop_append_eq_append_drop]
  have hhdr := ServerPacketHeader.parse_serialise hlen []
  rw [List.append_nil] at hhdr
  refine ⟨_, hser, ?_, ?_, ?_⟩
  · simp [ServerPacket.body_length hwf]; omega
  · rw [htake, hhdr]; rfl
  · rw [htake, hdrop, hhdr]
    simp only [bind, Except.bind, ServerPacket.parse_body hwf]
    rfl

/-- One 32-byte account, and a packet of one well-formed entry. -/
theorem protocol_roundtrip_one_entry :
    (List.replicate 32 (1 : UInt8)).length = 32 ∧
      (ClientPacket.parse (ClientPacket.serialise ⟨List.replicate 32 1⟩)).map ClientPacket.account =
        .ok (List.replicate 32 1) ∧
      (∀ f ∈ [(⟨List.replicate 32 1, List.replicate 32 0xAA⟩ : FrontierEntry)], f.WellFormed) ∧
      [(⟨List.replicate 32 1, List.replicate 32 0xAA⟩ : FrontierEntry)].length < 2 ^ 64 ∧
      ∃ d, (ServerPacket.serialise ⟨[⟨List.replicate 32 1, List.replicate 32 0xAA⟩]⟩) = .ok d ∧
        d.length = 9 + 64 * 1 + 64 ∧
        (ServerPacketHeader.parse (d.take 9)).map ServerPacketHeader.noOfFrontiers = .ok 1 ∧
        (do let hdr ← ServerPacketHeader.parse (d.take 9)
            ServerPacket.parse hdr (d.drop 9)).map ServerPacket.frontiers =
          .ok [⟨List.replicate 32 1, List.replicate 32 0xAA⟩] :=
  ⟨rfl, protocol_roundtrip.1 _ rfl, by decide, by decide, protocol_roundtrip.2 _ (by decide) (by decide)⟩

/-- The decoders accept exactly the framed byte strings, and re-serialising what they decode
gives the input back when its terminator is zero. -/
theorem decoders_accept_exact_framing :
    (∀ d : Bytes, (ClientPacket.parse d).map ClientPacket.serialise =
      if d.length = 33 ∧ d.head? = some magic then .ok d else .error .assertionError) ∧
    (∀ d : Bytes, (∃ p, (ServerPacketHeader.parse (d.take 9) >>= fun hdr =>
          ServerPacket.parse hdr (d.drop 9)) = .ok p) ↔
        9 ≤ d.length ∧ d.head? = some magic ∧ d.length = 9 + 64 * fromBytesBE (slice d 1 9) + 64) ∧
    (∀ d p, (ServerPacketHeader.parse (d.take 9) >>= fun hdr =>
          ServerPacket.parse hdr (d.drop 9)) = .ok p →
        d.drop (d.length - 64) = zeros 64 → p.serialise = .ok d) := by
  refine ⟨ClientPacket.parse_map_serialise, fun d => ?_, fun _ _ => ServerPacket.serialise_of_decode⟩
  simp only [ServerPacket.decode_eq_ok, exists_and_left, exists_eq, and_true, List.length_drop]
  exact ⟨fun ⟨hd, _⟩ => ⟨by omega, hd, by omega⟩, fun ⟨_, hd, _⟩ => ⟨hd, by omega⟩⟩

/-- The empty packet: a header for no frontiers and the 64-byte terminator. -/
theorem decoders_accept_exact_framing_empty :
    (ServerPacketHeader.parse (([magic] ++ zeros 8 ++ zeros 64).take 9) >>= fun hdr =>
        ServerPacket.parse hdr (([magic] ++ zeros 8 ++ zeros 64).drop 9)) = .ok ⟨[]⟩ ∧
      ([magic] ++ zeros 8 ++ zeros 64).drop (([magic] ++ zeros 8 ++ zeros 64).length - 64) = zeros 64 ∧
      ServerPacket.serialise ⟨[]⟩ = .ok ([magic] ++ zeros 8 ++ zeros 64) :=
  ⟨rfl, rfl, decoders_accept_exact_framing.2.2 _ _ rfl rfl⟩

end FrontierService
