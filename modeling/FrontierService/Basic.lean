import Mathlib.Data.List.Basic
import Mathlib.Data.List.Nodup
import Mathlib.Data.Nat.Defs
import Mathlib.Algebra.Group.Nat.Basic

/-!
# Byte strings, Python errors and runs of a step function

Python `bytes` are lists of `UInt8`; slices `data[i:j]` are `drop` then `take`,
and `int.to_bytes`/`int.from_bytes` with `'big'` are `toBytesBE`/`fromBytesBE`.
An exception the modelled code raises is a `PyExc`: a raising call is an
`Except PyExc` value, and the state a caller keeps after it is explicit.
Timestamps from `time.time()` are whole seconds (`Int`).
-/

namespace FrontierService

abbrev Bytes := List UInt8

/-- `ord('K')`, the magic byte of the local client protocol. -/
def magic : UInt8 := 75

/-- `b'\x00' * n`. -/
def zeros (n : Nat) : Bytes := List.replicate n 0

abbrev Time := Int

/-- The Python exceptions the modelled code raises itself. -/
inductive PyExc
  | assertionError
  | indexError
  | overflowError
  | attributeError
  | notImplementedError
  | valueError
  | blacklistItemTypeError
  /-- A short read in `read_socket`. -/
  | socketClosed
  /-- `lmdb.BadValsizeError`: a key that is empty or longer than the maximum key size. -/
  | badValsizeError
  deriving DecidableEq, Repr

/-- `data[i:j]`. -/
def slice (data : Bytes) (i j : Nat) : Bytes := (data.drop i).take (j - i)

/-- `int.to_bytes(length, 'big')` for a value that fits. -/
def toBytesBE : Nat → Nat → Bytes
  | 0, _ => []
  | k + 1, n => toBytesBE k (n / 256) ++ [UInt8.ofNat (n % 256)]

/-- `int.from_bytes(data, 'big')`. -/
def fromBytesBE (data : Bytes) : Nat := data.foldl (fun acc b => acc * 256 + b.toNat) 0

/-- `n.to_bytes(length, 'big')`: `OverflowError` when `n` needs more bytes. -/
def intToBytes (n length : Nat) : Except PyExc Bytes :=
  if n < 256 ^ length then .ok (toBytesBE length n) else .error .overflowError

@[simp] theorem zeros_length (n : Nat) : (zeros n).length = n := List.length_replicate n 0

@[simp] theorem toBytesBE_length (k n : Nat) : (toBytesBE k n).length = k := by
  induction k generalizing n with
  | zero => rfl
  | succ k ih => simp [toBytesBE, ih]

theorem fromBytesBE_append_singleton (data : Bytes) (b : UInt8) :
    fromBytesBE (data ++ [b]) = fromBytesBE data * 256 + b.toNat := by
  simp [fromBytesBE, List.foldl_append]

theorem uint8_toNat_ofNat_mod (n : Nat) : (UInt8.ofNat (n % 256)).toNat = n % 256 :=
  UInt8.toNat_ofNat_of_lt (Nat.mod_lt n (by decide))

/-- Reading back `k` big-endian bytes gives the value modulo `256 ^ k`. -/
theorem fromBytesBE_toBytesBE (k n : Nat) : fromBytesBE (toBytesBE k n) = n % 256 ^ k := by
  induction k generalizing n with
  | zero => simp [toBytesBE, fromBytesBE, Nat.mod_one]
  | succ k ih =>
    rw [toBytesBE, fromBytesBE_append_singleton, ih, uint8_toNat_ofNat_mod, Nat.pow_succ',
      Nat.mod_mul]
    omega

theorem uint8_ofNat_toNat (b : UInt8) : UInt8.ofNat b.toNat = b :=
  UInt8.toNat.inj (UInt8.toNat_ofNat_of_lt b.toNat_lt_size)

/-- Writing back, big-endian, as many bytes as were read gives them back. -/
theorem toBytesBE_fromBytesBE (data : Bytes) : toBytesBE data.length (fromBytesBE data) = data := by
  induction data using List.reverseRecOn with
  | nil => rfl
  | append_singleton data b ih =>
    have hb : b.toNat < 256 := b.toNat_lt_size
    rw [List.length_append, List.length_singleton, toBytesBE, fromBytesBE_append_singleton,
      show (fromBytesBE data * 256 + b.toNat) / 256 = fromBytesBE data by omega,
      show (fromBytesBE data * 256 + b.toNat) % 256 = b.toNat by omega, ih, uint8_ofNat_toNat]

theorem fromBytesBE_lt (data : Bytes) : fromBytesBE data < 256 ^ data.length := by
  induction data using List.reverseRecOn with
  | nil => exact Nat.one_pos
  | append_singleton data b ih =>
    have hb : b.toNat < 256 := b.toNat_lt_size
    rw [fromBytesBE_append_singleton, List.length_append, List.length_singleton, Nat.pow_succ]
    omega

theorem slice_append_slice (data : Bytes) (i j k : Nat) (hij : i ≤ j) (hjk : j ≤ k) :
    slice data i j ++ slice data j k = slice data i k := by
  simp only [slice]
  rw [show k - i = (j - i) + (k - j) by omega, List.take_add, List.drop_drop,
    show i + (j - i) = j by omega]

theorem slice_append_left (xs ys : Bytes) (i j : Nat) (h : j ≤ xs.length) :
    slice (xs ++ ys) i j = slice xs i j := by
  simp only [slice, List.drop_append_eq_append_drop, List.take_append_eq_append_take]
  have : j - i - (xs.length - i) = 0 := by omega
  simp [this]

theorem slice_append_right (xs ys : Bytes) (i j : Nat) :
    slice (xs ++ ys) (xs.length + i) (xs.length + j) = slice ys i j := by
  simp [slice, List.drop_append, Nat.add_sub_add_left]

/-! ### Records keyed by a field -/

section Keyed

variable {α κ : Type} [DecidableEq κ] (key : α → κ)

/-- Replace the records with `a`'s key by `a`, or append `a`. -/
def upsertOn (l : List α) (a : α) : List α :=
  if l.any fun x => key x = key a then l.map fun x => if key x = key a then a else x else l ++ [a]

/-- The first record with key `k`. -/
def lookupOn (l : List α) (k : κ) : Option α := l.find? fun x => key x = k

theorem lookupOn_upsertOn (l : List α) (a : α) (k : κ) :
    lookupOn key (upsertOn key l a) k = if key a = k then some a else lookupOn key l k := by
  unfold upsertOn lookupOn
  split
  · rename_i hany
    obtain ⟨y, hy, hya⟩ := List.any_eq_true.mp hany
    have hp : ((fun x => decide (key x = k)) ∘ fun x => if key x = key a then a else x) =
        fun x => decide (key x = k) := by
      funext x; by_cases hx : key x = key a <;> simp [hx]
    rw [List.find?_map, hp]
    cases hf : l.find? fun x => decide (key x = k) with
    | none =>
      have hyk := List.find?_eq_none.mp hf y hy
      simp only [decide_eq_true_eq] at hya hyk
      simp [← hya, hyk]
    | some x =>
      have hx : key x = k := by simpa using List.find?_some hf
      by_cases hk : key a = k
      · simp [hx, hk]
      · have hk' : k ≠ key a := Ne.symm hk
        simp [hx, hk, hk']
  · rename_i hany
    simp only [Bool.not_eq_true, List.any_eq_false, decide_eq_true_eq] at hany
    rw [List.find?_append]
    by_cases hk : key a = k
    · have hnone : (l.find? fun x => decide (key x = k)) = none :=
        List.find?_eq_none.mpr fun x hx => by simpa [← hk] using hany x hx
      simp [hnone, hk]
    · cases l.find? fun x => decide (key x = k) <;> simp [hk]

theorem upsertOn_keys_nodup {l : List α} (h : (l.map key).Nodup) (a : α) :
    ((upsertOn key l a).map key).Nodup := by
  unfold upsertOn
  split
  · rw [List.map_map]
    convert h using 2
    funext x; by_cases hx : key x = key a <;> simp [hx]
  · rename_i hany
    simp only [Bool.not_eq_true, List.any_eq_false, decide_eq_true_eq] at hany
    rw [List.map_append, List.nodup_append]
    refine ⟨h, List.nodup_singleton _, fun k hk hk' => ?_⟩
    obtain ⟨x, hx, rfl⟩ := List.mem_map.mp hk
    simp only [List.map_cons, List.map_nil, List.mem_singleton] at hk'
    exact hany x hx hk'

theorem mem_iff_lookupOn {l : List α} (h : (l.map key).Nodup) (a : α) :
    a ∈ l ↔ lookupOn key l (key a) = some a := by
  unfold lookupOn
  constructor
  · intro hmem
    cases hf : l.find? fun x => decide (key x = key a) with
    | none => simpa using List.find?_eq_none.mp hf _ hmem
    | some y =>
      have hy : key y = key a := by simpa using List.find?_some hf
      rw [List.inj_on_of_nodup_map h (List.mem_of_find?_eq_some hf) hmem hy]
  · exact List.mem_of_find?_eq_some

theorem mem_keys_iff (l : List α) (k : κ) : k ∈ l.map key ↔ (lookupOn key l k).isSome := by
  simp [lookupOn, List.find?_isSome]

end Keyed

/-! ### Runs of a partial step function -/

section Runs

variable {σ ε : Type} (step : σ → ε → Option σ)

/-- Apply the events in order; `none` as soon as one is not enabled. -/
def runSteps : σ → List ε → Option σ
  | s, [] => some s
  | s, e :: es => (step s e).bind fun s' => runSteps s' es

theorem runSteps_append (s : σ) (es fs : List ε) :
    runSteps step s (es ++ fs) = (runSteps step s es).bind fun s' => runSteps step s' fs := by
  induction es generalizing s with
  | nil => rfl
  | cons e es ih =>
    simp only [List.cons_append, runSteps]
    cases step s e <;> simp [ih]

theorem runSteps_snoc (s : σ) (es : List ε) (e : ε) :
    runSteps step s (es ++ [e]) = (runSteps step s es).bind fun s' => step s' e := by
  rw [runSteps_append]
  cases runSteps step s es <;> simp [runSteps]

/-- An invariant that every enabled step keeps holds after every run. -/
theorem runSteps_invariant (Inv : σ → Prop) (hstep : ∀ s e s', Inv s → step s e = some s' → Inv s')
    {s s' : σ} {es : List ε} (hs : Inv s) (hrun : runSteps step s es = some s') : Inv s' := by
  induction es generalizing s with
  | nil => cases hrun; exact hs
  | cons e es ih =>
    simp only [runSteps, Option.bind_eq_some] at hrun
    obtain ⟨t, ht, hrun⟩ := hrun
    exact ih (hstep s e t hs ht) hrun

end Runs

end FrontierService
