import FrontierService.RamStore

/-!
# The LMDB backend

`store_in_lmdb` keeps each account's hash under the account as key, in a file that may
already hold data. `add_frontier` is one write transaction with `put`, which raises
`BadValsizeError` for an empty key or one longer than the maximum key size; `get_all`
walks a cursor in LMDB's default key order. The database is the bindings it holds,
strictly increasing in key; pages, transactions and the map size are left out.
-/

namespace FrontierService

/-- LMDB's default key order: bytes compared in turn, and a proper prefix first. -/
def keyLt : Bytes → Bytes → Bool
  | _, [] => false
  | [], _ :: _ => true
  | a :: as, b :: bs => a.toNat < b.toNat || (a.toNat = b.toNat && keyLt as bs)

theorem keyLt_irrefl (k : Bytes) : keyLt k k = false := by
  induction k with
  | nil => rfl
  | cons a as ih => simp [keyLt, ih]

theorem keyLt_trans {a b c : Bytes} (hab : keyLt a b = true) (hbc : keyLt b c = true) :
    keyLt a c = true := by
  induction a generalizing b c with
  | nil => cases b <;> cases c <;> simp_all [keyLt]
  | cons x xs ih =>
    cases b with
    | nil => simp [keyLt] at hab
    | cons y ys =>
      cases c with
      | nil => simp [keyLt] at hbc
      | cons z zs =>
        simp only [keyLt, Bool.or_eq_true, decide_eq_true_eq, Bool.and_eq_true] at hab hbc ⊢
        rcases hab with h1 | ⟨h1, h2⟩ <;> rcases hbc with h3 | ⟨h3, h4⟩
        · exact .inl (by omega)
        · exact .inl (by omega)
        · exact .inl (by omega)
        · exact .inr ⟨by omega, ih h2 h4⟩

/-- Two keys neither of which comes first are equal. -/
theorem eq_of_not_keyLt {a b : Bytes} (hab : keyLt a b = false) (hba : keyLt b a = false) : a = b := by
  induction a generalizing b with
  | nil => cases b with
    | nil => rfl
    | cons => simp [keyLt] at hab
  | cons x xs ih =>
    cases b with
    | nil => simp [keyLt] at hba
    | cons y ys =>
      simp only [keyLt, Bool.or_eq_false_iff, decide_eq_false_iff_not, Bool.and_eq_false_iff] at hab hba
      have hxy : x.toNat = y.toNat := by omega
      have hrest : xs = ys := ih (hab.2.resolve_left (by simp [hxy])) (hba.2.resolve_left (by simp [hxy]))
      rw [UInt8.toNat.inj hxy, hrest]

/-- `put(key, value)` on the bindings: overwrite the value of `key`, or insert the binding
before the first larger key. -/
def insertBinding (key value : Bytes) : List (Bytes × Bytes) → List (Bytes × Bytes)
  | [] => [(key, value)]
  | (k, v) :: rest =>
    if keyLt key k then (key, value) :: (k, v) :: rest
    else if key = k then (key, value) :: rest
    else (k, v) :: insertBinding key value rest

/-- Strictly increasing in key. -/
def KeysSorted (l : List (Bytes × Bytes)) : Prop := l.Pairwise fun a b => keyLt a.1 b.1 = true

theorem mem_insertBinding {key value : Bytes} {l : List (Bytes × Bytes)} {b : Bytes × Bytes}
    (h : b ∈ insertBinding key value l) : b.1 = key ∨ b ∈ l := by
  induction l with
  | nil => exact .inl (by simp_all [insertBinding])
  | cons c rest ih =>
    simp only [insertBinding] at h
    split at h
    · rcases List.mem_cons.mp h with rfl | h
      · exact .inl rfl
      · exact .inr h
    · split at h
      · rcases List.mem_cons.mp h with rfl | h
        · exact .inl rfl
        · exact .inr (List.mem_cons_of_mem _ h)
      · rcases List.mem_cons.mp h with rfl | h
        · exact .inr (List.mem_cons_self _ _)
        · exact (ih h).imp_right (List.mem_cons_of_mem _)

theorem insertBinding_sorted {key value : Bytes} {l : List (Bytes × Bytes)} (h : KeysSorted l) :
    KeysSorted (insertBinding key value l) := by
  induction l with
  | nil => exact List.pairwise_singleton _ _
  | cons c rest ih =>
    rw [KeysSorted, List.pairwise_cons] at h
    simp only [insertBinding]
    split
    · rename_i hlt
      exact List.Pairwise.cons (fun b hb => (List.mem_cons.mp hb).elim (· ▸ hlt)
        fun hb => keyLt_trans hlt (h.1 b hb)) (List.Pairwise.cons h.1 h.2)
    · split
      · rename_i heq
        exact List.Pairwise.cons (fun b hb => heq ▸ h.1 b hb) h.2
      · rename_i hlt hne
        have hgt : keyLt c.1 key = true := by
          cases hc : keyLt c.1 key
          · exact absurd (eq_of_not_keyLt (by simpa using hlt) hc) hne
          · rfl
        refine List.Pairwise.cons (fun b hb => ?_) (ih h.2)
        rcases mem_insertBinding hb with hb | hb
        · exact hb ▸ hgt
        · exact h.1 b hb

theorem lookupOn_insertBinding (key value : Bytes) (l : List (Bytes × Bytes)) (k : Bytes) :
    lookupOn Prod.fst (insertBinding key value l) k =
      if key = k then some (key, value) else lookupOn Prod.fst l k := by
  induction l with
  | nil => by_cases hk : key = k <;> simp [insertBinding, lookupOn, hk]
  | cons c rest ih =>
    obtain ⟨k0, v0⟩ := c
    simp only [insertBinding]
    split
    · by_cases hk : key = k <;> simp [lookupOn, hk]
    · split
      · rename_i heq
        subst heq
        by_cases hk : key = k <;> simp [lookupOn, hk]
      · rename_i hne
        by_cases hk : key = k
        · subst hk
          have hck : (k0 = key) = False := eq_false (Ne.symm hne)
          simp only [lookupOn] at ih ⊢
          simp [hck, ih]
        · simp only [lookupOn] at ih ⊢
          by_cases hc : k0 = k <;> simp [hc, hk, ih]

theorem keys_nodup_of_sorted {l : List (Bytes × Bytes)} (h : KeysSorted l) : (l.map Prod.fst).Nodup :=
  List.Pairwise.map _ (fun a b hab hba => by rw [hba, keyLt_irrefl] at hab; cases hab) h

/-- LMDB's main database: its bindings, strictly increasing in key. -/
structure Lmdb where
  bindings : List (Bytes × Bytes)
  sorted : KeysSorted bindings

namespace Lmdb

def empty : Lmdb := ⟨[], List.Pairwise.nil⟩

/-- lmdb's default maximum key size, in bytes. -/
def maxKeySize : Nat := 511

/-- The database with `key` bound to `value`. -/
def withBinding (db : Lmdb) (key value : Bytes) : Lmdb :=
  ⟨insertBinding key value db.bindings, insertBinding_sorted db.sorted⟩

/-- `tx.put(key, value)`: lmdb raises `BadValsizeError` for an empty key or one longer than
`maxKeySize`. -/
def put (db : Lmdb) (key value : Bytes) : Except PyExc Lmdb :=
  if key.length = 0 ∨ maxKeySize < key.length then .error .badValsizeError
  else .ok (db.withBinding key value)

/-- `tx.get(key)`: the value, or `None`. -/
def get (db : Lmdb) (key : Bytes) : Option Bytes := (lookupOn Prod.fst db.bindings key).map Prod.snd

/-- `store_in_lmdb.add_frontier`. -/
def addFrontier (db : Lmdb) (frontier : FrontierEntry) : Except PyExc Lmdb :=
  db.put frontier.account frontier.frontierHash

/-- `store_in_lmdb.get_frontier`: the account and `tx.get(account)`. -/
def getFrontier (db : Lmdb) (account : Bytes) : Bytes × Option Bytes := (account, db.get account)

/-- `store_in_lmdb.get_all`: a `frontier_entry` per binding, in cursor order. -/
def getAll (db : Lmdb) : List FrontierEntry := db.bindings.map fun b => ⟨b.1, b.2⟩

def removeFrontier (_db : Lmdb) (_frontier : FrontierEntry) : Except PyExc Lmdb := .error .notImplementedError

def countFrontiers (_db : Lmdb) : Except PyExc Nat := .error .notImplementedError

theorem get_withBinding (db : Lmdb) (key value k : Bytes) :
    (db.withBinding key value).get k = if key = k then some value else db.get k := by
  simp only [get, withBinding, lookupOn_insertBinding]
  split <;> rfl

/-- Adds whose accounts are valid keys all succeed, each writing its binding. -/
theorem foldlM_addFrontier (db : Lmdb) (fs : List FrontierEntry)
    (h : ∀ f ∈ fs, 0 < f.account.length ∧ f.account.length ≤ maxKeySize) :
    fs.foldlM addFrontier db = .ok (fs.foldl (fun db f => db.withBinding f.account f.frontierHash) db) := by
  induction fs generalizing db with
  | nil => rfl
  | cons f fs ih =>
    have hf := h f (List.mem_cons_self _ _)
    have hput : db.addFrontier f = .ok (db.withBinding f.account f.frontierHash) := by
      simp only [addFrontier, put]
      rw [if_neg (by omega)]
    rw [List.foldlM_cons, hput]
    exact ih _ fun g hg => h g (List.mem_cons_of_mem _ hg)

/-- After adds, each key holds the value of its last add, or what it held before. -/
theorem get_foldl_withBinding (db : Lmdb) (fs : List FrontierEntry) (a : Bytes) :
    (fs.foldl (fun db f => db.withBinding f.account f.frontierHash) db).get a =
      fs.foldl (fun m f => if f.account = a then some f.frontierHash else m) (db.get a) := by
  induction fs generalizing db with
  | nil => rfl
  | cons f fs ih => rw [List.foldl_cons, ih, List.foldl_cons, get_withBinding]

theorem mem_getAll_iff (db : Lmdb) (f : FrontierEntry) : f ∈ db.getAll ↔ db.get f.account = some f.frontierHash := by
  have hnodup := keys_nodup_of_sorted db.sorted
  constructor
  · intro hf
    obtain ⟨b, hb, rfl⟩ := List.mem_map.mp hf
    rw [get, (mem_iff_lookupOn Prod.fst hnodup b).mp hb]
    rfl
  · intro hg
    obtain ⟨b, hb, hbv⟩ := Option.map_eq_some'.mp hg
    have hbk : b.1 = f.account := by simpa using List.find?_some hb
    exact List.mem_map.mpr ⟨b, List.mem_of_find?_eq_some hb, by rw [hbk, hbv]⟩

theorem getAll_accounts (db : Lmdb) : db.getAll.map FrontierEntry.account = db.bindings.map Prod.fst := by
  simp [getAll]

end Lmdb

/-- Adds of valid keys all succeed, and the database then answers as the finite map of last
adds over what the file held, `get_all` in key order. -/
theorem lmdb_refines_map (db : Lmdb) (fs : List FrontierEntry)
    (hkeys : ∀ f ∈ fs, 0 < f.account.length ∧ f.account.length ≤ Lmdb.maxKeySize) :
    ∃ db', fs.foldlM Lmdb.addFrontier db = .ok db' ∧
      (∀ a, (db'.getFrontier a).2 =
        fs.foldl (fun m f => if f.account = a then some f.frontierHash else m) (db.get a)) ∧
      (db'.getAll.map FrontierEntry.account).Pairwise (fun a b => keyLt a b = true) ∧
      ∀ f, f ∈ db'.getAll ↔ db'.get f.account = some f.frontierHash := by
  refine ⟨_, Lmdb.foldlM_addFrontier db fs hkeys, Lmdb.get_foldl_withBinding db fs, ?_, Lmdb.mem_getAll_iff _⟩
  rw [Lmdb.getAll_accounts]
  exact List.Pairwise.map _ (fun _ _ h => h) (Lmdb.sorted _)

/-- One 32-byte account added to an empty database. -/
theorem lmdb_refines_map_one_add :
    (∀ f ∈ [(⟨List.replicate 32 1, List.replicate 32 0xAA⟩ : FrontierEntry)],
      0 < f.account.length ∧ f.account.length ≤ Lmdb.maxKeySize) ∧
    ∃ db', [(⟨List.replicate 32 1, List.replicate 32 0xAA⟩ : FrontierEntry)].foldlM Lmdb.addFrontier Lmdb.empty =
        .ok db' ∧
      (∀ a, (db'.getFrontier a).2 = [(⟨List.replicate 32 1, List.replicate 32 0xAA⟩ : FrontierEntry)].foldl
        (fun m f => if f.account = a then some f.frontierHash else m) (Lmdb.empty.get a)) ∧
      (db'.getAll.map FrontierEntry.account).Pairwise (fun a b => keyLt a b = true) ∧
      ∀ f, f ∈ db'.getAll ↔ db'.get f.account = some f.frontierHash :=
  ⟨by decide, lmdb_refines_map Lmdb.empty _ (by decide)⟩

/-- From empty, the LMDB and in-memory backends hold the same entries after the same adds of
valid keys, up to the order of `get_all`. -/
theorem lmdb_agrees_with_ram (fs : List FrontierEntry)
    (hkeys : ∀ f ∈ fs, 0 < f.account.length ∧ f.account.length ≤ Lmdb.maxKeySize) :
    ∃ db', fs.foldlM Lmdb.addFrontier Lmdb.empty = .ok db' ∧
      db'.getAll.Perm (RamStore.empty.runCalls (fs.map .add)).contents ∧
      ∀ a, (db'.getFrontier a).2 = Contents.lookupHash (RamStore.empty.runCalls (fs.map .add)).contents a := by
  obtain ⟨hinv, hcont⟩ := RamStore.runCalls_adds RamStore.inv_empty fs
  set db' := fs.foldl (fun db f => db.withBinding f.account f.frontierHash) Lmdb.empty
  have hget : ∀ a, db'.get a = Contents.lookupHash (RamStore.empty.runCalls (fs.map .add)).contents a := fun a => by
    have hram := lookupHash_foldl [] (fs.map .add) a
    simp only [List.foldl_map, RamStore.callContents, latestStep] at hram
    rw [Lmdb.get_foldl_withBinding, hcont]
    exact hram.symm
  refine ⟨db', Lmdb.foldlM_addFrontier _ fs hkeys, ?_, hget⟩
  have hnodup : db'.getAll.Nodup :=
    List.Nodup.of_map FrontierEntry.account (by rw [Lmdb.getAll_accounts]; exact keys_nodup_of_sorted db'.sorted)
  refine (List.perm_ext_iff_of_nodup hnodup (hinv.unique.of_map _)).mpr fun f => ?_
  rw [Lmdb.mem_getAll_iff, hget, Contents.mem_iff_lookupHash hinv.unique]

/-- One 32-byte account added to both backends. -/
theorem lmdb_agrees_with_ram_one_add :
    (∀ f ∈ [(⟨List.replicate 32 1, List.replicate 32 0xAA⟩ : FrontierEntry)],
      0 < f.account.length ∧ f.account.length ≤ Lmdb.maxKeySize) ∧
    ∃ db', [(⟨List.replicate 32 1, List.replicate 32 0xAA⟩ : FrontierEntry)].foldlM Lmdb.addFrontier Lmdb.empty =
        .ok db' ∧
      db'.getAll.Perm (RamStore.empty.runCalls
        ([(⟨List.replicate 32 1, List.replicate 32 0xAA⟩ : FrontierEntry)].map .add)).contents ∧
      ∀ a, (db'.getFrontier a).2 = Contents.lookupHash (RamStore.empty.runCalls
        ([(⟨List.replicate 32 1, List.replicate 32 0xAA⟩ : FrontierEntry)].map .add)).contents a :=
  ⟨by decide, lmdb_agrees_with_ram _ (by decide)⟩

end FrontierService
