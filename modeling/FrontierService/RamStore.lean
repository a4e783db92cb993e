import FrontierService.Codec
import Mathlib.Data.Finset.Card

/-!
# The in-memory backend

`store_in_ram_interface` keeps a list of references to `frontier_entry` objects, which live
on an explicit heap: `add_frontier` of a stored account assigns `frontier_hash` on the stored
object, and `get_all` is `copy.copy`, a new list of the same references. The `peer` argument
is never read and is left out. Three layers: the heap, the stored values, and the map from
account to hash the backend stands for, each connected to the next over every call sequence.
-/

namespace FrontierService

/-! ### Stored values -/

namespace Contents

def accounts (l : List FrontierEntry) : List Bytes := l.map FrontierEntry.account

/-- The hash of the first stored entry for `account`. -/
def lookupHash (l : List FrontierEntry) (account : Bytes) : Option Bytes :=
  (lookupOn FrontierEntry.account l account).map FrontierEntry.frontierHash

/-- `add_frontier` on the stored values: overwrite the stored hash, or append. -/
def upsert (l : List FrontierEntry) (e : FrontierEntry) : List FrontierEntry :=
  if l.any fun x => x.account = e.account then
    l.map fun x => if x.account = e.account then { x with frontierHash := e.frontierHash } else x
  else l ++ [e]

/-- `remove_frontier` on the stored values. -/
def delete (l : List FrontierEntry) (account : Bytes) : List FrontierEntry :=
  l.filter fun x => x.account ≠ account

/-- Overwriting the hash of the entry for `e`'s account leaves `e` itself. -/
theorem upsert_eq_upsertOn (l : List FrontierEntry) (e : FrontierEntry) :
    upsert l e = upsertOn FrontierEntry.account l e := by
  unfold upsert upsertOn
  split
  · refine List.map_congr_left fun x _ => ?_
    by_cases hx : x.account = e.account
    · cases x; cases e; simp_all
    · simp [hx]
  · rfl

theorem lookupHash_upsert (l : List FrontierEntry) (e : FrontierEntry) (a : Bytes) :
    lookupHash (upsert l e) a = if e.account = a then some e.frontierHash else lookupHash l a := by
  rw [lookupHash, upsert_eq_upsertOn, lookupOn_upsertOn]
  split <;> rfl

theorem lookupHash_delete (l : List FrontierEntry) (b a : Bytes) :
    lookupHash (delete l b) a = if b = a then none else lookupHash l a := by
  unfold delete lookupHash lookupOn
  rw [List.find?_filter]
  by_cases hba : b = a
  · subst hba
    have : (l.find? fun x => decide (decide (x.account ≠ b) = true ∧ decide (x.account = b) = true))
        = none := List.find?_eq_none.mpr fun x _ => by simp
    simp [this]
  · have : (fun x : FrontierEntry => decide (decide (x.account ≠ b) = true ∧
        decide (x.account = a) = true)) = fun x => decide (x.account = a) := by
      funext x; by_cases hx : x.account = a <;> simp [hx, Ne.symm hba]
    simp only [this, hba, if_false]

theorem accounts_upsert_nodup {l : List FrontierEntry} (h : (accounts l).Nodup) (e : FrontierEntry) :
    (accounts (upsert l e)).Nodup := by
  rw [accounts, upsert_eq_upsertOn]; exact upsertOn_keys_nodup _ h e

theorem accounts_delete_nodup {l : List FrontierEntry} (h : (accounts l).Nodup) (b : Bytes) :
    (accounts (delete l b)).Nodup :=
  h.sublist ((List.filter_sublist l).map _)

theorem mem_iff_lookupHash {l : List FrontierEntry} (h : (accounts l).Nodup) (a hsh : Bytes) :
    (⟨a, hsh⟩ : FrontierEntry) ∈ l ↔ lookupHash l a = some hsh := by
  rw [mem_iff_lookupOn _ h, lookupHash]
  constructor
  · intro hl; rw [hl]; rfl
  · intro hl
    obtain ⟨y, hf, rfl⟩ := Option.map_eq_some'.mp hl
    have hya : y.account = a := by simpa [lookupOn] using List.find?_some hf
    rw [hf, ← hya]

theorem mem_accounts_iff (l : List FrontierEntry) (a : Bytes) :
    a ∈ accounts l ↔ (lookupHash l a).isSome := by
  rw [accounts, mem_keys_iff, lookupHash, Option.isSome_map']

end Contents

/-! ### The heap model -/

/-- `store_in_ram_interface` together with the Python heap its references point into. -/
structure RamStore where
  heap : Nat → FrontierEntry
  next : Nat
  frontiers : List Nat

namespace RamStore

def empty : RamStore := ⟨fun _ => ⟨[], []⟩, 0, []⟩

/-- A caller's `frontier_entry(account, frontier_hash)`: a fresh object. -/
def alloc (s : RamStore) (e : FrontierEntry) : Nat × RamStore :=
  (s.next, { s with heap := Function.update s.heap s.next e, next := s.next + 1 })

def getFrontier (s : RamStore) (account : Bytes) : Option Nat :=
  s.frontiers.find? fun f => (s.heap f).account = account

def addFrontier (s : RamStore) (frontier : Nat) : RamStore :=
  match s.getFrontier (s.heap frontier).account with
  | some existingFront =>
    { s with heap := (Function.update s.heap existingFront
        ⟨(s.heap existingFront).account, (s.heap frontier).frontierHash⟩) }
  | none => { s with frontiers := s.frontiers ++ [frontier] }

/-- `list.remove` compares by identity first, and no earlier element can equal the
first entry for its account, so it removes that very reference. -/
def removeFrontier (s : RamStore) (frontier : Nat) : RamStore :=
  match s.getFrontier (s.heap frontier).account with
  | some existingFront => { s with frontiers := s.frontiers.erase existingFront }
  | none => s

def countFrontiers (s : RamStore) : Nat := s.frontiers.length

/-- `copy.copy(self.__frontiers)`: a new list of the same references. -/
def getAll (s : RamStore) : List Nat := s.frontiers

/-- The stored values, read through the heap. -/
def contents (s : RamStore) : List FrontierEntry := s.frontiers.map s.heap

/-- Every stored reference is allocated and no account is stored twice. -/
structure Inv (s : RamStore) : Prop where
  allocated : ∀ r ∈ s.frontiers, r < s.next
  unique : (Contents.accounts s.contents).Nodup

theorem inv_empty : Inv empty := ⟨by simp [empty], by simp [empty, contents, Contents.accounts]⟩

theorem frontiers_nodup {s : RamStore} (h : Inv s) : s.frontiers.Nodup := by
  have := h.unique
  simp only [Contents.accounts, contents, List.map_map] at this
  exact this.of_map _

/-- Two stored references with one account are the same reference. -/
theorem eq_of_account_eq {s : RamStore} (h : Inv s) {r r' : Nat} (hr : r ∈ s.frontiers)
    (hr' : r' ∈ s.frontiers) (ha : (s.heap r).account = (s.heap r').account) : r = r' := by
  have := h.unique
  simp only [Contents.accounts, contents, List.map_map] at this
  exact List.inj_on_of_nodup_map this hr hr' ha

/-- The reference `get_frontier` finds is the only stored one with that account. -/
theorem account_eq_iff_of_getFrontier {s : RamStore} (h : Inv s) {a : Bytes} {ex r : Nat}
    (hex : s.getFrontier a = some ex) (hr : r ∈ s.frontiers) : (s.heap r).account = a ↔ r = ex := by
  have hacc : (s.heap ex).account = a := by simpa using List.find?_some hex
  exact ⟨fun hc => eq_of_account_eq h hr (List.mem_of_find?_eq_some hex) (hc.trans hacc.symm),
    fun he => he ▸ hacc⟩

theorem getFrontier_map_heap (s : RamStore) (a : Bytes) :
    (s.getFrontier a).map s.heap = s.contents.find? fun x => x.account = a := by
  simp only [getFrontier, contents, List.find?_map]
  rfl

theorem lookupHash_contents (s : RamStore) (a : Bytes) :
    (s.getFrontier a).map (fun r => (s.heap r).frontierHash) = Contents.lookupHash s.contents a := by
  rw [Contents.lookupHash, lookupOn, ← getFrontier_map_heap, Option.map_map]
  rfl

theorem alloc_contents {s : RamStore} (h : Inv s) (e : FrontierEntry) :
    (s.alloc e).2.contents = s.contents := by
  simp only [alloc, contents]
  refine List.map_congr_left fun r hr => Function.update_noteq ?_ _ _
  exact Nat.ne_of_lt (h.allocated r hr)

@[simp] theorem alloc_heap_self (s : RamStore) (e : FrontierEntry) :
    (s.alloc e).2.heap (s.alloc e).1 = e := by simp [alloc]

theorem alloc_inv {s : RamStore} (h : Inv s) (e : FrontierEntry) : Inv (s.alloc e).2 :=
  ⟨fun r hr => Nat.lt_succ_of_lt (h.allocated r hr), by rw [alloc_contents h]; exact h.unique⟩

theorem addFrontier_contents {s : RamStore} (h : Inv s) (r : Nat) :
    (s.addFrontier r).contents = Contents.upsert s.contents (s.heap r) := by
  unfold addFrontier Contents.upsert
  split
  · rename_i ex hex
    have hmem := List.mem_of_find?_eq_some hex
    have hacc : (s.heap ex).account = (s.heap r).account := by simpa using List.find?_some hex
    have hany : (s.contents.any fun x => decide (x.account = (s.heap r).account)) = true :=
      List.any_eq_true.mpr ⟨s.heap ex, List.mem_map_of_mem _ hmem, by simp [hacc]⟩
    rw [if_pos hany]
    simp only [contents, List.map_map]
    refine List.map_congr_left fun r' hr' => ?_
    by_cases he : r' = ex
    · subst he; simp [hacc]
    · simp [Function.update_noteq he, (account_eq_iff_of_getFrontier h hex hr').not.mpr he]
  · rename_i hnone
    have hany : (s.contents.any fun x => decide (x.account = (s.heap r).account)) = false := by
      rw [← Option.map_eq_none', getFrontier_map_heap] at hnone
      simpa [List.any_eq_false] using List.find?_eq_none.mp hnone
    simp only [hany, Bool.false_eq_true, if_false]
    simp [contents]

theorem removeFrontier_contents {s : RamStore} (h : Inv s) (r : Nat) :
    (s.removeFrontier r).contents = Contents.delete s.contents (s.heap r).account := by
  unfold removeFrontier Contents.delete
  split
  · rename_i ex hex
    simp only [contents, (frontiers_nodup h).erase_eq_filter, List.filter_map]
    congr 1
    refine List.filter_congr fun r' hr' => ?_
    by_cases he : r' = ex
    · subst he; simp [(account_eq_iff_of_getFrontier h hex hr').mpr rfl]
    · simp [he, (account_eq_iff_of_getFrontier h hex hr').not.mpr he]
  · rename_i hnone
    rw [← Option.map_eq_none', getFrontier_map_heap] at hnone
    exact (List.filter_eq_self.mpr fun x hx => by
      simpa using List.find?_eq_none.mp hnone x hx).symm

theorem addFrontier_inv {s : RamStore} (h : Inv s) {r : Nat} (hr : r < s.next) :
    Inv (s.addFrontier r) := by
  refine ⟨?_, by rw [addFrontier_contents h]; exact Contents.accounts_upsert_nodup h.unique _⟩
  unfold addFrontier
  split
  · exact h.allocated
  · intro r' hr'
    rcases List.mem_append.mp hr' with hr' | hr'
    · exact h.allocated r' hr'
    · simp only [List.mem_singleton] at hr'; exact hr' ▸ hr

theorem removeFrontier_inv {s : RamStore} (h : Inv s) (r : Nat) : Inv (s.removeFrontier r) := by
  refine ⟨?_, by rw [removeFrontier_contents h]; exact Contents.accounts_delete_nodup h.unique _⟩
  unfold removeFrontier
  split
  · exact fun r' hr' => h.allocated r' (List.mem_of_mem_erase hr')
  · exact h.allocated

end RamStore

/-! ### Sequences of calls -/

/-- A call of the backend's writes, with the entry the caller built for it. -/
inductive RamCall
  | add (e : FrontierEntry)
  | remove (e : FrontierEntry)
  deriving DecidableEq, Repr

def RamCall.entry : RamCall → FrontierEntry
  | .add e => e
  | .remove e => e

namespace RamStore

def call (s : RamStore) : RamCall → RamStore
  | .add e => (s.alloc e).2.addFrontier (s.alloc e).1
  | .remove e => (s.alloc e).2.removeFrontier (s.alloc e).1

def runCalls (s : RamStore) (cs : List RamCall) : RamStore := cs.foldl call s

/-- What a call does to the stored values. -/
def callContents (l : List FrontierEntry) : RamCall → List FrontierEntry
  | .add e => Contents.upsert l e
  | .remove e => Contents.delete l e.account

theorem call_inv_contents {s : RamStore} (h : Inv s) (c : RamCall) :
    Inv (s.call c) ∧ (s.call c).contents = callContents s.contents c := by
  cases c with
  | add e =>
    refine ⟨addFrontier_inv (alloc_inv h e) (Nat.lt_succ_self _), ?_⟩
    rw [call, addFrontier_contents (alloc_inv h e), alloc_contents h, alloc_heap_self]; rfl
  | remove e =>
    refine ⟨removeFrontier_inv (alloc_inv h e) _, ?_⟩
    rw [call, removeFrontier_contents (alloc_inv h e), alloc_contents h, alloc_heap_self]; rfl

theorem runCalls_inv_contents {s : RamStore} (h : Inv s) (cs : List RamCall) :
    Inv (s.runCalls cs) ∧ (s.runCalls cs).contents = cs.foldl callContents s.contents := by
  induction cs generalizing s with
  | nil => exact ⟨h, rfl⟩
  | cons c cs ih =>
    obtain ⟨hc, hcc⟩ := call_inv_contents h c
    simpa only [runCalls, List.foldl_cons, hcc] using ih hc

theorem runCalls_append (s : RamStore) (cs ds : List RamCall) :
    s.runCalls (cs ++ ds) = (s.runCalls cs).runCalls ds :=
  List.foldl_append _ _ _ _

/-- Adds alone: the stored values are the left fold of insert-or-update. -/
theorem runCalls_adds {s : RamStore} (h : Inv s) (fs : List FrontierEntry) :
    Inv (s.runCalls (fs.map .add)) ∧ (s.runCalls (fs.map .add)).contents = fs.foldl Contents.upsert s.contents := by
  have := runCalls_inv_contents h (fs.map .add)
  rwa [List.foldl_map] at this

/-- Adds never drop a stored reference: the list of references only grows at its end. -/
theorem runCalls_adds_frontiers (s : RamStore) (fs : List FrontierEntry) :
    s.frontiers <+: (s.runCalls (fs.map .add)).frontiers := by
  induction fs generalizing s with
  | nil => exact List.prefix_refl _
  | cons f fs ih =>
    refine List.IsPrefix.trans ?_ (ih (s.call (.add f)))
    simp only [call, addFrontier]
    split
    · exact List.prefix_refl _
    · exact List.prefix_append _ _

end RamStore

/-! ### The finite map the backend stands for -/

/-- The hash of the last add for `account` after its last remove. -/
def latestStep (account : Bytes) (m : Option Bytes) : RamCall → Option Bytes
  | .add e => if e.account = account then some e.frontierHash else m
  | .remove e => if e.account = account then none else m

def latest (cs : List RamCall) (account : Bytes) : Option Bytes := cs.foldl (latestStep account) none

/-- The accounts the calls leave mapped. -/
def mapped (cs : List RamCall) : Finset Bytes :=
  (cs.map fun c => c.entry.account).toFinset.filter fun a => (latest cs a).isSome

theorem lookupHash_callContents (l : List FrontierEntry) (c : RamCall) (a : Bytes) :
    Contents.lookupHash (RamStore.callContents l c) a = latestStep a (Contents.lookupHash l a) c := by
  cases c with
  | add e => exact Contents.lookupHash_upsert l e a
  | remove e => exact Contents.lookupHash_delete l e.account a

theorem lookupHash_foldl (l : List FrontierEntry) (cs : List RamCall) (a : Bytes) :
    Contents.lookupHash (cs.foldl RamStore.callContents l) a =
      cs.foldl (latestStep a) (Contents.lookupHash l a) := by
  induction cs generalizing l with
  | nil => rfl
  | cons c cs ih => simp only [List.foldl_cons, ih, lookupHash_callContents]

theorem latest_isSome_mem (cs : List RamCall) (a : Bytes) (m : Option Bytes)
    (h : (cs.foldl (latestStep a) m).isSome) : m.isSome ∨ a ∈ cs.map fun c => c.entry.account := by
  induction cs generalizing m with
  | nil => exact .inl h
  | cons c cs ih =>
    rcases ih _ h with hm | hm
    · cases c with
      | add e => by_cases hea : e.account = a <;> simp_all [latestStep, RamCall.entry]
      | remove e => by_cases hea : e.account = a <;> simp_all [latestStep, RamCall.entry]
    · exact .inr (List.mem_cons_of_mem _ hm)

/-- The in-memory backend refines a finite map from account to the hash of its last add
after its last remove. -/
theorem ram_refines_map (cs : List RamCall) :
    let s := RamStore.empty.runCalls cs
    (∀ a, (s.getFrontier a).map (fun r => (s.heap r).frontierHash) = latest cs a) ∧
    s.countFrontiers = (mapped cs).card ∧
    ((s.getAll.map s.heap).map FrontierEntry.account).Nodup ∧
    (∀ a hsh, (⟨a, hsh⟩ : FrontierEntry) ∈ s.getAll.map s.heap ↔ latest cs a = some hsh) := by
  obtain ⟨hinv, hcont⟩ := RamStore.runCalls_inv_contents RamStore.inv_empty cs
  have hlookup : ∀ a, Contents.lookupHash (RamStore.empty.runCalls cs).contents a = latest cs a :=
    fun a => by rw [hcont, lookupHash_foldl]; rfl
  refine ⟨fun a => by rw [RamStore.lookupHash_contents, hlookup], ?_, hinv.unique,
    fun a hsh => by rw [← hlookup]; exact Contents.mem_iff_lookupHash hinv.unique a hsh⟩
  have hset : (Contents.accounts (RamStore.empty.runCalls cs).contents).toFinset = mapped cs := by
    ext a
    rw [List.mem_toFinset, Contents.mem_accounts_iff, hlookup, mapped, Finset.mem_filter,
      List.mem_toFinset]
    exact ⟨fun h => ⟨(latest_isSome_mem cs a none h).resolve_left (by simp), h⟩, And.right⟩
  rw [← hset, List.toFinset_card_of_nodup hinv.unique]
  simp [RamStore.countFrontiers, Contents.accounts, RamStore.contents]

/-! ### `get_all` is not a snapshot -/

namespace RamStore

theorem call_next (s : RamStore) (c : RamCall) : (s.call c).next = s.next + 1 := by
  cases c <;> simp only [call, addFrontier, removeFrontier] <;> split <;> rfl

/-- No write changes the account of an allocated object. -/
theorem call_account (s : RamStore) (c : RamCall) {r : Nat} (hr : r < s.next) :
    ((s.call c).heap r).account = (s.heap r).account := by
  have halloc : ∀ e, ((s.alloc e).2.heap r) = s.heap r :=
    fun e => Function.update_noteq (Nat.ne_of_lt hr) _ _
  cases c with
  | add e =>
    simp only [call, addFrontier]
    split
    · rename_i ex _
      by_cases hre : r = ex
      · subst hre; simp [halloc]
      · simp [Function.update_noteq hre, halloc]
    · simp [halloc]
  | remove e =>
    simp only [call, removeFrontier]
    split <;> simp [halloc]

theorem runCalls_account (s : RamStore) (cs : List RamCall) {r : Nat} (hr : r < s.next) :
    ((s.runCalls cs).heap r).account = (s.heap r).account := by
  induction cs generalizing s with
  | nil => rfl
  | cons c cs ih =>
    have := ih (s.call c) (by rw [call_next]; omega)
    simp only [runCalls, List.foldl_cons] at this ⊢
    rw [this, call_account s c hr]

/-- What the copy returned by `get_all` does keep: the accounts read through it. -/
theorem getAll_accounts_stable {s : RamStore} (h : Inv s) (cs : List RamCall) :
    (s.getAll.map (s.runCalls cs).heap).map FrontierEntry.account =
      (s.getAll.map s.heap).map FrontierEntry.account := by
  simp only [List.map_map]
  exact List.map_congr_left fun r hr => runCalls_account s cs (h.allocated r hr)

end RamStore

/-- `get_all` shares the stored objects: a later update changes the pairs read through the
returned list. -/
theorem get_all_aliases_later_update :
    (RamStore.getAll (RamStore.runCalls RamStore.empty [.add ⟨List.replicate 32 1, List.replicate 32 0xAA⟩])).map
        (RamStore.runCalls RamStore.empty [.add ⟨List.replicate 32 1, List.replicate 32 0xAA⟩]).heap =
      [⟨List.replicate 32 1, List.replicate 32 0xAA⟩] ∧
    (RamStore.getAll (RamStore.runCalls RamStore.empty [.add ⟨List.replicate 32 1, List.replicate 32 0xAA⟩])).map
        (RamStore.runCalls RamStore.empty [.add ⟨List.replicate 32 1, List.replicate 32 0xAA⟩,
          .add ⟨List.replicate 32 1, List.replicate 32 0xBB⟩]).heap =
      [⟨List.replicate 32 1, List.replicate 32 0xBB⟩] := by
  decide

end FrontierService
