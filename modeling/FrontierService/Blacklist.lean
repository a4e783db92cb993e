import FrontierService.Basic

/-!
# The expiring blacklist

`blacklist_manager` keeps `blacklist_entry` objects `(item, time)` in a list and compares
items with `==`. Expiry is lazy: `is_blacklisted` removes an expired entry when it looks it
up, and `get_entry` ignores expiry, so re-adding an expired item keeps its old time. Beside
the translation stands the eager blacklist the TTL is meant to give, with the call
sequences on which the two differ and the direction in which the lazy one errs.
-/

namespace FrontierService

structure BlacklistEntry (α : Type) where
  item : α
  time : Time
  deriving DecidableEq, Repr

def BlacklistEntry.hasExpired {α : Type} (e : BlacklistEntry α) (expiryTime : Int) (now : Time) :
    Bool :=
  now - e.time > expiryTime

/-- `blacklist_manager`; `objectType item` is `isinstance(item, self.object_type)`. -/
structure BlacklistManager (α : Type) where
  blacklist : List (BlacklistEntry α)
  objectType : α → Bool
  expiryTime : Option Int

namespace BlacklistManager

variable {α : Type} [BEq α]

def new (objectType : α → Bool) (expiryTime : Option Int) : BlacklistManager α :=
  ⟨[], objectType, expiryTime⟩

/-- `get_entry`'s loop: the position and value of the first entry whose item `==` `item`.
The position stands for the object, which `remove_entry` removes by identity. -/
def findEntry (item : α) : List (BlacklistEntry α) → Option (Nat × BlacklistEntry α)
  | [] => none
  | b :: bs => if item == b.item then some (0, b) else (findEntry item bs).map fun (i, e) => (i + 1, e)

def getEntry (bl : BlacklistManager α) (item : α) : Option (Nat × BlacklistEntry α) :=
  findEntry item bl.blacklist

def removeEntry (bl : BlacklistManager α) (i : Nat) : BlacklistManager α :=
  { bl with blacklist := bl.blacklist.eraseIdx i }

/-- `add_item` at clock reading `now`. -/
def addItem (bl : BlacklistManager α) (item : α) (now : Time) : Except PyExc (BlacklistManager α) :=
  if !bl.objectType item then .error .blacklistItemTypeError
  else match bl.getEntry item with
    | none => .ok { bl with blacklist := bl.blacklist ++ [⟨item, now⟩] }
    | some _ => .ok bl

/-- `is_blacklisted` at clock reading `now`: the answer and the manager after the lazy removal. -/
def isBlacklisted (bl : BlacklistManager α) (item : α) (now : Time) : Bool × BlacklistManager α :=
  match bl.getEntry item with
  | none => (false, bl)
  | some (i, entry) =>
    match bl.expiryTime with
    | some expiryTime => if entry.hasExpired expiryTime now then (false, bl.removeEntry i) else (true, bl)
    | none => (true, bl)

def removeItem (bl : BlacklistManager α) (item : α) : BlacklistManager α :=
  match bl.getEntry item with
  | some (i, _) => bl.removeEntry i
  | none => bl

/-- `set_expiry_time`; its `assert isinstance(expiry_time, int)` holds of every `Int`. -/
def setExpiryTime (bl : BlacklistManager α) (expiryTime : Int) : BlacklistManager α :=
  { bl with expiryTime := some expiryTime }

theorem addItem_error {bl : BlacklistManager α} {item : α} (h : bl.objectType item = false)
    (now : Time) : bl.addItem item now = .error .blacklistItemTypeError := by
  simp [addItem, h]

end BlacklistManager

/-! ### Call sequences, lazily and eagerly -/

inductive BlacklistCall (α : Type)
  | addItem (item : α) (now : Time)
  | isBlacklisted (item : α) (now : Time)
  | removeItem (item : α)
  deriving DecidableEq, Repr

section Runs

variable {α : Type} [BEq α]

/-- The answers of the `is_blacklisted` calls; a rejected `add_item` changes nothing. -/
def lazyAnswers (bl : BlacklistManager α) : List (BlacklistCall α) → List Bool
  | [] => []
  | .addItem x now :: cs =>
    match bl.addItem x now with
    | .ok bl' => lazyAnswers bl' cs
    | .error _ => lazyAnswers bl cs
  | .isBlacklisted x now :: cs =>
    let (answer, bl') := bl.isBlacklisted x now
    answer :: lazyAnswers bl' cs
  | .removeItem x :: cs => lazyAnswers (bl.removeItem x) cs

/-- An entry of the eager blacklist still counts at `now`. -/
def live (expiryTime : Option Int) (now : Time) (e : BlacklistEntry α) : Bool :=
  match expiryTime with
  | some t => !(now - e.time > t)
  | none => true

def eagerHas (expiryTime : Option Int) (entries : List (BlacklistEntry α)) (x : α) (now : Time) :
    Bool :=
  entries.any fun e => x == e.item && live expiryTime now e

/-- The eager blacklist's answers: `add_item` inserts `(x, now)` when `x` has no live entry,
`remove_item` deletes `x`'s entries. -/
def eagerAnswers (expiryTime : Option Int) (entries : List (BlacklistEntry α)) :
    List (BlacklistCall α) → List Bool
  | [] => []
  | .addItem x now :: cs =>
    eagerAnswers expiryTime
      (if eagerHas expiryTime entries x now then entries else entries ++ [⟨x, now⟩]) cs
  | .isBlacklisted x now :: cs =>
    eagerHas expiryTime entries x now :: eagerAnswers expiryTime entries cs
  | .removeItem x :: cs => eagerAnswers expiryTime (entries.filter fun e => !(x == e.item)) cs

end Runs

/-- With the TTL of 1800 s, an item added at 0 and again at 2000 is not blacklisted at 2000;
the eager blacklist answers `True`. -/
theorem readd_after_expiry_diverges :
    lazyAnswers (BlacklistManager.new (fun _ : Nat => true) (some 1800))
        [.addItem 7 0, .addItem 7 2000, .isBlacklisted 7 2000] = [false] ∧
      eagerAnswers (some 1800) []
        [BlacklistCall.addItem 7 0, .addItem 7 2000, .isBlacklisted 7 2000] = [true] := by
  decide

/-! ### No two entries for one item -/

/-- A call on the manager, `set_expiry_time` included. -/
inductive BlacklistOp (α : Type)
  | call (c : BlacklistCall α)
  | setExpiryTime (expiryTime : Int)

/-- The call is an `add_item` of an item `==` `x`. -/
def BlacklistOp.addsItem {α : Type} [BEq α] (x : α) : BlacklistOp α → Bool
  | .call (.addItem y _) => y == x
  | _ => false

namespace BlacklistManager

variable {α : Type} [BEq α]

/-- The manager after one call; a rejected `add_item` leaves it as it was. -/
def apply (bl : BlacklistManager α) : BlacklistOp α → BlacklistManager α
  | .call (.addItem x now) =>
    match bl.addItem x now with
    | .ok bl' => bl'
    | .error _ => bl
  | .call (.isBlacklisted x now) => (bl.isBlacklisted x now).2
  | .call (.removeItem x) => bl.removeItem x
  | .setExpiryTime expiryTime => bl.setExpiryTime expiryTime

def run (bl : BlacklistManager α) (ops : List (BlacklistOp α)) : BlacklistManager α :=
  ops.foldl apply bl

/-- No two entries have `==` items. -/
def ItemsDistinct (entries : List (BlacklistEntry α)) : Prop :=
  entries.Pairwise fun a b => (a.item == b.item) = false

/-- The item has no entry. -/
def Absent (x : α) (entries : List (BlacklistEntry α)) : Prop :=
  ∀ e ∈ entries, (x == e.item) = false

theorem itemsDistinct_new (objectType : α → Bool) (expiryTime : Option Int) :
    ItemsDistinct (new objectType expiryTime).blacklist :=
  List.Pairwise.nil

theorem findEntry_eq_none_iff {x : α} {entries : List (BlacklistEntry α)} :
    findEntry x entries = none ↔ Absent x entries := by
  induction entries with
  | nil => simp [findEntry, Absent]
  | cons b bs ih =>
    simp only [Absent, List.forall_mem_cons] at ih ⊢
    by_cases hb : (x == b.item) = true
    · simp [findEntry, hb]
    · simp [findEntry, hb, ih]

/-- `remove_entry` of the entry `get_entry(x)` found leaves `x` with no entry. -/
theorem absent_eraseIdx_findEntry [PartialEquivBEq α] {x : α} {entries : List (BlacklistEntry α)}
    (hd : ItemsDistinct entries) {i : Nat} {e : BlacklistEntry α}
    (h : findEntry x entries = some (i, e)) : Absent x (entries.eraseIdx i) := by
  induction entries generalizing i with
  | nil => cases h
  | cons b bs ih =>
    rw [ItemsDistinct, List.pairwise_cons] at hd
    simp only [findEntry] at h
    split at h
    · rename_i hb
      cases h
      exact fun e' he' => BEq.neq_of_beq_of_neq hb (hd.1 e' he')
    · rename_i hb
      obtain ⟨⟨j, e'⟩, hj, hij⟩ := Option.map_eq_some'.mp h
      cases hij
      rintro e' (_ | ⟨_, he'⟩)
      · simpa using hb
      · exact ih hd.2 hj e' he'

theorem absent_of_sublist {x : α} {l l' : List (BlacklistEntry α)} (hs : List.Sublist l' l)
    (h : Absent x l) : Absent x l' :=
  fun e he => h e (hs.subset he)

/-- What one call does to the entries: keeps them, drops one, or appends an item that had none. -/
theorem apply_blacklist (bl : BlacklistManager α) (op : BlacklistOp α) :
    List.Sublist (bl.apply op).blacklist bl.blacklist ∨
      ∃ x now, op = .call (.addItem x now) ∧ Absent x bl.blacklist ∧
        (bl.apply op).blacklist = bl.blacklist ++ [⟨x, now⟩] := by
  rcases op with (⟨x, now⟩ | ⟨x, now⟩ | x) | t
  · by_cases ht : bl.objectType x = true
    · cases hf : findEntry x bl.blacklist with
      | none =>
        exact .inr ⟨x, now, rfl, findEntry_eq_none_iff.mp hf, by simp [apply, addItem, getEntry, ht, hf]⟩
      | some _ => left; simp [apply, addItem, getEntry, ht, hf]
    · left; simp [apply, addItem, ht]
  · left
    simp only [apply, isBlacklisted]
    split
    · rfl
    · split
      · split
        · exact List.eraseIdx_sublist _ _
        · rfl
      · rfl
  · left
    simp only [apply, removeItem]
    split
    · exact List.eraseIdx_sublist _ _
    · rfl
  · left; rfl

theorem itemsDistinct_apply [PartialEquivBEq α] {bl : BlacklistManager α}
    (h : ItemsDistinct bl.blacklist) (op : BlacklistOp α) : ItemsDistinct (bl.apply op).blacklist := by
  rcases apply_blacklist bl op with hs | ⟨x, now, -, hx, heq⟩
  · exact h.sublist hs
  · rw [heq, ItemsDistinct, List.pairwise_append]
    refine ⟨h, List.pairwise_singleton _ _, fun a ha b hb => ?_⟩
    rw [List.mem_singleton.mp hb]
    exact BEq.symm_false (hx a ha)

theorem absent_apply [PartialEquivBEq α] {x : α} {bl : BlacklistManager α} (h : Absent x bl.blacklist)
    {op : BlacklistOp α} (hop : op.addsItem x = false) : Absent x (bl.apply op).blacklist := by
  rcases apply_blacklist bl op with hs | ⟨y, now, rfl, -, heq⟩
  · exact absent_of_sublist hs h
  · rw [heq]
    intro e he
    rcases List.mem_append.mp he with he | he
    · exact h e he
    · rw [List.mem_singleton.mp he]
      exact BEq.symm_false hop

theorem run_append (bl : BlacklistManager α) (ops ops' : List (BlacklistOp α)) :
    bl.run (ops ++ ops') = (bl.run ops).run ops' :=
  List.foldl_append _ _ _ _

theorem itemsDistinct_run [PartialEquivBEq α] {bl : BlacklistManager α}
    (h : ItemsDistinct bl.blacklist) (ops : List (BlacklistOp α)) :
    ItemsDistinct (bl.run ops).blacklist := by
  induction ops generalizing bl with
  | nil => exact h
  | cons op ops ih => exact ih (itemsDistinct_apply h op)

theorem absent_run [PartialEquivBEq α] {x : α} {bl : BlacklistManager α} (h : Absent x bl.blacklist)
    {ops : List (BlacklistOp α)} (hops : ∀ op ∈ ops, op.addsItem x = false) :
    Absent x (bl.run ops).blacklist := by
  induction ops generalizing bl with
  | nil => exact h
  | cons op ops ih =>
    exact ih (absent_apply h (hops op (List.mem_cons_self _ _)))
      (fun op' hop' => hops op' (List.mem_cons_of_mem _ hop'))

theorem absent_removeItem [PartialEquivBEq α] {bl : BlacklistManager α}
    (h : ItemsDistinct bl.blacklist) (x : α) : Absent x (bl.removeItem x).blacklist := by
  unfold removeItem getEntry
  split
  · rename_i hf; exact absent_eraseIdx_findEntry h hf
  · rename_i hn; exact findEntry_eq_none_iff.mp hn

theorem isBlacklisted_of_absent {x : α} {bl : BlacklistManager α} (h : Absent x bl.blacklist)
    (now : Time) : (bl.isBlacklisted x now).1 = false := by
  simp [isBlacklisted, getEntry, findEntry_eq_none_iff.mpr h]

end BlacklistManager

/-- No two entries have `==` items, along any calls; after `remove_item(x)` the item is not
blacklisted until the next `add_item` of an item `==` `x`. -/
theorem blacklist_items_distinct {α : Type} [BEq α] [PartialEquivBEq α] (objectType : α → Bool)
    (expiryTime : Option Int) (ops : List (BlacklistOp α)) :
    ((BlacklistManager.new objectType expiryTime).run ops).blacklist.Pairwise
        (fun a b => (a.item == b.item) = false) ∧
      ∀ x (ops' : List (BlacklistOp α)) now, (((BlacklistManager.new objectType expiryTime).run
        (ops ++ .call (.removeItem x) :: ops'.takeWhile fun op => !op.addsItem x)).isBlacklisted
          x now).1 = false := by
  have hd := BlacklistManager.itemsDistinct_run (BlacklistManager.itemsDistinct_new objectType expiryTime) ops
  refine ⟨hd, fun x ops' now => ?_⟩
  rw [BlacklistManager.run_append]
  refine BlacklistManager.isBlacklisted_of_absent
    (BlacklistManager.absent_run (BlacklistManager.absent_removeItem hd x) fun op hop => ?_) now
  simpa using List.mem_takeWhile_imp hop

/-- Integers under `==`, with the service's TTL, after two adds of one item. -/
theorem blacklist_items_distinct_two_adds :
    ((BlacklistManager.new (fun _ : Nat => true) (some 1800)).run
        [.call (.addItem 7 0), .call (.addItem 7 5)]).blacklist.Pairwise
        (fun a b => (a.item == b.item) = false) ∧
      ∀ x (ops' : List (BlacklistOp Nat)) now, (((BlacklistManager.new (fun _ : Nat => true) (some 1800)).run
        ([.call (.addItem 7 0), .call (.addItem 7 5)] ++ .call (.removeItem x) ::
          ops'.takeWhile fun op => !op.addsItem x)).isBlacklisted x now).1 = false :=
  blacklist_items_distinct (fun _ : Nat => true) (some 1800) [.call (.addItem 7 0), .call (.addItem 7 5)]

/-! ### What an answer of `True` rests on -/

namespace BlacklistManager

variable {α : Type} [BEq α]

theorem findEntry_some {x : α} {entries : List (BlacklistEntry α)} {i : Nat} {e : BlacklistEntry α}
    (h : findEntry x entries = some (i, e)) : e ∈ entries ∧ (x == e.item) = true := by
  induction entries generalizing i with
  | nil => cases h
  | cons b bs ih =>
    simp only [findEntry] at h
    split at h
    · cases h; exact ⟨List.mem_cons_self _ _, by assumption⟩
    · obtain ⟨⟨j, e'⟩, hj, hij⟩ := Option.map_eq_some'.mp h
      cases hij
      exact (ih hj).imp_left (List.mem_cons_of_mem _)

/-- A call changes the entries only; the object type and the TTL stay. -/
theorem apply_call_eq (bl : BlacklistManager α) (c : BlacklistCall α) :
    ∃ l, bl.apply (.call c) = { bl with blacklist := l } := by
  cases c with
  | addItem x now =>
    simp only [apply]
    split
    · rename_i bl' heq
      unfold addItem at heq
      split at heq
      · cases heq
      · split at heq <;> cases heq <;> exact ⟨_, rfl⟩
    · exact ⟨_, rfl⟩
  | isBlacklisted x now =>
    simp only [apply, isBlacklisted]
    repeat' split
    all_goals exact ⟨_, rfl⟩
  | removeItem x => simp only [apply, removeItem]; split <;> exact ⟨_, rfl⟩

theorem apply_call_expiryTime (bl : BlacklistManager α) (c : BlacklistCall α) :
    (bl.apply (.call c)).expiryTime = bl.expiryTime := by
  obtain ⟨l, hl⟩ := apply_call_eq bl c
  rw [hl]

theorem apply_objectType (bl : BlacklistManager α) (op : BlacklistOp α) :
    (bl.apply op).objectType = bl.objectType := by
  rcases op with c | t
  · obtain ⟨l, hl⟩ := apply_call_eq bl c
    rw [hl]
  · rfl

theorem run_objectType (bl : BlacklistManager α) (ops : List (BlacklistOp α)) :
    (bl.run ops).objectType = bl.objectType := by
  induction ops generalizing bl with
  | nil => rfl
  | cons op ops ih => exact (ih _).trans (apply_objectType bl op)

/-- An entry after a call was there before, or the call is the accepted `add_item` that made it. -/
theorem mem_apply {bl : BlacklistManager α} {op : BlacklistOp α} {e : BlacklistEntry α}
    (he : e ∈ (bl.apply op).blacklist) :
    e ∈ bl.blacklist ∨ (op = .call (.addItem e.item e.time) ∧ bl.objectType e.item = true) := by
  rcases apply_blacklist bl op with hs | ⟨x, now, rfl, -, heq⟩
  · exact .inl (hs.subset he)
  · rw [heq] at he
    rcases List.mem_append.mp he with he | he
    · exact .inl he
    · rw [List.mem_singleton.mp he]
      refine .inr ⟨rfl, ?_⟩
      cases ht : bl.objectType x
      · have hsame : (bl.apply (.call (.addItem x now))).blacklist = bl.blacklist := by
          simp [apply, addItem_error ht]
        rw [hsame] at heq
        exact absurd (congrArg List.length heq) (by simp)
      · rfl

/-- Every entry was made by an accepted `add_item` of `ops`, at the entry's clock reading, and
no `remove_item` of an item `==` to it came after that call. -/
def Traced (ops : List (BlacklistOp α)) (bl : BlacklistManager α) : Prop :=
  ∀ e ∈ bl.blacklist, bl.objectType e.item = true ∧ ∃ pre post,
    ops = pre ++ .call (.addItem e.item e.time) :: post ∧
      ∀ z, BlacklistOp.call (.removeItem z) ∈ post → (z == e.item) = false

theorem traced_apply [PartialEquivBEq α] {ops : List (BlacklistOp α)} {bl : BlacklistManager α}
    (hd : ItemsDistinct bl.blacklist) (ht : Traced ops bl) (op : BlacklistOp α) :
    Traced (ops ++ [op]) (bl.apply op) := by
  intro e he
  rw [apply_objectType]
  rcases mem_apply he with hold | ⟨rfl, hty⟩
  · obtain ⟨hty, pre, post, rfl, hpost⟩ := ht e hold
    refine ⟨hty, pre, post ++ [op], by simp, fun z hz => ?_⟩
    rcases List.mem_append.mp hz with hz | hz
    · exact hpost z hz
    · rw [List.mem_singleton] at hz
      subst hz
      exact absent_removeItem hd z e he
  · exact ⟨hty, ops, [], rfl, fun z hz => absurd hz (List.not_mem_nil _)⟩

theorem traced_run [PartialEquivBEq α] {ops : List (BlacklistOp α)} {bl : BlacklistManager α}
    (hd : ItemsDistinct bl.blacklist) (ht : Traced ops bl) (ops' : List (BlacklistOp α)) :
    Traced (ops ++ ops') (bl.run ops') := by
  induction ops' generalizing ops bl with
  | nil => simpa [run] using ht
  | cons op ops' ih =>
    simpa [run, List.append_assoc] using ih (itemsDistinct_apply hd op) (traced_apply hd ht op)

/-- An answer of `True` found an entry for the item, not older than the TTL if one is set. -/
theorem isBlacklisted_true {bl : BlacklistManager α} {x : α} {now : Time}
    (h : (bl.isBlacklisted x now).1 = true) :
    ∃ e ∈ bl.blacklist, (x == e.item) = true ∧ ∀ ttl, bl.expiryTime = some ttl → now - e.time ≤ ttl := by
  unfold isBlacklisted getEntry at h
  split at h
  · cases h
  · rename_i i e hf
    obtain ⟨hmem, hx⟩ := findEntry_some hf
    refine ⟨e, hmem, hx, fun ttl httl => ?_⟩
    simp only [httl, BlacklistEntry.hasExpired] at h
    split at h
    · cases h
    · rename_i hne
      simpa using hne

end BlacklistManager

/-- An answer `True` rests on an accepted `add_item` of the item, with no `remove_item` of it
since, made within the TTL of now. -/
theorem blacklisted_only_after_recent_add {α : Type} [BEq α] [PartialEquivBEq α] (objectType : α → Bool)
    (expiryTime : Option Int) (ops : List (BlacklistOp α)) (x : α) (now : Time)
    (h : (((BlacklistManager.new objectType expiryTime).run ops).isBlacklisted x now).1 = true) :
    ∃ pre y t post, ops = pre ++ .call (.addItem y t) :: post ∧ (x == y) = true ∧ objectType y = true ∧
      (∀ z, BlacklistOp.call (.removeItem z) ∈ post → (z == x) = false) ∧
      ∀ ttl, ((BlacklistManager.new objectType expiryTime).run ops).expiryTime = some ttl → now - t ≤ ttl := by
  obtain ⟨e, he, hx, httl⟩ := BlacklistManager.isBlacklisted_true h
  have htr : BlacklistManager.Traced ([] ++ ops) ((BlacklistManager.new objectType expiryTime).run ops) :=
    BlacklistManager.traced_run (BlacklistManager.itemsDistinct_new objectType expiryTime)
      (fun _ h => absurd h (List.not_mem_nil _)) ops
  obtain ⟨hty, pre, post, hops, hpost⟩ := htr e he
  refine ⟨pre, e.item, e.time, post, hops, hx, ?_, fun z hz => ?_, httl⟩
  · rwa [BlacklistManager.run_objectType] at hty
  · exact Bool.eq_false_iff.mpr fun hzx => by simpa [BEq.trans hzx hx] using hpost z hz

/-- Integers under `==`, with the service's TTL: an item added at 0 and looked up at 100. -/
theorem blacklisted_only_after_recent_add_lookup :
    (((BlacklistManager.new (fun _ : Nat => true) (some 1800)).run [.call (.addItem 7 0)]).isBlacklisted
        7 100).1 = true ∧
      ∃ pre y t post, [BlacklistOp.call (.addItem 7 0)] = pre ++ .call (.addItem y t) :: post ∧
        (7 == y) = true ∧ (fun _ : Nat => true) y = true ∧
        (∀ z, BlacklistOp.call (.removeItem z) ∈ post → (z == 7) = false) ∧
        ∀ ttl, ((BlacklistManager.new (fun _ : Nat => true) (some 1800)).run
          [.call (.addItem 7 0)]).expiryTime = some ttl → 100 - t ≤ ttl :=
  ⟨by decide, blacklisted_only_after_recent_add _ _ _ _ _ (by decide)⟩

/-! ### Without a TTL the blacklist is a set -/

namespace BlacklistManager

variable {α : Type} [BEq α]

/-- Under distinct items, removing the entry `findEntry` found filters out every item `==` it. -/
theorem eraseIdx_findEntry [PartialEquivBEq α] {x : α} {entries : List (BlacklistEntry α)}
    (hd : ItemsDistinct entries) {i : Nat} {e : BlacklistEntry α} (h : findEntry x entries = some (i, e)) :
    entries.eraseIdx i = entries.filter fun e => !(x == e.item) := by
  induction entries generalizing i with
  | nil => cases h
  | cons b bs ih =>
    rw [ItemsDistinct, List.pairwise_cons] at hd
    simp only [findEntry] at h
    split at h
    · rename_i hb
      cases h
      have hrest : bs.filter (fun e => !(x == e.item)) = bs :=
        List.filter_eq_self.mpr fun e' he' => by simp [BEq.neq_of_beq_of_neq hb (hd.1 e' he')]
      simp [hb, hrest]
    · rename_i hb
      obtain ⟨⟨j, e'⟩, hj, hij⟩ := Option.map_eq_some'.mp h
      cases hij
      simp [hb, ih hd.2 hj]

theorem filter_of_absent {x : α} {entries : List (BlacklistEntry α)} (h : Absent x entries) :
    entries.filter (fun e => !(x == e.item)) = entries :=
  List.filter_eq_self.mpr fun e he => by simp [h e he]

/-- Without a TTL every entry is live: the eager lookup finds what `get_entry` finds. -/
theorem eagerHas_none (x : α) (entries : List (BlacklistEntry α)) (now : Time) :
    eagerHas none entries x now = (findEntry x entries).isSome := by
  induction entries with
  | nil => rfl
  | cons b bs ih =>
    simp only [eagerHas, live, Bool.and_true] at ih ⊢
    by_cases hb : (x == b.item) = true <;> simp [findEntry, hb, ih]

/-- Without a TTL, with every item accepted and distinct items, the lazy manager answers as
the eager set does, call for call. -/
theorem lazyAnswers_of_no_ttl [PartialEquivBEq α] (cs : List (BlacklistCall α)) {bl : BlacklistManager α}
    (hexp : bl.expiryTime = none) (hty : ∀ x, bl.objectType x = true) (hd : ItemsDistinct bl.blacklist) :
    lazyAnswers bl cs = eagerAnswers none bl.blacklist cs := by
  induction cs generalizing bl with
  | nil => rfl
  | cons c cs ih =>
    cases c with
    | addItem x now =>
      have hd' := itemsDistinct_apply hd (.call (.addItem x now))
      cases hf : findEntry x bl.blacklist with
      | none =>
        simp only [apply, addItem, hty, getEntry, hf, Bool.not_true] at hd'
        simp only [lazyAnswers, addItem, hty, getEntry, hf, eagerAnswers, eagerHas_none]
        exact ih hexp hty hd'
      | some p =>
        simp only [lazyAnswers, addItem, hty, getEntry, hf, eagerAnswers, eagerHas_none]
        exact ih hexp hty hd
    | isBlacklisted x now =>
      cases hf : findEntry x bl.blacklist with
      | none =>
        simp only [lazyAnswers, isBlacklisted, getEntry, hf, eagerAnswers, eagerHas_none]
        exact congrArg _ (ih hexp hty hd)
      | some p =>
        obtain ⟨i, e⟩ := p
        simp only [lazyAnswers, isBlacklisted, getEntry, hf, hexp, eagerAnswers, eagerHas_none]
        exact congrArg _ (ih hexp hty hd)
    | removeItem x =>
      have hd' := itemsDistinct_apply hd (.call (.removeItem x))
      cases hf : findEntry x bl.blacklist with
      | none =>
        simp only [apply, removeItem, getEntry, hf] at hd'
        simp only [lazyAnswers, removeItem, getEntry, hf, eagerAnswers,
          filter_of_absent (findEntry_eq_none_iff.mp hf)]
        exact ih hexp hty hd'
      | some p =>
        obtain ⟨i, e⟩ := p
        simp only [apply, removeItem, getEntry, hf] at hd'
        simp only [lazyAnswers, removeItem, getEntry, hf, eagerAnswers, ← eraseIdx_findEntry hd hf]
        exact ih hexp hty hd'

end BlacklistManager

/-- Without a TTL the lazy blacklist answers as the set that `add_item` inserts into and
`remove_item` deletes from. -/
theorem lazy_blacklist_without_ttl_is_a_set {α : Type} [BEq α] [PartialEquivBEq α]
    (cs : List (BlacklistCall α)) :
    lazyAnswers (BlacklistManager.new (fun _ => true) none) cs = eagerAnswers none [] cs :=
  BlacklistManager.lazyAnswers_of_no_ttl cs rfl (fun _ => rfl)
    (BlacklistManager.itemsDistinct_new _ none)

/-- Integers under `==`: add, look up, remove, look up, add again, look up. -/
theorem lazy_blacklist_without_ttl_is_a_set_readd :
    lazyAnswers (BlacklistManager.new (fun _ : Nat => true) none)
        [.addItem 7 0, .isBlacklisted 7 10, .removeItem 7, .isBlacklisted 7 20, .addItem 7 30,
          .isBlacklisted 7 5000] =
      eagerAnswers none [] [.addItem 7 0, .isBlacklisted 7 10, .removeItem 7, .isBlacklisted 7 20,
        .addItem 7 30, .isBlacklisted 7 5000] :=
  lazy_blacklist_without_ttl_is_a_set _

end FrontierService
