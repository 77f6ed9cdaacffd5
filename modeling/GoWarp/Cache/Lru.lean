import GoWarp.Cache.InMemory
import Mathlib.Algebra.BigOperators.Group.List.Basic
import Mathlib.Algebra.Ring.Int.Defs

/-!
# The in-memory cache as an LRU cache

The reference machine keeps one list of entries, from the most to the least
recently used one, and compares the true sum of their sizes with the limit.
The cache refines it: its linked list, with the items of the keys, is the list
of the reference machine, and its counter is the sum of the sizes modulo
`2 ^ 64`.

The counter decides what `Set` evicts, so the refinement needs that the sums
that `Set` compares with the limit are 64-bit integers.
-/

namespace GoWarp.Cache

open Support

variable {T : Type}

/-- An entry, with its expiry if it has one. -/
structure Entry (T : Type) where
  key : Key
  value : T
  size : ℤ
  expiry : Option Instant
deriving DecidableEq

def Entry.expired (entry : Entry T) (now : Instant) : Bool :=
  match entry.expiry with
  | some t => t < now
  | none => false

namespace Lru

def remove (l : List (Entry T)) (key : Key) : List (Entry T) :=
  l.filter fun entry => entry.key ≠ key

def find (l : List (Entry T)) (key : Key) : Option (Entry T) := l.find? fun entry => entry.key = key

def get (l : List (Entry T)) (now : Instant) (key : Key) : Reply T × List (Entry T) :=
  match find l key with
  | none => (.missing, l)
  | some entry =>
    if entry.expired now then (.missing, remove l key)
    else (.found entry.value, entry :: remove l key)

def total (l : List (Entry T)) : ℤ := (l.map Entry.size).sum

theorem total_reverse (l : List (Entry T)) : total l.reverse = total l := by
  rw [total, List.map_reverse, List.sum_reverse]
  rfl

/-- Drop one entry from the back if there are too many. -/
def limitEntries (maxEntries : ℤ) (l : List (Entry T)) : List (Entry T) :=
  if 0 < maxEntries ∧ maxEntries < l.length then l.dropLast else l

/-- Drop entries from the front of a list while it is too large. -/
def dropOver (maxMemory : ℤ) : List (Entry T) → List (Entry T)
  | [] => []
  | entry :: rest =>
    if maxMemory < total (entry :: rest) then dropOver maxMemory rest
    else entry :: rest

/-- Drop entries from the back while the list is too large. -/
def limitMemory (maxMemory : ℤ) (l : List (Entry T)) : List (Entry T) :=
  if 0 < maxMemory then (dropOver maxMemory l.reverse).reverse else l

def set (maxEntries maxMemory : ℤ) (l : List (Entry T)) (entry : Entry T) : List (Entry T) :=
  limitMemory maxMemory (limitEntries maxEntries (entry :: remove l entry.key))

/-- Remove those of the keys that have expired. -/
def sweep (l : List (Entry T)) (now : Instant) (keys : List Key) : List (Entry T) :=
  l.filter fun entry => ¬(entry.key ∈ keys ∧ entry.expired now)

/-- When an entry that is set now expires. -/
def expiry (now : Instant) (ttl : Duration) : Option Instant :=
  if 0 < ttl then some (now + ttl.toNat) else none

variable (size : T → ℤ) (maxEntries maxMemory : ℤ)

def step : Machine (List (Entry T)) (Action T)
  | l, .get _ now key => some (get l now key).2
  | l, .set _ now key value ttl =>
    some (set maxEntries maxMemory l ⟨key, value, size value, expiry now ttl⟩)
  | l, .invalidate _ key => some (remove l key)
  | l, .sweep now keys => some (sweep l now keys)
  | _, .close => some []

def reply (l : List (Entry T)) : Action T → Option (Reply T)
  | .get _ now key => some (get l now key).1
  | .set .. => some .done
  | .invalidate .. => some .done
  | _ => none

/-- Every sum that is compared with the limit is a 64-bit integer. -/
def Fits (maxMemory : ℤ) : List (Entry T) → Prop
  | [] => True
  | entry :: rest =>
    (-2 ^ 63 ≤ total (entry :: rest) ∧ total (entry :: rest) < 2 ^ 63) ∧
      (maxMemory < total (entry :: rest) → Fits maxMemory rest)

instance decidableFits (maxMemory : ℤ) : (l : List (Entry T)) → Decidable (Fits maxMemory l)
  | [] => isTrue trivial
  | _ :: rest =>
    haveI := decidableFits maxMemory rest
    inferInstanceAs (Decidable (_ ∧ (_ → _)))

end Lru

/-! ## The list of a cache -/

def Item.expiry (it : Item T) : Option Instant :=
  if it.expiresAt = 0 then none else some it.expiresAt

def Item.entry (it : Item T) (key : Key) : Entry T := ⟨key, it.value, it.size.toInt, it.expiry⟩

theorem Item.expired_entry (it : Item T) (key : Key) (now : Instant) :
    (it.entry key).expired now = it.expired now := by
  rw [Entry.expired, Item.expired, Item.entry, Item.expiry]
  by_cases hzero : it.expiresAt = 0
  · simp [hzero]
  · simp [hzero]

def entriesOf (items : AList fun _ : Key => Item T) (elems : List (ℕ × Key)) : List (Entry T) :=
  elems.filterMap fun x => (items.lookup x.2).map fun it => it.entry x.2

namespace InMemoryCache

/-- The entries of a cache, in the order of its list. -/
def entries (c : InMemoryCache T) : List (Entry T) := entriesOf c.items c.order.elems

/-- The map and the list hold the same keys, and an item knows its element. -/
structure Linked (c : InMemoryCache T) : Prop where
  listed : ∀ key it, c.items.lookup key = some it → (it.element, key) ∈ c.order.elems
  mapped : ∀ e key, (e, key) ∈ c.order.elems → ∃ it, c.items.lookup key = some it ∧ it.element = e

/-- The counter is the sum of the sizes, modulo `2 ^ 64`. -/
def Counted (c : InMemoryCache T) : Prop := c.currentMemory = Int64.ofInt (Lru.total c.entries)

end InMemoryCache

section EntriesOf

variable {items : AList fun _ : Key => Item T} {elems : List (ℕ × Key)} {key : Key}

theorem entriesOf_erase (hkey : ∀ x ∈ elems, x.2 ≠ key) :
    entriesOf (items.erase key) elems = entriesOf items elems := by
  refine List.filterMap_congr fun x hx => ?_
  rw [AList.lookup_erase_ne (hkey x hx)]

theorem entriesOf_cons {it : Item T} (hit : items.lookup key = some it) (e : ℕ) :
    entriesOf items ((e, key) :: elems) = it.entry key :: entriesOf items elems :=
  List.filterMap_cons_some (congrArg (Option.map _) hit)

theorem entriesOf_filter {e : ℕ} (hkey : ∀ x ∈ elems, x.1 = e ↔ x.2 = key) :
    entriesOf items (elems.filter fun x => x.1 ≠ e) = Lru.remove (entriesOf items elems) key := by
  rw [entriesOf, entriesOf, Lru.remove, List.filterMap_filter, List.filter_filterMap]
  refine List.filterMap_congr fun x hx => ?_
  by_cases hx' : x.2 = key
  · have he := (hkey x hx).mpr hx'
    cases items.lookup x.2 <;> simp [he, hx', Item.entry, Option.filter]
  · have he : x.1 ≠ e := fun h => hx' ((hkey x hx).mp h)
    cases items.lookup x.2 <;> simp [he, hx', Item.entry, Option.filter]

theorem mem_entriesOf {entry : Entry T} (h : entry ∈ entriesOf items elems) :
    ∃ x ∈ elems, ∃ it, items.lookup x.2 = some it ∧ entry = it.entry x.2 := by
  obtain ⟨x, hx, hentry⟩ := List.mem_filterMap.mp h
  obtain ⟨it, hit, rfl⟩ := Option.map_eq_some_iff.mp hentry
  exact ⟨x, hx, it, hit, rfl⟩

end EntriesOf

namespace InMemoryCache

variable {c c' : InMemoryCache T} {key : Key} {it : Item T}

theorem Linked.handle_iff (h : c.Linked) (hit : c.items.lookup key = some it) :
    ∀ x ∈ c.order.elems, x.1 = it.element ↔ x.2 = key := by
  rintro ⟨e, k⟩ hx
  constructor
  · rintro rfl
    exact LinkedList.eq_of_mem hx (h.listed key it hit)
  · rintro rfl
    obtain ⟨it', hit', rfl⟩ := h.mapped e k hx
    rw [Option.mem_unique hit hit']

theorem Linked.ne_of_lookup (h : c.Linked)
    (hnone : c.items.lookup key = none) : ∀ x ∈ c.order.elems, x.2 ≠ key := by
  rintro ⟨e, k⟩ hx rfl
  obtain ⟨it, hit, -⟩ := h.mapped e k hx
  cases hnone.symm.trans hit

theorem Linked.perm_entries (h : c.Linked) (hit : c.items.lookup key = some it) :
    c.entries.Perm (it.entry key :: Lru.remove c.entries key) := by
  have hperm : c.order.elems.Perm ((it.element, key) ::
      c.order.elems.filter fun x => x.1 ≠ it.element) := by
    rw [← LinkedList.elems_moveToFront (h.listed key it hit)]
    refine (.symm ?_)
    simpa [LinkedList.moveToFront] using List.filter_append_perm
      (fun x : ℕ × Key => x.1 = it.element) c.order.elems
  have hentries := hperm.filterMap fun x => (c.items.lookup x.2).map fun it => it.entry x.2
  change c.entries.Perm (entriesOf c.items _) at hentries
  rwa [entriesOf_cons hit, entriesOf_filter (h.handle_iff hit)] at hentries

theorem eq_entry (hit : c.items.lookup key = some it)
    {entry : Entry T} (hentry : entry ∈ c.entries) (hkey : entry.key = key) :
    entry = it.entry key := by
  obtain ⟨x, -, it', hit', rfl⟩ := mem_entriesOf hentry
  obtain rfl : x.2 = key := hkey
  rw [Option.mem_unique hit hit']

section

variable (h : c.Linked)
include h

theorem Linked.find_entries (hit : c.items.lookup key = some it) :
    Lru.find c.entries key = some (it.entry key) := by
  have hmem : it.entry key ∈ c.entries := (h.perm_entries hit).mem_iff.mpr List.mem_cons_self
  cases hfind : Lru.find c.entries key with
  | none =>
    have hne := List.find?_eq_none.mp hfind _ hmem
    exact absurd (decide_eq_true rfl) hne
  | some entry =>
    have hkey := List.find?_some (p := fun entry : Entry T => entry.key = key) hfind
    rw [eq_entry hit (List.mem_of_find?_eq_some hfind) (of_decide_eq_true hkey)]

section

variable (hnone : c.items.lookup key = none)
include hnone

theorem Linked.not_mem_entries : ∀ entry ∈ c.entries, entry.key ≠ key := by
  intro entry hentry
  obtain ⟨x, hx, it, -, rfl⟩ := mem_entriesOf hentry
  exact h.ne_of_lookup hnone x hx

theorem Linked.find_entries_none : Lru.find c.entries key = none := by
  refine List.find?_eq_none.mpr fun entry hentry heq => ?_
  exact h.not_mem_entries hnone entry hentry (of_decide_eq_true heq)

theorem Linked.remove_entries_none : Lru.remove c.entries key = c.entries := by
  refine List.filter_eq_self.mpr fun entry hentry => ?_
  exact decide_eq_true (h.not_mem_entries hnone entry hentry)

end

theorem Linked.total_entries (hit : c.items.lookup key = some it) :
    Lru.total c.entries = it.size.toInt + Lru.total (Lru.remove c.entries key) := by
  have hsum := ((h.perm_entries hit).map Entry.size).sum_eq
  rwa [List.map_cons, List.sum_cons] at hsum

theorem Linked.map_key_entries : c.entries.map Entry.key = c.order.values := by
  rw [entries, entriesOf, List.map_filterMap, LinkedList.values, ← List.filterMap_eq_map]
  refine List.filterMap_congr fun x hx => ?_
  obtain ⟨it, hit, -⟩ := h.mapped x.1 x.2 hx
  rw [hit]
  rfl

theorem Linked.nodup_values : c.order.values.Nodup := by
  refine .map_on ?_ (.of_map _ c.order.nodup)
  rintro ⟨e, k⟩ hx ⟨e', k'⟩ hx' heq
  obtain rfl : k = k' := heq
  obtain ⟨it, hit, rfl⟩ := h.mapped e k hx
  obtain ⟨it', hit', rfl⟩ := h.mapped e' k hx'
  rw [Option.mem_unique hit hit']

theorem Linked.mem_values_iff : key ∈ c.order.values ↔ key ∈ c.items := by
  rw [LinkedList.values, List.mem_map, ← AList.lookup_isSome]
  constructor
  · rintro ⟨⟨e, k⟩, hx, rfl⟩
    obtain ⟨it, hit, -⟩ := h.mapped e k hx
    rw [hit]
    rfl
  · intro hsome
    obtain ⟨it, hit⟩ := Option.isSome_iff_exists.mp hsome
    exact ⟨_, h.listed key it hit, rfl⟩

theorem Linked.length_entries : c.entries.length = c.items.entries.length := by
  have hperm : c.order.values.Perm c.items.keys := by
    refine (List.perm_ext_iff_of_nodup h.nodup_values c.items.keys_nodup).mpr fun k => ?_
    rw [h.mem_values_iff, AList.mem_keys]
  have hlength := hperm.length_eq
  rw [← h.map_key_entries, List.length_map, AList.keys, List.keys, List.length_map] at hlength
  exact hlength

/-! ## Operations on the list -/

theorem Linked.front (hself : c'.items.lookup key = some it)
    (hother : ∀ k ≠ key, c'.items.lookup k = c.items.lookup k)
    (hkey : ∀ x ∈ c.order.elems, x.1 = it.element ↔ x.2 = key)
    (helems : c'.order.elems = (it.element, key) ::
      c.order.elems.filter fun x => x.1 ≠ it.element) :
    c'.Linked ∧ c'.entries = it.entry key :: Lru.remove c.entries key := by
  have hrest : ∀ x ∈ c.order.elems.filter fun x => x.1 ≠ it.element,
      x ∈ c.order.elems ∧ x.2 ≠ key := by
    intro x hx
    obtain ⟨hx, hne⟩ := List.mem_filter.mp hx
    exact ⟨hx, fun h => of_decide_eq_true hne ((hkey x hx).mpr h)⟩
  refine ⟨⟨fun k it' hit' => ?_, fun e k hx => ?_⟩, ?_⟩
  · rw [helems]
    by_cases hk : k = key
    · subst hk
      obtain rfl := Option.mem_unique hself hit'
      exact List.mem_cons_self
    · rw [hother k hk] at hit'
      have hmem := h.listed k it' hit'
      refine List.mem_cons_of_mem _ (List.mem_filter.mpr ⟨hmem, ?_⟩)
      exact decide_eq_true fun heq => hk ((hkey _ hmem).mp heq)
  · rw [helems] at hx
    rcases List.mem_cons.mp hx with heq | hx
    · obtain ⟨rfl, rfl⟩ := Prod.mk.inj heq
      exact ⟨it, hself, rfl⟩
    · obtain ⟨hx, hne⟩ := hrest _ hx
      obtain ⟨it', hit', rfl⟩ := h.mapped e k hx
      exact ⟨it', (hother k hne).trans hit', rfl⟩
  · rw [entries, helems, entriesOf_cons hself, entries, ← entriesOf_filter hkey]
    refine congrArg _ (List.filterMap_congr fun x hx => ?_)
    rw [hother x.2 (hrest x hx).2]

theorem Linked.drop (hit : c.items.lookup key = some it) : (c.drop key it).Linked := by
  refine ⟨fun k it' hit' => ?_, fun e k hx => ?_⟩
  · change (c.items.erase key).lookup k = some it' at hit'
    have hk : k ≠ key := by
      rintro rfl
      rw [AList.lookup_erase] at hit'
      cases hit'
    rw [AList.lookup_erase_ne hk] at hit'
    have hmem := h.listed k it' hit'
    exact LinkedList.mem_remove_iff.mpr ⟨hmem, fun heq => hk ((h.handle_iff hit _ hmem).mp heq)⟩
  · obtain ⟨hx, hne⟩ := LinkedList.mem_remove_iff.mp hx
    have hk : k ≠ key := fun heq => hne ((h.handle_iff hit _ hx).mpr heq)
    obtain ⟨it', hit', he⟩ := h.mapped e k hx
    exact ⟨it', (AList.lookup_erase_ne hk).trans hit', he⟩

theorem Linked.entries_drop (hit : c.items.lookup key = some it) :
    (c.drop key it).entries = Lru.remove c.entries key := by
  change entriesOf (c.items.erase key) (c.order.elems.filter fun x => x.1 ≠ it.element) = _
  rw [entriesOf_erase, entriesOf_filter (h.handle_iff hit), entries]
  intro x hx heq
  obtain ⟨hx, hne⟩ := List.mem_filter.mp hx
  exact of_decide_eq_true hne ((h.handle_iff hit x hx).mpr heq)

end

theorem Counted.drop (hcount : c.Counted) (h : c.Linked)
    (hit : c.items.lookup key = some it) : (c.drop key it).Counted := by
  rw [Counted, h.entries_drop hit]
  change c.currentMemory + -it.size = _
  rw [hcount, h.total_entries hit, Int64.ofInt_add, Int64.ofInt_toInt,
    Int64.add_comm, ← Int64.add_assoc, Int64.add_left_neg, Int64.zero_add]

/-- The state of the reference machine that a cache is in. -/
structure Refines (maxEntries : ℤ) (maxMemory : Int64) (c : InMemoryCache T)
    (l : List (Entry T)) : Prop where
  linked : c.Linked
  counted : c.Counted
  entries : c.entries = l
  maxEntries : c.maxEntries = maxEntries
  maxMemory : c.maxMemory = maxMemory

variable {maxEntries : ℤ} {maxMemory : Int64} {l : List (Entry T)}

theorem refines_new (maxEntries : ℤ) (maxMemory : Int64) :
    Refines maxEntries maxMemory (new maxEntries maxMemory : InMemoryCache T) [] where
  linked := by
    refine ⟨fun key it h => ?_, fun e key h => ?_⟩
    · cases h
    · cases h
  counted := rfl
  entries := rfl
  maxEntries := rfl
  maxMemory := rfl

namespace Refines

section

variable (h : Refines maxEntries maxMemory c l)
include h

theorem drop (hit : c.items.lookup key = some it) :
    Refines maxEntries maxMemory (c.drop key it) (Lru.remove l key) where
  linked := h.linked.drop hit
  counted := h.counted.drop h.linked hit
  entries := by rw [h.linked.entries_drop hit, h.entries]
  maxEntries := h.maxEntries
  maxMemory := h.maxMemory

theorem front (it : Item T) (hself : c'.items.lookup key = some it)
    (hother : ∀ k ≠ key, c'.items.lookup k = c.items.lookup k)
    (hkey : ∀ x ∈ c.order.elems, x.1 = it.element ↔ x.2 = key)
    (helems : c'.order.elems = (it.element, key) :: c.order.elems.filter fun x => x.1 ≠ it.element)
    (hmemory : c'.currentMemory =
      Int64.ofInt (it.size.toInt + Lru.total (Lru.remove c.entries key)))
    (hmaxEntries : c'.maxEntries = c.maxEntries) (hmaxMemory : c'.maxMemory = c.maxMemory) :
    Refines maxEntries maxMemory c' (it.entry key :: Lru.remove l key) := by
  obtain ⟨hlinked, hentries⟩ := h.linked.front hself hother hkey helems
  refine ⟨hlinked, ?_, ?_, hmaxEntries.trans h.maxEntries, hmaxMemory.trans h.maxMemory⟩
  · rw [Counted, hmemory, hentries]
    rfl
  · rw [hentries, h.entries]

theorem moveToFront (hit : c.items.lookup key = some it) :
    Refines maxEntries maxMemory { c with order := c.order.moveToFront it.element }
      (it.entry key :: Lru.remove l key) := by
  refine h.front it hit (fun _ _ => rfl) (h.linked.handle_iff hit)
    (LinkedList.elems_moveToFront (h.linked.listed key it hit)) ?_ rfl rfl
  rw [← h.linked.total_entries hit]
  exact h.counted

theorem store (key : Key) (value : T) (size : Int64) (exp : Instant) :
    Refines maxEntries maxMemory (c.store key value size exp)
      (⟨key, value, size.toInt, (if exp = 0 then none else some exp)⟩ :: Lru.remove l key) := by
  rw [InMemoryCache.store]
  split
  · rename_i it hit
    have hkey := h.linked.handle_iff hit
    refine h.front ⟨value, size, exp, it.element⟩
      (AList.lookup_insert _) (fun k hk => AList.lookup_insert_ne hk) hkey
      (LinkedList.elems_moveToFront (h.linked.listed key it hit)) ?_ rfl rfl
    -- the old size leaves the counter and the new one enters it
    rw [h.counted, h.linked.total_entries hit, Int64.ofInt_add,
      Int64.ofInt_add, Int64.ofInt_toInt, Int64.ofInt_toInt, Int64.add_comm,
      Int64.sub_eq_add_neg, Int64.add_assoc, ← Int64.add_assoc (-it.size),
      Int64.add_left_neg, Int64.zero_add]
  · rename_i hnone
    have hfresh : ∀ x ∈ c.order.elems, x.1 ≠ c.order.next :=
      fun x hx => Nat.ne_of_lt (c.order.fresh x hx)
    refine h.front ⟨value, size, exp, c.order.next⟩
      (AList.lookup_insert _) (fun k hk => AList.lookup_insert_ne hk) ?_ ?_ ?_
      rfl rfl
    · exact fun x hx => iff_of_false (hfresh x hx) (h.linked.ne_of_lookup hnone x hx)
    · refine congrArg _ (List.filter_eq_self.mpr fun x hx => ?_).symm
      exact decide_eq_true (hfresh x hx)
    · dsimp only
      rw [h.linked.remove_entries_none hnone, h.counted, Int64.ofInt_add,
        Int64.ofInt_toInt, Int64.add_comm]

theorem length_elems : c.order.elems.length = l.length := by
  have hlength := congrArg List.length h.linked.map_key_entries
  rw [List.length_map, h.entries, LinkedList.values, List.length_map] at hlength
  exact hlength.symm

theorem elems_ne_nil (hl : l ≠ []) : c.order.elems ≠ [] := by
  intro hnil
  have hlength := h.length_elems
  rw [hnil, List.length_nil] at hlength
  exact hl (List.length_eq_zero_iff.mp hlength.symm)

theorem evict {tail : ℕ × Key} (hback : c.order.back = some tail) :
    Refines maxEntries maxMemory (c.evict tail) l.dropLast := by
  obtain ⟨init, helems⟩ := List.getLast?_eq_some_iff.mp hback
  have hmem : tail ∈ c.order.elems := helems ▸ List.mem_concat_self
  obtain ⟨it, hit, helement⟩ := h.linked.mapped tail.1 tail.2 hmem
  have hdrop : c.evict tail = c.drop tail.2 it := by
    rw [InMemoryCache.evict, hit, InMemoryCache.drop, helement]
  have hinit : (c.order.remove it.element).elems = init := by
    rw [helement]
    exact LinkedList.elems_remove_of_append helems
  have hlast : Lru.remove l tail.2 = l.dropLast := by
    have hl : l = entriesOf c.items init ++ [it.entry tail.2] := by
      rw [← h.entries, InMemoryCache.entries, helems, entriesOf, entriesOf, List.filterMap_append]
      simp [hit]
    calc Lru.remove l tail.2 = entriesOf c.items (c.order.remove it.element).elems := by
          rw [← h.entries]
          exact (entriesOf_filter (h.linked.handle_iff hit)).symm
      _ = l.dropLast := by rw [hinit, hl, List.dropLast_concat]
  rw [hdrop, ← hlast]
  exact h.drop hit

theorem enforceMaxEntries :
    Refines maxEntries maxMemory c.enforceMaxEntries (Lru.limitEntries maxEntries l) := by
  rw [InMemoryCache.enforceMaxEntries, Lru.limitEntries, h.maxEntries,
    ← h.linked.length_entries, h.entries]
  split
  · rename_i hmax
    have hne : c.order.elems ≠ [] := by
      refine h.elems_ne_nil (List.ne_nil_of_length_pos ?_)
      omega
    rw [LinkedList.back, List.getLast?_eq_getLast_of_ne_nil hne]
    exact h.evict (List.getLast?_eq_getLast_of_ne_nil hne)
  · exact h

theorem lt_currentMemory_iff (hlow : -2 ^ 63 ≤ Lru.total l) (hhigh : Lru.total l < 2 ^ 63) :
    c.maxMemory < c.currentMemory ↔ maxMemory.toInt < Lru.total l := by
  rw [Int64.lt_iff_toInt_lt, h.counted, h.entries, h.maxMemory, Int64.toInt_ofInt_of_le hlow hhigh]

end

theorem evictLoop {r : List (Entry T)} (h : Refines maxEntries maxMemory c r.reverse)
    (hfits : Lru.Fits maxMemory.toInt r) :
    Refines maxEntries maxMemory (c.evictLoop r.length)
      (Lru.dropOver maxMemory.toInt r).reverse := by
  induction r generalizing c with
  | nil => exact h
  | cons entry rest ih =>
    obtain ⟨⟨hlow, hhigh⟩, hrest⟩ := hfits
    have htotal := Lru.total_reverse (entry :: rest)
    have hiff := h.lt_currentMemory_iff (htotal ▸ hlow) (htotal ▸ hhigh)
    rw [htotal] at hiff
    rw [List.length_cons, InMemoryCache.evictLoop, Lru.dropOver]
    by_cases hover : maxMemory.toInt < Lru.total (entry :: rest)
    · rw [if_pos (hiff.mpr hover), if_pos hover]
      have hne : c.order.elems ≠ [] := h.elems_ne_nil (by simp)
      have hback := List.getLast?_eq_getLast_of_ne_nil hne
      rw [LinkedList.back, hback]
      have hevict := h.evict hback
      rw [List.reverse_cons, List.dropLast_concat] at hevict
      exact ih hevict (hrest hover)
    · rw [if_neg (fun hlt => hover (hiff.mp hlt)), if_neg hover]
      exact h

section

variable (h : Refines maxEntries maxMemory c l)
include h

theorem enforceMaxMemory (hfits : 0 < maxMemory.toInt → Lru.Fits maxMemory.toInt l.reverse) :
    Refines maxEntries maxMemory c.enforceMaxMemory (Lru.limitMemory maxMemory.toInt l) := by
  have hpos : 0 < c.maxMemory ↔ 0 < maxMemory.toInt := by
    rw [Int64.lt_iff_toInt_lt, h.maxMemory]
    rfl
  rw [InMemoryCache.enforceMaxMemory, Lru.limitMemory]
  by_cases hmax : 0 < maxMemory.toInt
  · rw [if_pos (hpos.mpr hmax), if_pos hmax, h.length_elems, ← List.length_reverse]
    exact evictLoop (by rwa [List.reverse_reverse]) (hfits hmax)
  · rw [if_neg (fun hlt => hmax (hpos.mp hlt)), if_neg hmax]
    exact h

/-! ## The operations -/

theorem metrics (hits misses : UInt64) :
    Refines maxEntries maxMemory { c with hits := hits, misses := misses } l :=
  ⟨⟨h.linked.listed, h.linked.mapped⟩, h.counted, h.entries, h.maxEntries, h.maxMemory⟩

theorem get_of_live (ctx : Ctx) (hearly : ctx.early = false) (now : Instant) (key : Key) :
    Refines maxEntries maxMemory (c.get ctx now key).2 (Lru.get l now key).2 ∧
      (ctx.late = false → (c.get ctx now key).1 = (Lru.get l now key).1) := by
  rw [InMemoryCache.get, if_neg (by simp [hearly]), Lru.get]
  cases hlookup : c.items.lookup key with
  | none =>
    rw [← h.entries, h.linked.find_entries_none hlookup, h.entries]
    exact ⟨h.metrics c.hits (c.misses + 1), fun _ => rfl⟩
  | some it =>
    rw [← h.entries, h.linked.find_entries hlookup, h.entries]
    dsimp only
    rw [it.expired_entry]
    by_cases hexpired : it.expired now = true
    · have hdrop := h.drop hlookup
      rw [if_pos hexpired, if_pos hexpired]
      exact ⟨hdrop.metrics c.hits (c.misses + 1), fun _ => rfl⟩
    · have hfront := h.moveToFront hlookup
      rw [if_neg hexpired, if_neg hexpired]
      split
      next hlate =>
        refine ⟨hfront, fun hlive => ?_⟩
        rw [hlive] at hlate
        cases hlate
      · exact ⟨hfront.metrics (c.hits + 1) c.misses, fun _ => rfl⟩

end

theorem expiry_eq (now : Instant) (ttl : Duration) : (if InMemoryCache.expiry now ttl = 0 then none
      else some (InMemoryCache.expiry now ttl)) = Lru.expiry now ttl := by
  rw [InMemoryCache.expiry, Lru.expiry]
  by_cases httl : 0 < ttl
  · have hpos : 0 < ttl.toNat := Int.lt_toNat.mpr httl
    rw [if_pos httl, if_pos httl, if_neg (Nat.add_pos_right now hpos).ne']
  · rw [if_neg httl, if_neg httl, if_pos rfl]

variable (h : Refines maxEntries maxMemory c l)
include h

theorem set_of_live {size : T → Int64} (ctx : Ctx)
    (hlive : ¬(ctx.early = true ∨ ctx.late = true)) {now : Instant} {value : T} {ttl : Duration}
    (hfits : 0 < maxMemory.toInt → Lru.Fits maxMemory.toInt (Lru.limitEntries maxEntries
        (⟨key, value, (size value).toInt, Lru.expiry now ttl⟩ :: Lru.remove l key)).reverse) :
    (c.set size ctx now key value ttl).1 = .done ∧
      Refines maxEntries maxMemory (c.set size ctx now key value ttl).2
        (Lru.set maxEntries maxMemory.toInt l
          ⟨key, value, (size value).toInt, Lru.expiry now ttl⟩) := by
  rw [InMemoryCache.set, if_neg hlive]
  have hstore := h.store key value (size value) (expiry now ttl)
  rw [expiry_eq] at hstore
  exact ⟨rfl, hstore.enforceMaxEntries.enforceMaxMemory hfits⟩

theorem invalidate_of_live (ctx : Ctx) (hlive : ¬(ctx.early = true ∨ ctx.late = true)) (key : Key) :
    (c.invalidate ctx key).1 = .done ∧ Refines maxEntries maxMemory (c.invalidate ctx key).2
        (Lru.remove l key) := by
  rw [InMemoryCache.invalidate, if_neg hlive]
  cases hlookup : c.items.lookup key with
  | none =>
    rw [← h.entries, h.linked.remove_entries_none hlookup, h.entries]
    exact ⟨rfl, h⟩
  | some it => exact ⟨rfl, h.drop hlookup⟩

theorem inspect (now : Instant) (key : Key) :
    Refines maxEntries maxMemory (c.inspect now key) (Lru.sweep l now [key]) := by
  rw [InMemoryCache.inspect]
  cases hlookup : c.items.lookup key with
  | none =>
    have hsweep : Lru.sweep l now [key] = l := by
      refine List.filter_eq_self.mpr fun entry hentry => ?_
      rw [← h.entries] at hentry
      simp [h.linked.not_mem_entries hlookup entry hentry]
    rw [hsweep]
    exact h
  | some it =>
    have hsweep : Lru.sweep l now [key] =
        if it.expired now then Lru.remove l key else l := by
      have hentry : ∀ entry ∈ l, entry.key = key → entry.expired now = it.expired now := by
        intro entry hentry hkey
        rw [eq_entry hlookup (h.entries ▸ hentry) hkey, it.expired_entry]
      split
      · rename_i hexpired
        refine List.filter_congr fun entry hmem => ?_
        by_cases hkey : entry.key = key
        · simp [hkey, hentry entry hmem hkey, hexpired]
        · simp [hkey]
      · rename_i hexpired
        refine List.filter_eq_self.mpr fun entry hmem => ?_
        by_cases hkey : entry.key = key
        · simp [hkey, hentry entry hmem hkey, hexpired]
        · simp [hkey]
    rw [hsweep]
    dsimp only
    split
    · exact h.drop hlookup
    · exact h

theorem sweep (now : Instant) (sample : List Key) :
    Refines maxEntries maxMemory (c.sweep now sample) (Lru.sweep l now sample) := by
  induction sample generalizing c l with
  | nil =>
    have hsweep : Lru.sweep l now [] = l := List.filter_eq_self.mpr fun _ _ => by simp
    rw [hsweep]
    exact h
  | cons key rest ih =>
    have hsweep : Lru.sweep l now (key :: rest) = Lru.sweep (Lru.sweep l now [key]) now rest := by
      rw [Lru.sweep, Lru.sweep, Lru.sweep, List.filter_filter]
      refine List.filter_congr fun entry _ => ?_
      by_cases hkey : entry.key = key
      · cases entry.expired now <;> simp [hkey]
      · simp [hkey]
    rw [hsweep]
    exact ih (h.inspect now key)

end Refines

end InMemoryCache

/-! ## Runs -/

/-- A context that is not done. -/
def Ctx.live : Ctx := ⟨false, false⟩

/-- The operation has a context that is not done, and is not `Close`. -/
def Action.Live : Action T → Prop
  | .get ctx _ _ => ctx = Ctx.live
  | .set ctx _ _ _ _ => ctx = Ctx.live
  | .invalidate ctx _ => ctx = Ctx.live
  | .sweep _ _ => True
  | .close => False

instance : DecidablePred (Action.Live : Action T → Prop)
  | .get ctx _ _ => inferInstanceAs (Decidable (ctx = _))
  | .set ctx _ _ _ _ => inferInstanceAs (Decidable (ctx = _))
  | .invalidate ctx _ => inferInstanceAs (Decidable (ctx = _))
  | .sweep _ _ => isTrue trivial
  | .close => isFalse id

/-- The sums that a `Set` compares with the limit are 64-bit integers. -/
def Lru.FitsStep (size : T → ℤ) (maxEntries maxMemory : ℤ) (l : List (Entry T)) : Action T → Prop
  | .set _ now key value ttl => 0 < maxMemory → Fits maxMemory
      (limitEntries maxEntries (⟨key, value, size value, expiry now ttl⟩ :: remove l key)).reverse
  | _ => True

instance (size : T → ℤ) (maxEntries maxMemory : ℤ) (l : List (Entry T)) :
    DecidablePred (Lru.FitsStep size maxEntries maxMemory l)
  | .get .. => isTrue trivial
  | .set .. => inferInstanceAs (Decidable (_ → _))
  | .invalidate .. => isTrue trivial
  | .sweep .. => isTrue trivial
  | .close => isTrue trivial

namespace InMemoryCache

variable {maxEntries : ℤ} {maxMemory : Int64} {c c' : InMemoryCache T}
  {l : List (Entry T)} {size : T → Int64}

theorem Refines.step (h : Refines maxEntries maxMemory c l) {a : Action T} (hlive : a.Live)
    (hfits : Lru.FitsStep (fun v => (size v).toInt) maxEntries maxMemory.toInt
      l a) (hstep : step size c a = some c') :
    reply size c a = Lru.reply l a ∧
      ∃ l', Lru.step (fun v => (size v).toInt) maxEntries maxMemory.toInt l a =
        some l' ∧ Refines maxEntries maxMemory c' l' := by
  cases a with
  | get ctx now key =>
    obtain rfl : ctx = Ctx.live := hlive
    cases hstep
    obtain ⟨hstate, hreply⟩ := h.get_of_live Ctx.live rfl now key
    exact ⟨congrArg some (hreply rfl), _, rfl, hstate⟩
  | set ctx now key value ttl =>
    obtain rfl : ctx = Ctx.live := hlive
    cases hstep
    obtain ⟨hreply, hstate⟩ := h.set_of_live Ctx.live (by decide) hfits
    exact ⟨congrArg some hreply, _, rfl, hstate⟩
  | invalidate ctx key =>
    obtain rfl : ctx = Ctx.live := hlive
    cases hstep
    obtain ⟨hreply, hstate⟩ := h.invalidate_of_live Ctx.live (by decide) key
    exact ⟨congrArg some hreply, _, rfl, hstate⟩
  | sweep now sample =>
    obtain ⟨-, hc'⟩ := Option.ite_none_right_eq_some.mp hstep
    cases hc'
    exact ⟨rfl, _, rfl, h.sweep now sample⟩
  | close => exact hlive.elim

/-- A run of the cache is one of the reference machine, with the same replies,
as long as the sums that are compared with the limit do not overflow. -/
theorem lru_of_fits (size : T → Int64) (maxEntries : ℤ) (maxMemory : Int64)
    (steps : List (Action T)) (c : InMemoryCache T)
    (hlive : ∀ a ∈ steps, a.Live)
    (hrun : (step size).run (new maxEntries maxMemory) steps = some c)
    (hfits : (Lru.step (fun v => (size v).toInt) maxEntries maxMemory.toInt).AllSteps
        (Lru.FitsStep (fun v => (size v).toInt) maxEntries maxMemory.toInt)
        [] steps) :
    (step size).emitted (reply size) (new maxEntries maxMemory) steps =
        (Lru.step (fun v => (size v).toInt) maxEntries maxMemory.toInt).emitted Lru.reply [] steps ∧
      (Lru.step (fun v => (size v).toInt) maxEntries maxMemory.toInt).run []
        steps = some c.entries := by
  have hsteps := ((Lru.step _ maxEntries maxMemory.toInt).allSteps_of_forall hlive []).and hfits
  obtain ⟨hemitted, l, hl, hrefines⟩ := (step size).run_simulation (reply size) _ Lru.reply
    (fun _ _ _ _ h hP hstep => h.step hP.1 hP.2 hstep) hrun hsteps
    (refines_new maxEntries maxMemory)
  exact ⟨hemitted, hrefines.entries ▸ hl⟩

/-- A cache with room for 100 bytes, whose values are their own sizes: 100
bytes and then the greatest size there is. -/
def hugeSteps : List (Action Int64) :=
  [.set Ctx.live 1 "a" 100 0, .set Ctx.live 2 "b" 9223372036854775807 0, .get Ctx.live 3 "a"]

/-- The counter overflows, and both entries stay. -/
theorem keeps_huge : (∀ a ∈ hugeSteps, a.Live) ∧
      ((step id).run (new 0 100) hugeSteps).isSome = true ∧
      (step id).emitted (reply id) (new 0 100) hugeSteps = [.done, .done, .found 100] ∧
      (Lru.step Int64.toInt 0 100).emitted Lru.reply [] hugeSteps = [.done, .done, .missing] := by
  decide

/-- Three entries in a cache for two, one of which expires. -/
def smallSteps : List (Action Int64) :=
  [.set Ctx.live 1 "a" 10 5, .set Ctx.live 2 "b" 20 0, .get Ctx.live 3 "a",
    .set Ctx.live 4 "c" 30 0, .get Ctx.live 5 "b", .get Ctx.live 9 "a",
    .sweep 10 ["c"], .invalidate Ctx.live "c", .get Ctx.live 11 "c"]

theorem lru_of_fits_smallSteps : (step id).emitted (reply id) (new 2 100) smallSteps =
        (Lru.step Int64.toInt 2 100).emitted Lru.reply [] smallSteps ∧
      (Lru.step Int64.toInt 2 100).run [] smallSteps = some [] := by
  have h := lru_of_fits id 2 100 smallSteps
    (((step id).run (new 2 100) smallSteps).get (by decide)) (by decide)
    (Option.some_get _).symm (by decide)
  exact h

end InMemoryCache

end GoWarp.Cache
