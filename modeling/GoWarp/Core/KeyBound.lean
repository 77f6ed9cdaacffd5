import GoWarp.Core.Versioned
import GoWarp.Support.LinkedList
import GoWarp.Support.Transition
import Mathlib.Data.Set.Card

/-!
# The bound on the keys of a versioned cache

The cache tracks its keys in a linked list and in a map from keys to elements
of the list.  The map and the list agree, so that the list of keys alone, as in
`VersionedCache`, tells what happens.

The base may lose entries at any time.  As long as it is used through the
versioned cache only, it has no key that is not tracked, and the number of keys
is bounded.  A key is touched when it is set or found; the key that has not been
touched for the longest time is evicted.
-/

namespace GoWarp.Core

open Support Support.Program
open Function (update update_of_ne update_self)

variable {ω σ T : Type}

/-- A call of a versioned cache, or entries of its base that expire. -/
inductive CacheAction (ω T : Type) where
  | get (x : BaseWorld ω) (k : Key)
  | getAt (x : BaseWorld ω) (k : Key) (t : Instant)
  | set (x : BaseWorld ω) (k : Key) (v : Value T) (ttl : Duration)
  | invalidate (x : BaseWorld ω) (k : Key)
  | lapse (x : ω)

namespace CacheAction

def step {τ : Type} (c : AnyCache (BaseWorld ω) (Value T) τ)
    (lapse : ω → τ → τ) : Machine τ (CacheAction ω T)
  | s, .get x k => some (exec (c.get x k) s).2
  | s, .getAt x k t => c.getAt.map fun getAt => (exec (getAt x k t) s).2
  | s, .set x k v ttl => some (exec (c.set x k v ttl) s).2
  | s, .invalidate x k => some (exec (c.invalidate x k) s).2
  | s, .lapse x => some (lapse x s)

/-- The key that a call sets, or finds in the base. -/
def touched (base : CacheOps ω (VersionedValue T) σ) (b : σ) : CacheAction ω T → Option Key
  | .get x k | .getAt x k _ =>
    match (exec (base.get x.get k) b).1 with
    | .ok (some _) => some k
    | _ => none
  | .set _ k _ _ => some k
  | .invalidate .. | .lapse _ => none

end CacheAction

/-- How many touches there are since the last one of a key. -/
def age (touches : List Key) (k : Key) : ℕ := touches.reverse.idxOf k

theorem age_concat_self (touches : List Key) (k : Key) : age (touches ++ [k]) k = 0 := by simp [age]

theorem age_concat_of_ne (touches : List Key) {k k' : Key} (hne : k' ≠ k) :
    age (touches ++ [k]) k' = age touches k' + 1 := by
  simp [age, List.idxOf_cons_ne _ (.symm hne)]

/-! ## A base that loses entries -/

/-- The base never fails, and has no key that has not been set. -/
structure CacheOps.Volatile {V : Type} (base : CacheOps ω V σ) where
  keys : σ → Set Key
  /-- What happens to the base between two calls. -/
  lapse : ω → σ → σ
  get : ∀ x k b, ∃ old b', exec (base.get x k) b = (.ok old, b') ∧
    keys b' ⊆ keys b ∧ (old.isSome → k ∈ keys b)
  set : ∀ x k v ttl b, ∃ b', exec (base.set x k v ttl) b = (.ok (), b') ∧
    keys b' ⊆ insert k (keys b)
  invalidate : ∀ x k b, ∃ b', exec (base.invalidate x k) b = (.ok (), b') ∧ keys b' ⊆ keys b \ {k}
  keys_lapse : ∀ x b, keys (lapse x b) ⊆ keys b

/-! ## The list of keys -/

namespace VersionedCache

variable {base : CacheOps ω (VersionedValue T) σ} (law : base.Volatile)
  {limit maxEntries : ℤ} {s s' : VersionedCache σ} {touches : List Key}
  {k : Key} {x : BaseWorld ω}

/-- Time passes for the base. -/
def lapse (x : ω) (s : VersionedCache σ) : VersionedCache σ := { s with base := law.lapse x s.base }

/-- The keys in the list are those that may be in the base, the last touched
one first. -/
structure Bounded (maxEntries : ℤ) (s : VersionedCache σ)
    (touches : List Key) : Prop where
  nodup : s.order.Nodup
  tracked : ∀ k ∈ law.keys s.base, k ∈ s.order
  length : s.order.length ≤ maxEntries
  recent : s.order.Pairwise fun k k' => age touches k < age touches k'
  touched : ∀ k ∈ s.order, k ∈ touches

namespace Bounded

variable {law} (h : Bounded law maxEntries s touches)
include h

theorem shrink {l : List Key} (hl : l.Sublist s.order) (horder : s'.order = l)
    (hkeys : ∀ k ∈ law.keys s'.base, k ∈ l) :
    Bounded law maxEntries s' touches := by
  subst horder
  refine ⟨h.nodup.sublist hl, hkeys, ?_, h.recent.sublist hl,
    fun k hk => h.touched k (hl.subset hk)⟩
  have hlength := h.length
  have hle := hl.length_le
  omega

theorem front {l : List Key} (hl : l.Sublist s.order) (hk : k ∉ l)
    (horder : s'.order = k :: l) (hlength : l.length + 1 ≤ maxEntries)
    (hkeys : ∀ k' ∈ law.keys s'.base, k' = k ∨ k' ∈ l) :
    Bounded law maxEntries s' (touches ++ [k]) := by
  have hage : ∀ k' ∈ l, age (touches ++ [k]) k' = age touches k' + 1 :=
    fun k' hk' => age_concat_of_ne touches fun heq => hk (heq ▸ hk')
  refine ⟨?_, ?_, ?_, ?_, ?_⟩
  · rw [horder, List.nodup_cons]
    exact ⟨hk, h.nodup.sublist hl⟩
  · simpa only [horder, List.mem_cons] using hkeys
  · simpa only [horder, List.length_cons, Nat.cast_add, Nat.cast_one] using hlength
  · rw [horder, List.pairwise_cons, age_concat_self]
    refine ⟨fun k' hk' => ?_, ?_⟩
    · rw [hage k' hk']
      exact Nat.succ_pos _
    · refine (h.recent.sublist hl).imp_of_mem fun ha hb hlt => ?_
      rw [hage _ ha, hage _ hb]
      exact Nat.succ_lt_succ hlt
  · rw [horder]
    intro k' hk'
    rw [List.mem_append, List.mem_singleton]
    exact (List.mem_cons.mp hk').symm.imp_left fun hl' => h.touched k' (hl.subset hl')

theorem again (hk : k ∈ s.order) (horder : s'.order = k :: s.order.erase k)
    (hkeys : ∀ k' ∈ law.keys s'.base, k' = k ∨ k' ∈ s.order) :
    Bounded law maxEntries s' (touches ++ [k]) := by
  refine h.front List.erase_sublist h.nodup.not_mem_erase horder ?_ ?_
  · have hlength := h.length
    have hpos := List.length_pos_of_mem hk
    rw [List.length_erase_of_mem hk]
    omega
  · intro k' hk'
    rw [or_iff_not_imp_left, h.nodup.mem_erase_iff]
    exact fun hne => ⟨hne, (hkeys k' hk').resolve_left hne⟩

theorem lookup {p : Program (VersionedCache σ) Err (Option (Value T))}
    {look : VersionedValue T → Option (Value T)}
    (hp : ∀ {old b}, exec (base.get x.get k) s.base = (.ok old, b) →
      exec p s = (.ok (old.bind look), if old.isSome then { s with base := b }.moveToFront k
        else { s with base := b })) :
    Bounded law maxEntries (exec p s).2
      (touches ++ (CacheAction.touched base s.base (.get x k)).toList) := by
  obtain ⟨old, b, hget, hkeys, hfound⟩ := law.get x.get k s.base
  rw [hp hget, CacheAction.touched, hget]
  cases old with
  | none =>
    rw [Option.toList_none, List.append_nil]
    exact h.shrink (.refl _) rfl fun k hk => h.tracked k (hkeys hk)
  | some vv =>
    have hk := h.tracked k (hfound rfl)
    have hfront : VersionedCache.moveToFront ⟨b, s.order⟩ k = ⟨b, k :: s.order.erase k⟩ := if_pos hk
    refine h.again hk (congrArg order hfront) fun k' hk' => .inr ?_
    rw [Option.isSome_some, if_pos rfl, hfront] at hk'
    exact h.tracked k' (hkeys hk')

theorem invalidate : Bounded law maxEntries (exec (VersionedCache.invalidate base x k) s).2
      touches := by
  obtain ⟨b, hinvalidate, hkeys⟩ := law.invalidate x.invalidate k s.base
  refine h.shrink List.erase_sublist rfl fun k' hk' => ?_
  change k' ∈ law.keys (exec (base.invalidate x.invalidate k) s.base).2 at hk'
  rw [hinvalidate] at hk'
  obtain ⟨hmem, hne⟩ := hkeys hk'
  exact h.nodup.mem_erase_iff.mpr ⟨hne, h.tracked k' hmem⟩

end Bounded

/-- What `Set` makes of the list: a key that is tracked comes to the front, and
one that is not may push out the last one. -/
inductive Recorded (maxEntries : ℤ) (k : Key) (order : List Key)
    (keys : Set Key) : List Key → Prop where
  | again : k ∈ order → Recorded maxEntries k order keys (k :: order.erase k)
  | room : k ∉ order → order.length < maxEntries →
    Recorded maxEntries k order keys (k :: order)
  | evicted (l : List Key) (victim : Key) : k ∉ order →
    maxEntries ≤ order.length → order = l ++ [victim] → victim ∉ keys →
    Recorded maxEntries k order keys (k :: l)

theorem exec_set_recorded (limit : ℤ) (x : BaseWorld ω) (k : Key)
    (s : VersionedCache σ) (hpos : 0 < maxEntries) (v : Value T) (ttl : Duration) :
    ∃ s', exec (set base limit maxEntries x k v ttl) s = (.ok (), s') ∧
      Recorded maxEntries k s.order (law.keys s'.base) s'.order ∧
      law.keys s'.base ⊆ insert k (law.keys s.base) := by
  obtain ⟨old, b, hget, hkeys, -⟩ := law.get x.get k s.base
  obtain ⟨b', hset, hkeys'⟩ := law.set x.set k (.extend limit old v) ttl b
  have hsub := hkeys'.trans (Set.insert_subset_insert hkeys)
  rw [exec_set_of_base hget hset, record, exec_bind, Program.exec_get]
  dsimp only
  split
  next hmem =>
    have hfront : VersionedCache.moveToFront ⟨b', s.order⟩ k =
        ⟨b', k :: s.order.erase k⟩ := if_pos hmem
    exact ⟨_, congrArg (Prod.mk _) hfront, .again hmem, hsub⟩
  next hmem =>
    split
    next hfull =>
      rcases List.eq_nil_or_concat s.order with hnil | ⟨l, victim, horder⟩
      · rw [hnil, List.length_nil] at hfull
        omega
      · obtain ⟨b'', hinvalidate, hkeys''⟩ :=
          law.invalidate x.invalidate victim b'
        rw [List.concat_eq_append] at horder
        refine ⟨⟨b'', k :: l⟩, (exec_bind_ok rfl).trans ?_,
          .evicted l victim hmem (by omega) horder ?_, ?_⟩
        · have hdrop : (k :: (l ++ [victim])).dropLast = k :: l := by
            rw [← List.cons_append, List.dropLast_concat]
          rw [exec_tryCatch, onBase, exec_zoom, horder, List.getLast?_concat,
            Option.getD_some, hinvalidate]
          exact congrArg (fun order => (_, VersionedCache.mk b'' order)) hdrop
        · exact fun hmem => (hkeys'' hmem).2 rfl
        · exact fun k' hk' => hsub (hkeys'' hk').1
    next hroom => exact ⟨_, rfl, .room hmem (by omega), hsub⟩

theorem Bounded.set (h : Bounded law maxEntries s touches)
    (hpos : 0 < maxEntries) (v : Value T) (ttl : Duration) :
    Bounded law maxEntries (exec (VersionedCache.set base limit maxEntries x k v ttl) s).2
      (touches ++ [k]) := by
  obtain ⟨s', hexec, hrecorded, hkeys⟩ := exec_set_recorded law limit x k s hpos v ttl
  rw [hexec]
  have hlength := h.length
  have hmem : ∀ k' ∈ law.keys s'.base, k' = k ∨ k' ∈ s.order := fun k' hk' =>
    (hkeys hk').imp_right (h.tracked k')
  generalize horder : s'.order = order at hrecorded
  cases hrecorded with
  | again hk => exact h.again hk horder hmem
  | room hk hroom => exact h.front (.refl _) hk horder hroom hmem
  | evicted l victim hk hfull hl hgone =>
    rw [hl] at hk hlength hmem
    refine h.front (hl ▸ List.sublist_append_left _ _)
      (fun hkl => hk (List.mem_append_left _ hkl)) horder ?_ fun k' hk' => ?_
    · simpa using hlength
    · refine (hmem k' hk').imp_right fun hl' => ?_
      rcases List.mem_append.mp hl' with hl' | hl'
      · exact hl'
      · exact absurd (List.mem_singleton.mp hl' ▸ hk') hgone

theorem Bounded.step (h : Bounded law maxEntries s touches)
    (hpos : 0 < maxEntries) {a : CacheAction ω T}
    (hstep : CacheAction.step (cache base limit maxEntries) (lapse law) s a = some s') :
    Bounded law maxEntries s' (touches ++ (a.touched base s.base).toList) := by
  cases a with
  | get x k =>
    cases hstep
    exact h.lookup (exec_lookup_of_base VersionedValue.latest)
  | getAt x k t =>
    cases hstep
    exact h.lookup (x := x) (k := k) (exec_lookup_of_base fun vv => vv.versionAt t)
  | set x k v ttl =>
    cases hstep
    exact h.set law hpos v ttl
  | invalidate x k =>
    cases hstep
    rw [CacheAction.touched, Option.toList_none, List.append_nil]
    exact h.invalidate
  | lapse x =>
    cases hstep
    rw [CacheAction.touched, Option.toList_none, List.append_nil]
    exact h.shrink (.refl _) rfl fun k hk => h.tracked k (law.keys_lapse x s.base hk)

end VersionedCache

/-! ## The list and the map -/

/-- `versioned.Cache` with its list of keys and the elements of the keys. -/
structure TrackedCache (σ : Type) where
  base : σ
  order : LinkedList Key
  entries : Key → Option ℕ

namespace TrackedCache

/-- `versioned.New`. -/
def new (base : σ) : TrackedCache σ := ⟨base, .new, fun _ => none⟩

/-- A call of the base. -/
def onBase {α : Type} (p : Program σ Err α) : Program (TrackedCache σ) Err α :=
  zoom TrackedCache.base (fun base s => { s with base := base }) p

/-- Move the element of a key to the front, if it has one. -/
def moveToFront (s : TrackedCache σ) (k : Key) : TrackedCache σ :=
  match s.entries k with
  | some e => { s with order := s.order.moveToFront e }
  | none => s

/-- Put a key that has no element at the front. -/
def pushFront (s : TrackedCache σ) (k : Key) : TrackedCache σ :=
  { s with
    order := s.order.pushFront k
    entries := update s.entries k (some s.order.next) }

/-- Remove an element and the entry of its key. -/
def remove (s : TrackedCache σ) (e : ℕ) (k : Key) : TrackedCache σ :=
  { s with
    order := s.order.remove e
    entries := update s.entries k none }

section Calls

variable (base : CacheOps ω (VersionedValue T) σ) (limit maxEntries : ℤ)

/-- A key that is found comes to the front. -/
def lookup (x : BaseWorld ω) (k : Key) (look : VersionedValue T → Option (Value T)) :
    Program (TrackedCache σ) Err (Option (Value T)) := do
  match ← onBase (base.get x.get k) with
  | none => pure none
  | some vv =>
    modify fun s => s.moveToFront k
    pure (look vv)

def get (x : BaseWorld ω) (k : Key) : Program (TrackedCache σ) Err (Option (Value T)) :=
  lookup base x k VersionedValue.latest

def getAt (x : BaseWorld ω) (k : Key) (t : Instant) :
    Program (TrackedCache σ) Err (Option (Value T)) :=
  lookup base x k fun vv => vv.versionAt t

/-- Remove the last key if there are too many; an error of the base is
ignored. -/
def evict (x : BaseWorld ω) : Program (TrackedCache σ) Err Unit := do
  let s ← MonadState.get
  if 0 < maxEntries ∧ maxEntries < s.order.elems.length then
    match s.order.back with
    | none => pure ()
    | some (last, k) =>
      modify fun s => s.remove last k
      tryCatch (onBase (base.invalidate x.invalidate k)) fun _ => pure ()

/-- What `Set` does under the lock. -/
def record (x : BaseWorld ω) (k : Key) : Program (TrackedCache σ) Err Unit := do
  let s ← MonadState.get
  if (s.entries k).isSome then
    modify fun s => s.moveToFront k
  else
    modify fun s => s.pushFront k
    evict base maxEntries x

def set (x : BaseWorld ω) (k : Key) (v : Value T) (ttl : Duration) :
    Program (TrackedCache σ) Err Unit := do
  let old ← onBase (base.get x.get k)
  onBase (base.set x.set k (VersionedValue.extend limit old v) ttl)
  record base maxEntries x k

def invalidate (x : BaseWorld ω) (k : Key) : Program (TrackedCache σ) Err Unit := do
  modify fun s =>
    match s.entries k with
    | some e => s.remove e k
    | none => s
  onBase (base.invalidate x.invalidate k)

def cache : AnyCache (BaseWorld ω) (Value T) (TrackedCache σ) where
  get := get base
  set := set base limit maxEntries
  invalidate := invalidate base
  getAt := some (getAt base)

end Calls

/-- The keys that have an entry. -/
def tracked (s : TrackedCache σ) : Set Key := {k | (s.entries k).isSome}

/-- The map has the elements of the list, and the list of keys is that of a
`VersionedCache`. -/
structure Refines (s : TrackedCache σ) (t : VersionedCache σ) : Prop where
  linked : ∀ k e, s.entries k = some e ↔ (e, k) ∈ s.order.elems
  base : s.base = t.base
  order : s.order.values = t.order

namespace Refines

variable {s : TrackedCache σ} {t : VersionedCache σ} (h : Refines s t) {k : Key} {e : ℕ}
include h

theorem mem_order_iff : k ∈ t.order ↔ (s.entries k).isSome := by
  rw [← h.order, LinkedList.values, List.mem_map, Option.isSome_iff_exists]
  constructor
  · rintro ⟨⟨e, k'⟩, hmem, rfl⟩
    exact ⟨e, (h.linked k' e).mpr hmem⟩
  · rintro ⟨e, he⟩
    exact ⟨(e, k), (h.linked k e).mp he, rfl⟩

theorem nodup : t.order.Nodup := by
  rw [← h.order]
  refine (List.Nodup.of_map _ s.order.nodup).map_on ?_
  rintro ⟨e, k⟩ hmem ⟨e', k'⟩ hmem' rfl
  have he := (h.linked k e).mpr hmem
  rw [Option.mem_unique he ((h.linked k e').mpr hmem')]

theorem values_filter (he : s.entries k = some e) :
    (s.order.elems.filter fun x => x.1 ≠ e).map Prod.snd = t.order.erase k := by
  rw [h.nodup.erase_eq_filter, ← h.order, LinkedList.values, List.filter_map]
  refine congrArg _ (List.filter_congr fun x hx => ?_)
  have hx := (h.linked x.2 x.1).mpr hx
  have hiff : x.1 = e ↔ x.2 = k := by
    constructor
    · rintro rfl
      exact LinkedList.eq_of_mem ((h.linked _ _).mp hx) ((h.linked _ _).mp he)
    · rintro rfl
      exact Option.mem_unique hx he
  rw [Bool.eq_iff_iff]
  simp [hiff]

theorem moveToFront (k : Key) : Refines (s.moveToFront k) (t.moveToFront k) := by
  rw [TrackedCache.moveToFront, VersionedCache.moveToFront]
  cases he : s.entries k with
  | none =>
    rw [if_neg]
    · exact h
    · rw [h.mem_order_iff, he]
      exact Bool.false_ne_true
  | some e =>
    rw [if_pos (h.mem_order_iff.mpr (by rw [he, Option.isSome_some]))]
    have hmem := (h.linked k e).mp he
    refine ⟨fun k' e' => ?_, h.base, ?_⟩
    · rw [LinkedList.mem_moveToFront, ← h.linked]
    · rw [LinkedList.values, LinkedList.elems_moveToFront hmem, List.map_cons, h.values_filter he]

theorem remove (he : s.entries k = some e) :
    Refines (s.remove e k) { t with order := t.order.erase k } := by
  refine ⟨fun k' e' => ?_, h.base, h.values_filter he⟩
  have hmem := (h.linked k e).mp he
  change update s.entries k none k' = some e' ↔ (e', k') ∈ (s.order.remove e).elems
  rw [LinkedList.mem_remove_iff, ← h.linked]
  by_cases hk : k' = k
  · subst hk
    rw [update_self, he]
    simp [eq_comm]
  · rw [update_of_ne hk, iff_self_and]
    rintro he' rfl
    exact hk (LinkedList.eq_of_mem ((h.linked k' e').mp he') hmem)

theorem pushFront (hk : s.entries k = none) :
    Refines (s.pushFront k) { t with order := k :: t.order } := by
  refine ⟨fun k' e' => ?_, h.base, congrArg (k :: ·) h.order⟩
  change update s.entries k (some s.order.next) k' = some e' ↔
    (e', k') ∈ (s.order.next, k) :: s.order.elems
  rw [List.mem_cons, ← h.linked, Prod.mk.injEq]
  by_cases hk' : k' = k
  · subst hk'
    rw [update_self, hk]
    simp [eq_comm]
  · rw [update_of_ne hk']
    simp [hk']

theorem onBase (b : σ) : Refines { s with base := b } { t with base := b } :=
  ⟨h.linked, rfl, h.order⟩

end Refines

variable {base : CacheOps ω (VersionedValue T) σ} {limit maxEntries : ℤ} {x : BaseWorld ω} {k : Key}

theorem relates_onBase {α : Type} (p : Program σ Err α) :
    Relates Refines Refines (onBase p) (VersionedCache.onBase p) := by
  intro s t h
  rw [onBase, VersionedCache.onBase, exec_zoom, exec_zoom, h.base]
  exact ⟨rfl, h.onBase _⟩

theorem relates_lookup (look : VersionedValue T → Option (Value T)) :
    Relates Refines Refines (lookup base x k look) (do
      match ← VersionedCache.onBase (base.get x.get k) with
      | none => pure none
      | some vv =>
        modify fun s => s.moveToFront k
        pure (look vv)) := by
  refine .seq (relates_onBase _) fun old => ?_
  cases old with
  | none => exact .pure (fun _ _ h => h) none
  | some vv =>
    refine .seq (.modify fun _ _ h => h.moveToFront k) fun _ => ?_
    exact .pure (fun _ _ h => h) (look vv)

theorem relates_invalidate : Relates Refines Refines (invalidate base x k)
      (VersionedCache.invalidate base x k) := by
  refine .seq (.modify fun s t h => ?_) fun _ => relates_onBase _
  cases he : s.entries k with
  | none =>
    rw [List.erase_of_not_mem]
    · exact h
    · rw [h.mem_order_iff, he]
      exact Bool.false_ne_true
  | some e => exact h.remove he

variable {s : TrackedCache σ} {t : VersionedCache σ}

theorem Refines.back (h : Refines s t) {l : List Key} {k : Key} (horder : t.order = l ++ [k]) :
    ∃ e, s.order.back = some (e, k) ∧ s.entries k = some e := by
  rw [← h.order, LinkedList.values, List.map_eq_append_iff] at horder
  obtain ⟨init, last, helems, -, hlast⟩ := horder
  obtain ⟨⟨e, k'⟩, rfl, hk⟩ := List.map_eq_singleton_iff.mp hlast
  obtain rfl : k' = k := hk
  refine ⟨e, ?_, (h.linked k' e).mpr (helems ▸ by simp)⟩
  rw [LinkedList.back, helems, List.getLast?_concat]

theorem exec_evict_of_full {e : ℕ} (hfull : 0 < maxEntries ∧ maxEntries < s.order.elems.length)
    (hback : s.order.back = some (e, k)) :
    exec (evict base maxEntries x) s = exec (tryCatch (onBase (base.invalidate x.invalidate k))
        fun _ => pure ()) (s.remove e k) := by
  rw [evict, exec_bind, exec_get]
  dsimp only
  rw [if_pos hfull, hback]
  rfl

theorem exec_evict_of_room (hroom : ¬(0 < maxEntries ∧ maxEntries < s.order.elems.length)) :
    exec (evict base maxEntries x) s = (.ok (), s) := by
  rw [evict, exec_bind, exec_get]
  dsimp only
  rw [if_neg hroom]
  rfl

theorem relates_record : Relates Refines Refines (record base maxEntries x k)
      (VersionedCache.record base maxEntries x k) := by
  refine .get_bind fun s t h => ?_
  have hmem := h.mem_order_iff (k := k)
  split
  next hk =>
    rw [if_pos (hmem.mpr hk)]
    refine .modify ?_
    rintro _ _ ⟨rfl, rfl⟩
    exact h.moveToFront k
  next hk =>
    rw [if_neg (hk ∘ hmem.mp)]
    have hpush := h.pushFront (Option.not_isSome_iff_eq_none.mp hk)
    have hlength : (s.pushFront k).order.elems.length = t.order.length + 1 := by
      rw [← List.length_map Prod.snd]
      exact congrArg List.length hpush.order
    rintro s t ⟨rfl, rfl⟩
    change (exec (evict base maxEntries x) (s.pushFront k)).1 = _ ∧
      Refines (exec (evict base maxEntries x) (s.pushFront k)).2 _
    split
    next hfull =>
      rcases List.eq_nil_or_concat t.order with hnil | ⟨l, victim, horder⟩
      · rw [hnil, List.length_nil] at hfull
        omega
      have hcons : k :: t.order = (k :: l) ++ [victim] := by
        rw [horder, List.concat_eq_append, List.cons_append]
      obtain ⟨e, hback, he⟩ := hpush.back hcons
      have hnodup := hpush.nodup
      rw [hcons, List.nodup_append] at hnodup
      have hnot : victim ∉ k :: l := fun hvictim =>
        hnodup.2.2 victim hvictim victim List.mem_cons_self rfl
      have herase : (k :: t.order).erase victim = (k :: t.order).dropLast := by
        rw [hcons, List.dropLast_concat, List.erase_append_right _ hnot,
          List.erase_cons_head, List.append_nil]
      have hlast : t.order.getLast?.getD k = victim := by
        rw [horder, List.concat_eq_append, List.getLast?_concat]
        rfl
      rw [exec_evict_of_full (by rwa [hlength]) hback, hlast]
      have hremove := hpush.remove he
      rw [herase] at hremove
      exact (relates_onBase _).recover () _ _ hremove
    next hroom =>
      rw [exec_evict_of_room (by rwa [hlength])]
      exact ⟨rfl, hpush⟩

theorem relates_set (v : Value T) (ttl : Duration) :
    Relates Refines Refines (set base limit maxEntries x k v ttl)
      (VersionedCache.set base limit maxEntries x k v ttl) :=
  Relates.seq (relates_onBase _) fun _ => .seq (relates_onBase _) fun _ => relates_record

variable (law : base.Volatile)

/-- Time passes for the base. -/
def lapse (x : ω) (s : TrackedCache σ) : TrackedCache σ := { s with base := law.lapse x s.base }

variable (limit maxEntries)

def step : Machine (TrackedCache σ) (CacheAction ω T) :=
  CacheAction.step (cache base limit maxEntries) (lapse law)

variable {limit maxEntries}

theorem Refines.step {s s' : TrackedCache σ} (h : Refines s t) {a : CacheAction ω T}
    (hstep : TrackedCache.step limit maxEntries law s a = some s') :
    ∃ t', CacheAction.step (VersionedCache.cache base limit maxEntries)
      (VersionedCache.lapse law) t a = some t' ∧ Refines s' t' := by
  cases a with
  | get x k =>
    cases hstep
    exact ⟨_, rfl, (relates_lookup VersionedValue.latest s t h).2⟩
  | getAt x k i =>
    cases hstep
    exact ⟨_, rfl, (relates_lookup (fun vv => vv.versionAt i) s t h).2⟩
  | set x k v ttl =>
    cases hstep
    exact ⟨_, rfl, (relates_set v ttl s t h).2⟩
  | invalidate x k =>
    cases hstep
    exact ⟨_, rfl, (relates_invalidate s t h).2⟩
  | lapse x =>
    cases hstep
    rw [TrackedCache.lapse, h.base]
    exact ⟨_, rfl, h.onBase _⟩

theorem Refines.tracked_eq (h : Refines s t) : s.tracked = {k | k ∈ t.order} :=
  Set.ext fun _ => h.mem_order_iff.symm

/-! ## The bound -/

theorem run_step_eq_some (limit maxEntries : ℤ) (s : TrackedCache σ) (as : List (CacheAction ω T)) :
    ∃ s', (step limit maxEntries law).run s as = some s' := by
  induction as generalizing s with
  | nil => exact ⟨s, rfl⟩
  | cons a rest ih =>
    obtain ⟨t, ht⟩ : ∃ t, step limit maxEntries law s a = some t := by
      cases a with
      | get | getAt | set | invalidate | lapse => exact ⟨_, rfl⟩
    exact (ih t).imp fun s' hs' => (step limit maxEntries law).run_cons.mpr ⟨t, ht, hs'⟩

/-- What `Set` of a key does to the tracked keys.  The key that it evicts is the
one whose last touch is the oldest. -/
structure SetTracks (maxEntries : ℤ) (touches : List Key)
    (s s' : TrackedCache σ) (k : Key) : Prop where
  keeps : k ∈ s.tracked ∨ s.order.elems.length < maxEntries → s'.tracked = insert k s.tracked
  evicts : k ∉ s.tracked → maxEntries ≤ s.order.elems.length → ∃ victim ∈ s.tracked,
      (∀ k' ∈ s.tracked, k' ≠ victim → age touches k' < age touches victim) ∧
      s'.tracked = insert k (s.tracked \ {victim}) ∧
      victim ∉ law.keys s'.base

theorem setTracks (hpos : 0 < maxEntries) {s s' : TrackedCache σ}
    {touches : List Key} (h : Refines s t)
    (hbounded : VersionedCache.Bounded law maxEntries t touches) {v : Value T} {ttl : Duration}
    (hstep : step limit maxEntries law s (.set x k v ttl) = some s') :
    SetTracks law maxEntries touches s s' k := by
  obtain ⟨t', hexec, hrecorded, -⟩ := VersionedCache.exec_set_recorded law limit x k t hpos v ttl
  obtain ⟨_, ht', h'⟩ := h.step law hstep
  obtain rfl : (exec (VersionedCache.set base limit maxEntries x k v ttl) t).2 =
    _ := Option.some.inj ht'
  rw [hexec] at h'
  have hlength : s.order.elems.length = t.order.length := by
    rw [← h.order, LinkedList.values, List.length_map]
  have hnodup := h.nodup
  have hrecent := hbounded.recent
  rw [← h'.base] at hrecorded
  have htracked' := h'.tracked_eq
  generalize t'.order = order at hrecorded htracked'
  constructor
  all_goals rw [htracked', h.tracked_eq, hlength]
  · intro hk
    cases hrecorded with
    | again hmem =>
      refine Set.ext fun k' => ?_
      have hiff := hnodup.mem_erase_iff (a := k') (b := k)
      by_cases hk' : k' = k
      · simp [hk']
      · simp [hk', hiff]
    | room => exact Set.ext fun k' => List.mem_cons
    | evicted l victim hmem hfull => exact absurd hk (by simp [hmem, hfull])
  · intro hk hfull
    cases hrecorded with
    | again hmem => exact absurd hmem hk
    | room _ hroom => exact absurd hfull (not_le.mpr hroom)
    | evicted l victim _ _ horder hgone =>
      rw [horder, List.nodup_append] at hnodup
      rw [horder, List.pairwise_append] at hrecent
      rw [horder]
      refine ⟨victim, by simp, fun k' hk' hne => ?_, Set.ext fun k' => ?_, hgone⟩
      · refine hrecent.2.2 k' ?_ victim List.mem_cons_self
        exact (List.mem_append.mp hk').resolve_right (by simpa using hne)
      · have hnot : k' ∈ l → k' ≠ victim := fun hl =>
          hnodup.2.2 k' hl victim List.mem_cons_self
        by_cases hl : k' ∈ l
        · simp [hl, hnot hl]
        · simp [hl]

/-- A versioned cache with a bound on its keys, over a base that may lose
entries at any time: the map and the list have the same keys, once each, every
key of the base is among them, and their number is bounded.  `Set` evicts the
key that has not been touched for the longest time, and only when there is one
key too many. -/
theorem run_keyBound (limit : ℤ) (hpos : 0 < maxEntries) {b : σ}
    (hempty : law.keys b = ∅) (as : List (CacheAction ω T)) :
    ∃ s touches, (step limit maxEntries law).run (new b) as = some s ∧
      (step limit maxEntries law).emitted (fun s a => a.touched base s.base) (new b) as = touches ∧
      (∀ k e, s.entries k = some e ↔ (e, k) ∈ s.order.elems) ∧
      s.order.values.Nodup ∧ (∀ k, k ∈ s.order.values ↔ k ∈ s.tracked) ∧
      law.keys s.base ⊆ s.tracked ∧
      s.tracked.encard ≤ maxEntries.toNat ∧
      (law.keys s.base).encard ≤ maxEntries.toNat ∧
      (∀ k ∈ s.tracked, k ∈ touches) ∧
      ∀ x k v ttl s', step limit maxEntries law s (.set x k v ttl) = some s' →
        SetTracks law maxEntries touches s s' k := by
  obtain ⟨s, hrun⟩ := run_step_eq_some law limit maxEntries (new b) as
  obtain ⟨htouches, t, hrun', h⟩ :=
    (step limit maxEntries law).run_simulation (fun s a => a.touched base s.base)
      (CacheAction.step (VersionedCache.cache base limit maxEntries)
        (.lapse law)) (fun t a => a.touched base t.base)
      (R := Refines) (P := fun _ _ => True) (t := ⟨b, []⟩)
      (fun s t a s' h _ hstep => ⟨congrArg (CacheAction.touched base · a) h.base, h.step law hstep⟩)
      hrun (Machine.allSteps_true _ _ _)
      ⟨fun k e => by simp [new, LinkedList.new], rfl, rfl⟩
  have hbounded := Machine.run_history _ (fun t a => a.touched base t.base)
    (I := VersionedCache.Bounded law maxEntries)
    (fun t touches a t' h hstep => h.step law hpos hstep) hrun' (h := [])
    ⟨List.nodup_nil, by simp [hempty], by simpa using hpos.le, List.Pairwise.nil, by simp⟩
  rw [List.nil_append, ← htouches] at hbounded
  have hkeys : law.keys s.base ⊆ s.tracked := by
    rw [h.base, h.tracked_eq]
    exact hbounded.tracked
  have hcard : s.tracked.encard ≤ maxEntries.toNat := by
    have hlength := hbounded.length
    rw [h.tracked_eq, ← List.coe_toFinset, Set.encard_coe_eq_coe_finsetCard, Nat.cast_le]
    exact (List.toFinset_card_le _).trans (by omega)
  refine ⟨s, _, hrun, rfl, h.linked, h.order ▸ h.nodup, fun k => ?_, hkeys, hcard,
    (Set.encard_le_encard hkeys).trans hcard, ?_,
    fun x k v ttl s' => setTracks law hpos h hbounded⟩
  · rw [h.order, h.tracked_eq]
    rfl
  · rw [h.tracked_eq]
    exact hbounded.touched

end TrackedCache

/-! ## A base for examples -/

/-- Keys that have expired. -/
def forget {V : Type} (gone : List Key) (contents : Key → Option V) (k : Key) :
    Option V :=
  if k ∈ gone then none else contents k

/-- A cache that a lookup tells which keys have expired. -/
def forgetfulOps {V : Type} : CacheOps (List Key) V (Key → Option V) where
  get gone k := do
    modify (forget gone)
    let contents ← MonadState.get
    pure (contents k)
  set _ k v _ := modify fun contents => update contents k (some v)
  invalidate _ k := modify fun contents => update contents k none

theorem isSome_forget {V : Type} {gone : List Key} {contents : Key → Option V}
    {k : Key} (h : (forget gone contents k).isSome) : (contents k).isSome := by
  rw [forget] at h
  split at h
  · cases h
  · exact h

def volatile_forgetfulOps {V : Type} :
    (forgetfulOps : CacheOps (List Key) V (Key → Option V)).Volatile where
  keys contents := {k | (contents k).isSome}
  lapse := forget
  get _ _ _ := ⟨_, _, rfl, fun _ => isSome_forget, isSome_forget⟩
  set _ k v _ contents := by
    refine ⟨_, rfl, fun k' (hk' : (update contents k _ k').isSome) => ?_⟩
    by_cases heq : k' = k
    · exact Or.inl heq
    · rw [update_of_ne heq] at hk'
      exact Or.inr hk'
  invalidate _ k contents := by
    refine ⟨_, rfl, fun k' (hk' : (update contents k _ k').isSome) => ?_⟩
    by_cases heq : k' = k
    · simp [heq] at hk'
    · rw [update_of_ne heq] at hk'
      exact ⟨hk', heq⟩
  keys_lapse _ _ _ := isSome_forget

namespace TrackedCache

/-- Two keys are set, the first one is read, and the second one expires. -/
def readFirst : List (CacheAction (List Key) ℕ) :=
  [.set ⟨[], [], []⟩ "a" ⟨1, 1, none, ""⟩ 0,
    .set ⟨[], [], []⟩ "b" ⟨2, 2, none, ""⟩ 0, .get ⟨[], [], []⟩ "a",
    .lapse ["b"]]

theorem run_keyBound_readFirst : 0 < (2 : ℤ) ∧ ∃ s, (step 1 2 volatile_forgetfulOps).run
        (new fun _ => none) readFirst = some s ∧ s.tracked.encard ≤ 2 ∧
      ∀ s', step 1 2 volatile_forgetfulOps s (.set ⟨[], [], []⟩ "c" ⟨3, 3, none, ""⟩ 0) = some s' →
        SetTracks volatile_forgetfulOps 2 ["a", "b", "a"] s s' "c" := by
  obtain ⟨s, touches, hrun, htouches, -, -, -, -, hcard, -, -, hset⟩ :=
    run_keyBound (volatile_forgetfulOps (V := VersionedValue ℕ)) 1
      two_pos (b := fun _ => none) (by simp [volatile_forgetfulOps]) readFirst
  have hreads : touches = ["a", "b", "a"] := htouches.symm.trans rfl
  exact ⟨two_pos, s, hrun, hcard, fun s' => hreads ▸ hset _ _ _ _ s'⟩

end TrackedCache

end GoWarp.Core
