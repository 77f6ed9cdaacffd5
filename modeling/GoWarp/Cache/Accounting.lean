import GoWarp.Cache.Lru
import Mathlib.Algebra.Order.BigOperators.Group.List

/-!
# The accounting of the in-memory cache

After every operation the counter of a cache should be the sum of the sizes of
its entries, the map and the list should hold the same keys, and the limits
should be kept.

`Close` drops the entries and leaves the counter as it is, so that it stays
too high from then on.  A `Set` that makes the counter overflow leaves it
below the sum.  Nothing else breaks the accounting.
-/

namespace GoWarp.Cache

open Support

variable {T : Type}

namespace InMemoryCache

def held (c : InMemoryCache T) : ℤ := (c.items.entries.map fun x => x.2.size.toInt).sum

/-- The counter, the map and the list agree, and the limits are kept. -/
structure Accounted (c : InMemoryCache T) : Prop where
  memory : c.getCurrentMemory.toInt = c.held
  nodup : c.order.values.Nodup
  keys : ∀ key, key ∈ c.order.values ↔ key ∈ c.items
  entries : 0 < c.maxEntries → c.items.entries.length ≤ c.maxEntries
  limit : 0 < c.maxMemory → c.getCurrentMemory ≤ c.maxMemory

/-- The entries that a `Set` leaves before it looks at the memory. -/
def pending (size : T → Int64) (c : InMemoryCache T) (now : Instant)
    (key : Key) (value : T) (ttl : Duration) : List (Entry T) :=
  Lru.limitEntries c.maxEntries (⟨key, value, (size value).toInt, Lru.expiry now ttl⟩ ::
      Lru.remove c.entries key)

/-- A `Set` does not make the sizes add up to `2 ^ 63`, and the cache is
closed only when the sizes of its entries add up to nothing. -/
def KeepsAccount (size : T → Int64) (c : InMemoryCache T) : Action T → Prop
  | .set ctx now key value ttl => ctx = Ctx.live →
      Lru.total (c.pending size now key value ttl) < 2 ^ 63
  | .close => c.held = 0
  | _ => True

instance (size : T → Int64) (c : InMemoryCache T) : DecidablePred (c.KeepsAccount size)
  | .get .. => isTrue trivial
  | .set .. => inferInstanceAs (Decidable (_ → _))
  | .invalidate .. => isTrue trivial
  | .sweep .. => isTrue trivial
  | .close => inferInstanceAs (Decidable (_ = _))

end InMemoryCache

/-! ## Sums of sizes -/

namespace Lru

variable {l l' : List (Entry T)} {maxMemory : ℤ}

def Nonneg (l : List (Entry T)) : Prop := ∀ entry ∈ l, 0 ≤ entry.size

theorem Nonneg.total_nonneg (h : Nonneg l) : 0 ≤ total l := by
  refine List.sum_nonneg fun n hn => ?_
  obtain ⟨entry, hentry, rfl⟩ := List.mem_map.mp hn
  exact h entry hentry

theorem Nonneg.of_subperm (h : Nonneg l) (hsub : l'.Subperm l) : Nonneg l' :=
  fun entry hentry => h entry (hsub.subset hentry)

theorem Nonneg.total_le (h : Nonneg l) (hsub : l'.Subperm l) : total l' ≤ total l := by
  obtain ⟨l₁, hperm, hsub⟩ := hsub
  rw [total, ← (hperm.map Entry.size).sum_eq]
  refine (hsub.map Entry.size).sum_le_sum fun n hn => ?_
  obtain ⟨entry, hentry, rfl⟩ := List.mem_map.mp hn
  exact h entry hentry

theorem dropOver_suffix (maxMemory : ℤ) (l : List (Entry T)) : dropOver maxMemory l <:+ l := by
  induction l with
  | nil => exact List.suffix_refl []
  | cons entry rest ih =>
    rw [dropOver]
    split
    · exact ih.trans (List.suffix_cons entry rest)
    · exact List.suffix_refl _

theorem total_dropOver_le (hmax : 0 < maxMemory) (l : List (Entry T)) :
    total (dropOver maxMemory l) ≤ maxMemory := by
  induction l with
  | nil => exact hmax.le
  | cons entry rest ih =>
    rw [dropOver]
    split
    · exact ih
    · rename_i hle
      exact Int.not_lt.mp hle

theorem fits_of_nonneg (h : Nonneg l) (htotal : total l < 2 ^ 63) : Fits maxMemory l := by
  induction l with
  | nil => trivial
  | cons entry rest ih =>
    have hnonneg := h.total_nonneg
    have hrest : Nonneg rest := fun e he => h e (List.mem_cons_of_mem entry he)
    have hle : total rest ≤ total (entry :: rest) :=
      h.total_le (List.sublist_cons_self entry rest).subperm
    exact ⟨⟨by omega, htotal⟩, fun _ => ih hrest (by omega)⟩

theorem limitEntries_sublist (maxEntries : ℤ) (l : List (Entry T)) :
    (limitEntries maxEntries l).Sublist l := by
  rw [limitEntries]
  split
  · exact List.dropLast_sublist l
  · exact .refl l

theorem length_limitEntries_le {maxEntries : ℤ} (hpos : 0 < maxEntries)
    (hlength : l.length ≤ maxEntries + 1) :
    (limitEntries maxEntries l).length ≤ maxEntries := by
  rw [limitEntries]
  split
  · rw [List.length_dropLast]
    omega
  · rename_i hle
    omega

theorem limitMemory_sublist (maxMemory : ℤ) (l : List (Entry T)) :
    (limitMemory maxMemory l).Sublist l := by
  rw [limitMemory]
  split
  · have hsuffix := dropOver_suffix maxMemory l.reverse
    rw [← List.reverse_sublist, List.reverse_reverse]
    exact hsuffix.sublist
  · exact .refl l

theorem total_limitMemory_le (hmax : 0 < maxMemory) (l : List (Entry T)) :
    total (limitMemory maxMemory l) ≤ maxMemory := by
  rw [limitMemory, if_pos hmax, total_reverse]
  exact total_dropOver_le hmax _

end Lru

/-! ## What keeps the account -/

namespace InMemoryCache

variable {c c' : InMemoryCache T} {l : List (Entry T)} {maxEntries : ℤ}
  {maxMemory : Int64} {size : T → Int64}

theorem Linked.held_eq (h : c.Linked) : c.held = Lru.total c.entries := by
  have hvalues : c.entries = c.order.values.filterMap fun key =>
      (c.items.lookup key).map fun it => it.entry key := by
    rw [LinkedList.values, List.filterMap_map]
    rfl
  have hkeys : (c.items.entries.map fun x => x.2.entry x.1) = c.items.keys.filterMap fun key =>
        (c.items.lookup key).map fun it => it.entry key := by
    rw [AList.keys, List.keys, List.filterMap_map, ← List.filterMap_eq_map]
    refine List.filterMap_congr fun x hx => ?_
    have hx' : c.items.lookup x.1 = some x.2 := AList.mem_lookup_iff.mpr hx
    simp [hx']
  have hperm : (c.items.entries.map fun x => x.2.entry x.1).Perm c.entries := by
    rw [hvalues, hkeys]
    refine .filterMap _ ((List.perm_ext_iff_of_nodup
      c.items.keys_nodup h.nodup_values).mpr fun key => ?_)
    rw [h.mem_values_iff, AList.mem_keys]
  have hsum := (hperm.map Entry.size).sum_eq
  rwa [List.map_map] at hsum

structure Balanced (c : InMemoryCache T) : Prop where
  linked : c.Linked
  accounted : c.Accounted
  nonneg : Lru.Nonneg c.entries

theorem Balanced.total_lt (h : c.Balanced) : Lru.total c.entries < 2 ^ 63 := by
  rw [← h.linked.held_eq, ← h.accounted.memory]
  exact Int64.toInt_lt _

theorem Balanced.refines (h : c.Balanced) : Refines c.maxEntries c.maxMemory c c.entries where
  linked := h.linked
  counted := by
    rw [Counted, ← h.linked.held_eq, ← h.accounted.memory, getCurrentMemory, Int64.ofInt_toInt]
  entries := rfl
  maxEntries := rfl
  maxMemory := rfl

theorem Refines.balanced (h : Refines maxEntries maxMemory c l)
    (hnonneg : Lru.Nonneg l) (hhigh : Lru.total l < 2 ^ 63)
    (hentries : 0 < maxEntries → l.length ≤ maxEntries)
    (hlimit : 0 < maxMemory → Lru.total l ≤ maxMemory.toInt) :
    c.Balanced := by
  have hlow := hnonneg.total_nonneg
  have hmemory : c.getCurrentMemory.toInt = Lru.total l := by
    rw [getCurrentMemory, h.counted, h.entries]
    exact Int64.toInt_ofInt_of_le (by omega) hhigh
  refine ⟨h.linked, ⟨?_, h.linked.nodup_values,
    fun key => h.linked.mem_values_iff, ?_, ?_⟩, h.entries ▸ hnonneg⟩
  · rw [hmemory, h.linked.held_eq, h.entries]
  · rw [h.maxEntries, ← h.linked.length_entries, h.entries]
    exact hentries
  · rw [h.maxMemory, Int64.le_iff_toInt_le, hmemory]
    exact hlimit

theorem Balanced.of_subperm (h : c.Balanced) (hrefines : Refines c.maxEntries c.maxMemory c' l)
    (hsub : l.Subperm c.entries) : c'.Balanced := by
  refine hrefines.balanced (h.nonneg.of_subperm hsub) ?_ (fun hpos => ?_) fun hpos => ?_
  · exact (h.nonneg.total_le hsub).trans_lt h.total_lt
  · have hlength := hsub.length_le
    have hmax := h.accounted.entries hpos
    rw [← h.linked.length_entries] at hmax
    omega
  · have hmax := h.accounted.limit hpos
    rw [Int64.le_iff_toInt_le, h.accounted.memory, h.linked.held_eq] at hmax
    exact (h.nonneg.total_le hsub).trans hmax

/-! ## Get and Set -/

theorem Linked.get_subperm (h : c.Linked) (now : Instant) (key : Key) :
    (Lru.get c.entries now key).2.Subperm c.entries := by
  rw [Lru.get]
  cases hlookup : c.items.lookup key with
  | none =>
    rw [h.find_entries_none hlookup]
  | some it =>
    rw [h.find_entries hlookup]
    dsimp only
    split
    · exact List.filter_sublist.subperm
    · exact (h.perm_entries hlookup).symm.subperm

theorem Balanced.get (h : c.Balanced) (ctx : Ctx) (now : Instant) (key : Key) :
    (c.get ctx now key).2.Balanced := by
  by_cases hearly : ctx.early = true
  · rw [InMemoryCache.get, if_pos hearly]
    exact h
  · have hget := h.refines.get_of_live ctx (Bool.eq_false_iff.mpr hearly) now key
    exact h.of_subperm hget.1 (h.linked.get_subperm now key)

section Set

variable (now : Instant) (key : Key) {value : T} (ttl : Duration)

theorem Balanced.refines_pending (h : c.Balanced) (size : T → Int64) (value : T) :
    Refines c.maxEntries c.maxMemory
      (c.store key value (size value) (expiry now ttl)).enforceMaxEntries
      (c.pending size now key value ttl) := by
  have hstore := h.refines.store key value (size value) (expiry now ttl)
  rw [Refines.expiry_eq] at hstore
  exact hstore.enforceMaxEntries

theorem Balanced.nonneg_stored (h : c.Balanced) (hsize : 0 ≤ (size value).toInt) :
    Lru.Nonneg (⟨key, value, (size value).toInt, Lru.expiry now ttl⟩ ::
      Lru.remove c.entries key) := by
  intro entry hentry
  rcases List.mem_cons.mp hentry with rfl | hentry
  · exact hsize
  · exact h.nonneg entry (List.mem_of_mem_filter hentry)

theorem Balanced.nonneg_pending (h : c.Balanced) (hsize : 0 ≤ (size value).toInt) :
    Lru.Nonneg (c.pending size now key value ttl) :=
  (h.nonneg_stored now key ttl hsize).of_subperm (Lru.limitEntries_sublist _ _).subperm

variable {now : Instant} {key : Key} {ttl : Duration}

theorem Balanced.set (h : c.Balanced) (hsize : 0 ≤ (size value).toInt)
    (htotal : Lru.total (c.pending size now key value ttl) < 2 ^ 63) :
    (c.set size Ctx.live now key value ttl).2.Balanced := by
  have hnonneg := h.nonneg_pending now key ttl hsize
  have hsub := Lru.limitMemory_sublist c.maxMemory.toInt (c.pending size now key value ttl)
  have hpending := h.refines_pending now key ttl size value
  refine (hpending.enforceMaxMemory fun _ => ?_).balanced (hnonneg.of_subperm hsub.subperm)
    ((hnonneg.total_le hsub.subperm).trans_lt htotal) (fun hpos => ?_)
    fun hpos => ?_
  · refine Lru.fits_of_nonneg (hnonneg.of_subperm (List.reverse_perm _).subperm) ?_
    rwa [Lru.total_reverse]
  · have hmax := h.accounted.entries hpos
    rw [← h.linked.length_entries] at hmax
    have hremove : (Lru.remove c.entries key).length ≤ c.entries.length := List.length_filter_le _ _
    have hmost : (c.pending size now key value ttl).length ≤
        c.maxEntries := by
      refine Lru.length_limitEntries_le hpos ?_
      rw [List.length_cons]
      omega
    have hlength := hsub.length_le
    omega
  · exact Lru.total_limitMemory_le (Int64.lt_iff_toInt_lt.mp hpos) _

theorem Balanced.not_accounted_set (h : c.Balanced) (hsize : 0 ≤ (size value).toInt)
    (htotal : ¬Lru.total (c.pending size now key value ttl) < 2 ^ 63) :
    ¬(c.set size Ctx.live now key value ttl).2.Accounted := by
  have hpending := h.refines_pending now key ttl size value
  generalize hl : c.pending size now key value ttl = l at hpending htotal
  generalize hc' : (c.store key value (size value)
    (expiry now ttl)).enforceMaxEntries = c' at hpending
  have hupper : Lru.total l < 2 ^ 64 := by
    have hle := (h.nonneg_stored now key ttl hsize).total_le
      (Lru.limitEntries_sublist c.maxEntries _).subperm
    have hremove : Lru.total (Lru.remove c.entries key) ≤
        Lru.total c.entries :=
      h.nonneg.total_le List.filter_sublist.subperm
    have hheld := h.total_lt
    have hnew := Int64.toInt_lt (size value)
    change Lru.total (c.pending size now key value ttl) ≤
      (size value).toInt + Lru.total (Lru.remove c.entries key) at hle
    rw [hl] at hle
    omega
  have hmemory : c'.currentMemory.toInt = Lru.total l - 2 ^ 64 := by
    rw [hpending.counted, hpending.entries, Int64.toInt_ofInt, Int64.size, Int.bmod_def]
    omega
  have hsame : c'.enforceMaxMemory = c' := by
    rw [enforceMaxMemory]
    split
    · rename_i hpos
      have hle : ¬c'.maxMemory < c'.currentMemory := by
        rw [Int64.lt_iff_toInt_lt] at hpos ⊢
        rw [hmemory]
        change 0 < c'.maxMemory.toInt at hpos
        omega
      cases c'.order.elems.length with
      | zero => rfl
      | succ n => rw [evictLoop, if_neg hle]
    · rfl
  intro haccounted
  have hset : (c.set size Ctx.live now key value ttl).2 = c' := by
    rw [InMemoryCache.set, if_neg (by decide), hc', hsame]
  rw [hset] at haccounted
  have hheld := haccounted.memory
  rw [hpending.linked.held_eq, hpending.entries, getCurrentMemory, hmemory] at hheld
  omega

end Set

/-! ## Runs -/

theorem done_of_ne_live {ctx : Ctx} (h : ctx ≠ Ctx.live) : ctx.early = true ∨ ctx.late = true := by
  rcases ctx with ⟨_ | _, _ | _⟩
  · exact absurd rfl h
  · exact .inr rfl
  · exact .inl rfl
  · exact .inl rfl

theorem set_of_done {ctx : Ctx} (h : ctx ≠ Ctx.live) (now : Instant)
    (key : Key) (value : T) (ttl : Duration) :
    (c.set size ctx now key value ttl).2 = c := by
  rw [InMemoryCache.set, if_pos (done_of_ne_live h)]

theorem Balanced.invalidate (h : c.Balanced) (ctx : Ctx) (key : Key) :
    (c.invalidate ctx key).2.Balanced := by
  by_cases hdone : ctx.early = true ∨ ctx.late = true
  · rw [InMemoryCache.invalidate, if_pos hdone]
    exact h
  · exact h.of_subperm (h.refines.invalidate_of_live ctx hdone key).2 List.filter_sublist.subperm

theorem Balanced.close (h : c.Balanced) (hheld : c.held = 0) : c.close.Balanced where
  linked := by
    refine ⟨fun key it hit => ?_, fun e key hx => ?_⟩
    · cases hit
    · cases hx
  accounted := by
    refine ⟨h.accounted.memory.trans hheld, List.nodup_nil, fun key => ?_,
      fun hpos => ?_, h.accounted.limit⟩
    · exact iff_of_false (List.not_mem_nil) (AList.notMem_empty key)
    · exact hpos.le
  nonneg := fun entry hentry => by cases hentry

theorem Balanced.step (h : c.Balanced) (hsize : ∀ v, 0 ≤ (size v).toInt)
    {a : Action T} (hkeeps : c.KeepsAccount size a)
    (hstep : step size c a = some c') : c'.Balanced := by
  cases a with
  | get ctx now key =>
    cases hstep
    exact h.get ctx now key
  | set ctx now key value ttl =>
    cases hstep
    by_cases hlive : ctx = Ctx.live
    · subst hlive
      exact h.set (hsize value) (hkeeps rfl)
    · rw [set_of_done hlive]
      exact h
  | invalidate ctx key =>
    cases hstep
    exact h.invalidate ctx key
  | sweep now sample =>
    obtain ⟨-, hc'⟩ := Option.ite_none_right_eq_some.mp hstep
    cases hc'
    exact h.of_subperm (h.refines.sweep now sample) List.filter_sublist.subperm
  | close =>
    cases hstep
    exact h.close hkeeps

theorem Balanced.keepsAccount (h : c.Balanced) (hsize : ∀ v, 0 ≤ (size v).toInt) {a : Action T}
    (hstep : InMemoryCache.step size c a = some c') (haccounted : c'.Accounted) :
    c.KeepsAccount size a := by
  cases a with
  | set ctx now key value ttl =>
    cases hstep
    rintro rfl
    by_contra htotal
    exact h.not_accounted_set (hsize value) htotal haccounted
  | close =>
    cases hstep
    exact h.accounted.memory.symm.trans haccounted.memory
  | _ => trivial

theorem balanced_new (maxEntries : ℤ) (maxMemory : Int64) :
    (new maxEntries maxMemory : InMemoryCache T).Balanced :=
  (refines_new maxEntries maxMemory).balanced (fun _ h => by cases h)
    (show (0 : ℤ) < 2 ^ 63 by decide) (fun hpos => hpos.le)
    fun hpos => (Int64.lt_iff_toInt_lt.mp hpos).le

/-- The accounts are right after every operation of a run exactly if no `Set`
makes the sizes overflow and the cache is closed only when the sizes add up to
nothing. -/
theorem accounted_iff (size : T → Int64) (hsize : ∀ v, 0 ≤ (size v).toInt)
    (maxEntries : ℤ) (maxMemory : Int64) (steps : List (Action T))
    (c : InMemoryCache T)
    (hrun : (step size).run (new maxEntries maxMemory) steps = some c) :
    (∀ before t, before <+: steps → (step size).run (new maxEntries maxMemory) before = some t →
        t.Accounted) ↔
      (step size).AllSteps (KeepsAccount size) (new maxEntries maxMemory)
        steps :=
  (step size).forall_states_iff_allSteps (fun _ _ _ h hkeeps hstep => h.step hsize hkeeps hstep)
    (fun _ h => h.accounted)
    (fun _ _ _ h hstep haccounted => h.keepsAccount hsize hstep haccounted)
    hrun (balanced_new maxEntries maxMemory)

/-- `EstimateSize` of a `bool`. -/
def boolSize : Bool → Int64 := fun _ => 1

/-- A cache that is closed while it holds an entry. -/
def closeSteps : List (Action Bool) := [.set Ctx.live 1 "a" true 0, .close]

/-- The size of the entry stays in the counter. -/
theorem miscounts_closed : ∃ c, (step boolSize).run (new 0 0) closeSteps = some c ∧
      c.getCurrentMemory = 1 ∧ c.held = 0 ∧ ¬c.Accounted := by
  refine ⟨_, rfl, by decide, by decide, fun h => ?_⟩
  exact absurd h.memory (by decide)

/-- A cache for one byte is filled twice, emptied, closed and filled again. -/
def reopenSteps : List (Action Bool) :=
  [.set Ctx.live 1 "a" true 0, .set Ctx.live 2 "b" false 0,
    .invalidate Ctx.live "b", .close, .set Ctx.live 3 "c" true 0]

theorem accounted_reopenSteps : ((step boolSize).run (new 0 1) reopenSteps).isSome ∧
      ∀ before t, before <+: reopenSteps →
        (step boolSize).run (new 0 1) before = some t → t.Accounted := by
  have hsome : ((step boolSize).run (new 0 1) reopenSteps).isSome := by decide
  obtain ⟨c, hrun⟩ := Option.isSome_iff_exists.mp hsome
  have h := accounted_iff boolSize (by decide) 0 1 reopenSteps c hrun
  exact ⟨hsome, h.mpr (by decide)⟩

end InMemoryCache

end GoWarp.Cache
