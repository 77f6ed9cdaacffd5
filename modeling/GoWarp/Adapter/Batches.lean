import GoWarp.Core.Commit
import GoWarp.Support.BulkWrite
import Mathlib.Data.List.Induction

/-!
# Batches of the three stores

A batch of each store collects the values that are set in a map and the keys
that are deleted in a list.  `Commit` of the in-memory store and of the GORM
store apply the deletes and then the sets, and `Commit` of the Redis store
applies the sets and then the deletes.  The map is iterated in any order.  Redis
and the database hold encoded values; the commands of a pipeline and the
statements of a transaction are executed in order.

For a key that is both set and deleted, the stores thus differ, and at least one
of them does not do what the calls say.
-/

namespace GoWarp.Adapter

open Support

abbrev Key := String

abbrev Bytes := List UInt8

/-- The errors that the stores tell apart. -/
inductive Err where
  | deadlineExceeded
  | redisClosed
  | timeout
  | connectionClosed
  | other (text : String)
deriving DecidableEq

variable {T : Type}

/-! ## The code -/

structure Codec (T : Type) where
  marshal : T → Except Err Bytes
  unmarshal : Bytes → Except Err T

/-- `inMemoryBatch`, `redisBatch` and `gormBatch`. -/
structure Batch (T : Type) where
  sets : AList fun _ : Key => T
  deletes : List Key

namespace Batch

/-- `Batch` of a store. -/
def new : Batch T := ⟨∅, []⟩

def set (b : Batch T) (key : Key) (value : T) : Batch T :=
  { b with sets := b.sets.insert key value }

def delete (b : Batch T) (key : Key) : Batch T := { b with deletes := b.deletes ++ [key] }

end Batch

/-- The errors that a `Commit` meets: of its context at the beginning, of the
delete and of the upserts of a transaction, and of the pipeline or the transaction
as a whole. -/
structure Faults where
  context : Option Err
  delete : Option Err
  create : Option Err
  exec : Option Err
deriving DecidableEq

/-- How an error of the context or of the database is reported. -/
def timeoutErr : Err → Err
  | .deadlineExceeded => .timeout
  | e => e

/-- How an error of Redis is reported. -/
def redisErr : Err → Err
  | .deadlineExceeded => .timeout
  | .redisClosed => .connectionClosed
  | e => e

def failOn (fault : Option Err) : Except Err Unit :=
  match fault with
  | none => .ok ()
  | some e => .error e

/-- The loop that encodes the entries of a map. -/
def marshalAll (codec : Codec T) :
    List (Sigma fun _ : Key => T) → Except Err (List (Sigma fun _ : Key => Bytes))
  | [] => .ok []
  | e :: entries => do
      let data ← codec.marshal e.2
      let rest ← marshalAll codec entries
      return ⟨e.1, data⟩ :: rest

/-- `inMemoryBatch.Commit`; `entries` are those of the map, in the order of the
iteration. -/
def inMemoryCommit (b : Batch T) (entries : List (Sigma fun _ : Key => T))
    (items : Key → Option T) : Key → Option T :=
  putAll (dropAll items b.deletes) entries

inductive Command where
  | set (key : Key) (data : Bytes)
  | del (keys : List Key)
deriving DecidableEq

def Command.exec (items : Key → Option Bytes) : Command → Key → Option Bytes
  | .set key data => Function.update items key (some data)
  | .del keys => dropAll items keys

/-- `redisBatch.Commit`. -/
def redisCommit (codec : Codec T) (faults : Faults) (b : Batch T)
    (entries : List (Sigma fun _ : Key => T)) (items : Key → Option Bytes) :
    Except Err (Key → Option Bytes) := do
  failOn (faults.context.map timeoutErr)
  let data ← marshalAll codec entries
  let pipe := data.map (fun e => Command.set e.1 e.2) ++
    if b.deletes = [] then [] else [.del b.deletes]
  failOn (faults.exec.map redisErr)
  return pipe.foldl Command.exec items

inductive Statement where
  | delete (keys : List Key)
  | upsert (rows : List (Sigma fun _ : Key => Bytes))
deriving DecidableEq

def Statement.exec (items : Key → Option Bytes) : Statement → Key → Option Bytes
  | .delete keys => dropAll items keys
  | .upsert rows => putAll items rows

/-- `CreateInBatches`: slices of at most `size` rows, for at most `fuel`
rounds. -/
def createInBatches (size : ℕ) : ℕ → List (Sigma fun _ : Key => Bytes) → List Statement
  | 0, _ => []
  | _, [] => []
  | fuel + 1, row :: rows =>
    .upsert ((row :: rows).take size) :: createInBatches size fuel ((row :: rows).drop size)

/-- `gormBatch.Commit`. -/
def gormCommit (codec : Codec T) (faults : Faults) (b : Batch T)
    (entries : List (Sigma fun _ : Key => T)) (items : Key → Option Bytes) :
    Except Err (Key → Option Bytes) := do
  failOn (faults.context.map timeoutErr)
  failOn (if b.deletes = [] then none else faults.delete.map timeoutErr)
  let rows ← (marshalAll codec entries).mapError timeoutErr
  failOn (if rows = [] then none else faults.create.map timeoutErr)
  let transaction := (if b.deletes = [] then [] else [.delete b.deletes]) ++
    createInBatches 100 rows.length rows
  failOn (faults.exec.map timeoutErr)
  return transaction.foldl Statement.exec items

/-! ## What is asked of a batch -/

inductive Call (T : Type) where
  | set (key : Key) (value : T)
  | delete (key : Key)

def Batch.apply (b : Batch T) : Call T → Batch T
  | .set key value => b.set key value
  | .delete key => b.delete key

def Batch.ofCalls (calls : List (Call T)) : Batch T := calls.foldl Batch.apply .new

/-- The effect of a call on the contents of a store. -/
def Call.effect (contents : Key → Option T) : Call T → Key → Option T
  | .set key value => Function.update contents key (some value)
  | .delete key => Function.update contents key none

def inOrder (calls : List (Call T)) (contents : Key → Option T) : Key → Option T :=
  calls.foldl Call.effect contents

/-- What the codec encodes it decodes again. -/
def Codec.Lossless (codec : Codec T) : Prop :=
  ∀ v data, codec.marshal v = .ok data → codec.unmarshal data = .ok v

/-- The store holds the same keys, with values that decode to the contents. -/
def Represents (codec : Codec T) (items : Key → Option Bytes) (contents : Key → Option T) : Prop :=
  ∀ k, (items k).map codec.unmarshal = (contents k).map .ok

def Sets (calls : List (Call T)) (k : Key) : Prop := ∃ v, .set k v ∈ calls

def Deletes (calls : List (Call T)) (k : Key) : Prop := .delete k ∈ calls

/-! ## What each commit leaves -/

/-- The deletes come first. -/
def setsLast (b : Batch T) (contents : Key → Option T) : Key → Option T :=
  Core.Batch.commit ⟨fun k => b.sets.lookup k, b.deletes⟩ contents

/-- The sets come first. -/
def deletesLast (b : Batch T) (contents : Key → Option T) : Key → Option T :=
  fun k => if k ∈ b.deletes then none else (b.sets.lookup k).or (contents k)

theorem setsLast_apply (b : Batch T) (contents : Key → Option T) (k : Key) :
    setsLast b contents k = (b.sets.lookup k).or (if k ∈ b.deletes then none else contents k) := by
  rw [setsLast, Core.Batch.commit]
  dsimp only
  rcases b.sets.lookup k with _ | v
  · rfl
  · rfl

theorem exists_of_bind_ok {α β : Type} {x : Except Err α}
    {f : α → Except Err β} {r : β} (h : x >>= f = .ok r) :
    ∃ a, x = .ok a ∧ f a = .ok r := by
  cases x with
  | error e => cases h
  | ok a => exact ⟨a, rfl, h⟩

theorem foldl_createInBatches {size : ℕ} (hsize : 0 < size) {fuel : ℕ}
    {rows : List (Sigma fun _ : Key => Bytes)} (hfuel : rows.length ≤ fuel)
    (items : Key → Option Bytes) :
    (createInBatches size fuel rows).foldl Statement.exec items =
      putAll items rows := by
  induction fuel generalizing rows items with
  | zero =>
    rw [List.length_eq_zero_iff.mp (Nat.le_zero.mp hfuel)]
    rfl
  | succ fuel ih =>
    cases rows with
    | nil => rfl
    | cons row rows =>
      have hrest : ((row :: rows).drop size).length ≤ fuel := by
        rw [List.length_drop]
        omega
      rw [createInBatches, List.foldl_cons, ih hrest, Statement.exec,
        ← putAll_append, List.take_append_drop]

theorem marshalAll_ok {codec : Codec T} (hcodec : codec.Lossless)
    {entries : List (Sigma fun _ : Key => T)} {data : List (Sigma fun _ : Key => Bytes)}
    (h : marshalAll codec entries = .ok data) :
    data.keys = entries.keys ∧ ∀ k, (data.dlookup k).map codec.unmarshal =
        (entries.dlookup k).map .ok := by
  induction entries generalizing data with
  | nil =>
    obtain rfl := Except.ok.inj h
    exact ⟨rfl, fun _ => rfl⟩
  | cons e entries ih =>
    obtain ⟨d, hd, h⟩ := exists_of_bind_ok h
    obtain ⟨rest, hrest, h⟩ := exists_of_bind_ok h
    obtain rfl := Except.ok.inj h
    obtain ⟨hkeys, hlookup⟩ := ih hrest
    constructor
    · rw [List.keys_cons, List.keys_cons, hkeys]
    · intro k
      by_cases hk : k = e.1
      · subst hk
        rw [List.dlookup_cons_eq, List.dlookup_cons_eq, Option.map_some,
          Option.map_some, hcodec _ _ hd]
      · rw [List.dlookup_cons_ne rest ⟨e.1, d⟩ hk, List.dlookup_cons_ne entries e hk, hlookup k]

section Commits

variable {b : Batch T} {entries : List (Sigma fun _ : Key => T)}
  (hentries : entries.Perm b.sets.entries)

include hentries

theorem inMemoryCommit_eq (contents : Key → Option T) :
    inMemoryCommit b entries contents = setsLast b contents := by
  have hnodup := (List.perm_nodupKeys hentries).mpr b.sets.nodupKeys
  funext k
  rw [inMemoryCommit, putAll_apply hnodup, dropAll_apply, setsLast_apply,
    List.perm_dlookup k hnodup hentries]
  rfl

variable {codec : Codec T} (hcodec : codec.Lossless) {faults : Faults}
  {items items' : Key → Option Bytes} {contents : Key → Option T}

include hcodec

theorem represents_putAll {data : List (Sigma fun _ : Key => Bytes)}
    (hdata : marshalAll codec entries = .ok data) (hitems : Represents codec items contents) :
    Represents codec (putAll items data) fun k => (b.sets.lookup k).or (contents k) := by
  have hnodup := (List.perm_nodupKeys hentries).mpr b.sets.nodupKeys
  obtain ⟨hkeys, hlookup⟩ := marshalAll_ok hcodec hdata
  intro k
  have hnodup' : data.NodupKeys := by
    rw [List.NodupKeys, hkeys]
    exact hnodup
  rw [putAll_apply hnodup', Option.map_or, Option.map_or, hlookup k, hitems k,
    List.perm_dlookup k hnodup hentries]
  rfl

omit hentries hcodec in
theorem represents_dropAll (hitems : Represents codec items contents) (keys : List Key) :
    Represents codec (dropAll items keys) fun k => if k ∈ keys then none else contents k := by
  intro k
  dsimp only
  rw [dropAll_apply]
  split
  · rfl
  · exact hitems k

theorem represents_redisCommit (hitems : Represents codec items contents)
    (hcommit : redisCommit codec faults b entries items = .ok items') :
    Represents codec items' (deletesLast b contents) := by
  obtain ⟨-, -, hcommit⟩ := exists_of_bind_ok hcommit
  obtain ⟨data, hdata, hcommit⟩ := exists_of_bind_ok hcommit
  obtain ⟨-, -, hcommit⟩ := exists_of_bind_ok hcommit
  have hsets := represents_putAll hentries hcodec hdata hitems
  have hexec : items' = dropAll (putAll items data) b.deletes := by
    rw [← Except.ok.inj hcommit, List.foldl_append, List.foldl_map]
    split
    · rename_i hnil
      rw [hnil]
      rfl
    · rfl
  rw [hexec]
  exact represents_dropAll hsets b.deletes

theorem represents_gormCommit (hitems : Represents codec items contents)
    (hcommit : gormCommit codec faults b entries items = .ok items') :
    Represents codec items' (setsLast b contents) := by
  obtain ⟨-, -, hcommit⟩ := exists_of_bind_ok hcommit
  obtain ⟨-, -, hcommit⟩ := exists_of_bind_ok hcommit
  obtain ⟨rows, hrows, hcommit⟩ := exists_of_bind_ok hcommit
  obtain ⟨-, -, hcommit⟩ := exists_of_bind_ok hcommit
  obtain ⟨-, -, hcommit⟩ := exists_of_bind_ok hcommit
  have hdata : marshalAll codec entries = .ok rows := by
    rcases hall : marshalAll codec entries with e | data
    · rw [hall] at hrows
      cases hrows
    · rw [hall] at hrows
      exact hrows
  have hexec : items' = putAll (dropAll items b.deletes) rows := by
    rw [← Except.ok.inj hcommit, List.foldl_append, foldl_createInBatches (by decide) le_rfl]
    split
    · rename_i hnil
      rw [hnil]
      rfl
    · rfl
  have hsets := represents_putAll hentries hcodec hdata (represents_dropAll hitems b.deletes)
  rw [hexec]
  intro k
  rw [hsets k, setsLast_apply]

end Commits

/-! ## The calls in order -/

section InOrder

variable {calls : List (Call T)} {k : Key}

theorem ofCalls_concat (calls : List (Call T)) (call : Call T) :
    Batch.ofCalls (calls ++ [call]) = (Batch.ofCalls calls).apply call :=
  List.foldl_concat _ _ _ _

theorem inOrder_concat (calls : List (Call T)) (call : Call T) (contents : Key → Option T) :
    inOrder (calls ++ [call]) contents = call.effect (inOrder calls contents) :=
  List.foldl_concat _ _ _ _

theorem mem_deletes_ofCalls : k ∈ (Batch.ofCalls calls).deletes ↔ Deletes calls k := by
  induction calls using List.reverseRecOn with
  | nil => simp [Batch.ofCalls, Batch.new, Deletes]
  | append_singleton calls call ih =>
    rw [ofCalls_concat]
    cases call with
    | set key value => simp [Batch.apply, Batch.set, ih, Deletes]
    | delete key => simp [Batch.apply, Batch.delete, ih, Deletes]

theorem lookup_ofCalls_isSome : ((Batch.ofCalls calls).sets.lookup k).isSome ↔ Sets calls k := by
  induction calls using List.reverseRecOn with
  | nil => simp [Batch.ofCalls, Batch.new, Sets]
  | append_singleton calls call ih =>
    rw [ofCalls_concat]
    cases call with
    | set key value =>
      by_cases hk : k = key
      · subst hk
        simp [Batch.apply, Batch.set, Sets]
      · simp [Batch.apply, Batch.set, Sets, hk, AList.lookup_insert_ne, ih]
    | delete key => simp [Batch.apply, Batch.delete, Sets, ih]

theorem inOrder_of_not_deletes (h : ¬Deletes calls k) (contents : Key → Option T) :
    inOrder calls contents k = ((Batch.ofCalls calls).sets.lookup k).or (contents k) := by
  induction calls using List.reverseRecOn with
  | nil => rfl
  | append_singleton calls call ih =>
    rw [Deletes, List.mem_append, not_or, List.mem_singleton] at h
    rw [ofCalls_concat, inOrder_concat]
    cases call with
    | set key value =>
      by_cases hk : k = key
      · subst hk
        simp [Call.effect, Batch.apply, Batch.set]
      · simp [Call.effect, Batch.apply, Batch.set, hk, AList.lookup_insert_ne, ih h.1]
    | delete key =>
      have hk : k ≠ key := fun heq => h.2 (heq ▸ rfl)
      simp [Call.effect, Batch.apply, Batch.delete, hk, ih h.1]

theorem inOrder_of_not_sets (h : ¬Sets calls k) (contents : Key → Option T) :
    inOrder calls contents k =
      if k ∈ (Batch.ofCalls calls).deletes then none else contents k := by
  induction calls using List.reverseRecOn with
  | nil => rfl
  | append_singleton calls call ih =>
    have hbefore : ¬Sets calls k := by
      rintro ⟨v, hv⟩
      exact h ⟨v, List.mem_append_left _ hv⟩
    rw [ofCalls_concat, inOrder_concat]
    cases call with
    | set key value =>
      have hk : k ≠ key := by
        rintro rfl
        exact h ⟨value, by simp⟩
      exact (Function.update_of_ne hk _ _).trans (ih hbefore)
    | delete key =>
      by_cases hk : k = key
      · simp [Call.effect, Batch.apply, Batch.delete, hk]
      · simp [Call.effect, Batch.apply, Batch.delete, hk, ih hbefore]

theorem inOrder_of_apart (h : ¬(Sets calls k ∧ Deletes calls k)) (contents : Key → Option T) :
    setsLast (Batch.ofCalls calls) contents k = inOrder calls contents k ∧
      deletesLast (Batch.ofCalls calls) contents k =
        inOrder calls contents k := by
  rw [setsLast_apply, deletesLast]
  by_cases hsets : Sets calls k
  · have hdeletes : ¬Deletes calls k := fun hd => h ⟨hsets, hd⟩
    rw [inOrder_of_not_deletes hdeletes,
      if_neg (mt mem_deletes_ofCalls.mp hdeletes),
      if_neg (mt mem_deletes_ofCalls.mp hdeletes)]
    exact ⟨rfl, rfl⟩
  · have hlookup : (Batch.ofCalls calls).sets.lookup k = none :=
      Option.not_isSome_iff_eq_none.mp (mt lookup_ofCalls_isSome.mp hsets)
    rw [inOrder_of_not_sets hsets, hlookup, Option.none_or, Option.none_or]
    exact ⟨rfl, rfl⟩

theorem setsLast_ne_deletesLast (hsets : Sets calls k)
    (hdeletes : Deletes calls k) (contents contents' : Key → Option T) :
    setsLast (Batch.ofCalls calls) contents k ≠ deletesLast (Batch.ofCalls calls) contents' k := by
  obtain ⟨v, hv⟩ := Option.isSome_iff_exists.mp (lookup_ofCalls_isSome.mpr hsets)
  have hmem := mem_deletes_ofCalls.mpr hdeletes
  rw [setsLast_apply, deletesLast, hv, if_pos hmem, if_pos hmem]
  exact Option.some_ne_none v

end InOrder

/-! ## The three stores -/

theorem Represents.unique {codec : Codec T} {items : Key → Option Bytes}
    {contents contents' : Key → Option T} (h : Represents codec items contents)
    (h' : Represents codec items contents') : contents = contents' := by
  funext k
  exact Option.map_injective (fun _ _ => Except.ok.inj) ((h k).symm.trans (h' k))

/-- Take any calls of a batch and three stores with the same contents, and let
the batch be committed to each of them with success, with the map iterated in
any order.  All three stores then hold what the calls leave in order exactly if
no key is both set and deleted. -/
theorem commits_inOrder_iff {codec : Codec T} (hcodec : codec.Lossless)
    (calls : List (Call T)) {contents : Key → Option T}
    {items rows items' rows' : Key → Option Bytes}
    (hitems : Represents codec items contents)
    (hrows : Represents codec rows contents)
    {entries₁ entries₂ entries₃ : List (Sigma fun _ : Key => T)}
    (hentries₁ : entries₁.Perm (Batch.ofCalls calls).sets.entries)
    (hentries₂ : entries₂.Perm (Batch.ofCalls calls).sets.entries)
    (hentries₃ : entries₃.Perm (Batch.ofCalls calls).sets.entries)
    {faults₂ faults₃ : Faults}
    (hredis : redisCommit codec faults₂ (Batch.ofCalls calls) entries₂ items = .ok items')
    (hgorm : gormCommit codec faults₃ (Batch.ofCalls calls) entries₃ rows = .ok rows') :
    (inMemoryCommit (Batch.ofCalls calls) entries₁ contents = inOrder calls contents ∧
      Represents codec items' (inOrder calls contents) ∧
      Represents codec rows' (inOrder calls contents)) ↔
      ∀ k, ¬(Sets calls k ∧ Deletes calls k) := by
  have hmemory := inMemoryCommit_eq hentries₁ contents
  have hdeletes := represents_redisCommit hentries₂ hcodec hitems hredis
  have hsets := represents_gormCommit hentries₃ hcodec hrows hgorm
  constructor
  · rintro ⟨hfirst, hsecond, -⟩ k ⟨hset, hdelete⟩
    have heq : setsLast (.ofCalls calls) contents = deletesLast (.ofCalls calls) contents :=
      hmemory.symm.trans (hfirst.trans (hsecond.unique hdeletes))
    exact setsLast_ne_deletesLast hset hdelete contents contents (congrFun heq k)
  · intro hapart
    have hsetsLast : setsLast (.ofCalls calls) contents =
        inOrder calls contents :=
      funext fun k => (inOrder_of_apart (hapart k) contents).1
    have hdeletesLast : deletesLast (.ofCalls calls) contents =
        inOrder calls contents :=
      funext fun k => (inOrder_of_apart (hapart k) contents).2
    rw [← hsetsLast]
    exact ⟨hmemory, hsetsLast ▸ hdeletesLast ▸ hdeletes, hsets⟩

/-- Values that are bytes already. -/
def rawCodec : Codec Bytes := ⟨.ok, .ok⟩

theorem lossless_rawCodec : rawCodec.Lossless := by
  intro v data h
  exact h.symm

def noFaults : Faults := ⟨none, none, none, none⟩

/-- One key is set twice, and another one is deleted. -/
def setsAndDelete : List (Call Bytes) := [.set "a" [1], .delete "b", .set "a" [2]]

theorem commits_inOrder_setsAndDelete : ∃ items' rows',
      redisCommit rawCodec noFaults (Batch.ofCalls setsAndDelete) [⟨"a", [2]⟩]
        (fun _ => some [0]) = .ok items' ∧
      gormCommit rawCodec noFaults (Batch.ofCalls setsAndDelete) [⟨"a", [2]⟩]
        (fun _ => some [0]) = .ok rows' ∧
      inMemoryCommit (Batch.ofCalls setsAndDelete) [⟨"a", [2]⟩]
        (fun _ => some [0]) = inOrder setsAndDelete (fun _ => some [0]) ∧
      Represents rawCodec items' (inOrder setsAndDelete fun _ => some [0]) ∧
      Represents rawCodec rows' (inOrder setsAndDelete fun _ => some [0]) := by
  have hitems : Represents rawCodec (fun _ => some [0]) fun _ => some [0] := fun _ => rfl
  have hentries : [⟨"a", [2]⟩].Perm (Batch.ofCalls setsAndDelete).sets.entries := .refl _
  have hapart : ∀ k, ¬(Sets setsAndDelete k ∧ Deletes setsAndDelete k) := by
    rintro k ⟨⟨v, hset⟩, hdelete⟩
    obtain rfl : k = "b" := by simpa [setsAndDelete, Deletes] using hdelete
    simp [setsAndDelete] at hset
  obtain ⟨items', hredis⟩ : ∃ items', redisCommit rawCodec noFaults
    (.ofCalls setsAndDelete) [⟨"a", [2]⟩] (fun _ => some [0]) =
      .ok items' := ⟨_, rfl⟩
  obtain ⟨rows', hgorm⟩ : ∃ rows', gormCommit rawCodec noFaults
    (.ofCalls setsAndDelete) [⟨"a", [2]⟩] (fun _ => some [0]) =
      .ok rows' := ⟨_, rfl⟩
  have hboth := (commits_inOrder_iff lossless_rawCodec setsAndDelete hitems
    hitems hentries hentries hentries hredis hgorm).mpr hapart
  exact ⟨items', rows', hredis, hgorm, hboth⟩

/-- A key that is set and then deleted is left in two of the stores, and one that
is deleted and then set is left out of the third. -/
theorem set_and_deleted : (inOrder [.set "k" [1], .delete "k"] fun _ => none) "k" = none ∧
    inMemoryCommit (Batch.ofCalls [.set "k" [1], .delete "k"]) [⟨"k", [1]⟩]
      (fun _ => none) "k" = some [1] ∧
    (gormCommit rawCodec noFaults (Batch.ofCalls [.set "k" [1], .delete "k"])
      [⟨"k", [1]⟩] fun _ => none).map (· "k") = .ok (some [1]) ∧
    (redisCommit rawCodec noFaults (Batch.ofCalls [.set "k" [1], .delete "k"])
      [⟨"k", [1]⟩] fun _ => none).map (· "k") = .ok none ∧
    (inOrder [.delete "k", .set "k" [1]] fun _ => none) "k" = some [1] ∧
    (redisCommit rawCodec noFaults (Batch.ofCalls [.delete "k", .set "k" [1]])
      [⟨"k", [1]⟩] fun _ => none).map (· "k") = .ok none := by
  refine ⟨?_, ?_, ?_, ?_, ?_, ?_⟩ <;> rfl

end GoWarp.Adapter
