import GoWarp.StreamBus.InMemory

/-!
# The table of subscriptions

The map and the trie together represent a table from topics, and from topic
prefixes, to sets of identifiers.  The table holds exactly the subscriptions
that are open; each operation on the bus keeps it so.
-/

namespace GoWarp.StreamBus

open Support
open Option (map_eq_some_iff map_none map_some)

/-- The two subscriptions have the same identifier, options and state of being
closed. -/
structure Subscription.Same (s s' : Subscription) : Prop where
  id : s'.id = s.id
  options : s'.options = s.options
  closed : s'.closed = s.closed

namespace Subscription

theorem Same.refl (s : Subscription) : Same s s := ⟨rfl, rfl, rfl⟩

theorem Same.trans {s s' s'' : Subscription} (h : Same s s') (h' : Same s' s'') : Same s s'' :=
  ⟨h'.id.trans h.id, h'.options.trans h.options, h'.closed.trans h.closed⟩

theorem same_preloadFrame (s : Subscription) (frame : Frame) : Same s (s.preloadFrame frame) := by
  rw [preloadFrame]
  split
  · exact ⟨rfl, rfl, rfl⟩
  · exact ⟨rfl, rfl, rfl⟩

theorem same_preload (s : Subscription) (frames : List Frame) : Same s (s.preload frames) := by
  induction frames generalizing s with
  | nil => exact .refl s
  | cons frame rest ih => exact (same_preloadFrame s frame).trans (ih (s.preloadFrame frame))

variable {s s' : Subscription}

theorem same_enqueue {frame : Frame} (h : s.enqueue frame = .accepted s') : Same s s' := by
  rw [enqueue] at h
  split at h
  · cases h
  · split at h
    · cases h
      exact ⟨rfl, rfl, rfl⟩
    · split_ifs at h
      all_goals
        cases h
        exact ⟨rfl, rfl, rfl⟩

theorem same_offered (s : Subscription) (frame : Frame) : Same s (s.offered frame) := by
  rw [offered]
  split
  next h => exact same_enqueue h
  next => exact .refl s

theorem same_pump (h : s.pump = some s') : Same s s' := by
  rw [pump] at h
  split at h
  · cases h
    exact ⟨rfl, rfl, rfl⟩
  · cases h

theorem same_receive {frame : Frame} (h : s.receive = some (frame, s')) : Same s s' := by
  rw [receive, map_eq_some_iff] at h
  obtain ⟨frame', _, heq⟩ := h
  obtain ⟨_, rfl⟩ := Prod.mk.inj heq
  exact ⟨rfl, rfl, rfl⟩

end Subscription

namespace InMemory

/-! ## The table of registrations -/

/-- The identifiers registered for a topic or a topic prefix. -/
def ids (b : InMemory) (isPrefix : Bool) (topic : Bytes) : Finset ℕ :=
  if isPrefix then b.prefixes.get ∅ topic else b.exactIds topic

theorem ids_true (b : InMemory) (topic : Bytes) :
    b.ids true topic = b.prefixes.get ∅ topic := if_pos rfl

theorem ids_false (b : InMemory) (topic : Bytes) :
    b.ids false topic = b.exactIds topic := if_neg Bool.false_ne_true

theorem lookup_insert_getD (table : AList fun _ : Bytes => Finset ℕ)
    (topic other : Bytes) (set : Finset ℕ) :
    ((table.insert topic set).lookup other).getD ∅ =
      if other = topic then set else (table.lookup other).getD ∅ := by
  split
  next h => rw [h, AList.lookup_insert, Option.getD_some]
  next h => rw [AList.lookup_insert_ne h]

theorem lookup_erase_getD (table : AList fun _ : Bytes => Finset ℕ) (topic other : Bytes) :
    ((table.erase topic).lookup other).getD ∅ =
      if other = topic then ∅ else (table.lookup other).getD ∅ := by
  split
  next h => rw [h, AList.lookup_erase, Option.getD_none]
  next h => rw [AList.lookup_erase_ne h]

theorem ids_register (b : InMemory) (s : Subscription) (p : Bool) (topic : Bytes) :
    (b.register s).ids p topic =
      if p = s.options.isPrefix ∧ topic = s.options.topic then
        insert s.id (b.ids p topic)
      else
        b.ids p topic := by
  rw [register]
  rcases hs : s.options.isPrefix with _ | _
  · rw [if_neg Bool.false_ne_true]
    rcases p with _ | _
    · rw [ids_false, ids_false, exactIds, lookup_insert_getD]
      simp only [true_and]
      split
      next htopic =>
        rw [htopic]
        rfl
      next => rfl
    · rw [if_neg fun h => Bool.false_ne_true h.1.symm]
      rfl
  · rw [if_pos rfl]
    rcases p with _ | _
    · rw [if_neg fun h => Bool.false_ne_true h.1]
      rfl
    · rw [ids_true, ids_true, Trie.get_modify]
      simp only [true_and]
      rfl

theorem exactIds_remove (b : InMemory) (id : ℕ) (o : ValidOptions)
    (ho : o.isPrefix = false) (topic : Bytes) :
    (b.remove id o).exactIds topic =
      if topic = o.topic then (b.exactIds topic).erase id
      else b.exactIds topic := by
  rw [remove, ho, if_neg Bool.false_ne_true, exactIds]
  by_cases hempty : (b.exactIds o.topic).erase id = ∅
  · rw [if_pos hempty, lookup_erase_getD]
    split
    next htopic => rw [htopic, hempty]
    next => rfl
  · rw [if_neg hempty, lookup_insert_getD]
    split
    next htopic => rw [htopic]
    next => rfl

theorem ids_remove (b : InMemory) (id : ℕ) (o : ValidOptions) (p : Bool) (topic : Bytes) :
    (b.remove id o).ids p topic =
      if p = o.isPrefix ∧ topic = o.topic then (b.ids p topic).erase id
      else b.ids p topic := by
  rcases ho : o.isPrefix with _ | _
  · rcases p with _ | _
    · rw [ids_false, ids_false, exactIds_remove b id o ho]
      simp only [true_and]
    · rw [if_neg fun h => Bool.false_ne_true h.1.symm, ids_true, ids_true,
        remove, ho, if_neg Bool.false_ne_true]
      dsimp only
      split
      · rfl
      · rfl
  · rw [remove, ho, if_pos rfl]
    rcases p with _ | _
    · rw [if_neg fun h => Bool.false_ne_true h.1]
      rfl
    · rw [ids_true, ids_true, Trie.get_adjust (Finset.erase_empty id), Trie.get_modify]
      simp only [true_and]

theorem subs_remove (b : InMemory) (id : ℕ) (o : ValidOptions) :
    (b.remove id o).subs = b.subs ∧ (b.remove id o).subSeq = b.subSeq ∧
      (b.remove id o).closed = b.closed := by
  rw [remove]
  split
  · exact ⟨rfl, rfl, rfl⟩
  · dsimp only
    split
    · exact ⟨rfl, rfl, rfl⟩
    · exact ⟨rfl, rfl, rfl⟩

theorem subs_register (b : InMemory) (s : Subscription) : (b.register s).subs = (b.setSub s).subs ∧
      (b.register s).subSeq = b.subSeq ∧
      (b.register s).closed = b.closed := by
  rw [register]
  split
  · exact ⟨rfl, rfl, rfl⟩
  · exact ⟨rfl, rfl, rfl⟩

theorem mem_foldl_union {α : Type} [DecidableEq α] (sets : List (Finset α))
    (start : Finset α) (a : α) :
    a ∈ sets.foldl (· ∪ ·) start ↔ a ∈ start ∨ ∃ set ∈ sets, a ∈ set := by
  induction sets generalizing start with
  | nil => simp
  | cons set rest ih =>
    rw [List.foldl_cons, ih, Finset.mem_union]
    simp only [List.mem_cons, exists_eq_or_imp]
    tauto

theorem mem_targets_iff (b : InMemory) (topic : Bytes) (id : ℕ) : id ∈ b.targets topic ↔
      id ∈ b.ids false topic ∨ ∃ path, path ≠ [] ∧ path <+: topic ∧ id ∈ b.ids true path := by
  rw [targets, mem_foldl_union]
  apply or_congr Iff.rfl
  constructor
  · rintro ⟨set, hset, hid⟩
    obtain ⟨path, hne, hpre, hfind⟩ := Trie.mem_along_iff.mp hset
    refine ⟨path, hne, hpre, ?_⟩
    rw [ids, if_pos rfl, Trie.get, hfind]
    exact hid
  · rintro ⟨path, hne, hpre, hid⟩
    rw [ids, if_pos rfl, Trie.get] at hid
    rcases hfind : b.prefixes.find? path with _ | set
    · rw [hfind] at hid
      exact absurd hid (Finset.notMem_empty id)
    · rw [hfind] at hid
      exact ⟨set, Trie.mem_along_iff.mpr ⟨path, hne, hpre, hfind⟩, hid⟩

variable {b : InMemory} {id : ℕ}

theorem mem_registered {p : Bool} {topic : Bytes} (h : id ∈ b.ids p topic) : id ∈ b.registered := by
  rw [registered, mem_foldl_union]
  refine .inr ?_
  rcases p with _ | _
  · rw [ids, if_neg Bool.false_ne_true, exactIds] at h
    rcases hlookup : b.exact.lookup topic with _ | set
    · rw [hlookup] at h
      exact absurd h (Finset.notMem_empty id)
    · rw [hlookup] at h
      refine ⟨set, List.mem_append_left _ ?_, h⟩
      have hmem := AList.mem_lookup_iff.mp hlookup
      exact List.mem_map.mpr ⟨⟨topic, set⟩, hmem, rfl⟩
  · rw [ids, if_pos rfl, Trie.get] at h
    rcases hfind : b.prefixes.find? topic with _ | set
    · rw [hfind] at h
      exact absurd h (Finset.notMem_empty id)
    · rw [hfind] at h
      exact ⟨set, List.mem_append_right _ (Trie.mem_values_of_find? hfind), h⟩

/-! ## The invariant -/

/-- A subscription is open, and asks for a topic or a topic prefix. -/
def IsOpen (b : InMemory) (id : ℕ) (p : Bool) (topic : Bytes) : Prop :=
  ∃ s, b.subs id = some s ∧ s.closed = false ∧ s.options.isPrefix = p ∧ s.options.topic = topic

/-- The table holds exactly the open subscriptions, and a closed bus has
none. -/
structure Registered (b : InMemory) : Prop where
  subs_id : ∀ id s, b.subs id = some s → s.id = id
  subs_le : ∀ id s, b.subs id = some s → id ≤ b.subSeq
  mem_ids : ∀ p topic id, id ∈ b.ids p topic ↔ b.IsOpen id p topic
  closed : b.closed = true → ∀ id s, b.subs id = some s → s.closed = true

theorem subs_setSub (b : InMemory) (s : Subscription) (id : ℕ) :
    (b.setSub s).subs id = if id = s.id then some s else b.subs id := by
  split
  next h =>
    rw [h]
    exact Function.update_self _ _ _
  next h => exact Function.update_of_ne h _ _

theorem registered_new (config : Config) : (new config).Registered where
  subs_id := fun id s h => by cases h
  subs_le := fun id s h => by cases h
  mem_ids := by
    intro p topic id
    constructor
    · intro h
      rcases p with _ | _
      · exact absurd h (Finset.notMem_empty id)
      · rw [ids_true] at h
        change id ∈ (.leaf ∅ : Trie UInt8 (Finset ℕ)).get ∅ topic at h
        rw [Trie.get_leaf] at h
        exact absurd h (Finset.notMem_empty id)
    · rintro ⟨s, hs, _⟩
      cases hs
  closed := fun _ id s h => by cases h

/-! ## Operations that leave the table alone -/

/-- The same table, and the same subscriptions up to what they hold. -/
structure SameTable (b b' : InMemory) : Prop where
  ids : b'.ids = b.ids
  subSeq : b.subSeq ≤ b'.subSeq
  closed : b'.closed = b.closed
  forth : ∀ id s, b.subs id = some s → ∃ s', b'.subs id = some s' ∧ Subscription.Same s s'
  back : ∀ id s', b'.subs id = some s' → ∃ s, b.subs id = some s ∧ Subscription.Same s s'

variable {b' : InMemory}

theorem SameTable.of_subs (hids : b'.ids = b.ids)
    (hsubSeq : b.subSeq ≤ b'.subSeq) (hclosed : b'.closed = b.closed)
    (hsubs : b'.subs = b.subs) : SameTable b b' := by
  refine ⟨hids, hsubSeq, hclosed, ?_, ?_⟩
  · intro id s hs
    rw [hsubs]
    exact ⟨s, hs, Subscription.Same.refl s⟩
  · intro id s hs
    rw [hsubs] at hs
    exact ⟨s, hs, Subscription.Same.refl s⟩

theorem SameTable.trans {b'' : InMemory} (h : SameTable b b')
    (h' : SameTable b' b'') : SameTable b b'' := by
  refine ⟨h'.ids.trans h.ids, h.subSeq.trans h'.subSeq, h'.closed.trans h.closed, ?_, ?_⟩
  · intro id s hs
    obtain ⟨s', hs', hsame⟩ := h.forth id s hs
    obtain ⟨s'', hs'', hsame'⟩ := h'.forth id s' hs'
    exact ⟨s'', hs'', hsame.trans hsame'⟩
  · intro id s'' hs''
    obtain ⟨s', hs', hsame'⟩ := h'.back id s'' hs''
    obtain ⟨s, hs, hsame⟩ := h.back id s' hs'
    exact ⟨s, hs, hsame.trans hsame'⟩

theorem SameTable.isOpen_iff (h : SameTable b b') (id : ℕ) (p : Bool) (topic : Bytes) :
    b'.IsOpen id p topic ↔ b.IsOpen id p topic := by
  constructor
  · rintro ⟨s', hs', hopen, hp, htopic⟩
    obtain ⟨s, hs, hsame⟩ := h.back id s' hs'
    rw [hsame.closed] at hopen
    rw [hsame.options] at hp htopic
    exact ⟨s, hs, hopen, hp, htopic⟩
  · rintro ⟨s, hs, hopen, hp, htopic⟩
    obtain ⟨s', hs', hsame⟩ := h.forth id s hs
    rw [← hsame.closed] at hopen
    rw [← hsame.options] at hp htopic
    exact ⟨s', hs', hopen, hp, htopic⟩

theorem Registered.of_back {b b' : InMemory} (hb : b.Registered) (hsubSeq : b.subSeq ≤ b'.subSeq)
    (hback : ∀ id s', b'.subs id = some s' → ∃ s, b.subs id = some s ∧ s'.id = s.id)
    (hmem : ∀ p topic id, id ∈ b'.ids p topic ↔ b'.IsOpen id p topic)
    (hclosed : b'.closed = true → ∀ id s, b'.subs id = some s →
      s.closed = true) : b'.Registered := by
  refine ⟨fun id s' hs' => ?_, fun id s' hs' => ?_, hmem, hclosed⟩
  · obtain ⟨s, hs, hid⟩ := hback id s' hs'
    exact hid.trans (hb.subs_id id s hs)
  · obtain ⟨s, hs, _⟩ := hback id s' hs'
    exact (hb.subs_le id s hs).trans hsubSeq

theorem Registered.of_sameTable {b b' : InMemory} (hb : b.Registered)
    (h : SameTable b b') : b'.Registered := by
  refine hb.of_back h.subSeq (fun id s' hs' => ?_) (fun p topic id => ?_) ?_
  · obtain ⟨s, hs, hsame⟩ := h.back id s' hs'
    exact ⟨s, hs, hsame.id⟩
  · rw [h.ids, h.isOpen_iff]
    exact hb.mem_ids p topic id
  · intro hclosed id s' hs'
    obtain ⟨s, hs, hsame⟩ := h.back id s' hs'
    rw [h.closed] at hclosed
    exact hsame.closed.trans (hb.closed hclosed id s hs)

theorem sameTable_setSub (hb : b.Registered) {s s' : Subscription} (hs : b.subs id = some s)
    (hsame : Subscription.Same s s') : SameTable b (b.setSub s') := by
  have hid : s'.id = id := hsame.id.trans (hb.subs_id id s hs)
  refine ⟨rfl, Nat.le_refl _, rfl, ?_, ?_⟩
  · intro id' s₀ hs₀
    rw [subs_setSub, hid]
    by_cases heq : id' = id
    · rw [heq, hs] at hs₀
      cases hs₀
      exact ⟨s', if_pos heq, hsame⟩
    · rw [if_neg heq]
      exact ⟨s₀, hs₀, Subscription.Same.refl s₀⟩
  · intro id' s₁ hs₁
    rw [subs_setSub, hid] at hs₁
    split at hs₁
    next heq =>
      cases hs₁
      exact ⟨s, heq ▸ hs, hsame⟩
    · exact ⟨s₁, hs₁, Subscription.Same.refl s₁⟩

theorem sameTable_enqueueTo (hb : b.Registered)
    (frame : Frame) (id : ℕ) : SameTable b (b.enqueueTo frame id).2 := by
  have hrefl : SameTable b b := .of_subs rfl (Nat.le_refl _) rfl rfl
  rw [enqueueTo]
  rcases hs : b.subs id with _ | s
  · exact hrefl
  · dsimp only
    rcases hres : s.enqueue frame with _ | s' | _
    · exact hrefl
    · exact sameTable_setSub hb hs (Subscription.same_enqueue hres)
    · exact hrefl

theorem sameTable_fanOut (hb : b.Registered) (frame : Frame)
    (order : List ℕ) : SameTable b (b.fanOut frame order).2 := by
  induction order generalizing b with
  | nil => exact .of_subs rfl (Nat.le_refl _) rfl rfl
  | cons id rest ih =>
    have hone := sameTable_enqueueTo hb frame id
    rw [fanOut]
    rcases hres : b.enqueueTo frame id with ⟨_ | e, b'⟩
    · rw [hres] at hone
      exact hone.trans (ih (hb.of_sameTable hone))
    · rw [hres] at hone
      exact hone

theorem subs_enqueueTo (hb : b.Registered) {frame : Frame} (h : b.enqueueTo frame id = (none, b'))
    (id' : ℕ) :
    b'.subs id' =
      if id' = id then (b.subs id).map (·.offered frame) else b.subs id' := by
  rw [enqueueTo] at h
  rcases hs : b.subs id with _ | s
  · rw [hs] at h
    cases h
    split
    next heq => rw [heq, hs, map_none]
    · rfl
  · rw [hs] at h
    dsimp only at h
    rcases hres : s.enqueue frame with _ | s' | _
    · rw [hres] at h
      cases h
      split
      next heq => rw [heq, hs, map_some, Subscription.offered, hres]
      · rfl
    · rw [hres] at h
      cases h
      have hid : s'.id = id := (Subscription.same_enqueue hres).id.trans (hb.subs_id id s hs)
      rw [subs_setSub, hid, map_some, Subscription.offered, hres]
    · rw [hres] at h
      cases h

theorem subs_fanOut (hb : b.Registered) {frame : Frame} {order : List ℕ} (hnodup : order.Nodup)
    (hok : (b.fanOut frame order).1 = none) (id : ℕ) :
    (b.fanOut frame order).2.subs id =
      if id ∈ order then (b.subs id).map (·.offered frame) else b.subs id := by
  induction order generalizing b with
  | nil => rw [fanOut, if_neg List.not_mem_nil]
  | cons next rest ih =>
    obtain ⟨hnext, hrest⟩ := List.nodup_cons.mp hnodup
    have hsame := sameTable_enqueueTo hb frame next
    rw [fanOut] at hok ⊢
    rcases hres : b.enqueueTo frame next with ⟨_ | e, b'⟩
    · rw [hres] at hok hsame
      have hone := subs_enqueueTo hb hres id
      dsimp only at hok ⊢
      rw [ih (hb.of_sameTable hsame) hrest hok, hone]
      by_cases heq : id = next
      · have hmem : id ∈ next :: rest := List.mem_cons.mpr (.inl heq)
        rw [if_pos heq, if_pos hmem, heq, if_neg hnext]
      · have hmem : id ∈ next :: rest ↔ id ∈ rest :=
          List.mem_cons.trans (or_iff_right heq)
        rw [if_neg heq]
        simp only [hmem]
    · rw [hres] at hok
      cases hok

theorem addToJournal_fields (b : InMemory) (frame : Frame) : (b.addToJournal frame).subs = b.subs ∧
      (b.addToJournal frame).ids = b.ids ∧
      (b.addToJournal frame).subSeq = b.subSeq ∧
      (b.addToJournal frame).closed = b.closed ∧
      (b.addToJournal frame).seq = b.seq ∧
      (b.addToJournal frame).config = b.config := by
  rw [addToJournal]
  split
  · exact ⟨rfl, rfl, rfl, rfl, rfl, rfl⟩
  · exact ⟨rfl, rfl, rfl, rfl, rfl, rfl⟩

theorem sameTable_addToJournal (b : InMemory) (frame : Frame) :
    SameTable b (b.addToJournal frame) := by
  obtain ⟨hsubs, hids, hsubSeq, hclosed, _, _⟩ := b.addToJournal_fields frame
  exact .of_subs hids hsubSeq.ge hclosed hsubs

section

variable (hb : b.Registered)
include hb

theorem sameTable_publish (ctxDone : Bool) (now : Time) (frame : Frame) (order : List ℕ) :
    SameTable b (b.publish ctxDone now frame order).2 := by
  have hnumber : SameTable b b.takeNumber := .of_subs rfl (Nat.le_refl _) rfl rfl
  rw [publish]
  rcases b.publishError ctxDone frame with _ | e
  · dsimp only
    rw [route]
    split
    next heq => exact hnumber
    next targets b' heq =>
      split at heq
      · cases heq
      · cases heq
        have hjournal := hnumber.trans (sameTable_addToJournal b.takeNumber (b.stamp now frame))
        exact hjournal.trans (sameTable_fanOut (hb.of_sameTable hjournal) _ order)
  · exact .of_subs rfl (Nat.le_refl _) rfl rfl

theorem subs_publish {ctxDone : Bool} {now : Time} {frame : Frame} {order : List ℕ}
    (horder : IsOrderOf order (b.targets frame.topic))
    (hok : (b.publish ctxDone now frame order).1.2 = none) (id : ℕ) :
    (b.publish ctxDone now frame order).2.subs id =
      if id ∈ b.targets frame.topic then
        (b.subs id).map (·.offered (b.stamp now frame))
      else
        b.subs id := by
  have hmem : id ∈ order ↔ id ∈ b.targets frame.topic := by rw [← horder.2, List.mem_toFinset]
  rw [publish] at hok ⊢
  split at hok
  · cases hok
  · dsimp only at hok ⊢
    rw [route] at hok ⊢
    by_cases hclosed : b.takeNumber.closed = true
    · rw [if_pos hclosed] at hok
      cases hok
    · rw [if_neg hclosed] at hok ⊢
      have hnumber : SameTable b b.takeNumber := .of_subs rfl (Nat.le_refl _) rfl rfl
      have hjournal := hnumber.trans (sameTable_addToJournal b.takeNumber (b.stamp now frame))
      have hfan := subs_fanOut (hb.of_sameTable hjournal) horder.1 hok id
      rw [(addToJournal_fields _ _).1] at hfan
      simp only [← hmem]
      exact hfan

theorem sameTable_pump (h : step b (.pump id) = some b') : SameTable b b' := by
  rw [step, map_eq_some_iff] at h
  obtain ⟨s', hpump, rfl⟩ := h
  obtain ⟨s, hs, hs'⟩ := Option.bind_eq_some_iff.mp hpump
  exact sameTable_setSub hb hs (Subscription.same_pump hs')

theorem sameTable_receive (h : step b (.receive id) = some b') : SameTable b b' := by
  rw [step, map_eq_some_iff] at h
  obtain ⟨⟨frame, s'⟩, hreceive, rfl⟩ := h
  obtain ⟨s, hs, hs'⟩ := Option.bind_eq_some_iff.mp hreceive
  exact sameTable_setSub hb hs (Subscription.same_receive hs')

/-! ## Subscribing and closing -/

theorem sameTable_remove (hid : b.subs id = none) (o : ValidOptions) :
    SameTable b (b.remove id o) := by
  obtain ⟨hsubs, hsubSeq, hclosed⟩ := b.subs_remove id o
  refine .of_subs ?_ hsubSeq.ge hclosed hsubs
  funext p topic
  rw [ids_remove]
  split
  · apply Finset.erase_eq_of_notMem
    intro hmem
    obtain ⟨s, hs, _⟩ := (hb.mem_ids p topic id).mp hmem
    rw [hid] at hs
    cases hs
  · rfl

end

theorem sameTable_takeId (b : InMemory) : SameTable b b.takeId :=
  .of_subs rfl (Nat.le_succ _) rfl rfl

theorem Registered.subs_succ (hb : b.Registered) : b.subs (b.subSeq + 1) = none := by
  rcases hs : b.subs (b.subSeq + 1) with _ | s
  · rfl
  · exact absurd (hb.subs_le _ s hs) (Nat.not_succ_le_self _)

theorem Registered.register (hb : b.Registered)
    {s : Subscription} (hid : b.subs s.id = none) (hle : s.id ≤ b.subSeq)
    (hopen : s.closed = false) (hbus : b.closed = false) :
    (b.register s).Registered := by
  obtain ⟨hsubs, hsubSeq, hclosed⟩ := b.subs_register s
  refine ⟨?_, ?_, ?_, ?_⟩
  · intro id s' hs'
    rw [hsubs, subs_setSub] at hs'
    split at hs'
    next heq =>
      cases hs'
      exact heq.symm
    next => exact hb.subs_id id s' hs'
  · intro id s' hs'
    rw [hsubs, subs_setSub] at hs'
    rw [hsubSeq]
    split at hs'
    next heq => exact heq ▸ hle
    next => exact hb.subs_le id s' hs'
  · intro p topic id
    rw [IsOpen, hsubs, subs_setSub, ids_register]
    by_cases heq : id = s.id
    · have hnone : id ∉ b.ids p topic := by
        intro hmem
        obtain ⟨s', hs', _⟩ := (hb.mem_ids p topic id).mp hmem
        rw [heq, hid] at hs'
        cases hs'
      rw [if_pos heq]
      split
      next hkey =>
        rw [heq]
        exact iff_of_true (Finset.mem_insert_self _ _) ⟨s, rfl, hopen, hkey.1.symm, hkey.2.symm⟩
      next hkey =>
        refine iff_of_false hnone ?_
        rintro ⟨s', hs', _, hp, htopic⟩
        cases hs'
        exact hkey ⟨hp.symm, htopic.symm⟩
    · rw [if_neg heq]
      have hold := hb.mem_ids p topic id
      rw [IsOpen] at hold
      rw [← hold]
      split
      · exact Finset.mem_insert.trans (or_iff_right heq)
      · rfl
  · intro htrue
    rw [hclosed, hbus] at htrue
    cases htrue

theorem subscribe_cases (b : InMemory) (ctxDone : Bool) (o : SubscribeOptions) :
    (∃ e, b.subscribe ctxDone o = (.error e, b)) ∨ (∃ e options, b.subscribe ctxDone o =
        (.error e, b.takeId.remove (b.subSeq + 1) options)) ∨
      ∃ options frames, b.checkOptions o = .ok options ∧ b.closed = false ∧
        b.replayFor options = .ok frames ∧
        b.subscribe ctxDone o = (.ok (b.subSeq + 1), b.takeId.register
          ((Subscription.new (b.subSeq + 1) options).preload frames)) := by
  rw [subscribe]
  rcases hoptions : b.checkOptions o with e | options
  · exact .inl ⟨e, rfl⟩
  · dsimp only
    split
    · exact .inl ⟨_, rfl⟩
    · split
      · exact .inr (.inl ⟨_, options, rfl⟩)
      next hopen =>
        have hreplay : b.takeId.replayFor options = b.replayFor options := rfl
        rw [hreplay]
        rcases hres : b.replayFor options with e | frames
        · exact .inr (.inl ⟨e, options, rfl⟩)
        · exact .inr (.inr ⟨options, frames, rfl, Bool.eq_false_of_not_eq_true hopen, hres,
              rfl⟩)

theorem subscribe_eq_ok {ctxDone : Bool} {o : SubscribeOptions}
    (h : b.subscribe ctxDone o = (.ok id, b')) :
    id = b.subSeq + 1 ∧ ∃ options frames, b.checkOptions o = .ok options ∧
        b.replayFor options = .ok frames ∧
        b' = b.takeId.register ((Subscription.new (b.subSeq + 1) options).preload frames) := by
  rcases b.subscribe_cases ctxDone o with
    ⟨e, heq⟩ | ⟨e, options, heq⟩ | ⟨options, frames, hcheck, _, hres, heq⟩
  · rw [heq] at h
    cases h
  · rw [heq] at h
    cases h
  · rw [heq] at h
    cases h
    exact ⟨rfl, options, frames, hcheck, hres, rfl⟩

theorem subs_subscribe_of_le (b : InMemory) (ctxDone : Bool)
    (o : SubscribeOptions) (hle : id ≤ b.subSeq) :
    (b.subscribe ctxDone o).2.subs id = b.subs id ∧
      b.subSeq ≤ (b.subscribe ctxDone o).2.subSeq := by
  rcases b.subscribe_cases ctxDone o with
    ⟨e, heq⟩ | ⟨e, options, heq⟩ | ⟨options, frames, _, _, _, heq⟩
  · rw [heq]
    exact ⟨rfl, Nat.le_refl _⟩
  · obtain ⟨hsubs, hsubSeq, _⟩ :=
      b.takeId.subs_remove (b.subSeq + 1) options
    rw [heq, hsubs, hsubSeq]
    exact ⟨rfl, Nat.le_succ _⟩
  · have hsame := Subscription.same_preload (Subscription.new (b.subSeq + 1) options) frames
    have hne : id ≠ ((Subscription.new (b.subSeq + 1) options).preload frames).id := by
      rw [hsame.id]
      change id ≠ b.subSeq + 1
      omega
    obtain ⟨hsubs, hsubSeq, _⟩ := b.takeId.subs_register
      ((Subscription.new (b.subSeq + 1) options).preload frames)
    rw [heq, hsubs, hsubSeq, subs_setSub, if_neg hne]
    exact ⟨rfl, Nat.le_succ _⟩

def markClosed (s : Subscription) : Subscription := { s with closed := true }

theorem subs_closeSub (hsub : ∀ id s, b.subs id = some s → s.id = id) (id id' : ℕ) :
    (b.closeSub id).subs id' =
      if id' = id then (b.subs id).map markClosed else b.subs id' := by
  rw [closeSub]
  rcases hs : b.subs id with _ | s
  · by_cases heq : id' = id
    · rw [if_pos heq, heq, map_none]
      exact hs
    · rw [if_neg heq]
  · dsimp only
    obtain rfl : s.id = id := hsub id s hs
    split
    next hclosed =>
      split
      next heq => rw [heq, hs, map_some, markClosed, ← hclosed]
      · rfl
    · rw [(subs_remove _ s.id s.options).1, subs_setSub]
      rfl

theorem closeSub_fields (b : InMemory) (id : ℕ) : (b.closeSub id).subSeq = b.subSeq ∧
      (b.closeSub id).closed = b.closed := by
  rw [closeSub]
  split
  · exact ⟨rfl, rfl⟩
  · split
    · exact ⟨rfl, rfl⟩
    · obtain ⟨_, hsubSeq, hclosed⟩ := subs_remove (b.setSub _) id _
      exact ⟨hsubSeq, hclosed⟩

theorem ids_closeSub_subset (b : InMemory) (id : ℕ) (p : Bool)
    (topic : Bytes) : (b.closeSub id).ids p topic ⊆ b.ids p topic := by
  rw [closeSub]
  split
  · exact Finset.Subset.refl _
  · split
    · exact Finset.Subset.refl _
    · rw [ids_remove]
      split
      · exact Finset.erase_subset _ _
      · exact Finset.Subset.refl _

theorem mem_ids_closeSub (hb : b.Registered) (id id' : ℕ) (p : Bool) (topic : Bytes) :
    id' ∈ (b.closeSub id).ids p topic ↔ id' ≠ id ∧ id' ∈ b.ids p topic := by
  have hcontra : ∀ s, b.subs id = some s → id ∈ b.ids p topic →
      s.closed = false ∧ s.options.isPrefix = p ∧ s.options.topic = topic := by
    intro s hs hmem
    obtain ⟨s', hs', hrest⟩ := (hb.mem_ids p topic id).mp hmem
    cases hs.symm.trans hs'
    exact hrest
  rw [closeSub]
  rcases hs : b.subs id with _ | s
  · refine (and_iff_right_of_imp ?_).symm
    rintro hmem rfl
    obtain ⟨s, hs', _⟩ := (hb.mem_ids p topic id').mp hmem
    rw [hs] at hs'
    cases hs'
  · dsimp only
    split
    next hclosed =>
      refine (and_iff_right_of_imp ?_).symm
      rintro hmem rfl
      exact absurd ((hcontra s hs hmem).1.symm.trans hclosed) Bool.false_ne_true
    · rw [ids_remove]
      split
      · exact Finset.mem_erase
      next hkey =>
        refine (and_iff_right_of_imp ?_).symm
        rintro hmem rfl
        obtain ⟨_, hp, htopic⟩ := hcontra s hs hmem
        exact hkey ⟨hp.symm, htopic.symm⟩

theorem Registered.closeSub (hb : b.Registered) (id : ℕ) : (b.closeSub id).Registered := by
  obtain ⟨hsubSeq, hclosed⟩ := b.closeSub_fields id
  have hsubs := subs_closeSub hb.subs_id id
  have hback : ∀ id' s', (b.closeSub id).subs id' = some s' →
      ∃ s, b.subs id' = some s ∧ s'.id = s.id ∧ (s.closed = true → s'.closed = true) := by
    intro id' s' hs'
    rw [hsubs] at hs'
    split at hs'
    next heq =>
      obtain ⟨s, hs, rfl⟩ := map_eq_some_iff.mp hs'
      exact ⟨s, heq ▸ hs, rfl, fun _ => rfl⟩
    next => exact ⟨s', hs', rfl, fun h => h⟩
  refine hb.of_back hsubSeq.ge (fun id' s' hs' => ?_) ?_ ?_
  · obtain ⟨s, hs, hid, _⟩ := hback id' s' hs'
    exact ⟨s, hs, hid⟩
  · intro p topic id'
    rw [mem_ids_closeSub hb, hb.mem_ids, IsOpen, IsOpen, hsubs]
    split
    next heq =>
      refine iff_of_false (fun h => h.1 heq) ?_
      rintro ⟨s', hs', hopen, _⟩
      obtain ⟨s, _, rfl⟩ := map_eq_some_iff.mp hs'
      cases hopen
    next heq => exact and_iff_right heq
  · intro htrue id' s' hs'
    obtain ⟨s, hs, _, hmono⟩ := hback id' s' hs'
    rw [hclosed] at htrue
    exact hmono (hb.closed htrue id' s hs)

/-! ## Closing the bus -/

/-- The bus with its table swapped for an empty one. -/
def emptied (b : InMemory) : InMemory :=
  { b with closed := true, exact := ∅, prefixes := Trie.leaf ∅ }

theorem Registered.emptied_id (hb : b.Registered) :
    ∀ id s, b.emptied.subs id = some s → s.id = id := hb.subs_id

theorem ids_emptied (b : InMemory) (p : Bool) (topic : Bytes) : b.emptied.ids p topic = ∅ := by
  rcases p with _ | _
  · rw [ids_false]
    rfl
  · rw [ids_true]
    change (.leaf ∅ : Trie UInt8 (Finset ℕ)).get ∅ topic = ∅
    rw [Trie.get_leaf]

theorem subs_foldl_closeSub (order : List ℕ)
    (hsub : ∀ id s, b.subs id = some s → s.id = id) (id : ℕ) :
    (order.foldl closeSub b).subs id =
      if id ∈ order then (b.subs id).map markClosed else b.subs id := by
  induction order generalizing b with
  | nil => rw [if_neg List.not_mem_nil, List.foldl_nil]
  | cons next rest ih =>
    have hone := subs_closeSub hsub next
    have hsub' : ∀ id s', (b.closeSub next).subs id = some s' → s'.id = id := by
      intro id s' hs'
      rw [hone] at hs'
      split at hs'
      next heq =>
        obtain ⟨s, hs, rfl⟩ := map_eq_some_iff.mp hs'
        exact heq ▸ hsub next s hs
      next => exact hsub id s' hs'
    rw [List.foldl_cons, ih hsub', hone]
    by_cases heq : id = next
    · have hmem : id ∈ next :: rest := List.mem_cons.mpr (.inl heq)
      rw [if_pos heq, if_pos hmem, heq]
      split
      · rw [Option.map_map]
        rfl
      · rfl
    · have hmem : id ∈ next :: rest ↔ id ∈ rest :=
        List.mem_cons.trans (or_iff_right heq)
      rw [if_neg heq]
      simp only [hmem]

theorem foldl_closeSub_fields (order : List ℕ) (b : InMemory) :
    (order.foldl closeSub b).subSeq = b.subSeq ∧ (order.foldl closeSub b).closed = b.closed ∧
      ∀ p topic, (order.foldl closeSub b).ids p topic ⊆ b.ids p topic := by
  induction order generalizing b with
  | nil => exact ⟨rfl, rfl, fun _ _ => Finset.Subset.refl _⟩
  | cons next rest ih =>
    obtain ⟨hsubSeq, hclosed, hids⟩ := ih (b.closeSub next)
    obtain ⟨hsubSeq₁, hclosed₁⟩ := b.closeSub_fields next
    refine ⟨hsubSeq.trans hsubSeq₁, hclosed.trans hclosed₁, ?_⟩
    intro p topic
    exact (hids p topic).trans (b.ids_closeSub_subset next p topic)

theorem closed_close (b : InMemory) (order : List ℕ) : (b.close order).closed = true := by
  rw [close]
  split
  next h => exact h
  next => exact (foldl_closeSub_fields order _).2.1

theorem Registered.close (hb : b.Registered) {order : List ℕ}
    (horder : IsOrderOf order b.registered) :
    (b.close order).Registered := by
  rw [InMemory.close]
  split
  · exact hb
  · have hsubs := subs_foldl_closeSub order hb.emptied_id
    obtain ⟨hsubSeq, _, hids⟩ := foldl_closeSub_fields order b.emptied
    change (order.foldl InMemory.closeSub b.emptied).Registered
    have hback : ∀ id s', (order.foldl InMemory.closeSub b.emptied).subs id = some s' →
        s'.closed = true ∧ ∃ s, b.subs id = some s ∧ s'.id = s.id := by
      intro id s' hs'
      rw [hsubs] at hs'
      split at hs'
      next =>
        obtain ⟨s, hs, rfl⟩ := map_eq_some_iff.mp hs'
        exact ⟨rfl, s, hs, rfl⟩
      next hmem =>
        refine ⟨?_, s', hs', rfl⟩
        rcases hclosed : s'.closed with _ | _
        · have hids' : id ∈ b.ids s'.options.isPrefix s'.options.topic :=
            (hb.mem_ids _ _ id).mpr ⟨s', hs', hclosed, rfl, rfl⟩
          have hreg := mem_registered hids'
          rw [← horder.2, List.mem_toFinset] at hreg
          exact absurd hreg hmem
        · rfl
    refine hb.of_back hsubSeq.ge (fun id s' hs' => (hback id s' hs').2) ?_
      fun _ id s' hs' => (hback id s' hs').1
    intro p topic id
    refine iff_of_false ?_ ?_
    · intro hmem
      have hempty := hids p topic hmem
      rw [ids_emptied] at hempty
      exact absurd hempty (Finset.notMem_empty id)
    · rintro ⟨s', hs', hopen', _⟩
      rw [(hback id s' hs').1] at hopen'
      cases hopen'

end InMemory

end GoWarp.StreamBus
