import GoWarp.Mesh.Batcher

/-!
# The pending set of the mesh bus

A key is marked before it is sent to the channel.  The mark is removed by the
batcher, once the key has gone through the channel and the batch, or by the call
that set it, if its context is done before the key is sent.  In between, no other
call sets a mark for the key.  A marked key is thus in one place only: in the
channel, in the batch, or with the call that marked it.
-/

namespace GoWarp.Mesh

open Function (update update_of_ne update_self)

namespace Batcher

/-- A payload that can be read as a packet, in which no key comes twice. -/
def ListsOnce (payload : Bytes) : Prop :=
  ∃ q, Packet.zero.unmarshal payload = some (.ok q) ∧ q.keys.Nodup

/-- Every marked key is in one place. -/
structure Marked (s : Batcher) : Prop where
  nodup : (s.publishCh ++ s.batch).Nodup
  marked : ∀ key ∈ s.publishCh ++ s.batch, s.pending key = true
  sending : ∀ c key, s.calls c = .sending key → s.pending key = true ∧ key ∉ s.publishCh ++ s.batch
  single : ∀ c d key, s.calls c = .sending key → s.calls d = .sending key → c = d
  owned : ∀ key, s.pending key = true → key ∈ s.publishCh ++ s.batch ∨ s.Sending key
  packets : ∀ payload ∈ s.packets, ListsOnce payload

theorem marked_new (id : NodeID) (size : ℕ) : Marked (new id size) where
  nodup := List.nodup_nil
  marked _ h := absurd h List.not_mem_nil
  sending _ _ h := by cases h
  single _ _ _ h := by cases h
  owned _ h := absurd h Bool.false_ne_true
  packets _ h := absurd h List.not_mem_nil

/-! ## Steps of `Publish` -/

variable {failed : Bool}

theorem sending_of_update {calls : ℕ → Call} {c d : ℕ} {key key' : Bytes}
    (h : update calls c (.returned key' failed) d = .sending key) :
    d ≠ c ∧ calls d = .sending key := by
  by_cases hd : d = c
  · rw [hd, update_self] at h
    cases h
  · rw [update_of_ne hd] at h
    exact ⟨hd, h⟩

variable {s : Batcher} {c : ℕ} {key : Bytes}

theorem Marked.publish (h : Marked s) (hc : s.calls c = .idle) : Marked (s.publish c key) := by
  rw [Batcher.publish]
  split
  · -- the key has a mark already, and the call returns
    have hold : ∀ d k, update s.calls c (.returned key false) d =
        .sending k → s.calls d = .sending k :=
      fun d k hd => (sending_of_update hd).2
    refine ⟨h.nodup, h.marked, fun d k hd => h.sending d k (hold d k hd),
      fun d e k hd he => h.single d e k (hold d k hd) (hold e k he),
      fun k hk => (h.owned k hk).imp_right fun hsend => ?_, h.packets⟩
    exact exists_update (hc ▸ Call.noConfusion) hsend
  · rename_i hfree
    have hout : key ∉ s.publishCh ++ s.batch := fun hmem => hfree (h.marked key hmem)
    have hothers : ∀ d k, update s.calls c (.sending key) d =
        .sending k → d = c ∧ k = key ∨ d ≠ c ∧ k ≠ key ∧ s.calls d = .sending k := by
      intro d k hd
      by_cases hdc : d = c
      · rw [hdc, update_self] at hd
        exact .inl ⟨hdc, (Call.sending.inj hd).symm⟩
      · rw [update_of_ne hdc] at hd
        refine .inr ⟨hdc, ?_, hd⟩
        rintro rfl
        exact hfree (h.sending d k hd).1
    constructor
    · exact h.nodup
    · intro k hk
      dsimp only
      rw [update_of_ne (ne_of_mem_of_not_mem hk hout)]
      exact h.marked k hk
    · intro d k hd
      rcases hothers d k hd with ⟨-, rfl⟩ | ⟨-, hk, hd⟩
      · exact ⟨update_self _ _ _, hout⟩
      · dsimp only
        rw [update_of_ne hk]
        exact h.sending d k hd
    · intro d e k hd he
      rcases hothers d k hd with ⟨hdc, hk⟩ | ⟨-, hk, hd⟩
      · rcases hothers e k he with ⟨hec, -⟩ | ⟨-, hk', -⟩
        · rw [hdc, hec]
        · exact absurd hk hk'
      · rcases hothers e k he with ⟨-, hk'⟩ | ⟨-, -, he⟩
        · exact absurd hk' hk
        · exact h.single d e k hd he
    · intro k hk
      by_cases hkk : k = key
      · subst hkk
        exact .inr (exists_update_self s.calls c _)
      · dsimp only at hk
        rw [update_of_ne hkk] at hk
        refine (h.owned k hk).imp_right fun hsend => ?_
        exact exists_update (hc ▸ Call.noConfusion) hsend
    · exact h.packets

theorem Marked.sending_of_returned (h : Marked s)
    (hc : s.calls c = .sending key) {d : ℕ} {k : Bytes}
    (hd : update s.calls c (.returned key failed) d = .sending k) :
    s.calls d = .sending k ∧ k ≠ key := by
  obtain ⟨hdc, hold⟩ := sending_of_update hd
  refine ⟨hold, ?_⟩
  rintro rfl
  exact hdc (h.single d c k hold hc)

theorem sending_returned (hc : s.calls c = .sending key)
    {k : Bytes} (hk : k ≠ key) (hsend : s.Sending k) :
    ∃ d, update s.calls c (.returned key failed) d = .sending k := by
  refine exists_update ?_ hsend
  rw [hc]
  intro heq
  exact hk (Call.sending.inj heq).symm

section

variable (h : Marked s)
include h

theorem Marked.send (hc : s.calls c = .sending key) : Marked (s.send c key) := by
  obtain ⟨hpending, hout⟩ := h.sending c key hc
  have hperm : (s.publishCh ++ [key] ++ s.batch).Perm (key :: (s.publishCh ++ s.batch)) := by
    rw [List.append_assoc, List.singleton_append]
    exact List.perm_middle
  constructor
  · exact hperm.nodup_iff.mpr (List.nodup_cons.mpr ⟨hout, h.nodup⟩)
  · intro k hk
    rcases List.mem_cons.mp (hperm.mem_iff.mp hk) with rfl | hk
    · exact hpending
    · exact h.marked k hk
  · intro d k hd
    obtain ⟨hd, hk⟩ := h.sending_of_returned hc hd
    obtain ⟨hmark, hnot⟩ := h.sending d k hd
    refine ⟨hmark, fun hmem => ?_⟩
    rcases List.mem_cons.mp (hperm.mem_iff.mp hmem) with heq | hmem
    · exact hk heq
    · exact hnot hmem
  · intro d e k hd he
    exact h.single d e k (h.sending_of_returned hc hd).1 (h.sending_of_returned hc he).1
  · intro k hk
    by_cases hkk : k = key
    · exact .inl (hperm.mem_iff.mpr (hkk ▸ List.mem_cons_self))
    · exact (h.owned k hk).imp (fun hmem => hperm.mem_iff.mpr (List.mem_cons_of_mem _ hmem))
        (sending_returned hc hkk)
  · exact h.packets

theorem Marked.cancel (hc : s.calls c = .sending key) : Marked (s.cancel c key) := by
  obtain ⟨-, hout⟩ := h.sending c key hc
  have hmark : ∀ k, k ≠ key → update s.pending key false k = s.pending k :=
    fun k hk => update_of_ne hk _ _
  constructor
  · exact h.nodup
  · intro k hk
    exact (hmark k (ne_of_mem_of_not_mem hk hout)).trans (h.marked k hk)
  · intro d k hd
    obtain ⟨hd, hk⟩ := h.sending_of_returned hc hd
    obtain ⟨hpending, hnot⟩ := h.sending d k hd
    exact ⟨(hmark k hk).trans hpending, hnot⟩
  · intro d e k hd he
    exact h.single d e k (h.sending_of_returned hc hd).1 (h.sending_of_returned hc he).1
  · intro k hk
    have hkk : k ≠ key := by
      rintro rfl
      have hoff : (s.cancel c k).pending k = false := by simp [Batcher.cancel]
      exact Bool.false_ne_true (hoff.symm.trans hk)
    refine (h.owned k ((hmark k hkk).symm.trans hk)).imp_right ?_
    exact sending_returned hc hkk
  · exact h.packets

/-! ## Steps of the batcher -/

theorem Marked.of_perm {s' : Batcher}
    (hperm : (s'.publishCh ++ s'.batch).Perm (s.publishCh ++ s.batch))
    (hpending : s'.pending = s.pending) (hcalls : s'.calls = s.calls)
    (hpackets : ∀ payload ∈ s'.packets, ListsOnce payload) : Marked s' where
  nodup := hperm.nodup_iff.mpr h.nodup
  marked k hk := by
    rw [hpending]
    exact h.marked k (hperm.mem_iff.mp hk)
  sending d k hd := by
    rw [hcalls] at hd
    rw [hpending, hperm.mem_iff]
    exact h.sending d k hd
  single d e k := by
    rw [hcalls]
    exact h.single d e k
  owned k hk := by
    rw [hpending] at hk
    rw [hperm.mem_iff, Sending, hcalls]
    exact h.owned k hk
  packets := hpackets

theorem Marked.receive {rest : List Bytes}
    (hch : s.publishCh = key :: rest) : Marked (s.receive key rest) := by
  refine h.of_perm ?_ rfl rfl h.packets
  rw [hch]
  change (rest ++ (s.batch ++ [key])).Perm (key :: rest ++ s.batch)
  rw [← List.append_assoc, List.cons_append]
  exact List.perm_append_singleton key (rest ++ s.batch)

theorem Marked.broadcast {buf : Bytes} {m : Packet.Marshaled} (hbuf : buf.length = pooledLength)
    (hm : (batchPacket s.nodeID s.batch).marshal buf = some m) :
    Marked (s.broadcast m) := by
  refine h.of_perm (.refl _) rfl rfl ?_
  intro payload hpayload
  dsimp only [Batcher.broadcast] at hpayload
  split at hpayload
  · rename_i herr
    rcases List.mem_append.mp hpayload with hold | hnew
    · exact h.packets payload hold
    · rw [List.mem_singleton.mp hnew]
      have hfits : encodedSize s.batch ≤ pooledLength := by
        by_contra hlong
        obtain ⟨m', hm', herr'⟩ := Packet.marshal_of_lt
          (p := batchPacket s.nodeID s.batch) (b := buf) (by
            rw [length_wire_batchPacket, hbuf]
            exact Nat.not_le.mp hlong)
        obtain rfl := Option.mem_unique hm hm'
        rw [herr] at herr'
        cases herr'
      obtain ⟨m', hm', -, hread⟩ := marshal_batchPacket s.nodeID hbuf hfits
      obtain rfl := Option.mem_unique hm hm'
      exact ⟨_, hread, (List.nodup_append.mp h.nodup).2.1⟩
  · exact h.packets payload hpayload

theorem Marked.cleanup : Marked s.cleanup := by
  have hnodup := List.nodup_append.mp h.nodup
  have hpending : ∀ k, s.cleanup.pending k = true ↔ s.pending k = true ∧ k ∉ s.batch := by
    intro k
    change (s.pending k && !decide (k ∈ s.batch)) = true ↔ _
    rw [Bool.and_eq_true_iff, Bool.not_eq_true', decide_eq_false_iff_not]
  have hkeys : s.cleanup.publishCh ++ s.cleanup.batch = s.publishCh := List.append_nil _
  constructor
  · rw [hkeys]
    exact hnodup.1
  · intro k hk
    rw [hkeys] at hk
    rw [hpending]
    exact ⟨h.marked k (List.mem_append_left _ hk), fun hbatch => hnodup.2.2 k hk k hbatch rfl⟩
  · intro d k hd
    obtain ⟨hmark, hnot⟩ := h.sending d k hd
    rw [List.mem_append, not_or] at hnot
    rw [hpending, hkeys]
    exact ⟨⟨hmark, hnot.2⟩, hnot.1⟩
  · exact h.single
  · intro k hk
    obtain ⟨hmark, hbatch⟩ := (hpending k).mp hk
    rw [hkeys]
    refine (h.owned k hmark).imp_left fun hmem => ?_
    exact (List.mem_append.mp hmem).resolve_right hbatch
  · exact h.packets

theorem Marked.step {s' : Batcher} {a : Action} (hstep : step s a = some s') : Marked s' := by
  cases steps_of_step hstep with
  | publish hc => exact h.publish hc
  | send hc => exact h.send hc
  | cancel hc => exact h.cancel hc
  | receive hch => exact h.receive hch
  | tick => exact h.of_perm (.refl _) rfl rfl h.packets
  | broadcast hbuf hm => exact h.broadcast hbuf hm
  | cleanup hplace => exact h.cleanup

end

/-! ## Every moment of a run -/

/-- After any steps of any calls and of the batcher, the keys in the channel and
in the batch are pairwise distinct and marked; every mark belongs to a key that is
in the channel or in the batch or that exactly one call is about to send; and no
packet lists a key twice. -/
theorem pending_of_run {id : NodeID} {size : ℕ} {as : List Action} {s : Batcher}
    (hrun : step.run (new id size) as = some s) :
    (s.publishCh ++ s.batch).Nodup ∧ (∀ key ∈ s.publishCh ++ s.batch, s.pending key = true) ∧
      (∀ key, s.pending key = true → key ∈ s.publishCh ∨ key ∈ s.batch ∨
        ∃! c, s.calls c = .sending key) ∧
      ∀ payload ∈ s.packets, ∃ q, Packet.zero.unmarshal payload = some (.ok q) ∧ q.keys.Nodup := by
  have h : Marked s := step.run_invariant (fun _ _ _ h => h.step) hrun (marked_new id size)
  refine ⟨h.nodup, h.marked, ?_, h.packets⟩
  intro key hkey
  rcases h.owned key hkey with hmem | ⟨c, hc⟩
  · exact (List.mem_append.mp hmem).imp_right Or.inl
  · exact .inr (.inr ⟨c, hc, fun d hd => h.single d c key hd hc⟩)

/-- One key is on its way while another call is cancelled and a third one holds
its mark. -/
def overlapping : List Action :=
  [.publish 0 [0x61], .publish 1 [0x61], .send 0, .publish 2 [0x62], .cancel 2,
    .publish 3 [0x62], .receive, .tick]

theorem pending_of_run_overlapping : ∃ s, step.run (new NodeID.zero 10) overlapping = some s ∧
      s.pending [0x62] = true ∧ (∃! c, s.calls c = .sending [0x62]) ∧
      s.pending [0x61] = true ∧ s.batch = [[0x61]] := by
  obtain ⟨s, hrun, hmark, hch, hbatch, hmark'⟩ : ∃ s,
      step.run (new NodeID.zero 10) overlapping = some s ∧
      s.pending [0x62] = true ∧ s.publishCh = [] ∧ s.batch = [[0x61]] ∧
      s.pending [0x61] = true := ⟨_, rfl, rfl, rfl, rfl, rfl⟩
  refine ⟨s, hrun, hmark, ?_, hmark', hbatch⟩
  rcases (pending_of_run hrun).2.2.1 [0x62] hmark with hmem | hmem | howner
  · rw [hch] at hmem
    cases hmem
  · rw [hbatch] at hmem
    exact absurd (List.mem_singleton.mp hmem) (by decide)
  · exact howner

end Batcher

end GoWarp.Mesh
